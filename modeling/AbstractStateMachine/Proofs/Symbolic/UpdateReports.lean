import AbstractStateMachine.Proofs.Machine.Placing
import AbstractStateMachine.Proofs.Symbolic.Documentation

/-!
# Reports of applied updates

A step applies its updates one after the other, for different locations each, and then repeats the
values of the locations that it did not touch. So it leaves one report for each location. The
initial values are applied in the timestep in which locations may have come into being already;
such a location is then reported a second time.
-/

namespace AbstractStateMachine

open ListHeap Standard Specification Recorder

namespace Machine

variable {setting : Setting} {machine next : Machine} {function : FunctionId} {key : ArgKey}
  {value : Value} {values : List Value} {subject : Subject} {update : Update}
  {updates : List Update} {last : Nat}

/-! ### One update -/

theorem Documented.fits (h : machine.Documented setting)
    (hupdate : update ∈ machine.pending.updates) : machine.Fits setting update :=
  fits_of_mem_updates h.grounded h.pending hupdate

/-- What applying an update does: it stores the value and reports it, unless it is the rule to run
next. -/
structure Applies (setting : Setting) (update : Update) (machine next : Machine) : Prop where
  documented : next.Documented setting
  evolves : machine.Evolves setting next
  grows : machine.heap.Extends next.heap
  elsewhere : ∀ function key, (function, key) ≠ update.location →
    next.state.bucket function key = machine.state.bucket function key
  records : update.function = program ∧ next.recorder = machine.recorder ∨
    update.function ≠ program ∧
      ∃ location, next.recorder = machine.recorder.update update.location location

def recordedUpdate (setting : Setting) (machine : Machine) (update : Update) (args : List Value)
    (value : Value) : Recorder :=
  if update.function = program then machine.recorder
  else machine.recorder.update update.location (machine.written setting update.function args value)

theorem applyUpdate_eq (hsymbolic : setting.symbolic = true) (machine : Machine) (update : Update) :
    machine.applyUpdate setting update =
      let flat := (machine.flattenValue update.value).2.flattenValues update.args
      let value := (machine.flattenValue update.value).1
      flat.2.placed update.function update.key flat.1 value
        (flat.2.recordedUpdate setting update flat.1 value) := by
  unfold applyUpdate recordedUpdate
  rw [hsymbolic]
  by_cases hprogram : update.function = program
  · simp only [hprogram, Bool.true_and, bne_self_eq_false, Bool.false_eq_true, if_false, if_true]
    rfl
  · simp only [hprogram, Bool.true_and, bne_iff_ne, ne_eq, not_false_eq_true, if_true, if_false]
    rfl

theorem Documented.with_heap (h : machine.Documented setting) {heap : ListHeap}
    (hheap : heap.WellFormed) (hgrows : machine.heap.Extends heap) :
    machine.Develops setting { machine with heap } := by
  have hagrees := agrees_of_extends h.grounded.wellFormed hheap hgrows
  have hgrounded := h.grounded.with_heap hheap hgrows
  have hheld := acceptsAll_plain_iff.mp h.grounded.pending
  exact h.develops hagrees hgrounded rfl (h.pending.agrees hagrees hheld (hheld.extends hgrows)) rfl
    ⟨rfl, rfl⟩ fun _ _ => rfl

theorem Documented.applies_placed (h : machine.Documented setting)
    (halike : machine.WrittenAlike setting update.function update.key values)
    (hkey : machine.heap.argKey setting.digest values = update.key)
    (hvalues : machine.heap.Supports values) (hvalue : machine.heap.Supports [value]) :
    Applies setting update machine (machine.placed update.function update.key values value
      (machine.recordedUpdate setting update values value)) := by
  have htracks : machine.Tracks setting update.function update.key values value
      (machine.recordedUpdate setting update values value) := by
    unfold recordedUpdate
    split
    · next hprogram => exact .program hprogram rfl
    · exact .tracked rfl
  refine ⟨h.placed hkey htracks halike hvalues hvalue ?_, evolves_placed htracks ?_ ?_, .refl _,
    fun function key hother => ?_, ?_⟩
  · unfold recordedUpdate
    split <;> rfl
  · intro subject time
    unfold recordedUpdate
    split
    · exact Nat.le_refl _
    · rw [reports_update, List.length_append]
      exact Nat.le_add_right _ _
  · intro subject
    unfold recordedUpdate
    split
    · rfl
    · rw [reports_update, if_neg fun h => Timestep.noConfusion h.2, List.append_nil]
  · rw [bucket_placed, if_neg]
    rintro ⟨rfl, rfl, -⟩
    exact hother rfl
  · by_cases hprogram : update.function = program
    · exact .inl ⟨hprogram, if_pos hprogram⟩
    · exact .inr ⟨hprogram, _, if_neg hprogram⟩

/-- A flat copy is written like the value it is made from. -/
theorem term_flattenValue (hheap : machine.heap.WellFormed)
    (hvalue : machine.heap.Supports [value]) :
    (machine.flattenValue value).2.term setting (machine.flattenValue value).1 =
      machine.term setting value := by
  cases value with
  | list list =>
    have hlive := supports_iff.mp hvalue list List.mem_cons_self
    have hmakes := makes_flatten hheap (hheap.denotes_toList hlive)
    have hagrees := agrees_of_extends hheap hmakes.wellFormed hmakes.grows
    have htext : (machine.heap.flatten list).2.text setting.spec
          (.list (machine.heap.flatten list).1) =
        (machine.heap.flatten list).2.text setting.spec (.list list) := by
      rw [ListHeap.text, ListHeap.text, textWithin, textWithin, hmakes.denotes.toList_eq,
        toList_of_extends hheap hmakes.grows hlive]
    exact congrArg Term.text (htext.trans
      (hagrees.text_eq setting.spec hvalue (hvalue.extends hmakes.grows)))
  | _ => rfl

theorem map_term_flattenValues (hheap : machine.heap.WellFormed)
    (hvalues : machine.heap.Supports values) :
    (machine.flattenValues values).1.map ((machine.flattenValues values).2.term setting) =
      values.map (machine.term setting) := by
  induction values generalizing machine with
  | nil => rfl
  | cons value rest ih =>
    have hvalue := hvalues.of_mem List.mem_cons_self
    have hrest := hvalues.mono fun _ => List.mem_cons_of_mem value
    have hfirst := copies_flattenValue hheap hvalue
    have hothers := copies_flattenValues hfirst.wellFormed (hrest.extends hfirst.grows)
    have hagrees := agrees_of_extends hheap hfirst.wellFormed hfirst.grows
    have hagrees' := agrees_of_extends hfirst.wellFormed hothers.wellFormed hothers.grows
    rw [List.map_cons, ← term_flattenValue hheap hvalue,
      ← map_term_eq_of_agrees hagrees hrest (hrest.extends hfirst.grows),
      ← ih hfirst.wellFormed (hrest.extends hfirst.grows),
      ← term_eq_of_agrees hagrees' hfirst.supports (hfirst.supports.extends hothers.grows)]
    rfl

section Alike

variable {args : List Value} (halike : machine.WrittenAlike setting function key args)
  (hmachine : machine.Grounded setting) (hnext : next.heap.WellFormed)
  (hgrows : machine.heap.Extends next.heap)
  (hbucket : next.state.bucket function key = machine.state.bucket function key)
include halike hmachine hnext hgrows hbucket

theorem WrittenAlike.copied
    (hsame : ∀ others, machine.heap.Supports others → next.heap.sameArgs others values = true →
      machine.heap.sameArgs others args = true)
    (hterms : values.map (next.term setting) = args.map (machine.term setting)) :
    next.WrittenAlike setting function key values := by
  intro stored hstored hequal
  rw [hbucket] at hstored
  have hsupports := hmachine.supports_args hstored
  have hagrees := agrees_of_extends hmachine.wellFormed hnext hgrows
  have hsubject := halike stored hstored (hsame stored.args hsupports hequal)
  unfold Machine.subject at hsubject ⊢
  rwa [hterms, map_term_eq_of_agrees hagrees hsupports (hsupports.extends hgrows)]

theorem WrittenAlike.extends (hargs : machine.heap.Supports args) :
    next.WrittenAlike setting function key args := by
  have hagrees := agrees_of_extends hmachine.wellFormed hnext hgrows
  have hargs' := hargs.extends hgrows
  refine halike.copied hmachine hnext hgrows hbucket (fun others hothers hequal => ?_)
    (map_term_eq_of_agrees hagrees hargs hargs')
  rwa [← hagrees.sameArgs_eq hothers (hothers.extends hgrows) hargs hargs']

end Alike

theorem applies_applyUpdate (hsymbolic : setting.symbolic = true) (h : machine.Documented setting)
    (hfits : machine.Fits setting update)
    (halike : machine.WrittenAlike setting update.function update.key update.args) :
    Applies setting update machine (machine.applyUpdate setting update) := by
  obtain ⟨hargs, hvalues⟩ := acceptsAll_append.mp (acceptsAll_plain_iff.mpr hfits.supports)
  have hfirst := ends_flattenValue h.grounded (hvalues update.value List.mem_cons_self)
  have hargs' := hargs.extends h.grounded.wellFormed hfirst.grows
  have hrest := ends_flattenValues hfirst.upholds hargs'
  have hgrows := hfirst.grows.trans hrest.grows
  have hstored := (acceptsAll_plain_iff.mp (hfirst.accepted _ rfl)).extends hrest.grows
  have hcopies := copies_flattenValues hfirst.upholds.wellFormed (acceptsAll_plain_iff.mp hargs')
  have hkey := (hcopies.argKey_eq setting.digest).trans
    (hfits.extends h.grounded hfirst.upholds hfirst.grows).key
  -- Flattening changes nothing but the heap.
  obtain ⟨heap, hheap⟩ := exists_flattenValue_eq machine update.value
  obtain ⟨heap', hheap'⟩ :=
    exists_flattenValues_eq (machine.flattenValue update.value).2 update.args
  have hmiddle : (machine.flattenValue update.value).2.state = machine.state := by rw [hheap]
  have hflat : ((machine.flattenValue update.value).2.flattenValues update.args).2 =
      { machine with heap := heap' } := hheap'.trans (by rw [hheap])
  have hstate : ((machine.flattenValue update.value).2.flattenValues update.args).2.state =
      machine.state := by rw [hflat]
  have halike := (halike.extends h.grounded hfirst.upholds.wellFormed hfirst.grows
    (by rw [hmiddle]) hfits.supports_args).copied hfirst.upholds hrest.upholds.wellFormed
      hrest.grows (by rw [hmiddle, hstate]) hcopies.sameArgs
      (map_term_flattenValues hfirst.upholds.wellFormed (acceptsAll_plain_iff.mp hargs'))
  have hdevelops := h.with_heap hrest.upholds.wellFormed hgrows
  rw [applyUpdate_eq hsymbolic]
  generalize (machine.flattenValue update.value).2.flattenValues update.args = flat at *
  obtain ⟨args, flat⟩ := flat
  subst hflat
  have happlies := hdevelops.documented.applies_placed halike hkey
    (acceptsAll_plain_iff.mp (hrest.accepted _ rfl)) hstored
  exact ⟨happlies.documented, hdevelops.evolves.trans happlies.evolves,
    hgrows.trans happlies.grows, happlies.elsewhere, happlies.records⟩

section Applies

variable (h : Applies setting update machine next)
  (hprogram : function ≠ program)
include h

theorem Applies.timestamp : next.recorder.timestamp = machine.recorder.timestamp := by
  rcases h.records with ⟨-, hrecorder⟩ | ⟨-, location, hrecorder⟩ <;> rw [hrecorder]
  rfl

theorem Applies.subject_eq_iff (hapart : next.Apart setting function key subject)
    {location : TrackedLocation}
    (hrecorder : next.recorder = machine.recorder.update update.location location) :
    location.subject = subject ↔ update.location = (function, key) := by
  refine hapart.owns h.documented update.location location ?_
  rw [hrecorder]
  exact OrderedMap.get?_insert_self _ _ _

theorem Applies.upToDate_other (hapart : next.Apart setting function key subject)
    (hother : update.location ≠ (function, key))
    (hbefore : machine.recorder.UpToDate (function, key) subject last) :
    next.recorder.UpToDate (function, key) subject last := by
  rcases h.records with ⟨-, hrecorder⟩ | ⟨-, location, hrecorder⟩
  · exact hrecorder ▸ hbefore
  · have hsubject := mt (h.subject_eq_iff hapart hrecorder).mp hother
    exact hrecorder ▸ hbefore.update_other hother hsubject

include hprogram in
theorem Applies.upToDate_self (hapart : next.Apart setting function key subject)
    (hself : update.location = (function, key))
    (hbefore : machine.recorder.UpToDate (function, key) subject last)
    (hdue : machine.recorder.tracked.get? (function, key) = none ∨
      machine.recorder.timestamp = last + 1) :
    next.recorder.UpToDate (function, key) subject machine.recorder.timestamp := by
  have hfunction : update.function = function := congrArg Prod.fst hself
  rcases h.records with ⟨hupdate, -⟩ | ⟨-, location, hrecorder⟩
  · exact absurd (hfunction ▸ hupdate) hprogram
  · have hsubject := (h.subject_eq_iff hapart hrecorder).mpr hself
    rw [hrecorder, hself]
    exact hbefore.update_self hsubject hdue

theorem Applies.get?_tracked_other (hother : update.location ≠ (function, key)) :
    next.recorder.tracked.get? (function, key) =
      machine.recorder.tracked.get? (function, key) := by
  rcases h.records with ⟨-, hrecorder⟩ | ⟨-, location, hrecorder⟩ <;> rw [hrecorder]
  exact OrderedMap.get?_insert_of_ne _ _ (Ne.symm hother)

include hprogram in
theorem Applies.length_reports_self (hapart : next.Apart setting function key subject)
    (hself : update.location = (function, key)) :
    (next.recorder.reports subject (.at machine.recorder.timestamp)).length =
      (machine.recorder.reports subject (.at machine.recorder.timestamp)).length + 1 := by
  have hfunction : update.function = function := congrArg Prod.fst hself
  rcases h.records with ⟨hupdate, -⟩ | ⟨-, location, hrecorder⟩
  · exact absurd (hfunction ▸ hupdate) hprogram
  · have hsubject := (h.subject_eq_iff hapart hrecorder).mpr hself
    rw [hrecorder, reports_update, if_pos ⟨hsubject, rfl⟩, List.length_append]
    rfl

end Applies

/-! ### All updates of a step -/

theorem mem_touched_iff (hprogram : function ≠ program) :
    (function, key) ∈ touched updates ↔ ∃ update ∈ updates, update.location = (function, key) := by
  unfold touched
  simp only [List.mem_map, List.mem_filter, bne_iff_ne]
  constructor
  · rintro ⟨update, ⟨hupdate, -⟩, hlocation⟩
    exact ⟨update, hupdate, hlocation⟩
  · rintro ⟨update, hupdate, hlocation⟩
    refine ⟨update, ⟨hupdate, ?_⟩, hlocation⟩
    rw [show update.function = function from congrArg Prod.fst hlocation]
    exact hprogram

structure AppliesAll (setting : Setting) (updates : List Update) (machine next : Machine) :
    Prop where
  documented : next.Documented setting
  evolves : machine.Evolves setting next
  timestamp : next.recorder.timestamp = machine.recorder.timestamp
  untouched : ∀ function key subject last, next.Apart setting function key subject →
    (∀ update ∈ updates, update.location ≠ (function, key)) →
      machine.recorder.UpToDate (function, key) subject last →
        next.recorder.UpToDate (function, key) subject last
  touched : ∀ function key subject last, function ≠ program →
    next.Apart setting function key subject →
    (∃ update ∈ updates, update.location = (function, key)) →
      machine.recorder.UpToDate (function, key) subject last →
      machine.recorder.tracked.get? (function, key) = none ∨
          machine.recorder.timestamp = last + 1 →
        next.recorder.UpToDate (function, key) subject machine.recorder.timestamp
  reports : ∀ function key subject, function ≠ program →
    next.Apart setting function key subject →
    (∃ update ∈ updates, update.location = (function, key)) →
      (machine.recorder.reports subject (.at machine.recorder.timestamp)).length <
        (next.recorder.reports subject (.at machine.recorder.timestamp)).length

theorem appliesAll_foldl (hsymbolic : setting.symbolic = true) (h : machine.Documented setting)
    (hfits : ∀ update ∈ updates, machine.Fits setting update)
    (halike : ∀ update ∈ updates,
      machine.WrittenAlike setting update.function update.key update.args)
    (hnodup : (updates.map Update.location).Nodup) :
    AppliesAll setting updates machine (updates.foldl (applyUpdate setting) machine) := by
  induction updates generalizing machine with
  | nil =>
    have hself := h.with_heap h.grounded.wellFormed (.refl _)
    exact ⟨h, hself.evolves, rfl, fun _ _ _ _ _ _ => id,
      fun _ _ _ _ _ _ hnone => by simp at hnone, fun _ _ _ _ _ hnone => by simp at hnone⟩
  | cons update rest ih =>
    obtain ⟨hfirst, hothers⟩ := List.forall_mem_cons.mp hfits
    obtain ⟨hfirstAlike, halike⟩ := List.forall_mem_cons.mp halike
    obtain ⟨hnew, hdistinct⟩ := List.nodup_cons.mp hnodup
    -- No other update is for the location of the first one.
    have hunique : ∀ other ∈ rest, other.location ≠ update.location :=
      fun other hother heq => hnew (heq ▸ List.mem_map_of_mem hother)
    have happlies := applies_applyUpdate hsymbolic h hfirst hfirstAlike
    have hrest := ih happlies.documented
      (fun other hother => (hothers other hother).extends h.grounded happlies.documented.grounded
        happlies.grows)
      (fun other hother => (halike other hother).extends h.grounded
        happlies.documented.grounded.wellFormed happlies.grows
        (happlies.elsewhere _ _ (hunique other hother)) (hothers other hother).supports_args)
      hdistinct
    rw [List.foldl_cons]
    refine ⟨hrest.documented, happlies.evolves.trans hrest.evolves,
      hrest.timestamp.trans happlies.timestamp, ?_, ?_, ?_⟩
    · intro function key subject last hapart hnone hbefore
      obtain ⟨hfirst, hrestnone⟩ := List.forall_mem_cons.mp hnone
      exact hrest.untouched function key subject last hapart hrestnone
        (happlies.upToDate_other (hapart.of_evolves hrest.evolves) hfirst hbefore)
    · intro function key subject last hprogram hapart hsome hbefore hdue
      have hmiddle := hapart.of_evolves hrest.evolves
      by_cases hself : update.location = (function, key)
      · exact hrest.untouched function key subject _ hapart (hself ▸ hunique)
          (happlies.upToDate_self hprogram hmiddle hself hbefore hdue)
      · rw [← happlies.timestamp]
        refine hrest.touched function key subject last hprogram hapart ?_
          (happlies.upToDate_other hmiddle hself hbefore) ?_
        · simpa [hself] using hsome
        · rwa [happlies.get?_tracked_other hself, happlies.timestamp]
    · intro function key subject hprogram hapart hsome
      have hmiddle := hapart.of_evolves hrest.evolves
      by_cases hself : update.location = (function, key)
      · refine lt_of_lt_of_le ?_ (hrest.evolves.reports subject machine.recorder.timestamp)
        rw [happlies.length_reports_self hprogram hmiddle hself]
        exact Nat.lt_succ_self _
      · refine lt_of_le_of_lt (happlies.evolves.reports subject machine.recorder.timestamp) ?_
        rw [← happlies.timestamp]
        exact hrest.reports function key subject hprogram hapart (by simpa [hself] using hsome)

theorem AppliesAll.of_develops {start : Machine} (hstart : machine.Develops setting start)
    (hrecorder : start.recorder = machine.recorder) (h : AppliesAll setting updates start next) :
    AppliesAll setting updates machine next where
  documented := h.documented
  evolves := hstart.evolves.trans h.evolves
  timestamp := hrecorder ▸ h.timestamp
  untouched := hrecorder ▸ h.untouched
  touched := hrecorder ▸ h.touched
  reports := hrecorder ▸ h.reports

/-! ### The end of a step -/

section Committing

variable (h : machine.Documented setting)
include h

theorem Documented.summarized (endOfStep : Bool) :
    machine.Develops setting (machine.summarized setting endOfStep) :=
  h.develops (agrees_of_extends h.grounded.wellFormed h.grounded.wellFormed (.refl _))
    { h.grounded with pending := acceptsAll_nil } rfl UpdateSet.orderly_default rfl ⟨rfl, rfl⟩
    fun _ _ => rfl

theorem Documented.recordedBy {recorder : Recorder}
    (htracked : recorder.tracked = machine.recorder.tracked)
    (hpath : recorder.path = machine.recorder.path) :
    (machine.recordedBy recorder).Documented setting where
  grounded := { h.grounded with path := hpath ▸ h.grounded.path }
  pending := h.pending
  size := h.size
  keyed := h.keyed
  nodup := htracked ▸ h.nodup
  stored function key location hlocation := h.stored function key location (htracked ▸ hlocation)
  valued function key stored hprogram hbucket := by
    obtain ⟨location, hlocation, hvalue⟩ := h.valued function key stored hprogram hbucket
    exact ⟨location, htracked ▸ hlocation, hvalue⟩

omit h in
theorem evolves_recordedBy {recorder : Recorder}
    (htracked : recorder.tracked = machine.recorder.tracked)
    (hreports : ∀ subject time, (machine.recorder.reports subject (.at time)).length ≤
      (recorder.reports subject (.at time)).length)
    (hfinal : ∀ subject,
      recorder.reports subject .final = machine.recorder.reports subject .final) :
    machine.Evolves setting (machine.recordedBy recorder) where
  halted := rfl
  length _ _ := Nat.le_refl _
  persists _ _ location hlocation := ⟨location, hlocation, rfl⟩
  tracked key hkey := by
    show key ∈ recorder.tracked.keys
    rwa [htracked]
  reports := hreports
  final := hfinal

theorem Documented.evolves_repeatOthers (updates : List Update) :
    (machine.recordedBy (machine.recorder.repeatOthers (touched updates))).Documented setting ∧
      machine.Evolves setting
        (machine.recordedBy (machine.recorder.repeatOthers (touched updates))) := by
  have htracked := (sameTracks_repeatOthers machine.recorder (touched updates)).tracked
  refine ⟨h.recordedBy htracked (path_repeatOthers _), evolves_recordedBy htracked ?_ ?_⟩
  · intro subject time
    rw [reports_repeatOthers, List.length_append]
    exact Nat.le_add_right _ _
  · intro subject
    rw [reports_repeatOthers, if_neg nofun, List.append_nil]

variable (hsymbolic : setting.symbolic = true)
  (halike : machine.PendingWrittenAlike setting)
include hsymbolic halike

theorem Documented.appliesAll_initial :
    AppliesAll setting machine.pending.updates machine (machine.applyPending setting false) := by
  have hstart := h.summarized false
  rw [applyPending_eq, hsymbolic]
  refine AppliesAll.of_develops hstart rfl (appliesAll_foldl hsymbolic hstart.documented
    (fun update hupdate => ?_) halike h.pending.nodup_updates)
  exact ⟨(h.fits hupdate).supports, (h.fits hupdate).key⟩

/-- A step begins a timestep and reports every location once for it. -/
theorem Documented.develops_applyPending :
    machine.Develops setting (machine.applyPending setting true) := by
  have hstart := h.summarized true
  rw [applyPending_eq, hsymbolic]
  dsimp only [Bool.and_self, if_true]
  generalize hadvanced : (machine.summarized setting true).recordedBy
    (machine.summarized setting true).recorder.advance = advanced
  have hdocumented : advanced.Documented setting :=
    hadvanced ▸ hstart.documented.recordedBy rfl rfl
  have hadvances : machine.Evolves setting advanced := hadvanced ▸ hstart.evolves.trans
    (evolves_recordedBy rfl (fun _ _ => Nat.le_refl _) fun _ => rfl)
  have hfits : ∀ update ∈ machine.pending.updates, advanced.Fits setting update := by
    subst hadvanced
    exact fun update hupdate => ⟨(h.fits hupdate).supports, (h.fits hupdate).key⟩
  have halike : ∀ update ∈ machine.pending.updates,
      advanced.WrittenAlike setting update.function update.key update.args := hadvanced ▸ halike
  have happlies := appliesAll_foldl hsymbolic hdocumented hfits halike h.pending.nodup_updates
  generalize machine.pending.updates.foldl (applyUpdate setting) advanced = applied at happlies
  obtain ⟨hrepeated, hrepeats⟩ :=
    happlies.documented.evolves_repeatOthers machine.pending.updates
  refine ⟨hrepeated, hadvances.trans (happlies.evolves.trans hrepeats), ?_⟩
  intro hreported function key subject hprogram hapart
  have happlied := hapart.of_evolves hrepeats
  have howns := happlied.owns happlies.documented
  have hbefore := hreported function key subject hprogram
    (happlied.of_evolves (hadvances.trans happlies.evolves))
  have hadvancedUpToDate : advanced.recorder.UpToDate (function, key) subject
      machine.recorder.timestamp := by
    subst hadvanced
    exact hbefore.congr rfl fun _ => rfl
  have hnext : advanced.recorder.timestamp = machine.recorder.timestamp + 1 := by
    subst hadvanced
    rfl
  have hlast : (applied.recorder.repeatOthers (touched machine.pending.updates)).timestamp =
      machine.recorder.timestamp + 1 :=
    (sameTracks_repeatOthers _ _).timestamp.trans (happlies.timestamp.trans hnext)
  show UpToDate _ _ _ (applied.recorder.repeatOthers _).timestamp
  rw [hlast]
  by_cases htouched : (function, key) ∈ touched machine.pending.updates
  · have hupdated := happlies.touched function key subject _ hprogram happlied
      ((mem_touched_iff hprogram).mp htouched) hadvancedUpToDate (.inr hnext)
    rw [hnext] at hupdated
    exact hupdated.repeatOthers_touched happlies.documented.nodup howns htouched
  · have hnone : ∀ update ∈ machine.pending.updates, update.location ≠ (function, key) :=
      fun update hupdate heq => htouched ((mem_touched_iff hprogram).mpr ⟨update, hupdate, heq⟩)
    have hkept := happlies.untouched function key subject _ happlied hnone hadvancedUpToDate
    exact hkept.repeatOthers_untouched happlies.documented.nodup howns htouched
      (happlies.timestamp.trans hnext)

end Committing

theorem Documented.develops_reclaimLists (h : machine.Documented setting)
    (hpending : machine.pending = {}) (hlocals : machine.locals = []) :
    machine.Develops setting machine.reclaimLists := by
  have hgrounded := grounded_reclaimLists h.grounded hpending hlocals
  have hretains := retains_reclaimLists h.grounded
  refine h.develops ⟨h.grounded.wellFormed, hgrounded.wellFormed, fun list _ hlive =>
    hretains.toList_eq list hlive⟩ hgrounded rfl ?_ rfl ⟨rfl, rfl⟩ fun _ _ => rfl
  show machine.pending.Orderly _ _
  rw [hpending]
  exact UpdateSet.orderly_default

end Machine

end AbstractStateMachine
