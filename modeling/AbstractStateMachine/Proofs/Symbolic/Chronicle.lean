import AbstractStateMachine.Proofs.Backend.Evolution
import AbstractStateMachine.Proofs.Symbolic.UpdateReports

/-!
# One value for each location and timestep

A trace gives every stored location one value for each timestep from the first one that reports it,
the stored value for the present one. Main statement: for a machine that has been initialized and
has taken steps, in which no two stored locations share a key or are written alike and updates are
written like the stored locations that they are for, this is so exactly if no initial value is for a
location that came into being while the initial values were computed.
-/

namespace AbstractStateMachine

open ListHeap Standard Invariant Run Specification Recorder

namespace Machine

variable {setting : Setting} {machine next last : Machine} {function : FunctionId} {key : ArgKey}
  {args : List Value} {value : Value} {subject : Subject} {location : StoredLocation}

/-! ### What single operations do -/

section Operations

variable (h : machine.Documented setting)
include h

theorem Documented.develops_of_keepsState (hkept : machine.KeepsState setting next) :
    machine.Develops setting next :=
  h.develops (agrees_of_extends h.grounded.wellFormed hkept.grounded.wellFormed hkept.grows)
    hkept.grounded hkept.state hkept.pending hkept.halted hkept.tracks hkept.reports

theorem Documented.refl : machine.Develops setting machine :=
  h.develops_of_keepsState (keepsState_refl h.grounded h.pending)

theorem Documented.rebound {locals : List Binding} {frameBase : Nat} {span : Span}
    {output : Array String} {steps : Nat}
    (hgrounded : Grounded setting { machine with locals, frameBase, span, output, steps }) :
    machine.Develops setting { machine with locals, frameBase, span, output, steps } :=
  h.develops_of_keepsState (keepsState_of_pending hgrounded h.pending)

/-- What is tracked under the key of a location that is not stored belongs to another one. -/
theorem Documented.get?_tracked_eq_none {recorder : Recorder}
    (hunstored : machine.state.get? machine.heap function key args = none)
    (hdeclared : function.index < setting.spec.functions.size)
    (hsingle : ((machine.placed function key args value recorder).state.bucket function key).length
      ≤ 1) : machine.recorder.tracked.get? (function, key) = none := by
  by_contra htracked
  obtain ⟨location, hlocation⟩ := Option.ne_none_iff_exists'.mp htracked
  obtain ⟨stored, hstored, -⟩ := h.stored function key location hlocation hdeclared
  have hbucket : (machine.placed function key args value recorder).state.bucket function key =
      machine.state.bucket function key ++ [⟨args, value⟩] := by
    rw [Interpretation.get?_eq_get?_bucket] at hunstored
    refine (Interpretation.bucket_set function key).trans ?_
    rw [if_pos ⟨rfl, rfl, h.size ▸ hdeclared⟩, Bucket.set_of_get?_eq_none hunstored]
  rw [hbucket, List.length_append, List.length_singleton] at hsingle
  have hpositive := List.length_pos_of_mem hstored
  omega

theorem Documented.symbolized (hargs : machine.heap.Supports args)
    (hunstored : machine.state.get? machine.heap function
      (machine.heap.argKey setting.digest args) args = none) :
    machine.Develops setting (machine.symbolized setting function args) := by
  let key := machine.heap.argKey setting.digest args
  let symbol := Value.symbol (machine.recorder.lastSymbol + 1)
  let location := machine.written setting function args symbol
  let recorder := machine.recorder.fresh.2.create (function, key) location
  have htracked : recorder.tracked = machine.recorder.tracked.insert (function, key) location :=
    tracked_create
  have hsymbol : machine.heap.Supports [symbol] := supports_iff.mpr (by simp [symbol])
  have halike : machine.WrittenAlike setting function key args := by
    intro stored hstored hsame
    rw [Interpretation.get?_eq_get?_bucket, Bucket.get?, Option.map_eq_none_iff,
      List.find?_eq_none] at hunstored
    exact absurd hsame (hunstored stored hstored)
  have hdocumented : (machine.placed function key args symbol recorder).Documented setting :=
    h.placed rfl (.tracked htracked) halike hargs hsymbol (path_create _ _)
  have hevolves : machine.Evolves setting (machine.placed function key args symbol recorder) := by
    refine evolves_placed (.tracked htracked) (fun subject time => ?_) fun subject => ?_
    · rw [reports_create, reports_fresh, List.length_append]
      exact Nat.le_add_right _ _
    · rw [reports_create, reports_fresh, if_neg (by simp), List.append_nil]
  refine ⟨hdocumented, hevolves, fun hreported other probe subject hprogram hapart => ?_⟩
  have hbefore := hreported other probe subject hprogram (hapart.of_evolves hevolves)
  have hfresh : machine.recorder.fresh.2.UpToDate (other, probe) subject
      machine.recorder.fresh.2.timestamp :=
    hbefore.congr rfl fun _ => reports_fresh
  have htimestamp : recorder.timestamp = machine.recorder.fresh.2.timestamp :=
    timestamp_create
  show recorder.UpToDate (other, probe) subject recorder.timestamp
  rw [htimestamp]
  refine hfresh.create (fun hsame => ?_) (hapart.owns hdocumented _ _ ?_)
  · cases hsame
    refine h.get?_tracked_eq_none hunstored (hapart.declared (function, key) ?_) hapart.single
    show _ ∈ recorder.tracked.keys
    rw [htracked]
    exact OrderedMap.mem_keys_insert.mpr (.inl rfl)
  · show recorder.tracked.get? (function, key) = some location
    rw [htracked, OrderedMap.get?_insert_self]

end Operations

theorem evolution_develops (setting : Setting) :
    Evolution setting (Documented setting) (Develops setting) where
  grounded := Documented.grounded
  orderly := Documented.pending
  holds := Develops.documented
  trans := Develops.trans
  kept h := h.develops_of_keepsState
  symbolized h hargs _ := h.symbolized hargs

/-! ### Runs -/

/-- A machine develops until it halts. -/
inductive Proceeds (setting : Setting) (machine : Machine) : Machine → Prop where
  | running {next : Machine} (h : machine.Develops setting next) : Proceeds setting machine next
  | halted {before : Machine} (h : machine.Develops setting before) :
      Proceeds setting machine (before.halt setting)

theorem Proceeds.of_develops (hnext : machine.Develops setting next)
    (h : next.Proceeds setting last) : machine.Proceeds setting last := by
  cases h with
  | running h => exact .running (hnext.trans h)
  | halted h => exact .halted (hnext.trans h)

section Steps

theorem Documented.develops_read (h : machine.Documented setting) (fuel : Nat) :
    machine.Develops setting
      (read setting fuel program [] { machine with span := {} }).2 := by
  have hspan : machine.Develops setting { machine with span := {} } :=
    h.rebound (h.grounded.setSpan {})
  refine hspan.trans ?_
  rw [read_eq]
  have E := evolution_develops setting
  exact E.leads_run hspan.documented fun w => (E.maintained _).read fuel program

theorem Documented.develops_call (h : machine.Documented setting) (fuel : Nat) (rule : RuleId) :
    machine.Develops setting
      (orAbandon (callRule setting (exec setting fuel) rule []) machine).2 := by
  have E := evolution_develops setting
  apply E.leads_orAbandon
  rw [exec_eq, callRule_eq]
  exact E.leads_run h fun w => (E.maintained _).callRule fuel rule

theorem Documented.develops_scheduleStart (h : machine.Documented setting) (fuel : Nat) :
    machine.Develops setting (scheduleStart setting fuel machine).2 := by
  rw [scheduleStart_eq]
  have E := evolution_develops setting
  exact E.leads_run h fun w => (E.maintained _).scheduleStart
    (fun _ _ => supports_iff.mpr (by simp [backend])) fuel

variable (hsymbolic : setting.symbolic = true)
include hsymbolic

theorem Documented.develops_commit (h : machine.Documented setting)
    (halike : machine.PendingWrittenAlike setting) (hlocals : machine.locals = []) :
    machine.Develops setting (reclaimLists
      { machine.applyPending setting true with
        steps := (machine.applyPending setting true).steps + 1 }) := by
  have happlied := h.develops_applyPending hsymbolic halike
  have hcounted : (machine.applyPending setting true).Develops setting
      { machine.applyPending setting true with
        steps := (machine.applyPending setting true).steps + 1 } :=
    happlied.documented.rebound ⟨happlied.documented.grounded.wellFormed,
      happlied.documented.grounded.state, happlied.documented.grounded.pending,
      happlied.documented.grounded.locals, happlied.documented.grounded.path⟩
  exact happlied.trans (hcounted.trans (hcounted.documented.develops_reclaimLists
    (pending_applyPending true) ((locals_applyPending setting machine true).trans hlocals)))

theorem Documented.proceeds_step (h : machine.Documented setting) (hidle : machine.Idle setting)
    (hrunning : machine.halted = false) {fuel : Nat}
    (halike : ∀ ready ∈ (machine.stepLeg setting fuel).commit?, ready.PendingWrittenAlike setting) :
    machine.Proceeds setting (step setting fuel machine).2 := by
  have hread := h.develops_read fuel
  have hframes : Frames setting { machine with span := {} } _ :=
    (onlyObserves_read fuel program [] { machine with span := {} }).toFrames
  have hsteps := stepsTo_step setting fuel machine
  generalize step setting fuel machine = outcome at hsteps ⊢
  cases hsteps with
  | halted hhalted => exact absurd (hrunning.symm.trans hhalted) nofun
  | halts _ hprogram =>
    rw [hprogram] at hread
    exact .halted hread
  | unscheduled _ hprogram _ =>
    rw [hprogram] at hread
    exact .running hread
  | @failed rule _ middle _ _ hprogram hcall =>
    rw [hprogram] at hread
    have hcalled := hread.documented.develops_call fuel rule
    rw [hcall] at hcalled
    exact .running (hread.trans hcalled)
  | @done rule middle next hrunning hprogram hcall =>
    rw [hprogram] at hread hframes
    have hcalled := hread.documented.develops_call fuel rule
    have hlocals : middle.Frames setting _ := frames_orAbandon
      (keepsLayers_callRule (keepsLayers_exec fuel) rule [])
      (hframes.locals.trans hidle.locals) (hframes.frameBase.trans hidle.frameBase)
    rw [hcall] at hcalled hlocals
    refine .running (hread.trans (hcalled.trans (hcalled.documented.develops_commit hsymbolic
      (halike next (commit?_stepLeg hrunning hprogram hcall)) ?_)))
    exact hlocals.locals.trans (hframes.locals.trans hidle.locals)

omit hsymbolic in
theorem step_of_halted (hhalted : machine.halted = true) (fuel : Nat) :
    (step setting fuel machine).2 = machine := by
  have hsteps := stepsTo_step setting fuel machine
  generalize step setting fuel machine = outcome at hsteps ⊢
  cases hsteps with
  | halted => rfl
  | halts hrunning | unscheduled hrunning | failed hrunning | done hrunning =>
    exact absurd hhalted hrunning

theorem Documented.proceeds_steps (h : machine.Documented setting) (hidle : machine.Idle setting)
    (hrunning : machine.halted = false) {fuels : List Nat}
    (halike : ∀ leg ∈ itinerary setting machine (fuels.map .step), ∀ ready ∈ leg.commit?,
      ready.PendingWrittenAlike setting) :
    machine.Proceeds setting
      (fuels.foldl (fun machine fuel => (step setting fuel machine).2) machine) := by
  induction fuels generalizing machine with
  | nil => exact .running h.refl
  | cons fuel rest ih =>
    obtain ⟨hfirst, hothers⟩ := List.forall_mem_cons.mp halike
    have hstep := h.proceeds_step hsymbolic hidle hrunning hfirst
    have hnext : ((step setting fuel machine).2).Idle setting := hidle.leg (.step fuel)
    rw [call_step_snd] at hothers
    rw [List.foldl_cons]
    generalize (step setting fuel machine).2 = next at hstep hnext hothers ⊢
    cases hstep with
    | running hdevelops =>
      exact .of_develops hdevelops
        (ih hdevelops.documented hnext (hdevelops.evolves.halted.trans hrunning) hothers)
    | halted hdevelops =>
      have hstays : ∀ (fuels : List Nat) (machine : Machine), machine.halted = true →
          fuels.foldl (fun machine fuel => (step setting fuel machine).2) machine =
            machine := by
        intro fuels machine hhalted
        induction fuels with
        | nil => rfl
        | cons fuel rest ih => rw [List.foldl_cons, step_of_halted hhalted, ih]
      rw [hstays rest _ rfl]
      exact .halted hdevelops

end Steps

/-! ### One value for each timestep -/

/-- For every stored location but the rule to run next, the trace has one report for each timestep
from the first one that reports it, the one for the present with the stored value. A machine that
has halted reports the stored value once more as the final one. -/
def OneValuePerTimestep (setting : Setting) (machine : Machine) : Prop :=
  ∀ function key, function ≠ program →
    ∀ location ∈ machine.state.bucket function key,
      let subject := machine.subject setting function location.args
      let value := machine.term setting location.value
      machine.recorder.ReportedUntil subject machine.recorder.timestamp value ∧
        machine.recorder.reports subject .final = if machine.halted then [value] else []

/-- The functions of tracked locations are declared, and neither keys nor the trace confuse stored
locations. -/
structure ToldApart (setting : Setting) (machine : Machine) : Prop where
  declared : ∀ key ∈ machine.recorder.tracked.keys, key.1.index < setting.spec.functions.size
  single : ∀ function key, (machine.state.bucket function key).length ≤ 1
  apart : ∀ function key other probe, ∀ location ∈ machine.state.bucket function key,
    ∀ location' ∈ machine.state.bucket other probe,
      machine.subject setting function location.args =
        machine.subject setting other location'.args → (function, key) = (other, probe)

theorem toldApart_iff : machine.ToldApart setting ↔
    (∀ key ∈ machine.recorder.tracked.keys, key.1.index < setting.spec.functions.size) ∧
    (∀ place ∈ machine.state.places, (machine.state.bucket place.1 place.2).length ≤ 1) ∧
    ∀ place ∈ machine.state.places, ∀ place' ∈ machine.state.places,
      ∀ location ∈ machine.state.bucket place.1 place.2,
        ∀ location' ∈ machine.state.bucket place'.1 place'.2,
          machine.subject setting place.1 location.args =
            machine.subject setting place'.1 location'.args → place = place' := by
  constructor
  · intro h
    exact ⟨h.declared, fun place _ => h.single place.1 place.2, fun place _ place' _ =>
      h.apart place.1 place.2 place'.1 place'.2⟩
  · rintro ⟨hdeclared, hsingle, hapart⟩
    refine ⟨hdeclared, fun function key => ?_, fun function key other probe location hlocation
      location' hlocation' => ?_⟩
    · rcases hbucket : machine.state.bucket function key with _ | ⟨location, rest⟩
      · exact Nat.zero_le 1
      · rw [← hbucket]
        exact hsingle _ (Interpretation.mem_places_of_mem_bucket (hbucket ▸ List.mem_cons_self))
    · exact hapart _ (Interpretation.mem_places_of_mem_bucket hlocation) _
        (Interpretation.mem_places_of_mem_bucket hlocation') location hlocation location' hlocation'

instance : Decidable (machine.ToldApart setting) := decidable_of_iff' _ toldApart_iff

theorem eq_singleton_of_mem {bucket : Bucket} (hsingle : bucket.length ≤ 1)
    (hlocation : location ∈ bucket) : bucket = [location] := by
  obtain ⟨only, rfl⟩ := List.length_eq_one_iff.mp
    (Nat.le_antisymm hsingle (List.length_pos_of_mem hlocation))
  rw [List.mem_singleton.mp hlocation]

theorem ToldApart.apart_of_mem (h : machine.ToldApart setting)
    (hlocation : location ∈ machine.state.bucket function key) :
    machine.Apart setting function key (machine.subject setting function location.args) := by
  refine ⟨h.declared, h.single function key, fun other probe location' hlocation' => ?_⟩
  refine ⟨h.apart other probe function key location' hlocation' location hlocation, ?_⟩
  rintro ⟨⟩
  rw [eq_singleton_of_mem (h.single function key) hlocation, List.mem_singleton] at hlocation'
  rw [hlocation']

theorem Documented.chronicled (h : machine.Documented setting)
    (hreported : machine.Reported setting)
    (hlocation : location ∈ machine.state.bucket function key)
    (hprogram : function ≠ program)
    (hapart : machine.Apart setting function key subject) :
    machine.recorder.ReportedUntil subject machine.recorder.timestamp
        (machine.term setting location.value) ∧
      ((machine.recorder.tracked.get? (function, key)).map TrackedLocation.value).toList =
        [machine.term setting location.value] := by
  have hbucket := eq_singleton_of_mem hapart.single hlocation
  obtain ⟨tracked, htracked, hvalue⟩ := h.valued function key location hprogram hbucket
  have hupToDate := (hreported function key subject hprogram hapart).tracked tracked htracked
  rw [hvalue] at hupToDate
  exact ⟨hupToDate, by rw [htracked, ← hvalue]; rfl⟩

section Final

variable (h : machine.Documented setting) (hreported : machine.Reported setting)
  (hfinal : ∀ subject, machine.recorder.reports subject .final = [])
include h hreported hfinal

theorem Documented.oneValuePerTimestep (hrunning : machine.halted = false)
    (htold : machine.ToldApart setting) : machine.OneValuePerTimestep setting := by
  intro function key hprogram location hlocation
  have hchronicled := h.chronicled hreported hlocation hprogram (htold.apart_of_mem hlocation)
  exact ⟨hchronicled.1, by rw [hfinal, hrunning]; rfl⟩

theorem Documented.oneValuePerTimestep_halt (hsymbolic : setting.symbolic = true)
    (htold : (machine.halt setting).ToldApart setting) :
    (machine.halt setting).OneValuePerTimestep setting := by
  intro function key hprogram location hlocation
  have hrecorder : (machine.halt setting).recorder = machine.recorder.finish := if_pos hsymbolic
  have htracks : machine.recorder.SameTracks (machine.halt setting).recorder :=
    hrecorder ▸ sameTracks_finish
  have hhalted := htold.apart_of_mem hlocation
  have hapart : machine.Apart setting function key
      (machine.subject setting function location.args) :=
    ⟨htracks.tracked ▸ hhalted.declared, hhalted.single, hhalted.subject_eq_iff⟩
  obtain ⟨huntil, hvalue⟩ := h.chronicled hreported hlocation hprogram hapart
  dsimp only
  rw [htracks.timestamp, hrecorder]
  constructor
  · refine huntil.congr fun time => ?_
    rw [reports_finish, if_neg nofun, List.append_nil]
  · show machine.recorder.finish.reports (machine.subject setting function location.args) .final = _
    rw [reports_finish_final h.nodup (hapart.owns h), hfinal, hvalue]
    rfl

end Final

/-! ### Initial values -/

theorem documented_new (setting : Setting) : (Machine.new setting).Documented setting := by
  have hnone : ∀ function key, (Machine.new setting).state.bucket function key = [] := by
    intro function key
    have htable : (Interpretation.empty setting.spec).table function = .empty := by
      unfold Interpretation.table Interpretation.empty
      rw [Array.getD_eq_getD_getElem?, Array.getElem?_replicate]
      split <;> rfl
    exact congrArg (fun table : Table => (table.get? key).getD []) htable
  refine ⟨upholds_new setting _, UpdateSet.orderly_default, Array.size_replicate,
    fun function key location hlocation => ?_, List.nodup_nil, nofun,
    fun function key stored _ hbucket => ?_⟩
  · rw [hnone] at hlocation
    cases hlocation
  · rw [hnone] at hbucket
    cases hbucket

theorem reported_new (setting : Setting) : (Machine.new setting).Reported setting :=
  fun _ _ _ _ _ => ⟨fun _ _ => rfl, nofun⟩

/-- Initial values are the only reports for the timestep if they are for new locations. -/
theorem AppliesAll.reported {updates : List Update} (h : AppliesAll setting updates machine next)
    (hreported : machine.Reported setting)
    (hnew : ∀ update ∈ updates, update.function ≠ program →
      update.location ∉ machine.recorder.tracked.keys) : next.Reported setting := by
  intro function key subject hprogram hapart
  have hbefore := hreported function key subject hprogram (hapart.of_evolves h.evolves)
  rw [h.timestamp]
  by_cases htouched : ∃ update ∈ updates, update.location = (function, key)
  · refine h.touched function key subject _ hprogram hapart htouched hbefore (.inl ?_)
    obtain ⟨update, hupdate, hlocation⟩ := htouched
    have hfunction : update.function = function := congrArg Prod.fst hlocation
    rw [← hlocation]
    exact OrderedMap.get?_eq_none_iff.mpr (hnew update hupdate (hfunction ▸ hprogram))
  · exact h.untouched function key subject _ hapart (by simpa using htouched) hbefore

theorem AppliesAll.exists_two_reports {updates : List Update}
    (h : AppliesAll setting updates machine next) (hmachine : machine.Documented setting)
    (hreported : machine.Reported setting) {update : Update} (hupdate : update ∈ updates)
    (hprogram : update.function ≠ program)
    (hold : update.location ∈ machine.recorder.tracked.keys)
    (htold : next.ToldApart setting) :
    ∃ location ∈ next.state.bucket update.function update.key,
      2 ≤ (next.recorder.reports (next.subject setting update.function location.args)
        (.at machine.recorder.timestamp)).length := by
  obtain ⟨tracked, htracked⟩ := Option.ne_none_iff_exists'.mp fun hnone =>
    OrderedMap.get?_eq_none_iff.mp hnone hold
  have hdeclared := htold.declared _ (h.evolves.tracked _ hold)
  obtain ⟨stored, hstored, -⟩ := hmachine.stored _ _ tracked htracked hdeclared
  obtain ⟨location, hlocation, -⟩ := h.evolves.persists _ _ stored hstored
  have hapart := htold.apart_of_mem hlocation
  have hreport := (hreported _ _ _ hprogram (hapart.of_evolves h.evolves)).tracked tracked htracked
  obtain ⟨-, -, -, hone⟩ := hreport
  have hmore := h.reports _ _ _ hprogram hapart ⟨update, hupdate, rfl⟩
  rw [hone] at hmore
  exact ⟨location, hlocation, hmore⟩

theorem ToldApart.of_evolves (h : next.ToldApart setting)
    (hevolves : machine.Evolves setting next) :
    machine.ToldApart setting where
  declared key hkey := h.declared key (hevolves.tracked key hkey)
  single function key := (hevolves.length function key).trans (h.single function key)
  apart function key other probe location hlocation location' hlocation' hsubject := by
    obtain ⟨later, hlater, heq⟩ := hevolves.persists function key location hlocation
    obtain ⟨later', hlater', heq'⟩ := hevolves.persists other probe location' hlocation'
    exact h.apart function key other probe later hlater later' hlater'
      (heq.trans (hsubject.trans heq'.symm))

theorem sameTracks_halt (setting : Setting) (machine : Machine) :
    machine.recorder.SameTracks (machine.halt setting).recorder := by
  show machine.recorder.SameTracks (if setting.symbolic then machine.recorder.finish else _)
  split
  · exact sameTracks_finish
  · exact ⟨rfl, rfl⟩

theorem ToldApart.of_halt (h : (machine.halt setting).ToldApart setting) :
    machine.ToldApart setting :=
  ⟨(sameTracks_halt setting machine).tracked ▸ h.declared, h.single, h.apart⟩

theorem reports_halt (subject : Subject) (time : Nat) :
    (machine.halt setting).recorder.reports subject (.at time) =
      machine.recorder.reports subject (.at time) := by
  show (if setting.symbolic then machine.recorder.finish else _ : Recorder).reports _ _ = _
  split
  · rw [reports_finish, if_neg nofun, List.append_nil]
  · rfl

theorem Proceeds.toldApart (h : machine.Proceeds setting last) (htold : last.ToldApart setting) :
    machine.ToldApart setting := by
  cases h with
  | running h => exact htold.of_evolves h.evolves
  | halted h => exact htold.of_halt.of_evolves h.evolves

theorem Develops.length_reports_le_one (h : machine.Develops setting next)
    (hone : ∀ location ∈ next.state.bucket function key, ∀ time,
      (next.recorder.reports (next.subject setting function location.args) (.at time)).length ≤ 1)
    (hlocation : location ∈ machine.state.bucket function key) (time : Nat) :
    (machine.recorder.reports (machine.subject setting function location.args)
      (.at time)).length ≤ 1 := by
  obtain ⟨later, hlater, hsubject⟩ := h.evolves.persists function key location hlocation
  rw [← hsubject]
  exact (h.evolves.reports _ time).trans (hone later hlater time)

theorem Proceeds.length_reports_le_one (h : machine.Proceeds setting last)
    (hone : last.OneValuePerTimestep setting) (hprogram : function ≠ program)
    (hlocation : location ∈ machine.state.bucket function key) (time : Nat) :
    (machine.recorder.reports (machine.subject setting function location.args)
      (.at time)).length ≤ 1 := by
  cases h with
  | running h =>
    refine h.length_reports_le_one (fun later hlater time => ?_) hlocation time
    exact (hone function key hprogram later hlater).1.length_le_one time
  | halted h =>
    refine h.length_reports_le_one (fun later hlater time => ?_) hlocation time
    rw [← reports_halt]
    exact (hone function key hprogram later hlater).1.length_le_one time

theorem Proceeds.oneValuePerTimestep (h : machine.Proceeds setting last)
    (hsymbolic : setting.symbolic = true) (hreported : machine.Reported setting)
    (hfinal : ∀ subject, machine.recorder.reports subject .final = [])
    (hrunning : machine.halted = false) (htold : last.ToldApart setting) :
    last.OneValuePerTimestep setting := by
  cases h with
  | running h =>
    exact h.documented.oneValuePerTimestep (h.reported hreported)
      (fun subject => (h.evolves.final subject).trans (hfinal subject))
      (h.evolves.halted.trans hrunning) htold
  | halted h =>
    exact h.documented.oneValuePerTimestep_halt (h.reported hreported)
      (fun subject => (h.evolves.final subject).trans (hfinal subject)) hsymbolic htold

theorem exists_applied_of_init_ok (hsymbolic : setting.symbolic = true) {fuel : Nat}
    (halike : ∀ ready ∈ ((Machine.new setting).initLeg setting fuel).commit?,
      ready.PendingWrittenAlike setting)
    (hinit : (init setting fuel (.new setting)).1 = .ok ()) :
    let start := (scheduleStart setting fuel (.new setting)).2
    ∃ applied, AppliesAll setting start.pending.updates start applied ∧
      applied.Develops setting (init setting fuel (.new setting)).2 := by
  intro start
  have hstart : start.Documented setting :=
    ((documented_new setting).develops_scheduleStart fuel).documented
  have hlocals : start.locals = [] :=
    (keepsLayers_scheduleStart fuel (.new setting)).frames.locals
  have hinitializes := initializesTo_init setting fuel (.new setting)
  generalize init setting fuel (.new setting) = outcome at hinit hinitializes ⊢
  cases hinitializes with
  | failed => cases hinit
  | @done next hscheduled =>
    obtain rfl : start = next := congrArg Prod.snd (orAbandon_eq_ok hscheduled)
    have happlied := hstart.appliesAll_initial hsymbolic (halike start (commit?_initLeg hscheduled))
    exact ⟨_, happlied, happlied.documented.develops_reclaimLists (pending_applyPending false)
      ((locals_applyPending setting _ false).trans hlocals)⟩

/-- **One value per location and timestep.** After an initialization and any steps, if no two stored
locations share a key or are written alike and all updates are written like the stored locations
that they are for, the trace gives every location one value for each timestep, exactly if no initial
value is for a location that came into being while the initial values were computed. -/
theorem oneValuePerTimestep_iff (hsymbolic : setting.symbolic = true) {fuel : Nat}
    {fuels : List Nat} (hinit : (Run.init setting fuel (.new setting)).1 = .ok ())
    (halike : ∀ leg ∈ itinerary setting (.new setting) (.init fuel :: fuels.map .step),
      ∀ ready ∈ leg.commit?, ready.PendingWrittenAlike setting)
    (htold : (afterCalls setting (.init fuel :: fuels.map .step)).ToldApart setting) :
    (afterCalls setting (.init fuel :: fuels.map .step)).OneValuePerTimestep setting ↔
      let start := (scheduleStart setting fuel (.new setting)).2
      ∀ update ∈ start.pending.updates, update.function ≠ program →
        update.location ∉ start.recorder.tracked.keys := by
  have hstart := (documented_new setting).develops_scheduleStart fuel
  obtain ⟨hinitial, hsteps⟩ := List.forall_mem_cons.mp halike
  rw [call_init_snd] at hsteps
  obtain ⟨applied, happlied, hfirst⟩ := exists_applied_of_init_ok hsymbolic hinitial hinit
  have hbegun := hstart.evolves.trans happlied.evolves
  have hidle : (init setting fuel (.new setting)).2.Idle setting :=
    (idle_new setting).leg (.init fuel)
  -- all that follows the initial values is one development
  have hlast : applied.Proceeds setting
      (afterCalls setting (.init fuel :: fuels.map .step)) := by
    rw [afterCalls, List.foldl_cons, List.foldl_map, call_init_snd]
    simp only [call_step_snd]
    exact .of_develops hfirst (hfirst.documented.proceeds_steps hsymbolic hidle
      (hfirst.evolves.halted.trans hbegun.halted) hsteps)
  constructor
  · intro hone start update hupdate hprogram htracked
    obtain ⟨location, hlocation, htwo⟩ := happlied.exists_two_reports hstart.documented
      (hstart.reported (reported_new setting)) hupdate hprogram htracked (hlast.toldApart htold)
    exact absurd (htwo.trans (hlast.length_reports_le_one hone hprogram hlocation _)) (by decide)
  · intro hnew
    exact hlast.oneValuePerTimestep hsymbolic
      (happlied.reported (hstart.reported (reported_new setting)) hnew) hbegun.final hbegun.halted
      htold

/-- The value of `s(1)` is read for `total([1])` before the first step, that of `s(2)` by the rule,
which updates `total([1])`. Lists with as many tokens have the same key. -/
def runningTotal : Setting where
  symbolic := true
  digest tokens := .word tokens.length.toUInt64
  spec :=
    let one : Expr := .list [.int 1]
    let sum : Expr := .binary .add (.read ⟨1⟩ [one]) (.read ⟨2⟩ [.int 2])
    { functions := #[{ name := "program", result := .rule },
        { name := "total", args := [.list .int], initializers := [([one], .read ⟨2⟩ [.int 1])] },
        { name := "s", args := [.int], symbolic := true }]
      rules := #[{ name := "main", body := some { action := .par [
        { action := .update ⟨1⟩ [one] sum }, { action := .update ⟨0⟩ [] .undefined }] } }]
      start := some ⟨0⟩ }

theorem oneValuePerTimestep_runningTotal :
    let last := afterCalls runningTotal [.init 5, .step 5, .step 5]
    ¬ Function.Injective runningTotal.digest ∧ last.halted = true ∧ last.recorder.timestamp = 1 ∧
      last.ToldApart runningTotal ∧ last.OneValuePerTimestep runningTotal := by
  have htold : (afterCalls runningTotal (.init 5 :: [5, 5].map .step)).ToldApart runningTotal := by
    decide +kernel
  have hiff := oneValuePerTimestep_iff rfl (by decide +kernel) (by decide +kernel) htold
  refine ⟨fun hinjective => ?_, by decide +kernel, by decide +kernel, htold,
    hiff.mpr (by decide +kernel)⟩
  have hequal : [Token.str "a"] = [Token.str "b"] := hinjective rfl
  simp at hequal

/-- The initial value of `g` is that of `f`, which is given its own afterwards. -/
def readBeforeInitialized : Setting where
  symbolic := true
  spec :=
    { functions := #[{ name := "program", result := .rule },
        { name := "g", initializers := [([], .read ⟨2⟩ [])] },
        { name := "f", symbolic := true, initializers := [([], .int 5)] }] }

/-- The trace has both a symbol and `5` as the value of `f` before the first step. -/
theorem two_values_readBeforeInitialized :
    let first := afterCalls readBeforeInitialized [.init 5]
    (init readBeforeInitialized 5 (.new readBeforeInitialized)).1 = .ok () ∧
      (∀ leg ∈ itinerary readBeforeInitialized (.new readBeforeInitialized) [.init 5],
        ∀ ready ∈ leg.commit?, ready.PendingWrittenAlike readBeforeInitialized) ∧
      first.ToldApart readBeforeInitialized ∧
      first.recorder.reports ⟨"f", []⟩ (.at 0) = [.symbol 1, .int 5] ∧
      ¬ first.OneValuePerTimestep readBeforeInitialized := by
  refine ⟨by decide +kernel, by decide +kernel, by decide +kernel, by decide +kernel,
    fun hone => ?_⟩
  have hf := (hone ⟨2⟩ [] nofun ⟨[], .int 5⟩ (by decide +kernel)).1.length_le_one 0
  exact absurd hf (by decide +kernel)

end Machine

end AbstractStateMachine
