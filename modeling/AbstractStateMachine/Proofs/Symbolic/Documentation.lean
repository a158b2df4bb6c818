import AbstractStateMachine.Proofs.Machine.Grounding
import AbstractStateMachine.Proofs.Symbolic.Reports
import AbstractStateMachine.Proofs.UpdateSet.Orderly

/-!
# Stored locations and their reports

The recorder of a machine tracks the locations that its state holds. It goes by keys, the state by
arguments and the trace by texts. A machine is documented if what is tracked under a key is written
like a location stored under it, and if the only location under a key has the value on record. As
long as no two stored locations have the same key or are written alike, and updates are written like
the stored locations that they are for, storing a value and reporting it keeps the recorder up to
date.
-/

namespace AbstractStateMachine

open ListHeap Standard

/-! ### Writing -/

namespace ListHeap

variable {heap later : ListHeap} {value : Value}

theorem Matches.textWithin_eq {kept : Handle → Prop} {depth : Handle → Nat}
    (hmatch : heap.Matches later kept depth) (spec : Specification) {bound bound' : Nat}
    (hvalue : KeptWithin kept depth bound value) (hvalue' : KeptWithin kept depth bound' value) :
    later.textWithin spec bound' value = heap.textWithin spec bound value := by
  induction bound generalizing bound' value with
  | zero =>
    cases value with
    | list list => exact absurd (hvalue list rfl).2 (Nat.not_lt_zero _)
    | bool value => cases value <;> cases bound' <;> rfl
    | _ => cases bound' <;> rfl
  | succ bound ih =>
    cases value with
    | list list =>
      obtain _ | bound' := bound'
      · exact absurd (hvalue' list rfl).2 (Nat.not_lt_zero _)
      rw [textWithin, textWithin, hmatch.toList_eq list (hvalue list rfl).1]
      rw [List.map_congr_left fun element helement => ?_]
      exact ih (hmatch.keptWithin_of_mem hvalue helement)
        (hmatch.keptWithin_of_mem hvalue' helement)
    | bool value => cases value <;> cases bound' <;> rfl
    | _ => cases bound' <;> rfl

theorem Agrees.text_eq (h : heap.Agrees later) (spec : Specification)
    (hvalue : heap.Supports [value]) (hvalue' : later.Supports [value]) :
    later.text spec value = heap.text spec value := by
  obtain ⟨kept, depth, hmatch, hkept⟩ := h.exists_keptWithin
  exact hmatch.textWithin_eq spec (hkept value hvalue hvalue').1 (hkept value hvalue hvalue').2

end ListHeap

namespace Machine

def subject (setting : Setting) (machine : Machine) (function : FunctionId) (args : List Value) :
    Subject :=
  ⟨(setting.spec.function function).name, args.map (machine.term setting)⟩

variable {setting : Setting} {machine next last : Machine} {function other : FunctionId}
  {key probe : ArgKey} {args values : List Value} {value : Value} {subject : Subject}

theorem term_eq_of_agrees (h : machine.heap.Agrees next.heap)
    (hvalue : machine.heap.Supports [value]) (hvalue' : next.heap.Supports [value]) :
    next.term setting value = machine.term setting value :=
  congrArg (fun text => (Term.ofScalar? value).getD (.text text))
    (h.text_eq setting.spec hvalue hvalue')

theorem map_term_eq_of_agrees (h : machine.heap.Agrees next.heap)
    (hvalues : machine.heap.Supports values) (hvalues' : next.heap.Supports values) :
    values.map (next.term setting) = values.map (machine.term setting) :=
  List.map_congr_left fun _ hvalue =>
    term_eq_of_agrees h (hvalues.of_mem hvalue) (hvalues'.of_mem hvalue)

/-! ### Documented machines -/

/-- A stored location with the key and equal arguments is written with the very same ones. Where
arguments are equal, only the signs of zeros can differ. -/
def WrittenAlike (setting : Setting) (machine : Machine) (function : FunctionId) (key : ArgKey)
    (args : List Value) : Prop :=
  ∀ stored ∈ machine.state.bucket function key, machine.heap.sameArgs stored.args args = true →
    machine.subject setting function stored.args = machine.subject setting function args

instance : Decidable (machine.WrittenAlike setting function key args) :=
  inferInstanceAs (Decidable (∀ stored ∈ machine.state.bucket function key, _ → _))

def PendingWrittenAlike (setting : Setting) (machine : Machine) : Prop :=
  ∀ update ∈ machine.pending.updates,
    machine.WrittenAlike setting update.function update.key update.args

instance : Decidable (machine.PendingWrittenAlike setting) :=
  inferInstanceAs (Decidable (∀ update ∈ machine.pending.updates, _))

structure Documented (setting : Setting) (machine : Machine) : Prop where
  grounded : machine.Grounded setting
  pending : machine.pending.Orderly machine.heap setting.digest
  size : machine.state.tables.size = setting.spec.functions.size
  keyed : ∀ function key, ∀ location ∈ machine.state.bucket function key,
    machine.heap.argKey setting.digest location.args = key
  nodup : machine.recorder.tracked.keys.Nodup
  stored : ∀ function key location,
    machine.recorder.tracked.get? (function, key) = some location →
      function.index < setting.spec.functions.size →
        ∃ stored ∈ machine.state.bucket function key,
          machine.subject setting function stored.args = location.subject
  valued : ∀ function key stored, function ≠ Specification.program →
    machine.state.bucket function key = [stored] →
      ∃ location, machine.recorder.tracked.get? (function, key) = some location ∧
        location.value = machine.term setting stored.value

/-- What never goes back: locations stay, and so does what the trace says. -/
structure Evolves (setting : Setting) (machine next : Machine) : Prop where
  halted : next.halted = machine.halted
  length : ∀ function key,
    (machine.state.bucket function key).length ≤ (next.state.bucket function key).length
  persists : ∀ function key, ∀ location ∈ machine.state.bucket function key,
    ∃ later ∈ next.state.bucket function key,
      next.subject setting function later.args = machine.subject setting function location.args
  tracked : ∀ key ∈ machine.recorder.tracked.keys, key ∈ next.recorder.tracked.keys
  reports : ∀ subject time, (machine.recorder.reports subject (.at time)).length ≤
    (next.recorder.reports subject (.at time)).length
  final : ∀ subject, next.recorder.reports subject .final = machine.recorder.reports subject .final

theorem Evolves.trans (h : machine.Evolves setting next) (h' : next.Evolves setting last) :
    machine.Evolves setting last where
  halted := h'.halted.trans h.halted
  length function key := (h.length function key).trans (h'.length function key)
  persists function key location hlocation := by
    obtain ⟨middle, hmiddle, hsubject⟩ := h.persists function key location hlocation
    obtain ⟨later, hlater, hsubject'⟩ := h'.persists function key middle hmiddle
    exact ⟨later, hlater, hsubject'.trans hsubject⟩
  tracked key hkey := h'.tracked key (h.tracked key hkey)
  reports subject time := (h.reports subject time).trans (h'.reports subject time)
  final subject := (h'.final subject).trans (h.final subject)

/-- Among the stored locations, the one under `key` is alone there, and it alone is written like
`subject`. -/
structure Apart (setting : Setting) (machine : Machine) (function : FunctionId) (key : ArgKey)
    (subject : Subject) : Prop where
  declared : ∀ tracked ∈ machine.recorder.tracked.keys,
    tracked.1.index < setting.spec.functions.size
  single : (machine.state.bucket function key).length ≤ 1
  subject_eq_iff : ∀ other probe, ∀ location ∈ machine.state.bucket other probe,
    (machine.subject setting other location.args = subject ↔ (other, probe) = (function, key))

theorem Apart.of_evolves (h : next.Apart setting function key subject)
    (hevolves : machine.Evolves setting next) : machine.Apart setting function key subject where
  declared tracked htracked := h.declared tracked (hevolves.tracked tracked htracked)
  single := (hevolves.length function key).trans h.single
  subject_eq_iff other probe location hlocation := by
    obtain ⟨later, hlater, hsubject⟩ := hevolves.persists other probe location hlocation
    rw [← hsubject]
    exact h.subject_eq_iff other probe later hlater

theorem Apart.owns (h : machine.Apart setting function key subject)
    (hdocumented : machine.Documented setting) :
    machine.recorder.Owns (function, key) subject := by
  rintro ⟨other, probe⟩ location hlocation
  have hdeclared := h.declared (other, probe) (by
    by_contra hnone
    rw [OrderedMap.get?_eq_none_iff.mpr hnone] at hlocation
    cases hlocation)
  obtain ⟨stored, hstored, hsubject⟩ := hdocumented.stored other probe location hlocation hdeclared
  rw [← hsubject]
  exact h.subject_eq_iff other probe stored hstored

/-- The recorder is up to date with every location that is apart from the others. -/
def Reported (setting : Setting) (machine : Machine) : Prop :=
  ∀ function key subject, function ≠ Specification.program →
    machine.Apart setting function key subject →
      machine.recorder.UpToDate (function, key) subject machine.recorder.timestamp

structure Develops (setting : Setting) (machine next : Machine) : Prop where
  documented : next.Documented setting
  evolves : machine.Evolves setting next
  reported : machine.Reported setting → next.Reported setting

theorem Develops.trans (h : machine.Develops setting next) (h' : next.Develops setting last) :
    machine.Develops setting last :=
  ⟨h'.documented, h.evolves.trans h'.evolves, fun hreported => h'.reported (h.reported hreported)⟩

/-! ### Changes that the state takes no part in -/

section Agreeing

variable (h : machine.Documented setting) (hagrees : machine.heap.Agrees next.heap)
  (hgrounded : next.Grounded setting) (hstate : next.state = machine.state)
include h hagrees hgrounded hstate

theorem subject_eq_of_agrees {location : StoredLocation}
    (hlocation : location ∈ machine.state.bucket function key) :
    next.subject setting function location.args =
      machine.subject setting function location.args := by
  have hlater : location ∈ next.state.bucket function key := hstate ▸ hlocation
  unfold Machine.subject
  rw [map_term_eq_of_agrees hagrees (h.grounded.supports_args hlocation)
    (hgrounded.supports_args hlater)]

/-- The heap may change as long as stored lists keep their elements, and the trace may go on as long
as no location is reported. -/
theorem Documented.develops (hpending : next.pending.Orderly next.heap setting.digest)
    (hhalted : next.halted = machine.halted)
    (htracks : machine.recorder.SameTracks next.recorder)
    (hreports : ∀ subject time,
      next.recorder.reports subject time = machine.recorder.reports subject time) :
    machine.Develops setting next := by
  have hevolves : machine.Evolves setting next := by
    refine ⟨hhalted, fun _ _ => by rw [hstate], fun function key location hlocation => ?_,
      fun _ hkey => htracks.tracked ▸ hkey, fun subject time => by rw [hreports],
      fun subject => hreports subject .final⟩
    exact ⟨location, hstate ▸ hlocation, subject_eq_of_agrees h hagrees hgrounded hstate hlocation⟩
  refine ⟨?_, hevolves, fun hreported function key subject hprogram hapart => ?_⟩
  · refine ⟨hgrounded, hpending, hstate ▸ h.size, fun function key location hlocation => ?_,
      htracks.tracked ▸ h.nodup, fun function key location hlocation hdeclared => ?_,
      fun function key stored hprogram hbucket => ?_⟩
    · have hold : location ∈ machine.state.bucket function key := hstate ▸ hlocation
      rw [hagrees.argKey_eq (h.grounded.supports_args hold) (hgrounded.supports_args hlocation)]
      exact h.keyed function key location hold
    · rw [htracks.tracked] at hlocation
      obtain ⟨stored, hstored, hsubject⟩ := h.stored function key location hlocation hdeclared
      exact ⟨stored, hstate ▸ hstored,
        (subject_eq_of_agrees h hagrees hgrounded hstate hstored).trans hsubject⟩
    · rw [hstate] at hbucket
      obtain ⟨location, hlocation, hvalue⟩ := h.valued function key stored hprogram hbucket
      have hmem : stored ∈ machine.state.bucket function key := by rw [hbucket]; simp
      have hlater : stored ∈ next.state.bucket function key := hstate ▸ hmem
      refine ⟨location, htracks.tracked ▸ hlocation, hvalue.trans ?_⟩
      exact (term_eq_of_agrees hagrees (h.grounded.supports_value hmem)
        (hgrounded.supports_value hlater)).symm
  · rw [htracks.timestamp]
    refine (hreported function key subject hprogram (hapart.of_evolves hevolves)).congr ?_
      fun time => hreports subject (.at time)
    rw [htracks.tracked]

end Agreeing

/-! ### Storing a value -/

def written (setting : Setting) (machine : Machine) (function : FunctionId) (args : List Value)
    (value : Value) : TrackedLocation :=
  { function := (setting.spec.function function).name
    args := args.map (machine.term setting)
    value := machine.term setting value }

def placed (machine : Machine) (function : FunctionId) (key : ArgKey) (args : List Value)
    (value : Value) (recorder : Recorder) : Machine :=
  { machine with
    recorder
    state := machine.state.set machine.heap function key args value }

/-- What becomes of the recorder when a value is stored: only the rule to run next is not tracked.
-/
inductive Tracks (setting : Setting) (machine : Machine) (function : FunctionId) (key : ArgKey)
    (args : List Value) (value : Value) (recorder : Recorder) : Prop where
  | tracked (htracked : recorder.tracked = machine.recorder.tracked.insert (function, key)
      (machine.written setting function args value))
  | program (hprogram : function = Specification.program)
      (htracked : recorder.tracked = machine.recorder.tracked)

section Placing

variable {recorder : Recorder} (h : machine.Documented setting)
  (hkey : machine.heap.argKey setting.digest args = key)
  (htracks : machine.Tracks setting function key args value recorder)

theorem bucket_placed (other : FunctionId) (probe : ArgKey) :
    (machine.placed function key args value recorder).state.bucket other probe =
      if other = function ∧ probe = key ∧ function.index < machine.state.tables.size then
        Bucket.set machine.heap args value (machine.state.bucket function key)
      else machine.state.bucket other probe :=
  Interpretation.bucket_set other probe

theorem exists_mem_bucket_placed {location : StoredLocation}
    (hlocation : location ∈ machine.state.bucket other probe) :
    ∃ later ∈ (machine.placed function key args value recorder).state.bucket other probe,
      later.args = location.args := by
  rw [bucket_placed]
  split
  · next hplace =>
      obtain ⟨rfl, rfl, -⟩ := hplace
      exact Bucket.exists_mem_set hlocation
  · exact ⟨location, hlocation, rfl⟩

include htracks in
theorem evolves_placed
    (hreports : ∀ subject time, (machine.recorder.reports subject (.at time)).length ≤
      (recorder.reports subject (.at time)).length)
    (hfinal : ∀ subject,
      recorder.reports subject .final = machine.recorder.reports subject .final) :
    machine.Evolves setting (machine.placed function key args value recorder) where
  halted := rfl
  length other probe := by
    rw [bucket_placed]
    split
    · next hplace =>
        obtain ⟨rfl, rfl, -⟩ := hplace
        exact Bucket.length_le_length_set
    · exact Nat.le_refl _
  persists other probe location hlocation := by
    obtain ⟨later, hlater, hargs⟩ := exists_mem_bucket_placed hlocation
    refine ⟨later, hlater, ?_⟩
    rw [hargs]
    rfl
  tracked tracked hmem := by
    show tracked ∈ recorder.tracked.keys
    cases htracks with
    | tracked htracked =>
      rw [htracked]
      exact OrderedMap.mem_keys_insert.mpr (.inr hmem)
    | program _ htracked => exact htracked ▸ hmem
  reports := hreports
  final := hfinal

/-- It does not matter whose arguments the state keeps. -/
theorem WrittenAlike.exists_subject_set (halike : machine.WrittenAlike setting function key args) :
    ∃ stored ∈ Bucket.set machine.heap args value (machine.state.bucket function key),
      machine.subject setting function stored.args = machine.subject setting function args := by
  rcases Bucket.set_cases machine.heap (machine.state.bucket function key) args value with
    hset | ⟨before, found, after, hbucket, hsame, hset⟩ <;> rw [hset]
  · exact ⟨_, List.mem_append_right _ (List.mem_singleton_self _), rfl⟩
  · refine ⟨_, List.mem_append_right _ List.mem_cons_self, halike found ?_ hsame⟩
    rw [hbucket]
    exact List.mem_append_right _ List.mem_cons_self

include h hkey in
theorem Documented.keyed_placed {location : StoredLocation}
    (hlocation : location ∈
      (machine.placed function key args value recorder).state.bucket other probe) :
    machine.heap.argKey setting.digest location.args = probe := by
  rw [bucket_placed] at hlocation
  split at hlocation
  · next hplace =>
      obtain ⟨rfl, rfl, -⟩ := hplace
      obtain ⟨heq | ⟨old, hold, heq⟩, -⟩ := Interpretation.mem_bucket_set hlocation <;> rw [heq]
      · exact hkey
      · exact h.keyed other probe old hold
  · exact h.keyed other probe location hlocation

include h htracks in
theorem Documented.stored_placed (halike : machine.WrittenAlike setting function key args)
    {location : TrackedLocation} (hlocation : recorder.tracked.get? (other, probe) = some location)
    (hdeclared : other.index < setting.spec.functions.size) :
    ∃ stored ∈ (machine.placed function key args value recorder).state.bucket other probe,
      machine.subject setting other stored.args = location.subject := by
  have hold : machine.recorder.tracked.get? (other, probe) = some location →
      ∃ stored ∈ (machine.placed function key args value recorder).state.bucket other probe,
        machine.subject setting other stored.args = location.subject := by
    intro hfound
    obtain ⟨stored, hstored, hsubject⟩ := h.stored other probe location hfound hdeclared
    obtain ⟨later, hlater, hargs⟩ := exists_mem_bucket_placed hstored
    exact ⟨later, hlater, by rw [hargs, hsubject]⟩
  cases htracks with
  | program _ htracked => exact hold (htracked ▸ hlocation)
  | tracked htracked =>
    rw [htracked, OrderedMap.get?_insert] at hlocation
    split at hlocation
    · next hplace =>
        cases hplace
        cases hlocation
        rw [bucket_placed, if_pos ⟨rfl, rfl, h.size ▸ hdeclared⟩]
        exact halike.exists_subject_set
    · exact hold hlocation

include h htracks in
theorem Documented.valued_placed {stored : StoredLocation}
    (hprogram : other ≠ Specification.program)
    (hone : (machine.placed function key args value recorder).state.bucket other probe = [stored]) :
    ∃ location, recorder.tracked.get? (other, probe) = some location ∧
      location.value = machine.term setting stored.value := by
  rw [bucket_placed] at hone
  split at hone
  · next hplace =>
      obtain ⟨rfl, rfl, -⟩ := hplace
      have hstored : stored.value = value := Bucket.value_eq_of_set_eq_singleton hone
      cases htracks with
      | program hfunction => exact absurd hfunction hprogram
      | tracked htracked =>
        refine ⟨machine.written setting other args value, ?_,
          congrArg (machine.term setting) hstored.symm⟩
        rw [htracked, OrderedMap.get?_insert_self]
  · next hplace =>
      obtain ⟨location, hlocation, hvalue⟩ := h.valued other probe stored hprogram hone
      refine ⟨location, ?_, hvalue⟩
      cases htracks with
      | program _ htracked => exact htracked ▸ hlocation
      | tracked htracked =>
        have hother : (other, probe) ≠ (function, key) := by
          rintro ⟨⟩
          exact hplace ⟨rfl, rfl, Interpretation.index_lt_of_mem_bucket
            (hone ▸ List.mem_singleton_self stored)⟩
        rw [htracked, OrderedMap.get?_insert_of_ne _ _ hother]
        exact hlocation

include h hkey htracks in
theorem Documented.placed (halike : machine.WrittenAlike setting function key args)
    (hargs : machine.heap.Supports args) (hvalue : machine.heap.Supports [value])
    (hpath : recorder.path = machine.recorder.path) :
    (machine.placed function key args value recorder).Documented setting where
  grounded := (h.grounded.continues_store hpath (acceptsAll_plain_iff.mpr hargs)
    (acceptsAll_plain_iff.mpr hvalue value List.mem_cons_self)).upholds
  pending := h.pending
  size := (Array.size_setIfInBounds ..).trans h.size
  keyed _ _ _ hlocation := h.keyed_placed hkey hlocation
  nodup := by
    show recorder.tracked.keys.Nodup
    cases htracks with
    | tracked htracked => exact htracked ▸ OrderedMap.nodup_keys_insert h.nodup
    | program _ htracked => exact htracked ▸ h.nodup
  stored _ _ _ hlocation hdeclared := h.stored_placed htracks halike hlocation hdeclared
  valued _ _ _ hprogram hone := h.valued_placed htracks hprogram hone

end Placing

end Machine

end AbstractStateMachine
