import AbstractStateMachine.Proofs.Machine.Discipline

/-!
# Scopes and numbers in a trace

The symbols of a trace are declared in the order of their numbers, its assertions are numbered in
their order, and what an assertion mentions has been declared before. All symbols that a machine
holds are declared, also those in lists and in the comparisons that symbols stand for. This holds
after any calls, whether they succeed or fail.
-/

namespace AbstractStateMachine

open TraceEntry

variable {n : Nat}

/-! ### Symbols -/

def Within (n : Nat) (symbols : List Nat) : Prop := ∀ id ∈ symbols, 0 < id ∧ id ≤ n

theorem Within.mono {m : Nat} {symbols : List Nat} (h : Within n symbols) (hle : n ≤ m) :
    Within m symbols :=
  fun id hid => ⟨(h id hid).1, (h id hid).2.trans hle⟩

theorem Within.subset {symbols others : List Nat} (h : Within n others)
    (hsub : ∀ id ∈ symbols, id ∈ others) : Within n symbols :=
  fun id hid => h id (hsub id hid)

theorem within_append {symbols others : List Nat} :
    Within n (symbols ++ others) ↔ Within n symbols ∧ Within n others :=
  List.forall_mem_append

theorem within_cons {id : Nat} {symbols : List Nat} :
    Within n (id :: symbols) ↔ (0 < id ∧ id ≤ n) ∧ Within n symbols :=
  List.forall_mem_cons

namespace Value

def symbols : Value → List Nat
  | .symbol id => [id]
  | .verdict id lhs _ rhs => id :: (lhs.symbols ++ rhs.symbols)
  | _ => []

theorem symbols_of_isScalar {value : Value} (h : ListHeap.IsScalar value) : value.symbols = [] := by
  cases value <;> first | rfl | cases h

end Value

theorem admissible_within (n : Nat) :
    ListHeap.Admissible fun value => Within n value.symbols where
  of_isScalar hscalar := by
    rw [Value.symbols_of_isScalar hscalar]
    nofun
  of_list _ := nofun

theorem ListHeap.AllValues.within_of_contains {heap : ListHeap}
    (h : heap.AllValues fun value => Within n value.symbols) {outer inner : Value}
    (hcontains : heap.Contains outer inner) (houter : Within n outer.symbols) :
    Within n inner.symbols := by
  induction hcontains with
  | self => exact houter
  | element helement _ ih => exact ih (h.of_mem_toList _ _ helement)
  | lhs _ ih => exact ih (within_append.mp (within_cons.mp houter).2).1
  | rhs _ ih => exact ih (within_append.mp (within_cons.mp houter).2).2

namespace Condition

variable {cond : Condition} {id : Nat} {lhs rhs : Value}

def symbols (cond : Condition) : List Nat := cond.lhs.symbols ++ cond.rhs.symbols

theorem symbols_normalize (h : id ∈ cond.normalize.symbols) : id ∈ cond.symbols := by
  unfold normalize at h
  split at h
  · exact h
  · split at h
    · exact List.mem_append.mpr (List.mem_append.mp h).symm
    · exact List.mem_append.mpr (List.mem_append.mp h).symm
    · exact List.mem_append_right _ ((List.mem_append.mp h).resolve_right List.not_mem_nil)
    · exact List.mem_append_right _ ((List.mem_append.mp h).resolve_right List.not_mem_nil)
    · exact h

theorem symbols_less (h : id ∈ (less lhs rhs).symbols) : id ∈ lhs.symbols ++ rhs.symbols := by
  unfold less at h
  split at h
  · exact List.mem_append_left _ ((List.mem_append.mp h).resolve_right List.not_mem_nil)
  · exact List.mem_append.mpr (List.mem_append.mp h).symm

theorem symbols_greaterEq (h : id ∈ (greaterEq lhs rhs).symbols) :
    id ∈ lhs.symbols ++ rhs.symbols := by
  unfold greaterEq at h
  split at h
  · exact List.mem_append_left _ ((List.mem_append.mp h).resolve_right List.not_mem_nil)
  · exact List.mem_append.mpr (List.mem_append.mp h).symm

theorem symbols_of_ofComparison? {op : BinaryOp} (hcond : ofComparison? op lhs rhs = some cond)
    (h : id ∈ cond.symbols) : id ∈ lhs.symbols ++ rhs.symbols := by
  unfold ofComparison? at hcond
  split at hcond <;> cases hcond
  · exact symbols_normalize h
  · exact symbols_normalize h
  · exact symbols_normalize h
  · exact symbols_normalize h
  · exact symbols_less (symbols_normalize h)
  · exact symbols_greaterEq (symbols_normalize h)

theorem symbols_of_ofVerdict? {value : Value} (hcond : ofVerdict? value = some cond)
    (h : id ∈ cond.symbols) : id ∈ value.symbols := by
  unfold ofVerdict? at hcond
  split at hcond <;> cases hcond
  · exact (List.mem_append.mp h).resolve_right List.not_mem_nil
  · exact List.mem_cons_of_mem _ h

theorem symbols_of_ofNegation? {value : Value} (hcond : ofNegation? value = some cond)
    (h : id ∈ cond.symbols) : id ∈ value.symbols := by
  unfold ofNegation? at hcond
  split at hcond <;> cases hcond
  · exact (List.mem_append.mp h).resolve_right List.not_mem_nil
  · exact List.mem_cons_of_mem _ h

end Condition

/-- The symbol that a term is. A text is not looked into: what looks like a symbol there comes from
a string or from an element of a list, and `ScopedIn` is about the symbols in lists. -/
def Term.symbols : Term → List Nat
  | .symbol id => [id]
  | .int _ | .bool _ | .undefined | .text _ => []

theorem Machine.symbols_term {setting : Setting} {machine : Machine} {value : Value} {id : Nat}
    (h : id ∈ (machine.term setting value).symbols) : id ∈ value.symbols := by
  cases value with
  | symbol => exact h
  | verdict => exact List.mem_cons.mpr (.inl (List.mem_singleton.mp h))
  | _ => cases h

namespace TraceEntry

def declared? : TraceEntry → Option Nat
  | .declare symbol => some symbol
  | _ => none

def number? : TraceEntry → Option Nat
  | .declare _ => none
  | .state id _ _ _ _ | .condition id _ _ _ | .definition id _ _ _ _ => some id

def symbols : TraceEntry → List Nat
  | .declare _ => []
  | .state _ _ _ args value => args.flatMap Term.symbols ++ value.symbols
  | .condition _ lhs _ rhs => lhs.symbols ++ rhs.symbols
  | .definition _ symbol _ lhs rhs => symbol :: (lhs.symbols ++ rhs.symbols)

theorem declared?_eq_none {entry : TraceEntry} {number : Nat} (h : entry.number? = some number) :
    entry.declared? = none := by
  cases entry <;> first | rfl | cases h

theorem declared?_eq_some_iff {entry : TraceEntry} {id : Nat} :
    entry.declared? = some id ↔ entry = .declare id := by
  cases entry <;> simp [declared?]

end TraceEntry

def TrackedLocation.symbols (location : TrackedLocation) : List Nat :=
  location.args.flatMap Term.symbols ++ location.value.symbols

/-! ### Recorders -/

namespace Recorder

/-- The trace of a recorder with `n` symbols is in order. -/
structure Scoped (n : Nat) (recorder : Recorder) : Prop where
  lastSymbol : recorder.lastSymbol = n
  declared : recorder.trace.toList.filterMap declared? = List.range' 1 n
  numbered : recorder.trace.toList.filterMap number? =
    List.range' 1 recorder.lastAssertion
  inScope : ∀ (index : Nat) (entry : TraceEntry), recorder.trace[index]? = some entry →
    ∀ id ∈ entry.symbols, ∃ earlier < index,
      recorder.trace[earlier]? = some (declare id)
  tracked : ∀ location ∈ recorder.tracked.values, Within n location.symbols

variable {n : Nat} {recorder : Recorder} {location : TrackedLocation}

theorem Scoped.declare_mem_iff (h : recorder.Scoped n) {id : Nat} :
    declare id ∈ recorder.trace ↔ 0 < id ∧ id ≤ n := by
  have hmem : id ∈ recorder.trace.toList.filterMap declared? ↔
      declare id ∈ recorder.trace := by
    simp only [List.mem_filterMap, declared?_eq_some_iff, exists_eq_right,
      Array.mem_toList_iff]
  rw [← hmem, h.declared, List.mem_range'_1]
  omega

theorem scoped_default : Scoped 0 {} where
  lastSymbol := rfl
  declared := rfl
  numbered := rfl
  inScope _ _ h := by cases h
  tracked := nofun

theorem Scoped.inScope_push (h : recorder.Scoped n) {entry : TraceEntry}
    (hentry : Within n entry.symbols) :
    ∀ (index : Nat) (other : TraceEntry), (recorder.trace.push entry)[index]? = some other →
      ∀ id ∈ other.symbols, ∃ earlier < index,
        (recorder.trace.push entry)[earlier]? = some (declare id) := by
  intro index other hother id hid
  have hkept : ∀ earlier : Nat, recorder.trace[earlier]? = some (declare id) →
      (recorder.trace.push entry)[earlier]? = some (declare id) := by
    intro earlier hearlier
    have hlt := (Array.getElem?_eq_some_iff.mp hearlier).1
    rw [Array.getElem?_push, if_neg (by omega), hearlier]
  rw [Array.getElem?_push] at hother
  split at hother
  · next hindex =>
      cases hother
      obtain ⟨earlier, hlt, hearlier⟩ :=
        Array.mem_iff_getElem.mp (h.declare_mem_iff.mpr (hentry id hid))
      have hsome : recorder.trace[earlier]? = some (declare id) := by
        rw [Array.getElem?_eq_getElem hlt, hearlier]
      exact ⟨earlier, by omega, hkept earlier hsome⟩
  · obtain ⟨earlier, hlt, hearlier⟩ := h.inScope index other hother id hid
    exact ⟨earlier, hlt, hkept earlier hearlier⟩

theorem Scoped.assert (h : recorder.Scoped n) {entry : Nat → TraceEntry}
    (hnumber : ∀ id, (entry id).number? = some id) (hsymbols : ∀ id, Within n (entry id).symbols) :
    (recorder.assert entry).Scoped n where
  lastSymbol := h.lastSymbol
  declared := by
    show (recorder.trace.push _).toList.filterMap _ = _
    rw [Array.toList_push, List.filterMap_append, h.declared, List.filterMap_cons_none
      (declared?_eq_none (hnumber _)), List.filterMap_nil, List.append_nil]
  numbered := by
    show (recorder.trace.push _).toList.filterMap _ = List.range' 1 (recorder.lastAssertion + 1)
    rw [Array.toList_push, List.filterMap_append, h.numbered, List.filterMap_cons_some (hnumber _),
      List.filterMap_nil, List.range'_1_concat, Nat.add_comm 1]
  inScope := h.inScope_push (hsymbols _)
  tracked := h.tracked

theorem Scoped.fresh (h : recorder.Scoped n) : recorder.fresh.2.Scoped (n + 1) where
  lastSymbol := congrArg (· + 1) h.lastSymbol
  declared := by
    show (recorder.trace.push (.declare (recorder.lastSymbol + 1))).toList.filterMap _ = _
    rw [Array.toList_push, List.filterMap_append, h.declared, h.lastSymbol, List.range'_1_concat,
      Nat.add_comm 1]
    rfl
  numbered := by
    show (recorder.trace.push (.declare (recorder.lastSymbol + 1))).toList.filterMap _ = _
    rw [Array.toList_push, List.filterMap_append, h.numbered]
    exact List.append_nil _
  inScope := h.inScope_push nofun
  tracked location hlocation := (h.tracked location hlocation).mono (Nat.le_succ n)

theorem Scoped.define (h : recorder.Scoped n) (op : DefinitionOp) {lhs rhs : Term}
    (hlhs : Within n lhs.symbols) (hrhs : Within n rhs.symbols) :
    (recorder.define op lhs rhs).2.Scoped (n + 1) := by
  have hlast : recorder.fresh.1 = n + 1 := congrArg (· + 1) h.lastSymbol
  have hsymbols : Within (n + 1) (recorder.fresh.1 :: (lhs.symbols ++ rhs.symbols)) := by
    rw [hlast]
    exact within_cons.mpr ⟨by omega,
      within_append.mpr ⟨hlhs.mono (Nat.le_succ n), hrhs.mono (Nat.le_succ n)⟩⟩
  show (recorder.fresh.2.assert fun id => .definition id recorder.fresh.1 op lhs rhs).Scoped (n + 1)
  exact h.fresh.assert (fun _ => rfl) fun _ => hsymbols

theorem Scoped.assume (h : recorder.Scoped n) (cond : Condition) {lhs rhs : Term}
    (hlhs : Within n lhs.symbols) (hrhs : Within n rhs.symbols) :
    (recorder.assume cond lhs rhs).Scoped n := by
  have hassert : (recorder.assert fun id => .condition id lhs cond.op rhs).Scoped n :=
    h.assert (fun _ => rfl) fun _ => within_append.mpr ⟨hlhs, hrhs⟩
  exact ⟨hassert.lastSymbol, hassert.declared, hassert.numbered, hassert.inScope, hassert.tracked⟩

theorem Scoped.reportAt (h : recorder.Scoped n) (hlocation : Within n location.symbols)
    (time : Timestep) : (recorder.reportAt location time).Scoped n :=
  h.assert (fun _ => rfl) fun _ => hlocation

theorem Scoped.track (h : recorder.Scoped n) (hlocation : Within n location.symbols)
    (key : LocationKey) : (recorder.track key location).Scoped n where
  lastSymbol := h.lastSymbol
  declared := h.declared
  numbered := h.numbered
  inScope := h.inScope
  tracked other hother := by
    rcases OrderedMap.mem_values_insert hother with rfl | hold
    · exact hlocation
    · exact h.tracked other hold

theorem Scoped.foldl {α : Type} {record : Recorder → α → Recorder} {entries : List α}
    (h : recorder.Scoped n)
    (hrecord : ∀ recorder : Recorder, ∀ entry ∈ entries, recorder.Scoped n →
      (record recorder entry).Scoped n) :
    (entries.foldl record recorder).Scoped n := by
  induction entries generalizing recorder with
  | nil => exact h
  | cons entry rest ih =>
    exact ih (hrecord recorder entry List.mem_cons_self h) fun recorder other hother =>
      hrecord recorder other (List.mem_cons_of_mem _ hother)

theorem Scoped.create (h : recorder.Scoped n) (hlocation : Within n location.symbols)
    (key : LocationKey) : (recorder.create key location).Scoped n :=
  Scoped.track (h.foldl fun _ time _ hrecorder => hrecorder.reportAt hlocation (.at time))
    hlocation key

theorem Scoped.update (h : recorder.Scoped n) (hlocation : Within n location.symbols)
    (key : LocationKey) : (recorder.update key location).Scoped n :=
  (h.reportAt hlocation _).track hlocation key

theorem Scoped.repeatOthers (h : recorder.Scoped n) (touched : List LocationKey) :
    (recorder.repeatOthers touched).Scoped n := by
  refine h.foldl fun other entry hentry hother => ?_
  dsimp only
  split
  · exact hother
  · exact hother.reportAt (h.tracked entry.2 (List.mem_map.mpr ⟨entry, hentry, rfl⟩)) _

theorem Scoped.finish (h : recorder.Scoped n) : recorder.finish.Scoped n :=
  h.foldl fun _ location hlocation hrecorder => hrecorder.reportAt (h.tracked location hlocation) _

theorem Scoped.advance (h : recorder.Scoped n) : recorder.advance.Scoped n :=
  ⟨h.lastSymbol, h.declared, h.numbered, h.inScope, h.tracked⟩

end Recorder

/-! ### Machines -/

namespace Machine

variable {n : Nat} {setting : Setting} {machine : Machine}

theorem within_symbols_term (setting : Setting) (machine : Machine) {value : Value}
    (h : Within n value.symbols) :
    Within n (machine.term setting value).symbols :=
  h.subset fun _ => symbols_term

theorem within_symbols_location (setting : Setting) (machine : Machine) (function : String)
    {args : List Value} {value : Value} (hargs : ∀ arg ∈ args, Within n arg.symbols)
    (hvalue : Within n value.symbols) :
    Within n (TrackedLocation.mk function (args.map (machine.term setting))
      (machine.term setting value)).symbols := by
  refine within_append.mpr ⟨fun id hid => ?_, within_symbols_term setting machine hvalue⟩
  obtain ⟨term, hterm, hid⟩ := List.mem_flatMap.mp hid
  obtain ⟨arg, harg, rfl⟩ := List.mem_map.mp hterm
  exact within_symbols_term setting machine (hargs arg harg) id hid

end Machine

/-! ### The invariant -/

/-- The trace is in order, and the path and the lists have declared symbols only. -/
structure ScopedIn (n : Nat) (heap : ListHeap) (recorder : Recorder) : Prop where
  trace : recorder.Scoped n
  path : ∀ cond ∈ recorder.path, Within n cond.symbols
  heap : heap.AllValues fun value => Within n value.symbols

theorem ScopedIn.later {m : Nat} {heap : ListHeap} {recorder recorder' : Recorder}
    (h : ScopedIn n heap recorder) (hle : n ≤ m) (htrace : recorder'.Scoped m)
    (hpath : recorder'.path = recorder.path) : ScopedIn m heap recorder' where
  trace := htrace
  path cond hcond := (h.path cond (hpath ▸ hcond)).mono hle
  heap := h.heap.imp fun _ hvalue => hvalue.mono hle

open Machine Recorder

theorem within_symbol {recorder : Recorder} (h : recorder.Scoped n) :
    Within (n + 1) (Value.symbol recorder.fresh.1).symbols := by
  show Within (n + 1) [recorder.lastSymbol + 1]
  rw [h.lastSymbol]
  exact within_cons.mpr ⟨⟨Nat.succ_pos n, le_rfl⟩, nofun⟩

/-- All symbols that come up are declared. The world is the number of symbols. -/
def scopes (setting : Setting) : Discipline setting where
  World := Nat
  Later := LE.le
  Allows n value := Within n value.symbols
  AllowsCondition n cond := Within n cond.symbols
  Suits := ScopedIn
  later_refl := le_refl
  later_trans := le_trans
  allows_later hle h := h.mono hle
  of_isScalar {n _} := (admissible_within n).of_isScalar
  of_element h _ := h.heap.of_mem_toList _
  of_peek {n _ _ _} h _ := h.heap.peek (admissible_within n) _
  of_comparison hlhs hrhs hcond :=
    (within_append.mpr ⟨hlhs, hrhs⟩).subset fun _ => Condition.symbols_of_ofComparison? hcond
  of_negation hvalue hcond := hvalue.subset fun _ => Condition.symbols_of_ofNegation? hcond
  of_verdict hvalue hcond := hvalue.subset fun _ => Condition.symbols_of_ofVerdict? hcond
  list {n _ _ _ _} h hvalues hbuilds :=
    ⟨n, le_rfl, ⟨h.trace, h.path, h.heap.builds hvalues hbuilds⟩, (admissible_within n).of_list _⟩
  builtin {n _ _ _ _ _ _} h hargs hresult :=
    have hbuilt := h.heap.builtin (admissible_within n) hargs hresult
    ⟨n, le_rfl, ⟨h.trace, h.path, hbuilt.2⟩, hbuilt.1⟩
  fresh {n _ _} h _ := by
    have hsymbol := within_symbol h.trace
    refine ⟨n + 1, Nat.le_succ n, h.later (Nat.le_succ n) h.trace.fresh rfl, hsymbol,
      fun cond hcond => ?_⟩
    exact within_cons.mpr ⟨(within_cons.mp hsymbol).1, hcond.mono (Nat.le_succ n)⟩
  define {n _ _ _ _} machine op h _ hlhs hrhs :=
    have htrace := h.trace.define op (within_symbols_term setting machine hlhs)
      (within_symbols_term setting machine hrhs)
    ⟨n + 1, Nat.le_succ n, h.later (Nat.le_succ n) htrace rfl, within_symbol h.trace⟩
  assume {_ _ _ cond} machine h hcond _ := by
    obtain ⟨hlhs, hrhs⟩ := within_append.mp hcond
    refine ⟨h.trace.assume cond (within_symbols_term setting machine hlhs)
      (within_symbols_term setting machine hrhs), ?_, h.heap⟩
    exact List.forall_mem_append.mpr ⟨h.path, List.forall_mem_singleton.mpr hcond⟩
  create machine key function h hargs hvalue :=
    h.later le_rfl (h.trace.create
      (within_symbols_location setting machine function hargs hvalue) key) (path_create _ _)
  update machine key function h hargs hvalue :=
    h.later le_rfl (h.trace.update
      (within_symbols_location setting machine function hargs hvalue) key) rfl
  advance h := h.later le_rfl h.trace.advance rfl
  repeatOthers touched h := h.later le_rfl (h.trace.repeatOthers touched) (path_repeatOthers _)
  finish h := h.later le_rfl h.trace.finish path_finish

theorem scopedIn_reclaimLists (machine : Machine) (h : ScopedIn n machine.heap machine.recorder) :
    ScopedIn n machine.reclaimLists.heap machine.recorder :=
  ⟨h.trace, h.path, h.heap.reclaim machine.roots⟩

abbrev scoping (setting : Setting) : Invariant Machine Value := (scopes setting).invariant

theorem Run.callsMaintained_scoping (setting : Setting) :
    CallsMaintained (scoping setting) (backend setting) Unbound :=
  (scopes setting).callsMaintained fun _ => scopedIn_reclaimLists

/-! ### Traces and machines -/

namespace Machine

/-- The trace is in order, and every symbol in the machine is one of the `n` declared ones. -/
abbrev Scoped (setting : Setting) (n : Nat) (machine : Machine) : Prop :=
  (scopes setting).Governs n machine

variable {setting : Setting} {n : Nat} {machine : Machine}

theorem scoped_new (setting : Setting) : (Machine.new setting).Scoped setting 0 :=
  Discipline.governs_new ⟨Recorder.scoped_default, nofun, ListHeap.allValues_default⟩

theorem Scoped.within_of_contains (h : machine.Scoped setting n) {outer inner : Value}
    (hcontains : machine.heap.Contains outer inner) (houter : Within n outer.symbols) :
    Within n inner.symbols :=
  h.suits.heap.within_of_contains hcontains houter

theorem Scoped.within_of_held (h : machine.Scoped setting n) {value : Value}
    (hvalue : value ∈ machine.held) :
    Within n value.symbols := by
  rw [held_eq, roots] at hvalue
  rcases List.mem_append.mp hvalue with hroot | hpending
  · rcases List.mem_append.mp hroot with hstate | hpath
    · exact h.state value hstate
    · obtain ⟨cond, hcond, hside⟩ := List.mem_flatMap.mp hpath
      obtain ⟨hlhs, hrhs⟩ := within_append.mp (h.suits.path cond hcond)
      rcases List.mem_cons.mp hside with rfl | hright
      · exact hlhs
      · exact List.mem_singleton.mp hright ▸ hrhs
  · exact h.pending value hpending

/-- **Traces are well scoped and uniquely numbered.** After any calls, successful or not, the
declarations carry the numbers from one up to that of the last symbol, in this order, and so do the
assertions. Each symbol in an assertion is declared before it, and each symbol that a machine holds,
in its state, in pending updates or on its path, at any depth of lists and comparisons, is declared.
-/
theorem scoped_and_numbered_afterCalls (setting : Setting) (calls : List Call) :
    let machine := afterCalls setting calls
    let entries := machine.recorder.trace
    entries.toList.filterMap declared? = List.range' 1 machine.recorder.lastSymbol ∧
    entries.toList.filterMap number? = List.range' 1 machine.recorder.lastAssertion ∧
    (∀ (index : Nat) (entry : TraceEntry), entries[index]? = some entry → ∀ id ∈ entry.symbols,
      ∃ earlier < index, entries[earlier]? = some (declare id)) ∧
    ∀ value ∈ machine.held, ∀ inner, machine.heap.Contains value inner →
      ∀ id, inner.symbolId? = some id → declare id ∈ entries := by
  intro machine entries
  obtain ⟨n, hscoped⟩ := (Run.callsMaintained_scoping setting).afterCalls calls
    (scoped_new setting) rfl
  rw [← afterCalls_eq] at hscoped
  have hscoped : machine.Scoped setting n := hscoped
  have htrace := hscoped.suits.trace
  refine ⟨htrace.lastSymbol ▸ htrace.declared, htrace.numbered, htrace.inScope,
    fun value hvalue inner hinner id hid => ?_⟩
  have hwithin := hscoped.within_of_contains hinner (hscoped.within_of_held hvalue)
  refine htrace.declare_mem_iff.mpr (hwithin id ?_)
  cases inner with
  | symbol => exact List.mem_singleton.mpr (Option.some.inj hid).symm
  | verdict => exact List.mem_cons.mpr (.inl (Option.some.inj hid).symm)
  | _ => cases hid

end Machine

end AbstractStateMachine
