import AbstractStateMachine.Proofs.Machine.Filing
import AbstractStateMachine.Proofs.Symbolic.Scoping

/-!
# Symbolic locations are unknowns

In symbolic mode a location that is read before it has a value becomes a symbol. The location is
stored with the arguments it was read with, and from then on it is found under all arguments that
are equal to them, until an update of it is applied: evaluation and execution only add locations, a
failed step takes none away, and an update for other arguments goes to another location. Symbols are
numbered, and all values that have come up so far have smaller numbers in them than a new symbol.
-/

namespace AbstractStateMachine

open ListHeap Standard Invariant

/-! ### Locations that stay -/

/-- There is a location for these very arguments, which are allocated and have no floats in them. -/
structure Interpretation.Stores (heap : ListHeap) (state : Interpretation) (function : FunctionId)
    (args : List Value) (value : Value) : Prop where
  supports : heap.Supports args
  floatFree : heap.FloatFree args
  mem_bucket : ∃ key, ⟨args, value⟩ ∈ state.bucket function key

namespace Machine

variable {setting : Setting} {machine next : Machine} {function : FunctionId}
  {args others : List Value} {value : Value} {update : Update} {updates : List Update}

/-- The location of a symbolic function has no value yet, and no update of it is visible. -/
structure Unknown (setting : Setting) (machine : Machine) (function : FunctionId)
    (args : List Value) : Prop where
  mode : setting.symbolic = true
  symbolic : (setting.spec.function function).symbolic = true
  floatFree : machine.heap.FloatFree args
  pendingValue? : machine.pendingValue? setting function args = none
  storedValue? : machine.storedValue? setting function args = none

instance (setting : Setting) (machine : Machine) (function : FunctionId) (args : List Value) :
    Decidable (machine.Unknown setting function args) :=
  decidable_of_iff (setting.symbolic = true ∧ (setting.spec.function function).symbolic = true ∧
      machine.heap.FloatFree args ∧ machine.pendingValue? setting function args = none ∧
      machine.storedValue? setting function args = none)
    ⟨fun ⟨mode, symbolic, floatFree, pending, stored⟩ =>
      ⟨mode, symbolic, floatFree, pending, stored⟩,
    fun h => ⟨h.mode, h.symbolic, h.floatFree, h.pendingValue?, h.storedValue?⟩⟩

theorem Unknown.index_lt (h : machine.Unknown setting function args) :
    function.index < setting.spec.functions.size := by
  by_contra hlt
  have hsymbolic := h.symbolic
  rw [Specification.function, Array.getD_eq_getD_getElem?, Array.getElem?_eq_none (by omega)]
    at hsymbolic
  cases hsymbolic

theorem Unknown.readStored_eq (h : machine.Unknown setting function args) :
    Run.readStored setting function args machine =
      (.ok (.symbol (machine.recorder.lastSymbol + 1)),
        machine.symbolized setting function args) := by
  have hpending := h.pendingValue?
  have hstored := h.storedValue?
  rw [Machine.pendingValue?] at hpending
  rw [Machine.storedValue?] at hstored
  rw [Run.readStored, Run.get_bind_apply]
  simp only [hpending, hstored, h.mode, h.symbolic, Bool.and_self, if_true]
  rfl

theorem readStored_of_storedValue? (hpending : machine.pendingValue? setting function args = none)
    (hstored : machine.storedValue? setting function args = some value) :
    Run.readStored setting function args machine = (.ok value, machine) := by
  rw [Machine.pendingValue?] at hpending
  rw [Machine.storedValue?] at hstored
  rw [Run.readStored, Run.get_bind_apply]
  simp only [hpending, hstored]
  rfl

theorem Filed.stores_symbolized (h : machine.Filed setting) (hargs : machine.heap.Supports args)
    (hunknown : machine.Unknown setting function args) :
    (machine.symbolized setting function args).state.Stores machine.heap function args
      (.symbol (machine.recorder.lastSymbol + 1)) := by
  have hstored := hunknown.storedValue?
  rw [Machine.storedValue?, Interpretation.get?_eq_get?_bucket] at hstored
  refine ⟨hargs, hunknown.floatFree, machine.heap.argKey setting.digest args, ?_⟩
  show _ ∈ (machine.state.set _ _ _ _ _).bucket _ _
  rw [Interpretation.bucket_set, if_pos ⟨rfl, rfl, h.size.symm ▸ hunknown.index_lt⟩,
    Bucket.set_of_get?_eq_none hstored]
  exact List.mem_append_right _ List.mem_cons_self

theorem Filed.storedValue?_of_stores (h : machine.Filed setting)
    (hstores : machine.state.Stores machine.heap function args value)
    (hsame : machine.heap.sameArgs args others = true) :
    machine.storedValue? setting function others = some value := by
  obtain ⟨key, hmem⟩ := hstores.mem_bucket
  refine (h.state.get?_eq_some_iff (hstores.floatFree.of_sameArgs hsame)).mpr ?_
  exact ⟨_, Interpretation.mem_locationsOf_of_mem_bucket hmem, sameArgs_symm hsame, rfl⟩

end Machine

namespace Interpretation.Stores

variable {heap later : ListHeap} {state gained : Interpretation} {function : FunctionId}
  {args : List Value} {value : Value}

theorem gains (h : state.Stores heap function args value) (hheap : heap.WellFormed)
    (hlater : later.WellFormed) (hgrows : heap.Extends later)
    {allowed : FunctionId → Value → Prop} (hgains : state.Gains allowed gained) :
    gained.Stores later function args value := by
  obtain ⟨key, hmem⟩ := h.mem_bucket
  obtain ⟨extra, hbucket, -⟩ := hgains function key
  have hargs := h.supports.extends hgrows
  refine ⟨hargs, h.floatFree.agrees (agrees_of_extends hheap hlater hgrows) h.supports hargs, key,
    ?_⟩
  rw [hbucket]
  exact List.mem_append_left _ hmem

end Interpretation.Stores

theorem Machine.Filed.stores_commit {setting : Setting} {machine : Machine} {function : FunctionId}
    {args : List Value} {value : Value} (h : machine.Filed setting)
    (hstores : machine.state.Stores machine.heap function args value) (hunbound : machine.Unbound)
    (hothers : ∀ update ∈ machine.pending.updates, ¬ update.IsFor machine.heap function args)
    (endOfStep : Bool) :
    let next := (backend setting).commit endOfStep machine
    next.state.Stores next.heap function args value := by
  obtain ⟨key, hmem⟩ := hstores.mem_bucket
  obtain ⟨hfiled, hagrees⟩ := h.commit hunbound endOfStep
  have hmem' := h.mem_bucket_commit hmem hothers hunbound endOfStep
  have hargs := hfiled.grounded.supports_args hmem'
  exact ⟨hargs, hstores.floatFree.agrees hagrees hstores.supports hargs, key, hmem'⟩

/-! ### What is read later -/

/-- Every unknown that has been read is stored unless it was updated, and has been read again with
the same value. -/
structure Remembered (setting : Setting) (log : List Event) (w : HeapWorld × Interpretation) :
    Prop where
  stores : ∀ since machine function args value before,
    log = since ++ .read machine function args value :: before →
    machine.Unknown setting function args → (∀ event ∈ since, event.Spares function args) →
      w.2.Stores w.1.1 function args value
  reads : ∀ after later function others result between machine args value before,
    log = after ++ .read later function others result ::
      (between ++ .read machine function args value :: before) →
    machine.Unknown setting function args → (∀ event ∈ between, event.Spares function args) →
    later.heap.sameArgs args others = true → later.pendingValue? setting function others = none →
      result = value

namespace Remembered

open Run Machine

variable {setting : Setting} {log : List Event} {w w' : HeapWorld × Interpretation}

theorem later (h : Remembered setting log w) (hlater : (tabling setting).Later w w') :
    Remembered setting log w' where
  stores since machine function args value before hsplit hunknown hspares :=
    (h.stores since machine function args value before hsplit hunknown hspares).gains w.1.2 w'.1.2
      hlater.1.grows hlater.2
  reads := h.reads

theorem cons {event : Event}
    (hevent : ∀ machine function args value, event ≠ .read machine function args value)
    (h : Remembered setting log w)
    (hstores : ∀ function args value, event.Spares function args →
      w.2.Stores w.1.1 function args value → w'.2.Stores w'.1.1 function args value) :
    Remembered setting (event :: log) w' where
  stores since machine function args value before hsplit hunknown hspares := by
    rcases List.cons_eq_append_iff.mp hsplit with ⟨-, heq⟩ | ⟨rest, rfl, hlog⟩
    · exact absurd (List.cons.inj heq).1.symm (hevent _ _ _ _)
    · obtain ⟨hfirst, hrest⟩ := List.forall_mem_cons.mp hspares
      exact hstores _ _ _ hfirst (h.stores _ _ _ _ _ _ hlog hunknown hrest)
  reads after later function others result between machine args value before hsplit := by
    rcases List.cons_eq_append_iff.mp hsplit with ⟨-, heq⟩ | ⟨rest, rfl, hlog⟩
    · exact absurd (List.cons.inj heq).1.symm (hevent _ _ _ _)
    · exact h.reads _ _ _ _ _ _ _ _ _ _ hlog

section Read

variable {machine next : Machine} {function : FunctionId} {args : List Value} {value : Value}
  (hmachine : (tabling setting).Holds w machine) (hargs : machine.heap.Supports args)
  (hread : readStored setting function args machine = (.ok value, next))
include hmachine hread

theorem eq_of_stores {stored : List Value} {old : Value}
    (hstores : w.2.Stores w.1.1 function stored old)
    (hsame : machine.heap.sameArgs stored args = true)
    (hpending : machine.pendingValue? setting function args = none) : value = old := by
  obtain ⟨⟨hheap, hfiled⟩, hstate⟩ := hmachine
  rw [← hheap, ← hstate] at hstores
  rw [readStored_of_storedValue? hpending (hfiled.storedValue?_of_stores hstores hsame)] at hread
  cases hread
  rfl

include hargs in
theorem stores_of_unknown (hnext : (tabling setting).Holds w' next)
    (hunknown : machine.Unknown setting function args) :
    w'.2.Stores w'.1.1 function args value := by
  obtain ⟨⟨-, hfiled⟩, -⟩ := hmachine
  obtain ⟨⟨hheap, -⟩, hstate⟩ := hnext
  rw [hunknown.readStored_eq] at hread
  cases hread
  rw [← hheap, ← hstate]
  exact hfiled.stores_symbolized hargs hunknown

include hargs in
theorem read (h : Remembered setting log w) (hlater : (tabling setting).Later w w')
    (hnext : (tabling setting).Holds w' next) :
    Remembered setting (.read machine function args value :: log) w' where
  stores since reader other others result before hsplit hunknown hspares := by
    rcases List.cons_eq_append_iff.mp hsplit with ⟨-, heq⟩ | ⟨rest, rfl, hlog⟩
    · cases heq
      exact stores_of_unknown hmachine hargs hread hnext hunknown
    · exact (h.later hlater).stores _ _ _ _ _ _ hlog hunknown
        (List.forall_mem_cons.mp hspares).2
  reads after reader other others result between first stored old before hsplit hunknown hspares
      hsame hpending := by
    rcases List.cons_eq_append_iff.mp hsplit with ⟨-, heq⟩ | ⟨rest, rfl, hlog⟩
    · cases heq
      have hstores := h.stores _ _ _ _ _ _ rfl hunknown hspares
      exact eq_of_stores hmachine hread hstores hsame hpending
    · exact h.reads _ _ _ _ _ _ _ _ _ _ hlog hunknown hspares hsame hpending

end Read

end Remembered

theorem logInvariant_remembered (setting : Setting) :
    LogInvariant setting (Run.tabling setting) (Remembered setting) where
  maintained := Run.callsMaintained_tabling setting
  later hlater h := h.later hlater
  read {_ w _ _ _ _ _ _} hmachine hargs h hread hlater hnext _ := by
    refine h.read hmachine ?_ hread hlater hnext
    rw [hmachine.1.1]
    exact supports_iff.mpr fun list hlist =>
      supports_iff.mp (hargs _ hlist) list List.mem_cons_self
  gave _ _ h := h.cons nofun fun _ _ _ _ => id
  commit {_ w machine} endOfStep hmachine hunbound h := by
    obtain ⟨w', hheap, hstate, hw'⟩ := Run.tables_commit hmachine hunbound endOfStep
    refine ⟨w', hw', h.cons nofun fun function args value hspares hstores => ?_⟩
    obtain ⟨⟨hold, hfiled⟩, hold'⟩ := hmachine
    rw [← hold, ← hold'] at hstores
    rw [hheap, hstate]
    exact hfiled.stores_commit hstores hunbound hspares endOfStep

/-! ### What came up before -/

/-- The symbol occurs in one of the values, at any depth of lists and comparisons. -/
def ListHeap.Mentions (heap : ListHeap) (values : List Value) (id : Nat) : Prop :=
  ∃ value ∈ values, ∃ inner, heap.Contains value inner ∧ inner.symbolId? = some id

/-- The values that a machine holds, those it is bound to included. -/
def Machine.known (machine : Machine) : List Value :=
  machine.held ++ machine.locals.map (·.value)

/-- The symbol occurs in a value that came up, or in one that the machine knew at that moment. -/
def Event.Mentions (id : Nat) : Event → Prop
  | .read machine _ args value => machine.heap.Mentions (value :: (args ++ machine.known)) id
  | .gave machine values => machine.heap.Mentions (values ++ machine.known) id
  | .applied machine => machine.heap.Mentions machine.known id

theorem ListHeap.AllValues.le_of_mentions {n id : Nat} {heap : ListHeap} {values : List Value}
    (h : heap.AllValues fun value => Within n value.symbols)
    (hvalues : ∀ value ∈ values, Within n value.symbols) (hmentions : heap.Mentions values id) :
    id ≤ n := by
  obtain ⟨value, hvalue, inner, hcontains, hid⟩ := hmentions
  have hwithin := h.within_of_contains hcontains (hvalues value hvalue)
  cases inner with
  | symbol => exact (hwithin id (List.mem_singleton.mpr (Option.some.inj hid).symm)).2
  | verdict => exact (hwithin id (List.mem_cons.mpr (.inl (Option.some.inj hid).symm))).2
  | _ => cases hid

theorem Machine.Scoped.within_of_known {setting : Setting} {n : Nat} {machine : Machine}
    (h : machine.Scoped setting n) :
    ∀ value ∈ machine.known, Within n value.symbols := by
  intro value hvalue
  rcases List.mem_append.mp hvalue with hheld | hlocal
  · exact h.within_of_held hheld
  · obtain ⟨binding, hbinding, rfl⟩ := List.mem_map.mp hlocal
    exact h.locals binding hbinding

/-- Of `n` symbols, each that was given to an unknown had not come up before. -/
structure Numbered (setting : Setting) (log : List Event) (n : Nat) : Prop where
  bounded : ∀ event ∈ log, ∀ id, event.Mentions id → id ≤ n
  fresh : ∀ since machine function args value before,
    log = since ++ .read machine function args value :: before →
    machine.Unknown setting function args → ∃ id, value = .symbol id ∧
      ¬ machine.heap.Mentions (args ++ machine.known) id ∧ ∀ event ∈ before, ¬ event.Mentions id

namespace Numbered

open Run Machine

variable {setting : Setting} {log : List Event} {n m : Nat} {machine next : Machine}

theorem mono (h : Numbered setting log n) (hle : n ≤ m) : Numbered setting log m where
  bounded event hevent id hmentions := (h.bounded event hevent id hmentions).trans hle
  fresh := h.fresh

theorem cons {event : Event}
    (hevent : ∀ machine function args value, event ≠ .read machine function args value)
    (h : Numbered setting log n) (hbounded : ∀ id, event.Mentions id → id ≤ n) :
    Numbered setting (event :: log) n where
  bounded := List.forall_mem_cons.mpr ⟨hbounded, h.bounded⟩
  fresh since machine function args value before hsplit := by
    rcases List.cons_eq_append_iff.mp hsplit with ⟨-, heq⟩ | ⟨rest, rfl, hlog⟩
    · exact absurd (List.cons.inj heq).1.symm (hevent _ _ _ _)
    · exact h.fresh _ _ _ _ _ _ hlog

theorem read {function : FunctionId} {args : List Value} {value : Value}
    (h : Numbered setting log n) (hmachine : machine.Scoped setting n)
    (hargs : ∀ arg ∈ args, Within n arg.symbols)
    (hread : readStored setting function args machine = (.ok value, next)) (hle : n ≤ m)
    (hvalue : Within m value.symbols) :
    Numbered setting (.read machine function args value :: log) m where
  bounded := by
    refine List.forall_mem_cons.mpr ⟨fun id hmentions => ?_, (h.mono hle).bounded⟩
    refine (hmachine.suits.heap.imp fun _ hwithin => hwithin.mono hle).le_of_mentions ?_ hmentions
    refine List.forall_mem_cons.mpr ⟨hvalue, List.forall_mem_append.mpr ⟨?_, ?_⟩⟩
    · exact fun arg harg => (hargs arg harg).mono hle
    · exact fun other hother => (hmachine.within_of_known other hother).mono hle
  fresh since reader other others result before hsplit hunknown := by
    rcases List.cons_eq_append_iff.mp hsplit with ⟨-, heq⟩ | ⟨rest, rfl, hlog⟩
    · cases heq
      rw [hunknown.readStored_eq, hmachine.suits.trace.lastSymbol] at hread
      cases hread
      refine ⟨n + 1, rfl, fun hmentions => ?_, fun event hevent hmentions => ?_⟩
      · have hle := hmachine.suits.heap.le_of_mentions
          (List.forall_mem_append.mpr ⟨hargs, hmachine.within_of_known⟩) hmentions
        omega
      · have hle := h.bounded event hevent _ hmentions
        omega
    · exact h.fresh _ _ _ _ _ _ hlog hunknown

end Numbered

theorem logInvariant_numbered (setting : Setting) :
    LogInvariant setting (scoping setting) (Numbered setting) where
  maintained := Run.callsMaintained_scoping setting
  later hle h := h.mono hle
  read hmachine hargs h hread hle _ hvalue := h.read hmachine hargs hread hle hvalue
  gave hmachine hvalues h := h.cons nofun fun _ => hmachine.suits.heap.le_of_mentions
    (List.forall_mem_append.mpr ⟨hvalues, Machine.Scoped.within_of_known hmachine⟩)
  commit endOfStep hmachine _ h := by
    obtain ⟨n, hle, hcommit⟩ :=
      Discipline.Governs.commit hmachine (fun _ => scopedIn_reclaimLists) endOfStep
    refine ⟨n, hcommit, (h.cons ?_ fun _ => ?_).mono hle⟩
    · rintro _ _ _ _ ⟨⟩
    · exact hmachine.suits.heap.le_of_mentions (Machine.Scoped.within_of_known hmachine)

/-! ### Logs of unknowns -/

/-- What a read of an unknown has to do with the entries before and since. -/
structure BringsUp (setting : Setting) (since before : List Event) (machine : Machine)
    (function : FunctionId) (args : List Value) (value : Value) : Prop where
  fresh : ∃ id, value = .symbol id ∧ ¬ machine.heap.Mentions (args ++ machine.known) id ∧
    ∀ event ∈ before, ¬ event.Mentions id
  again : ∀ after later others result between,
    since = after ++ .read later function others result :: between →
    (∀ event ∈ between, event.Spares function args) →
    later.heap.sameArgs args others = true → later.pendingValue? setting function others = none →
      result = value
  apart : ∀ after later other others result between,
    since = after ++ .read later other others result :: between →
    later.Unknown setting other others → result ≠ value

theorem mentions_of_read {machine : Machine} {function : FunctionId} {args : List Value}
    {id : Nat} :
    Event.Mentions id (.read machine function args (.symbol id)) :=
  ⟨_, List.mem_cons_self, _, .self _, rfl⟩

/-- **A symbolic location is one unknown.** Observe any calls, successful or not. When a location of
a symbolic function is read that has no value and no visible update, the value is a symbol that no
value contained before. Whenever the location is read again with equal arguments while no update of
it is visible, and none has been applied since, the value is the same symbol. Other locations do not
get it. -/
theorem unknowns_afterCalls (setting : Setting) (calls : List Call) :
    (Watch.afterCalls setting calls).machine = Machine.afterCalls setting calls ∧
      ∀ since machine function args value before,
        (Watch.afterCalls setting calls).log =
          since ++ .read machine function args value :: before →
        machine.Unknown setting function args →
          BringsUp setting since before machine function args value := by
  have hfiled := Machine.filed_new setting
  have hholds : (Run.tabling setting).Holds (⟨_, hfiled.grounded.wellFormed⟩, _) (.new setting) :=
    ⟨⟨rfl, hfiled⟩, rfl⟩
  obtain ⟨hmachine, w, -, hremembered⟩ := (logInvariant_remembered setting).afterCalls hholds
    ⟨by simp, by simp⟩ calls
  obtain ⟨-, n, -, hnumbered⟩ := (logInvariant_numbered setting).afterCalls
    (Machine.scoped_new setting) ⟨by simp, by simp⟩ calls
  refine ⟨hmachine, fun since machine function args value before hlog hunknown => ?_⟩
  obtain ⟨id, rfl, hfresh⟩ := hnumbered.fresh _ _ _ _ _ _ hlog hunknown
  refine ⟨⟨id, rfl, hfresh⟩, ?_, ?_⟩
  · rintro after later others result between rfl hspares hsame hpending
    rw [List.append_assoc, List.cons_append] at hlog
    exact hremembered.reads _ _ _ _ _ _ _ _ _ _ hlog hunknown hspares hsame hpending
  · rintro after later other others result between rfl hother rfl
    rw [List.append_assoc, List.cons_append] at hlog
    obtain ⟨id', heq, -, hbefore⟩ := hnumbered.fresh _ _ _ _ _ _ hlog hother
    cases heq
    exact hbefore _ (List.mem_append_right _ List.mem_cons_self) mentions_of_read

def Event.readsUnknown (setting : Setting) : Event → Bool
  | .read machine function args _ => decide (machine.Unknown setting function args)
  | .gave _ _ | .applied _ => false

/-- The rule `main` gives `s([1, 2])` a value in a sequential block, which then aborts. -/
def abortsAfterUpdate : Setting where
  symbolic := true
  spec :=
    let update : Stmt := { action := .update ⟨1⟩ [.list [.int 1, .int 2]] (.int 7) }
    let abort : Stmt := { action := .abort (some (.read ⟨1⟩ [.list [.int 1, .int 2]])) }
    { functions := #[{ name := "program", result := .rule },
        { name := "s", args := [.list .int], symbolic := true }]
      rules := #[{ name := "main", body := some { action := .seq [update, abort] } }]
      start := some ⟨0⟩ }

/-- The location is unknown when it is read before the step. The step sees an update of it and
fails; afterwards an equal list still gives the symbol. -/
theorem unknowns_afterCalls_abortsAfterUpdate :
    let first : Call := .eval 5 (.read ⟨1⟩ [.list [.int 1, .int 2]])
    let again : Call := .eval 5 (.read ⟨1⟩ [.builtin .app [.list [.int 1], .int 2]])
    let start := Machine.afterCalls abortsAfterUpdate [.init 9, first]
    let next := (Run.step abortsAfterUpdate 9 start).2
    (Run.step abortsAfterUpdate 9 start).1 = .error (.fault { cause := .aborted "7" }) ∧
      (Run.call abortsAfterUpdate again next).1 = .ok (.value (.symbol 1)) ∧
      ∃ since machine function args value before,
        (Watch.afterCalls abortsAfterUpdate [.init 9, first, .step 9, again]).log =
          since ++ .read machine function args value :: before ∧
        machine.Unknown abortsAfterUpdate function args ∧
        BringsUp abortsAfterUpdate since before machine function args value := by
  intro first again start next
  refine ⟨by decide +kernel, by decide +kernel, ?_⟩
  have hany : (Watch.afterCalls abortsAfterUpdate [.init 9, first, .step 9, again]).log.any
      (Event.readsUnknown abortsAfterUpdate) = true := by
    decide +kernel
  obtain ⟨event, hevent, hreads⟩ := List.any_eq_true.mp hany
  obtain ⟨since, before, hlog⟩ := List.append_of_mem hevent
  cases event with
  | read machine function args value =>
    have hunknown := of_decide_eq_true hreads
    exact ⟨since, machine, function, args, value, before, hlog, hunknown,
      (unknowns_afterCalls _ _).2 _ _ _ _ _ _ hlog hunknown⟩
  | gave | applied => cases hreads

end AbstractStateMachine
