import AbstractStateMachine.Proofs.ListHeap.Reachability
import Mathlib.Data.Set.Basic

/-!
# Lists are persistent

A session performs operations on a heap and, beside it, keeps for every list that was handed out and
not freed the plain sequence it stands for. These sequences are computed without the heap and are
never changed afterwards; reclaiming only drops the ones whose list is not reached from its roots.
Main statement: through any run of operations, in any order, every list on record shows exactly its
sequence, to every observer.
-/

namespace AbstractStateMachine.ListHeap

inductive Op where
  | empty
  | ofList (values : List Value)
  | cons (value : Value) (list : Handle)
  | tail (list : Handle)
  | flatten (list : Handle)
  | append (lease : Lease) (list : Handle) (value : Value)
  | beginEpoch
  | reclaim (roots : List Value)

structure Session where
  heap : ListHeap := {}
  /-- The lists handed out and not freed, with their sequences. -/
  known : Set (Handle × List Value) := ∅

namespace Op

/-- What the heap does: the list it returns, if any, and the heap afterwards. -/
def perform (heap : ListHeap) : Op → Option Handle × ListHeap
  | empty => (some heap.empty.1, heap.empty.2)
  | ofList values => (some (heap.ofList values).1, (heap.ofList values).2)
  | cons value list => (some (heap.cons value list).1, (heap.cons value list).2)
  | tail list => (some (heap.tail list).1, (heap.tail list).2)
  | flatten list => (some (heap.flatten list).1, (heap.flatten list).2)
  | append lease list value =>
    (some (heap.append lease list value).1, (heap.append lease list value).2)
  | beginEpoch => (none, heap.beginEpoch.2)
  | reclaim roots => (none, heap.reclaim roots)

/-- The sequence of the returned list, from the sequences on record. -/
def Yields (known : Set (Handle × List Value)) : Op → List Value → Prop
  | empty, result => result = []
  | ofList values, result => result = values
  | cons value list, result => ∃ xs, (list, xs) ∈ known ∧ result = value :: xs
  | tail list, result => ∃ xs, (list, xs) ∈ known ∧ result = xs.tail
  | flatten list, result => (list, result) ∈ known
  | append _ list value, result => ∃ xs, (list, xs) ∈ known ∧ result = xs ++ [value]
  | beginEpoch, _ => False
  | reclaim _, _ => False

/-- Only reclaiming frees lists, those that its roots do not lead to. -/
def Keeps (heap : ListHeap) (list : Handle) : Op → Prop
  | reclaim roots => heap.Reaches roots list
  | _ => True

def operands : Op → List Handle
  | empty | beginEpoch => []
  | ofList values | reclaim values => handles values
  | cons value list => list :: handles [value]
  | tail list | flatten list => [list]
  | append _ list value => list :: handles [value]

end Op

namespace Session

variable {session : Session}

def step (session : Session) (op : Op) : Session where
  heap := (op.perform session.heap).2
  known := { entry | entry ∈ session.known ∧ op.Keeps session.heap entry.1 ∨
    (op.perform session.heap).1 = some entry.1 ∧ op.Yields session.known entry.2 }

def run (session : Session) (ops : List Op) : Session := ops.foldl step session

/-- Operations are applied to lists on record. -/
def Allows (session : Session) : List Op → Prop
  | [] => True
  | op :: rest =>
    (∀ list ∈ op.operands, ∃ xs, (list, xs) ∈ session.known) ∧ (session.step op).Allows rest

/-- A list stays reachable from the roots of every collection. -/
def Retains (list : Handle) (session : Session) : List Op → Prop
  | [] => True
  | op :: rest => op.Keeps session.heap list ∧ (session.step op).Retains list rest

/-- The heap is sound and agrees with the sequences on record. -/
structure Valid (session : Session) : Prop where
  wellFormed : session.heap.WellFormed
  denotes : ∀ list xs, (list, xs) ∈ session.known → session.heap.Denotes list xs

theorem valid_start : ({} : Session).Valid :=
  ⟨wellFormed_default, fun _ _ hmem => absurd hmem (Set.notMem_empty _)⟩

theorem Valid.supports (hvalid : session.Valid) {values : List Value}
    (hvalues : ∀ list ∈ handles values, ∃ xs, (list, xs) ∈ session.known) :
    session.heap.Supports values := by
  intro list hlist
  obtain ⟨xs, hxs⟩ := hvalues list hlist
  exact (hvalid.denotes list xs hxs).live

theorem Valid.step_of_makes (hvalid : session.Valid) {op : Op} {result : Handle × ListHeap}
    (hperform : op.perform session.heap = (some result.1, result.2))
    (hsome : ∃ xs, op.Yields session.known xs)
    (hyields : ∀ xs, op.Yields session.known xs → session.heap.Makes result xs) :
    (session.step op).Valid := by
  obtain ⟨made, hmade⟩ := hsome
  replace hmade := hyields made hmade
  refine ⟨?_, ?_⟩
  · simp only [step, hperform]
    exact hmade.wellFormed
  · intro list xs hmem
    simp only [step, hperform]
    rcases hmem with ⟨hknown, -⟩ | ⟨hresult, hxs⟩
    · exact (hvalid.denotes list xs hknown).extends hmade.grows
    · rw [hperform] at hresult
      cases hresult
      exact (hyields xs hxs).denotes

theorem Valid.reclaim (hvalid : session.Valid) (roots : List Value) :
    (session.step (.reclaim roots)).Valid := by
  refine ⟨wellFormed_reclaim hvalid.wellFormed roots, ?_⟩
  rintro list xs (⟨hknown, hreaches⟩ | ⟨hresult, -⟩)
  · exact (hvalid.denotes list xs hknown).reclaim hreaches
  · cases hresult

theorem Valid.step (hvalid : session.Valid) {op : Op}
    (hop : ∀ list ∈ op.operands, ∃ xs, (list, xs) ∈ session.known) : (session.step op).Valid := by
  have hheap : session.heap.WellFormed := hvalid.wellFormed
  cases op with
  | empty =>
    refine hvalid.step_of_makes rfl ⟨_, rfl⟩ ?_
    rintro xs rfl
    exact makes_empty hheap
  | ofList values =>
    refine hvalid.step_of_makes rfl ⟨_, rfl⟩ ?_
    rintro xs rfl
    exact makes_ofList hheap (hvalid.supports hop)
  | cons value list =>
    have hvalue : session.heap.Supports [value] :=
      hvalid.supports fun other hother => hop other (List.mem_cons_of_mem _ hother)
    obtain ⟨xs, hxs⟩ := hop list List.mem_cons_self
    refine hvalid.step_of_makes rfl ⟨_, xs, hxs, rfl⟩ ?_
    rintro _ ⟨ys, hys, rfl⟩
    exact makes_cons hheap hvalue (hvalid.denotes list ys hys)
  | tail list =>
    obtain ⟨xs, hxs⟩ := hop list List.mem_cons_self
    refine hvalid.step_of_makes rfl ⟨_, xs, hxs, rfl⟩ ?_
    rintro _ ⟨ys, hys, rfl⟩
    exact makes_tail hheap (hvalid.denotes list ys hys)
  | flatten list =>
    obtain ⟨xs, hxs⟩ := hop list List.mem_cons_self
    refine hvalid.step_of_makes rfl ⟨xs, hxs⟩ ?_
    intro ys hys
    exact makes_flatten hheap (hvalid.denotes list ys hys)
  | append lease list value =>
    have hvalue : session.heap.Supports [value] :=
      hvalid.supports fun other hother => hop other (List.mem_cons_of_mem _ hother)
    obtain ⟨xs, hxs⟩ := hop list List.mem_cons_self
    refine hvalid.step_of_makes rfl ⟨_, xs, hxs, rfl⟩ ?_
    rintro _ ⟨ys, hys, rfl⟩
    exact makes_append hheap lease hvalue (hvalid.denotes list ys hys)
  | beginEpoch =>
    refine ⟨wellFormed_beginEpoch hheap, ?_⟩
    rintro list xs (⟨hknown, -⟩ | ⟨hresult, -⟩)
    · exact (hvalid.denotes list xs hknown).extends (extends_beginEpoch session.heap)
    · cases hresult
  | reclaim roots => exact hvalid.reclaim roots

theorem Allows.append_left {before after : List Op} (h : session.Allows (before ++ after)) :
    session.Allows before ∧ (session.run before).Allows after := by
  induction before generalizing session with
  | nil => exact ⟨trivial, h⟩
  | cons op rest ih =>
    obtain ⟨hop, hrest⟩ := h
    exact ⟨⟨hop, (ih hrest).1⟩, (ih hrest).2⟩

theorem Valid.run (hvalid : session.Valid) {ops : List Op} (hops : session.Allows ops) :
    (session.run ops).Valid := by
  induction ops generalizing session with
  | nil => exact hvalid
  | cons op rest ih => exact ih (hvalid.step hops.1) hops.2

/-- What is on record stays on record, unchanged, as long as no collection frees it. -/
theorem mem_known_run {ops : List Op} {list : Handle} {xs : List Value}
    (hknown : (list, xs) ∈ session.known) (hretains : session.Retains list ops) :
    (list, xs) ∈ (session.run ops).known := by
  induction ops generalizing session with
  | nil => exact hknown
  | cons op rest ih => exact ih (Or.inl ⟨hknown, hretains.1⟩) hretains.2

end Session

/-- All observers see a list as one and the same sequence. -/
structure Shows (heap : ListHeap) (list : Handle) (xs : List Value) : Prop where
  allocated : (heap.slot? list).isSome
  toList : heap.toList list = xs
  length : heap.length list = xs.length
  isEmpty : heap.isEmpty list = xs.isEmpty
  peek : heap.peek list = xs.headD .undefined
  nth : ∀ position : Int64, heap.nth list position =
    if 1 ≤ position.toInt ∧ position.toInt ≤ xs.length then
      xs.getD (position.toInt.toNat - 1) .undefined
    else .undefined

theorem Denotes.shows {heap : ListHeap} {list : Handle} {xs : List Value}
    (h : heap.Denotes list xs) : heap.Shows list xs :=
  ⟨h.live, h.toList_eq, h.length_eq, h.isEmpty_eq, h.peek_eq, h.nth_eq⟩

theorem Op.exists_yields {session : Session} {op : Op} {list : Handle}
    (hop : ∀ operand ∈ op.operands, ∃ xs, (operand, xs) ∈ session.known)
    (hresult : (op.perform session.heap).1 = some list) : ∃ xs, op.Yields session.known xs := by
  cases op with
  | empty => exact ⟨_, rfl⟩
  | ofList => exact ⟨_, rfl⟩
  | cons _ target =>
    obtain ⟨xs, hxs⟩ := hop target List.mem_cons_self
    exact ⟨_, xs, hxs, rfl⟩
  | tail target =>
    obtain ⟨xs, hxs⟩ := hop target List.mem_cons_self
    exact ⟨_, xs, hxs, rfl⟩
  | flatten target => exact hop target List.mem_cons_self
  | append _ target =>
    obtain ⟨xs, hxs⟩ := hop target List.mem_cons_self
    exact ⟨_, xs, hxs, rfl⟩
  | beginEpoch => cases hresult
  | reclaim => cases hresult

/-- **Persistence.** Whatever was done before, an operation returns a list that shows the sequence
computed for it. This list and every older one that is not freed show their sequences unchanged
after any further operations, as long as the collections among them reach the list. -/
theorem shows_of_run (before : List Op) (op : Op) (after : List Op)
    (hallows : ({} : Session).Allows (before ++ op :: after)) :
    (∀ list, (op.perform (({} : Session).run before).heap).1 = some list →
      ∃ xs, op.Yields (({} : Session).run before).known xs ∧
        ((({} : Session).run before).step op).heap.Shows list xs) ∧
    ∀ list xs, (list, xs) ∈ ((({} : Session).run before).step op).known →
      ((({} : Session).run before).step op).Retains list after →
      (((({} : Session).run before).step op).run after).heap.Shows list xs := by
  obtain ⟨hbefore, hop, hafter⟩ := hallows.append_left
  have hmade : ((({} : Session).run before).step op).Valid :=
    (Session.valid_start.run hbefore).step hop
  refine ⟨fun list hresult => ?_, fun list xs hknown hretains => ?_⟩
  · obtain ⟨xs, hxs⟩ := Op.exists_yields hop hresult
    exact ⟨xs, hxs, (hmade.denotes list xs (Or.inr ⟨hresult, hxs⟩)).shows⟩
  · exact ((hmade.run hafter).denotes list xs (Session.mem_known_run hknown hretains)).shows

/-- A list of two elements is made by appending in place, then a stale lease makes a copy, and a new
list takes the place of the copy; the list of two elements is not affected. -/
theorem shows_shared_buffer :
    ((({} : Session).run [.beginEpoch, .ofList [.int 1]]).step (.append ⟨1⟩ ⟨0⟩ (.int 2))
      |>.run [.append ⟨0⟩ ⟨1⟩ (.int 3), .reclaim [.list ⟨1⟩], .ofList [.int 7]]).heap.Shows
        ⟨1⟩ [.int 1, .int 2] := by
  have hfirst : (⟨0⟩, [.int 1]) ∈ (({} : Session).run [.beginEpoch, .ofList [.int 1]]).known :=
    Or.inr ⟨rfl, rfl⟩
  have hsecond : (⟨1⟩, [.int 1, .int 2]) ∈ ((({} : Session).run
      [.beginEpoch, .ofList [.int 1]]).step (.append ⟨1⟩ ⟨0⟩ (.int 2))).known :=
    Or.inr ⟨rfl, [.int 1], hfirst, rfl⟩
  refine (shows_of_run [.beginEpoch, .ofList [.int 1]] (.append ⟨1⟩ ⟨0⟩ (.int 2))
    [.append ⟨0⟩ ⟨1⟩ (.int 3), .reclaim [.list ⟨1⟩], .ofList [.int 7]] ?_).2 _ _ hsecond ?_
  · refine ⟨by simp [Op.operands], by simp [Op.operands, handles, Value.list?], ?_, ?_, ?_, ?_,
      trivial⟩
    · simpa [Op.operands, handles, Value.list?] using ⟨_, hfirst⟩
    · simpa [Op.operands, handles, Value.list?] using ⟨_, hsecond⟩
    · simpa [Op.operands, handles, Value.list?] using ⟨_, Or.inl ⟨hsecond, trivial⟩⟩
    · simp [Op.operands, handles, Value.list?]
  · exact ⟨trivial, .root (by simp [handles, Value.list?]), trivial, trivial⟩

end AbstractStateMachine.ListHeap
