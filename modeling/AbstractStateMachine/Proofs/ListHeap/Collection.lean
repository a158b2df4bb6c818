import AbstractStateMachine.Proofs.ListHeap.Containment
import AbstractStateMachine.Proofs.ListHeap.Persistence
import Mathlib.Data.Set.Card
import Mathlib.Logic.Relation

/-!
# Collections are exact and safe

The marking loop ends, whatever the roots lead to, because each round lowers what the work list and
the nodes without a mark can still cost. What it leaves is exactly what the roots reach, and all of
it reads as before; the free list and the count of nodes are right. A collector that leaves its
marks in the slots, and clears them when it sweeps, does the same: it finds all marks clear.
-/

namespace AbstractStateMachine.ListHeap

/-! ### The rounds of marking -/

/-- One round of the marking loop, on a work list and marks. -/
def markRound (heap : ListHeap) : List Handle × Array Bool → List Handle × Array Bool
  | ([], marks) => ([], marks)
  | (handle :: rest, marks) =>
    if marks[handle.index]? = some false ∧ (heap.slot? handle).isSome then
      (heap.successors handle ++ rest, marks.setIfInBounds handle.index true)
    else (rest, marks)

/-- The work list and the marks that the marking loop starts with. -/
def markStart (heap : ListHeap) (roots : List Value) : List Handle × Array Bool :=
  (handles roots, Array.replicate heap.slots.size false)

section Rounds

variable {heap : ListHeap} {roots : List Value} {work : List Handle} {marks : Array Bool}
  {state : List Handle × Array Bool}

theorem markRound_nil (marks : Array Bool) : heap.markRound ([], marks) = ([], marks) := rfl

theorem markLoop_eq_iterate (rounds : Nat) (work : List Handle) (marks : Array Bool) :
    heap.markLoop rounds work marks = (heap.markRound^[rounds] (work, marks)).2 := by
  induction rounds generalizing work marks with
  | zero => rfl
  | succ rounds ih =>
    rw [Function.iterate_succ_apply]
    cases work with
    | nil =>
      rw [markRound_nil, ← ih]
      cases rounds <;> rfl
    | cons handle rest =>
      rw [markLoop, markRound]
      split
      · exact ih _ _
      · exact ih _ _

theorem Marking.markRound (h : Marking heap roots state.1 state.2) :
    Marking heap roots (heap.markRound state).1 (heap.markRound state).2 := by
  obtain ⟨_ | ⟨list, rest⟩, marks⟩ := state
  · exact h
  · rw [ListHeap.markRound]
    split
    · next hvisit => exact h.visit hvisit.2
    · next hvisit => exact h.skip (h.isMarked_of_not_visit hvisit)

theorem Marking.iterate (h : Marking heap roots state.1 state.2) (rounds : Nat) :
    Marking heap roots (heap.markRound^[rounds] state).1 (heap.markRound^[rounds] state).2 := by
  induction rounds with
  | zero => exact h
  | succ rounds ih =>
    rw [Function.iterate_succ_apply']
    exact ih.markRound

def remaining (heap : ListHeap) (state : List Handle × Array Bool) : Nat :=
  state.1.length + heap.unmarkedEdges state.2

theorem remaining_markRound_lt {list : Handle} {rest : List Handle}
    (hsize : marks.size = heap.slots.size) :
    heap.remaining (heap.markRound (list :: rest, marks)) <
      heap.remaining (list :: rest, marks) := by
  rw [markRound]
  split
  · next hvisit =>
      obtain ⟨hlt, hfalse⟩ := getElem?_eq_some_false_iff.mp hvisit.1
      have hedges := unmarkedEdges_setIfInBounds hlt hsize hfalse
      simp only [remaining, List.length_append, List.length_cons]
      omega
  · simp only [remaining, List.length_cons]
    omega

/-- The loop ends: after as many rounds as can be paid for, nothing is left to look at. -/
theorem iterate_markRound_eq_nil (h : Marking heap roots state.1 state.2) {rounds : Nat}
    (hrounds : heap.remaining state ≤ rounds) : (heap.markRound^[rounds] state).1 = [] := by
  induction rounds generalizing state with
  | zero =>
    have hlength : state.1.length ≤ heap.remaining state := Nat.le_add_right _ _
    exact List.length_eq_zero_iff.mp (by simpa using hlength.trans hrounds)
  | succ rounds ih =>
    obtain ⟨_ | ⟨list, rest⟩, marks⟩ := state
    · rw [Function.iterate_fixed (markRound_nil marks)]
    · rw [Function.iterate_succ_apply]
      have hlt : heap.remaining (heap.markRound (list :: rest, marks)) <
          heap.remaining (list :: rest, marks) := remaining_markRound_lt h.size_eq
      exact ih h.markRound (by omega)

theorem marking_markStart (heap : ListHeap) (roots : List Value) :
    Marking heap roots (heap.markStart roots).1 (heap.markStart roots).2 :=
  .start heap roots

theorem remaining_markStart (heap : ListHeap) (roots : List Value) :
    heap.remaining (heap.markStart roots) = (handles roots).length + heap.edgeCount := by
  rw [remaining, markStart, unmarkedEdges_replicate_false]

theorem exists_iterate_markRound_eq (heap : ListHeap) (roots : List Value) :
    ∃ rounds, heap.markRound^[rounds] (heap.markStart roots) = ([], heap.reachable roots) := by
  refine ⟨heap.remaining (heap.markStart roots), Prod.ext ?_ ?_⟩
  · exact iterate_markRound_eq_nil (marking_markStart heap roots) (Nat.le_refl _)
  · rw [reachable, remaining_markStart]
    exact (markLoop_eq_iterate _ _ _).symm

end Rounds

/-! ### What is left -/

/-- A list, the lists among its elements, those among their elements, and so on. -/
def Encloses (heap : ListHeap) : Handle → Handle → Prop :=
  Relation.ReflTransGen fun outer inner => .list inner ∈ heap.toList outer

/-- The heap `after` has exactly the nodes that the roots reach in `heap`, as they were. -/
structure Collects (heap : ListHeap) (roots : List Value) (after : ListHeap) : Prop where
  live_iff : ∀ list, after.Live list ↔ heap.Reaches roots list
  encloses_iff : ∀ list, after.Live list → ∀ inner,
    (after.Encloses list inner ↔ heap.Encloses list inner)
  toList_eq : ∀ list, after.Live list → ∀ inner, after.Encloses list inner →
    after.Live inner ∧ after.toList inner = heap.toList inner
  free_nodup : after.free.Nodup
  mem_free_iff : ∀ index, index ∈ after.free ↔ index < after.slots.size ∧ ¬ after.Live ⟨index⟩
  liveNodes_eq : (after.liveNodes : ℕ∞) = { list | heap.Reaches roots list }.encard

section Survivors

variable {heap : ListHeap} {roots : List Value} (hheap : heap.WellFormed) {list : Handle}
include hheap

theorem Reaches.live (hroots : heap.Supports roots) (h : heap.Reaches roots list) :
    heap.Live list := by
  induction h with
  | root hroot => exact hroots _ hroot
  | next _ hnext _ =>
    obtain ⟨node, hnode⟩ := live_iff_exists_node.mp (live_of_mem_successors hnext)
    exact hheap.closed _ node hnode _ (successors_of_node? hnode ▸ hnext)

theorem toList_reclaim (hlive : (heap.reclaim roots).Live list) :
    (heap.reclaim roots).toList list = heap.toList list := by
  obtain ⟨hreached, hbefore⟩ := live_reclaim_iff.mp hlive
  exact ((hheap.denotes_toList hbefore).reclaim hreached).toList_eq

theorem live_of_mem_toList {inner : Handle} (hlive : heap.Live list)
    (hinner : .list inner ∈ heap.toList list) : heap.Live inner :=
  supports_iff.mp (supports_of_denotes hheap (hheap.denotes_toList hlive)) inner hinner

theorem Encloses.live {inner : Handle} (hlive : heap.Live list) (h : heap.Encloses list inner) :
    heap.Live inner := by
  induction h with
  | refl => exact hlive
  | tail _ hinner ih => exact live_of_mem_toList hheap ih hinner

theorem encloses_reclaim_iff (hlive : (heap.reclaim roots).Live list) (inner : Handle) :
    (heap.reclaim roots).Encloses list inner ↔ heap.Encloses list inner := by
  have hafter : (heap.reclaim roots).WellFormed := wellFormed_reclaim hheap roots
  constructor
  · intro h
    induction h with
    | refl => exact .refl
    | tail houter hinner ih =>
      rw [toList_reclaim hheap (Encloses.live hafter hlive houter)] at hinner
      exact ih.tail hinner
  · intro h
    induction h with
    | refl => exact .refl
    | tail _ hinner ih =>
      rw [← toList_reclaim hheap (Encloses.live hafter hlive ih)] at hinner
      exact ih.tail hinner

theorem WellFormed.mem_free_iff_not_live (index : Nat) :
    index ∈ heap.free ↔ index < heap.slots.size ∧ ¬ heap.Live ⟨index⟩ := by
  rw [hheap.mem_free_iff, Live, slot?]
  cases hslot : heap.slots[index]? with
  | none => simp [Array.getElem?_eq_none_iff.mp hslot]
  | some slot =>
    have hlt := (Array.getElem?_eq_some_iff.mp hslot).1
    cases slot <;> simp [hlt]

/-- The free list names the vacant slots once each, so the count is that of the others. -/
theorem coe_liveNodes_eq_encard : (heap.liveNodes : ℕ∞) = { list | heap.Live list }.encard := by
  classical
  let allocated := (Finset.range heap.slots.size).filter fun index => heap.Live ⟨index⟩
  have hvacant : heap.free.toFinset =
      (Finset.range heap.slots.size).filter fun index => ¬ heap.Live ⟨index⟩ := by
    ext index
    rw [List.mem_toFinset, hheap.mem_free_iff_not_live, Finset.mem_filter, Finset.mem_range]
  have hcount : allocated.card + heap.free.length = heap.slots.size := by
    rw [← List.toFinset_card_of_nodup hheap.free_nodup, hvacant,
      Finset.card_filter_add_card_filter_not, Finset.card_range]
  have hlive : { list | heap.Live list } = Handle.mk '' (allocated : Set Nat) := by
    ext ⟨index⟩
    simp only [Set.mem_ofPred_eq, Set.mem_image, Finset.mem_coe, Handle.mk.injEq, exists_eq_right]
    rw [Finset.mem_filter, Finset.mem_range]
    refine ⟨fun hlive => ⟨?_, hlive⟩, And.right⟩
    obtain ⟨node, hnode⟩ := live_iff_exists_node.mp hlive
    exact index_lt_of_node? hnode
  have hinjective : Function.Injective Handle.mk := fun _ _ heq => congrArg Handle.index heq
  calc (heap.liveNodes : ℕ∞) = (allocated.card : ℕ∞) := by
        rw [liveNodes, ← hcount, Nat.add_sub_cancel]
    _ = (allocated : Set Nat).encard := (Set.encard_coe_eq_coe_finsetCard allocated).symm
    _ = { list | heap.Live list }.encard := by rw [hlive, hinjective.encard_image]

theorem collects_reclaim (hroots : heap.Supports roots) :
    heap.Collects roots (heap.reclaim roots) := by
  have hafter : (heap.reclaim roots).WellFormed := wellFormed_reclaim hheap roots
  have hlive : ∀ list, (heap.reclaim roots).Live list ↔ heap.Reaches roots list := by
    intro list
    rw [live_reclaim_iff]
    exact ⟨And.left, fun hreached => ⟨hreached, hreached.live hheap hroots⟩⟩
  refine ⟨hlive, fun _ => encloses_reclaim_iff hheap, fun list hlist inner hinner => ?_,
    hafter.free_nodup, hafter.mem_free_iff_not_live, ?_⟩
  · have hinner' : (heap.reclaim roots).Live inner := Encloses.live hafter hlist hinner
    exact ⟨hinner', toList_reclaim hheap hinner'⟩
  · rw [coe_liveNodes_eq_encard hafter]
    congr 1
    ext list
    exact hlive list

end Survivors

/-! ### Marks that stay in the slots -/

structure Marked where
  heap : ListHeap := {}
  marks : Array Bool := #[]

namespace Marked

variable {marked : Marked}

def sweep (marked : Marked) (index : Nat) : Marked :=
  if (marked.heap.slot? ⟨index⟩).isSome then
    if isMarked marked.marks index then
      { marked with marks := marked.marks.setIfInBounds index false }
    else
      { marked with
        heap := { marked.heap with
          slots := marked.heap.slots.setIfInBounds index none
          free := index :: marked.heap.free } }
  else marked

/-- Marks what the roots reach, on top of the marks there are, and sweeps all slots. -/
def collect (marked : Marked) (roots : List Value) : Marked :=
  let work := handles roots
  let marks := marked.heap.markLoop (work.length + marked.heap.edgeCount) work marked.marks
  (List.range marked.heap.slots.size).foldl sweep { marked with marks }

/-- A new node has no mark, the others keep theirs. -/
def step (marked : Marked) : Op → Marked
  | .reclaim roots => marked.collect roots
  | op =>
    let heap := (op.perform marked.heap).2
    { heap
      marks := Array.ofFn fun index : Fin heap.slots.size =>
        isMarked marked.marks index && (marked.heap.slot? ⟨index⟩).isSome }

def run (marked : Marked) (ops : List Op) : Marked := ops.foldl step marked

def Clear (marked : Marked) : Prop :=
  marked.marks = Array.replicate marked.heap.slots.size false

section Sweep

variable {marked : Marked} {target : Nat}

theorem slots_sweep (marked : Marked) (target index : Nat) :
    (marked.sweep target).heap.slots[index]? =
      if index = target then marked.heap.slots[index]?.map fun slot =>
        if isMarked marked.marks index then slot else none
      else marked.heap.slots[index]? := by
  by_cases heq : index = target
  · subst heq
    rw [if_pos rfl]
    unfold sweep slot?
    cases hslot : marked.heap.slots[index]? with
    | none => exact hslot
    | some slot =>
      have hlt := (Array.getElem?_eq_some_iff.mp hslot).1
      cases slot with
      | none => simp [hslot]
      | some slot =>
        by_cases hmarked : isMarked marked.marks index
        · simp [hmarked, hslot]
        · simp [hmarked, hlt]
  · rw [if_neg heq]
    unfold sweep
    split
    · split
      · rfl
      · exact Array.getElem?_setIfInBounds_ne (Ne.symm heq)
    · rfl

theorem free_sweep (marked : Marked) (target : Nat) :
    (marked.sweep target).heap.free =
      (if !isMarked marked.marks target && (marked.heap.slots[target]?.join).isSome then [target]
        else []) ++ marked.heap.free := by
  unfold sweep slot?
  cases marked.heap.slots[target]?.join with
  | none => simp
  | some slot => by_cases hmarked : isMarked marked.marks target <;> simp [hmarked]

theorem epoch_sweep (marked : Marked) (target : Nat) :
    (marked.sweep target).heap.epoch = marked.heap.epoch := by
  unfold sweep
  split
  · split <;> rfl
  · rfl

theorem size_marks_sweep (marked : Marked) (target : Nat) :
    (marked.sweep target).marks.size = marked.marks.size := by
  unfold sweep
  split
  · split
    · exact Array.size_setIfInBounds
    · rfl
  · rfl

/-- Only allocated nodes have a mark, so a mark is always cleared. -/
theorem isMarked_sweep (hlive : isMarked marked.marks target → marked.heap.Live ⟨target⟩)
    (index : Nat) : isMarked (marked.sweep target).marks index =
      (!decide (index = target) && isMarked marked.marks index) := by
  cases hmarked : isMarked marked.marks target with
  | true =>
    have hslot : (marked.heap.slot? ⟨target⟩).isSome := hlive hmarked
    unfold sweep
    rw [if_pos hslot, if_pos hmarked]
    unfold isMarked
    rw [Array.getD_eq_getD_getElem?, Array.getD_eq_getD_getElem?, Array.getElem?_setIfInBounds]
    by_cases heq : target = index
    · subst heq
      by_cases hlt : target < marked.marks.size <;> simp [hlt]
    · simp [heq, Ne.symm heq]
  | false =>
    have hmarks : (marked.sweep target).marks = marked.marks := by
      unfold sweep
      rw [hmarked]
      split <;> rfl
    rw [hmarks]
    by_cases heq : index = target
    · subst heq
      rw [hmarked, Bool.and_false]
    · simp [heq]

end Sweep

/-- The invariant of the sweep, when the slots before `count` have been swept. -/
structure Swept (heap : ListHeap) (marks : Array Bool) (count : Nat) (swept : Marked) : Prop where
  slots : ∀ index, swept.heap.slots[index]? =
    if index < count then heap.slots[index]?.map fun slot =>
      if isMarked marks index then slot else none
    else heap.slots[index]?
  free : swept.heap.free = ((List.range count).filter fun index =>
    !isMarked marks index && (heap.slots[index]?.join).isSome).reverse ++ heap.free
  epoch : swept.heap.epoch = heap.epoch
  size : swept.marks.size = marks.size
  marks : ∀ index, isMarked swept.marks index = (decide (count ≤ index) && isMarked marks index)

section Swept

variable {heap : ListHeap} {marks : Array Bool}
  (hmarks : ∀ index, isMarked marks index → heap.Live ⟨index⟩)
include hmarks

theorem Swept.sweep {count : Nat} {swept : Marked} (h : Swept heap marks count swept) :
    Swept heap marks (count + 1) (swept.sweep count) := by
  have hslot : swept.heap.slots[count]? = heap.slots[count]? := by
    rw [h.slots, if_neg (Nat.lt_irrefl count)]
  have hmark : isMarked swept.marks count = isMarked marks count := by
    rw [h.marks, decide_eq_true (Nat.le_refl count), Bool.true_and]
  refine ⟨fun index => ?_, ?_, (epoch_sweep _ _).trans h.epoch, (size_marks_sweep _ _).trans h.size,
    fun index => ?_⟩
  · rw [slots_sweep]
    by_cases heq : index = count
    · subst heq
      rw [if_pos rfl, if_pos (Nat.lt_succ_self _), hslot, hmark]
    · rw [if_neg heq, h.slots]
      by_cases hlt : index < count
      · rw [if_pos hlt, if_pos (Nat.lt_succ_of_lt hlt)]
      · rw [if_neg hlt, if_neg (by omega)]
  · rw [free_sweep, hslot, hmark, h.free, ← List.append_assoc, List.range_succ,
      List.filter_append, List.reverse_append]
    congr 2
    rw [List.filter_singleton]
    cases !isMarked marks count && (heap.slots[count]?.join).isSome <;> rfl
  · rw [isMarked_sweep fun hmarked => ?_, h.marks]
    · by_cases heq : index = count
      · subst heq
        simp
      · have hle : count ≤ index ↔ count + 1 ≤ index := by omega
        simp [heq, hle]
    · rw [Live, slot?, hslot]
      exact hmarks count (hmark ▸ hmarked)

theorem swept_foldl_sweep (count : Nat) :
    Swept heap marks count ((List.range count).foldl Marked.sweep ⟨heap, marks⟩) := by
  induction count with
  | zero => exact ⟨fun _ => rfl, rfl, rfl, rfl, fun index => by simp⟩
  | succ count ih =>
    rw [List.range_succ, List.foldl_append]
    exact ih.sweep hmarks

end Swept

theorem eq_replicate_false {marks : Array Bool} {size : Nat} (hsize : marks.size = size)
    (hmarks : ∀ index, isMarked marks index = false) : marks = Array.replicate size false := by
  refine Array.ext (by rw [hsize, Array.size_replicate]) fun index hlt hlt' => ?_
  have hmark := hmarks index
  rw [isMarked, Array.getD_eq_getD_getElem?, Array.getElem?_eq_getElem hlt] at hmark
  rw [Array.getElem_replicate]
  exact hmark

theorem size_reachable (heap : ListHeap) (roots : List Value) :
    (heap.reachable roots).size = heap.slots.size := by
  refine (marking_markLoop _ (Marking.start heap roots) ?_).size_eq
  rw [unmarkedEdges_replicate_false]

/-- From clear marks a collection does what reclaiming does, and it ends with clear marks. -/
theorem Clear.collect (h : marked.Clear) (roots : List Value) :
    (marked.collect roots).heap = marked.heap.reclaim roots ∧ (marked.collect roots).Clear := by
  obtain ⟨heap, marks⟩ := marked
  obtain rfl : marks = Array.replicate heap.slots.size false := h
  have hmarks : ∀ index, isMarked (heap.reachable roots) index → heap.Live ⟨index⟩ :=
    fun index hmarked => ((isMarked_reachable_iff heap roots ⟨index⟩).mp hmarked).2
  have hswept := swept_foldl_sweep hmarks heap.slots.size
  show ((List.range heap.slots.size).foldl sweep ⟨heap, heap.reachable roots⟩).heap = _ ∧
    Clear ((List.range heap.slots.size).foldl sweep ⟨heap, heap.reachable roots⟩)
  generalize (List.range heap.slots.size).foldl sweep ⟨heap, heap.reachable roots⟩ = swept
    at hswept ⊢
  have hslots : swept.heap.slots = (heap.reclaim roots).slots := by
    refine Array.ext_getElem? fun index => ?_
    rw [hswept.slots, reclaim, Array.getElem?_mapIdx]
    by_cases hlt : index < heap.slots.size
    · rw [if_pos hlt]
    · rw [if_neg hlt, Array.getElem?_eq_none (Nat.not_lt.mp hlt)]
      rfl
  have hsize : swept.heap.slots.size = heap.slots.size := by
    rw [hslots, reclaim, Array.size_mapIdx]
  refine ⟨?_, eq_replicate_false ?_ fun index => ?_⟩
  · calc swept.heap = ⟨swept.heap.slots, swept.heap.free, swept.heap.epoch⟩ := rfl
      _ = heap.reclaim roots := by rw [hslots, hswept.free, hswept.epoch]; rfl
  · rw [hswept.size, size_reachable, hsize]
  · rw [hswept.marks, Bool.and_eq_false_iff, decide_eq_false_iff_not, Nat.not_le]
    by_cases hlt : index < heap.slots.size
    · exact .inl hlt
    · refine .inr (Bool.eq_false_iff.mpr fun hmarked => hlt ?_)
      obtain ⟨node, hnode⟩ := live_iff_exists_node.mp (hmarks index hmarked)
      exact index_lt_of_node? hnode

theorem Clear.step (h : marked.Clear) (op : Op) :
    (marked.step op).heap = (op.perform marked.heap).2 ∧ (marked.step op).Clear := by
  have hold : ∀ index, isMarked marked.marks index = false := by
    intro index
    rw [h]
    exact isMarked_replicate_false _ index
  have hnew : ∀ heap : ListHeap, Clear
      ⟨heap, Array.ofFn fun index : Fin heap.slots.size =>
        isMarked marked.marks index && (marked.heap.slot? ⟨index⟩).isSome⟩ := by
    intro heap
    refine Array.ext (by simp) fun index hlt hlt' => ?_
    rw [Array.getElem_ofFn, hold, Array.getElem_replicate, Bool.false_and]
  cases op with
  | reclaim roots => exact h.collect roots
  | _ => exact ⟨rfl, hnew _⟩

/-- All marks are clear between two operations, so marks in slots are as good as new ones. -/
theorem Clear.run (h : marked.Clear) {session : Session} (hheap : marked.heap = session.heap)
    (ops : List Op) : (marked.run ops).heap = (session.run ops).heap ∧ (marked.run ops).Clear := by
  induction ops generalizing marked session with
  | nil => exact ⟨hheap, h⟩
  | cons op rest ih =>
    obtain ⟨hstep, hclear⟩ := h.step op
    exact ih hclear (hstep.trans (by rw [hheap]; rfl))

end Marked

/-! ### Later lists -/

/-- An operation that makes a list either returns one that is there and changes nothing, or makes
one node where there was none. -/
inductive Adds (heap : ListHeap) (result : Handle × ListHeap) : Prop where
  | old (hlive : heap.Live result.1) (hheap : result.2 = heap)
  | new (hnew : ¬ heap.Live result.1)
      (hlive : ∀ list, result.2.Live list ↔ list = result.1 ∨ heap.Live list)

section Adding

variable {heap : ListHeap} (hheap : heap.WellFormed)
include hheap

theorem adds_alloc (node : Node) : heap.Adds (heap.alloc node) :=
  .new (not_live_alloc hheap node) fun _ => live_alloc_iff hheap node

theorem adds_tail (list : Handle) : heap.Adds (heap.tail list) := by
  unfold tail
  split
  · next _ rest hnode =>
      exact .old (hheap.closed list _ hnode rest (by simp [Node.successors])) rfl
  · exact adds_alloc hheap _
  · exact adds_alloc hheap _
  · exact adds_alloc hheap _

theorem adds_flatten {list : Handle} (hlive : heap.Live list) : heap.Adds (heap.flatten list) := by
  unfold flatten
  split
  · exact .old hlive rfl
  · exact adds_alloc hheap _

theorem adds_append (lease : Lease) (list : Handle) {value : Value}
    (hvalue : heap.Supports [value]) : heap.Adds (heap.append lease list value) := by
  unfold append
  split
  · next base buffer length start stop hgrowable =>
      obtain ⟨-, hslot, -⟩ := growable?_eq_some hgrowable
      dsimp only
      generalize hgrown : ({ heap with
        slots := heap.slots.setIfInBounds base.index
          (some ⟨.base (buffer.push value) length, lease.epoch⟩) } : ListHeap) = grown
      have hlive := live_grown_iff hslot hgrown.symm
      have hwell : grown.WellFormed := wellFormed_grown hheap hslot hgrown.symm hvalue
      refine .new ((hlive _).not.mp (not_live_alloc hwell _)) fun other => ?_
      rw [live_alloc_iff hwell, hlive]
  · exact adds_alloc hheap _

end Adding

theorem Session.Valid.adds {session : Session} (hvalid : session.Valid) {op : Op}
    (hop : ∀ list ∈ op.operands, ∃ xs, (list, xs) ∈ session.known) {list : Handle}
    (hlist : (op.perform session.heap).1 = some list) :
    session.heap.Adds (list, (op.perform session.heap).2) := by
  have hheap := hvalid.wellFormed
  cases op with
  | empty | ofList | cons =>
    cases hlist
    exact adds_alloc hheap _
  | tail source =>
    cases hlist
    exact adds_tail hheap source
  | flatten source =>
    cases hlist
    obtain ⟨xs, hxs⟩ := hop source List.mem_cons_self
    exact adds_flatten hheap (hvalid.denotes source xs hxs).live
  | append lease source value =>
    cases hlist
    refine adds_append hheap lease source (hvalid.supports fun other hother => ?_)
    exact hop other (List.mem_cons_of_mem _ hother)
  | beginEpoch | reclaim => cases hlist

/-- **Collections are exact and safe.** In a heap that any operations have led to, marking from
allocated roots comes to an end and never meets a node that was freed. The collection leaves what
the roots reach, as it was, and nothing else. Where the marks are kept in the slots, it starts and
ends with all of them clear. Whatever is done afterwards, no list is made where there is one. -/
theorem collects_of_run (before : List Op) (hbefore : ({} : Session).Allows before)
    (roots : List Value) (hroots : (({} : Session).run before).heap.Supports roots) :
    let session := ({} : Session).run before
    let marked := ({} : Marked).run before
    (∃ rounds, session.heap.markRound^[rounds] (session.heap.markStart roots) =
      ([], session.heap.reachable roots)) ∧
    (∀ rounds, ∀ list ∈ (session.heap.markRound^[rounds] (session.heap.markStart roots)).1,
      session.heap.Live list) ∧
    session.heap.Collects roots (session.heap.reclaim roots) ∧
    (marked.Clear ∧ (marked.collect roots).heap = session.heap.reclaim roots ∧
      (marked.collect roots).Clear) ∧
    ∀ after op, (session.step (.reclaim roots)).Allows (after ++ [op]) →
      let later := ((session.step (.reclaim roots)).run after).heap
      ∀ list, (op.perform later).1 = some list → later.Adds (list, (op.perform later).2) := by
  intro session marked
  have hvalid : session.Valid := Session.valid_start.run hbefore
  have hstart : ({} : Marked).Clear := rfl
  obtain ⟨hheap, hclear⟩ : marked.heap = session.heap ∧ marked.Clear := hstart.run rfl before
  refine ⟨exists_iterate_markRound_eq _ _, fun rounds list hlist => ?_,
    collects_reclaim hvalid.wellFormed hroots, ⟨hclear, hheap ▸ hclear.collect roots⟩, ?_⟩
  · have hmarking := (marking_markStart session.heap roots).iterate rounds
    exact (hmarking.work_reached list hlist).live hvalid.wellFormed hroots
  · intro after op hallows later list hlist
    obtain ⟨hafter, hop, -⟩ := hallows.append_left
    exact ((hvalid.reclaim roots).run hafter).adds hop hlist

/-- The buffer of the list `⟨0⟩` holds this list itself, behind what it shows: a cycle of nodes,
reached from the longer list `⟨1⟩`. The third list is freed, and a new one takes its place. -/
theorem collects_cyclic_buffer :
    let session := ({} : Session).run
      [.beginEpoch, .ofList [.int 1], .append ⟨1⟩ ⟨0⟩ (.list ⟨0⟩), .ofList [.int 7]]
    session.heap.Collects [.list ⟨1⟩] (session.heap.reclaim [.list ⟨1⟩]) ∧
      (session.heap.reclaim [.list ⟨1⟩]).liveNodes = 2 ∧
      (session.step (.reclaim [.list ⟨1⟩])).heap.Adds
        (⟨2⟩, ((session.step (.reclaim [.list ⟨1⟩])).step (.ofList [.int 8])).heap) := by
  intro session
  have hfirst : (⟨0⟩, [.int 1]) ∈ (({} : Session).run [.beginEpoch, .ofList [.int 1]]).known :=
    Or.inr ⟨rfl, rfl⟩
  have hallows : ({} : Session).Allows
      [.beginEpoch, .ofList [.int 1], .append ⟨1⟩ ⟨0⟩ (.list ⟨0⟩), .ofList [.int 7]] := by
    refine ⟨by simp [Op.operands], by simp [Op.operands, handles, Value.list?], ?_,
      by simp [Op.operands, handles, Value.list?], trivial⟩
    simpa [Op.operands, handles, Value.list?] using ⟨_, hfirst⟩
  have hroots : session.heap.Supports [.list ⟨1⟩] := by
    refine supports_iff.mpr fun list hlist => ?_
    cases List.mem_singleton.mp hlist
    rfl
  obtain ⟨-, -, hcollects, -, hlater⟩ := collects_of_run _ hallows _ hroots
  refine ⟨hcollects, by decide, hlater [] (.ofList [.int 8]) ⟨?_, trivial⟩ ⟨2⟩ (by decide)⟩
  simp [Op.operands, handles, Value.list?]

end AbstractStateMachine.ListHeap
