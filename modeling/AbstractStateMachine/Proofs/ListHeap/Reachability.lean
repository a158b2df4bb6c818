import AbstractStateMachine.Proofs.ListHeap.Operations
import Mathlib.Algebra.BigOperators.Group.Finset.Basic
import Mathlib.Algebra.Order.Group.Nat

/-!
# Reachability and reclamation

`Reaches` follows references between nodes from the lists among the roots. The marking loop marks
exactly the allocated nodes that are reached: its work list holds reached handles only, what a
marked node refers to is marked or still to be looked at, and the rounds it is given suffice, since
every round takes one handle off the work list and a node adds its references once.

Reclaiming therefore keeps every reached list with its sequence, and frees the others.
-/

namespace AbstractStateMachine.ListHeap

variable {heap : ListHeap} {list : Handle} {roots : List Value}

/-- The lists that the roots lead to. -/
inductive Reaches (heap : ListHeap) (roots : List Value) : Handle → Prop where
  | root {list : Handle} (hroot : list ∈ handles roots) : Reaches heap roots list
  | next {list next : Handle} (hlist : Reaches heap roots list)
      (hnext : next ∈ heap.successors list) : Reaches heap roots next

theorem successors_of_node? {node : Node} (hnode : heap.node? list = some node) :
    heap.successors list = node.successors := by
  simp [successors, hnode]

theorem live_of_mem_successors {next : Handle} (hnext : next ∈ heap.successors list) :
    heap.Live list := by
  cases hnode : heap.node? list with
  | none => simp [successors, hnode] at hnext
  | some node => exact live_of_node? hnode

theorem closed_reaches (heap : ListHeap) (roots : List Value) :
    heap.Closed (heap.Reaches roots) := by
  intro list node hlist hnode next hnext
  exact .next hlist (successors_of_node? hnode ▸ hnext)

/-! ### Marking -/

section Marks

variable {marks : Array Bool}

theorem isMarked_replicate_false (size index : Nat) :
    isMarked (Array.replicate size false) index = false := by
  unfold isMarked
  rw [Array.getD_eq_getD_getElem?, Array.getElem?_replicate]
  split <;> rfl

theorem isMarked_setIfInBounds {target : Nat} (htarget : target < marks.size) (index : Nat) :
    isMarked (marks.setIfInBounds target true) index =
      (decide (index = target) || isMarked marks index) := by
  unfold isMarked
  rw [Array.getD_eq_getD_getElem?, Array.getD_eq_getD_getElem?, Array.getElem?_setIfInBounds]
  by_cases heq : target = index
  · subst heq
    simp [htarget]
  · simp [heq, Ne.symm heq]

theorem getElem?_eq_some_false_iff {index : Nat} :
    marks[index]? = some false ↔ index < marks.size ∧ isMarked marks index = false := by
  unfold isMarked
  rw [Array.getD_eq_getD_getElem?]
  by_cases hlt : index < marks.size
  · simp [hlt]
  · simp [hlt]

end Marks

structure Marking (heap : ListHeap) (roots : List Value) (work : List Handle)
    (marks : Array Bool) : Prop where
  size_eq : marks.size = heap.slots.size
  marked_reached : ∀ list : Handle, isMarked marks list.index → heap.Reaches roots list
  marked_live : ∀ list : Handle, isMarked marks list.index → heap.Live list
  work_reached : ∀ list ∈ work, heap.Reaches roots list
  root_seen : ∀ list ∈ handles roots, heap.Live list → isMarked marks list.index ∨ list ∈ work
  next_seen : ∀ list next : Handle, isMarked marks list.index → next ∈ heap.successors list →
    heap.Live next → isMarked marks next.index ∨ next ∈ work

section Loop

variable {heap : ListHeap} {roots : List Value} {work : List Handle} {marks : Array Bool}
  {list : Handle}

theorem Marking.start (heap : ListHeap) (roots : List Value) :
    Marking heap roots (handles roots) (Array.replicate heap.slots.size false) where
  size_eq := by simp
  marked_reached list hmarked := by simp [isMarked_replicate_false] at hmarked
  marked_live list hmarked := by simp [isMarked_replicate_false] at hmarked
  work_reached _ hmem := .root hmem
  root_seen _ hmem _ := Or.inr hmem
  next_seen list next hmarked := by simp [isMarked_replicate_false] at hmarked

theorem Marking.isMarked_of_not_visit (h : Marking heap roots work marks)
    (hvisit : ¬ (marks[list.index]? = some false ∧ heap.Live list)) (hlive : heap.Live list) :
    isMarked marks list.index := by
  by_contra hunmarked
  obtain ⟨node, hnode⟩ := live_iff_exists_node.mp hlive
  have hlt : list.index < marks.size := h.size_eq ▸ index_lt_of_node? hnode
  exact hvisit ⟨getElem?_eq_some_false_iff.mpr ⟨hlt, by simpa using hunmarked⟩, hlive⟩

theorem Marking.skip {rest : List Handle} (h : Marking heap roots (list :: rest) marks)
    (hskip : heap.Live list → isMarked marks list.index) : Marking heap roots rest marks where
  size_eq := h.size_eq
  marked_reached := h.marked_reached
  marked_live := h.marked_live
  work_reached other hmem := h.work_reached other (List.mem_cons_of_mem _ hmem)
  root_seen other hmem hlive := by
    rcases h.root_seen other hmem hlive with hmarked | hwork
    · exact Or.inl hmarked
    · rcases List.mem_cons.mp hwork with rfl | hrest
      · exact Or.inl (hskip hlive)
      · exact Or.inr hrest
  next_seen other next hmarked hnext hlive := by
    rcases h.next_seen other next hmarked hnext hlive with hseen | hwork
    · exact Or.inl hseen
    · rcases List.mem_cons.mp hwork with rfl | hrest
      · exact Or.inl (hskip hlive)
      · exact Or.inr hrest

theorem Marking.visit {rest : List Handle} (h : Marking heap roots (list :: rest) marks)
    (hlive : heap.Live list) :
    Marking heap roots (heap.successors list ++ rest)
      (marks.setIfInBounds list.index true) := by
  obtain ⟨node, hnode⟩ := live_iff_exists_node.mp hlive
  have hlt : list.index < marks.size := h.size_eq ▸ index_lt_of_node? hnode
  have hreached : heap.Reaches roots list := h.work_reached list List.mem_cons_self
  have hmarked : ∀ other : Handle,
      isMarked (marks.setIfInBounds list.index true) other.index ↔
        other = list ∨ isMarked marks other.index := by
    rintro ⟨index⟩
    obtain ⟨target⟩ := list
    rw [isMarked_setIfInBounds hlt, Bool.or_eq_true, decide_eq_true_iff, Handle.mk.injEq]
  have hwork : ∀ other : Handle, isMarked marks other.index ∨ other ∈ list :: rest →
      isMarked (marks.setIfInBounds list.index true) other.index ∨
        other ∈ heap.successors list ++ rest := by
    intro other hother
    rw [hmarked other]
    rcases hother with hold | hmem
    · exact Or.inl (Or.inr hold)
    · rcases List.mem_cons.mp hmem with heq | hrest
      · exact Or.inl (Or.inl heq)
      · exact Or.inr (List.mem_append_right _ hrest)
  refine ⟨by simpa using h.size_eq, ?_, ?_, ?_, ?_, ?_⟩
  · intro other hother
    rcases (hmarked other).mp hother with rfl | hold
    · exact hreached
    · exact h.marked_reached other hold
  · intro other hother
    rcases (hmarked other).mp hother with rfl | hold
    · exact hlive
    · exact h.marked_live other hold
  · intro other hmem
    rcases List.mem_append.mp hmem with hnext | hrest
    · exact .next hreached hnext
    · exact h.work_reached other (List.mem_cons_of_mem _ hrest)
  · intro other hroot hother
    exact hwork other (h.root_seen other hroot hother)
  · intro other next hother hnext hnextLive
    rcases (hmarked other).mp hother with rfl | hold
    · exact Or.inr (List.mem_append_left _ hnext)
    · exact hwork next (h.next_seen other next hold hnext hnextLive)

theorem Marking.isMarked_iff (h : Marking heap roots [] marks) (list : Handle) :
    isMarked marks list.index ↔ heap.Reaches roots list ∧ heap.Live list := by
  constructor
  · intro hmarked
    exact ⟨h.marked_reached list hmarked, h.marked_live list hmarked⟩
  · rintro ⟨hreaches, hlive⟩
    induction hreaches with
    | root hroot =>
      rcases h.root_seen _ hroot hlive with hmarked | hwork
      · exact hmarked
      · cases hwork
    | next _ hnext ih =>
      have hparent := ih (live_of_mem_successors hnext)
      rcases h.next_seen _ _ hparent hnext hlive with hmarked | hwork
      · exact hmarked
      · cases hwork

/-! The rounds are paid for by the handles on the work list and by the references of the nodes that
are not marked yet. -/

def unmarkedEdges (heap : ListHeap) (marks : Array Bool) : Nat :=
  ∑ index ∈ Finset.range heap.slots.size,
    if isMarked marks index then 0 else (heap.successors ⟨index⟩).length

theorem unmarkedEdges_setIfInBounds (hlt : list.index < marks.size)
    (hsize : marks.size = heap.slots.size) (hunmarked : isMarked marks list.index = false) :
    heap.unmarkedEdges (marks.setIfInBounds list.index true) + (heap.successors list).length =
      heap.unmarkedEdges marks := by
  unfold unmarkedEdges
  have hmem : list.index ∈ Finset.range heap.slots.size := Finset.mem_range.mpr (hsize ▸ hlt)
  rw [← Finset.sum_erase_add _ _ hmem, ← Finset.sum_erase_add _ _ hmem]
  have hself : isMarked (marks.setIfInBounds list.index true) list.index = true := by
    simp [isMarked_setIfInBounds hlt]
  have hothers : ∀ index ∈ (Finset.range heap.slots.size).erase list.index,
      (if isMarked (marks.setIfInBounds list.index true) index then 0
        else (heap.successors ⟨index⟩).length) =
      if isMarked marks index then 0 else (heap.successors ⟨index⟩).length := by
    intro index hindex
    rw [isMarked_setIfInBounds hlt, decide_eq_false (Finset.ne_of_mem_erase hindex),
      Bool.false_or]
  rw [Finset.sum_congr rfl hothers, hself, hunmarked]
  simp

theorem unmarkedEdges_replicate_false (heap : ListHeap) :
    heap.unmarkedEdges (Array.replicate heap.slots.size false) = heap.edgeCount := by
  obtain ⟨⟨slots⟩, free, epoch⟩ := heap
  unfold unmarkedEdges edgeCount successors node? slot?
  simp only [isMarked_replicate_false, Bool.false_eq_true, if_false, List.size_toArray,
    List.getElem?_toArray]
  induction slots with
  | nil => rfl
  | cons slot slots ih =>
    rw [List.length_cons, Finset.sum_range_succ']
    simp only [List.getElem?_cons_succ, List.getElem?_cons_zero, ih]
    cases slot with
    | none => simp
    | some slot => simp [Nat.add_comm]

theorem marking_markLoop (rounds : Nat) (h : Marking heap roots work marks)
    (hrounds : work.length + heap.unmarkedEdges marks ≤ rounds) :
    Marking heap roots [] (heap.markLoop rounds work marks) := by
  induction rounds generalizing work marks with
  | zero =>
    have hwork : work = [] := List.length_eq_zero_iff.mp (by omega)
    subst hwork
    simpa [markLoop] using h
  | succ rounds ih =>
    cases work with
    | nil => simpa [markLoop] using h
    | cons list rest =>
      rw [markLoop]
      split
      · rename_i hvisit
        obtain ⟨hunmarked, hlive⟩ := hvisit
        obtain ⟨hlt, hfalse⟩ := getElem?_eq_some_false_iff.mp hunmarked
        have hedges := unmarkedEdges_setIfInBounds hlt h.size_eq hfalse
        refine ih (h.visit hlive) ?_
        simp only [List.length_append, List.length_cons] at hrounds ⊢
        omega
      · rename_i hvisit
        refine ih (h.skip (h.isMarked_of_not_visit hvisit)) ?_
        simp only [List.length_cons] at hrounds
        omega

end Loop

theorem isMarked_reachable_iff (heap : ListHeap) (roots : List Value) (list : Handle) :
    isMarked (heap.reachable roots) list.index ↔ heap.Reaches roots list ∧ heap.Live list := by
  refine Marking.isMarked_iff ?_ list
  refine marking_markLoop _ (.start heap roots) ?_
  rw [unmarkedEdges_replicate_false]

/-! ### Reclaiming -/

theorem slots_reclaim (heap : ListHeap) (roots : List Value) (index : Nat) :
    (heap.reclaim roots).slots[index]? =
      if isMarked (heap.reachable roots) index then heap.slots[index]?
      else heap.slots[index]?.map fun _ => none := by
  unfold reclaim
  dsimp only
  rw [Array.getElem?_mapIdx]
  split <;> simp_all

theorem slot?_reclaim_of_reaches (hlist : heap.Reaches roots list) :
    (heap.reclaim roots).slot? list = heap.slot? list := by
  cases hslot : heap.slot? list with
  | none =>
    unfold slot? at hslot ⊢
    rw [slots_reclaim]
    split
    · exact hslot
    · cases heap.slots[list.index]? <;> rfl
  | some slot =>
    have hmarked : isMarked (heap.reachable roots) list.index :=
      (isMarked_reachable_iff heap roots list).mpr ⟨hlist, by simp [Live, hslot]⟩
    unfold slot? at hslot ⊢
    rw [slots_reclaim, if_pos hmarked, hslot]

theorem slot?_reclaim_of_not_reaches (hlist : ¬ heap.Reaches roots list) :
    (heap.reclaim roots).slot? list = none := by
  have hunmarked : ¬ isMarked (heap.reachable roots) list.index := by
    rw [isMarked_reachable_iff]
    exact fun h => hlist h.1
  unfold slot?
  rw [slots_reclaim, if_neg hunmarked]
  cases heap.slots[list.index]? <;> rfl

theorem node?_reclaim_of_reaches (hlist : heap.Reaches roots list) :
    (heap.reclaim roots).node? list = heap.node? list := by
  rw [node?, node?, slot?_reclaim_of_reaches hlist]

theorem live_reclaim_iff :
    (heap.reclaim roots).Live list ↔ heap.Reaches roots list ∧ heap.Live list := by
  by_cases hlist : heap.Reaches roots list
  · rw [Live, slot?_reclaim_of_reaches hlist]
    simp [hlist, Live]
  · rw [Live, slot?_reclaim_of_not_reaches hlist]
    simp [hlist]

theorem Denotes.reclaim {elements : List Value} (hlist : heap.Reaches roots list)
    (hdenotes : heap.Denotes list elements) : (heap.reclaim roots).Denotes list elements := by
  refine hdenotes.of_kept (closed_reaches heap roots) ?_ hlist
  intro kept node hkept hnode
  exact ⟨node, by rw [node?_reclaim_of_reaches hkept, hnode], .refl node⟩

theorem wellFormed_reclaim (hheap : heap.WellFormed) (roots : List Value) :
    (heap.reclaim roots).WellFormed := by
  refine ⟨?_, ?_, ?_, ?_, ?_⟩
  · have hfreed : ∀ index ∈ heap.free, ¬ (heap.slots[index]?.join).isSome := by
      intro index hindex
      simp [(hheap.mem_free_iff index).mp hindex]
    refine List.Nodup.append ?_ hheap.free_nodup ?_
    · exact List.nodup_reverse.mpr (List.nodup_range.filter _)
    · intro index hindex hfree
      rw [List.mem_reverse, List.mem_filter] at hindex
      exact hfreed index hfree (by simpa using (Bool.and_eq_true_iff.mp hindex.2).2)
  · intro index
    have hold := hheap.mem_free_iff index
    rw [slots_reclaim]
    simp only [reclaim, List.mem_append, List.mem_reverse, List.mem_filter, List.mem_range, hold]
    by_cases hmarked : isMarked (heap.reachable roots) index
    · simp [hmarked]
    · cases hslot : heap.slots[index]? with
      | none =>
        have hge := Array.getElem?_eq_none_iff.mp hslot
        simp [hmarked]
      | some slot =>
        have hlt := (Array.getElem?_eq_some_iff.mp hslot).1
        cases slot <;> simp [hmarked, hlt]
  · intro list hlive
    obtain ⟨hreaches, hold⟩ := live_reclaim_iff.mp hlive
    obtain ⟨elements, helements⟩ := hheap.denotes list hold
    exact ⟨elements, helements.reclaim hreaches⟩
  · intro list node hnode next hnext
    obtain ⟨hreaches, -⟩ := live_reclaim_iff.mp (live_of_node? hnode)
    rw [node?_reclaim_of_reaches hreaches] at hnode
    exact live_reclaim_iff.mpr ⟨closed_reaches heap roots list node hreaches hnode next hnext,
      hheap.closed list node hnode next hnext⟩
  · refine hheap.nested.of_denotes fun list elements hlist => ?_
    obtain ⟨hreaches, hold⟩ := live_reclaim_iff.mp hlist.live
    obtain ⟨others, hothers⟩ := hheap.denotes list hold
    rw [hlist.unique (hothers.reclaim hreaches)]
    exact hothers

end AbstractStateMachine.ListHeap
