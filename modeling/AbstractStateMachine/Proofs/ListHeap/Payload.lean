import AbstractStateMachine.Proofs.Operation

/-!
# The values in a heap

A property that scalars and lists have, and that all values in the nodes of a heap have, is kept by
every operation on lists that is given such values. It does not matter whether the heap is
well-formed, or which nodes are still seen by a list.
-/

namespace AbstractStateMachine.ListHeap

def Node.values : Node → List Value
  | .base buffer _ => buffer.toList
  | .slice _ _ _ => []
  | .head value _ => [value]

def AllValues (good : Value → Prop) (heap : ListHeap) : Prop :=
  ∀ slot, some slot ∈ heap.slots → ∀ value ∈ slot.node.values, good value

/-- A property that does not depend on what a list holds. -/
structure Admissible (good : Value → Prop) : Prop where
  of_isScalar : ∀ {value}, IsScalar value → good value
  of_list : ∀ list, good (.list list)

variable {good : Value → Prop} {heap : ListHeap}

theorem AllValues.imp {other : Value → Prop} (h : heap.AllValues good)
    (himp : ∀ value, good value → other value) : heap.AllValues other :=
  fun slot hslot value hvalue => himp value (h slot hslot value hvalue)

theorem allValues_default : AllValues good {} := by
  rintro slot ⟨⟨⟩⟩

section Operations

variable (h : heap.AllValues good)
include h

theorem AllValues.of_node? {list : Handle} {node : Node} (hnode : heap.node? list = some node) :
    ∀ value ∈ node.values, good value := by
  obtain ⟨slot, hslot, rfl⟩ := Option.map_eq_some_iff.mp hnode
  exact h slot (Array.mem_of_getElem? (Option.join_eq_some_iff.mp hslot))

theorem AllValues.setIfInBounds (slot : Slot) (hslot : ∀ value ∈ slot.node.values, good value)
    (index : Nat) :
    AllValues good { heap with slots := heap.slots.setIfInBounds index (some slot) } := by
  intro other hother
  rcases Array.mem_or_eq_of_mem_setIfInBounds hother with hold | hnew
  · exact h other hold
  · cases hnew
    exact hslot

theorem AllValues.alloc {node : Node} (hnode : ∀ value ∈ node.values, good value) :
    (heap.alloc node).2.AllValues good := by
  unfold ListHeap.alloc
  dsimp only
  split
  · exact h.setIfInBounds ⟨node, heap.epoch⟩ hnode _
  · intro other hother
    rcases Array.mem_push.mp hother with hold | hnew
    · exact h other hold
    · cases hnew
      exact hnode

theorem AllValues.ofList {values : List Value} (hvalues : ∀ value ∈ values, good value) :
    (heap.ofList values).2.AllValues good :=
  h.alloc hvalues

theorem AllValues.cons {value : Value} (hvalue : good value) (list : Handle) :
    (heap.cons value list).2.AllValues good :=
  h.alloc fun _ hmem => List.mem_singleton.mp hmem ▸ hvalue

theorem AllValues.tail (list : Handle) : (heap.tail list).2.AllValues good := by
  unfold ListHeap.tail
  split
  · exact h
  · exact h.alloc nofun
  · exact h.alloc nofun
  · exact h.ofList nofun

theorem AllValues.of_mem_buffer {base : Handle} : ∀ value ∈ heap.buffer base, good value := by
  unfold ListHeap.buffer
  split
  · next values length hnode =>
      exact fun value hvalue => h.of_node? hnode value (Array.mem_toList_iff.mpr hvalue)
  · nofun

theorem AllValues.of_mem_elements (depth : Nat) (list : Handle) :
    ∀ value ∈ heap.elements depth list, good value := by
  have hwindow : ∀ (buffer : Array Value) (start stop : Nat),
      (∀ value ∈ buffer, good value) → ∀ value ∈ window buffer start stop, good value := by
    intro buffer start stop hbuffer value hvalue
    rw [window_eq_drop_take] at hvalue
    exact hbuffer value
      (Array.mem_toList_iff.mp (List.mem_of_mem_take (List.mem_of_mem_drop hvalue)))
  induction depth generalizing list with
  | zero => rintro _ ⟨⟩
  | succ depth ih =>
    unfold elements
    cases hnode : heap.node? list with
    | none => rintro _ ⟨⟩
    | some node =>
      have hvalues := h.of_node? hnode
      cases node with
      | base buffer length =>
        exact hwindow buffer 0 length fun value hvalue =>
          hvalues value (Array.mem_toList_iff.mpr hvalue)
      | slice base start stop => exact hwindow _ start stop h.of_mem_buffer
      | head value rest =>
        exact List.forall_mem_cons.mpr ⟨hvalues value List.mem_cons_self, ih rest⟩

theorem AllValues.of_mem_toList (list : Handle) : ∀ value ∈ heap.toList list, good value :=
  h.of_mem_elements _ list

theorem AllValues.of_at? (depth : Nat) (list : Handle) (position : Nat) :
    ∀ value ∈ heap.at? depth list position, good value := by
  induction depth generalizing list position with
  | zero => rintro _ ⟨⟩
  | succ depth ih =>
    unfold at?
    cases hnode : heap.node? list with
    | none => rintro _ ⟨⟩
    | some node =>
      have hvalues := h.of_node? hnode
      cases node with
      | base buffer length =>
        dsimp only
        split
        · exact fun value hvalue =>
            hvalues value (Array.mem_toList_iff.mpr (Array.mem_of_getElem? hvalue))
        · rintro _ ⟨⟩
      | slice base start stop =>
        dsimp only
        split
        · exact fun value hvalue => h.of_mem_buffer value (Array.mem_of_getElem? hvalue)
        · rintro _ ⟨⟩
      | head value rest =>
        cases position with
        | zero =>
          rintro _ ⟨⟩
          exact hvalues value List.mem_cons_self
        | succ position => exact ih rest position

theorem AllValues.flatten (list : Handle) : (heap.flatten list).2.AllValues good := by
  unfold ListHeap.flatten
  split
  · exact h
  · exact h.ofList (h.of_mem_toList list)

theorem AllValues.append (lease : Lease) (list : Handle) {value : Value} (hvalue : good value) :
    (heap.append lease list value).2.AllValues good := by
  unfold ListHeap.append
  cases hgrowable : heap.growable? lease list with
  | none =>
    refine h.ofList fun other hother => ?_
    rcases List.mem_append.mp hother with hold | hnew
    · exact h.of_mem_toList list other hold
    · exact List.mem_singleton.mp hnew ▸ hvalue
  | some view =>
    obtain ⟨base, buffer, length, start, stop⟩ := view
    obtain ⟨-, hbase, -⟩ := growable?_eq_some hgrowable
    have hbuffer := h.of_node? (node?_eq_some_iff.mpr ⟨_, hbase⟩)
    refine AllValues.alloc (h.setIfInBounds _ ?_ _) nofun
    intro other hother
    rcases Array.mem_push.mp (Array.mem_toList_iff.mp hother) with hold | rfl
    · exact hbuffer other (Array.mem_toList_iff.mpr hold)
    · exact hvalue

theorem AllValues.reclaim (roots : List Value) : (heap.reclaim roots).AllValues good := by
  intro slot hslot
  obtain ⟨index, hindex⟩ := Array.mem_iff_getElem?.mp hslot
  rw [slots_reclaim] at hindex
  split at hindex
  · exact h slot (Array.mem_of_getElem? hindex)
  · obtain ⟨_, -, hnone⟩ := Option.map_eq_some_iff.mp hindex
    cases hnone

end Operations

section Builtins

variable (hgood : Admissible good) (h : heap.AllValues good) {op : Builtin}
  {result : Value × ListHeap}
include hgood h

theorem AllValues.nth (list : Handle) (position : Int64) : good (heap.nth list position) := by
  unfold ListHeap.nth
  split
  · exact hgood.of_isScalar trivial
  · cases hat : heap.at? (heap.slots.size + 1) list (position.toInt.toNat - 1) with
    | none => exact hgood.of_isScalar trivial
    | some value => exact h.of_at? _ list _ value hat

theorem AllValues.peek (list : Handle) : good (heap.peek list) := by
  unfold ListHeap.peek
  cases hat : heap.at? (heap.slots.size + 1) list 0 with
  | none => exact hgood.of_isScalar trivial
  | some value => exact h.of_at? _ list _ value hat

theorem AllValues.builtin {lease : Lease} {args : List Value} (hargs : ∀ value ∈ args, good value)
    (hresult : Operation.builtin heap lease op args = .ok result) :
    good result.1 ∧ result.2.AllValues good := by
  by_cases hlists : Operation.HandlesList op args
  · cases hlists with
    | nth list position =>
      cases hresult
      exact ⟨h.nth hgood list position, h⟩
    | cons value list =>
      cases hresult
      exact ⟨hgood.of_list _, h.cons (hargs value (by simp)) list⟩
    | app list value =>
      cases hresult
      exact ⟨hgood.of_list _, h.append lease list (hargs value (by simp))⟩
    | tail list =>
      cases hresult
      exact ⟨hgood.of_list _, h.tail list⟩
    | len list =>
      cases hresult
      exact ⟨hgood.of_isScalar trivial, h⟩
    | peek list =>
      cases hresult
      exact ⟨h.peek hgood list, h⟩
  · obtain ⟨hscalar, rfl, -⟩ := Operation.computes_of_builtin hlists hresult
    exact ⟨hgood.of_isScalar hscalar, h⟩

end Builtins

end AbstractStateMachine.ListHeap
