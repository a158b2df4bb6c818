import AbstractStateMachine.Proofs.ListHeap.Denotation
import Mathlib.Data.Finset.Range

/-!
# Operations that make lists

A heap is well formed if its free list names exactly the vacant slots, every list denotes a
sequence, no node refers to a vacant slot, and no list is an element of itself, directly or through
others. Every operation that makes a list keeps this, frees nothing, and returns a list that denotes
the sequence expected of it: `Makes` states the three together, and each operation has one lemma
with that conclusion.
-/

namespace AbstractStateMachine.ListHeap

variable {heap later : ListHeap} {values : List Value} {list : Handle}

/-- Some rank goes down from a list to the lists among its elements. A buffer may well hold a list
that looks at it, but behind the end of what that list sees. -/
def Nested (heap : ListHeap) : Prop :=
  ∃ rank : Handle → Nat, ∀ list elements, heap.Denotes list elements →
    ∀ inner, .list inner ∈ elements → rank inner < rank list

structure WellFormed (heap : ListHeap) : Prop where
  free_nodup : heap.free.Nodup
  mem_free_iff : ∀ index, index ∈ heap.free ↔ heap.slots[index]? = some none
  denotes : ∀ list, heap.Live list → ∃ elements, heap.Denotes list elements
  closed : ∀ list node, heap.node? list = some node → ∀ next ∈ node.successors, heap.Live next
  nested : heap.Nested

/-- The lists among the values are allocated. -/
def Supports (heap : ListHeap) (values : List Value) : Prop :=
  ∀ list ∈ handles values, heap.Live list

theorem supports_iff : heap.Supports values ↔ ∀ list, .list list ∈ values → heap.Live list := by
  simp only [Supports, mem_handles]

theorem Supports.extends (h : heap.Supports values) (hgrows : heap.Extends later) :
    later.Supports values :=
  fun list hlist => hgrows.live (h list hlist)

theorem Supports.mono {more : List Value} (h : heap.Supports more)
    (hsub : ∀ value ∈ values, value ∈ more) : heap.Supports values :=
  supports_iff.mpr fun list hlist => supports_iff.mp h list (hsub _ hlist)

theorem Supports.of_mem (h : heap.Supports values) {value : Value} (hvalue : value ∈ values) :
    heap.Supports [value] :=
  h.mono fun _ hmem => List.mem_singleton.mp hmem ▸ hvalue

theorem wellFormed_default : ({} : ListHeap).WellFormed where
  free_nodup := List.nodup_nil
  mem_free_iff index := by simp
  denotes list hlive := by simp [Live, slot?] at hlive
  closed list node hnode := by simp [node?, slot?] at hnode
  nested := ⟨fun _ => 0, fun list _ hlist => by simp [Denotes, node?, slot?] at hlist⟩

theorem supports_of_denotes (hheap : heap.WellFormed) {elements : List Value}
    (hlist : heap.Denotes list elements) : heap.Supports elements := by
  obtain ⟨node, hnode, hreads⟩ := hlist
  have hclosed : heap.Closed heap.Live := fun list node _ => hheap.closed list node
  intro next hnext
  exact hreads.kept_of_mem hclosed (hheap.closed list node hnode) (mem_handles.mp hnext)

theorem Denotes.of_extends (hheap : heap.WellFormed) (hgrows : heap.Extends later)
    (hlive : heap.Live list) {elements : List Value} (hlist : later.Denotes list elements) :
    heap.Denotes list elements := by
  obtain ⟨others, hothers⟩ := hheap.denotes list hlive
  rw [hlist.unique (hothers.extends hgrows)]
  exact hothers

theorem Nested.of_denotes (h : heap.Nested)
    (hsame : ∀ list elements, later.Denotes list elements → heap.Denotes list elements) :
    later.Nested := by
  obtain ⟨rank, hrank⟩ := h
  exact ⟨rank, fun list elements hlist => hrank list elements (hsame list elements hlist)⟩

/-- Slots change only where there was no list or one of the current epoch. -/
structure WithinEpoch (heap later : ListHeap) : Prop where
  epoch : later.epoch = heap.epoch
  slot?_cases : ∀ list, later.slot? list = heap.slot? list ∨
    (∀ slot, heap.slot? list = some slot → slot.epoch = heap.epoch) ∧
      ∃ node, later.slot? list = some ⟨node, heap.epoch⟩

theorem WithinEpoch.refl (heap : ListHeap) : heap.WithinEpoch heap := ⟨rfl, fun _ => .inl rfl⟩

theorem WithinEpoch.trans {latest : ListHeap} (h : heap.WithinEpoch later)
    (h' : later.WithinEpoch latest) : heap.WithinEpoch latest := by
  refine ⟨h'.epoch.trans h.epoch, fun list => ?_⟩
  have hcases := h'.slot?_cases list
  rw [h.epoch] at hcases
  rcases h.slot?_cases list with heq | ⟨hcurrent, hnode⟩ <;>
    rcases hcases with heq' | ⟨hcurrent', hnode'⟩
  · exact .inl (heq'.trans heq)
  · exact .inr ⟨heq ▸ hcurrent', hnode'⟩
  · exact .inr ⟨hcurrent, heq' ▸ hnode⟩
  · exact .inr ⟨hcurrent, hnode'⟩

theorem WithinEpoch.slot?_eq (h : heap.WithinEpoch later) {slot : Slot}
    (hslot : heap.slot? list = some slot) (hold : slot.epoch < heap.epoch) :
    later.slot? list = some slot := by
  rcases h.slot?_cases list with heq | ⟨hcurrent, -⟩
  · rw [heq, hslot]
  · exact absurd (hcurrent slot hslot) (Nat.ne_of_lt hold)

/-- The result of an operation on a heap is a list with the given elements, and nothing that was
there before is lost. -/
structure Makes (heap : ListHeap) (result : Handle × ListHeap) (elements : List Value) : Prop where
  wellFormed : result.2.WellFormed
  grows : heap.Extends result.2
  within : heap.WithinEpoch result.2
  denotes : result.2.Denotes result.1 elements

/-! ### Slots -/

theorem node?_eq_some_iff {node : Node} :
    heap.node? list = some node ↔ ∃ epoch, heap.slot? list = some ⟨node, epoch⟩ := by
  unfold node?
  cases hslot : heap.slot? list with
  | none => simp
  | some slot =>
    obtain ⟨other, epoch⟩ := slot
    simp

theorem slot?_replace {base : Handle} (hbase : heap.Live base) (slot : Slot) (list : Handle) :
    ({ heap with slots := heap.slots.setIfInBounds base.index (some slot) } : ListHeap).slot? list =
      if list = base then some slot else heap.slot? list := by
  obtain ⟨node, hnode⟩ := live_iff_exists_node.mp hbase
  have hlt : base.index < heap.slots.size := index_lt_of_node? hnode
  obtain ⟨index⟩ := list
  obtain ⟨target⟩ := base
  simp only [slot?, Array.getElem?_setIfInBounds, Handle.mk.injEq, eq_comm]
  by_cases heq : index = target
  · subst heq
    simp_all
  · simp [heq]

section Alloc

variable {heap : ListHeap} (hheap : heap.WellFormed) (node : Node)
include hheap

theorem slot?_alloc (list : Handle) :
    (heap.alloc node).2.slot? list =
      if list = (heap.alloc node).1 then some ⟨node, heap.epoch⟩ else heap.slot? list := by
  obtain ⟨index⟩ := list
  cases hfree : heap.free with
  | nil =>
    simp only [alloc, hfree, slot?, Array.getElem?_push, Handle.mk.injEq]
    by_cases heq : index = heap.slots.size <;> simp [heq]
  | cons target rest =>
    have hvacant : heap.slots[target]? = some none :=
      (hheap.mem_free_iff target).mp (by simp [hfree])
    have hlt : target < heap.slots.size := (Array.getElem?_eq_some_iff.mp hvacant).1
    simp only [alloc, hfree, slot?, Array.getElem?_setIfInBounds, Handle.mk.injEq, eq_comm]
    by_cases heq : index = target
    · subst heq
      simp [hlt]
    · simp [heq]

theorem not_live_alloc : ¬ heap.Live (heap.alloc node).1 := by
  cases hfree : heap.free with
  | nil => simp [alloc, hfree, Live, slot?]
  | cons target rest =>
    have hvacant : heap.slots[target]? = some none :=
      (hheap.mem_free_iff target).mp (by simp [hfree])
    simp [alloc, hfree, Live, slot?, hvacant]

theorem node?_alloc (list : Handle) :
    (heap.alloc node).2.node? list =
      if list = (heap.alloc node).1 then some node else heap.node? list := by
  rw [node?, slot?_alloc hheap node list]
  split <;> rfl

theorem extends_alloc : heap.Extends (heap.alloc node).2 := by
  refine Extends.of_node?_eq fun list old hold => ?_
  have hne : list ≠ (heap.alloc node).1 := by
    rintro rfl
    exact not_live_alloc hheap node (live_of_node? hold)
  rw [node?_alloc hheap, if_neg hne]
  exact hold

theorem withinEpoch_alloc : heap.WithinEpoch (heap.alloc node).2 := by
  refine ⟨by unfold alloc; dsimp only; split <;> rfl, fun list => ?_⟩
  rw [slot?_alloc hheap]
  split
  · next heq =>
      refine .inr ⟨fun slot hslot => absurd ?_ (not_live_alloc hheap node), node, rfl⟩
      rw [← heq, Live, hslot, Option.isSome_some]
  · exact .inl rfl

omit hheap in
theorem free_alloc : (heap.alloc node).2.free = heap.free.tail := by
  cases hfree : heap.free <;> simp [alloc, hfree]

theorem mem_free_alloc_iff (index : Nat) :
    index ∈ (heap.alloc node).2.free ↔ (heap.alloc node).2.slots[index]? = some none := by
  rw [free_alloc]
  cases hfree : heap.free with
  | nil =>
    have hnone : heap.slots[index]? ≠ some none := by
      intro hvacant
      simpa [hfree] using (hheap.mem_free_iff index).mpr hvacant
    simp only [alloc, hfree, List.tail_nil, List.not_mem_nil, Array.getElem?_push, false_iff]
    split
    · simp
    · exact hnone
  | cons target rest =>
    have hnodup : (target :: rest).Nodup := hfree ▸ hheap.free_nodup
    have hrest : index ∈ rest ↔ heap.slots[index]? = some none ∧ index ≠ target := by
      rw [← hheap.mem_free_iff index, hfree, List.mem_cons]
      constructor
      · intro hmem
        exact ⟨Or.inr hmem, fun heq => (List.nodup_cons.mp hnodup).1 (heq ▸ hmem)⟩
      · rintro ⟨heq | hmem, hne⟩
        · exact absurd heq hne
        · exact hmem
    simp only [alloc, hfree, List.tail_cons, hrest, Array.getElem?_setIfInBounds]
    by_cases heq : target = index
    · subst heq
      simp
    · simp [heq, Ne.symm heq]

theorem live_alloc_iff {list : Handle} :
    (heap.alloc node).2.Live list ↔ list = (heap.alloc node).1 ∨ heap.Live list := by
  rw [Live, slot?_alloc hheap]
  by_cases heq : list = (heap.alloc node).1 <;> simp [heq, Live]

variable {node} in
/-- A new list ranks above its elements, none of which it is. -/
theorem nested_alloc {elements : List Value} (hreads : node.Reads heap elements)
    (hnext : ∀ next ∈ node.successors, heap.Live next)
    (hdenotes : (heap.alloc node).2.Denotes (heap.alloc node).1 elements) :
    (heap.alloc node).2.Nested := by
  have hgrows : heap.Extends (heap.alloc node).2 := extends_alloc hheap node
  obtain ⟨rank, hrank⟩ := hheap.nested
  obtain ⟨bound, hbound⟩ := ((handles elements).map rank).toFinset.exists_nat_subset_range
  have hold : ∀ inner, heap.Live inner → inner ≠ (heap.alloc node).1 := by
    rintro inner hlive rfl
    exact not_live_alloc hheap node hlive
  refine ⟨fun list => if list = (heap.alloc node).1 then bound else rank list, ?_⟩
  intro list others hothers inner hinner
  dsimp only
  rcases (live_alloc_iff hheap node).mp hothers.live with rfl | hlive
  · obtain rfl := hdenotes.unique hothers
    have hclosed : heap.Closed heap.Live := fun list node _ => hheap.closed list node
    have hmem : rank inner ∈ ((handles elements).map rank).toFinset :=
      List.mem_toFinset.mpr (List.mem_map_of_mem (mem_handles.mpr hinner))
    rw [if_neg (hold inner (hreads.kept_of_mem hclosed hnext hinner)), if_pos rfl]
    exact Finset.mem_range.mp (hbound hmem)
  · have hbefore := hothers.of_extends hheap hgrows hlive
    have hsupports := supports_of_denotes hheap hbefore
    rw [if_neg (hold inner (hsupports inner (mem_handles.mpr hinner))), if_neg (hold list hlive)]
    exact hrank list others hbefore inner hinner

variable {node} in
theorem makes_alloc {elements : List Value} (hreads : node.Reads heap elements)
    (hnext : ∀ next ∈ node.successors, heap.Live next) :
    heap.Makes (heap.alloc node) elements := by
  have hgrows : heap.Extends (heap.alloc node).2 := extends_alloc hheap node
  have hnew : (heap.alloc node).2.node? (heap.alloc node).1 = some node := by
    rw [node?_alloc hheap, if_pos rfl]
  have hdenotes : (heap.alloc node).2.Denotes (heap.alloc node).1 elements :=
    ⟨node, hnew, hreads.extends hgrows⟩
  refine ⟨⟨?_, mem_free_alloc_iff hheap node, ?_, ?_, nested_alloc hheap hreads hnext hdenotes⟩,
    hgrows, withinEpoch_alloc hheap node, hdenotes⟩
  · rw [free_alloc]
    exact hheap.free_nodup.tail
  · intro list hlive
    rcases (live_alloc_iff hheap node).mp hlive with rfl | hold
    · exact ⟨elements, hdenotes⟩
    · obtain ⟨others, hothers⟩ := hheap.denotes list hold
      exact ⟨others, hothers.extends hgrows⟩
  · intro list other hother next hmem
    rw [node?_alloc hheap] at hother
    split at hother
    · cases hother
      exact hgrows.live (hnext next hmem)
    · exact hgrows.live (hheap.closed list other hother next hmem)

end Alloc

/-! ### The operations -/

section Operations

variable {heap : ListHeap} (hheap : heap.WellFormed) {list : Handle} {elements : List Value}
  {buffer : Array Value} {start stop length : Nat}
include hheap

theorem makes_ofList {values : List Value} (hvalues : heap.Supports values) :
    heap.Makes (heap.ofList values) values := by
  have hreads : (Node.base values.toArray values.length).Reads heap
      (window values.toArray 0 values.length) := .base (by simp)
  have hwindow : window values.toArray 0 values.length = values := by
    simpa using window_self values.toArray
  rw [hwindow] at hreads
  exact makes_alloc hheap hreads hvalues

theorem makes_empty : heap.Makes heap.empty [] :=
  makes_ofList hheap (by simp [Supports, handles])

theorem makes_cons {value : Value} (hvalue : heap.Supports [value])
    (hlist : heap.Denotes list elements) :
    heap.Makes (heap.cons value list) (value :: elements) := by
  obtain ⟨node, hnode, hreads⟩ := hlist
  refine makes_alloc hheap (.head hnode hreads) fun next hnext => ?_
  rcases List.mem_append.mp hnext with hmem | hmem
  · exact hvalue next hmem
  · rw [List.mem_singleton.mp hmem]
    exact live_of_node? hnode

theorem makes_slice {parent : Handle} (hparent : heap.node? parent = some (.base buffer length))
    (hstart : start ≤ stop) (hstop : stop ≤ buffer.size) :
    heap.Makes (heap.alloc (.slice parent start stop)) (window buffer start stop) := by
  refine makes_alloc hheap (.slice hparent hstart hstop) fun next hnext => ?_
  rw [List.mem_singleton.mp hnext]
  exact live_of_node? hparent

theorem makes_tail (hlist : heap.Denotes list elements) :
    heap.Makes (heap.tail list) elements.tail := by
  obtain ⟨node, hnode, hreads⟩ := hlist
  cases hreads with
  | @base buffer length hlength =>
    rw [← window_tail buffer (Nat.zero_le length)]
    simp only [tail, hnode]
    exact makes_slice hheap hnode (Nat.min_le_right _ _) hlength
  | @slice parent start stop length buffer hparent hstart hstop =>
    rw [← window_tail buffer hstart]
    simp only [tail, hnode]
    exact makes_slice hheap hparent (Nat.min_le_right _ _) hstop
  | head hrest hreads =>
    simp only [tail, hnode]
    exact ⟨hheap, .refl heap, .refl heap, _, hrest, hreads⟩

theorem makes_flatten (hlist : heap.Denotes list elements) :
    heap.Makes (heap.flatten list) elements := by
  unfold flatten
  split
  · exact ⟨hheap, .refl heap, .refl heap, hlist⟩
  · rw [hlist.toList_eq]
    exact makes_ofList hheap (supports_of_denotes hheap hlist)

/-! #### Appending

Growing a buffer is the one change made to a node. It is allowed where the view of the list ends at
the end of the buffer, so that the new element comes right behind the elements that the list shows.
-/

omit hheap in
theorem growable?_eq_some {lease : Lease} {base : Handle}
    (hgrowable : heap.growable? lease list = some (base, buffer, length, start, stop)) :
    heap.view? list = some (base, start, stop) ∧
      heap.slot? base = some ⟨.base buffer length, lease.epoch⟩ ∧ buffer.size = stop ∧
        lease.epoch = heap.epoch := by
  unfold growable? at hgrowable
  split at hgrowable
  · rename_i hlease
    split at hgrowable
    · rename_i hview
      split at hgrowable
      · rename_i hslot
        split at hgrowable
        · rename_i hend
          obtain ⟨rfl, rfl⟩ := hend
          cases hgrowable
          exact ⟨hview, hslot, rfl, hlease⟩
        · cases hgrowable
      · cases hgrowable
    · cases hgrowable
  · cases hgrowable

omit hheap in
theorem eq_window_of_view? {base : Handle} (hlist : heap.Denotes list elements)
    (hview : heap.view? list = some (base, start, stop))
    (hbase : heap.node? base = some (.base buffer length)) :
    elements = window buffer start stop ∧ start ≤ stop := by
  obtain ⟨node, hnode, hreads⟩ := hlist
  simp only [view?, hnode] at hview
  cases hreads with
  | base =>
    cases hview
    rw [hnode] at hbase
    cases hbase
    exact ⟨rfl, Nat.zero_le _⟩
  | slice hparent hstart =>
    cases hview
    rw [hparent] at hbase
    cases hbase
    exact ⟨rfl, hstart⟩
  | head => cases hview

section Grow

variable {base : Handle} {buffer : Array Value} {length epoch : Nat} {value : Value}
  {grown : ListHeap}
  (hbase : heap.slot? base = some ⟨.base buffer length, epoch⟩)
  (hgrown : grown = { heap with
    slots := heap.slots.setIfInBounds base.index
      (some ⟨.base (buffer.push value) length, epoch⟩) })
include hbase hgrown

omit hheap in
theorem node?_grown (list : Handle) :
    grown.node? list =
      if list = base then some (.base (buffer.push value) length) else heap.node? list := by
  have hlive : heap.Live base := by simp [Live, hbase]
  rw [node?, hgrown, slot?_replace hlive]
  split <;> rfl

omit hheap in
theorem extends_grown : heap.Extends grown := by
  intro list node hnode
  rw [node?_grown hbase hgrown]
  by_cases heq : list = base
  · subst heq
    have hold : node = .base buffer length := by
      rw [node?_eq_some_iff.mpr ⟨epoch, hbase⟩] at hnode
      exact (Option.some.inj hnode).symm
    subst hold
    refine ⟨_, if_pos rfl, ?_⟩
    rw [Array.push_eq_append]
    exact .buffer buffer #[value] length
  · exact ⟨node, by rw [if_neg heq, hnode], .refl node⟩

omit hheap in
theorem withinEpoch_grown (hepoch : epoch = heap.epoch) : heap.WithinEpoch grown := by
  refine ⟨by rw [hgrown], fun list => ?_⟩
  have hlive : heap.Live base := by simp [Live, hbase]
  rw [hgrown, slot?_replace hlive, ← hepoch]
  split
  · next heq =>
      refine .inr ⟨fun slot hslot => ?_, _, rfl⟩
      rw [heq, hbase] at hslot
      rw [← Option.some.inj hslot]
  · exact .inl rfl

omit hheap in
theorem live_grown_iff (list : Handle) : grown.Live list ↔ heap.Live list := by
  have hlive : heap.Live base := by simp [Live, hbase]
  rw [Live, hgrown, slot?_replace hlive]
  by_cases heq : list = base
  · subst heq
    simp [hlive]
  · rw [if_neg heq, Live]

theorem wellFormed_grown (hvalue : heap.Supports [value]) : grown.WellFormed := by
  have hgrows : heap.Extends grown := extends_grown hbase hgrown
  have hlive := live_grown_iff hbase hgrown
  refine ⟨?_, ?_, ?_, ?_, ?_⟩
  · rw [hgrown]
    exact hheap.free_nodup
  · intro index
    have hvacant : grown.slots[index]? = some none ↔ heap.slots[index]? = some none := by
      rw [hgrown]
      simp only [Array.getElem?_setIfInBounds]
      by_cases heq : base.index = index
      · subst heq
        have hfull : heap.slots[base.index]? ≠ some none := by
          intro hnone
          simp [slot?, hnone] at hbase
        simp [hfull]
      · simp [heq]
    rw [hvacant, ← hheap.mem_free_iff index, hgrown]
  · intro list hlist
    obtain ⟨elements, helements⟩ := hheap.denotes list ((hlive list).mp hlist)
    exact ⟨elements, helements.extends hgrows⟩
  · intro list node hnode next hnext
    rw [node?_grown hbase hgrown] at hnode
    split at hnode
    · cases hnode
      rw [Node.successors, mem_handles, Array.toList_push, List.mem_append] at hnext
      rcases hnext with hmem | hmem
      · refine hgrows.live (hheap.closed base _ (node?_eq_some_iff.mpr ⟨epoch, hbase⟩) next ?_)
        exact mem_handles.mpr hmem
      · exact hgrows.live (hvalue next (mem_handles.mpr hmem))
    · exact hgrows.live (hheap.closed list node hnode next hnext)
  · exact hheap.nested.of_denotes fun list elements hlist =>
      hlist.of_extends hheap hgrows ((hlive list).mp hlist.live)

end Grow

/-- In place or by copying, appending gives the same sequence. -/
theorem makes_append (lease : Lease) {value : Value} (hvalue : heap.Supports [value])
    (hlist : heap.Denotes list elements) :
    heap.Makes (heap.append lease list value) (elements ++ [value]) := by
  unfold append
  split
  · rename_i base buffer length start stop hgrowable
    obtain ⟨hview, hslot, rfl, hlease⟩ := growable?_eq_some hgrowable
    have hbase : heap.node? base = some (.base buffer length) :=
      node?_eq_some_iff.mpr ⟨_, hslot⟩
    obtain ⟨rfl, hstart⟩ := eq_window_of_view? hlist hview hbase
    dsimp only
    generalize hgrown : ({ heap with
      slots := heap.slots.setIfInBounds base.index
        (some ⟨.base (buffer.push value) length, lease.epoch⟩) } : ListHeap) = grown
    have hgrows : heap.Extends grown := extends_grown hslot hgrown.symm
    have hnode : grown.node? base = some (.base (buffer.push value) length) := by
      rw [node?_grown hslot hgrown.symm, if_pos rfl]
    rw [← window_push value hstart]
    have hslice := makes_slice (wellFormed_grown hheap hslot hgrown.symm hvalue) hnode
      (Nat.le_succ_of_le hstart) (by simp : buffer.size + 1 ≤ (buffer.push value).size)
    exact ⟨hslice.wellFormed, hgrows.trans hslice.grows,
      (withinEpoch_grown hslot hgrown.symm hlease).trans hslice.within, hslice.denotes⟩
  · rw [hlist.toList_eq]
    refine makes_ofList hheap fun next hnext => ?_
    rcases List.mem_append.mp (mem_handles.mp hnext) with hmem | hmem
    · exact supports_of_denotes hheap hlist next (mem_handles.mpr hmem)
    · exact hvalue next (mem_handles.mpr hmem)

end Operations

theorem extends_beginEpoch (heap : ListHeap) : heap.Extends heap.beginEpoch.2 :=
  .of_node?_eq fun _ _ hnode => hnode

theorem wellFormed_beginEpoch (hheap : heap.WellFormed) : heap.beginEpoch.2.WellFormed where
  free_nodup := hheap.free_nodup
  mem_free_iff := hheap.mem_free_iff
  denotes list hlive := by
    obtain ⟨elements, helements⟩ := hheap.denotes list hlive
    exact ⟨elements, helements.extends (extends_beginEpoch heap)⟩
  closed := hheap.closed
  nested := hheap.nested.of_denotes fun _ _ hlist =>
    hlist.of_extends hheap (extends_beginEpoch heap) hlist.live

end AbstractStateMachine.ListHeap
