import AbstractStateMachine.ListHeap.Reclaim
import Mathlib.Data.List.Nodup
import Mathlib.Order.Nat

/-!
# The sequence a handle denotes

`Denotes heap list xs` says that a walk through the nodes of `list` ends and yields `xs`, with every
view inside its buffer. It is a relation and not a function, so it needs no bound on the walk; the
bounded observers `toList`, `length`, `peek` and `nth` are shown to agree with it.

A node reads the same in every heap that keeps the nodes it depends on, where a buffer may have
grown at its end.
-/

namespace AbstractStateMachine.ListHeap

variable {heap later : ListHeap} {list : Handle} {node : Node} {elements : List Value}
  {buffer : Array Value} {stop start : Nat} {spine : List Handle}

def Live (heap : ListHeap) (list : Handle) : Prop := (heap.slot? list).isSome

theorem live_iff_exists_node : heap.Live list ↔ ∃ node, heap.node? list = some node := by
  unfold Live node?
  cases heap.slot? list <;> simp

theorem live_of_node? (hnode : heap.node? list = some node) : heap.Live list :=
  live_iff_exists_node.mpr ⟨node, hnode⟩

inductive Node.Reads (heap : ListHeap) : Node → List Value → Prop where
  | base {buffer : Array Value} {length : Nat} (hlength : length ≤ buffer.size) :
      Node.Reads heap (.base buffer length) (window buffer 0 length)
  | slice {parent : Handle} {start stop length : Nat} {buffer : Array Value}
      (hparent : heap.node? parent = some (.base buffer length))
      (hstart : start ≤ stop) (hstop : stop ≤ buffer.size) :
      Node.Reads heap (.slice parent start stop) (window buffer start stop)
  | head {value : Value} {rest : Handle} {node : Node} {elements : List Value}
      (hrest : heap.node? rest = some node) (hreads : Node.Reads heap node elements) :
      Node.Reads heap (.head value rest) (value :: elements)

def Denotes (heap : ListHeap) (list : Handle) (elements : List Value) : Prop :=
  ∃ node, heap.node? list = some node ∧ node.Reads heap elements

theorem Denotes.live (hlist : heap.Denotes list elements) : heap.Live list := by
  obtain ⟨node, hnode, -⟩ := hlist
  exact live_of_node? hnode

/-! ### Windows -/

@[simp]
theorem window_self (buffer : Array Value) : window buffer 0 buffer.size = buffer.toList := by
  simp [window]

theorem window_eq_drop_take (buffer : Array Value) (start stop : Nat) :
    window buffer start stop = (buffer.toList.take stop).drop start := by
  simp [window, Array.toList_extract, List.extract_eq_take_drop, List.drop_take]

theorem length_window (start : Nat) (hstop : stop ≤ buffer.size) :
    (window buffer start stop).length = stop - start := by
  simp [window_eq_drop_take, Nat.min_eq_left hstop]

theorem window_getElem? (start stop position : Nat) :
    (window buffer start stop)[position]? =
      if start + position < stop then buffer[start + position]? else none := by
  rw [window_eq_drop_take, List.getElem?_drop, List.getElem?_take, Array.getElem?_toList]

theorem window_append (more : Array Value) (start : Nat) (hstop : stop ≤ buffer.size) :
    window (buffer ++ more) start stop = window buffer start stop := by
  have htake : (buffer.toList ++ more.toList).take stop = buffer.toList.take stop :=
    List.take_append_of_le_length (by simpa using hstop)
  rw [window_eq_drop_take, window_eq_drop_take, Array.toList_append, htake]

theorem window_push (value : Value) (hstart : start ≤ buffer.size) :
    window (buffer.push value) start (buffer.size + 1) =
      window buffer start buffer.size ++ [value] := by
  have hlength : buffer.toList.length + 1 = (buffer.toList ++ [value]).length := by simp
  rw [window_eq_drop_take, window_eq_drop_take, Array.toList_push]
  rw [← Array.length_toList, hlength, List.take_length, List.take_length]
  exact List.drop_append_of_le_length (by simpa using hstart)

theorem window_tail (buffer : Array Value) (hstart : start ≤ stop) :
    window buffer (min (start + 1) stop) stop = (window buffer start stop).tail := by
  rw [window_eq_drop_take, window_eq_drop_take, List.tail_drop]
  by_cases hlt : start + 1 ≤ stop
  · rw [Nat.min_eq_left hlt]
  · have hfull : (buffer.toList.take stop).length ≤ stop := List.length_take_le _ _
    rw [Nat.min_eq_right (by omega), List.drop_eq_nil_of_le hfull,
      List.drop_eq_nil_of_le (by omega)]

/-! ### Nodes that grow -/

/-- The changes a node may undergo while it is allocated. -/
inductive Node.Grows : Node → Node → Prop where
  | refl (node : Node) : Node.Grows node node
  | buffer (buffer more : Array Value) (length : Nat) :
      Node.Grows (.base buffer length) (.base (buffer ++ more) length)

theorem Node.Grows.base_iff {length : Nat} :
    Node.Grows (.base buffer length) node ↔ ∃ more, node = .base (buffer ++ more) length := by
  constructor
  · intro hgrows
    cases hgrows with
    | refl => exact ⟨#[], by simp⟩
    | buffer _ more _ => exact ⟨more, rfl⟩
  · rintro ⟨more, rfl⟩
    exact .buffer buffer more length

theorem Node.Grows.trans {first second third : Node} (h : Node.Grows first second)
    (h' : Node.Grows second third) : Node.Grows first third := by
  cases h with
  | refl => exact h'
  | buffer buffer more length =>
    obtain ⟨further, rfl⟩ := Node.Grows.base_iff.mp h'
    rw [Array.append_assoc]
    exact .buffer buffer (more ++ further) length

/-- A later heap in which no node of the earlier one was freed. -/
def Extends (heap later : ListHeap) : Prop :=
  ∀ list node, heap.node? list = some node →
    ∃ grown, later.node? list = some grown ∧ node.Grows grown

theorem Extends.refl (heap : ListHeap) : heap.Extends heap :=
  fun _ node hnode => ⟨node, hnode, .refl node⟩

theorem Extends.of_node?_eq
    (h : ∀ list node, heap.node? list = some node → later.node? list = some node) :
    heap.Extends later :=
  fun list node hnode => ⟨node, h list node hnode, .refl node⟩

theorem Extends.trans {latest : ListHeap} (h : heap.Extends later) (h' : later.Extends latest) :
    heap.Extends latest := by
  intro list node hnode
  obtain ⟨grown, hgrown, hgrows⟩ := h list node hnode
  obtain ⟨full, hfull, hgrows'⟩ := h' list grown hgrown
  exact ⟨full, hfull, hgrows.trans hgrows'⟩

theorem Extends.live (h : heap.Extends later) (hlive : heap.Live list) : later.Live list := by
  obtain ⟨node, hnode⟩ := live_iff_exists_node.mp hlive
  obtain ⟨grown, hgrown, -⟩ := h list node hnode
  exact live_of_node? hgrown

def Closed (heap : ListHeap) (kept : Handle → Prop) : Prop :=
  ∀ list node, kept list → heap.node? list = some node → ∀ next ∈ node.successors, kept next

theorem mem_handles {values : List Value} : list ∈ handles values ↔ .list list ∈ values := by
  unfold handles
  rw [List.mem_filterMap]
  constructor
  · rintro ⟨value, hvalue, hlist⟩
    cases value <;> simp_all [Value.list?]
  · intro hmem
    exact ⟨.list list, hmem, rfl⟩

theorem mem_successors_base {length : Nat} {inner : Handle}
    (hinner : .list inner ∈ window buffer start stop) :
    inner ∈ (Node.base buffer length).successors := by
  rw [window_eq_drop_take] at hinner
  exact mem_handles.mpr (List.mem_of_mem_take (List.mem_of_mem_drop hinner))

section Kept

variable {heap later : ListHeap} {kept : Handle → Prop} (hclosed : heap.Closed kept)
  {elements : List Value}
include hclosed

theorem Node.Reads.kept_of_mem {node : Node} {inner : Handle} (hreads : node.Reads heap elements)
    (hnode : ∀ next ∈ node.successors, kept next) (hinner : .list inner ∈ elements) :
    kept inner := by
  induction hreads with
  | base => exact hnode inner (mem_successors_base hinner)
  | @slice parent _ _ _ _ hparent =>
    have hkept : kept parent := hnode parent (by simp [Node.successors])
    exact hclosed parent _ hkept hparent inner (mem_successors_base hinner)
  | @head value rest _ _ hrest _ ih =>
    rcases List.mem_cons.mp hinner with rfl | hmem
    · exact hnode inner (by simp [Node.successors, mem_handles])
    · have hkept : kept rest := hnode rest (by simp [Node.successors])
      exact ih (hclosed rest _ hkept hrest) hmem

/-- A sequence survives in every heap that keeps the nodes of a closed set. -/
theorem Node.Reads.mono (hkept : ∀ list node, kept list → heap.node? list = some node →
      ∃ grown, later.node? list = some grown ∧ node.Grows grown) {node grown : Node}
    (hreads : node.Reads heap elements) (hnode : ∀ next ∈ node.successors, kept next)
    (hgrows : node.Grows grown) : grown.Reads later elements := by
  induction hreads generalizing grown with
  | base hlength =>
    obtain ⟨more, rfl⟩ := Node.Grows.base_iff.mp hgrows
    rw [← window_append more 0 hlength]
    exact .base (by simp only [Array.size_append]; omega)
  | @slice parent start stop length buffer hparent hstart hstop =>
    have hparentKept : kept parent := hnode parent (by simp [Node.successors])
    obtain ⟨base, hbase, hbaseGrows⟩ := hkept parent _ hparentKept hparent
    obtain ⟨more, rfl⟩ := Node.Grows.base_iff.mp hbaseGrows
    cases hgrows
    rw [← window_append more start hstop]
    exact .slice hbase hstart (by simp only [Array.size_append]; omega)
  | @head value rest node elements hrest _ ih =>
    have hrestKept : kept rest := hnode rest (by simp [Node.successors])
    obtain ⟨next, hnext, hnextGrows⟩ := hkept rest node hrestKept hrest
    cases hgrows
    exact .head hnext (ih (hclosed rest node hrestKept hrest) hnextGrows)

theorem Denotes.of_kept (hkept : ∀ list node, kept list → heap.node? list = some node →
      ∃ grown, later.node? list = some grown ∧ node.Grows grown) {list : Handle} (hlist : kept list)
    (hdenotes : heap.Denotes list elements) : later.Denotes list elements := by
  obtain ⟨node, hnode, hreads⟩ := hdenotes
  obtain ⟨grown, hgrown, hgrows⟩ := hkept list node hlist hnode
  exact ⟨grown, hgrown, hreads.mono hclosed hkept (hclosed list node hlist hnode) hgrows⟩

end Kept

theorem closed_true (heap : ListHeap) : heap.Closed fun _ => True :=
  fun _ _ _ _ _ _ => trivial

theorem Node.Reads.extends (h : heap.Extends later) (hreads : node.Reads heap elements) :
    node.Reads later elements :=
  hreads.mono (closed_true heap) (fun list node _ => h list node) (fun _ _ => trivial) (.refl node)

theorem Denotes.extends (h : heap.Extends later) (hlist : heap.Denotes list elements) :
    later.Denotes list elements :=
  hlist.of_kept (closed_true heap) (fun list node _ => h list node) trivial

/-! ### The observers

A walk follows the rests of heads until it meets a base or a slice. It never meets a node twice, as
from there on it would have to go on as it did before, so it is no longer than the heap is large.
-/

inductive Spine (heap : ListHeap) : Handle → List Handle → Prop where
  | base {list : Handle} {buffer : Array Value} {length : Nat}
      (hnode : heap.node? list = some (.base buffer length)) : Spine heap list [list]
  | slice {list parent : Handle} {start stop : Nat}
      (hnode : heap.node? list = some (.slice parent start stop)) : Spine heap list [list]
  | head {list rest : Handle} {value : Value} {spine : List Handle}
      (hnode : heap.node? list = some (.head value rest)) (hrest : Spine heap rest spine) :
      Spine heap list (list :: spine)

theorem Spine.unique {other : List Handle} (h : Spine heap list spine)
    (h' : Spine heap list other) : spine = other := by
  induction h generalizing other with
  | base hnode => cases h' <;> simp_all
  | slice hnode => cases h' <;> simp_all
  | head hnode _ ih =>
    cases h' with
    | base hnode' => simp [hnode] at hnode'
    | slice hnode' => simp [hnode] at hnode'
    | head hnode' hrest' =>
      rw [hnode] at hnode'
      cases hnode'
      rw [ih hrest']

theorem Spine.exists_of_mem {met : Handle} (h : Spine heap list spine) (hmet : met ∈ spine) :
    ∃ later, Spine heap met later ∧ later.length ≤ spine.length := by
  induction h with
  | base hnode =>
    cases List.mem_singleton.mp hmet
    exact ⟨_, .base hnode, le_rfl⟩
  | slice hnode =>
    cases List.mem_singleton.mp hmet
    exact ⟨_, .slice hnode, le_rfl⟩
  | head hnode hrest ih =>
    rcases List.mem_cons.mp hmet with rfl | hmem
    · exact ⟨_, .head hnode hrest, le_rfl⟩
    · obtain ⟨later, hlater, hle⟩ := ih hmem
      exact ⟨later, hlater, hle.trans (Nat.le_succ _)⟩

theorem Spine.nodup (h : Spine heap list spine) : spine.Nodup := by
  induction h with
  | base => exact List.nodup_singleton _
  | slice => exact List.nodup_singleton _
  | @head list rest value spine hnode hrest ih =>
    refine List.nodup_cons.mpr ⟨fun hmem => ?_, ih⟩
    obtain ⟨later, hlater, hle⟩ := hrest.exists_of_mem hmem
    rw [hlater.unique (.head hnode hrest)] at hle
    exact Nat.not_succ_le_self _ hle

theorem index_lt_of_node? (hnode : heap.node? list = some node) : list.index < heap.slots.size := by
  by_contra hge
  have hnone : heap.slots[list.index]? = none := Array.getElem?_eq_none (by omega)
  simp [node?, slot?, hnone] at hnode

theorem Spine.index_lt {met : Handle} (h : Spine heap list spine) (hmet : met ∈ spine) :
    met.index < heap.slots.size := by
  obtain ⟨later, hlater, -⟩ := h.exists_of_mem hmet
  cases hlater with
  | base hnode => exact index_lt_of_node? hnode
  | slice hnode => exact index_lt_of_node? hnode
  | head hnode _ => exact index_lt_of_node? hnode

theorem Spine.length_le (h : Spine heap list spine) : spine.length ≤ heap.slots.size := by
  have hindices : (spine.map Handle.index).Nodup := by
    refine h.nodup.map ?_
    rintro ⟨first⟩ ⟨second⟩ heq
    exact congrArg Handle.mk heq
  have hsubset : spine.map Handle.index ⊆ List.range heap.slots.size := by
    intro index hindex
    obtain ⟨met, hmet, rfl⟩ := List.mem_map.mp hindex
    exact List.mem_range.mpr (h.index_lt hmet)
  simpa using hindices.length_le_of_subset hsubset

theorem Node.Reads.exists_spine (hreads : node.Reads heap elements)
    (hnode : heap.node? list = some node) : ∃ spine, Spine heap list spine := by
  induction hreads generalizing list with
  | base => exact ⟨_, .base hnode⟩
  | slice => exact ⟨_, .slice hnode⟩
  | head hrest _ ih =>
    obtain ⟨spine, hspine⟩ := ih hrest
    exact ⟨_, .head hnode hspine⟩

/-- A walk of bounded length that reads a list to its end. -/
inductive Walks (heap : ListHeap) : Nat → Handle → List Value → Prop where
  | base {depth length : Nat} {list : Handle} {buffer : Array Value}
      (hnode : heap.node? list = some (.base buffer length)) (hlength : length ≤ buffer.size) :
      Walks heap (depth + 1) list (window buffer 0 length)
  | slice {depth length start stop : Nat} {list parent : Handle} {buffer : Array Value}
      (hnode : heap.node? list = some (.slice parent start stop))
      (hparent : heap.node? parent = some (.base buffer length)) (hstop : stop ≤ buffer.size) :
      Walks heap (depth + 1) list (window buffer start stop)
  | head {depth : Nat} {list rest : Handle} {value : Value} {elements : List Value}
      (hnode : heap.node? list = some (.head value rest)) (hrest : Walks heap depth rest elements) :
      Walks heap (depth + 1) list (value :: elements)

section Walk

variable {heap : ListHeap} {elements : List Value} {list : Handle} {depth : Nat}

theorem Node.Reads.walks {node : Node} {spine : List Handle} (hreads : node.Reads heap elements)
    (hnode : heap.node? list = some node) (hspine : Spine heap list spine)
    (hdepth : spine.length ≤ depth) : Walks heap depth list elements := by
  induction hreads generalizing list spine depth with
  | base hlength =>
    obtain _ | depth := depth
    · cases hspine <;> simp at hdepth
    · exact .base hnode hlength
  | slice hparent _ hstop =>
    obtain _ | depth := depth
    · cases hspine <;> simp at hdepth
    · exact .slice hnode hparent hstop
  | head hrest _ ih =>
    cases hspine with
    | base hother => simp [hnode] at hother
    | slice hother => simp [hnode] at hother
    | head hother hrestSpine =>
      rw [hnode] at hother
      cases hother
      obtain _ | depth := depth
      · simp at hdepth
      · exact .head hnode (ih hrest hrestSpine (Nat.le_of_succ_le_succ hdepth))

/-- The observers are given one step more than there are slots. -/
theorem Denotes.walks (hlist : heap.Denotes list elements) :
    Walks heap (heap.slots.size + 1) list elements := by
  obtain ⟨node, hnode, hreads⟩ := hlist
  obtain ⟨spine, hspine⟩ := hreads.exists_spine hnode
  exact hreads.walks hnode hspine (hspine.length_le.trans (Nat.le_succ _))

theorem buffer_of_node? {base : Handle} {values : Array Value} {length : Nat}
    (hbase : heap.node? base = some (.base values length)) : heap.buffer base = values := by
  simp [buffer, hbase]

theorem Walks.elements_eq (h : Walks heap depth list elements) :
    heap.elements depth list = elements := by
  induction h with
  | base hnode => simp [ListHeap.elements, hnode]
  | slice hnode hparent => simp [ListHeap.elements, hnode, buffer_of_node? hparent]
  | head hnode _ ih => simp [ListHeap.elements, hnode, ih]

theorem Walks.lengthWithin_eq (h : Walks heap depth list elements) :
    heap.lengthWithin depth list = elements.length := by
  induction h with
  | base hnode hlength => simp [lengthWithin, hnode, length_window 0 hlength]
  | slice hnode _ hstop => simp [lengthWithin, hnode, length_window _ hstop]
  | head hnode _ ih => simp [lengthWithin, hnode, ih]

theorem Walks.at?_eq (h : Walks heap depth list elements) (position : Nat) :
    heap.at? depth list position = elements[position]? := by
  induction h generalizing position with
  | base hnode =>
    rw [at?, hnode, window_getElem?]
    simp only [Nat.zero_add]
  | slice hnode hparent =>
    rw [at?, hnode, window_getElem?]
    simp only [buffer_of_node? hparent]
  | head hnode _ ih =>
    rw [at?, hnode]
    cases position with
    | zero => simp
    | succ position => simp only [ih, List.getElem?_cons_succ]

end Walk

theorem Denotes.toList_eq (hlist : heap.Denotes list elements) : heap.toList list = elements :=
  hlist.walks.elements_eq

theorem Denotes.unique {others : List Value} (hlist : heap.Denotes list elements)
    (hother : heap.Denotes list others) : elements = others :=
  hlist.toList_eq.symm.trans hother.toList_eq

theorem Denotes.length_eq (hlist : heap.Denotes list elements) :
    heap.length list = elements.length :=
  hlist.walks.lengthWithin_eq

theorem Denotes.at?_eq (hlist : heap.Denotes list elements) (position : Nat) :
    heap.at? (heap.slots.size + 1) list position = elements[position]? :=
  hlist.walks.at?_eq position

theorem Denotes.isEmpty_eq (hlist : heap.Denotes list elements) :
    heap.isEmpty list = elements.isEmpty := by
  rw [isEmpty, hlist.length_eq]
  cases elements <;> simp

theorem Denotes.peek_eq (hlist : heap.Denotes list elements) :
    heap.peek list = elements.headD .undefined := by
  rw [peek, hlist.at?_eq]
  cases elements <;> simp

theorem Denotes.nth_eq (hlist : heap.Denotes list elements) (position : Int64) :
    heap.nth list position =
      if 1 ≤ position.toInt ∧ position.toInt ≤ elements.length then
        elements.getD (position.toInt.toNat - 1) .undefined
      else .undefined := by
  have hlt : position < 1 ↔ position.toInt < 1 := by
    rw [Int64.lt_iff_toInt_lt]
    rfl
  rw [nth, hlist.at?_eq, ← List.getD_eq_getElem?_getD]
  by_cases hone : position < 1
  · rw [if_pos hone, if_neg (by rw [hlt] at hone; omega)]
  · rw [if_neg hone]
    rw [hlt] at hone
    split
    · rfl
    · rw [List.getD_eq_getElem?_getD, List.getElem?_eq_none (by omega), Option.getD_none]

end AbstractStateMachine.ListHeap
