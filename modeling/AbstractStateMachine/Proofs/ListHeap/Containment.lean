import AbstractStateMachine.Proofs.ListHeap.Reachability

/-!
# What values contain

A value contains the elements of its list and the operands of the comparison it stands for, and what
these contain. It is sound if all lists it contains are allocated and, unless the machine is
symbolic, it contains no symbol. Whatever extends a heap keeps its sound values sound; reclaiming
keeps those whose lists it reaches.
-/

namespace AbstractStateMachine.ListHeap

inductive Contains (heap : ListHeap) : Value → Value → Prop where
  | self (value : Value) : Contains heap value value
  | element {list : Handle} {element inner : Value} (helement : element ∈ heap.toList list)
      (hinner : Contains heap element inner) : Contains heap (.list list) inner
  | lhs {id : Nat} {op : Comparison} {lhs rhs inner : Value} (hinner : Contains heap lhs inner) :
      Contains heap (.verdict id lhs op rhs) inner
  | rhs {id : Nat} {op : Comparison} {lhs rhs inner : Value} (hinner : Contains heap rhs inner) :
      Contains heap (.verdict id lhs op rhs) inner

theorem Contains.trans {heap : ListHeap} {outer middle inner : Value}
    (h : heap.Contains outer middle) (h' : heap.Contains middle inner) :
    heap.Contains outer inner := by
  induction h with
  | self => exact h'
  | element helement _ ih => exact .element helement (ih h')
  | lhs _ ih => exact .lhs (ih h')
  | rhs _ ih => exact .rhs (ih h')

/-- What a value contains is the same in two heaps that agree on the lists it contains in one. -/
theorem Contains.transfer {heap other : ListHeap} {outer inner : Value}
    (hcontains : heap.Contains outer inner)
    (hsame : ∀ list, other.Contains outer (.list list) → heap.toList list = other.toList list) :
    other.Contains outer inner := by
  induction hcontains with
  | self => exact .self _
  | @element list element inner helement _ ih =>
    have hmem : element ∈ other.toList list := by
      rw [← hsame list (.self _)]
      exact helement
    exact .element hmem (ih fun deep hdeep => hsame deep (.element hmem hdeep))
  | lhs _ ih => exact .lhs (ih fun list hlist => hsame list (.lhs hlist))
  | rhs _ ih => exact .rhs (ih fun list hlist => hsame list (.rhs hlist))

/-- A list has to be allocated, and a symbol exists in symbolic machines only. -/
def Admits (heap : ListHeap) (symbolic : Bool) : Value → Prop
  | .list list => heap.Live list
  | .symbol _ | .verdict _ _ _ _ => symbolic = true
  | _ => True

def Sound (heap : ListHeap) (symbolic : Bool) (value : Value) : Prop :=
  ∀ inner, heap.Contains value inner → heap.Admits symbolic inner

def AllSound (heap : ListHeap) (symbolic : Bool) (values : List Value) : Prop :=
  ∀ value ∈ values, heap.Sound symbolic value

section Sound

variable {heap : ListHeap} {symbolic : Bool}

def IsScalar : Value → Prop
  | .symbol _ | .verdict _ _ _ _ | .list _ => False
  | _ => True

theorem sound_of_isScalar {value : Value} (hscalar : IsScalar value) :
    heap.Sound symbolic value := by
  rintro inner hinner
  cases hinner with
  | self => cases value <;> first | exact hscalar.elim | trivial
  | element => exact hscalar.elim
  | lhs => exact hscalar.elim
  | rhs => exact hscalar.elim

theorem sound_list_iff {list : Handle} : heap.Sound symbolic (.list list) ↔
    heap.Live list ∧ heap.AllSound symbolic (heap.toList list) := by
  constructor
  · intro h
    exact ⟨h _ (.self _), fun element helement inner hinner => h inner (.element helement hinner)⟩
  · rintro ⟨hlive, helements⟩ inner hinner
    cases hinner with
    | self => exact hlive
    | element helement hinner => exact helements _ helement inner hinner

theorem sound_symbol_iff {id : Nat} : heap.Sound symbolic (.symbol id) ↔ symbolic = true := by
  constructor
  · intro h
    exact h _ (.self _)
  · rintro hsymbolic inner ⟨⟩
    exact hsymbolic

theorem sound_verdict_iff {id : Nat} {lhs rhs : Value} {op : Comparison} :
    heap.Sound symbolic (.verdict id lhs op rhs) ↔
      symbolic = true ∧ heap.Sound symbolic lhs ∧ heap.Sound symbolic rhs := by
  constructor
  · intro h
    exact ⟨h _ (.self _), fun inner hinner => h inner (.lhs hinner),
      fun inner hinner => h inner (.rhs hinner)⟩
  · rintro ⟨hsymbolic, hlhs, hrhs⟩ inner hinner
    cases hinner with
    | self => exact hsymbolic
    | lhs hinner => exact hlhs inner hinner
    | rhs hinner => exact hrhs inner hinner

theorem Sound.live {value : Value} (h : heap.Sound symbolic value) {list : Handle}
    (hlist : heap.Contains value (.list list)) : heap.Live list :=
  h _ hlist

end Sound

section Extension

variable {heap later : ListHeap} {symbolic : Bool} (hheap : heap.WellFormed)
include hheap

theorem WellFormed.denotes_toList {list : Handle} (hlive : heap.Live list) :
    heap.Denotes list (heap.toList list) := by
  obtain ⟨elements, hdenotes⟩ := hheap.denotes list hlive
  rw [hdenotes.toList_eq]
  exact hdenotes

theorem toList_of_extends (hgrows : heap.Extends later) {list : Handle}
    (hlive : heap.Live list) : later.toList list = heap.toList list :=
  ((hheap.denotes_toList hlive).extends hgrows).toList_eq

theorem Sound.extends {value : Value} (h : heap.Sound symbolic value)
    (hgrows : heap.Extends later) : later.Sound symbolic value := by
  intro inner hinner
  have hbefore : heap.Contains value inner := hinner.transfer fun list hlist =>
    toList_of_extends hheap hgrows (h.live hlist)
  have hadmits := h inner hbefore
  cases inner with
  | list list => exact hgrows.live hadmits
  | _ => exact hadmits

end Extension

section Reclaiming

variable {heap later : ListHeap} {symbolic : Bool} {roots : List Value}

/-- A list that is an operand of a condition within a root is also reached from the roots. -/
def OperandsReached (heap : ListHeap) (roots : List Value) : Prop :=
  ∀ root ∈ roots, ∀ id lhs op rhs, heap.Contains root (.verdict id lhs op rhs) →
    ∀ list, .list list = lhs ∨ .list list = rhs → heap.Reaches roots list

theorem reaches_of_contains (hheap : heap.WellFormed) (hroots : heap.AllSound symbolic roots)
    (hoperands : heap.OperandsReached roots) {root : Value} (hroot : root ∈ roots)
    {list : Handle} (hlist : heap.Contains root (.list list)) : heap.Reaches roots list := by
  -- The walk from the root is at `outer`; if that is a list, it is reached.
  have hwalk : ∀ outer inner, heap.Contains outer inner → heap.Contains root outer →
      (∀ list, .list list = outer → heap.Reaches roots list) →
      ∀ list, .list list = inner → heap.Reaches roots list := by
    intro outer inner hinner
    induction hinner with
    | self => exact fun _ houter => houter
    | @element parent element inner helement _ ih =>
      intro hparent hreached
      refine ih (hparent.trans (.element helement (.self _))) ?_
      rintro child rfl
      have hlive : heap.Live parent := (hroots root hroot).live hparent
      obtain ⟨node, hnode, hreads⟩ := hheap.denotes_toList hlive
      have hclosed := closed_reaches heap roots
      exact hreads.kept_of_mem hclosed (hclosed parent node (hreached parent rfl) hnode) helement
    | lhs _ ih =>
      intro hverdict _
      refine ih (hverdict.trans (.lhs (.self _))) fun child hchild => ?_
      exact hoperands root hroot _ _ _ _ hverdict child (Or.inl hchild)
    | rhs _ ih =>
      intro hverdict _
      refine ih (hverdict.trans (.rhs (.self _))) fun child hchild => ?_
      exact hoperands root hroot _ _ _ _ hverdict child (Or.inr hchild)
  refine hwalk root _ hlist (.self _) ?_ list rfl
  rintro child rfl
  exact .root (mem_handles.mpr hroot)

/-- A later heap has exactly the lists that the roots reach, unchanged. -/
structure Retains (heap : ListHeap) (roots : List Value) (later : ListHeap) : Prop where
  live_iff : ∀ list, later.Live list ↔ heap.Reaches roots list ∧ heap.Live list
  toList_eq : ∀ list, later.Live list → later.toList list = heap.toList list

theorem retains_reclaim (hheap : heap.WellFormed) (roots : List Value) :
    heap.Retains roots (heap.reclaim roots).beginEpoch.2 where
  live_iff list := live_reclaim_iff
  toList_eq list hlive := by
    have hreclaim : (heap.reclaim roots).WellFormed := wellFormed_reclaim hheap roots
    have hkept : (heap.reclaim roots).Live list := hlive
    obtain ⟨hreached, hbefore⟩ := live_reclaim_iff.mp hkept
    rw [toList_of_extends hreclaim (extends_beginEpoch _) hkept]
    exact ((hheap.denotes_toList hbefore).reclaim hreached).toList_eq

theorem Retains.allSound (h : heap.Retains roots later) (hheap : heap.WellFormed)
    (hroots : heap.AllSound symbolic roots) (hoperands : heap.OperandsReached roots) :
    later.AllSound symbolic roots := by
  intro root hroot inner hinner
  have hkept : ∀ list, heap.Contains root (.list list) → later.Live list := fun list hlist =>
    (h.live_iff list).mpr ⟨reaches_of_contains hheap hroots hoperands hroot hlist,
      (hroots root hroot).live hlist⟩
  have hbefore : heap.Contains root inner :=
    hinner.transfer fun list hlist => h.toList_eq list (hkept list hlist)
  have hadmits := hroots root hroot inner hbefore
  cases inner with
  | list list => exact hkept list hbefore
  | _ => exact hadmits

theorem Retains.operandsReached (h : heap.Retains roots later)
    (hlive : ∀ root ∈ roots, ∀ list, later.Contains root (.list list) → later.Live list) :
    heap.OperandsReached roots := by
  intro root hroot id lhs op rhs hverdict list hlist
  have hcontains : heap.Contains root (.list list) := by
    refine hverdict.trans ?_
    rcases hlist with rfl | rfl
    · exact .lhs (.self _)
    · exact .rhs (.self _)
  have hlater : later.Contains root (.list list) := hcontains.transfer fun inner hinner =>
    (h.toList_eq inner (hlive root hroot inner hinner)).symm
  exact ((h.live_iff list).mp (hlive root hroot list hlater)).1

end Reclaiming

end AbstractStateMachine.ListHeap
