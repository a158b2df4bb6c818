import AbstractStateMachine.Location.Key
import AbstractStateMachine.Proofs.ListHeap.Containment
import AbstractStateMachine.Proofs.Value.Equality
import Mathlib.Data.Finset.Card

/-!
# Equality and keys do not depend on the heap

Equality of values and their keys look into nested lists as deep as the heap has slots. That is deep
enough, as lists are not nested in themselves. So two heaps agree on the values whose lists both of
them have, if these lists have the same elements in both: it does not matter what else there is.
-/

namespace AbstractStateMachine.ListHeap

/-- A rank of lists in a finite set can be replaced by the number of lists of lower rank. -/
theorem exists_depth_lt {size : Nat} {kept : Handle → Prop}
    (hindex : ∀ list, kept list → list.index < size) (rank : Handle → Nat) :
    ∃ depth : Handle → Nat, ∀ list, kept list → depth list < size ∧
      ∀ inner, kept inner → rank inner < rank list → depth inner < depth list := by
  classical
  refine ⟨fun list => ((Finset.range size).filter fun index =>
    kept ⟨index⟩ ∧ rank ⟨index⟩ < rank list).card, fun list hlist => ⟨?_, ?_⟩⟩
  · have hself : ∃ index ∈ Finset.range size, ¬ (kept ⟨index⟩ ∧ rank ⟨index⟩ < rank list) :=
      ⟨list.index, Finset.mem_range.mpr (hindex list hlist), fun h => lt_irrefl _ h.2⟩
    calc _ < (Finset.range size).card := Finset.card_lt_card (Finset.filter_ssubset.mpr hself)
      _ = size := Finset.card_range size
  · intro inner hinner hlt
    refine Finset.card_lt_card (Finset.ssubset_iff_subset_ne.mpr ⟨?_, fun heq => ?_⟩)
    · exact Finset.monotone_filter_right _ fun index _ h => ⟨h.1, h.2.trans hlt⟩
    · have hmem : inner.index ∈ (Finset.range size).filter fun index =>
          kept ⟨index⟩ ∧ rank ⟨index⟩ < rank list :=
        Finset.mem_filter.mpr ⟨Finset.mem_range.mpr (hindex inner hinner), hinner, hlt⟩
      rw [← heq] at hmem
      exact lt_irrefl _ (Finset.mem_filter.mp hmem).2.2

/-- Well-formed heaps in which the lists that are allocated in both have the same elements. -/
structure Agrees (heap later : ListHeap) : Prop where
  before : heap.WellFormed
  after : later.WellFormed
  toList_eq : ∀ list, heap.Live list → later.Live list → later.toList list = heap.toList list

theorem agrees_of_extends {heap later : ListHeap} (hheap : heap.WellFormed)
    (hlater : later.WellFormed) (hgrows : heap.Extends later) : heap.Agrees later :=
  ⟨hheap, hlater, fun _ hlive _ => toList_of_extends hheap hgrows hlive⟩

/-- Two heaps show the same in a set of lists, and `depth` goes down from each to those within. -/
structure Matches (heap later : ListHeap) (kept : Handle → Prop) (depth : Handle → Nat) :
    Prop where
  toList_eq : ∀ list, kept list → later.toList list = heap.toList list
  inner : ∀ list, kept list → ∀ inner, .list inner ∈ heap.toList list →
    kept inner ∧ depth inner < depth list

/-- If the value is a list, it is in the set and not deeper than the bound. -/
def KeptWithin (kept : Handle → Prop) (depth : Handle → Nat) (bound : Nat) (value : Value) : Prop :=
  ∀ list, value = .list list → kept list ∧ depth list < bound

section Matches

variable {heap later : ListHeap} {kept : Handle → Prop} {depth : Handle → Nat}
  (hmatch : heap.Matches later kept depth) {bound bound' : Nat}
include hmatch

theorem Matches.keptWithin_of_mem {list : Handle}
    (hlist : KeptWithin kept depth (bound + 1) (.list list)) {element : Value}
    (helement : element ∈ heap.toList list) : KeptWithin kept depth bound element := by
  rintro inner rfl
  obtain ⟨hkept, hdepth⟩ := hlist list rfl
  obtain ⟨hinner, hlt⟩ := hmatch.inner list hkept inner helement
  exact ⟨hinner, by omega⟩

omit hmatch in
theorem equalWithin_eq_of_not_list {x y : Value} (hx : ∀ list, x ≠ .list list) :
    later.equalWithin bound' x y = heap.equalWithin bound x y := by
  cases x with
  | list list => exact absurd rfl (hx list)
  | float x => rw [Bool.eq_iff_iff, equalWithin_float_iff, equalWithin_float_iff]
  | symbol id =>
    rw [Bool.eq_iff_iff, equalWithin_iff_of_symbolId? rfl, equalWithin_iff_of_symbolId? rfl]
  | verdict id =>
    rw [Bool.eq_iff_iff, equalWithin_iff_of_symbolId? rfl, equalWithin_iff_of_symbolId? rfl]
  | _ => rw [Bool.eq_iff_iff, equalWithin_iff_eq (by trivial), equalWithin_iff_eq (by trivial)]

theorem Matches.equalWithin_eq {x y : Value} (hx : KeptWithin kept depth bound x)
    (hx' : KeptWithin kept depth bound' x) (hy : KeptWithin kept depth bound y)
    (hy' : KeptWithin kept depth bound' y) :
    later.equalWithin bound' x y = heap.equalWithin bound x y := by
  induction bound generalizing bound' x y with
  | zero =>
    refine equalWithin_eq_of_not_list ?_
    rintro list rfl
    exact absurd (hx list rfl).2 (Nat.not_lt_zero _)
  | succ bound ih =>
    cases x with
    | list x =>
      rw [Bool.eq_iff_iff, equalWithin_list_iff, equalWithin_list_iff]
      refine exists_congr fun z => and_congr_right ?_
      rintro rfl
      obtain _ | bound' := bound'
      · exact absurd (hx' x rfl).2 (Nat.not_lt_zero _)
      rw [sameList_succ_iff, sameList_succ_iff, hmatch.toList_eq x (hx x rfl).1,
        hmatch.toList_eq z (hy z rfl).1]
      rw [allPairs_congr _ _ fun a ha b hb => ?_]
      exact ih (hmatch.keptWithin_of_mem hx ha) (hmatch.keptWithin_of_mem hx' ha)
        (hmatch.keptWithin_of_mem hy hb) (hmatch.keptWithin_of_mem hy' hb)
    | _ => exact equalWithin_eq_of_not_list (by rintro _ ⟨⟩)

theorem Matches.tokensWithin_eq {value : Value} (hvalue : KeptWithin kept depth bound value)
    (hvalue' : KeptWithin kept depth bound' value) :
    later.tokensWithin bound' value = heap.tokensWithin bound value := by
  induction bound generalizing bound' value with
  | zero =>
    cases value with
    | list list => exact absurd (hvalue list rfl).2 (Nat.not_lt_zero _)
    | _ => cases bound' <;> rfl
  | succ bound ih =>
    cases value with
    | list list =>
      obtain _ | bound' := bound'
      · exact absurd (hvalue' list rfl).2 (Nat.not_lt_zero _)
      rw [tokensWithin, tokensWithin, hmatch.toList_eq list (hvalue list rfl).1]
      refine congrArg _ (List.flatMap_congr fun element helement => ?_)
      exact ih (hmatch.keptWithin_of_mem hvalue helement)
        (hmatch.keptWithin_of_mem hvalue' helement)
    | _ => cases bound' <;> rfl

end Matches

namespace Agrees

variable {heap later : ListHeap} (h : heap.Agrees later)
include h

theorem exists_matches : ∃ depth,
    heap.Matches later (fun list => heap.Live list ∧ later.Live list) depth ∧
      ∀ list, heap.Live list → later.Live list →
        depth list < heap.slots.size ∧ depth list < later.slots.size := by
  obtain ⟨rank, hrank⟩ := h.before.nested
  have hindex : ∀ list, heap.Live list ∧ later.Live list →
      list.index < min heap.slots.size later.slots.size := by
    rintro list ⟨hlive, hlive'⟩
    obtain ⟨node, hnode⟩ := live_iff_exists_node.mp hlive
    obtain ⟨node', hnode'⟩ := live_iff_exists_node.mp hlive'
    exact lt_min (index_lt_of_node? hnode) (index_lt_of_node? hnode')
  obtain ⟨depth, hdepth⟩ := exists_depth_lt hindex rank
  refine ⟨depth, ⟨fun list hlist => h.toList_eq list hlist.1 hlist.2, ?_⟩, ?_⟩
  · rintro list ⟨hlive, hlive'⟩ inner hinner
    have hdenotes := h.before.denotes_toList hlive
    have hdenotes' := h.after.denotes_toList hlive'
    rw [h.toList_eq list hlive hlive'] at hdenotes'
    have hkept : heap.Live inner ∧ later.Live inner :=
      ⟨supports_of_denotes h.before hdenotes inner (mem_handles.mpr hinner),
        supports_of_denotes h.after hdenotes' inner (mem_handles.mpr hinner)⟩
    exact ⟨hkept, (hdepth list ⟨hlive, hlive'⟩).2 inner hkept
      (hrank list _ hdenotes inner hinner)⟩
  · intro list hlive hlive'
    exact lt_min_iff.mp (hdepth list ⟨hlive, hlive'⟩).1

/-- Values whose lists both heaps have: the walk through them ends before either bound. -/
theorem exists_keptWithin : ∃ kept depth, heap.Matches later kept depth ∧
    ∀ value, heap.Supports [value] → later.Supports [value] →
      KeptWithin kept depth (heap.slots.size + 1) value ∧
      KeptWithin kept depth (later.slots.size + 1) value := by
  obtain ⟨depth, hmatch, hdepth⟩ := h.exists_matches
  refine ⟨_, depth, hmatch, fun value hvalue hvalue' => ?_⟩
  have hlive : ∀ list, value = .list list → heap.Live list ∧ later.Live list := by
    rintro list rfl
    exact ⟨supports_iff.mp hvalue list List.mem_cons_self,
      supports_iff.mp hvalue' list List.mem_cons_self⟩
  refine ⟨fun list hlist => ⟨hlive list hlist, ?_⟩, fun list hlist => ⟨hlive list hlist, ?_⟩⟩
  · exact Nat.lt_succ_of_lt (hdepth list (hlive list hlist).1 (hlive list hlist).2).1
  · exact Nat.lt_succ_of_lt (hdepth list (hlive list hlist).1 (hlive list hlist).2).2

theorem equal_eq {x y : Value} (hx : heap.Supports [x]) (hx' : later.Supports [x])
    (hy : heap.Supports [y]) (hy' : later.Supports [y]) : later.equal x y = heap.equal x y := by
  obtain ⟨kept, depth, hmatch, hkept⟩ := h.exists_keptWithin
  exact hmatch.equalWithin_eq (hkept x hx hx').1 (hkept x hx hx').2 (hkept y hy hy').1
    (hkept y hy hy').2

theorem tokens_eq {value : Value} (hvalue : heap.Supports [value])
    (hvalue' : later.Supports [value]) : later.tokens value = heap.tokens value := by
  obtain ⟨kept, depth, hmatch, hkept⟩ := h.exists_keptWithin
  exact hmatch.tokensWithin_eq (hkept value hvalue hvalue').1 (hkept value hvalue hvalue').2

theorem keyPart_eq (digest : Digest) {value : Value} (hvalue : heap.Supports [value])
    (hvalue' : later.Supports [value]) :
    later.keyPart digest value = heap.keyPart digest value := by
  have htokens := h.tokens_eq hvalue hvalue'
  cases value with
  | int => rfl
  | undefined => rfl
  | _ => exact congrArg digest htokens

variable {xs ys : List Value} (hxs : heap.Supports xs) (hxs' : later.Supports xs)
include hxs hxs'

theorem argKey_eq (digest : Digest) : later.argKey digest xs = heap.argKey digest xs :=
  List.map_congr_left fun _ hvalue => h.keyPart_eq digest (hxs.of_mem hvalue) (hxs'.of_mem hvalue)

theorem sameArgs_eq (hys : heap.Supports ys) (hys' : later.Supports ys) :
    later.sameArgs xs ys = heap.sameArgs xs ys :=
  allPairs_congr xs ys fun _ hx _ hy =>
    h.equal_eq (hxs.of_mem hx) (hxs'.of_mem hx) (hys.of_mem hy) (hys'.of_mem hy)

end Agrees

theorem exists_keptWithin_self {heap : ListHeap} (hheap : heap.WellFormed) :
    ∃ depth, heap.Matches heap heap.Live depth ∧
      ∀ value, heap.Supports [value] →
        KeptWithin heap.Live depth (heap.slots.size + 1) value := by
  obtain ⟨depth, hmatch, hdepth⟩ := (agrees_of_extends hheap hheap (.refl heap)).exists_matches
  refine ⟨depth, ⟨fun _ _ => rfl, fun list hlive inner hinner => ?_⟩, fun value hvalue => ?_⟩
  · obtain ⟨hkept, hlt⟩ := hmatch.inner list ⟨hlive, hlive⟩ inner hinner
    exact ⟨hkept.1, hlt⟩
  · rintro list rfl
    have hlive := supports_iff.mp hvalue list List.mem_cons_self
    exact ⟨hlive, Nat.lt_succ_of_lt (hdepth list hlive hlive).1⟩

end AbstractStateMachine.ListHeap
