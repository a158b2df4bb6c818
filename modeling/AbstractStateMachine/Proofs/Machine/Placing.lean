import AbstractStateMachine.Proofs.Location.FiniteMap
import AbstractStateMachine.Proofs.Machine.Grounding
import AbstractStateMachine.Proofs.UpdateSet.Orderly

/-!
# Where updates are stored

An update is stored with flat copies of its lists. These have the elements of the lists they are made
from, so the arguments of the update keep their key, and whatever is equal to the copies is equal to
the arguments. Hence an update goes to the bucket it is meant for, and to no location but the one
with equal arguments.
-/

namespace AbstractStateMachine

open ListHeap Standard

namespace ListHeap

variable {heap middle later : ListHeap} {value copy : Value} {values copies : List Value}

/-! ### Flat copies -/

theorem isFlat_eq_of_slot?_eq {list : Handle} (h : later.slot? list = heap.slot? list) :
    later.isFlat list = heap.isFlat list := by
  unfold isFlat node?
  rw [h]

section Flatten

variable {list other : Handle} (hheap : heap.WellFormed)
include hheap

theorem isFlat_flatten : (heap.flatten list).2.isFlat (heap.flatten list).1 = true := by
  unfold flatten
  split
  · assumption
  · rw [isFlat, ofList, node?_alloc hheap, if_pos rfl]
    exact beq_iff_eq.mpr List.size_toArray

theorem slot?_flatten (hother : heap.Live other) :
    (heap.flatten list).2.slot? other = heap.slot? other := by
  unfold flatten
  split
  · rfl
  · rw [ofList, slot?_alloc hheap, if_neg]
    rintro rfl
    exact not_live_alloc hheap _ hother

theorem equal_of_equal_flatten (hlive : heap.Live list) (hvalue : heap.Supports [value])
    (h : (heap.flatten list).2.equal value (.list (heap.flatten list).1) = true) :
    (heap.flatten list).2.equal value (.list list) = true := by
  have hmakes := makes_flatten hheap (hheap.denotes_toList hlive)
  have hsame : (heap.flatten list).2.toList (heap.flatten list).1 =
      (heap.flatten list).2.toList list := by
    rw [hmakes.denotes.toList_eq, toList_of_extends hheap hmakes.grows hlive]
  cases value with
  | list other =>
    rcases sameList_succ_iff.mp h with rfl | hpairs
    · -- The copy was allocated before, so it is the list itself.
      have hold := supports_iff.mp hvalue _ List.mem_cons_self
      unfold flatten at h hold ⊢
      split
      · rwa [if_pos ‹_›] at h
      · rw [if_neg ‹_›] at hold
        exact absurd hold (not_live_alloc hheap _)
    · exact sameList_succ_iff.mpr (.inr (hsame ▸ hpairs))
  | _ => cases h

end Flatten

structure Copies (heap later : ListHeap) (values copies : List Value) : Prop where
  wellFormed : later.WellFormed
  grows : heap.Extends later
  slot?_eq : ∀ list, heap.Live list → later.slot? list = heap.slot? list
  supports : later.Supports copies
  isFlat : ∀ list, .list list ∈ copies → later.isFlat list = true
  argKey_eq : ∀ digest, later.argKey digest copies = heap.argKey digest values
  sameArgs : ∀ args, heap.Supports args → later.sameArgs args copies = true →
    heap.sameArgs args values = true

theorem copies_self (hheap : heap.WellFormed) (hvalue : ∀ list, .list list ∉ [value]) :
    Copies heap heap [value] [value] where
  wellFormed := hheap
  grows := .refl heap
  slot?_eq _ _ := rfl
  supports := supports_iff.mpr fun list hlist => absurd hlist (hvalue list)
  isFlat list hlist := absurd hlist (hvalue list)
  argKey_eq _ := rfl
  sameArgs _ _ := id

theorem copies_flatten {list : Handle} (hheap : heap.WellFormed) (hlive : heap.Live list) :
    Copies heap (heap.flatten list).2 [.list list] [.list (heap.flatten list).1] := by
  have hmakes := makes_flatten hheap (hheap.denotes_toList hlive)
  have hvalue : heap.Supports [.list list] := by
    apply supports_iff.mpr
    rintro _ hother
    cases List.mem_singleton.mp hother
    exact hlive
  have hagrees := agrees_of_extends hheap hmakes.wellFormed hmakes.grows
  have htokens : (heap.flatten list).2.tokens (.list (heap.flatten list).1) =
      (heap.flatten list).2.tokens (.list list) := by
    rw [tokens, tokens, tokensWithin, tokensWithin, hmakes.denotes.toList_eq,
      toList_of_extends hheap hmakes.grows hlive]
  refine ⟨hmakes.wellFormed, hmakes.grows, fun _ => slot?_flatten hheap, ?_, ?_,
    fun digest => ?_, fun args hargs hsame => ?_⟩
  · apply supports_iff.mpr
    rintro _ hother
    cases List.mem_singleton.mp hother
    exact hmakes.denotes.live
  · rintro _ hother
    cases List.mem_singleton.mp hother
    exact isFlat_flatten hheap
  · calc (heap.flatten list).2.argKey digest [.list (heap.flatten list).1] =
        (heap.flatten list).2.argKey digest [.list list] :=
          congrArg (fun sequence => [digest sequence]) htokens
      _ = heap.argKey digest [.list list] :=
          hagrees.argKey_eq hvalue (hvalue.extends hmakes.grows) digest
  · rw [← hagrees.sameArgs_eq hargs (hargs.extends hmakes.grows) hvalue
      (hvalue.extends hmakes.grows)]
    cases args with
    | nil => cases hsame
    | cons arg rest =>
      simp only [ListHeap.sameArgs, allPairs, Bool.and_eq_true] at hsame ⊢
      exact ⟨equal_of_equal_flatten hheap hlive (hargs.of_mem List.mem_cons_self) hsame.1, hsame.2⟩

theorem Copies.cons (hheap : heap.WellFormed) (hvalues : heap.Supports values)
    (hfirst : Copies heap middle [value] [copy]) (hrest : Copies middle later values copies) :
    Copies heap later (value :: values) (copy :: copies) := by
  have hagrees := agrees_of_extends hheap hfirst.wellFormed hfirst.grows
  have hagrees' := agrees_of_extends hfirst.wellFormed hrest.wellFormed hrest.grows
  have hcopy := hfirst.supports.extends hrest.grows
  refine ⟨hrest.wellFormed, hfirst.grows.trans hrest.grows, fun list hlive => ?_, ?_, ?_,
    fun digest => ?_, fun args hargs hsame => ?_⟩
  · rw [hrest.slot?_eq list (hfirst.grows.live hlive), hfirst.slot?_eq list hlive]
  · apply supports_iff.mpr
    intro list hlist
    rcases List.mem_cons.mp hlist with heq | hmem
    · exact supports_iff.mp hcopy list (List.mem_singleton.mpr heq)
    · exact supports_iff.mp hrest.supports list hmem
  · intro list hlist
    rcases List.mem_cons.mp hlist with heq | hmem
    · have hmem := List.mem_singleton.mpr heq
      have hlive := supports_iff.mp hfirst.supports list hmem
      rw [isFlat_eq_of_slot?_eq (hrest.slot?_eq list hlive)]
      exact hfirst.isFlat list hmem
    · exact hrest.isFlat list hmem
  · have hkey : later.argKey digest [copy] = heap.argKey digest [value] :=
      (hagrees'.argKey_eq hfirst.supports hcopy digest).trans (hfirst.argKey_eq digest)
    have hkeys : later.argKey digest copies = heap.argKey digest values :=
      (hrest.argKey_eq digest).trans
        (hagrees.argKey_eq hvalues (hvalues.extends hfirst.grows) digest)
    calc later.argKey digest (copy :: copies) =
        later.argKey digest [copy] ++ later.argKey digest copies := rfl
      _ = heap.argKey digest [value] ++ heap.argKey digest values := by rw [hkey, hkeys]
      _ = heap.argKey digest (value :: values) := rfl
  · cases args with
    | nil => cases hsame
    | cons arg others =>
      obtain ⟨hequal, hothers⟩ := Bool.and_eq_true_iff.mp hsame
      have harg := hargs.of_mem List.mem_cons_self
      have hargs := hargs.mono fun _ => List.mem_cons_of_mem arg
      have harg' := harg.extends hfirst.grows
      have hargs' := hargs.extends hfirst.grows
      refine Bool.and_eq_true_iff.mpr ⟨?_, ?_⟩
      · have hsame : later.sameArgs [arg] [copy] = true := Bool.and_eq_true_iff.mpr ⟨hequal, rfl⟩
        rw [hagrees'.sameArgs_eq harg' (harg'.extends hrest.grows) hfirst.supports hcopy] at hsame
        exact (Bool.and_eq_true_iff.mp (hfirst.sameArgs _ harg hsame)).1
      · have hsame := hrest.sameArgs _ hargs' hothers
        rwa [hagrees.sameArgs_eq hargs hargs' hvalues (hvalues.extends hfirst.grows)] at hsame

end ListHeap

structure Update.IsFor (heap : ListHeap) (function : FunctionId) (args : List Value)
    (update : Update) : Prop where
  function_eq : update.function = function
  sameArgs : heap.sameArgs update.args args = true

instance (heap : ListHeap) (function : FunctionId) (args : List Value) (update : Update) :
    Decidable (update.IsFor heap function args) :=
  decidable_of_iff (update.function = function ∧ heap.sameArgs update.args args = true)
    ⟨fun h => ⟨h.1, h.2⟩, fun h => ⟨h.1, h.2⟩⟩

namespace Machine

variable {setting : Setting} {machine next : Machine} {value : Value} {values : List Value}
  {update : Update}

theorem copies_flattenValue (hheap : machine.heap.WellFormed)
    (hvalue : machine.heap.Supports [value]) :
    Copies machine.heap (machine.flattenValue value).2.heap [value]
      [(machine.flattenValue value).1] := by
  cases value with
  | list list => exact copies_flatten hheap (supports_iff.mp hvalue list List.mem_cons_self)
  | _ => exact copies_self hheap (by simp)

theorem copies_flattenValues (hheap : machine.heap.WellFormed)
    (hvalues : machine.heap.Supports values) :
    Copies machine.heap (machine.flattenValues values).2.heap values
      (machine.flattenValues values).1 := by
  induction values generalizing machine with
  | nil => exact ⟨hheap, .refl _, fun _ _ => rfl, hvalues, nofun, fun _ => rfl, fun _ _ => id⟩
  | cons value rest ih =>
    have hvalue := hvalues.of_mem List.mem_cons_self
    have hrest := hvalues.mono fun _ => List.mem_cons_of_mem value
    have hfirst := copies_flattenValue hheap hvalue
    exact hfirst.cons hheap hrest (ih hfirst.wellFormed (hrest.extends hfirst.grows))

/-! ### Updates -/

/-- The values of the update are allocated, and it carries the key of its arguments. -/
structure Fits (setting : Setting) (machine : Machine) (update : Update) : Prop where
  supports : machine.heap.Supports update.values
  key : machine.heap.argKey setting.digest update.args = update.key

theorem Fits.supports_args (h : machine.Fits setting update) :
    machine.heap.Supports update.args :=
  h.supports.mono fun _ => List.mem_append_left _

theorem Fits.extends (h : machine.Fits setting update) (hmachine : machine.Grounded setting)
    (hnext : next.Grounded setting) (hgrows : machine.heap.Extends next.heap) :
    next.Fits setting update := by
  refine ⟨h.supports.extends hgrows, ?_⟩
  have hagrees := agrees_of_extends hmachine.wellFormed hnext.wellFormed hgrows
  exact (hagrees.argKey_eq h.supports_args (h.supports_args.extends hgrows) setting.digest).trans
    h.key

theorem fits_of_mem_updates (hgrounded : machine.Grounded setting)
    (horderly : machine.pending.Orderly machine.heap setting.digest)
    (hupdate : update ∈ machine.pending.updates) : machine.Fits setting update := by
  refine ⟨(acceptsAll_plain_iff.mp hgrounded.pending).mono fun value hvalue => ?_,
    (horderly.key_eq hupdate).symm⟩
  exact UpdateSet.mem_held_of_mem_updates hupdate hvalue

structure Places (setting : Setting) (update : Update) (machine next : Machine) : Prop where
  grounded : next.Grounded setting
  grows : machine.heap.Extends next.heap
  slot?_eq : ∀ list, machine.heap.Live list → next.heap.slot? list = machine.heap.slot? list
  pending : next.pending = machine.pending
  stored : ∃ args value, next.heap.argKey setting.digest args = update.key ∧
    (∀ list, .list list ∈ args ++ [value] → next.heap.isFlat list = true) ∧
    (∀ others, machine.heap.Supports others → next.heap.sameArgs others args = true →
      machine.heap.sameArgs others update.args = true) ∧
      next.state = machine.state.set next.heap update.function update.key args value

theorem places_applyUpdate (h : machine.Grounded setting) (hfits : machine.Fits setting update) :
    Places setting update machine (machine.applyUpdate setting update) := by
  have hcontinues := continues_applyUpdate h (acceptsAll_plain_iff.mpr hfits.supports)
  have hvalue : machine.heap.Supports [update.value] :=
    hfits.supports.mono fun _ => List.mem_append_right _
  have hfirst := copies_flattenValue h.wellFormed hvalue
  have hrest := copies_flattenValues hfirst.wellFormed (hfits.supports_args.extends hfirst.grows)
  have hcopies := hfirst.cons h.wellFormed hfits.supports_args hrest
  have hagrees := agrees_of_extends h.wellFormed hfirst.wellFormed hfirst.grows
  obtain ⟨heap, hheap⟩ := exists_flattenValue_eq machine update.value
  obtain ⟨heap', hheap'⟩ := exists_flattenValues_eq (machine.flattenValue update.value).2 update.args
  let flat := (machine.flattenValue update.value).2.flattenValues update.args
  have hstate : flat.2.state = machine.state := by
    show ((machine.flattenValue update.value).2.flattenValues update.args).2.state = _
    rw [hheap', hheap]
  have hlater : (machine.applyUpdate setting update).heap = flat.2.heap := by
    unfold applyUpdate
    dsimp only
    split <;> rfl
  refine ⟨hcontinues.upholds, hcontinues.grows, ?_, pending_applyUpdate .., flat.1,
    (machine.flattenValue update.value).1, ?_, ?_, ?_, ?_⟩
  · rw [hlater]
    exact hcopies.slot?_eq
  · rw [hlater, hrest.argKey_eq]
    exact (hagrees.argKey_eq hfits.supports_args
      (hfits.supports_args.extends hfirst.grows) _).trans hfits.key
  · rw [hlater]
    intro list hlist
    exact hcopies.isFlat list ((List.perm_append_singleton _ _).mem_iff.mp hlist)
  · rw [hlater]
    intro others hothers hsame
    have hothers' := hothers.extends hfirst.grows
    rw [← hagrees.sameArgs_eq hothers hothers' hfits.supports_args
      (hfits.supports_args.extends hfirst.grows)]
    exact hrest.sameArgs others hothers' hsame
  · rw [hlater, ← hstate]
    unfold applyUpdate
    dsimp only
    split <;> rfl

end Machine

end AbstractStateMachine
