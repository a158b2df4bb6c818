import AbstractStateMachine.Proofs.Machine.Stores
import AbstractStateMachine.Proofs.UpdateSet.Orderly

/-!
# Machines that store the same

What a machine has stored is a matter of data: under arguments that represent certain data it finds
a value that represents some datum. Two machines store the same if under all arguments, save those
with a NaN in them, they find data that are the same up to the signs of zeros. That much is equality
in the language: of two equal floats a parallel block may keep either.
-/

namespace AbstractStateMachine

open ListHeap Datum

/-! ### Data that compare equal -/

/-- The same datum, but for floats that compare equal. -/
inductive Datum.Similar : Datum → Datum → Prop where
  | same (datum : Datum) : Similar datum datum
  | float {x y : Binary64} (h : x.equal y = true) : Similar (.float x) (.float y)
  | list {xs ys : List Datum} (h : List.Forall₂ Similar xs ys) : Similar (.list xs) (.list ys)

theorem Datum.similar_of_equal_scalar {datum image : Datum}
    (hdatum : ∀ elements, datum ≠ .list elements) (h : datum.equal image = true) :
    datum.Similar image := by
  cases datum with
  | list elements => exact absurd rfl (hdatum elements)
  | float x =>
    cases image with
    | float y => exact .float h
    | _ => cases h
  | undefined =>
    cases image with
    | undefined => exact .same _
    | _ => cases h
  | int | bool | str | rule =>
    cases image <;> simp only [equal, beq_iff_eq, Bool.false_eq_true] at h
    subst h
    exact .same _

namespace ListHeap

variable {heap : ListHeap} {value other : Value} {datum image : Datum}

theorem forall₂_of_allPairs {α β : Type} {related : α → α → Bool} {R : α → β → Prop}
    {S : β → β → Prop} {xs ys : List α} {xs' ys' : List β} (hxs : List.Forall₂ R xs xs')
    (hys : List.Forall₂ R ys ys') (h : allPairs related xs ys = true)
    (himp : ∀ x ∈ xs, ∀ y ∈ ys, ∀ x' y', R x x' → R y y' → related x y = true → S x' y') :
    List.Forall₂ S xs' ys' := by
  rw [allPairs_iff_forall₂] at h
  induction h generalizing xs' ys' with
  | nil =>
    cases hxs
    cases hys
    exact .nil
  | @cons x y xs ys hrelated _ ih =>
    obtain ⟨x', xs', hx, hrest, rfl⟩ := List.forall₂_cons_left_iff.mp hxs
    obtain ⟨y', ys', hy, hrest', rfl⟩ := List.forall₂_cons_left_iff.mp hys
    refine .cons (himp x List.mem_cons_self y List.mem_cons_self x' y' hx hy hrelated) ?_
    exact ih hrest hrest' fun a ha b hb =>
      himp a (List.mem_cons_of_mem _ ha) b (List.mem_cons_of_mem _ hb)

theorem similar_of_isScalar (hscalar : IsScalar value) (h : heap.Represents other image)
    {bound : Nat} (hequal : heap.equalWithin bound value other = true) :
    (ofScalar value).Similar image := by
  rw [equalWithin_of_isScalar hscalar h] at hequal
  refine similar_of_equal_scalar ?_ hequal
  rintro elements heq
  cases value <;> cases heq

theorem Matches.similar_of_equalWithin {kept : Handle → Prop} {depth : Handle → Nat}
    (hmatch : heap.Matches heap kept depth) {bound : Nat}
    (hkept : KeptWithin kept depth bound value) (hkept' : KeptWithin kept depth bound other)
    (h : heap.Represents value datum) (h' : heap.Represents other image)
    (hequal : heap.equalWithin bound value other = true) : datum.Similar image := by
  induction bound generalizing value other datum image with
  | zero =>
    cases h with
    | list => exact absurd (hkept _ rfl).2 (Nat.not_lt_zero _)
    | scalar hscalar => exact similar_of_isScalar hscalar h' hequal
  | succ bound ih =>
    cases h with
    | scalar hscalar => exact similar_of_isScalar hscalar h' hequal
    | @list x xs hlive hxs =>
      cases h' with
      | scalar hother =>
        cases other with
        | symbol | verdict | list => exact hother.elim
        | _ => cases hequal
      | @list y ys hlive' hys =>
        change (x == y || allPairs (heap.equalWithin bound) (heap.toList x) (heap.toList y)) =
          true at hequal
        rcases Bool.or_eq_true_iff.mp hequal with hxy | hpairs
        · cases eq_of_beq hxy
          cases Represents.unique (.list hlive hxs) (.list hlive' hys)
          exact .same _
        · refine .list (forall₂_of_allPairs hxs hys hpairs fun a ha b hb _ _ haa hbb => ?_)
          exact ih (hmatch.keptWithin_of_mem hkept ha) (hmatch.keptWithin_of_mem hkept' hb)
            haa hbb

theorem Represents.similar_of_equal (hheap : heap.WellFormed) (h : heap.Represents value datum)
    (h' : heap.Represents other image) (hequal : heap.equal value other = true) :
    datum.Similar image := by
  obtain ⟨depth, hmatch, hkept⟩ := exists_keptWithin_self hheap
  exact hmatch.similar_of_equalWithin (hkept value h.supports) (hkept other h'.supports) h h' hequal

/-! ### Making values -/

theorem exists_represents_all {data : List Datum} (hheap : heap.WellFormed)
    (h : ∀ datum ∈ data, ∀ {heap : ListHeap}, heap.WellFormed →
      ∃ later value, later.WellFormed ∧ heap.Extends later ∧ later.Represents value datum) :
    ∃ later values, later.WellFormed ∧ heap.Extends later ∧
      List.Forall₂ later.Represents values data := by
  induction data generalizing heap with
  | nil => exact ⟨heap, [], hheap, .refl heap, .nil⟩
  | cons datum rest ih =>
    obtain ⟨hdatum, hrest⟩ := List.forall_mem_cons.mp h
    obtain ⟨middle, value, hmiddle, hgrows, hvalue⟩ := hdatum hheap
    obtain ⟨later, values, hlater, hgrows', hvalues⟩ := ih hmiddle hrest
    exact ⟨later, value :: values, hlater, hgrows.trans hgrows',
      .cons (hvalue.extends hmiddle hgrows') hvalues⟩

theorem exists_represents_datum (hheap : heap.WellFormed) (datum : Datum) :
    ∃ later value, later.WellFormed ∧ heap.Extends later ∧ later.Represents value datum := by
  induction datum using induction generalizing heap with
  | scalar datum hdatum =>
    refine ⟨heap, datum.outline, hheap, .refl heap, ?_⟩
    cases datum with
    | list elements => exact absurd rfl (hdatum elements)
    | _ => exact .scalar trivial
  | list elements ih =>
    obtain ⟨middle, values, hmiddle, hgrows, hvalues⟩ :=
      exists_represents_all hheap fun element helement => ih element helement
    have hmakes := makes_ofList hmiddle (supports_of_represents hvalues)
    exact ⟨_, _, hmakes.wellFormed, hgrows.trans hmakes.grows,
      represents_of_makes hmiddle hmakes hvalues⟩

theorem exists_represents_data (hheap : heap.WellFormed) (data : List Datum) :
    ∃ later values, later.WellFormed ∧ heap.Extends later ∧
      List.Forall₂ later.Represents values data :=
  exists_represents_all hheap fun datum _ _ hheap => exists_represents_datum hheap datum

end ListHeap

/-! ### Finding what is stored -/

/-- What is found depends on the data and not on the heap. -/
theorem Interpretation.get?_eq_of_represents {state : Interpretation} {function : FunctionId}
    {key : ArgKey} {heap heap' : ListHeap} {args args' : List Value} {data : List Datum}
    (hheap : heap.WellFormed) (hheap' : heap'.WellFormed)
    (hargs : List.Forall₂ heap.Represents args data)
    (hargs' : List.Forall₂ heap'.Represents args' data)
    (hself : ∀ datum ∈ data, datum.equal datum = true)
    (hstored : ∀ location ∈ state.bucket function key, ∃ images,
      List.Forall₂ heap.Represents location.args images ∧
        List.Forall₂ heap'.Represents location.args images) :
    state.get? heap function key args = state.get? heap' function key args' := by
  rw [get?_eq_get?_bucket, get?_eq_get?_bucket]
  unfold Bucket.get?
  rw [List.find?_congr fun location hlocation => ?_]
  obtain ⟨images, himages, himages'⟩ := hstored location hlocation
  rw [sameArgs_eq_of_self hheap himages hargs hself,
    sameArgs_eq_of_self hheap' himages' hargs' hself]

namespace Machine

variable {setting : Setting} {machine next : Machine} {function : FunctionId} {data : List Datum}
  {datum : Datum}

/-- Under arguments that represent the data, in whatever heap that has the lists of the machine, the
machine has stored a value that represents the datum. -/
def Finds (setting : Setting) (machine : Machine) (function : FunctionId) (data : List Datum)
    (datum : Datum) : Prop :=
  ∀ heap args, heap.WellFormed → machine.heap.Extends heap →
    List.Forall₂ heap.Represents args data →
      heap.Represents ({ machine with heap }.get setting function args) datum

/-- At every location the machines find the same, or what compares equal. -/
def SameStore (setting : Setting) (machine other : Machine) : Prop :=
  ∀ function data, (∀ datum ∈ data, datum.equal datum = true) →
    ∃ found found', machine.Finds setting function data found ∧
      other.Finds setting function data found' ∧ found.Similar found'

theorem get_eq {heap : ListHeap} {args : List Value} (hheap : heap.WellFormed)
    (hargs : List.Forall₂ heap.Represents args data) :
    { machine with heap }.get setting function args =
      (machine.state.get? heap function (argKey setting.digest data) args).getD
        .undefined := by
  rw [get, argKey_eq_of_represents hheap hargs]

theorem Finds.grow (h : machine.Finds setting function data datum)
    (hgrows : machine.heap.Extends next.heap) (hstate : next.state = machine.state) :
    next.Finds setting function data datum := by
  intro heap args hheap hlater hargs
  rw [get_eq hheap hargs, hstate, ← get_eq hheap hargs]
  exact h heap args hheap (hgrows.trans hlater) hargs

section Concrete

variable {updates : List Update} {update : Update} {images : List Datum}
  (hconcrete : setting.symbolic = false) (hmachine : machine.Consistent setting)
  (hself : ∀ datum ∈ data, datum.equal datum = true)
include hconcrete hmachine hself

theorem get?_eq_of_represents {heap heap' : ListHeap} {args args' : List Value} {key : ArgKey}
    (hheap : heap.WellFormed) (hheap' : heap'.WellFormed) (hgrows : machine.heap.Extends heap)
    (hgrows' : machine.heap.Extends heap') (hargs : List.Forall₂ heap.Represents args data)
    (hargs' : List.Forall₂ heap'.Represents args' data) :
    machine.state.get? heap function key args = machine.state.get? heap' function key args' := by
  refine Interpretation.get?_eq_of_represents hheap hheap' hargs hargs' hself ?_
  intro location hlocation
  have hstate := hmachine.state
  rw [hconcrete] at hstate
  obtain ⟨images, himages⟩ := exists_represents_of_allSound hmachine.wellFormed fun value hvalue =>
    hstate value (Interpretation.mem_values_of_mem_bucket hlocation (.inl hvalue))
  exact ⟨images, represents_extends hmachine.wellFormed hgrows himages,
    represents_extends hmachine.wellFormed hgrows' himages⟩

theorem exists_finds (function : FunctionId) :
    ∃ datum, machine.Finds setting function data datum := by
  obtain ⟨heap, args, hheap, hgrows, hargs⟩ := exists_represents_data hmachine.wellFormed data
  have hsound : machine.heap.Sound false ((machine.state.get? heap function
      (argKey setting.digest data) args).getD .undefined) := by
    cases hfound : machine.state.get? heap function (argKey setting.digest data) args with
    | none => exact sound_of_isScalar trivial
    | some value =>
      have hstate := hmachine.state
      rw [hconcrete] at hstate
      exact hstate value (Interpretation.mem_values_of_get? hfound)
  obtain ⟨datum, hdatum⟩ := exists_represents_of_sound hmachine.wellFormed hsound
  refine ⟨datum, fun heap' args' hheap' hgrows' hargs' => ?_⟩
  rw [get_eq hheap' hargs', get?_eq_of_represents hconcrete hmachine hself hheap' hheap hgrows'
    hgrows hargs' hargs]
  exact hdatum.extends hmachine.wellFormed hgrows'

variable (hupdates : ∀ update ∈ updates,
  (Standard.strict setting.symbolic).AcceptsAll machine.heap update.values)
include hupdates

theorem finds_foldl_applyUpdate (hnodup : (updates.map Update.location).Nodup)
    (hupdate : update ∈ updates)
    (hlocation : update.location = (function, argKey setting.digest data))
    (hlt : function.index < machine.state.tables.size)
    (himages : List.Forall₂ machine.heap.Represents update.args images)
    (hsame : allPairs equal data images = true)
    (hdatum : machine.heap.Represents update.value datum) :
    (updates.foldl (applyUpdate setting) machine).Finds setting function data datum := by
  intro heap args hheap hgrows hargs
  have hextends : machine.heap.Extends heap :=
    (continues_foldl_applyUpdate hmachine hupdates).grows.trans hgrows
  have hhit : update.Hits heap machine.state.tables.size function
      (argKey setting.digest data) args := by
    refine ⟨hlocation, hlt, ?_⟩
    rw [sameArgs_eq_of_self hheap (represents_extends hmachine.wellFormed hextends himages) hargs
      hself, hsame]
  obtain ⟨value, hvalue, hrepresents⟩ := exists_get?_foldl_applyUpdate hconcrete hmachine hheap
    hargs hself hupdates hnodup hgrows hupdate hhit
  rw [get_eq hheap hargs, hvalue]
  exact hrepresents datum hdatum

theorem Finds.foldl_applyUpdate (h : machine.Finds setting function data datum)
    (hmisses : ∀ update ∈ updates,
      update.location = (function, argKey setting.digest data) →
      function.index < machine.state.tables.size → ∀ images,
        List.Forall₂ machine.heap.Represents update.args images →
        allPairs equal data images = false) :
    (updates.foldl (applyUpdate setting) machine).Finds setting function data datum := by
  intro heap args hheap hgrows hargs
  have hextends : machine.heap.Extends heap :=
    (continues_foldl_applyUpdate hmachine hupdates).grows.trans hgrows
  rw [get_eq hheap hargs, get?_foldl_applyUpdate_of_misses hconcrete hmachine hheap hargs hself
    hupdates hgrows, ← get_eq hheap hargs]
  · exact h heap args hheap hextends hargs
  · rintro update hupdate ⟨hlocation, hlt, hsame⟩
    obtain ⟨images, -, himages, -⟩ := exists_represents hconcrete hmachine (hupdates update hupdate)
    rw [sameArgs_eq_of_self hheap (represents_extends hmachine.wellFormed hextends himages) hargs
      hself, hmisses update hupdate hlocation hlt images himages] at hsame
    cases hsame

end Concrete

/-! ### Applying what is pending -/

section Pending

variable {update : Update} {images : List Datum} {old : Datum}
  (hconcrete : setting.symbolic = false) (hmachine : machine.Consistent setting)
  (hindexed : machine.pending.bottom.Indexed)
  (hself : ∀ datum ∈ data, datum.equal datum = true)
  (hold : machine.Finds setting function data old) (endOfStep : Bool)
include hconcrete hmachine

omit hconcrete in
theorem Consistent.summarized : (machine.summarized setting endOfStep).Consistent setting :=
  { hmachine with pending := nofun }

include hindexed hself hold

theorem Finds.applyPending_of_none
    (hnone : machine.pending.bottom.get? (function, argKey setting.digest data) = none) :
    (machine.applyPending setting endOfStep).Finds setting function data old := by
  rw [applyPending_of_concrete hconcrete]
  refine Finds.foldl_applyUpdate hconcrete (hmachine.summarized endOfStep) hself
    (fun update hupdate value hvalue => ?_) (hold.grow (.refl _) rfl)
    fun update hupdate hlocation => ?_
  · exact hmachine.pending value (UpdateSet.mem_held_of_mem_updates hupdate hvalue)
  · have hfound := hindexed.get?_location hupdate
    rw [hlocation, hnone] at hfound
    cases hfound

theorem Finds.applyPending_of_some
    (hsome : machine.pending.bottom.get? (function, argKey setting.digest data) = some update)
    (himages : List.Forall₂ machine.heap.Represents update.args images)
    (hdatum : machine.heap.Represents update.value datum) :
    (machine.applyPending setting endOfStep).Finds setting function data
      (if function.index < machine.state.tables.size ∧ allPairs equal data images = true
        then datum else old) := by
  have hstart := hmachine.summarized endOfStep
  have hupdates : ∀ update ∈ machine.pending.updates,
      (Standard.strict setting.symbolic).AcceptsAll (machine.summarized setting endOfStep).heap
        update.values :=
    fun update hupdate value hvalue =>
      hmachine.pending value (UpdateSet.mem_held_of_mem_updates hupdate hvalue)
  have hlocation := (hindexed.location _ _ hsome).symm
  rw [applyPending_of_concrete hconcrete]
  split
  · next hhit =>
      refine finds_foldl_applyUpdate hconcrete hstart hself hupdates ?_
        (OrderedMap.mem_values_of_get? hsome) hlocation hhit.1 himages hhit.2 hdatum
      rw [UpdateSet.updates, hindexed.map_location]
      exact hindexed.nodup
  · next hmiss =>
      refine Finds.foldl_applyUpdate hconcrete hstart hself hupdates (hold.grow (.refl _) rfl) ?_
      intro other hother hlocation' hlt images' himages'
      have hfound := hindexed.get?_location hother
      rw [hlocation', hsome] at hfound
      cases hfound
      cases forall₂_unique himages himages' fun _ _ _ _ h h' => h.unique h'
      exact Bool.eq_false_iff.mpr fun hsame => hmiss ⟨hlt, hsame⟩

end Pending

end Machine

end AbstractStateMachine
