import AbstractStateMachine.Proofs.Location.Stability
import AbstractStateMachine.Proofs.OrderedMap
import AbstractStateMachine.Proofs.Plain.Datum

/-!
# Values that represent data

In a heap a handle represents the sequence of its elements, nested to any depth. Whatever extends
the heap, or retains what is reachable, leaves it at that. Equality, keys and texts of values are
those of the data they represent.
-/

namespace AbstractStateMachine

namespace ListHeap

inductive Represents (heap : ListHeap) : Value → Datum → Prop where
  | scalar {value : Value} (h : IsScalar value) : Represents heap value (Datum.ofScalar value)
  | list {list : Handle} {data : List Datum} (hlive : heap.Live list)
      (helements : List.Forall₂ (Represents heap) (heap.toList list) data) :
      Represents heap (.list list) (.list data)

variable {heap later : ListHeap} {value : Value} {datum : Datum} {values : List Value}
  {data : List Datum}

theorem outline_ofScalar (h : IsScalar value) : (Datum.ofScalar value).outline = value := by
  cases value with
  | symbol | verdict | list => exact h.elim
  | _ => rfl

theorem represents_list_iff : heap.Represents value (.list data) ↔
    ∃ list, value = .list list ∧ heap.Live list ∧
      List.Forall₂ heap.Represents (heap.toList list) data := by
  constructor
  · intro h
    generalize hdatum : Datum.list data = datum at h
    cases h with
    | scalar => cases value <;> cases hdatum
    | list hlive helements =>
      cases hdatum
      exact ⟨_, rfl, hlive, helements⟩
  · rintro ⟨list, rfl, hlive, helements⟩
    exact .list hlive helements

theorem Represents.unique (h : heap.Represents value datum) {other : Datum}
    (h' : heap.Represents value other) : other = datum := by
  induction datum using Datum.induction generalizing value other with
  | scalar datum hdatum =>
    cases h with
    | scalar hscalar =>
      cases h' with
      | scalar => rfl
      | list => exact hscalar.elim
    | list => exact absurd rfl (hdatum _)
  | list data ih =>
    obtain ⟨list, rfl, -, helements⟩ := represents_list_iff.mp h
    cases h' with
    | scalar hscalar => exact hscalar.elim
    | list _ helements' =>
      have hunique : ∀ datum ∈ data, ∀ value other, heap.Represents value datum →
          heap.Represents value other → other = datum :=
        fun datum hdatum _ _ h h' => ih datum hdatum h h'
      rw [forall₂_unique helements helements' hunique]

/-- The lists of a set that is closed under elements have the same elements in a later heap. -/
structure Preserves (heap : ListHeap) (kept : Handle → Prop) (later : ListHeap) : Prop where
  live : ∀ list, kept list → heap.Live list → later.Live list
  toList_eq : ∀ list, kept list → heap.Live list → later.toList list = heap.toList list
  inner : ∀ list, kept list → heap.Live list → ∀ inner, .list inner ∈ heap.toList list → kept inner

theorem Represents.preserved {kept : Handle → Prop} (hkept : heap.Preserves kept later)
    (h : heap.Represents value datum) (hvalue : ∀ list, value = .list list → kept list) :
    later.Represents value datum := by
  induction datum using Datum.induction generalizing value with
  | scalar datum hdatum =>
    cases h with
    | scalar hscalar => exact .scalar hscalar
    | list => exact absurd rfl (hdatum _)
  | list data ih =>
    obtain ⟨list, rfl, hlive, helements⟩ := represents_list_iff.mp h
    have hlist := hvalue list rfl
    refine .list (hkept.live list hlist hlive) ?_
    rw [hkept.toList_eq list hlist hlive]
    refine forall₂_imp_of_mem helements fun element helement datum hdatum hrepresents => ?_
    refine ih datum hdatum hrepresents ?_
    rintro inner rfl
    exact hkept.inner list hlist hlive inner helement

theorem Represents.extends (hheap : heap.WellFormed) (hgrows : heap.Extends later)
    (h : heap.Represents value datum) : later.Represents value datum := by
  have hpreserves : heap.Preserves (fun _ => True) later :=
    ⟨fun _ _ => hgrows.live, fun _ _ => toList_of_extends hheap hgrows, fun _ _ _ _ _ => trivial⟩
  exact h.preserved hpreserves fun _ _ => trivial

theorem Represents.retained {roots : List Value} (hheap : heap.WellFormed)
    (hretains : heap.Retains roots later) (h : heap.Represents value datum)
    (hroot : value ∈ roots) : later.Represents value datum := by
  have hlive : ∀ list, heap.Reaches roots list → heap.Live list → later.Live list :=
    fun list hreached hlive => (hretains.live_iff list).mpr ⟨hreached, hlive⟩
  have hpreserves : heap.Preserves (heap.Reaches roots) later := by
    refine ⟨hlive, fun list hreached h => hretains.toList_eq list (hlive list hreached h), ?_⟩
    intro list hreached hlive inner hinner
    obtain ⟨node, hnode, hreads⟩ := hheap.denotes_toList hlive
    have hclosed := closed_reaches heap roots
    exact hreads.kept_of_mem hclosed (hclosed list node hreached hnode) hinner
  refine h.preserved hpreserves ?_
  rintro list rfl
  exact .root (mem_handles.mpr hroot)

theorem Represents.supports (h : heap.Represents value datum) : heap.Supports [value] := by
  refine supports_iff.mpr fun list hlist => ?_
  cases List.mem_singleton.mp hlist
  cases h with
  | scalar hscalar => exact hscalar.elim
  | list hlive _ => exact hlive

/-! ### Equality, keys and texts -/

theorem allPairs_eq_of_forall₂ {α β : Type} {R S : α → β → Prop} {related : α → α → Bool}
    {related' : β → β → Bool} {xs ys : List α} {xs' ys' : List β} (hxs : List.Forall₂ R xs xs')
    (hys : List.Forall₂ S ys ys')
    (hrelated : ∀ x ∈ xs, ∀ x' ∈ xs', R x x' → ∀ y ∈ ys, ∀ y' ∈ ys', S y y' →
      related x y = related' x' y') :
    allPairs related xs ys = allPairs related' xs' ys' := by
  induction hxs generalizing ys ys' with
  | nil => cases hys <;> rfl
  | @cons x x' xs xs' hx _ ih =>
    cases hys with
    | nil => rfl
    | @cons y y' ys ys' hy hys =>
      have hfirst := hrelated x List.mem_cons_self x' List.mem_cons_self hx y
        List.mem_cons_self y' List.mem_cons_self hy
      rw [allPairs, allPairs, hfirst, ih hys]
      intro x hx x' hx' hxx y hy y' hy'
      exact hrelated x (List.mem_cons_of_mem _ hx) x' (List.mem_cons_of_mem _ hx') hxx y
        (List.mem_cons_of_mem _ hy) y' (List.mem_cons_of_mem _ hy')

section Scalars

variable (hscalar : IsScalar value)
include hscalar

theorem tokensWithin_of_isScalar (bound : Nat) :
    heap.tokensWithin bound value = (Datum.ofScalar value).tokens := by
  cases value with
  | symbol | verdict | list => exact hscalar.elim
  | _ => cases bound <;> rfl

theorem textWithin_of_isScalar (spec : Specification) (bound : Nat) :
    heap.textWithin spec bound value = (Datum.ofScalar value).text spec := by
  cases value with
  | symbol | verdict | list => exact hscalar.elim
  | bool b => cases b <;> cases bound <;> rfl
  | _ => cases bound <;> rfl

theorem equalWithin_of_isScalar {other : Value} {image : Datum} (h : heap.Represents other image)
    (bound : Nat) : heap.equalWithin bound value other = (Datum.ofScalar value).equal image := by
  cases h with
  | list => cases value <;> first | exact hscalar.elim | (cases bound <;> rfl)
  | scalar hother =>
    cases value <;> cases other <;>
      first | exact hscalar.elim | exact hother.elim | (cases bound <;> rfl)

end Scalars

section Observers

variable {kept : Handle → Prop} {depth : Handle → Nat} (hmatch : heap.Matches heap kept depth)
  {bound : Nat}
include hmatch

theorem Matches.tokensWithin_eq_tokens (hkept : KeptWithin kept depth bound value)
    (h : heap.Represents value datum) : heap.tokensWithin bound value = datum.tokens := by
  induction bound generalizing value datum with
  | zero =>
    cases h with
    | scalar hscalar => exact tokensWithin_of_isScalar hscalar _
    | list => exact absurd (hkept _ rfl).2 (Nat.not_lt_zero _)
  | succ bound ih =>
    cases h with
    | scalar hscalar => exact tokensWithin_of_isScalar hscalar _
    | list _ helements =>
      rw [tokensWithin, Datum.tokens, Datum.tokensAll_eq, List.flatMap_def, List.flatMap_def]
      rw [map_eq_map_of_forall₂ (forall₂_imp_of_mem helements fun element helement _ _ => ?_)]
      exact ih (hmatch.keptWithin_of_mem hkept helement)

theorem Matches.textWithin_eq_text (spec : Specification)
    (hkept : KeptWithin kept depth bound value) (h : heap.Represents value datum) :
    heap.textWithin spec bound value = datum.text spec := by
  induction bound generalizing value datum with
  | zero =>
    cases h with
    | scalar hscalar => exact textWithin_of_isScalar hscalar spec _
    | list => exact absurd (hkept _ rfl).2 (Nat.not_lt_zero _)
  | succ bound ih =>
    cases h with
    | scalar hscalar => exact textWithin_of_isScalar hscalar spec _
    | list _ helements =>
      rw [textWithin, Datum.text, Datum.texts_eq]
      rw [map_eq_map_of_forall₂ (forall₂_imp_of_mem helements fun element helement _ _ => ?_)]
      exact ih (hmatch.keptWithin_of_mem hkept helement)

theorem Matches.equalWithin_eq_equal {other : Value} {image : Datum}
    (hkept : KeptWithin kept depth bound value) (hkept' : KeptWithin kept depth bound other)
    (h : heap.Represents value datum) (h' : heap.Represents other image)
    (hself : datum.equal datum = true) :
    heap.equalWithin bound value other = datum.equal image := by
  induction bound generalizing value other datum image with
  | zero =>
    cases h with
    | scalar hscalar => exact equalWithin_of_isScalar hscalar h' _
    | list => exact absurd (hkept _ rfl).2 (Nat.not_lt_zero _)
  | succ bound ih =>
    cases h with
    | scalar hscalar => exact equalWithin_of_isScalar hscalar h' _
    | @list x xs hlive hxs =>
      cases h' with
      | scalar hother =>
        cases other with
        | symbol | verdict | list => exact hother.elim
        | _ => rfl
      | @list y ys hlive' hys =>
        have hsame : x = y → Datum.equalAll xs ys = true := by
          rintro rfl
          have hsame := Represents.unique (.list hlive hxs) (.list hlive' hys)
          cases hsame
          exact hself
        have hpairs : allPairs (heap.equalWithin bound) (heap.toList x) (heap.toList y) =
            allPairs Datum.equal xs ys := by
          refine allPairs_eq_of_forall₂ hxs hys ?_
          intro a ha a' ha' haa b hb b' _ hbb
          exact ih (hmatch.keptWithin_of_mem hkept ha) (hmatch.keptWithin_of_mem hkept' hb)
            haa hbb (Datum.equal_self_of_mem hself a' ha')
        show (x == y || allPairs (heap.equalWithin bound) (heap.toList x) (heap.toList y)) =
          Datum.equalAll xs ys
        rw [hpairs, ← Datum.equalAll_eq]
        by_cases hxy : x = y
        · rw [hsame hxy, Bool.or_true]
        · rw [beq_false_of_ne hxy, Bool.false_or]

end Observers

variable (hheap : heap.WellFormed)
include hheap

theorem Represents.text_eq (h : heap.Represents value datum) (spec : Specification) :
    heap.text spec value = datum.text spec := by
  obtain ⟨depth, hmatch, hkept⟩ := exists_keptWithin_self hheap
  exact hmatch.textWithin_eq_text spec (hkept value h.supports) h

theorem Represents.keyPart_eq (h : heap.Represents value datum) (digest : Digest) :
    heap.keyPart digest value = datum.keyPart digest := by
  obtain ⟨depth, hmatch, hkept⟩ := exists_keptWithin_self hheap
  have htokens : heap.tokens value = datum.tokens :=
    hmatch.tokensWithin_eq_tokens (hkept value h.supports) h
  cases h with
  | scalar hscalar =>
    cases value with
    | symbol | verdict | list => exact hscalar.elim
    | int | undefined => rfl
    | _ => exact congrArg digest htokens
  | list => exact congrArg digest htokens

theorem argKey_eq_of_represents (h : List.Forall₂ heap.Represents values data) (digest : Digest) :
    heap.argKey digest values = Datum.argKey digest data :=
  map_eq_map_of_forall₂ (h.imp fun _ _ hvalue => hvalue.keyPart_eq hheap digest)

theorem Represents.equal_eq {other : Value} {image : Datum} (h : heap.Represents value datum)
    (h' : heap.Represents other image) (hself : datum.equal datum = true) :
    heap.equal value other = datum.equal image := by
  obtain ⟨depth, hmatch, hkept⟩ := exists_keptWithin_self hheap
  exact hmatch.equalWithin_eq_equal (hkept value h.supports) (hkept other h'.supports) h h' hself

theorem sameArgs_eq_allPairs {others : List Value} {images : List Datum}
    (h : List.Forall₂ heap.Represents values data) (h' : List.Forall₂ heap.Represents others images)
    (hself : ∀ datum ∈ data, datum.equal datum = true) :
    heap.sameArgs values others = allPairs Datum.equal data images :=
  allPairs_eq_of_forall₂ h h' fun _ _ _ hdatum hvalue _ _ _ _ hother =>
    hvalue.equal_eq hheap hother (hself _ hdatum)

omit hheap in
theorem supports_of_represents (h : List.Forall₂ heap.Represents values data) :
    heap.Supports values := by
  refine supports_iff.mpr fun list hlist => ?_
  induction h with
  | nil => cases hlist
  | cons hfirst _ ih =>
    rcases List.mem_cons.mp hlist with rfl | hrest
    · exact supports_iff.mp hfirst.supports list List.mem_cons_self
    · exact ih hrest

theorem represents_of_makes {result : Handle × ListHeap} {elements : List Value}
    (hmakes : heap.Makes result elements) (helements : List.Forall₂ heap.Represents elements data) :
    result.2.Represents (.list result.1) (.list data) := by
  refine .list hmakes.denotes.live ?_
  rw [hmakes.denotes.toList_eq]
  exact helements.imp fun _ _ => Represents.extends hheap hmakes.grows

/-- The value represents a datum without floats. -/
structure Realizes (heap : ListHeap) (value : Value) (datum : Datum) : Prop where
  represents : heap.Represents value datum
  floatFree : datum.FloatFree

omit hheap in
theorem realizes_scalar (hscalar : IsScalar value) (hfloat : ∀ number, value ≠ .float number) :
    heap.Realizes value (Datum.ofScalar value) := by
  refine ⟨.scalar hscalar, .scalar ?_ ?_⟩
  · rintro number heq
    cases value <;> cases heq
    exact hfloat _ rfl
  · rintro elements heq
    cases value <;> cases heq

omit hheap in
theorem Realizes.cases (h : heap.Realizes value datum) :
    (∃ list data, value = .list list ∧ datum = .list data) ∨
      (IsScalar value ∧ datum = Datum.ofScalar value ∧ ∀ number, value ≠ .float number) := by
  obtain ⟨hrepresents, hfree⟩ := h
  cases hrepresents with
  | @list list data => exact .inl ⟨list, data, rfl, rfl⟩
  | scalar hscalar =>
    refine .inr ⟨hscalar, rfl, ?_⟩
    rintro number rfl
    cases hfree with
    | scalar hfloat => exact hfloat number rfl

theorem Realizes.extends (hgrows : heap.Extends later) (h : heap.Realizes value datum) :
    later.Realizes value datum :=
  ⟨h.represents.extends hheap hgrows, h.floatFree⟩

omit hheap in
theorem supports_of_realizes (h : List.Forall₂ heap.Realizes values data) :
    heap.Supports values :=
  supports_of_represents (h.imp fun _ _ => Realizes.represents)

omit hheap in
theorem floatFree_of_realizes (h : List.Forall₂ heap.Realizes values data) :
    ∀ datum ∈ data, datum.FloatFree := by
  induction h with
  | nil => exact nofun
  | cons hfirst _ ih => exact List.forall_mem_cons.mpr ⟨hfirst.floatFree, ih⟩

theorem sameArgs_eq_of_represents {others : List Value} {images : List Datum}
    (h : List.Forall₂ heap.Realizes values data) (h' : List.Forall₂ heap.Represents others images) :
    heap.sameArgs values others = allPairs Datum.equal data images :=
  sameArgs_eq_allPairs hheap (h.imp fun _ _ => Realizes.represents) h' fun datum hdatum =>
    (floatFree_of_realizes h datum hdatum).equal_self

theorem realizes_of_makes {result : Handle × ListHeap} {elements : List Value}
    (hmakes : heap.Makes result elements) (helements : List.Forall₂ heap.Realizes elements data) :
    result.2.Realizes (.list result.1) (.list data) :=
  ⟨represents_of_makes hheap hmakes (helements.imp fun _ _ => Realizes.represents),
    .list (floatFree_of_realizes helements)⟩

theorem Realizes.exists_elements {list : Handle} (h : heap.Realizes (.list list) (.list data)) :
    ∃ elements, heap.Denotes list elements ∧ List.Forall₂ heap.Realizes elements data := by
  obtain ⟨hrepresents, hfree⟩ := h
  cases hrepresents with
  | list hlive helements =>
    refine ⟨_, hheap.denotes_toList hlive, ?_⟩
    exact forall₂_imp_of_mem helements fun _ _ datum hdatum h =>
      ⟨h, Datum.floatFree_list_iff.mp hfree datum hdatum⟩

end ListHeap

end AbstractStateMachine
