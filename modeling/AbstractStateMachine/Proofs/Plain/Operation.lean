import AbstractStateMachine.Proofs.Operation
import AbstractStateMachine.Proofs.Plain.Representation
import AbstractStateMachine.Proofs.UpdateSet.Stack

/-!
# Operations on values that represent data

Operators and builtins see of a list that it is one, or its elements. On values that represent data
they give a value that represents the result of the same operation on the data, or the same error.
-/

namespace AbstractStateMachine.Operation

open ListHeap

variable {heap : ListHeap} {lease : Lease} {left right operand : Value}
  {leftDatum rightDatum operandDatum : Datum} {op : BinaryOp}

/-! ### Operators -/

theorem outline_of_represents (h : heap.Represents operand operandDatum) :
    operandDatum.outline = outline operand := by
  cases h with
  | scalar hscalar =>
    rw [outline_ofScalar hscalar]
    cases operand with
    | list => exact hscalar.elim
    | _ => rfl
  | list => rfl

theorem kind_outline (value : Value) : (outline value).kind = value.kind := by
  cases value <;> rfl

theorem isUndefined_outline (value : Value) : (outline value).isUndefined = value.isUndefined := by
  cases value <;> rfl

theorem arithmetic_outline (op : BinaryOp) :
    arithmetic op (outline left) (outline right) = arithmetic op left right := by
  unfold arithmetic
  rw [kind_outline, kind_outline]
  cases left <;> cases right <;> rfl

theorem ordering_outline (op : BinaryOp) :
    ordering op (outline left) (outline right) = ordering op left right := by
  unfold ordering
  rw [kind_outline, kind_outline]
  cases left <;> cases right <;> rfl

theorem logic_outline (op : BinaryOp) :
    logic op (outline left) (outline right) = logic op left right := by
  have htruth : ∀ value, truth? (outline value) = truth? value := by
    intro value
    cases value <;> rfl
  unfold logic
  rw [kind_outline, kind_outline, htruth, htruth]

theorem binary_outline (heq : op ≠ .eq) (hne : op ≠ .ne) :
    binary {} op (outline left) (outline right) = binary heap op left right := by
  cases op with
  | eq => exact absurd rfl heq
  | ne => exact absurd rfl hne
  | and | or | xor => simp only [binary, logic_outline]
  | add | sub | mul | div | mod =>
    simp only [binary, isUndefined_outline, arithmetic_outline]
  | lt | gt | le | ge => simp only [binary, isUndefined_outline, ordering_outline]

theorem not_outline : not (outline operand) = not operand := by
  cases operand <;> rfl

theorem exists_float_of_arithmetic {number : Binary64}
    (h : arithmetic op left right = .ok (.float number)) : ∃ x, left = .float x := by
  unfold arithmetic at h
  dsimp only at h
  split at h
  · next value hvalue =>
      cases h
      split at hvalue
      · cases op <;> simp only [integerArithmetic, Option.some.injEq, reduceCtorEq] at hvalue
        case div | mod => split at hvalue <;> cases hvalue
      · exact ⟨_, rfl⟩
      · split at hvalue <;> cases hvalue
      · cases hvalue
  · cases h

theorem ofTruth_ne_float (truth : Option Bool) (number : Binary64) :
    ofTruth truth ≠ .float number := by
  cases truth <;> nofun

theorem exists_float_of_binary {number : Binary64}
    (h : binary heap op left right = .ok (.float number)) : ∃ x, left = .float x := by
  cases op with
  | eq | ne => cases h
  | and | or | xor =>
    simp only [binary, logic] at h
    split at h
    · exact absurd (Except.ok.inj h) (ofTruth_ne_float _ _)
    · cases h
  | add | sub | mul | div | mod =>
    simp only [binary] at h
    split at h
    · cases h
    · exact exists_float_of_arithmetic h
  | lt | gt | le | ge =>
    simp only [binary, ordering] at h
    split at h
    · cases h
    · split at h <;> cases h

theorem not_float_of_realizes (h : heap.Realizes operand operandDatum) (number : Binary64) :
    operand ≠ .float number := by
  obtain ⟨list, data, rfl, -⟩ | ⟨-, -, hfloat⟩ := h.cases
  · nofun
  · exact hfloat number

theorem sameOutcome_ofScalar {outcome : Outcome} (hscalar : ∀ value, outcome = .ok value →
    IsScalar value) (hfloat : ∀ number, outcome ≠ .ok (.float number)) :
    SameOutcome heap.Realizes outcome (outcome.map Datum.ofScalar) := by
  cases outcome with
  | error error => exact .error error
  | ok value =>
    refine .ok (realizes_scalar (hscalar value rfl) ?_)
    rintro number rfl
    exact hfloat number rfl

theorem sameOutcome_binary (hheap : heap.WellFormed) (hleft : heap.Realizes left leftDatum)
    (hright : heap.Realizes right rightDatum) (op : BinaryOp) :
    SameOutcome heap.Realizes (binary heap op left right)
      (Datum.binary op leftDatum rightDatum) := by
  have hequal := hleft.represents.equal_eq hheap hright.represents hleft.floatFree.equal_self
  by_cases heq : op = .eq
  · subst heq
    rw [binary, Datum.binary, hequal]
    exact .ok (realizes_scalar trivial nofun)
  by_cases hne : op = .ne
  · subst hne
    rw [binary, Datum.binary, hequal]
    exact .ok (realizes_scalar trivial nofun)
  have hplain : Datum.binary op leftDatum rightDatum =
      (binary {} op leftDatum.outline rightDatum.outline).map Datum.ofScalar := by
    cases op with
    | eq => exact absurd rfl heq
    | ne => exact absurd rfl hne
    | _ => rfl
  rw [hplain, outline_of_represents hleft.represents, outline_of_represents hright.represents,
    binary_outline heq hne]
  refine sameOutcome_ofScalar (fun _ => isScalar_of_binary) fun number hfloat => ?_
  obtain ⟨x, hx⟩ := exists_float_of_binary hfloat
  exact not_float_of_realizes hleft x hx

theorem sameOutcome_not (hoperand : heap.Realizes operand operandDatum) :
    SameOutcome heap.Realizes (not operand) operandDatum.not := by
  rw [Datum.not, outline_of_represents hoperand.represents, not_outline]
  refine sameOutcome_ofScalar (fun _ => isScalar_of_not) fun number hfloat => ?_
  cases operand <;> cases hfloat

/-! ### Builtins -/

theorem outlines_of_represents {args : List Value} {data : List Datum}
    (h : List.Forall₂ heap.Represents args data) :
    data.map Datum.outline = args.map outline := by
  induction h with
  | nil => rfl
  | cons hfirst _ ih => rw [List.map_cons, List.map_cons, outline_of_represents hfirst, ih]

theorem datum_builtin_outline {op : Builtin} {data : List Datum}
    (hlists : ¬ HandlesList op (data.map Datum.outline)) :
    Datum.builtin op data = (builtin {} default op (data.map Datum.outline)).map
      fun result => Datum.ofScalar result.1 := by
  unfold Datum.builtin builtin
  rw [List.length_map]
  split
  · match data with
    | [] => rfl
    | [operand] =>
      show Datum.builtinSingle op operand = (builtinSingle {} op operand.outline).map _
      unfold Datum.builtinSingle
      split
      · exact absurd (.tail _) hlists
      · exact absurd (.len _) hlists
      · exact absurd (.peek _) hlists
      · rfl
    | [left, right] =>
      show Datum.builtinPair op left right =
        (builtinPair {} default op left.outline right.outline).map _
      unfold Datum.builtinPair
      split
      · exact absurd (.nth _ _) hlists
      · exact absurd (.cons _ _) hlists
      · exact absurd (.app _ _) hlists
      · rfl
    | _ :: _ :: _ :: _ => rfl
  · rfl

structure Yields (heap : ListHeap) (result : Value × ListHeap) (datum : Datum) : Prop where
  wellFormed : result.2.WellFormed
  grows : heap.Extends result.2
  realizes : result.2.Realizes result.1 datum

section Builtins

variable (hheap : heap.WellFormed) {data : List Datum} {list : Handle} {op : Builtin}
include hheap

theorem yields_unchanged (h : heap.Realizes operand operandDatum) :
    Yields heap (operand, heap) operandDatum :=
  ⟨hheap, .refl heap, h⟩

theorem yields_scalar (hscalar : IsScalar operand) (hfloat : ∀ number, operand ≠ .float number) :
    Yields heap (operand, heap) (Datum.ofScalar operand) :=
  yields_unchanged hheap (realizes_scalar hscalar hfloat)

theorem yields_listValue {made : Handle × ListHeap} {elements : List Value}
    (hmakes : heap.Makes made elements) (helements : List.Forall₂ heap.Realizes elements data) :
    Yields heap (listValue made) (.list data) :=
  ⟨hmakes.wellFormed, hmakes.grows, realizes_of_makes hheap hmakes helements⟩

omit hheap in
theorem realizes_getD {values : List Value} (h : List.Forall₂ heap.Realizes values data)
    (position : Nat) :
    heap.Realizes (values.getD position .undefined) (data.getD position .undefined) := by
  induction h generalizing position with
  | nil => exact realizes_scalar trivial nofun
  | cons hfirst _ ih =>
    cases position with
    | zero => exact hfirst
    | succ position => exact ih position

theorem realizes_nth (h : heap.Realizes (.list list) (.list data)) (position : Int64) :
    heap.Realizes (heap.nth list position) (Datum.nth data position) := by
  obtain ⟨elements, hdenotes, helements⟩ := h.exists_elements hheap
  rw [hdenotes.nth_eq, Datum.nth, helements.length_eq]
  split
  · exact realizes_getD helements _
  · exact realizes_scalar trivial nofun

theorem realizes_peek (h : heap.Realizes (.list list) (.list data)) :
    heap.Realizes (heap.peek list) (data.headD .undefined) := by
  obtain ⟨elements, hdenotes, helements⟩ := h.exists_elements hheap
  rw [hdenotes.peek_eq]
  cases helements with
  | nil => exact realizes_scalar trivial nofun
  | cons hfirst _ => exact hfirst

theorem yields_cons (hvalue : heap.Realizes operand operandDatum)
    (h : heap.Realizes (.list list) (.list data)) :
    Yields heap (listValue (heap.cons operand list)) (.list (operandDatum :: data)) := by
  obtain ⟨elements, hdenotes, helements⟩ := h.exists_elements hheap
  exact yields_listValue hheap (makes_cons hheap hvalue.represents.supports hdenotes)
    (.cons hvalue helements)

theorem yields_append (hvalue : heap.Realizes operand operandDatum)
    (h : heap.Realizes (.list list) (.list data)) :
    Yields heap (listValue (heap.append lease list operand)) (.list (data ++ [operandDatum])) := by
  obtain ⟨elements, hdenotes, helements⟩ := h.exists_elements hheap
  exact yields_listValue hheap (makes_append hheap lease hvalue.represents.supports hdenotes)
    (List.rel_append helements (.cons hvalue .nil))

theorem yields_tail (h : heap.Realizes (.list list) (.list data)) :
    Yields heap (listValue (heap.tail list)) (.list data.tail) := by
  obtain ⟨elements, hdenotes, helements⟩ := h.exists_elements hheap
  refine yields_listValue hheap (makes_tail hheap hdenotes) ?_
  cases helements with
  | nil => exact .nil
  | cons _ hrest => exact hrest

theorem sameOutcome_of_handlesList {args : List Value} (hlists : HandlesList op args)
    (hargs : List.Forall₂ heap.Realizes args data) :
    SameOutcome (Yields heap) (builtin heap lease op args) (Datum.builtin op data) := by
  have hlist : ∀ {list datum}, heap.Realizes (.list list) datum → ∃ elements,
      datum = .list elements ∧ heap.Realizes (.list list) (.list elements) := by
    intro list datum h
    obtain ⟨_, elements, -, rfl⟩ | ⟨hscalar, -⟩ := h.cases
    · exact ⟨elements, rfl, h⟩
    · exact hscalar.elim
  cases hlists with
  | nth list position =>
    obtain _ | ⟨h, _ | ⟨hposition, ⟨⟩⟩⟩ := hargs
    obtain ⟨elements, rfl, h⟩ := hlist h
    obtain ⟨_, _, ⟨⟩, -⟩ | ⟨-, rfl, -⟩ := hposition.cases
    exact .ok (yields_unchanged hheap (realizes_nth hheap h position))
  | cons value list =>
    obtain _ | ⟨hvalue, _ | ⟨h, ⟨⟩⟩⟩ := hargs
    obtain ⟨elements, rfl, h⟩ := hlist h
    exact .ok (yields_cons hheap hvalue h)
  | app list value =>
    obtain _ | ⟨h, _ | ⟨hvalue, ⟨⟩⟩⟩ := hargs
    obtain ⟨elements, rfl, h⟩ := hlist h
    exact .ok (yields_append hheap hvalue h)
  | tail list =>
    obtain _ | ⟨h, ⟨⟩⟩ := hargs
    obtain ⟨elements, rfl, h⟩ := hlist h
    exact .ok (yields_tail hheap h)
  | len list =>
    obtain _ | ⟨h, ⟨⟩⟩ := hargs
    obtain ⟨data, rfl, h⟩ := hlist h
    obtain ⟨elements, hdenotes, helements⟩ := h.exists_elements hheap
    have hlength : heap.length list = data.length :=
      hdenotes.length_eq.trans helements.length_eq
    show SameOutcome _ (.ok (.int (Int64.ofNat (heap.length list)), heap) : HeapOutcome) _
    rw [hlength]
    exact .ok (yields_scalar hheap trivial nofun)
  | peek list =>
    obtain _ | ⟨h, ⟨⟩⟩ := hargs
    obtain ⟨elements, rfl, h⟩ := hlist h
    exact .ok (yields_unchanged hheap (realizes_peek hheap h))

theorem sameOutcome_builtin (hop : op ≠ .asFloat) {args : List Value}
    (hargs : List.Forall₂ heap.Realizes args data) :
    SameOutcome (Yields heap) (builtin heap lease op args) (Datum.builtin op data) := by
  by_cases hlists : HandlesList op args
  · exact sameOutcome_of_handlesList hheap hlists hargs
  have houtlines : data.map Datum.outline = args.map outline :=
    outlines_of_represents (hargs.imp fun _ _ => Realizes.represents)
  have hplain : ¬ HandlesList op (data.map Datum.outline) := by
    rwa [houtlines, handlesList_map_outline]
  have hvalue : builtin heap lease op args = _ := builtin_outline hlists
  rw [datum_builtin_outline hplain, houtlines, hvalue]
  cases hresult : builtin {} default op (args.map outline) with
  | error error => exact .error error
  | ok result =>
    rw [hresult] at hvalue
    obtain ⟨hscalar, -, hfloat⟩ := computes_of_builtin hlists hvalue
    refine .ok (yields_scalar hheap hscalar fun number hnumber => ?_)
    obtain hasFloat | ⟨x, hx⟩ := hfloat number hnumber
    · exact hop hasFloat
    · obtain ⟨datum, -, hrealizes⟩ := exists_mem_of_forall₂ hargs hx
      exact not_float_of_realizes hrealizes x rfl

end Builtins

end AbstractStateMachine.Operation
