import AbstractStateMachine.Proofs.Plain.Operation
import AbstractStateMachine.Proofs.Renaming.Basic

/-!
# Operations on renamed values

Operators and builtins give the same on renamed values, up to the names of lists, or the same error.
-/

namespace AbstractStateMachine

open ListHeap Operation

variable {pairing : Pairing} {lease lease' : Lease} {left right operand left' right' other : Value}

theorem Value.Renames.outline_eq {names : Handle → Handle → Prop}
    (h : operand.Renames names other) : outline other = outline operand := by
  cases h <;> rfl

theorem outlines_of_renames {names : Handle → Handle → Prop} {values others : List Value}
    (h : List.Forall₂ (Value.Renames names) values others) :
    others.map outline = values.map outline := by
  induction h with
  | nil => rfl
  | cons hfirst _ ih => rw [List.map_cons, List.map_cons, hfirst.outline_eq, ih]

namespace Pairing

def Yields (pairing : Pairing) (result result' : Value × ListHeap) : Prop :=
  ∃ later : Pairing, pairing.Later later ∧ later.heap = result.2 ∧ later.image = result'.2 ∧
    result.1.Renames later.names result'.1

theorem yields_unchanged (h : operand.Renames pairing.names other) :
    pairing.Yields (operand, pairing.heap) (other, pairing.image) :=
  ⟨pairing, later_refl pairing, rfl, rfl, h⟩

theorem Pairs.yields {made made' : Handle × ListHeap} (h : pairing.Pairs made made') :
    pairing.Yields (listValue made) (listValue made') := by
  obtain ⟨later, hlater, hheap, himage, hnames⟩ := h
  exact ⟨later, hlater, hheap, himage, .list hnames⟩

/-! ### Operators -/

theorem sameOutcome_ofScalar {outcome : Outcome}
    (hscalar : ∀ value, outcome = .ok value → IsScalar value) :
    SameOutcome (Value.Renames pairing.names) outcome outcome := by
  cases outcome with
  | error error => exact .error error
  | ok value => exact .ok (.scalar (hscalar value rfl))

theorem sameOutcome_binary (hleft : left.Renames pairing.names left')
    (hright : right.Renames pairing.names right') (op : BinaryOp) :
    SameOutcome (Value.Renames pairing.names) (binary pairing.heap op left right)
      (binary pairing.image op left' right') := by
  have hequal := pairing.renames.equal_eq hleft hright
  by_cases heq : op = .eq
  · subst heq
    rw [binary, binary, hequal]
    exact .ok (.scalar trivial)
  by_cases hne : op = .ne
  · subst hne
    rw [binary, binary, hequal]
    exact .ok (.scalar trivial)
  have hsame : binary pairing.image op left' right' = binary pairing.heap op left right := by
    rw [← binary_outline heq hne, hleft.outline_eq, hright.outline_eq, binary_outline heq hne]
  rw [hsame]
  exact sameOutcome_ofScalar fun _ => isScalar_of_binary

theorem sameOutcome_not (h : operand.Renames pairing.names other) :
    SameOutcome (Value.Renames pairing.names) (not operand) (not other) := by
  have hsame : not other = not operand := by rw [← not_outline, h.outline_eq, not_outline]
  rw [hsame]
  exact sameOutcome_ofScalar fun _ => isScalar_of_not

/-! ### Builtins -/

theorem renames_getD {names : Handle → Handle → Prop} {values others : List Value}
    (h : List.Forall₂ (Value.Renames names) values others) (position : Nat) :
    (values.getD position .undefined).Renames names (others.getD position .undefined) := by
  induction h generalizing position with
  | nil => exact .scalar trivial
  | cons hfirst _ ih =>
    cases position with
    | zero => exact hfirst
    | succ position => exact ih position

section Lists

variable {list list' : Handle} (hlist : pairing.names list list')
include hlist

theorem length_eq : pairing.image.length list' = pairing.heap.length list := by
  obtain ⟨elements, elements', hdenotes, hdenotes', helements⟩ := exists_elements hlist
  rw [hdenotes.length_eq, hdenotes'.length_eq, helements.length_eq]

theorem renames_peek :
    (pairing.heap.peek list).Renames pairing.names (pairing.image.peek list') := by
  obtain ⟨elements, elements', hdenotes, hdenotes', helements⟩ := exists_elements hlist
  rw [hdenotes.peek_eq, hdenotes'.peek_eq]
  cases helements with
  | nil => exact .scalar trivial
  | cons hfirst _ => exact hfirst

theorem renames_nth (position : Int64) :
    (pairing.heap.nth list position).Renames pairing.names (pairing.image.nth list' position) := by
  obtain ⟨elements, elements', hdenotes, hdenotes', helements⟩ := exists_elements hlist
  rw [hdenotes.nth_eq, hdenotes'.nth_eq, helements.length_eq]
  split
  · exact renames_getD helements _
  · exact .scalar trivial

end Lists

theorem sameOutcome_of_handlesList {op : Builtin} {args others : List Value}
    (hlists : HandlesList op args)
    (hargs : List.Forall₂ (Value.Renames pairing.names) args others) :
    SameOutcome pairing.Yields (builtin pairing.heap lease op args)
      (builtin pairing.image lease' op others) := by
  have hlist : ∀ {list other}, Value.Renames pairing.names (.list list) other →
      ∃ list', other = .list list' ∧ pairing.names list list' := by
    rintro list _ (⟨⟨⟩⟩ | ⟨hlist⟩)
    exact ⟨_, rfl, hlist⟩
  cases hlists with
  | nth list position =>
    obtain _ | ⟨h, _ | ⟨hposition, ⟨⟩⟩⟩ := hargs
    obtain ⟨list', rfl, hnames⟩ := hlist h
    cases hposition
    exact .ok (yields_unchanged (renames_nth hnames position))
  | cons value list =>
    obtain _ | ⟨hvalue, _ | ⟨h, ⟨⟩⟩⟩ := hargs
    obtain ⟨list', rfl, hnames⟩ := hlist h
    exact .ok (pairs_cons hnames hvalue).yields
  | app list value =>
    obtain _ | ⟨h, _ | ⟨hvalue, ⟨⟩⟩⟩ := hargs
    obtain ⟨list', rfl, hnames⟩ := hlist h
    exact .ok (pairs_append hnames hvalue lease lease').yields
  | tail list =>
    obtain _ | ⟨h, ⟨⟩⟩ := hargs
    obtain ⟨list', rfl, hnames⟩ := hlist h
    exact .ok (pairs_tail hnames).yields
  | len list =>
    obtain _ | ⟨h, ⟨⟩⟩ := hargs
    obtain ⟨list', rfl, hnames⟩ := hlist h
    show SameOutcome pairing.Yields
      (.ok (.int (Int64.ofNat (pairing.heap.length list)), pairing.heap) : HeapOutcome)
      (.ok (.int (Int64.ofNat (pairing.image.length list')), pairing.image))
    rw [length_eq hnames]
    exact .ok (yields_unchanged (.scalar trivial))
  | peek list =>
    obtain _ | ⟨h, ⟨⟩⟩ := hargs
    obtain ⟨list', rfl, hnames⟩ := hlist h
    exact .ok (yields_unchanged (renames_peek hnames))

theorem sameOutcome_builtin (op : Builtin) {args others : List Value}
    (hargs : List.Forall₂ (Value.Renames pairing.names) args others) :
    SameOutcome pairing.Yields (builtin pairing.heap lease op args)
      (builtin pairing.image lease' op others) := by
  by_cases hlists : HandlesList op args
  · exact sameOutcome_of_handlesList hlists hargs
  have houtlines := outlines_of_renames hargs
  have hothers : ¬ HandlesList op others := by
    rwa [← handlesList_map_outline, houtlines, handlesList_map_outline]
  have hvalue : builtin pairing.heap lease op args = _ := builtin_outline hlists
  rw [builtin_outline hothers, houtlines, hvalue]
  cases hresult : builtin {} default op (args.map outline) with
  | error error => exact .error error
  | ok result =>
    rw [hresult] at hvalue
    exact .ok (yields_unchanged (.scalar (computes_of_builtin hlists hvalue).scalar))

end Pairing

end AbstractStateMachine
