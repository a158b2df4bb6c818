import AbstractStateMachine.Proofs.Machine.Computation
import AbstractStateMachine.Proofs.Symbolic.Entailment
import AbstractStateMachine.Symbolic.Script
import Mathlib.Algebra.Group.Nat.Defs
import Mathlib.Data.Int.Lemmas
import Mathlib.Tactic.Common

/-!
# What definitions mean

An operation of which an operand is a symbol is not computed. Its result is a new symbol, and the
trace defines it by a function of the integers that the prover knows by name. Sums, differences and
products are defined as they are computed, but quotients and remainders are defined as Euclidean
ones, by zero as the prover likes, and computed by truncation. `computes_as_defined_iff` says
exactly when the two agree.
-/

namespace AbstractStateMachine

/-! ### Functions of the prover -/

/-- What an integer divided by zero gives: the theory of integers leaves it open. -/
structure ZeroDivision where
  quotient : Int → Int
  remainder : Int → Int

namespace ZeroDivision

def div (byZero : ZeroDivision) (x y : Int) : Int := if y = 0 then byZero.quotient x else x / y

def mod (byZero : ZeroDivision) (x y : Int) : Int := if y = 0 then byZero.remainder x else x % y

end ZeroDivision

/-- The functions that definitions refer to, under their names in the trace and in the script. With
a positive or a negative divisor, Euclidean division leaves a remainder that is not negative. -/
def proverFunction? (byZero : ZeroDivision) : String → Option (Int → Int → Int)
  | "$sum" | "+" => some (· + ·)
  | "$difference" | "-" => some (· - ·)
  | "$product" | "*" => some (· * ·)
  | "$quotient_e" | "div" => some byZero.div
  | "$remainder_e" | "mod" => some byZero.mod
  | _ => none

def IsEuclideanDivision (x y quotient remainder : Int) : Prop :=
  remainder + y * quotient = x ∧ 0 ≤ remainder ∧ remainder < |y|

theorem isEuclideanDivision_iff {x y quotient remainder : Int} (h : y ≠ 0) :
    IsEuclideanDivision x y quotient remainder ↔ quotient = x / y ∧ remainder = x % y := by
  rw [IsEuclideanDivision, ← Int.ediv_emod_unique'' h]
  exact and_congr eq_comm eq_comm

def BinaryOp.isDivision : BinaryOp → Bool
  | .div | .mod => true
  | _ => false

namespace DefinitionOp

variable (byZero : ZeroDivision)

def Gives : DefinitionOp → Int → Int → Int → Prop
  | sum, x, y, result => result = x + y
  | difference, x, y, result => result = x - y
  | product, x, y, result => result = x * y
  | quotient, x, y, result =>
    if y = 0 then result = byZero.quotient x else ∃ rest, IsEuclideanDivision x y result rest
  | remainder, x, y, result =>
    if y = 0 then result = byZero.remainder x else ∃ times, IsEuclideanDivision x y times result

def meaning : DefinitionOp → Int → Int → Int
  | sum, x, y => x + y
  | difference, x, y => x - y
  | product, x, y => x * y
  | quotient, x, y => byZero.div x y
  | remainder, x, y => byZero.mod x y

theorem gives_iff (op : DefinitionOp) (x y result : Int) :
    op.Gives byZero x y result ↔ result = op.meaning byZero x y := by
  cases op with
  | quotient =>
    rw [Gives, meaning, ZeroDivision.div]
    split
    · rfl
    · next hzero =>
        simp only [isEuclideanDivision_iff hzero, exists_and_left, exists_eq, and_true]
  | remainder =>
    rw [Gives, meaning, ZeroDivision.mod]
    split
    · rfl
    · next hzero =>
        simp only [isEuclideanDivision_iff hzero, exists_and_right, exists_eq, true_and]
  | _ => rfl

theorem proverFunction?_name (op : DefinitionOp) :
    proverFunction? byZero op.name = some (op.meaning byZero) := by
  cases op <;> rfl

theorem proverFunction?_operator (op : DefinitionOp) :
    proverFunction? byZero (Script.operator op) = some (op.meaning byZero) := by
  cases op <;> rfl

theorem exists_of_isArithmetic {op : BinaryOp} (h : op.isArithmetic = true) :
    ∃ definition, ofBinaryOp? op = some definition := by
  cases op <;> first | exact ⟨_, rfl⟩ | cases h

end DefinitionOp

namespace Term

/-- The integer a term stands for, if it stands for one. -/
def meaning (assignment : Assignment) : Term → Option Int
  | .int value => some value.toInt
  | .symbol id => some (assignment id)
  | .bool _ | .undefined | .text _ => none

end Term

theorem Machine.meaning_term (setting : Setting) (machine : Machine) (assignment : Assignment)
    (value : Value) :
    (machine.term setting value).meaning assignment = value.meaning assignment := by
  cases value <;> rfl

namespace TraceEntry

variable (byZero : ZeroDivision) (assignment : Assignment)

/-- The symbol that an entry defines, with the value that the definition gives to it. -/
def defined? : TraceEntry → Option (Nat × Int)
  | .definition _ symbol op lhs rhs => do
    return (symbol, op.meaning byZero (← lhs.meaning assignment) (← rhs.meaning assignment))
  | .declare _ | .state _ _ _ _ _ | .condition _ _ _ _ => none

/-- A symbol that is defined in terms of integers has a value that the definition gives to it. -/
def SatisfiedBy : TraceEntry → Prop
  | .definition _ symbol op lhs rhs =>
    ∀ x ∈ lhs.meaning assignment, ∀ y ∈ rhs.meaning assignment,
      op.Gives byZero x y (assignment symbol)
  | .declare _ | .state _ _ _ _ _ | .condition _ _ _ _ => True

theorem satisfiedBy_iff (entry : TraceEntry) : entry.SatisfiedBy byZero assignment ↔
    ∀ defined ∈ entry.defined? byZero assignment, assignment defined.1 = defined.2 := by
  cases entry with
  | definition _ symbol op lhs rhs =>
    unfold SatisfiedBy defined?
    simp only [op.gives_iff byZero]
    cases lhs.meaning assignment <;> cases rhs.meaning assignment <;> simp
  | _ => exact iff_of_true trivial nofun

end TraceEntry

/-! ### Integers in range -/

namespace Integer

theorem bmod_eq_of_inRange {n : Int} (h : inRange n = true) : n.bmod (2 ^ 64) = n := by
  obtain ⟨hlow, hhigh⟩ := Bool.and_eq_true_iff.mp h
  have hmin : Int64.minValue.toInt = -2 ^ 63 := rfl
  have hmax : Int64.maxValue.toInt = 2 ^ 63 - 1 := rfl
  have hlow := of_decide_eq_true hlow
  have hhigh := of_decide_eq_true hhigh
  exact Int.bmod_eq_of_le (by omega) (by omega)

/-- The truncated quotient wraps around for one pair of operands only, for which the exact quotient
is out of range. -/
theorem toInt_div_eq_iff {x y : Int64} (hy : y.toInt ≠ 0)
    (hfits : inRange (x.toInt / y.toInt) = true) :
    (x / y).toInt = x.toInt / y.toInt ↔ 0 ≤ x.toInt ∨ y.toInt ∣ x.toInt := by
  rw [Int64.toInt_div, Int.tdiv_eq_ediv]
  split
  · next hexact =>
      rw [Int.add_zero, bmod_eq_of_inRange hfits]
      exact iff_of_true rfl hexact
  · next hexact =>
      refine iff_of_false (fun heq => ?_) hexact
      have hmod := congrArg (· % (2 ^ 64 : Int)) heq
      have hcongr := Int.bmod_emod (x := x.toInt / y.toInt + y.toInt.sign) (m := 2 ^ 64)
      have hsign : y.toInt.sign = 1 ∨ y.toInt.sign = -1 := by
        rcases Int.lt_or_gt_of_ne hy with hneg | hpos
        · exact .inr (Int.sign_eq_neg_one_of_neg hneg)
        · exact .inl (Int.sign_eq_one_of_pos hpos)
      omega

theorem toInt_mod_eq_iff {x y : Int64} (hy : y.toInt ≠ 0) :
    (x % y).toInt = x.toInt % y.toInt ↔ 0 ≤ x.toInt ∨ y.toInt ∣ x.toInt := by
  rw [Int64.toInt_mod, Int.tmod_eq_emod]
  split
  · next hexact => exact iff_of_true (Int.sub_zero _) hexact
  · next hexact =>
      refine iff_of_false (fun heq => ?_) hexact
      have hpos := Int.natAbs_pos.mpr hy
      omega

end Integer

/-! ### Computing and defining -/

namespace Operation

variable {op : BinaryOp} {definition : DefinitionOp} {x y : Int64}

theorem exists_integerArithmetic {byZero : ZeroDivision}
    (hdefinition : DefinitionOp.ofBinaryOp? op = some definition)
    (hdivisor : op.isDivision = true → y ≠ 0)
    (hfits : Integer.inRange (definition.meaning byZero x.toInt y.toInt) = true) :
    ∃ result, integerArithmetic op x y = some (.int result) ∧
      (result.toInt = definition.meaning byZero x.toInt y.toInt ↔
        (op.isDivision = true → 0 ≤ x.toInt ∨ y.toInt ∣ x.toInt)) := by
  have hwraps := Integer.bmod_eq_of_inRange hfits
  have hnonzero : op.isDivision = true → y.toInt ≠ 0 := fun hdivision hzero =>
    hdivisor hdivision (Int64.toInt_inj.mp hzero)
  cases op <;> cases hdefinition
  case add => exact ⟨x + y, rfl, iff_of_true ((Int64.toInt_add x y).trans hwraps) nofun⟩
  case sub => exact ⟨x - y, rfl, iff_of_true ((Int64.toInt_sub x y).trans hwraps) nofun⟩
  case mul => exact ⟨x * y, rfl, iff_of_true ((Int64.toInt_mul x y).trans hwraps) nofun⟩
  case div =>
    have hdiv : byZero.div x.toInt y.toInt = x.toInt / y.toInt := if_neg (hnonzero rfl)
    rw [DefinitionOp.meaning, hdiv] at hfits ⊢
    refine ⟨x / y, congrArg some (if_neg (hdivisor rfl)), ?_⟩
    exact (Integer.toInt_div_eq_iff (hnonzero rfl) hfits).trans ⟨fun h _ => h, fun h => h rfl⟩
  case mod =>
    have hmod : byZero.mod x.toInt y.toInt = x.toInt % y.toInt := if_neg (hnonzero rfl)
    rw [DefinitionOp.meaning, hmod]
    refine ⟨x % y, congrArg some (if_neg (hdivisor rfl)), ?_⟩
    exact (Integer.toInt_mod_eq_iff (hnonzero rfl)).trans ⟨fun h _ => h, fun h => h rfl⟩

theorem binary_of_integerArithmetic (hdefinition : DefinitionOp.ofBinaryOp? op = some definition)
    {result : Value} (h : integerArithmetic op x y = some result) (heap : ListHeap) :
    binary heap op (.int x) (.int y) = .ok result := by
  cases op <;> cases hdefinition <;> cases h <;> rfl

end Operation

namespace Run

theorem binary_of_definition (setting : Setting) (machine : Machine) {op : BinaryOp}
    {definition : DefinitionOp} (hdefinition : DefinitionOp.ofBinaryOp? op = some definition)
    {left right : Value} (hsymbolic : (left.isSymbolic || right.isSymbolic) = true)
    (hdefined : (left.isUndefined || right.isUndefined) = false) :
    binary setting op left right machine =
      (.ok (.symbol (machine.recorder.lastSymbol + 1)),
        { machine with
          recorder := (machine.recorder.define definition (machine.term setting left)
            (machine.term setting right)).2 }) := by
  rw [binary, if_pos hsymbolic, symbolicBinary, hdefined, Bool.and_false, if_neg Bool.false_ne_true,
    get_bind_apply, hdefinition]
  rfl

end Run

theorem isUndefined_eq_false_of_meaning {assignment : Assignment} {value : Value} {n : Int}
    (h : value.meaning assignment = some n) : value.isUndefined = false := by
  cases value <;> first | rfl | cases h

/-- **Operators compute what definitions say, but for the rounding of divisions.** An operation of
which an operand is a symbol adds a definition to the trace. If the operands stand for `x` and `y`,
the definition gives to the new symbol what the operator computes on `x` and `y` exactly if the
operation is not a division, or the dividend is not negative, or the divisor divides it. -/
theorem computes_as_defined_iff (setting : Setting) (machine : Machine) (op : BinaryOp)
    (left right : Value) (byZero : ZeroDivision) (assignment : Assignment) (x y : Int64)
    (hop : op.isArithmetic = true)
    (hsymbolic : (left.isSymbolic || right.isSymbolic) = true)
    (hleft : left.meaning assignment = some x.toInt)
    (hright : right.meaning assignment = some y.toInt)
    (hdivisor : op.isDivision = true → y ≠ 0) :
    ∃ definition, DefinitionOp.ofBinaryOp? op = some definition ∧
      proverFunction? byZero definition.name = some (definition.meaning byZero) ∧
      proverFunction? byZero (Script.operator definition) = some (definition.meaning byZero) ∧
      (Integer.inRange (definition.meaning byZero x.toInt y.toInt) = true →
        ∃ symbol entry next result,
          Run.binary setting op left right machine = (.ok (.symbol symbol), next) ∧
          next.recorder.trace = (machine.recorder.trace.push (.declare symbol)).push entry ∧
          entry.defined? byZero assignment =
            some (symbol, definition.meaning byZero x.toInt y.toInt) ∧
          (∀ heap, Operation.binary heap op (.int x) (.int y) = .ok (.int result)) ∧
          (result.toInt = definition.meaning byZero x.toInt y.toInt ↔
            (op.isDivision = true → 0 ≤ x.toInt ∨ y.toInt ∣ x.toInt))) := by
  obtain ⟨definition, hdefinition⟩ := DefinitionOp.exists_of_isArithmetic hop
  refine ⟨definition, hdefinition, definition.proverFunction?_name byZero,
    definition.proverFunction?_operator byZero, fun hfits => ?_⟩
  have hdefined : (left.isUndefined || right.isUndefined) = false := by
    rw [isUndefined_eq_false_of_meaning hleft, isUndefined_eq_false_of_meaning hright, Bool.or_self]
  obtain ⟨result, hresult, hagrees⟩ :=
    Operation.exists_integerArithmetic hdefinition hdivisor hfits
  refine ⟨_, _, _, result,
    Run.binary_of_definition setting machine hdefinition hsymbolic hdefined, rfl, ?_,
    Operation.binary_of_integerArithmetic hdefinition hresult, hagrees⟩
  rw [TraceEntry.defined?, Machine.meaning_term, Machine.meaning_term, hleft, hright]
  rfl

/-- A symbol that stands for `7`, divided by `-2`: defined and computed as `-3`. -/
theorem computes_as_defined_of_negative_divisor :
    let byZero : ZeroDivision := ⟨id, id⟩
    ∃ symbol entry next,
      Run.binary { spec := {}, symbolic := true } .div (.symbol 1) (.int (-2))
        (.new { spec := {} }) = (.ok (.symbol symbol), next) ∧
      next.recorder.trace = #[.declare symbol, entry] ∧
      entry.defined? byZero (fun _ => 7) = some (symbol, -3) ∧
      ∀ heap, Operation.binary heap .div (.int 7) (.int (-2)) = .ok (.int (-3)) := by
  obtain ⟨_, ⟨⟩, _, _, hcomputes⟩ := computes_as_defined_iff { spec := {}, symbolic := true }
    (.new { spec := {} }) .div (.symbol 1) (.int (-2)) ⟨id, id⟩ (fun _ => 7) 7 (-2) rfl rfl rfl rfl
    (by decide)
  obtain ⟨symbol, entry, next, result, hruns, htrace, hdefined, hcomputed, hagrees⟩ :=
    hcomputes (by decide)
  have hresult : result = -3 :=
    Int64.toInt_inj.mp (hagrees.mpr fun _ => .inl (by decide))
  exact ⟨symbol, entry, next, hruns, htrace, hdefined, hresult ▸ hcomputed⟩

/-- The quotient of a symbol that stands for `-7` by two. The definition gives `-4` to it, and the
operator computes `-3`. -/
theorem quotient_of_negative_not_computed_as_defined :
    (∀ setting machine byZero, ∃ symbol entry next,
      Run.binary setting .div (.symbol 1) (.int 2) machine = (.ok (.symbol symbol), next) ∧
      next.recorder.trace = (machine.recorder.trace.push (.declare symbol)).push entry ∧
      entry.defined? byZero (fun _ => -7) = some (symbol, -4)) ∧
    Integer.inRange (-4) = true ∧
    ∀ heap, Operation.binary heap .div (.int (-7)) (.int 2) = .ok (.int (-3)) :=
  ⟨fun setting machine _ =>
      ⟨_, _, _, Run.binary_of_definition setting machine rfl rfl rfl, rfl, rfl⟩,
    by decide, fun _ => rfl⟩

end AbstractStateMachine
