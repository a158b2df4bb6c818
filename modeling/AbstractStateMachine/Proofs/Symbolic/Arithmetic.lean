import AbstractStateMachine.Proofs.Backend.Closure
import AbstractStateMachine.Proofs.Symbolic.CaseSelection
import AbstractStateMachine.Proofs.Symbolic.Definitions

/-!
# Symbolic arithmetic is exact

Sums, differences and products are computed while all operands are known; as soon as one is a
symbol, the result is a new symbol that the trace defines. Every value that such an expression takes
stands for the exact integer that its leaves determine, under all assignments that satisfy the
definitions, provided that no computation on known integers leaves their range. A comparison that
remains open is one of the exact integers.
-/

namespace AbstractStateMachine

/-! ### Exact operations -/

namespace BinaryOp

def onIntegers? : BinaryOp → Option (Int → Int → Int)
  | add => some (· + ·)
  | sub => some (· - ·)
  | mul => some (· * ·)
  | _ => none

def Compares : BinaryOp → Int → Int → Prop
  | eq, x, y => x = y
  | ne, x, y => x ≠ y
  | lt, x, y => x < y
  | gt, x, y => y < x
  | le, x, y => x ≤ y
  | ge, x, y => y ≤ x
  | _, _, _ => False

theorem exists_of_onIntegers? {op : BinaryOp} {operation : Int → Int → Int}
    (h : op.onIntegers? = some operation) :
    ∃ definition, DefinitionOp.ofBinaryOp? op = some definition ∧
      (∀ byZero, definition.meaning byZero = operation) ∧ op.isDivision = false := by
  cases op <;> cases h
  case add => exact ⟨.sum, rfl, fun _ => rfl, rfl⟩
  case sub => exact ⟨.difference, rfl, fun _ => rfl, rfl⟩
  case mul => exact ⟨.product, rfl, fun _ => rfl, rfl⟩

end BinaryOp

namespace Value

theorem IsInteger.eq_int {value : Value} (h : value.IsInteger) (hknown : value.isSymbolic = false) :
    ∃ n, value = .int n := by
  cases value with
  | int n => exact ⟨n, rfl⟩
  | symbol | verdict => cases hknown
  | _ => cases h

theorem IsInteger.isUndefined {value : Value} (h : value.IsInteger) :
    value.isUndefined = false := by
  cases value <;> first | rfl | cases h

end Value

namespace Condition

variable {assignment : Assignment} {left right : Value} {x y : Int}

theorem holds_less_iff (hleft : left.meaning assignment = some x)
    (hright : right.meaning assignment = some y) : (less left right).Holds assignment ↔ x < y := by
  unfold less
  cases hbound : right.int?.bind Integer.pred? with
  | none => exact holds_iff_of_meaning hright hleft
  | some bound =>
    obtain ⟨constant, rfl, hconstant⟩ := exists_of_int?_bind_pred? hbound
    exact (holds_pred_iff hconstant left).1.trans (holds_iff_of_meaning hright hleft)

theorem holds_greaterEq_iff (hleft : left.meaning assignment = some x)
    (hright : right.meaning assignment = some y) :
    (greaterEq left right).Holds assignment ↔ y ≤ x := by
  unfold greaterEq
  cases hbound : right.int?.bind Integer.pred? with
  | none => exact holds_iff_of_meaning hright hleft
  | some bound =>
    obtain ⟨constant, rfl, hconstant⟩ := exists_of_int?_bind_pred? hbound
    exact (holds_pred_iff hconstant left).2.trans (holds_iff_of_meaning hright hleft)

theorem holds_ofComparison?_iff {op : BinaryOp} {cond : Condition}
    (hcond : ofComparison? op left right = some cond)
    (hleft : left.meaning assignment = some x) (hright : right.meaning assignment = some y) :
    cond.Holds assignment ↔ op.Compares x y := by
  cases op <;> cases hcond <;> rw [holds_normalize_iff]
  case eq | ne | gt | le => exact holds_iff_of_meaning hleft hright
  case lt => exact holds_less_iff hleft hright
  case ge => exact holds_greaterEq_iff hleft hright

end Condition

/-! ### Entries of the trace -/

/-- The assignment gives to every symbol a value that it is defined to have. -/
def Recorder.Satisfied (recorder : Recorder) (byZero : ZeroDivision) (assignment : Assignment) :
    Prop :=
  ∀ entry ∈ recorder.trace, entry.SatisfiedBy byZero assignment

instance (recorder : Recorder) (byZero : ZeroDivision) (assignment : Assignment) :
    Decidable (recorder.Satisfied byZero assignment) :=
  haveI (entry : TraceEntry) : Decidable (entry.SatisfiedBy byZero assignment) :=
    decidable_of_iff' _ (entry.satisfiedBy_iff byZero assignment)
  inferInstanceAs (Decidable (∀ entry ∈ recorder.trace, entry.SatisfiedBy byZero assignment))

namespace Recorder

variable {recorder : Recorder} {entry : TraceEntry}

theorem mem_trace_create (h : entry ∈ recorder.trace) (key : LocationKey)
    (location : TrackedLocation) : entry ∈ (recorder.create key location).trace := by
  have hfold (times : List Nat) : entry ∈ (times.foldl (fun recorder time =>
      recorder.reportAt location (.at time)) recorder).trace := by
    induction times generalizing recorder with
    | nil => exact h
    | cons time rest ih => exact ih (Array.mem_push_of_mem _ h)
  exact hfold _

theorem mem_trace_define (h : entry ∈ recorder.trace) (op : DefinitionOp) (lhs rhs : Term) :
    entry ∈ (recorder.define op lhs rhs).2.trace :=
  Array.mem_push_of_mem _ (Array.mem_push_of_mem _ h)

end Recorder

namespace Run

variable {setting : Setting} {α β : Type} {machine middle next : Machine} {fuel : Nat}

theorem lasts_mem_trace (entry : TraceEntry) :
    Recorder.Lasts fun recorder => entry ∈ recorder.trace where
  fresh h := Array.mem_push_of_mem _ h
  define op lhs rhs h := Recorder.mem_trace_define h op lhs rhs
  create key location h := Recorder.mem_trace_create h key location

/-! ### Evaluation of a binary operation -/

theorem foldM_of_eval_eq_ok {expr : Expr} {value : Value}
    (h : eval setting (fuel + 1) expr machine = (.ok value, next)) :
    expr.foldM (visitNode setting (eval setting fuel)) machine = (.ok (.ok value), next) := by
  obtain ⟨outcome, middle, hfold, hresult⟩ := exists_of_bind_eq_ok h
  cases outcome with
  | error fault => cases hresult
  | ok found =>
    cases hresult
    exact hfold

theorem eval_binary {left right : Expr} {x y : Value} (op : BinaryOp)
    (hleft : eval setting fuel left machine = (.ok x, middle))
    (hright : eval setting fuel right middle = (.ok y, next)) :
    eval setting fuel (.binary op left right) machine = binary setting op x y next := by
  cases fuel with
  | zero => cases hleft
  | succ fuel =>
    have hfold : (Expr.binary op left right).foldM (visitNode setting (eval setting fuel))
        machine = attempt (binary setting op x y) next := by
      rw [Expr.foldM, bind_apply, foldM_of_eval_eq_ok hleft]
      show (right.foldM (visitNode setting (eval setting fuel)) >>= _) middle = _
      rw [bind_apply, foldM_of_eval_eq_ok hright]
      rfl
    rw [eval, bind_apply, hfold]
    unfold attempt
    rcases binary setting op x y next with ⟨(fault | _) | value, last⟩ <;> rfl

/-- An operation of integers gives an integer, the exact one under all assignments that satisfy the
definitions. -/
theorem exists_binary_exact (setting : Setting) {op : BinaryOp} {operation : Int → Int → Int}
    (hop : op.onIntegers? = some operation) {left right : Value} (hleft : left.IsInteger)
    (hright : right.IsInteger)
    (hfits : ∀ x y : Int64, left = .int x → right = .int y →
      Integer.inRange (operation x.toInt y.toInt) = true) (machine : Machine) :
    ∃ value next, binary setting op left right machine = (.ok value, next) ∧ value.IsInteger ∧
      ∀ byZero assignment x y, next.recorder.Satisfied byZero assignment →
        left.meaning assignment = some x → right.meaning assignment = some y →
        value.meaning assignment = some (operation x y) := by
  obtain ⟨definition, hdefinition, hmeaning, hdivision⟩ := BinaryOp.exists_of_onIntegers? hop
  by_cases hsymbolic : (left.isSymbolic || right.isSymbolic) = true
  · have hdefined : (left.isUndefined || right.isUndefined) = false := by
      rw [hleft.isUndefined, hright.isUndefined, Bool.or_self]
    refine ⟨_, _, binary_of_definition setting machine hdefinition hsymbolic hdefined, trivial, ?_⟩
    intro byZero assignment x y hsatisfied hx hy
    rw [← Machine.meaning_term setting machine assignment] at hx hy
    have hgives := hsatisfied _ Array.mem_push_self x hx y hy
    rw [definition.gives_iff, hmeaning] at hgives
    exact congrArg some hgives
  · obtain ⟨hleftKnown, hrightKnown⟩ := Bool.or_eq_false_iff.mp (Bool.eq_false_iff.mpr hsymbolic)
    obtain ⟨x, rfl⟩ := hleft.eq_int hleftKnown
    obtain ⟨y, rfl⟩ := hright.eq_int hrightKnown
    have hexactly : ¬ op.isDivision = true := Bool.eq_false_iff.mp hdivision
    -- The operation is no division, so any interpretation of the quotients by zero will do.
    have hrange : Integer.inRange (definition.meaning ⟨id, id⟩ x.toInt y.toInt) = true := by
      rw [hmeaning]
      exact hfits x y rfl rfl
    obtain ⟨result, hresult, hexact⟩ := Operation.exists_integerArithmetic hdefinition
      (fun hdivides => absurd hdivides hexactly) hrange
    rw [hmeaning] at hexact
    refine ⟨.int result, machine, ?_, trivial, ?_⟩
    · rw [binary, if_neg hsymbolic, get_bind_apply,
        Operation.binary_of_integerArithmetic hdefinition hresult]
      rfl
    · intro byZero assignment m n _ hm hn
      cases hm
      cases hn
      exact congrArg some (hexact.mpr fun hdivides => absurd hdivides hexactly)

theorem exists_binary_comparison (setting : Setting) {op : BinaryOp}
    (hop : op.isComparison = true) {left right : Value} (hleft : left.IsInteger)
    (hright : right.IsInteger) (machine : Machine) :
    ∃ value next, binary setting op left right machine = (.ok value, next) ∧
      (value.isSymbolic = true → ∃ cond, Condition.ofVerdict? value = some cond ∧
        Condition.ofComparison? op left right = some cond) := by
  by_cases hsymbolic : (left.isSymbolic || right.isSymbolic) = true
  · have hdefined : (left.isUndefined || right.isUndefined) = false := by
      rw [hleft.isUndefined, hright.isUndefined, Bool.or_self]
    have hdefinition : DefinitionOp.ofBinaryOp? op = none := by cases op <;> first | rfl | cases hop
    obtain ⟨cond, hcond⟩ : ∃ cond, Condition.ofComparison? op left right = some cond := by
      cases op <;> first | exact ⟨_, rfl⟩ | cases hop
    rw [binary, if_pos hsymbolic, symbolicBinary, hdefined, Bool.and_false,
      if_neg Bool.false_ne_true, get_bind_apply, hdefinition]
    dsimp only
    rw [hcond]
    dsimp only
    cases machine.recorder.check cond with
    | holds => exact ⟨_, _, rfl, by rintro ⟨⟩⟩
    | fails => exact ⟨_, _, rfl, by rintro ⟨⟩⟩
    | unknown => exact ⟨_, _, rfl, fun _ => ⟨cond, rfl, rfl⟩⟩
  · obtain ⟨hleftKnown, hrightKnown⟩ := Bool.or_eq_false_iff.mp (Bool.eq_false_iff.mpr hsymbolic)
    obtain ⟨x, rfl⟩ := hleft.eq_int hleftKnown
    obtain ⟨y, rfl⟩ := hright.eq_int hrightKnown
    obtain ⟨truth, htruth⟩ : ∃ truth,
        Operation.binary machine.heap op (.int x) (.int y) = .ok (.bool truth) := by
      cases op <;> first | exact ⟨_, rfl⟩ | cases hop
    refine ⟨.bool truth, machine, ?_, by rintro ⟨⟩⟩
    rw [binary, if_neg hsymbolic, get_bind_apply, htruth]
    rfl

/-! ### Expressions -/

end Run

/-- What is no sum, difference or product. -/
def Expr.IsLeaf (expr : Expr) : Prop :=
  ∀ op left right, expr = .binary op left right → op.onIntegers? = none

namespace Run

variable {setting : Setting} {fuel : Nat} {machine middle next : Machine} {expr left right : Expr}
  {byZero : ZeroDivision} {assignment : Assignment}
  {assignment : Assignment}

def leafValue? (setting : Setting) (fuel : Nat) (assignment : Assignment) (expr : Expr)
    (machine : Machine) : Option Int :=
  match (eval setting fuel expr machine).1 with
  | .ok value => value.meaning assignment
  | .error _ => none

/-- The value of an expression over the integers, its leaves being replaced by what they stand for.
The leaves are evaluated one after the other. -/
def exactValue? (setting : Setting) (fuel : Nat) (assignment : Assignment) :
    Expr → Machine → Option Int
  | .binary op left right, machine =>
    match op.onIntegers? with
    | some operation => do
      let x ← exactValue? setting fuel assignment left machine
      let y ← exactValue? setting fuel assignment right (eval setting fuel left machine).2
      return operation x y
    | none => leafValue? setting fuel assignment (.binary op left right) machine
  | leaf, machine => leafValue? setting fuel assignment leaf machine

/-- All leaves have integers or symbols as values, and no result of known integers is out of range.
-/
inductive IntegerArithmetic (setting : Setting) (fuel : Nat) : Expr → Machine → Prop where
  | leaf {expr : Expr} {machine : Machine} {value : Value} (hleaf : expr.IsLeaf)
      (hvalue : (eval setting fuel expr machine).1 = .ok value) (hinteger : value.IsInteger) :
      IntegerArithmetic setting fuel expr machine
  | operation {op : BinaryOp} {operation : Int → Int → Int} {left right : Expr} {machine : Machine}
      (hop : op.onIntegers? = some operation) (hleft : IntegerArithmetic setting fuel left machine)
      (hright : IntegerArithmetic setting fuel right (eval setting fuel left machine).2)
      (hfits : ∀ x y : Int64, (eval setting fuel left machine).1 = .ok (.int x) →
        (eval setting fuel right (eval setting fuel left machine).2).1 = .ok (.int y) →
        Integer.inRange (operation x.toInt y.toInt) = true) :
      IntegerArithmetic setting fuel (.binary op left right) machine

theorem exactValue?_of_isLeaf (h : expr.IsLeaf) (assignment : Assignment) (machine : Machine) :
    exactValue? setting fuel assignment expr machine =
      leafValue? setting fuel assignment expr machine := by
  cases expr with
  | binary op left right => rw [exactValue?, h op left right rfl]
  | _ => rfl

theorem exactValue?_binary {op : BinaryOp} {operation : Int → Int → Int}
    (hop : op.onIntegers? = some operation) {x y : Int}
    (hleft : exactValue? setting fuel assignment left machine = some x)
    (hright : exactValue? setting fuel assignment right (eval setting fuel left machine).2 =
      some y) :
    exactValue? setting fuel assignment (.binary op left right) machine =
      some (operation x y) := by
  rw [exactValue?, hop]
  dsimp only
  rw [hleft, hright]
  rfl

structure Exact (setting : Setting) (fuel : Nat) (expr : Expr) (machine : Machine) (value : Value)
    (next : Machine) : Prop where
  eval_eq : eval setting fuel expr machine = (.ok value, next)
  isInteger : value.IsInteger
  meaning : ∀ byZero assignment, next.recorder.Satisfied byZero assignment →
    ∃ n, exactValue? setting fuel assignment expr machine = some n ∧
      value.meaning assignment = some n

theorem satisfied_of_binary {op : BinaryOp} {x y : Value} {outcome : Except Stop Value}
    (h : binary setting op x y machine = (outcome, next))
    (hsatisfied : next.recorder.Satisfied byZero assignment) :
    machine.recorder.Satisfied byZero assignment := by
  intro entry hentry
  have hread : ∀ function args, Expr.binary op .undefined .undefined ≠ .read function args := nofun
  have hnext : entry ∈ (binary setting op x y machine).2.recorder.trace :=
    (lasts_mem_trace entry).operate hread [x, y] hentry
  rw [h] at hnext
  exact hsatisfied entry hnext

theorem Exact.satisfied {value : Value} (h : Exact setting fuel expr machine value next)
    (hsatisfied : next.recorder.Satisfied byZero assignment) :
    machine.recorder.Satisfied byZero assignment := by
  intro entry hentry
  have hnext := (lasts_mem_trace entry).eval setting fuel expr hentry
  rw [h.eval_eq] at hnext
  exact hsatisfied entry hnext

theorem IntegerArithmetic.exists_exact (h : IntegerArithmetic setting fuel expr machine) :
    ∃ value next, Exact setting fuel expr machine value next := by
  induction h with
  | @leaf expr machine value hleaf hvalue hinteger =>
    refine ⟨value, _, Prod.ext hvalue rfl, hinteger, fun byZero assignment _ => ?_⟩
    obtain ⟨n, hn⟩ := Value.exists_meaning hinteger assignment
    refine ⟨n, ?_, hn⟩
    rw [exactValue?_of_isLeaf hleaf, leafValue?, hvalue]
    exact hn
  | @operation op operation left right machine hop hleft hright hfits ihleft ihright =>
    obtain ⟨x, middle, hx⟩ := ihleft
    have hmiddle : (eval setting fuel left machine).2 = middle := congrArg Prod.snd hx.eval_eq
    rw [hmiddle] at ihright hfits
    obtain ⟨y, last, hy⟩ := ihright
    have hrange : ∀ m n : Int64, x = .int m → y = .int n →
        Integer.inRange (operation m.toInt n.toInt) = true := by
      rintro m n rfl rfl
      exact hfits m n (congrArg Prod.fst hx.eval_eq) (congrArg Prod.fst hy.eval_eq)
    obtain ⟨value, next, hbinary, hinteger, hmeaning⟩ :=
      exists_binary_exact setting hop hx.isInteger hy.isInteger hrange last
    refine ⟨value, next, (eval_binary op hx.eval_eq hy.eval_eq).trans hbinary, hinteger, ?_⟩
    intro byZero assignment hsatisfied
    have hlast := satisfied_of_binary hbinary hsatisfied
    obtain ⟨m, hm, hxm⟩ := hx.meaning byZero assignment (hy.satisfied hlast)
    obtain ⟨n, hn, hyn⟩ := hy.meaning byZero assignment hlast
    refine ⟨operation m n, exactValue?_binary hop hm ?_, ?_⟩
    · rw [hmiddle]
      exact hn
    · exact hmeaning byZero assignment m n hsatisfied hxm hyn

/-- **Symbolic arithmetic simulates exact arithmetic.** An expression of sums, differences and
products is evaluated to an integer or a symbol that stands for its exact value, under every
assignment that satisfies the definitions in the trace. A comparison of two such expressions that
remains open holds exactly if that of their exact values does. -/
theorem eval_simulates_exact (setting : Setting) (fuel : Nat) (machine : Machine) :
    (∀ expr, IntegerArithmetic setting fuel expr machine →
      ∃ value next, eval setting fuel expr machine = (.ok value, next) ∧
        ∀ byZero assignment, next.recorder.Satisfied byZero assignment →
          ∃ n, exactValue? setting fuel assignment expr machine = some n ∧
            value.meaning assignment = some n) ∧
    ∀ op left right, op.isComparison = true → IntegerArithmetic setting fuel left machine →
      IntegerArithmetic setting fuel right (eval setting fuel left machine).2 →
      ∃ value next, eval setting fuel (.binary op left right) machine = (.ok value, next) ∧
        (value.isSymbolic = true → ∃ cond, Condition.ofVerdict? value = some cond ∧
          ∀ byZero assignment, next.recorder.Satisfied byZero assignment →
            ∃ x y, exactValue? setting fuel assignment left machine = some x ∧
              exactValue? setting fuel assignment right (eval setting fuel left machine).2 =
                some y ∧ (cond.Holds assignment ↔ op.Compares x y)) := by
  constructor
  · intro expr h
    obtain ⟨value, next, hexact⟩ := h.exists_exact
    exact ⟨value, next, hexact.eval_eq, hexact.meaning⟩
  · intro op left right hop hleft hright
    obtain ⟨x, middle, hx⟩ := hleft.exists_exact
    rw [hx.eval_eq] at hright ⊢
    obtain ⟨y, last, hy⟩ := hright.exists_exact
    obtain ⟨value, next, hbinary, hverdict⟩ :=
      exists_binary_comparison setting hop hx.isInteger hy.isInteger last
    refine ⟨value, next, (eval_binary op hx.eval_eq hy.eval_eq).trans hbinary, ?_⟩
    intro hsymbolic
    obtain ⟨cond, hcond, hcomparison⟩ := hverdict hsymbolic
    refine ⟨cond, hcond, fun byZero assignment hsatisfied => ?_⟩
    have hlast := satisfied_of_binary hbinary hsatisfied
    obtain ⟨m, hm, hxm⟩ := hx.meaning byZero assignment (hy.satisfied hlast)
    obtain ⟨n, hn, hyn⟩ := hy.meaning byZero assignment hlast
    exact ⟨m, n, hm, hn, Condition.holds_ofComparison?_iff hcomparison hxm hyn⟩

def unknownStart : Setting where
  symbolic := true
  spec :=
    { functions := #[{ name := "program", result := .rule }, { name := "s", symbolic := true }] }

/-- `(s + 2) * 3 < 20` for a symbol `s` that stands for `4`. -/
theorem eval_simulates_exact_unknownStart :
    let machine := Machine.new unknownStart
    let product : Expr := .binary .mul (.binary .add (.read ⟨1⟩ []) (.int 2)) (.int 3)
    let byZero : ZeroDivision := ⟨id, id⟩
    let assignment : Assignment := fun symbol => [0, 4, 6, 18].getD symbol 0
    IntegerArithmetic unknownStart 1 product machine ∧
      (eval unknownStart 1 product machine).2.recorder.Satisfied byZero assignment ∧
      (∃ value next, eval unknownStart 1 product machine = (.ok value, next) ∧
        value.meaning assignment = some 18) ∧
      ∃ value next cond,
        eval unknownStart 1 (.binary .lt product (.int 20)) machine = (.ok value, next) ∧
          Condition.ofVerdict? value = some cond ∧ (cond.Holds assignment ↔ (18 : Int) < 20) := by
  intro machine product byZero assignment
  have hread : (eval unknownStart 1 (.read ⟨1⟩ []) machine).1 = .ok (.symbol 1) := by
    decide +kernel
  have hsum : (eval unknownStart 1 (.binary .add (.read ⟨1⟩ []) (.int 2)) machine).1 =
      .ok (.symbol 2) := by
    decide +kernel
  have hliteral (n : Int64) (machine : Machine) :
      IntegerArithmetic unknownStart 1 (.int n) machine := by
    have hvalue : (eval unknownStart 1 (.int n) machine).1 = .ok (.int n) := rfl
    exact .leaf (by rintro _ _ _ ⟨⟩) hvalue trivial
  have hproduct : IntegerArithmetic unknownStart 1 product machine := by
    refine .operation rfl (.operation rfl ?_ (hliteral 2 _) fun x y hx => ?_) (hliteral 3 _)
      fun x y hx => ?_
    · exact .leaf (by rintro _ _ _ ⟨⟩) hread trivial
    · cases hread.symm.trans hx
    · cases hsum.symm.trans hx
  have hsatisfied :
      (eval unknownStart 1 product machine).2.recorder.Satisfied byZero assignment := by
    decide +kernel
  have hexact : exactValue? unknownStart 1 assignment product machine = some 18 := by
    decide +kernel
  obtain ⟨harithmetic, hcomparison⟩ := eval_simulates_exact unknownStart 1 machine
  refine ⟨hproduct, hsatisfied, ?_, ?_⟩
  · obtain ⟨value, next, heval, hmeaning⟩ := harithmetic product hproduct
    rw [heval] at hsatisfied
    obtain ⟨n, hn, hvalue⟩ := hmeaning byZero assignment hsatisfied
    rw [hexact] at hn
    exact ⟨value, next, heval, hvalue.trans hn.symm⟩
  · obtain ⟨value, next, heval, hverdict⟩ :=
      hcomparison .lt product (.int 20) rfl hproduct (hliteral 20 _)
    have hsymbolic : value.isSymbolic = true := by
      have hvalue : (eval unknownStart 1 (.binary .lt product (.int 20)) machine).1 =
          .ok (.verdict 4 (.symbol 3) .le (.int 19)) := by
        decide +kernel
      rw [heval] at hvalue
      cases hvalue
      rfl
    have hlast : next.recorder.Satisfied byZero assignment := by
      have hnext : (eval unknownStart 1 (.binary .lt product (.int 20))
          machine).2.recorder.Satisfied byZero assignment := by
        decide +kernel
      rw [heval] at hnext
      exact hnext
    obtain ⟨cond, hcond, hholds⟩ := hverdict hsymbolic
    obtain ⟨x, y, hx, hy, hiff⟩ := hholds byZero assignment hlast
    cases hexact.symm.trans hx
    cases hy
    exact ⟨value, next, cond, heval, hcond, hiff⟩

end Run

end AbstractStateMachine
