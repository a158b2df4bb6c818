import AbstractStateMachine.Proofs.Backend.Invariants
import AbstractStateMachine.Proofs.Machine.Computation
import AbstractStateMachine.Proofs.Machine.Holdings
import AbstractStateMachine.Proofs.Operation

/-!
# What single operations do

All ways in which an operator, a read or a decision can end, and the machine it ends with. An
operator or a builtin makes at most a list or a new symbol, a read at most one new location, and a
decision adds at most one condition to the path. Faults are those of the statement executed last.
Whatever is to be known about single operations is proved from these cases.
-/

namespace AbstractStateMachine

open ListHeap

structure Fault.IsOf (span : Span) (fault : Fault) : Prop where
  span : fault.span = span
  other : fault.other = none
  kind : fault.cause.kind ≠ .conflict

namespace Machine

/-- The machine after a location without a value has been read: it has a new symbol. -/
def symbolized (setting : Setting) (function : FunctionId) (args : List Value) (machine : Machine) :
    Machine :=
  let key := machine.heap.argKey setting.digest args
  let symbol := machine.recorder.lastSymbol + 1
  { machine with
    recorder := machine.recorder.fresh.2.create (function, key)
      { function := (setting.spec.function function).name
        args := args.map (machine.term setting)
        value := .symbol symbol }
    state := machine.state.set machine.heap function key args (.symbol symbol) }

end Machine

namespace Run

variable {setting : Setting} {args : List Value} {machine : Machine}
  {outcome : Except Stop Value × Machine}

/-! ### Operators -/

/-- The ways a node of an expression that is no read can get its value, given those of its
children. Symbols come up in symbolic machines and among symbols only. -/
inductive OperatesTo (setting : Setting) (args : List Value) (machine : Machine) :
    Except Stop Value × Machine → Prop where
  | scalar {value : Value} (h : IsScalar value) :
      OperatesTo setting args machine (.ok value, machine)
  | bound (name : String) :
      OperatesTo setting args machine (.ok (machine.lookupLocal name), machine)
  | built {op : Builtin} {result : Value × ListHeap}
      (h : Operation.builtin machine.heap machine.lease op args = .ok result) :
      OperatesTo setting args machine (.ok result.1, { machine with heap := result.2 })
  | listed {values : List Value} (h : ∀ value ∈ values, value ∈ args ∨ IsScalar value) :
      OperatesTo setting args machine (.ok (.list (machine.heap.ofList values).1),
        { machine with heap := (machine.heap.ofList values).2 })
  | symbol (h : setting.symbolic = true ∨ ∃ arg ∈ args, arg.isSymbolic = true) :
      OperatesTo setting args machine (.ok (.symbol machine.recorder.fresh.1),
        { machine with recorder := machine.recorder.fresh.2 })
  | definition (op : DefinitionOp) {left right : Value} (hleft : left ∈ args)
      (hright : right ∈ args) (h : ∃ arg ∈ args, arg.isSymbolic = true) :
      OperatesTo setting args machine (.ok (.symbol machine.recorder.fresh.1),
        { machine with
          recorder := (machine.recorder.define op (machine.term setting left)
            (machine.term setting right)).2 })
  | comparison {op : BinaryOp} {left right : Value} {cond : Condition} (hleft : left ∈ args)
      (hright : right ∈ args) (h : ∃ arg ∈ args, arg.isSymbolic = true)
      (hcond : Condition.ofComparison? op left right = some cond) :
      OperatesTo setting args machine
        (.ok (.verdict machine.recorder.fresh.1 cond.lhs cond.op cond.rhs),
          { machine with recorder := machine.recorder.fresh.2 })
  | negation {value : Value} {cond : Condition} (hvalue : value ∈ args)
      (h : ∃ arg ∈ args, arg.isSymbolic = true)
      (hcond : Condition.ofNegation? value = some cond) :
      OperatesTo setting args machine
        (.ok (.verdict machine.recorder.fresh.1 cond.lhs cond.op cond.rhs),
          { machine with recorder := machine.recorder.fresh.2 })
  | raised {cause : Cause} (h : cause.kind ≠ .conflict) :
      OperatesTo setting args machine (.error (.fault { cause, span := machine.span }), machine)

theorem operatesTo_operand {result : Operation.Outcome}
    (hscalar : ∀ value, result = .ok value → IsScalar value) :
    OperatesTo setting args machine (operand result machine) := by
  cases result with
  | error error => exact .raised nofun
  | ok value => exact .scalar (hscalar value rfl)

theorem operatesTo_symbolicBinary (op : BinaryOp) {left right : Value} (hleft : left ∈ args)
    (hright : right ∈ args) (hsymbolic : ∃ arg ∈ args, arg.isSymbolic = true) :
    OperatesTo setting args machine (symbolicBinary setting op left right machine) := by
  unfold symbolicBinary
  split
  · exact .scalar trivial
  rw [get_bind_apply]
  cases DefinitionOp.ofBinaryOp? op with
  | some definition => exact .definition definition hleft hright hsymbolic
  | none =>
    cases hcond : Condition.ofComparison? op left right with
    | none => exact .symbol (.inr hsymbolic)
    | some cond =>
      dsimp only
      cases machine.recorder.check cond with
      | holds => exact .scalar (by trivial)
      | fails => exact .scalar (by trivial)
      | unknown => exact .comparison hleft hright hsymbolic hcond

theorem operatesTo_binary (op : BinaryOp) (left right : Value) :
    OperatesTo setting [left, right] machine (binary setting op left right machine) := by
  unfold binary
  split
  · next hsymbolic =>
      refine operatesTo_symbolicBinary op List.mem_cons_self
        (List.mem_cons_of_mem _ List.mem_cons_self) ?_
      simpa using hsymbolic
  · exact operatesTo_operand fun _ => Operation.isScalar_of_binary

theorem operatesTo_negation (value : Value) :
    OperatesTo setting [value] machine (negation value machine) := by
  unfold negation
  cases hcond : Condition.ofNegation? value with
  | some cond =>
    refine .negation List.mem_cons_self ⟨value, List.mem_cons_self, ?_⟩ hcond
    cases value <;> first | rfl | cases hcond
  | none => exact operatesTo_operand fun _ => Operation.isScalar_of_not

theorem operatesTo_builtin (op : Builtin) (args : List Value) :
    OperatesTo setting args machine (builtin setting op args machine) := by
  rw [builtin, get_bind_apply]
  cases hresult : Operation.builtin machine.heap machine.lease op args with
  | ok result => exact .built hresult
  | error error =>
    dsimp only
    split
    · next hsymbolic => exact .symbol (.inl (Bool.and_eq_true_iff.mp hsymbolic).1)
    · exact .raised nofun

theorem operatesTo_range (low high : Value) :
    OperatesTo setting args machine (range low high machine) := by
  unfold range
  split
  · refine .listed fun value hvalue => .inr ?_
    obtain ⟨offset, -, rfl⟩ := List.mem_map.mp hvalue
    trivial
  · split
    · exact .scalar trivial
    · exact .raised nofun

theorem operatesTo_operate (setting : Setting) {expr : Expr}
    (hread : ∀ function args, expr ≠ .read function args)
    (args : List Value) (machine : Machine) :
    OperatesTo setting args machine ((Machine.backend setting).operate expr args machine) := by
  show OperatesTo setting args machine (evalNode setting (fun _ => outOfFuel) expr args machine)
  cases expr with
  | read function args => exact absurd rfl (hread function args)
  | builtin op _ => exact operatesTo_builtin op args
  | var name => exact .bound name
  | list _ => exact .listed fun _ => .inl
  | binary op _ _ =>
    match args with
    | [left, right] => exact operatesTo_binary op left right
    | [] | [_] | _ :: _ :: _ :: _ => exact .scalar (by trivial)
  | not _ =>
    match args with
    | [value] => exact operatesTo_negation value
    | [] | _ :: _ :: _ => exact .scalar (by trivial)
  | range _ _ =>
    match args with
    | [low, high] => exact operatesTo_range low high
    | [] | [_] | _ :: _ :: _ :: _ => exact .scalar (by trivial)
  | _ => exact .scalar (by trivial)

/-! ### Reads and decisions -/

inductive ReadsTo (setting : Setting) (function : FunctionId) (args : List Value)
    (machine : Machine) : Except Stop Value × Machine → Prop where
  | pending {value : Value}
      (hlookup : machine.pending.lookup machine.heap function
        (machine.heap.argKey setting.digest args) args = some value) :
      ReadsTo setting function args machine (.ok value, machine)
  | stored {value : Value}
      (hstored : machine.state.get? machine.heap function
        (machine.heap.argKey setting.digest args) args = some value) :
      ReadsTo setting function args machine (.ok value, machine)
  | symbolized
      (hsymbolic : (setting.symbolic && (setting.spec.function function).symbolic) = true)
      (hunstored : machine.state.get? machine.heap function
        (machine.heap.argKey setting.digest args) args = none) :
      ReadsTo setting function args machine
        (.ok (.symbol (machine.recorder.lastSymbol + 1)),
          machine.symbolized setting function args)
  | missing : ReadsTo setting function args machine (.ok .undefined, machine)

theorem readsTo_readStored (setting : Setting) (function : FunctionId) (args : List Value)
    (machine : Machine) :
    ReadsTo setting function args machine (readStored setting function args machine) := by
  rw [readStored, get_bind_apply]
  cases hlookup : machine.pending.lookup machine.heap function
      (machine.heap.argKey setting.digest args) args with
  | some value => exact .pending hlookup
  | none =>
    cases hstored : machine.state.get? machine.heap function
        (machine.heap.argKey setting.digest args) args with
    | some value => exact .stored hstored
    | none =>
      dsimp only
      split
      · next hsymbolic => exact .symbolized hsymbolic hstored
      · exact .missing

inductive DecidesTo (setting : Setting) (value : Value) (machine : Machine) :
    Except Stop Bool × Machine → Prop where
  | decided (holds : Bool) : DecidesTo setting value machine (.ok holds, machine)
  | raised {cause : Cause} (h : cause.kind ≠ .conflict) :
      DecidesTo setting value machine (.error (.fault { cause, span := machine.span }), machine)
  | assumed {cond : Condition} (hcond : Condition.ofVerdict? value = some cond)
      (hcheck : machine.recorder.check cond = .unknown) :
      DecidesTo setting value machine
        (.ok true,
          { machine with
            recorder := machine.recorder.assume cond (machine.term setting cond.lhs)
              (machine.term setting cond.rhs) })

theorem decidesTo_decide (setting : Setting) (value : Value) (machine : Machine) :
    DecidesTo setting value machine (decide setting value machine) := by
  unfold decide
  split
  · exact .decided _
  · exact .decided _
  cases hcond : Condition.ofVerdict? value with
  | none => exact .raised nofun
  | some cond =>
    dsimp only
    rw [get_bind_apply]
    cases hcheck : machine.recorder.check cond with
    | holds => exact .decided _
    | fails => exact .decided _
    | unknown => exact .assumed hcond hcheck

end Run

/-! ### What evaluation records -/

/-- A property of recorders that lasts as symbols, definitions and locations are added. -/
structure Recorder.Lasts (P : Recorder → Prop) : Prop where
  fresh : ∀ {recorder}, P recorder → P recorder.fresh.2
  define : ∀ {recorder} op lhs rhs, P recorder → P (recorder.define op lhs rhs).2
  create : ∀ {recorder} key location, P recorder → P (recorder.create key location)

namespace Recorder.Lasts

variable {setting : Setting} {P : Recorder → Prop} {machine : Machine} (h : Lasts P)
include h

theorem operate {expr : Expr} (hread : ∀ function args, expr ≠ .read function args)
    (args : List Value) (hmachine : P machine.recorder) :
    P ((Machine.backend setting).operate expr args machine).2.recorder := by
  have hoperates := Run.operatesTo_operate setting hread args machine
  generalize (Machine.backend setting).operate expr args machine = outcome at hoperates ⊢
  cases hoperates with
  | symbol | comparison | negation => exact h.fresh hmachine
  | definition op => exact h.define op _ _ hmachine
  | _ => exact hmachine

theorem readStored (function : FunctionId) (args : List Value) (hmachine : P machine.recorder) :
    P (Run.readStored setting function args machine).2.recorder := by
  have hreads := Run.readsTo_readStored setting function args machine
  generalize Run.readStored setting function args machine = outcome at hreads ⊢
  cases hreads with
  | symbolized => exact h.create _ _ (h.fresh hmachine)
  | _ => exact hmachine

theorem evalMaintained (setting : Setting) :
    EvalMaintained (.ofStates fun machine => P machine.recorder) (Machine.backend setting) where
  enterFrame _ _ _ _ hmachine _ := hmachine
  leaveFrame _ _ _ _ _ hmachine := hmachine
  readStored _ function args _ _ hmachine :=
    ⟨(), trivial, h.readStored function args hmachine, fun _ _ => trivial⟩
  operate _ _ args hread _ _ hmachine :=
    ⟨(), trivial, h.operate hread args hmachine, fun _ _ => trivial⟩

theorem eval (setting : Setting) (fuel : Nat) (expr : Expr) (hmachine : P machine.recorder) :
    P (Run.eval setting fuel expr machine).2.recorder := by
  rw [Run.eval_eq]
  obtain ⟨_, -, hlasts, -⟩ := (h.evalMaintained setting).eval (w := ()) fuel expr machine hmachine
  exact hlasts

end Recorder.Lasts

theorem Run.path_eval (setting : Setting) (fuel : Nat) (expr : Expr) (machine : Machine) :
    (eval setting fuel expr machine).2.recorder.path = machine.recorder.path :=
  have hlasts : Recorder.Lasts fun recorder => recorder.path = machine.recorder.path :=
    { fresh := id
      define := fun _ _ _ => id
      create := fun _ _ => (Recorder.path_create _ _).trans }
  hlasts.eval setting fuel expr rfl

end AbstractStateMachine
