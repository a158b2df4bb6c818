import AbstractStateMachine.Machine.Step

/-!
# Interpreters over a backend

How expressions are evaluated, statements executed and steps taken does not depend on what values
are and how a machine keeps them. A backend provides these: values, bindings, stored and pending
locations. The interpreter of this library is the one over the backend of machines with a list heap.
-/

namespace AbstractStateMachine

open Machine Run

abbrev Computation (S : Type) := ExceptT Stop (StateM S)

namespace Computation

variable {S T α : Type}

def attempt (run : Computation S α) : Computation S (Except Fault α) := fun state =>
  match run state with
  | (.ok value, state) => (.ok (.ok value), state)
  | (.error (.fault fault), state) => (.ok (.error fault), state)
  | (.error .outOfFuel, state) => (.error .outOfFuel, state)

def restoring (restore : S → S) (run : Computation S α) : Computation S α := fun state =>
  let (result, state) := run state
  (result, restore state)

def collect : List (Except Fault α) → Computation S (List α)
  | [] => pure []
  | .ok value :: rest => do
    let values ← collect rest
    pure (value :: values)
  | .error fault :: _ => throw (.fault fault)

theorem get_bind_apply (rest : S → Computation S α) (state : S) :
    (get >>= rest : Computation S α) state = rest state state := rfl

/-- Runs a computation; if it fails, the state is cleaned up. -/
def orElse (cleanUp : S → S) (run : Computation S α) : Computation S α := fun state =>
  match run state with
  | (.ok value, state) => (.ok value, state)
  | (.error stop, state) => (.error stop, cleanUp state)

/-- The same computation on states that hold one of the given kind. -/
def within (held : T → S) (hold : T → S → T) (run : Computation S α) : Computation T α :=
  fun state => ((run (held state)).1, hold state (run (held state)).2)

end Computation

open AbstractStateMachine.Computation

/-- States `S` and values `V` that an interpreter works with. -/
structure Backend (S V : Type) where
  spec : Specification
  span : S → Span
  setSpan : Span → S → S
  bindLocal : String → V → S → S
  unbindLocal : S → S
  enterFrame : List String → List V → S → S
  leaveFrame : (caller : S) → S → S
  readStored : FunctionId → List V → Computation S V
  /-- The value of a node that is not a read, given the values of its children. -/
  operate : Expr → List V → Computation S V
  decide : V → Computation S Bool
  equal : S → V → V → Bool
  elements : V → Computation S (List V)
  ruleOf : V → Computation S RuleId
  text : S → V → String
  print : List V → Computation S Unit
  /-- The list that a location holds after a value has been pushed onto it. -/
  pushed : (value current : V) → Computation S V
  /-- What a location gives when it is popped, and what it holds afterwards, if it changes. -/
  popped : (current : V) → Computation S (V × Option V)
  write : FunctionId → List V → V → Span → Computation S Unit
  /-- Enters a parallel or a sequential block and tells whether that took a new layer. -/
  enter : (parallel : Bool) → Computation S Bool
  leave : (forked : Bool) → Computation S Unit
  leaveRound : (forked : Bool) → Computation S Unit
  recordsNothing : S → Bool
  ofRule : RuleId → V
  halted : S → Bool
  /-- The rule that a step runs, given what `program` holds. -/
  scheduled : V → Computation S (Option RuleId)
  halt : S → S
  abandon : S → S
  /-- Applies what is pending, at the end of a step or of the initialization. -/
  commit : (endOfStep : Bool) → S → S

namespace Backend

variable {S T V α : Type} (backend : Backend S V)

/-- The same operations on states that hold those of the backend. -/
def within (held : T → S) (hold : T → S → T) : Backend T V :=
  let change (f : S → S) (state : T) : T := hold state (f (held state))
  { spec := backend.spec
    span state := backend.span (held state)
    setSpan span := change (backend.setSpan span)
    bindLocal name value := change (backend.bindLocal name value)
    unbindLocal := change backend.unbindLocal
    enterFrame params args := change (backend.enterFrame params args)
    leaveFrame caller := change (backend.leaveFrame (held caller))
    readStored function args := Computation.within held hold (backend.readStored function args)
    operate expr args := Computation.within held hold (backend.operate expr args)
    decide value := Computation.within held hold (backend.decide value)
    equal state := backend.equal (held state)
    elements value := Computation.within held hold (backend.elements value)
    ruleOf value := Computation.within held hold (backend.ruleOf value)
    text state := backend.text (held state)
    print values := Computation.within held hold (backend.print values)
    pushed value current := Computation.within held hold (backend.pushed value current)
    popped current := Computation.within held hold (backend.popped current)
    write function args value span :=
      Computation.within held hold (backend.write function args value span)
    enter parallel := Computation.within held hold (backend.enter parallel)
    leave forked := Computation.within held hold (backend.leave forked)
    leaveRound forked := Computation.within held hold (backend.leaveRound forked)
    recordsNothing state := backend.recordsNothing (held state)
    ofRule := backend.ofRule
    halted state := backend.halted (held state)
    scheduled program := Computation.within held hold (backend.scheduled program)
    halt := change backend.halt
    abandon := change backend.abandon
    commit endOfStep := change (backend.commit endOfStep) }

def raise (cause : Cause) : Computation S α := do
  let state ← get
  throw (.fault { cause, span := backend.span state })

def withLocal (name : String) (value : V) (run : Computation S α) : Computation S α := do
  modify (backend.bindLocal name value)
  restoring backend.unbindLocal run

def withFrame (params : List String) (args : List V) (run : Computation S α) :
    Computation S α := do
  let caller ← get
  modify (backend.enterFrame params args)
  restoring (backend.leaveFrame caller) run

/-! ### Expressions -/

def readWith (evalBody : Expr → Computation S V) (function : FunctionId) (args : List V) :
    Computation S V :=
  let decl := backend.spec.function function
  match decl.kind with
  | .derived params body =>
    if params.length = args.length then backend.withFrame params args (evalBody body)
    else backend.raise (.functionArity decl.name params.length args.length)
  | .controlled | .static => backend.readStored function args

def node (evalBody : Expr → Computation S V) (expr : Expr) (args : List V) : Computation S V :=
  match expr with
  | .read function _ => backend.readWith evalBody function args
  | other => backend.operate other args

def visit (evalBody : Expr → Computation S V) (expr : Expr) (children : List (Except Fault V)) :
    Computation S (Except Fault V) :=
  attempt do
    let args ← collect children
    backend.node evalBody expr args

def eval : Nat → Expr → Computation S V
  | 0, _ => throw .outOfFuel
  | fuel + 1, expr => do
    let result ← expr.foldM (backend.visit (eval fuel))
    match result with
    | .ok value => pure value
    | .error fault => throw (.fault fault)

def evalAll (fuel : Nat) : List Expr → Computation S (List V)
  | [] => pure []
  | expr :: rest => do
    let value ← backend.eval fuel expr
    let values ← evalAll fuel rest
    pure (value :: values)

def read (fuel : Nat) (function : FunctionId) (args : List V) : Computation S V :=
  backend.readWith (backend.eval fuel) function args

/-! ### Statements -/

def inBlock (parallel : Bool) (body : Computation S Unit) : Computation S Unit := do
  let forked ← backend.enter parallel
  body
  backend.leave forked

def sequence (run : Stmt → Computation S Unit) : List Stmt → Computation S Unit
  | [] => pure ()
  | stmt :: rest => do
    run stmt
    sequence run rest

def forEach (name : String) (body : Computation S Unit) : List V → Computation S Unit
  | [] => pure ()
  | value :: rest => do
    backend.withLocal name value body
    forEach name body rest

def rounds (body : Computation S Unit) : Nat → Computation S Unit
  | 0 => throw .outOfFuel
  | fuel + 1 => do
    let forked ← backend.enter true
    body
    let state ← get
    let done := backend.recordsNothing state
    backend.leaveRound forked
    if done then pure () else rounds body fuel

def selectArm (evalLabel : Expr → Computation S V) (value : V) (default : Option Stmt) :
    List (Expr × Stmt) → Computation S (Option Stmt)
  | [] => pure default
  | (label, body) :: rest => do
    let label ← evalLabel label
    let state ← get
    if backend.equal state value label then pure (some body)
    else selectArm evalLabel value default rest

def optionally (run : Stmt → Computation S Unit) : Option Stmt → Computation S Unit
  | none => pure ()
  | some stmt => run stmt

def callRule (run : Stmt → Computation S Unit) (rule : RuleId) (args : List V) :
    Computation S Unit :=
  let decl := backend.spec.rule rule
  if decl.params.length = args.length then
    match decl.body with
    | none => pure ()
    | some body => backend.withFrame decl.params args (run body)
  else backend.raise (.ruleArity decl.name decl.params.length args.length)

def execAction (fuel : Nat) (run : Stmt → Computation S Unit) (span : Span) :
    Action → Computation S Unit
  | .skip => pure ()
  | .update function args value => do
    let args ← backend.evalAll fuel args
    let value ← backend.eval fuel value
    backend.write function args value span
  | .par body => backend.inBlock true (sequence run body)
  | .seq body => backend.inBlock false (sequence run body)
  | .ifThen cond yes no => do
    let value ← backend.eval fuel cond
    let holds ← backend.decide value
    if holds then run yes else optionally run no
  | .cases scrutinee arms default => do
    let value ← backend.eval fuel scrutinee
    let selected ← backend.selectArm (backend.eval fuel) value default arms
    optionally run selected
  | .letIn name value body => do
    let value ← backend.eval fuel value
    backend.withLocal name value (run body)
  | .forAll name domain body => do
    let domain ← backend.eval fuel domain
    let elements ← backend.elements domain
    backend.inBlock true (backend.forEach name (run body) elements)
  | .iterate body => backend.inBlock false (backend.rounds (run body) fuel)
  | .call rule args => do
    let args ← backend.evalAll fuel args
    backend.callRule run rule args
  | .callValue target args => do
    let target ← backend.eval fuel target
    let rule ← backend.ruleOf target
    let args ← backend.evalAll fuel args
    backend.callRule run rule args
  | .print values => do
    let values ← backend.evalAll fuel values
    backend.print values
  | .assert cond => do
    let value ← backend.eval fuel cond
    let holds ← backend.decide value
    if holds then pure () else backend.raise (.assertion (cond.text backend.spec))
  | .abort none => backend.raise (.aborted "diedie")
  | .abort (some message) => do
    let value ← backend.eval fuel message
    let state ← get
    backend.raise (.aborted (backend.text state value))
  | .push value target args => do
    let value ← backend.eval fuel value
    let args ← backend.evalAll fuel args
    let current ← backend.read fuel target args
    let pushed ← backend.pushed value current
    backend.write target args pushed span
  | .pop source args target => do
    let args ← backend.evalAll fuel args
    let current ← backend.read fuel source args
    let (first, rest) ← backend.popped current
    backend.write target [] first span
    match rest with
    | none => pure ()
    | some rest => backend.write source args rest span

def exec : Nat → Stmt → Computation S Unit
  | 0, _ => throw .outOfFuel
  | fuel + 1, stmt => do
    modify (backend.setSpan stmt.span)
    backend.execAction fuel (exec fuel) stmt.span stmt.action

/-! ### Steps -/

def writeInitializers (fuel : Nat) (function : FunctionId) :
    List (List Expr × Expr) → Computation S Unit
  | [] => pure ()
  | (args, value) :: rest => do
    let args ← backend.evalAll fuel args
    let value ← backend.eval fuel value
    backend.write function args value {}
    writeInitializers fuel function rest

def writeAllInitializers (fuel : Nat) : List FunctionId → Computation S Unit
  | [] => pure ()
  | function :: rest => do
    backend.writeInitializers fuel function (backend.spec.function function).initializers
    writeAllInitializers fuel rest

def scheduleStart (fuel : Nat) : Computation S Unit := do
  backend.writeAllInitializers fuel backend.spec.functionIds
  match backend.spec.start with
  | none => pure ()
  | some rule => backend.write Specification.program [] (backend.ofRule rule) {}

def init (fuel : Nat) : Computation S Unit := do
  orElse backend.abandon (backend.scheduleStart fuel)
  modify (backend.commit false)

def step (fuel : Nat) : Computation S Bool := do
  let state ← get
  if backend.halted state then return false
  modify (backend.setSpan {})
  let program ← backend.read fuel Specification.program []
  let scheduled ← backend.scheduled program
  match scheduled with
  | none =>
    modify backend.halt
    pure false
  | some rule =>
    orElse backend.abandon (backend.callRule (backend.exec fuel) rule [])
    modify (backend.commit true)
    pure true

def run (fuel : Nat) : Nat → Option Nat → Computation S Bool
  | 0, _ => throw .outOfFuel
  | rounds + 1, limit => do
    if limit = some 0 then return false
    let stepped ← backend.step fuel
    if stepped then run fuel rounds (limit.map (· - 1)) else pure true

end Backend

namespace Machine

def backend (setting : Setting) : Backend Machine Value where
  spec := setting.spec
  span := span
  setSpan span machine := { machine with span }
  bindLocal name value machine := { machine with locals := ⟨name, value⟩ :: machine.locals }
  unbindLocal machine := { machine with locals := machine.locals.tail }
  enterFrame params args machine :=
    { machine with
      frameBase := machine.locals.length
      locals := (List.zipWith Binding.mk params args).reverse ++ machine.locals }
  leaveFrame caller machine :=
    { machine with
      locals := machine.locals.drop (machine.locals.length - machine.frameBase)
      frameBase := caller.frameBase }
  readStored := readStored setting
  operate := evalNode setting fun _ => outOfFuel
  decide := decide setting
  equal machine := machine.heap.equal
  elements := domainElements
  ruleOf := ruleOf
  text := text setting
  print values := modify fun machine =>
    let line := String.join (values.map (machine.text setting))
    { machine with output := machine.output.push line }
  pushed value current := do
    let list ← pushTarget current
    let pushed ← onHeap fun heap => heap.cons value list
    pure (.list pushed)
  popped current :=
    match current with
    | .list list => do
      let machine ← MonadState.get
      let rest ← onHeap fun heap => heap.tail list
      pure (machine.heap.peek list, some (.list rest))
    | .undefined => pure (.undefined, none)
    | other => raise (.popFrom other.kind)
  write := write setting
  enter parallel :=
    onPending (if parallel then UpdateSet.forkParallel else UpdateSet.forkSequential)
  leave := leave UpdateSet.merge
  leaveRound := leave UpdateSet.mergeRound
  recordsNothing machine := machine.pending.topIsEmpty
  ofRule := .rule
  halted := halted
  scheduled program :=
    match program with
    | .undefined => pure none
    | .rule rule => pure (some rule)
    | other => raise (.programHolds other.kind)
  halt := halt setting
  abandon := abandonStep
  commit endOfStep machine :=
    let machine := machine.applyPending setting endOfStep
    reclaimLists (if endOfStep then { machine with steps := machine.steps + 1 } else machine)

end Machine

/-! ### The interpreter of machines with a list heap -/

namespace Run

variable (setting : Setting) (fuel : Nat)

theorem collect_eq {α : Type} (outcomes : List (Except Fault α)) :
    collect outcomes = Computation.collect outcomes := by
  induction outcomes with
  | nil => rfl
  | cons outcome rest ih =>
    cases outcome with
    | error fault => rfl
    | ok value => rw [collect, Computation.collect, ih]

theorem attempt_eq {α : Type} (run : Run α) : attempt run = Computation.attempt run := by
  funext machine
  unfold attempt Computation.attempt
  rcases run machine with ⟨(fault | _) | value, next⟩ <;> rfl

theorem orAbandon_eq {α : Type} (run : Run α) :
    orAbandon run = Computation.orElse abandonStep run := by
  funext machine
  unfold orAbandon Computation.orElse
  rcases run machine with ⟨stop | value, next⟩ <;> rfl

theorem evalNode_eq (evalBody : Expr → Run Value) (expr : Expr) (args : List Value) :
    evalNode setting evalBody expr args = (backend setting).node evalBody expr args := by
  cases expr with
  | binary op left right => rcases args with _ | ⟨_, _ | ⟨_, _ | _⟩⟩ <;> rfl
  | not operand => rcases args with _ | ⟨_, _ | _⟩ <;> rfl
  | range low high => rcases args with _ | ⟨_, _ | ⟨_, _ | _⟩⟩ <;> rfl
  | _ => rfl

theorem eval_eq : eval setting fuel = (backend setting).eval fuel := by
  induction fuel with
  | zero => rfl
  | succ fuel ih =>
    have hvisit : visitNode setting (eval setting fuel) =
        (backend setting).visit ((backend setting).eval fuel) := by
      funext expr children
      rw [visitNode, Backend.visit, ← ih, attempt_eq, collect_eq]
      simp only [evalNode_eq]
    funext expr
    rw [eval, Backend.eval, hvisit]
    refine bind_congr fun result => ?_
    cases result <;> rfl

theorem evalAll_eq : evalAll setting fuel = (backend setting).evalAll fuel := by
  funext exprs
  induction exprs with
  | nil => rfl
  | cons expr rest ih => rw [evalAll, Backend.evalAll, ih, eval_eq]

theorem read_eq : read setting fuel = (backend setting).read fuel := by
  funext function args
  rw [read, Backend.read, eval_eq]
  exact evalNode_eq setting _ (.read function []) args

theorem sequence_eq (run : Stmt → Run Unit) (stmts : List Stmt) :
    sequence run stmts = Backend.sequence run stmts := by
  induction stmts with
  | nil => rfl
  | cons stmt rest ih => rw [sequence, Backend.sequence, ih]

theorem forEach_eq (name : String) (body : Run Unit) (values : List Value) :
    forEach name body values = (backend setting).forEach name body values := by
  induction values with
  | nil => rfl
  | cons value rest ih =>
    rw [forEach, Backend.forEach, ih]
    rfl

theorem rounds_eq (body : Run Unit) :
    rounds body fuel = (backend setting).rounds body fuel := by
  induction fuel with
  | zero => rfl
  | succ fuel ih =>
    rw [rounds, Backend.rounds, ih]
    rfl

theorem selectArm_eq (evalLabel : Expr → Run Value) (value : Value) (default : Option Stmt)
    (arms : List (Expr × Stmt)) : selectArm evalLabel value default arms =
      (backend setting).selectArm evalLabel value default arms := by
  induction arms with
  | nil => rfl
  | cons arm rest ih =>
    rw [selectArm, Backend.selectArm, ih]
    rfl

theorem optionally_eq (run : Stmt → Run Unit) (stmt : Option Stmt) :
    optionally run stmt = Backend.optionally run stmt := by
  cases stmt <;> rfl

theorem callRule_eq (run : Stmt → Run Unit) (rule : RuleId) (args : List Value) :
    callRule setting run rule args = (backend setting).callRule run rule args := by
  unfold callRule Backend.callRule
  dsimp only [backend]
  congr 1

theorem execAction_eq (run : Stmt → Run Unit) (span : Span) (action : Action) :
    execAction setting fuel run span action =
      (backend setting).execAction fuel run span action := by
  cases action with
  | skip => rfl
  | par body => rw [execAction, Backend.execAction, sequence_eq]; rfl
  | seq body => rw [execAction, Backend.execAction, sequence_eq]; rfl
  | update function args value => rw [execAction, Backend.execAction, evalAll_eq, eval_eq]; rfl
  | ifThen cond yes no => simp only [execAction, Backend.execAction, eval_eq, optionally_eq]; rfl
  | cases scrutinee arms default =>
    simp only [execAction, Backend.execAction, eval_eq, optionally_eq, selectArm_eq setting]
  | letIn name value body => rw [execAction, Backend.execAction, eval_eq]; rfl
  | forAll name domain body =>
    simp only [execAction, Backend.execAction, eval_eq, forEach_eq setting]; rfl
  | iterate body => rw [execAction, Backend.execAction, rounds_eq setting]; rfl
  | call rule args => simp only [execAction, Backend.execAction, evalAll_eq, callRule_eq]
  | callValue target args =>
    simp only [execAction, Backend.execAction, evalAll_eq, eval_eq, callRule_eq]; rfl
  | print values => rw [execAction, Backend.execAction, evalAll_eq]; rfl
  | assert cond => rw [execAction, Backend.execAction, eval_eq]; rfl
  | abort message =>
    cases message with
    | none => rfl
    | some message => rw [execAction, Backend.execAction, eval_eq]; rfl
  | push value target args =>
    simp only [execAction, Backend.execAction, evalAll_eq, eval_eq, read_eq, backend,
      bind_assoc, pure_bind]
  | pop source args target =>
    rw [execAction, Backend.execAction, evalAll_eq, read_eq]
    refine bind_congr fun args => bind_congr fun current => ?_
    cases current with
    | undefined => exact (bind_pure _).symm
    | _ => rfl

theorem exec_eq : exec setting fuel = (backend setting).exec fuel := by
  induction fuel with
  | zero => rfl
  | succ fuel ih =>
    funext stmt
    rw [exec, Backend.exec, ih, execAction_eq]
    rfl

/-! ### Calls -/

theorem writeInitializers_eq (function : FunctionId) (initializers : List (List Expr × Expr)) :
    writeInitializers setting fuel function initializers =
      (backend setting).writeInitializers fuel function initializers := by
  induction initializers with
  | nil => rfl
  | cons initializer rest ih =>
    rw [writeInitializers, Backend.writeInitializers, evalAll_eq, eval_eq, ih]
    rfl

theorem writeAllInitializers_eq (functions : List FunctionId) :
    writeAllInitializers setting fuel functions =
      (backend setting).writeAllInitializers fuel functions := by
  induction functions with
  | nil => rfl
  | cons function rest ih =>
    rw [writeAllInitializers, Backend.writeAllInitializers, writeInitializers_eq, ih]
    rfl

theorem scheduleStart_eq :
    scheduleStart setting fuel = (backend setting).scheduleStart fuel := by
  rw [scheduleStart, Backend.scheduleStart, writeAllInitializers_eq]
  rfl

theorem init_eq : init setting fuel = (backend setting).init fuel := by
  rw [init, Backend.init, orAbandon_eq, scheduleStart_eq]
  rfl

theorem step_eq : step setting fuel = (backend setting).step fuel := by
  rw [step, Backend.step, read_eq]
  refine bind_congr fun machine => ?_
  dsimp only [backend]
  congr 1
  refine bind_congr fun _ => bind_congr fun program => ?_
  cases program with
  | rule rule =>
    dsimp only
    rw [orAbandon_eq, callRule_eq, exec_eq]
    rfl
  | _ => rfl

theorem run_eq (rounds : Nat) (limit : Option Nat) :
    run setting fuel rounds limit = (backend setting).run fuel rounds limit := by
  induction rounds generalizing limit with
  | zero => rfl
  | succ rounds ih => rw [run, Backend.run, step_eq]; simp only [ih]

end Run

end AbstractStateMachine
