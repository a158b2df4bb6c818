import AbstractStateMachine.Machine.Eval

/-!
Execution of statements, which records writes in the update set. Fuel bounds the nesting of
statements, calls and rounds of iterations.
-/

namespace AbstractStateMachine.Run

def inBlock (fork : UpdateSet → Bool × UpdateSet) (body : Run Unit) : Run Unit := do
  let forked ← onPending fork
  body
  leave UpdateSet.merge forked

def sequence (run : Stmt → Run Unit) : List Stmt → Run Unit
  | [] => pure ()
  | stmt :: rest => do
    run stmt
    sequence run rest

def forEach (name : String) (body : Run Unit) : List Value → Run Unit
  | [] => pure ()
  | value :: rest => do
    withLocal name value body
    forEach name body rest

def rounds (body : Run Unit) : Nat → Run Unit
  | 0 => outOfFuel
  | fuel + 1 => do
    let forked ← onPending UpdateSet.forkParallel
    body
    let machine ← get
    let done := machine.pending.topIsEmpty
    leave UpdateSet.mergeRound forked
    if done then pure () else rounds body fuel

/-- The statement of the first arm whose label equals the value; labels are evaluated one by one. -/
def selectArm (evalLabel : Expr → Run Value) (value : Value) (default : Option Stmt) :
    List (Expr × Stmt) → Run (Option Stmt)
  | [] => pure default
  | (label, body) :: rest => do
    let label ← evalLabel label
    let machine ← get
    if machine.heap.equal value label then pure (some body)
    else selectArm evalLabel value default rest

def optionally (run : Stmt → Run Unit) : Option Stmt → Run Unit
  | none => pure ()
  | some stmt => run stmt

def callRule (setting : Setting) (run : Stmt → Run Unit) (rule : RuleId) (args : List Value) :
    Run Unit :=
  let decl := setting.spec.rule rule
  if decl.params.length = args.length then
    match decl.body with
    | none => pure ()
    | some body => withFrame decl.params args (run body)
  else raise (.ruleArity decl.name decl.params.length args.length)

/-- The elements that a `forall` ranges over. -/
def domainElements (domain : Value) : Run (List Value) :=
  match domain with
  | .list handle => do
    let machine ← get
    pure (machine.heap.toList handle)
  | .undefined => pure []
  | other => raise (.domain other.kind)

/-- The list a value is pushed onto; a location without a value holds the empty list. -/
def pushTarget (value : Value) : Run Handle :=
  match value with
  | .list handle => pure handle
  | .undefined => onHeap ListHeap.empty
  | other => raise (.pushInto other.kind)

def ruleOf (value : Value) : Run RuleId :=
  match value with
  | .rule rule => pure rule
  | .undefined => raise .callOfUndefined
  | other => raise (.callOf other.kind)

/-- Executes a statement, with `run` for the statements in it. -/
def execAction (setting : Setting) (fuel : Nat) (run : Stmt → Run Unit) (span : Span) :
    Action → Run Unit
  | .skip => pure ()
  | .update function args value => do
    let args ← evalAll setting fuel args
    let value ← eval setting fuel value
    write setting function args value span
  | .par body => inBlock UpdateSet.forkParallel (sequence run body)
  | .seq body => inBlock UpdateSet.forkSequential (sequence run body)
  | .ifThen cond yes no => do
    let value ← eval setting fuel cond
    let holds ← decide setting value
    if holds then run yes else optionally run no
  | .cases scrutinee arms default => do
    let value ← eval setting fuel scrutinee
    let selected ← selectArm (eval setting fuel) value default arms
    optionally run selected
  | .letIn name value body => do
    let value ← eval setting fuel value
    withLocal name value (run body)
  | .forAll name domain body => do
    let domain ← eval setting fuel domain
    let elements ← domainElements domain
    inBlock UpdateSet.forkParallel (forEach name (run body) elements)
  | .iterate body => inBlock UpdateSet.forkSequential (rounds (run body) fuel)
  | .call rule args => do
    let args ← evalAll setting fuel args
    callRule setting run rule args
  | .callValue target args => do
    let target ← eval setting fuel target
    let rule ← ruleOf target
    let args ← evalAll setting fuel args
    callRule setting run rule args
  | .print values => do
    let values ← evalAll setting fuel values
    modify fun machine =>
      let line := String.join (values.map (machine.text setting))
      { machine with output := machine.output.push line }
  | .assert cond => do
    let value ← eval setting fuel cond
    let holds ← decide setting value
    if holds then pure () else raise (.assertion (cond.text setting.spec))
  | .abort none => raise (.aborted "diedie")
  | .abort (some message) => do
    let value ← eval setting fuel message
    let machine ← get
    raise (.aborted (machine.text setting value))
  | .push value target args => do
    let value ← eval setting fuel value
    let args ← evalAll setting fuel args
    let current ← read setting fuel target args
    let list ← pushTarget current
    let pushed ← onHeap fun heap => heap.cons value list
    write setting target args (.list pushed) span
  | .pop source args target => do
    let args ← evalAll setting fuel args
    let current ← read setting fuel source args
    match current with
    | .list list =>
      let machine ← get
      let first := machine.heap.peek list
      let rest ← onHeap fun heap => heap.tail list
      write setting target [] first span
      write setting source args (.list rest) span
    | .undefined => write setting target [] .undefined span
    | other => raise (.popFrom other.kind)

def exec (setting : Setting) : Nat → Stmt → Run Unit
  | 0, _ => outOfFuel
  | fuel + 1, stmt => do
    modify fun machine => { machine with span := stmt.span }
    execAction setting fuel (exec setting fuel) stmt.span stmt.action

end AbstractStateMachine.Run
