import AbstractStateMachine.Proofs.Backend.Correspondence

/-!
# Properties that expressions and statements inherit

Evaluation and execution put the operations of a backend together in a few ways. A property of
computations that all operations have, and that is kept by these ways, is a property of every
expression and of every statement. The property may tell which results a computation can have, and
with which faults it can fail. A statement does its own work before it runs the statements in it, so
the property of its own work can be another one.
-/

namespace AbstractStateMachine

open AbstractStateMachine.Computation

variable {S V α β : Type} {backend : Backend S V} {Blames : Fault → Prop}
  {P : ∀ {α : Type}, (α → Prop) → Computation S α → Prop}

def AnyResult (_ : α) : Prop := True

def Settled (Blames : Fault → Prop) (post : α → Prop) : Except Fault α → Prop
  | .ok result => post result
  | .error fault => Blames fault

/-- A property of all that expressions are evaluated with, where results satisfy a condition and
faults are among those that are meant. -/
structure EvalClosed (backend : Backend S V) (Blames : Fault → Prop)
    (P : ∀ {α : Type}, (α → Prop) → Computation S α → Prop) : Prop where
  pure : ∀ {α : Type} {post : α → Prop} {result : α}, post result → P post (Pure.pure result)
  outOfFuel : ∀ {α : Type} {post : α → Prop}, P post (MonadExcept.throw Stop.outOfFuel)
  fault : ∀ {α : Type} {post : α → Prop} {fault : Fault}, Blames fault →
    P post (MonadExcept.throw (Stop.fault fault))
  raise : ∀ {α : Type} {post : α → Prop} {cause : Cause}, cause.kind ≠ .conflict →
    P post (backend.raise cause)
  bind : ∀ {α β : Type} {post : α → Prop} {last : β → Prop} {first : Computation S α}
    {rest : α → Computation S β}, P post first → (∀ result, post result → P last (rest result)) →
      P last (first >>= rest)
  attempt : ∀ {α : Type} {post : α → Prop} {run : Computation S α}, P post run →
    P (Settled Blames post) (attempt run)
  withFrame : ∀ {α : Type} {post : α → Prop} {run : Computation S α} (params : List String)
    (args : List V), P post run → P post (backend.withFrame params args run)
  readStored : ∀ function args, P AnyResult (backend.readStored function args)
  operate : ∀ expr args, (∀ function args, expr ≠ .read function args) →
    P AnyResult (backend.operate expr args)
  equal : ∀ {α : Type} {post : α → Prop} (value label : V) {rest : Bool → Computation S α},
    (∀ same, P post (rest same)) →
      P post (get >>= fun state => rest (backend.equal state value label))

namespace EvalClosed

variable (h : EvalClosed backend Blames P)
include h

/-! ### Expressions -/

theorem collect {outcomes : List (Except Fault α)}
    (houtcomes : ∀ outcome ∈ outcomes, Settled Blames AnyResult outcome) :
    P AnyResult (collect outcomes : Computation S (List α)) := by
  induction outcomes with
  | nil => exact h.pure trivial
  | cons outcome rest ih =>
    obtain ⟨hfirst, hrest⟩ := List.forall_mem_cons.mp houtcomes
    cases outcome with
    | error fault => exact h.fault hfirst
    | ok value => exact h.bind (ih hrest) fun _ _ => h.pure trivial

section Bodies

variable {evalBody : Expr → Computation S V} (hbody : ∀ expr, P AnyResult (evalBody expr))
include hbody

theorem readWith (function : FunctionId) (args : List V) :
    P AnyResult (backend.readWith evalBody function args) := by
  unfold Backend.readWith
  dsimp only
  split
  · split
    · exact h.withFrame _ args (hbody _)
    · exact h.raise nofun
  · exact h.readStored function args
  · exact h.readStored function args

theorem node (expr : Expr) (args : List V) : P AnyResult (backend.node evalBody expr args) := by
  unfold Backend.node
  split
  · exact h.readWith hbody _ args
  · next hread => exact h.operate expr args hread

theorem visit (expr : Expr) (children : List (Except Fault V))
    (hchildren : ∀ child ∈ children, Settled Blames AnyResult child) :
    P (Settled Blames AnyResult) (backend.visit evalBody expr children) :=
  h.attempt (h.bind (h.collect hchildren) fun _ _ => h.node hbody expr _)

end Bodies

section Traversal

variable {visit : Expr → List β → Computation S β} {good : β → Prop}

mutual

theorem foldM (hvisit : ∀ expr children, (∀ child ∈ children, good child) →
      P good (visit expr children)) : ∀ expr : Expr, P good (expr.foldM visit)
  | .int _ | .float _ | .bool _ | .str _ | .undefined | .rule _ | .var _ =>
    hvisit _ [] (List.forall_mem_nil _)
  | .read _ args | .builtin _ args | .list args =>
    h.bind (foldListM hvisit args) fun _ => hvisit _ _
  | .not operand => h.bind (foldM hvisit operand) fun _ hoperand =>
    hvisit _ _ (List.forall_mem_singleton.mpr hoperand)
  | .binary _ left right | .range left right => h.bind (foldM hvisit left) fun _ hleft =>
    h.bind (foldM hvisit right) fun _ hright =>
      hvisit _ _ (List.forall_mem_cons.mpr ⟨hleft, List.forall_mem_singleton.mpr hright⟩)

theorem foldListM (hvisit : ∀ expr children, (∀ child ∈ children, good child) →
      P good (visit expr children)) :
    ∀ exprs : List Expr, P (fun results => ∀ result ∈ results, good result)
      (Expr.foldListM visit exprs)
  | [] => h.pure (List.forall_mem_nil _)
  | expr :: rest => h.bind (foldM hvisit expr) fun _ hfirst =>
    h.bind (foldListM hvisit rest) fun _ hrest =>
      h.pure (List.forall_mem_cons.mpr ⟨hfirst, hrest⟩)

end

end Traversal

theorem eval (fuel : Nat) (expr : Expr) : P AnyResult (backend.eval fuel expr) := by
  induction fuel generalizing expr with
  | zero => exact h.outOfFuel
  | succ fuel ih =>
    refine h.bind (h.foldM (h.visit ih) expr) fun outcome houtcome => ?_
    cases outcome with
    | error fault => exact h.fault houtcome
    | ok value => exact h.pure trivial

theorem evalAll (fuel : Nat) : ∀ exprs : List Expr, P AnyResult (backend.evalAll fuel exprs)
  | [] => h.pure trivial
  | expr :: rest => h.bind (h.eval fuel expr) fun _ _ =>
    h.bind (evalAll fuel rest) fun _ _ => h.pure trivial

theorem read (fuel : Nat) (function : FunctionId) (args : List V) :
    P AnyResult (backend.read fuel function args) :=
  h.readWith (h.eval fuel) function args

theorem selectArm (fuel : Nat) (value : V) {default : Option Stmt} {arms : List (Expr × Stmt)}
    {stmts : List Stmt} (hdefault : default.toList ⊆ stmts) (harms : arms.map Prod.snd ⊆ stmts) :
    P (fun selected => ∀ stmt ∈ selected, stmt ∈ stmts)
      (backend.selectArm (backend.eval fuel) value default arms) := by
  induction arms with
  | nil => exact h.pure fun stmt hstmt => hdefault (Option.mem_toList.mpr hstmt)
  | cons arm rest ih =>
    obtain ⟨hfirst, hrest⟩ := List.cons_subset.mp harms
    have hnext (same : Bool) : P (fun selected => ∀ stmt ∈ selected, stmt ∈ stmts)
        (if same then Pure.pure (some arm.2)
        else backend.selectArm (backend.eval fuel) value default rest) := by
      split
      · exact h.pure fun stmt hstmt => Option.mem_some.mp hstmt ▸ hfirst
      · exact ih hrest
    exact h.bind (h.eval fuel arm.1) fun label _ => h.equal value label hnext

end EvalClosed

/-! ### Statements -/

def Action.Calls (rule : RuleId) : Action → Prop
  | .call callee _ => callee = rule
  | .callValue _ _ => True
  | _ => False

def Action.Writes : Action → Prop
  | .update _ _ _ | .push _ _ _ | .pop _ _ _ => True
  | _ => False

/-- A statement that is executed as a part of another one. -/
inductive Action.Runs (spec : Specification) (action : Action) (inner : Stmt) : Prop where
  | inside (h : inner ∈ action.bodies)
  | called (rule : RuleId) (hcalls : action.Calls rule)
      (hbody : (spec.rule rule).body = some inner)

/-- A property of all that statements are executed with: `Own` for what a statement does itself,
`Nested` for the statements it runs, which are the allowed ones, and `Whole` for all of it. What it
records has an allowed span. -/
structure ExecClosed (backend : Backend S V) (Allowed : Stmt → Prop) (Spans : Span → Prop)
    (Own : ∀ {α : Type}, Computation S α → Prop) (Nested Whole : Computation S Unit → Prop) :
    Prop where
  eval : ∀ fuel expr, Own (backend.eval fuel expr)
  evalAll : ∀ fuel exprs, Own (backend.evalAll fuel exprs)
  read : ∀ fuel function args, Own (backend.read fuel function args)
  decide : ∀ value, Own (backend.decide value)
  elements : ∀ value, Own (backend.elements value)
  ruleOf : ∀ value, Own (backend.ruleOf value)
  print : ∀ values, Own (backend.print values)
  pushed : ∀ value current, Own (backend.pushed value current)
  popped : ∀ current, Own (backend.popped current)
  write : ∀ function args value span, Spans span → Own (backend.write function args value span)
  raise : ∀ {cause : Cause}, cause.kind ≠ .conflict →
    Own (backend.raise cause : Computation S Unit)
  abort : ∀ value, Own (do
    let state ← get
    backend.raise (.aborted (backend.text state value)) : Computation S Unit)
  own : ∀ {run : Computation S Unit}, Own run → Whole run
  continued : ∀ {α : Type} {first : Computation S α} {rest : α → Computation S Unit},
    Own first → (∀ result, Whole (rest result)) → Whole (first >>= rest)
  selecting : ∀ {run : Stmt → Computation S Unit} {default : Option Stmt}
    {arms : List (Expr × Stmt)} (fuel : Nat) (value : V),
    (∀ stmt ∈ default.toList ++ arms.map Prod.snd, Allowed stmt) →
      (∀ stmt, Allowed stmt → Nested (run stmt)) → Whole (do
        let selected ← backend.selectArm (backend.eval fuel) value default arms
        Backend.optionally run selected)
  nested : ∀ {run : Computation S Unit}, Nested run → Whole run
  done : Nested (Pure.pure ())
  andThen : ∀ {first rest : Computation S Unit}, Nested first → Nested rest →
    Nested (first >>= fun _ => rest)
  withLocal : ∀ {run : Computation S Unit} (name : String) (value : V), Nested run →
    Nested (backend.withLocal name value run)
  withFrame : ∀ {run : Computation S Unit} (params : List String) (args : List V), Nested run →
    Nested (backend.withFrame params args run)
  inBlock : ∀ {run : Computation S Unit} (parallel : Bool), Nested run →
    Whole (backend.inBlock parallel run)
  iterate : ∀ {run : Computation S Unit} (fuel : Nat), Nested run →
    Whole (backend.inBlock false (backend.rounds run fuel))

namespace ExecClosed

variable {Allowed : Stmt → Prop} {Spans : Span → Prop}
  {Own : ∀ {α : Type}, Computation S α → Prop} {Nested Whole : Computation S Unit → Prop}
  (h : ExecClosed backend Allowed Spans Own Nested Whole)
include h

theorem forEach {body : Computation S Unit} (hbody : Nested body) (name : String)
    (values : List V) : Nested (backend.forEach name body values) := by
  induction values with
  | nil => exact h.done
  | cons value rest ih => exact h.andThen (h.withLocal name value hbody) ih

variable {run : Stmt → Computation S Unit}

theorem sequence {stmts : List Stmt} (hrun : ∀ stmt ∈ stmts, Nested (run stmt)) :
    Nested (Backend.sequence run stmts) := by
  induction stmts with
  | nil => exact h.done
  | cons stmt rest ih =>
    obtain ⟨hfirst, hrest⟩ := List.forall_mem_cons.mp hrun
    exact h.andThen hfirst (ih hrest)

theorem optionally {stmt : Option Stmt} (hrun : ∀ inner ∈ stmt, Nested (run inner)) :
    Nested (Backend.optionally run stmt) := by
  cases stmt with
  | none => exact h.done
  | some stmt => exact hrun stmt rfl

theorem callRule {rule : RuleId}
    (hrun : ∀ body, (backend.spec.rule rule).body = some body → Nested (run body))
    (args : List V) : Whole (backend.callRule run rule args) := by
  unfold Backend.callRule
  dsimp only
  split
  · split
    · exact h.nested h.done
    · next hbody => exact h.nested (h.withFrame _ args (hrun _ hbody))
  · exact h.own (h.raise nofun)

theorem execAction (hrun : ∀ stmt, Allowed stmt → Nested (run stmt)) (fuel : Nat) {span : Span}
    {action : Action} (hallowed : ∀ stmt, action.Runs backend.spec stmt → Allowed stmt)
    (hspan : action.Writes → Spans span) :
    Whole (backend.execAction fuel run span action) := by
  have hinside : ∀ stmt ∈ action.bodies, Nested (run stmt) := fun stmt hstmt =>
    hrun stmt (hallowed stmt (.inside hstmt))
  cases action with
  | skip => exact h.nested h.done
  | update function args value =>
    refine h.continued (h.evalAll fuel args) fun args => ?_
    refine h.continued (h.eval fuel value) fun value =>
      h.own (h.write function args value span (hspan trivial))
  | par body => exact h.inBlock true (h.sequence hinside)
  | seq body => exact h.inBlock false (h.sequence hinside)
  | ifThen cond yes no =>
    refine h.continued (h.eval fuel cond) fun value => ?_
    refine h.continued (h.decide value) fun holds => ?_
    split
    · exact h.nested (hinside yes List.mem_cons_self)
    · exact h.nested (h.optionally fun stmt hstmt =>
        hinside stmt (List.mem_cons_of_mem _ (Option.mem_toList.mpr hstmt)))
  | cases scrutinee arms default =>
    refine h.continued (h.eval fuel scrutinee) fun value => h.selecting fuel value ?_ hrun
    exact fun stmt hstmt => hallowed stmt (.inside hstmt)
  | letIn name value body =>
    refine h.continued (h.eval fuel value) fun value => ?_
    exact h.nested (h.withLocal name value (hinside body List.mem_cons_self))
  | forAll name domain body =>
    refine h.continued (h.eval fuel domain) fun domain => ?_
    refine h.continued (h.elements domain) fun values => ?_
    exact h.inBlock true (h.forEach (hinside body List.mem_cons_self) name values)
  | iterate body => exact h.iterate fuel (hinside body List.mem_cons_self)
  | call rule args =>
    refine h.continued (h.evalAll fuel args) fun args => ?_
    exact h.callRule (fun body hbody => hrun body (hallowed body (.called rule rfl hbody))) args
  | callValue target args =>
    refine h.continued (h.eval fuel target) fun target => ?_
    refine h.continued (h.ruleOf target) fun rule => ?_
    refine h.continued (h.evalAll fuel args) fun args => ?_
    exact h.callRule (fun body hbody =>
      hrun body (hallowed body (.called rule trivial hbody))) args
  | print values =>
    exact h.continued (h.evalAll fuel values) fun values => h.own (h.print values)
  | assert cond =>
    refine h.continued (h.eval fuel cond) fun value => ?_
    refine h.continued (h.decide value) fun holds => ?_
    split
    · exact h.nested h.done
    · exact h.own (h.raise nofun)
  | abort message =>
    cases message with
    | none => exact h.own (h.raise nofun)
    | some message =>
      exact h.continued (h.eval fuel message) fun value => h.own (h.abort value)
  | push value target args =>
    refine h.continued (h.eval fuel value) fun value => ?_
    refine h.continued (h.evalAll fuel args) fun args => ?_
    refine h.continued (h.read fuel target args) fun current => ?_
    exact h.continued (h.pushed value current) fun pushed =>
      h.own (h.write target args pushed span (hspan trivial))
  | pop source args target =>
    refine h.continued (h.evalAll fuel args) fun args => ?_
    refine h.continued (h.read fuel source args) fun current => ?_
    refine h.continued (h.popped current) fun popped => ?_
    refine h.continued (h.write target [] popped.1 span (hspan trivial)) fun _ => ?_
    split
    · exact h.nested h.done
    · exact h.own (h.write source args _ span (hspan trivial))

end ExecClosed

theorem ExecClosed.exec {Q : ∀ {α : Type}, Computation S α → Prop}
    (h : ExecClosed backend (fun _ => True) (fun _ => True) Q Q Q)
    (hfuel : Q (throw .outOfFuel : Computation S Unit))
    (hspan : ∀ span, Q (modify (backend.setSpan span) : Computation S PUnit)) (fuel : Nat)
    (stmt : Stmt) : Q (backend.exec fuel stmt) := by
  induction fuel generalizing stmt with
  | zero => exact hfuel
  | succ fuel ih =>
    exact h.continued (hspan stmt.span) fun _ =>
      h.execAction (fun stmt _ => ih stmt) fuel (fun _ _ => trivial) fun _ => trivial

end AbstractStateMachine
