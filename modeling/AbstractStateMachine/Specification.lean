import AbstractStateMachine.Stmt
import AbstractStateMachine.Text.Similar

/-!
Specifications: the functions that make up a state, the rules that change it, and where to start.
The function `program`, which holds the rule to run next, is always the first one.
-/

namespace AbstractStateMachine

inductive ValueType where
  | int | float | bool | str | rule
  | list (element : ValueType)
  deriving DecidableEq, Repr, Inhabited

def ValueType.isList : ValueType → Bool
  | list _ => true
  | _ => false

inductive FunctionKind where
  /-- Changed by rules. -/
  | controlled
  /-- Only given values by initializers. -/
  | static
  /-- Computed from its parameters, never stored. -/
  | derived (params : List String) (body : Expr)
  deriving Repr, Inhabited

structure FunctionDecl where
  name : String
  args : List ValueType := []
  result : ValueType := .int
  kind : FunctionKind := .controlled
  /-- Whether a location without a value becomes a symbol when it is read in symbolic mode. -/
  symbolic : Bool := false
  /-- Arguments and value of the locations that are set before the first step. -/
  initializers : List (List Expr × Expr) := []
  deriving Repr, Inhabited

namespace FunctionDecl

def arity (function : FunctionDecl) : Nat := function.args.length

def isDerived (function : FunctionDecl) : Bool :=
  match function.kind with
  | .derived _ _ => true
  | _ => false

end FunctionDecl

structure RuleDecl where
  name : String
  params : List String := []
  body : Option Stmt := none
  deriving Inhabited

structure Specification where
  functions : Array FunctionDecl := #[{ name := "program", result := .rule }]
  rules : Array RuleDecl := #[]
  start : Option RuleId := none

/-- What a name was looked up as. -/
inductive Declared where
  | function
  | rule
  deriving DecidableEq, Repr

def Declared.noun : Declared → String
  | function => "function"
  | rule => "rule"

structure UnknownName where
  what : Declared
  name : String
  suggestions : List String
  deriving DecidableEq, Repr

def UnknownName.message (error : UnknownName) : String :=
  let hint :=
    if error.suggestions.isEmpty then ""
    else ", did you mean: " ++ ", ".intercalate error.suggestions ++ "?"
  "unknown " ++ error.what.noun ++ " `" ++ error.name ++ "`" ++ hint

namespace Specification

def program : FunctionId := ⟨0⟩

def function (spec : Specification) (id : FunctionId) : FunctionDecl :=
  spec.functions.getD id.index default

def rule (spec : Specification) (id : RuleId) : RuleDecl :=
  spec.rules.getD id.index default

def functionIds (spec : Specification) : List FunctionId :=
  (List.range spec.functions.size).map FunctionId.mk

/-- Of several functions with one name, the one declared first is meant. -/
def functionNamed (spec : Specification) (name : String) : Except UnknownName FunctionId :=
  match spec.functions.findIdx? (·.name == name) with
  | some index => .ok ⟨index⟩
  | none =>
    .error ⟨.function, name, Text.suggestions name (spec.functions.toList.map (·.name))⟩

def ruleNamed (spec : Specification) (name : String) : Except UnknownName RuleId :=
  match spec.rules.findIdx? (·.name == name) with
  | some index => .ok ⟨index⟩
  | none => .error ⟨.rule, name, Text.suggestions name (spec.rules.toList.map (·.name))⟩

def addFunction (spec : Specification) (decl : FunctionDecl) : Specification :=
  { spec with functions := spec.functions.push decl }

def addRule (spec : Specification) (decl : RuleDecl) : Specification :=
  { spec with rules := spec.rules.push decl }

def modifyFunction (spec : Specification) (id : FunctionId)
    (change : FunctionDecl → FunctionDecl) : Specification :=
  { spec with functions := spec.functions.modify id.index change }

def setRuleBody (spec : Specification) (id : RuleId) (body : Stmt) : Specification :=
  { spec with rules := spec.rules.modify id.index fun decl => { decl with body := some body } }

end Specification

end AbstractStateMachine
