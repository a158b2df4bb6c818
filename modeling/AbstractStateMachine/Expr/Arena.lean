import AbstractStateMachine.Expr.Traversal

/-!
Expressions in an arena, where a node refers to its children by their positions. Nodes are only
added, and refer to nodes that were there before, so that several nodes can share a child.
-/

namespace AbstractStateMachine

/-- A node of an expression, with `ρ` for its children. -/
inductive Node (ρ : Type) where
  | int (value : Int64)
  | float (value : Binary64)
  | bool (value : Bool)
  | str (value : String)
  | undefined
  | rule (rule : RuleId)
  | var (name : String)
  | read (function : FunctionId) (args : List ρ)
  | builtin (op : Builtin) (args : List ρ)
  | binary (op : BinaryOp) (left right : ρ)
  | not (operand : ρ)
  | list (elements : List ρ)
  | range (low high : ρ)

namespace Node

variable {ρ σ : Type}

def children : Node ρ → List ρ
  | read _ args | builtin _ args | list args => args
  | binary _ left right => [left, right]
  | range low high => [low, high]
  | not operand => [operand]
  | int _ | float _ | bool _ | str _ | undefined | rule _ | var _ => []

def map (f : ρ → σ) : Node ρ → Node σ
  | int value => int value
  | float value => float value
  | bool value => bool value
  | str value => str value
  | undefined => undefined
  | rule id => rule id
  | var name => var name
  | read function args => read function (args.map f)
  | builtin op args => builtin op (args.map f)
  | binary op left right => binary op (f left) (f right)
  | not operand => not (f operand)
  | list elements => list (elements.map f)
  | range low high => range (f low) (f high)

def toExpr : Node Expr → Expr
  | int value => .int value
  | float value => .float value
  | bool value => .bool value
  | str value => .str value
  | undefined => .undefined
  | rule id => .rule id
  | var name => .var name
  | read function args => .read function args
  | builtin op args => .builtin op args
  | binary op left right => .binary op left right
  | not operand => .not operand
  | list elements => .list elements
  | range low high => .range low high

@[simp]
theorem children_map (f : ρ → σ) (node : Node ρ) : (node.map f).children = node.children.map f := by
  cases node <;> rfl

@[simp]
theorem map_map {τ : Type} (f : ρ → σ) (g : σ → τ) (node : Node ρ) :
    (node.map f).map g = node.map (g ∘ f) := by
  cases node <;> simp [map]

@[simp]
theorem children_toExpr (node : Node Expr) : node.toExpr.children = node.children := by
  cases node <;> rfl

end Node

/-- An arena of `n` nodes, of which each one refers to earlier ones. -/
inductive Arena : Nat → Type where
  | empty : Arena 0
  | push {n : Nat} (arena : Arena n) (node : Node (Fin n)) : Arena (n + 1)

namespace Arena

/-- The node at a position, with the positions of its children. -/
def node {n : Nat} : Arena n → Fin n → Node (Fin n)
  | push arena last, ref =>
    (if h : ref.val < _ then arena.node ⟨ref, h⟩ else last).map Fin.castSucc

/-- The expression at a position, without sharing. -/
def expr {n : Nat} : Arena n → Fin n → Expr
  | push arena last, ref =>
    if h : ref.val < _ then arena.expr ⟨ref, h⟩ else (last.map arena.expr).toExpr

@[simp]
theorem expr_push_castSucc {n : Nat} (arena : Arena n) (last : Node (Fin n)) (ref : Fin n) :
    (push arena last).expr ref.castSucc = arena.expr ref := by
  simp [expr]

theorem expr_eq {n : Nat} (arena : Arena n) (ref : Fin n) :
    arena.expr ref = ((arena.node ref).map arena.expr).toExpr := by
  induction arena with
  | empty => exact ref.elim0
  | push arena last ih =>
    rw [expr, node, Node.map_map]
    have hexpr : (push arena last).expr ∘ Fin.castSucc = arena.expr :=
      funext fun ref => expr_push_castSucc arena last ref
    rw [hexpr]
    split
    · exact ih _
    · rfl

theorem lt_of_mem_children {n : Nat} {arena : Arena n} {child ref : Fin n}
    (h : child ∈ (arena.node ref).children) : child.val < ref.val := by
  induction arena with
  | empty => exact ref.elim0
  | push arena last ih =>
    rw [node, Node.children_map] at h
    obtain ⟨earlier, hearlier, rfl⟩ := List.mem_map.mp h
    split at hearlier
    · exact ih hearlier
    · next hlast => exact Nat.lt_of_lt_of_le earlier.isLt (Nat.le_of_not_lt hlast)

/-- The nodes of an arena with their children, which several nodes may share. -/
def hierarchy {n : Nat} (arena : Arena n) : Hierarchy (Fin n) where
  children ref := (arena.node ref).children
  wellFounded := Subrelation.wf lt_of_mem_children (measure Fin.val).wf

end Arena

end AbstractStateMachine
