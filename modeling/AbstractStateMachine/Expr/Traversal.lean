import AbstractStateMachine.Expr.Basic

/-!
Visiting the nodes of an expression from the leaves up, in two ways: by recursion on the expression,
and by a loop over a work list with a stack of results, which needs no recursion depth. The loop
works for whatever has nodes with children.
-/

namespace AbstractStateMachine

universe u v

variable {m : Type u → Type v} [Monad m] {β : Type u}

namespace Expr

mutual

/-- Visits every node after its children, from left to right, and hands it their results. -/
def foldM (visit : Expr → List β → m β) : Expr → m β
  | .int value => visit (.int value) []
  | .float value => visit (.float value) []
  | .bool value => visit (.bool value) []
  | .str value => visit (.str value) []
  | .undefined => visit .undefined []
  | .rule name => visit (.rule name) []
  | .var name => visit (.var name) []
  | .read function args => do visit (.read function args) (← foldListM visit args)
  | .builtin op args => do visit (.builtin op args) (← foldListM visit args)
  | .binary op left right => do
    let first ← foldM visit left
    let second ← foldM visit right
    visit (.binary op left right) [first, second]
  | .not operand => do visit (.not operand) [← foldM visit operand]
  | .list elements => do visit (.list elements) (← foldListM visit elements)
  | .range low high => do
    let first ← foldM visit low
    let second ← foldM visit high
    visit (.range low high) [first, second]

def foldListM (visit : Expr → List β → m β) : List Expr → m (List β)
  | [] => pure []
  | expr :: rest => do
    let first ← foldM visit expr
    let others ← foldListM visit rest
    pure (first :: others)

end

end Expr

/-- Nodes that have children, and so on, down to finitely many leaves. -/
structure Hierarchy (ν : Type) where
  children : ν → List ν
  wellFounded : WellFounded fun child node => child ∈ children node

namespace Hierarchy

variable {ν : Type} (hierarchy : Hierarchy ν)

/-- The nodes from a node down in post-order, each as often as it occurs. -/
def postorder (node : ν) : List ν :=
  ((hierarchy.children node).attach.flatMap fun child => postorder child.1) ++ [node]
termination_by hierarchy.wellFounded.wrap node
decreasing_by exact child.2

theorem postorder_eq (node : ν) : hierarchy.postorder node =
    (hierarchy.children node).flatMap hierarchy.postorder ++ [node] := by
  rw [postorder]
  congr 1
  conv => rhs; rw [← List.attach_map_subtype_val (hierarchy.children node), List.flatMap_map]

/-- A task of the work list: a node whose children are still to be visited, or one that is ready. -/
inductive Task (ν : Type) where
  | enter (node : ν)
  | visit (node : ν)

def Task.enterAll (nodes : List ν) : List (Task ν) := nodes.map .enter

/-- The nodes that a task leads to and that are still to be entered. -/
def unentered : Task ν → List ν
  | .enter node => hierarchy.postorder node
  | .visit _ => []

theorem flatMap_unentered_enterAll (nodes : List ν) :
    (Task.enterAll nodes).flatMap hierarchy.unentered = nodes.flatMap hierarchy.postorder := by
  rw [Task.enterAll, List.flatMap_map]
  rfl

/-- The results on the stack are those of the nodes visited so far that no visited node has
consumed, latest first. A node whose children have left too few results ends the loop. -/
def bottomUpLoop (visit : ν → List β → m β) : List (Task ν) → List β → m (Option (List β))
  | [], results => pure (some results)
  | .enter node :: rest, results =>
    bottomUpLoop visit (Task.enterAll (hierarchy.children node) ++ .visit node :: rest) results
  | .visit node :: rest, results =>
    let count := (hierarchy.children node).length
    if results.length < count then pure none
    else do
      let result ← visit node (results.take count).reverse
      bottomUpLoop visit rest (result :: results.drop count)
termination_by tasks => ((tasks.flatMap hierarchy.unentered).length, tasks.length)
decreasing_by
  · refine Prod.Lex.left _ _ ?_
    simp only [List.flatMap_append, List.flatMap_cons, flatMap_unentered_enterAll, unentered,
      postorder_eq hierarchy node, List.length_append, List.length_nil, List.length_singleton]
    omega
  · exact Prod.Lex.right _ (Nat.lt_succ_self _)

/-- The result of the root, if the loop ends with this one alone. -/
def bottomUp (visit : ν → List β → m β) (root : ν) : m (Option β) := do
  let results ← hierarchy.bottomUpLoop visit [.enter root] []
  match results with
  | some [result] => pure (some result)
  | _ => pure none

end Hierarchy

namespace Expr

theorem sizeOf_lt_of_mem_children {child expr : Expr} (h : child ∈ expr.children) :
    sizeOf child < sizeOf expr := by
  cases expr with
  | read | builtin | list =>
    have := List.sizeOf_lt_of_mem h
    simp only [children, read.sizeOf_spec, builtin.sizeOf_spec, list.sizeOf_spec] at this ⊢
    omega
  | binary | range | not =>
    simp only [children, List.mem_cons, List.not_mem_nil, or_false] at h
    simp only [binary.sizeOf_spec, range.sizeOf_spec, not.sizeOf_spec]
    grind
  | _ => cases h

def hierarchy : Hierarchy Expr where
  children := children
  wellFounded := Subrelation.wf sizeOf_lt_of_mem_children (measure sizeOf).wf

/-- The number of children of every node, in the order in which the nodes are visited. -/
def visitOrder (expr : Expr) : List Nat :=
  let visit (node : Expr) (_ : List Unit) : StateM (List Nat) Unit :=
    modify (node.children.length :: ·)
  ((hierarchy.bottomUp visit expr).run []).2.reverse

end Expr

end AbstractStateMachine
