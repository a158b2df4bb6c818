import AbstractStateMachine.Expr.Arena
import AbstractStateMachine.Proofs.Machine.Computation
import Mathlib.Data.List.Basic

/-!
# Traversal is recursion

The loop over a work list does what recursion does that visits the children of a node from left to
right and then the node, with their results. This holds for every visitor, whatever else it does,
and for nodes that share children. The loop never runs out of results, and ends with a single one.
Evaluation is such a recursion, so it fails like the leftmost child that fails, after all children.
-/

namespace AbstractStateMachine

universe u v

namespace Hierarchy

variable {ν : Type} (hierarchy : Hierarchy ν) {m : Type u → Type v} [Monad m] {β : Type u}

/-! ### The loop -/

def foldM (visit : ν → List β → m β) (node : ν) : m β := do
  let results ← (hierarchy.children node).attach.mapM fun child => foldM visit child.1
  visit node results
termination_by hierarchy.wellFounded.wrap node
decreasing_by exact child.2

variable [LawfulMonad m] (visit : ν → List β → m β)

theorem foldM_eq (node : ν) : hierarchy.foldM visit node = (do
    let results ← (hierarchy.children node).mapM (hierarchy.foldM visit)
    visit node results) := by
  rw [foldM]
  congr 1
  conv_rhs => rw [← List.attach_map_subtype_val (hierarchy.children node), List.mapM_map]
  rfl

omit [LawfulMonad m] in
theorem bottomUpLoop_visit {node : ν} {results : List β}
    (hlength : results.length = (hierarchy.children node).length) (rest : List (Task ν))
    (below : List β) :
    hierarchy.bottomUpLoop visit (.visit node :: rest) (results.reverse ++ below) = (do
      let result ← visit node results
      hierarchy.bottomUpLoop visit rest (result :: below)) := by
  rw [bottomUpLoop]
  have hreverse : results.reverse.length = (hierarchy.children node).length := by
    rw [List.length_reverse, hlength]
  have henough : ¬ (results.reverse ++ below).length < (hierarchy.children node).length := by
    rw [List.length_append, hreverse]
    omega
  rw [if_neg henough, List.take_left' hreverse, List.drop_left' hreverse, List.reverse_reverse]

theorem exists_mapM_length {α : Type} (f : α → m β) (nodes : List α) :
    ∃ run : m { results : List β // results.length = nodes.length },
      nodes.mapM f = Subtype.val <$> run := by
  induction nodes with
  | nil => exact ⟨pure ⟨[], rfl⟩, by simp⟩
  | cons node rest ih =>
    obtain ⟨run, hrun⟩ := ih
    refine ⟨do
      let first ← f node
      let others ← run
      pure ⟨first :: others.1, by simp [others.2]⟩, ?_⟩
    simp [hrun]

theorem bottomUpLoop_enterAll {nodes : List ν}
    (h : ∀ node ∈ nodes, ∀ (rest : List (Task ν)) (below : List β),
      hierarchy.bottomUpLoop visit (.enter node :: rest) below = (do
        let result ← hierarchy.foldM visit node
        hierarchy.bottomUpLoop visit rest (result :: below)))
    (rest : List (Task ν)) (below : List β) :
    hierarchy.bottomUpLoop visit (Task.enterAll nodes ++ rest) below = (do
      let results ← nodes.mapM (hierarchy.foldM visit)
      hierarchy.bottomUpLoop visit rest (results.reverse ++ below)) := by
  induction nodes generalizing below with
  | nil => simp [Task.enterAll]
  | cons first others ih =>
    obtain ⟨hfirst, hothers⟩ := List.forall_mem_cons.mp h
    rw [List.mapM_cons, bind_assoc]
    refine (hfirst _ below).trans (bind_congr fun result => ?_)
    refine (ih hothers (result :: below)).trans ?_
    simp

/-- Entering a node comes to recursion on it, which leaves its result on the stack. -/
theorem bottomUpLoop_enter (node : ν) (rest : List (Task ν)) (below : List β) :
    hierarchy.bottomUpLoop visit (.enter node :: rest) below = (do
      let result ← hierarchy.foldM visit node
      hierarchy.bottomUpLoop visit rest (result :: below)) := by
  induction node using hierarchy.wellFounded.induction generalizing rest below with
  | _ node ih =>
    rw [bottomUpLoop, hierarchy.bottomUpLoop_enterAll visit ih, foldM_eq]
    obtain ⟨run, hrun⟩ := exists_mapM_length (hierarchy.foldM visit) (hierarchy.children node)
    rw [hrun, bind_assoc, bind_map_left, bind_map_left]
    exact bind_congr fun results => hierarchy.bottomUpLoop_visit visit results.2 rest below

theorem bottomUp_eq (root : ν) :
    hierarchy.bottomUp visit root = some <$> hierarchy.foldM visit root := by
  rw [bottomUp, bottomUpLoop_enter, bind_assoc, map_eq_pure_bind]
  refine bind_congr fun result => ?_
  rw [bottomUpLoop, pure_bind]

/-! ### The calls of a visitor with a state -/

/-- A call of a visitor for a node, with the results that it was handed and the one that it gave. -/
structure Call (ν β : Type) where
  node : ν
  results : List β
  result : β

section Calls

variable {σ β : Type}

def recording (visit : ν → List β → StateM σ β) (node : ν) (results : List β) :
    StateM (σ × List (Call ν β)) β := fun (state, calls) =>
  let (result, next) := (visit node results).run state
  (result, next, calls ++ [⟨node, results, result⟩])

/-- The calls for nodes from left to right: for each one those for its children, and then one with
what those for the children have given, in the state that they have left. -/
inductive Calls (visit : ν → List β → StateM σ β) :
    List ν → σ → List (Call ν β) → List β → σ → Prop where
  | nil (state : σ) : Calls visit [] state [] [] state
  | cons {node : ν} {nodes : List ν} {state middle next last : σ} {calls more : List (Call ν β)}
      {results others : List β} {result : β}
      (hchildren : Calls visit (hierarchy.children node) state calls results middle)
      (hvisit : (visit node results).run middle = (result, next))
      (hrest : Calls visit nodes next more others last) :
      Calls visit (node :: nodes) state (calls ++ ⟨node, results, result⟩ :: more)
        (result :: others) last

variable {visit : ν → List β → StateM σ β} {nodes : List ν} {state last : σ}
  {calls : List (Call ν β)} {results : List β}

theorem run_bind_of_eq {α γ : Type} {first : StateM σ α} {rest : α → StateM σ γ} {next : σ}
    {value : α} (h : first.run state = (value, next)) :
    (first >>= rest).run state = (rest value).run next := by
  rw [StateT.run_bind, h]
  rfl

theorem run_mapM_foldM_cons {node : ν} {middle next : σ} {result : β} {others : List β}
    (hchildren : ((hierarchy.children node).mapM (hierarchy.foldM visit)).run state =
      (results, middle))
    (hvisit : (visit node results).run middle = (result, next))
    (hrest : (nodes.mapM (hierarchy.foldM visit)).run next = (others, last)) :
    ((node :: nodes).mapM (hierarchy.foldM visit)).run state = (result :: others, last) := by
  have hnode : (hierarchy.foldM visit node).run state = (result, next) := by
    rw [foldM_eq, run_bind_of_eq hchildren, hvisit]
  rw [List.mapM_cons, run_bind_of_eq hnode, run_bind_of_eq hrest]
  rfl

theorem exists_calls (visit : ν → List β → StateM σ β) (nodes : List ν) (state : σ)
    (log : List (Call ν β)) :
    ∃ calls results last,
      (nodes.mapM (hierarchy.foldM (recording visit))).run (state, log) =
        (results, last, log ++ calls) ∧
      hierarchy.Calls visit nodes state calls results last := by
  induction hcount : (nodes.flatMap hierarchy.postorder).length using Nat.strongRecOn
    generalizing nodes state log with
  | _ count ih =>
    subst hcount
    cases nodes with
    | nil =>
      refine ⟨[], [], state, ?_, .nil state⟩
      rw [List.append_nil, List.mapM_nil]
      rfl
    | cons node rest =>
      rw [List.flatMap_cons, postorder_eq, List.length_append, List.length_append,
        List.length_singleton] at ih
      obtain ⟨calls, results, middle, hrun, hcalls⟩ :=
        ih _ (by omega) (hierarchy.children node) state log rfl
      rcases hvisit : (visit node results).run middle with ⟨result, next⟩
      obtain ⟨more, others, last, hrest, hmore⟩ :=
        ih _ (by omega) rest next (log ++ calls ++ [⟨node, results, result⟩]) rfl
      refine ⟨_, _, last, ?_, .cons hcalls hvisit hmore⟩
      have hrecorded : (recording visit node results).run (middle, log ++ calls) =
          (result, next, log ++ calls ++ [⟨node, results, result⟩]) := by
        change visit node results middle = _ at hvisit
        show ((visit node results middle).1, _, _) = _
        rw [hvisit]
      rw [hierarchy.run_mapM_foldM_cons hrun hrecorded hrest]
      simp

theorem Calls.run_mapM_foldM (h : hierarchy.Calls visit nodes state calls results last) :
    (nodes.mapM (hierarchy.foldM visit)).run state = (results, last) := by
  induction h with
  | nil => rfl
  | cons _ hvisit _ hchildren hrest =>
    exact hierarchy.run_mapM_foldM_cons hchildren hvisit hrest

theorem Calls.map_node (h : hierarchy.Calls visit nodes state calls results last) :
    calls.map Call.node = nodes.flatMap hierarchy.postorder := by
  induction h with
  | nil => rfl
  | cons _ _ _ ihchildren ihrest =>
    rw [List.map_append, List.map_cons, ihchildren, ihrest, List.flatMap_cons, postorder_eq]
    simp

theorem run_bottomUp_of_mapM {node : ν} {result : β}
    (h : ([node].mapM (hierarchy.foldM visit)).run state = ([result], last)) :
    (hierarchy.bottomUp visit node).run state = (some result, last) := by
  rcases hnode : (hierarchy.foldM visit node).run state with ⟨first, next⟩
  rw [List.mapM_cons, run_bind_of_eq hnode] at h
  cases h
  rw [bottomUp_eq, StateT.run_map, hnode]
  rfl

/-- The loop calls the visitor once for each node that occurs, in post-order, and each time with the
results of the children. -/
theorem exists_calls_bottomUp (visit : ν → List β → StateM σ β) (root : ν) (state : σ) :
    ∃ calls result last,
      (hierarchy.bottomUp (recording visit) root).run (state, []) = (some result, last, calls) ∧
      hierarchy.Calls visit [root] state calls [result] last ∧
      calls.map Call.node = hierarchy.postorder root ∧
      (hierarchy.bottomUp visit root).run state = (some result, last) := by
  obtain ⟨calls, results, last, hrun, hcalls⟩ := hierarchy.exists_calls visit [root] state []
  obtain ⟨result, rfl⟩ : ∃ result, results = [result] := by
    obtain - | ⟨-, -, ⟨-⟩⟩ := hcalls
    exact ⟨_, rfl⟩
  refine ⟨calls, result, last, hierarchy.run_bottomUp_of_mapM hrun, hcalls, ?_,
    hierarchy.run_bottomUp_of_mapM hcalls.run_mapM_foldM⟩
  rw [hcalls.map_node, List.flatMap_singleton]

end Calls

end Hierarchy

/-! ### Expressions in an arena -/

theorem mapM_congr_of_mem {α : Type} {m : Type u → Type v} [Monad m] [LawfulMonad m] {β : Type u}
    {f g : α → m β} {xs : List α} (h : ∀ x ∈ xs, f x = g x) : xs.mapM f = xs.mapM g := by
  induction xs with
  | nil => rw [List.mapM_nil, List.mapM_nil]
  | cons x rest ih =>
    obtain ⟨hx, hrest⟩ := List.forall_mem_cons.mp h
    rw [List.mapM_cons, List.mapM_cons, hx, ih hrest]

namespace Expr

variable {m : Type u → Type v} [Monad m] [LawfulMonad m] {β : Type u}
  (visit : Expr → List β → m β)

theorem foldListM_eq_mapM (exprs : List Expr) :
    foldListM visit exprs = exprs.mapM (foldM visit) := by
  induction exprs with
  | nil => rw [foldListM, List.mapM_nil]
  | cons expr rest ih => rw [foldListM, List.mapM_cons, ih]

theorem foldM_eq_children (expr : Expr) : foldM visit expr = (do
    let results ← expr.children.mapM (foldM visit)
    visit expr results) := by
  cases expr <;> simp [foldM, children, foldListM_eq_mapM]

end Expr

namespace Arena

variable {n : Nat} (arena : Arena n)

theorem children_expr (ref : Fin n) :
    (arena.expr ref).children = (arena.hierarchy.children ref).map arena.expr := by
  rw [expr_eq, Node.children_toExpr, Node.children_map]
  rfl

theorem foldM_expr {m : Type u → Type v} [Monad m] [LawfulMonad m] {β : Type u}
    (visit : Expr → List β → m β) (ref : Fin n) :
    arena.hierarchy.foldM (fun ref => visit (arena.expr ref)) ref =
      (arena.expr ref).foldM visit := by
  induction ref using arena.hierarchy.wellFounded.induction with
  | _ ref ih =>
    rw [Hierarchy.foldM_eq, Expr.foldM_eq_children, children_expr, List.mapM_map]
    exact congrArg (· >>= visit (arena.expr ref)) (mapM_congr_of_mem ih)

end Arena

/-! ### Evaluation -/

namespace Run

variable {α β : Type}

def Settles (run : Run α) : Prop :=
  ∀ machine fault next, run machine ≠ (.error (.fault fault), next)

theorem settles_attempt (run : Run α) : Settles (attempt run) := by
  intro machine fault next h
  unfold attempt at h
  split at h <;> cases h

theorem settles_pure (result : α) : Settles (pure result) := by
  rintro _ _ _ ⟨⟩

theorem Settles.bind {first : Run α} {rest : α → Run β} (h : Settles first)
    (hrest : ∀ result, Settles (rest result)) : Settles (first >>= rest) := by
  intro machine fault next hrun
  rw [bind_apply] at hrun
  rcases hfirst : first machine with ⟨stop | result, middle⟩ <;> rw [hfirst] at hrun
  · cases hrun
    exact h machine fault _ hfirst
  · exact hrest result middle fault next hrun

theorem settles_mapM {f : α → Run β} {xs : List α} (h : ∀ x ∈ xs, Settles (f x)) :
    Settles (xs.mapM f) := by
  induction xs with
  | nil => exact settles_pure []
  | cons x rest ih =>
    obtain ⟨hx, hrest⟩ := List.forall_mem_cons.mp h
    rw [List.mapM_cons]
    exact hx.bind fun _ => (ih hrest).bind fun _ => settles_pure _

theorem settles_foldM {visit : Expr → List β → Run β}
    (hvisit : ∀ expr results, Settles (visit expr results)) (expr : Expr) :
    Settles (expr.foldM visit) := by
  induction expr using Expr.hierarchy.wellFounded.induction with
  | _ expr ih =>
    rw [Expr.foldM_eq_children]
    exact (settles_mapM ih).bind (hvisit expr)

/-- What becomes of an expression, be it a value or a fault, is what recursion on it gives. -/
theorem attempt_eval (setting : Setting) (fuel : Nat) (expr : Expr) :
    attempt (eval setting (fuel + 1) expr) =
      expr.foldM (visitNode setting (eval setting fuel)) := by
  have hsettles : Settles (expr.foldM (visitNode setting (eval setting fuel))) :=
    settles_foldM (fun _ _ => settles_attempt _) expr
  funext machine
  unfold attempt
  rw [eval, bind_apply]
  rcases hrun : expr.foldM (visitNode setting (eval setting fuel)) machine with
    ⟨(fault | _) | (fault | value), next⟩
  · exact absurd hrun (hsettles machine fault next)
  · rfl
  · rfl
  · rfl

theorem attempt_bind_eq (run : Run α) {rest : Except Fault α → Run α}
    (hok : ∀ value, rest (.ok value) = pure value)
    (herror : ∀ fault, rest (.error fault) = throw (.fault fault)) :
    attempt run >>= rest = run := by
  funext machine
  rw [bind_apply]
  unfold attempt
  rcases run machine with ⟨(fault | _) | value, next⟩
  · exact congrFun (herror fault) next
  · rfl
  · exact congrFun (hok value) next

/-- All children are evaluated, before it matters whether one of them has failed. -/
theorem eval_eq_children (setting : Setting) (fuel : Nat) (expr : Expr) :
    eval setting (fuel + 1) expr = (do
      let outcomes ← expr.children.mapM fun child => attempt (eval setting (fuel + 1) child)
      let args ← collect outcomes
      evalNode setting (eval setting fuel) expr args) := by
  simp only [attempt_eval]
  rw [eval, Expr.foldM_eq_children, bind_assoc]
  exact bind_congr fun outcomes => attempt_bind_eq _ (fun _ => rfl) fun _ => rfl

theorem collect_map_ok (values : List α) : collect (values.map .ok) = pure values := by
  induction values with
  | nil => rfl
  | cons value rest ih =>
    rw [List.map_cons, collect, ih]
    rfl

theorem collect_of_fault (values : List α) (fault : Fault) (rest : List (Except Fault α)) :
    collect (values.map .ok ++ .error fault :: rest) = throw (.fault fault) := by
  induction values with
  | nil => rfl
  | cons value values ih =>
    rw [List.map_cons, List.cons_append, collect, ih]
    rfl

end Run

namespace Arena

/-- Evaluates the children of a node from left to right, whether they fail or not. -/
def childOutcomes {n : Nat} (arena : Arena n) (setting : Setting) (fuel : Nat) (ref : Fin n) :
    Run (List (Except Fault Value)) :=
  (arena.hierarchy.children ref).mapM fun child =>
    Run.attempt (Run.eval setting fuel (arena.expr child))

theorem eval_eq_childOutcomes {n : Nat} (arena : Arena n) (setting : Setting) (fuel : Nat)
    (ref : Fin n) : Run.eval setting (fuel + 1) (arena.expr ref) = (do
      let outcomes ← arena.childOutcomes setting (fuel + 1) ref
      let args ← Run.collect outcomes
      Run.evalNode setting (Run.eval setting fuel) (arena.expr ref) args) := by
  rw [Run.eval_eq_children, children_expr, List.mapM_map]
  rfl

/-- **Traversal is recursion.** Whatever effects a visitor has, the loop has those of recursion, and
gives the single result that recursion gives. A visitor with a state is called once for each node
that occurs, in post-order, and each time with the results of the children. So evaluation visits all
children of a node from left to right, and fails like the leftmost of those that fail. -/
theorem bottomUp_is_recursion {n : Nat} (arena : Arena n) (root : Fin n) :
    (∀ (m : Type → Type) [Monad m] [LawfulMonad m] (β : Type) (visit : Fin n → List β → m β),
      arena.hierarchy.bottomUp visit root = some <$> arena.hierarchy.foldM visit root) ∧
    (∀ (σ β : Type) (visit : Fin n → List β → StateM σ β) (state : σ), ∃ calls result last,
      (arena.hierarchy.bottomUp (Hierarchy.recording visit) root).run (state, []) =
        (some result, last, calls) ∧
      arena.hierarchy.Calls visit [root] state calls [result] last ∧
      calls.map Hierarchy.Call.node = arena.hierarchy.postorder root ∧
      (arena.hierarchy.bottomUp visit root).run state = (some result, last)) ∧
    (∀ setting fuel,
      arena.hierarchy.bottomUp
          (fun ref => Run.visitNode setting (Run.eval setting fuel) (arena.expr ref)) root =
        some <$> Run.attempt (Run.eval setting (fuel + 1) (arena.expr root))) ∧
    ∀ setting fuel machine next,
      (∀ stop, arena.childOutcomes setting (fuel + 1) root machine = (.error stop, next) →
        Run.eval setting (fuel + 1) (arena.expr root) machine = (.error stop, next)) ∧
      (∀ (values : List Value) fault rest, arena.childOutcomes setting (fuel + 1) root machine =
          (.ok (values.map .ok ++ .error fault :: rest), next) →
        Run.eval setting (fuel + 1) (arena.expr root) machine = (.error (.fault fault), next)) ∧
      ∀ values : List Value, arena.childOutcomes setting (fuel + 1) root machine =
          (.ok (values.map .ok), next) →
        Run.eval setting (fuel + 1) (arena.expr root) machine =
          Run.evalNode setting (Run.eval setting fuel) (arena.expr root) values next := by
  refine ⟨fun m _ _ β visit => arena.hierarchy.bottomUp_eq visit root,
    fun σ β visit state => arena.hierarchy.exists_calls_bottomUp visit root state,
    fun setting fuel => ?_, fun setting fuel machine next => ⟨?_, ?_, ?_⟩⟩
  · rw [Hierarchy.bottomUp_eq, foldM_expr, Run.attempt_eval]
  · intro stop hchildren
    rw [eval_eq_childOutcomes, Run.bind_apply, hchildren]
    rfl
  · intro values fault rest hchildren
    rw [eval_eq_childOutcomes, Run.bind_apply, hchildren]
    show (Run.collect _ >>= _ : Run Value) next = _
    rw [Run.collect_of_fault]
    rfl
  · intro values hchildren
    rw [eval_eq_childOutcomes, Run.bind_apply, hchildren]
    show (Run.collect _ >>= _ : Run Value) next = _
    rw [Run.collect_map_ok, pure_bind]

/-- A list of `7`, of its negation, which is a fault, and of other nodes that share the two. -/
def sharedFault : Arena 4 :=
  .push (.push (.push (.push .empty (.int 7)) (.not 0)) (.list [0, 0])) (.list [0, 1, 2, 1])

def noFunctions : Setting := { spec := {} }

theorem bottomUp_is_recursion_sharedFault :
    let fault : Fault := { cause := .operands (.negation .int) }
    (∀ visit : Fin 4 → List Nat → Id Nat,
      (sharedFault.hierarchy.bottomUp visit (Fin.last 3)).run =
        some (sharedFault.hierarchy.foldM visit (Fin.last 3)).run) ∧
    ∃ next, sharedFault.childOutcomes noFunctions (0 + 1) (Fin.last 3) (.new noFunctions) =
        (.ok ([.int 7].map .ok ++ .error fault :: [.ok (.list ⟨0⟩), .error fault]), next) ∧
      Run.eval noFunctions (0 + 1) (sharedFault.expr (Fin.last 3)) (.new noFunctions) =
        (.error (.fault fault), next) := by
  obtain ⟨hloop, -, -, heval⟩ := bottomUp_is_recursion sharedFault (Fin.last 3)
  refine ⟨fun visit => hloop Id Nat visit, ?_⟩
  have houtcomes :
      (sharedFault.childOutcomes noFunctions (0 + 1) (Fin.last 3) (.new noFunctions)).1 =
        .ok [.ok (.int 7), .error { cause := .operands (.negation .int) }, .ok (.list ⟨0⟩),
          .error { cause := .operands (.negation .int) }] := by
    decide +kernel
  rcases hrun : sharedFault.childOutcomes noFunctions (0 + 1) (Fin.last 3) (.new noFunctions) with
    ⟨outcomes, next⟩
  rw [hrun] at houtcomes
  subst houtcomes
  exact ⟨next, rfl, (heval noFunctions 0 _ next).2.1 [.int 7] _ _ hrun⟩

end Arena

end AbstractStateMachine
