import AbstractStateMachine.Proofs.Machine.Atomicity

/-!
# What a failed statement leaves behind

A statement that is executed on its own and fails is not undone in the update set: the layers of the
blocks it was in stay, on top of those that were there. A step applies the outermost layer only, so
a step that succeeds on top of such layers applies nothing of what its rule has recorded. Statements
that open no block, call no rule and pop nothing fail without a trace.
-/

namespace AbstractStateMachine

open UpdateSet Standard

namespace UpdateSet

variable {set next : UpdateSet}

/-- What a step applies of a block that has been left: all of it, unless the block had layers below
it, and nothing of it then. -/
theorem Layered.updates_eq (h : set.Layered next) :
    next.updates = if set.depth = 0 then next.top.values else set.updates := by
  rw [updates, bottom, h.below, depth, updates, bottom]
  cases set.below with
  | nil => rfl
  | cons layer below => rw [List.getLastD_cons, List.getLastD_cons, if_neg (by simp)]

end UpdateSet

inductive Stmt.Blockless : Stmt → Prop where
  | skip {span : Span} : Blockless { span, action := .skip }
  | update {span : Span} (function : FunctionId) (args : List Expr) (value : Expr) :
      Blockless { span, action := .update function args value }
  | ifThen {span : Span} (cond : Expr) {yes : Stmt} {no : Option Stmt} (hyes : yes.Blockless)
      (hno : ∀ stmt, no = some stmt → stmt.Blockless) :
      Blockless { span, action := .ifThen cond yes no }
  | cases {span : Span} (scrutinee : Expr) {arms : List (Expr × Stmt)} {default : Option Stmt}
      (harms : ∀ arm ∈ arms, arm.2.Blockless)
      (hdefault : ∀ stmt, default = some stmt → stmt.Blockless) :
      Blockless { span, action := .cases scrutinee arms default }
  | letIn {span : Span} (name : String) (value : Expr) {body : Stmt} (hbody : body.Blockless) :
      Blockless { span, action := .letIn name value body }
  | print {span : Span} (values : List Expr) : Blockless { span, action := .print values }
  | assert {span : Span} (cond : Expr) : Blockless { span, action := .assert cond }
  | abort {span : Span} (message : Option Expr) : Blockless { span, action := .abort message }
  | push {span : Span} (value : Expr) (target : FunctionId) (args : List Expr) :
      Blockless { span, action := .push value target args }

namespace Run

open Machine

variable {setting : Setting} {α β : Type} {machine next : Machine} {stop : Stop}

/-! ### Failing without a trace -/

def FailsClean (run : Run α) : Prop :=
  ∀ machine stop, (run machine).1 = .error stop → (run machine).2.pending = machine.pending

theorem OnlyObserves.bind_failsClean {first : Run α} {rest : α → Run β}
    (hfirst : OnlyObserves setting first) (hrest : ∀ result, FailsClean (rest result)) :
    FailsClean (first >>= rest) := by
  intro machine stop hstop
  have hpending := (hfirst machine).pending
  rw [bind_apply] at hstop ⊢
  rcases houtcome : first machine with ⟨_ | result, middle⟩ <;>
    rw [houtcome] at hstop hpending
  · exact hpending
  · exact (hrest result middle stop hstop).trans hpending

theorem failsClean_get {rest : Machine → Run α} (h : ∀ machine, FailsClean (rest machine)) :
    FailsClean (get >>= rest) :=
  fun machine => h machine machine

theorem failsClean_write (function : FunctionId) (args : List Value) (value : Value) (span : Span) :
    FailsClean (write setting function args value span) := by
  intro machine stop hstop
  cases hadd : machine.pending.add machine.heap setting.digest function args value span with
  | ok pending =>
    rw [write_of_add_ok hadd] at hstop
    cases hstop
  | error fault => rw [write_of_add_error hadd]

theorem failsClean_withLocal {run : Run α} (h : FailsClean run) (name : String) (value : Value) :
    FailsClean (withLocal name value run) :=
  fun machine => h { machine with locals := ⟨name, value⟩ :: machine.locals }

theorem failsClean_optionally {run : Stmt → Run Unit} {stmt : Option Stmt}
    (h : ∀ body, stmt = some body → FailsClean (run body)) : FailsClean (optionally run stmt) := by
  cases stmt with
  | none => exact fun _ _ _ => rfl
  | some body => exact h body rfl

theorem bind_selectArm_failsClean {evalLabel : Expr → Run Value}
    (hlabel : ∀ expr, OnlyObserves setting (evalLabel expr)) {run : Stmt → Run Unit} (value : Value)
    {default : Option Stmt} (hdefault : ∀ stmt, default = some stmt → FailsClean (run stmt))
    {arms : List (Expr × Stmt)} (harms : ∀ arm ∈ arms, FailsClean (run arm.2)) :
    FailsClean (selectArm evalLabel value default arms >>= optionally run) := by
  induction arms with
  | nil => exact failsClean_optionally hdefault
  | cons arm rest ih =>
    rw [selectArm, bind_assoc]
    refine (hlabel arm.1).bind_failsClean fun label => ?_
    rw [bind_assoc]
    refine failsClean_get fun machine => ?_
    split
    · exact harms arm List.mem_cons_self
    · exact ih fun arm harm => harms arm (List.mem_cons_of_mem _ harm)

theorem FailsClean.exec {span : Span} {action : Action}
    (h : ∀ fuel, FailsClean (execAction setting fuel (Run.exec setting fuel) span action))
    (fuel : Nat) : FailsClean (Run.exec setting fuel { span, action }) := by
  cases fuel with
  | zero => exact fun _ _ _ => rfl
  | succ fuel => exact fun machine => h fuel { machine with span }

theorem failsClean_exec {stmt : Stmt} (hstmt : stmt.Blockless) (fuel : Nat) :
    FailsClean (exec setting fuel stmt) := by
  induction hstmt generalizing fuel with refine FailsClean.exec (fun fuel => ?_) fuel
  | skip => exact fun _ _ _ => rfl
  | update function args value =>
    refine (onlyObserves_evalAll fuel args).bind_failsClean fun args => ?_
    refine (onlyObserves_eval fuel value).bind_failsClean fun value => ?_
    exact failsClean_write function args value _
  | ifThen cond hyes hno ihyes ihno =>
    refine (onlyObserves_eval fuel cond).bind_failsClean fun value => ?_
    refine (onlyObserves_decide value).bind_failsClean fun holds => ?_
    split
    · exact ihyes fuel
    · exact failsClean_optionally fun body hbody => ihno body hbody fuel
  | cases scrutinee harms hdefault iharms ihdefault =>
    refine (onlyObserves_eval fuel scrutinee).bind_failsClean fun value => ?_
    exact bind_selectArm_failsClean (onlyObserves_eval fuel) value
      (fun body hbody => ihdefault body hbody fuel) fun arm harm => iharms arm harm fuel
  | letIn name value hbody ih =>
    refine (onlyObserves_eval fuel value).bind_failsClean fun value => ?_
    exact failsClean_withLocal (ih fuel) name value
  | print values =>
    refine (onlyObserves_evalAll fuel values).bind_failsClean fun values => ?_
    exact fun _ _ _ => rfl
  | assert cond =>
    refine (onlyObserves_eval fuel cond).bind_failsClean fun value => ?_
    refine (onlyObserves_decide value).bind_failsClean fun holds => ?_
    split
    · exact fun _ _ _ => rfl
    · exact fun _ _ _ => rfl
  | abort message =>
    cases message with
    | none => exact fun _ _ _ => rfl
    | some message =>
      exact (onlyObserves_eval fuel message).bind_failsClean fun _ _ _ _ => rfl
  | push value target args =>
    refine (onlyObserves_eval fuel value).bind_failsClean fun value => ?_
    refine (onlyObserves_evalAll fuel args).bind_failsClean fun args => ?_
    refine (onlyObserves_read fuel target args).bind_failsClean fun current => ?_
    have htarget : OnlyObserves setting (pushTarget current) := onlyObserves_pushTarget current
    refine htarget.bind_failsClean fun list => ?_
    have hcons : OnlyObserves setting (onHeap fun heap => heap.cons value list) :=
      onlyObserves_onHeap _
    exact hcons.bind_failsClean fun pushed => failsClean_write target args (.list pushed) _

/-! ### Steps that follow -/

/-- A step that succeeds applies what is pending when its rule has run, in the layers that were
there before. -/
theorem exists_layered_of_step {fuel : Nat} (h : step setting fuel machine = (.ok true, next)) :
    ∃ last : Machine, machine.pending.Layered last.pending ∧ next = reclaimLists
      { last.applyPending setting true with
        steps := (last.applyPending setting true).steps + 1 } := by
  have hsteps := stepsTo_step setting fuel machine
  rw [h] at hsteps
  cases hsteps with
  | @done rule middle last _ hread hcall =>
    refine ⟨last, ?_, rfl⟩
    have hobserves : Observes setting { machine with span := {} } _ :=
      (onlyObserves_read fuel Specification.program [] _).toObserves
    have hkept : LayersKept setting middle _ :=
      keepsLayers_callRule (keepsLayers_exec fuel) rule [] middle
    rw [hread] at hobserves
    rw [orAbandon_eq_ok hcall] at hkept
    exact hobserves.pending ▸ hkept.layered () rfl

/-- What is left of a statement that has failed. -/
structure Residue (setting : Setting) (machine : Machine) (stmt : Stmt) (next : Machine) :
    Prop where
  unaffected : Unaffected setting machine next
  survives : machine.pending.Survives next.pending
  pending_of_blockless : stmt.Blockless → next.pending = machine.pending
  /-- What a step that follows and succeeds applies: everything that is pending when its rule has
  run, if no layer is left over, and nothing of what the rule has recorded otherwise. -/
  applied : ∀ fuel after, step setting fuel next = (.ok true, after) →
    ∃ last : Machine, next.pending.Layered last.pending ∧
      after = reclaimLists { last.applyPending setting true with
        steps := (last.applyPending setting true).steps + 1 } ∧
      last.pending.updates =
        if next.pending.depth = 0 then last.pending.top.values else next.pending.updates

/-- **Failed statements leave layers behind.** Whatever calls came before, a statement that fails
leaves the machine unaffected but for the update set. There the layers from before are still in
place, with those of the blocks that were not left on top of them; a step that follows drops what
its rule records exactly if there are any. -/
theorem residue_of_exec_error (setting : Setting) (calls : List Call) (fuel : Nat) (stmt : Stmt)
    (stop : Stop) (next : Machine)
    (h : exec setting fuel stmt (afterCalls setting calls) = (.error stop, next)) :
    Residue setting (afterCalls setting calls) stmt next := by
  have hidle := idle_afterCalls setting calls
  generalize afterCalls setting calls = machine at h hidle
  have hends := keeps_exec fuel stmt machine hidle.grounded acceptsAll_nil
  have hkept : LayersKept setting machine _ := keepsLayers_exec fuel stmt machine
  rw [h] at hends hkept
  refine ⟨hidle.unaffected hends.toContinues hkept.frames, hkept.survives, ?_, ?_⟩
  · intro hstmt
    have hclean : FailsClean (exec setting fuel stmt) := failsClean_exec hstmt fuel
    have hpending := hclean machine stop (congrArg Prod.fst h)
    rwa [h] at hpending
  · intro fuel after hstep
    obtain ⟨last, hlayered, hafter⟩ := exists_layered_of_step hstep
    exact ⟨last, hlayered, hafter, hlayered.updates_eq⟩

def writesY : Setting where
  spec :=
    { functions := #[{ name := "program", result := .rule }, { name := "x" }, { name := "y" }]
      rules := #[{ name := "main", body := some { action := .update ⟨2⟩ [] (.int 1) } }]
      start := some ⟨0⟩ }

def writeX : Stmt := { action := .update ⟨1⟩ [] (.int 1) }

def abortedBlock : Stmt := { action := .par [writeX, { action := .abort none }] }

/-- A sum of `1` and `true` is to be written to `x`. -/
def faultyWrite : Stmt := { action := .update ⟨1⟩ [] (.binary .add (.int 1) (.bool true)) }

/-- From the same machine a statement without blocks fails and leaves no trace, and a block that
fails leaves one layer, in which the step that follows gets stuck. -/
theorem residue_of_exec_error_writesY :
    (∃ stop next,
      exec writesY 5 faultyWrite (afterCalls writesY [.init 5]) = (.error stop, next) ∧
      next.pending = (afterCalls writesY [.init 5]).pending) ∧
    ∃ stop next after last,
      exec writesY 5 abortedBlock (afterCalls writesY [.init 5]) = (.error stop, next) ∧
      (afterCalls writesY [.init 5]).pending.Survives next.pending ∧
      step writesY 5 next = (.ok true, after) ∧ next.pending.Layered last ∧ last.updates = [] := by
  constructor
  · obtain ⟨stop, next, hexec⟩ : ∃ stop next,
        exec writesY 5 faultyWrite (afterCalls writesY [.init 5]) = (.error stop, next) :=
      ⟨_, _, rfl⟩
    exact ⟨stop, next, hexec,
      (residue_of_exec_error _ _ _ _ _ _ hexec).pending_of_blockless (.update _ _ _)⟩
  · obtain ⟨stop, next, after, hexec, hdepth, hupdates, hstep⟩ : ∃ stop next after,
        exec writesY 5 abortedBlock (afterCalls writesY [.init 5]) = (.error stop, next) ∧
        next.pending.depth = 1 ∧ next.pending.updates = [] ∧
        step writesY 5 next = (.ok true, after) := ⟨_, _, _, rfl, rfl, rfl, rfl⟩
    have hresidue := residue_of_exec_error _ _ _ _ _ _ hexec
    obtain ⟨last, hlayered, -, hlast⟩ := hresidue.applied _ _ hstep
    rw [hdepth, hupdates] at hlast
    exact ⟨stop, next, after, last.pending, hexec, hresidue.survives, hstep, hlayered, hlast⟩

/-- After the block has failed, the step still succeeds, but `y` does not get the value that it
would have got. -/
theorem not_traceless_abortedBlock :
    ∃ stop next after,
      exec writesY 5 abortedBlock (afterCalls writesY [.init 5]) = (.error stop, next) ∧
      next.pending ≠ (afterCalls writesY [.init 5]).pending ∧
      step writesY 5 next = (.ok true, after) ∧ after.get writesY ⟨2⟩ [] = .undefined ∧
      (afterCalls writesY [.init 5, .step 5]).get writesY ⟨2⟩ [] = .int 1 := by
  refine ⟨_, _, _, rfl, fun hpending => ?_, rfl, rfl, rfl⟩
  cases congrArg UpdateSet.depth hpending

end Run

end AbstractStateMachine
