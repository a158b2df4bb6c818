import AbstractStateMachine.Proofs.Machine.Layering

/-!
# Static scope

The bindings of all frames lie on one stack, of which a computation sees the part above the frame
base. A computation that is local to its frame does the same on any two stacks of which it sees the
same part, and gives the stack back as it was. The body of a rule or of a derived function runs in a
frame of its own, which starts with the parameters, so that calls are blind to the bindings of the
caller.
-/

namespace AbstractStateMachine

open Machine

namespace Machine

variable {machine : Machine}

/-- The machine with another stack of bindings, and the frame base in it. -/
def inFrame (machine : Machine) (locals : List Binding) (frameBase : Nat) : Machine :=
  { machine with locals, frameBase }

def entered (params : List String) (args : List Value) (machine : Machine) : Machine :=
  machine.inFrame ((List.zipWith Binding.mk params args).reverse ++ machine.locals)
    machine.locals.length

theorem visible_inFrame_cons {binding : Binding} {locals : List Binding} {frameBase : Nat}
    (hbase : frameBase ≤ locals.length) :
    (machine.inFrame (binding :: locals) frameBase).visible =
      binding :: (machine.inFrame locals frameBase).visible := by
  show List.take (locals.length + 1 - frameBase) (binding :: locals) = _
  rw [Nat.sub_add_comm hbase, List.take_succ_cons]
  rfl

theorem visible_entered (params : List String) (args : List Value) (machine : Machine) :
    (machine.entered params args).visible = (List.zipWith Binding.mk params args).reverse := by
  let bindings := (List.zipWith Binding.mk params args).reverse
  show (bindings ++ machine.locals).take
    ((bindings ++ machine.locals).length - machine.locals.length) = bindings
  rw [List.length_append, Nat.add_sub_cancel, List.take_left]

theorem lookupLocal_inFrame_cons {binding : Binding} {locals : List Binding} {frameBase : Nat}
    (hbase : frameBase ≤ locals.length) (name : String) :
    (machine.inFrame (binding :: locals) frameBase).lookupLocal name =
      if binding.name = name then binding.value
      else (machine.inFrame locals frameBase).lookupLocal name := by
  rw [lookupLocal, lookupLocal, visible_inFrame_cons hbase, List.find?_cons]
  by_cases hname : binding.name = name
  · rw [if_pos hname, beq_iff_eq.mpr hname]
    rfl
  · rw [if_neg hname, beq_eq_false_iff_ne.mpr hname]

end Machine

namespace Run

variable {setting : Setting} {α β : Type} {run first : Run α} {post : α → Prop} {rest : α → Run β}

def reframed (locals : List Binding) (frameBase : Nat) (outcome : Except Stop α × Machine) :
    Except Stop α × Machine :=
  (outcome.1, outcome.2.inFrame locals frameBase)

/-- The computation neither sees nor changes the stack of bindings. -/
def FrameBlind (run : Run α) : Prop :=
  ∀ machine locals frameBase,
    run (machine.inFrame locals frameBase) = reframed locals frameBase (run machine)

/-- The computation sees what is visible of the stack of bindings, and changes nothing of it. -/
def FrameLocal (run : Run α) : Prop :=
  ∀ (machine : Machine) (locals : List Binding) (frameBase : Nat),
    machine.frameBase ≤ machine.locals.length → frameBase ≤ locals.length →
    (machine.inFrame locals frameBase).visible = machine.visible →
    run (machine.inFrame locals frameBase) = reframed locals frameBase (run machine)

theorem FrameBlind.frameLocal (h : FrameBlind run) : FrameLocal run :=
  fun machine locals frameBase _ _ _ => h machine locals frameBase

/-- The stack of bindings is given back, however the computation ended. -/
structure Balanced (machine : Machine) (outcome : Except Stop α × Machine) : Prop where
  locals : outcome.2.locals = machine.locals
  frameBase : outcome.2.frameBase = machine.frameBase

theorem FrameLocal.balanced (h : FrameLocal run) {machine : Machine}
    (hbase : machine.frameBase ≤ machine.locals.length) : Balanced machine (run machine) := by
  have hsame : run machine = reframed machine.locals machine.frameBase (run machine) :=
    h machine machine.locals machine.frameBase hbase hbase rfl
  exact ⟨congrArg (·.2.locals) hsame, congrArg (·.2.frameBase) hsame⟩

/-! ### Rules -/

def Gives (post : α → Prop) (run : Run α) : Prop :=
  ∀ machine result, (run machine).1 = .ok result → post result

theorem gives_any (run : Run α) : Gives AnyResult run := fun _ _ _ => trivial

theorem Gives.bind {last : β → Prop} (h : Gives post first)
    (hrest : ∀ result, post result → Gives last (rest result)) : Gives last (first >>= rest) := by
  intro machine result hresult
  rw [bind_apply] at hresult
  rcases hfirst : first machine with ⟨stop | value, next⟩ <;> rw [hfirst] at hresult
  · cases hresult
  · exact hrest value (h machine value (congrArg Prod.fst hfirst)) next result hresult

theorem Gives.attempt (h : Gives post run) :
    Gives (Settled AnyResult post) (Computation.attempt run) := by
  intro machine result hresult
  unfold Computation.attempt at hresult
  rcases hrun : run machine with ⟨(fault | _) | value, next⟩ <;> rw [hrun] at hresult <;>
    cases hresult
  · trivial
  · exact h machine value (congrArg Prod.fst hrun)

theorem FrameLocal.bind_of_gives (hfirst : FrameLocal first) (hgives : Gives post first)
    (hrest : ∀ result, post result → FrameLocal (rest result)) : FrameLocal (first >>= rest) := by
  intro machine locals frameBase hbase hbase' hvisible
  obtain ⟨hlocals, hframe⟩ := hfirst.balanced hbase
  rw [bind_apply, bind_apply, hfirst machine locals frameBase hbase hbase' hvisible]
  rcases hrun : first machine with ⟨stop | result, next⟩ <;> rw [hrun] at hlocals hframe
  · rfl
  · have hnext : next.visible = machine.visible := by
      rw [visible, visible, hlocals, hframe]
    refine hrest result (hgives machine result (congrArg Prod.fst hrun)) next locals frameBase ?_
      hbase' (hvisible.trans hnext.symm)
    rw [hlocals, hframe]
    exact hbase

theorem FrameLocal.bind (hfirst : FrameLocal first) (hrest : ∀ result, FrameLocal (rest result)) :
    FrameLocal (first >>= rest) :=
  hfirst.bind_of_gives (gives_any first) fun result _ => hrest result

theorem FrameLocal.attempt (h : FrameLocal run) : FrameLocal (Computation.attempt run) := by
  intro machine locals frameBase hbase hbase' hvisible
  unfold Computation.attempt
  rw [h machine locals frameBase hbase hbase' hvisible]
  rcases run machine with ⟨(fault | _) | result, next⟩ <;> rfl

theorem FrameLocal.withLocal (h : FrameLocal run) (name : String) (value : Value) :
    FrameLocal (withLocal name value run) := by
  intro machine locals frameBase hbase hbase' hvisible
  have hrun := h (machine.inFrame (⟨name, value⟩ :: machine.locals) machine.frameBase)
    (⟨name, value⟩ :: locals) frameBase (Nat.le_succ_of_le hbase) (Nat.le_succ_of_le hbase') (by
      show (machine.inFrame _ _).visible = _
      rw [visible_inFrame_cons hbase', visible_inFrame_cons hbase, hvisible]
      rfl)
  exact congrArg (fun outcome : Except Stop α × Machine =>
    (outcome.1, { outcome.2 with locals := outcome.2.locals.tail })) hrun

/-- A call runs its body where the parameters are visible, and the caller gets back its bindings. -/
theorem withFrame_apply {params : List String} {args : List Value} {machine : Machine}
    (h : Balanced (machine.entered params args) (run (machine.entered params args))) :
    withFrame params args run machine =
      reframed machine.locals machine.frameBase (run (machine.entered params args)) := by
  let bindings := (List.zipWith Binding.mk params args).reverse
  have hdrop : (bindings ++ machine.locals).drop
      ((bindings ++ machine.locals).length - machine.locals.length) = machine.locals := by
    rw [List.length_append, Nat.add_sub_cancel, List.drop_left]
  generalize hrun : run (machine.entered params args) = outcome at h ⊢
  have hleft : withFrame params args run machine = (outcome.1, outcome.2.inFrame
      (outcome.2.locals.drop (outcome.2.locals.length - outcome.2.frameBase))
      machine.frameBase) := by
    rw [← hrun]
    rfl
  rw [hleft, h.locals, h.frameBase]
  exact congrArg (fun locals => (outcome.1, outcome.2.inFrame locals machine.frameBase)) hdrop

theorem FrameLocal.withFrame (h : FrameLocal run) (params : List String) (args : List Value) :
    FrameBlind (withFrame params args run) := by
  intro machine locals frameBase
  have hbase (machine : Machine) : (machine.entered params args).frameBase ≤
      (machine.entered params args).locals.length := by
    show machine.locals.length ≤ (_ ++ machine.locals).length
    rw [List.length_append]
    exact Nat.le_add_left _ _
  rw [withFrame_apply (h.balanced (hbase _)), withFrame_apply (h.balanced (hbase _))]
  have hvisible : ((machine.inFrame locals frameBase).entered params args).visible =
      (machine.entered params args).visible := by
    rw [visible_entered, visible_entered]
  have hrun := h (machine.entered params args)
    ((List.zipWith Binding.mk params args).reverse ++ locals) locals.length (hbase machine)
    (hbase (machine.inFrame locals frameBase)) hvisible
  exact (congrArg (reframed locals frameBase) hrun :)

/-! ### Operations -/

theorem frameBlind_pure (result : α) : FrameBlind (pure result) :=
  fun _ _ _ => rfl

theorem frameBlind_raise (cause : Cause) : FrameBlind (raise cause : Run α) :=
  fun _ _ _ => rfl

theorem frameBlind_onRecorder (operation : Recorder → α × Recorder) :
    FrameBlind (onRecorder operation) :=
  fun _ _ _ => rfl

theorem frameBlind_operand (outcome : Operation.Outcome) : FrameBlind (operand outcome) := by
  cases outcome with
  | error error => exact frameBlind_raise _
  | ok value => exact frameBlind_pure value

theorem frameBlind_symbolicBinary (op : BinaryOp) (left right : Value) :
    FrameBlind (symbolicBinary setting op left right) := by
  unfold symbolicBinary
  split
  · exact frameBlind_pure _
  intro machine locals frameBase
  rw [get_bind_apply, get_bind_apply]
  cases DefinitionOp.ofBinaryOp? op with
  | some definition => rfl
  | none =>
    cases Condition.ofComparison? op left right with
    | none => rfl
    | some cond =>
      dsimp only [inFrame]
      cases machine.recorder.check cond <;> rfl

theorem frameBlind_binary (op : BinaryOp) (left right : Value) :
    FrameBlind (binary setting op left right) := by
  unfold binary
  split
  · exact frameBlind_symbolicBinary op left right
  · exact fun machine => frameBlind_operand (Operation.binary machine.heap op left right) machine

theorem frameBlind_negation (value : Value) : FrameBlind (negation value) := by
  unfold negation
  split
  · exact frameBlind_onRecorder _
  · exact frameBlind_operand _

theorem frameBlind_builtin (op : Builtin) (args : List Value) :
    FrameBlind (builtin setting op args) := by
  intro machine locals frameBase
  rw [builtin, get_bind_apply, get_bind_apply]
  dsimp only [inFrame]
  cases Operation.builtin machine.heap machine.lease op args with
  | ok result => rfl
  | error error =>
    dsimp only
    split
    · rfl
    · rfl

theorem frameBlind_range (low high : Value) : FrameBlind (range low high) := by
  unfold range
  split
  · exact fun _ _ _ => rfl
  · split
    · exact frameBlind_pure _
    · exact frameBlind_raise _

theorem frameLocal_lookup (name : String) : FrameLocal (do
    let machine ← get
    pure (machine.lookupLocal name)) := by
  intro machine locals frameBase _ _ hvisible
  rw [get_bind_apply, get_bind_apply, lookupLocal, lookupLocal, hvisible]
  rfl

theorem frameLocal_operate {expr : Expr} (args : List Value)
    (hread : ∀ function args, expr ≠ .read function args) :
    FrameLocal ((backend setting).operate expr args) := by
  show FrameLocal (evalNode setting (fun _ => outOfFuel) expr args)
  cases expr with
  | read function args => exact absurd rfl (hread function args)
  | var name => exact frameLocal_lookup name
  | builtin op _ => exact (frameBlind_builtin op args).frameLocal
  | list _ => exact FrameBlind.frameLocal fun _ _ _ => rfl
  | binary op _ _ =>
    match args with
    | [left, right] => exact (frameBlind_binary op left right).frameLocal
    | [] | [_] | _ :: _ :: _ :: _ => exact (frameBlind_pure _).frameLocal
  | not _ =>
    match args with
    | [value] => exact (frameBlind_negation value).frameLocal
    | [] | _ :: _ :: _ => exact (frameBlind_pure _).frameLocal
  | range _ _ =>
    match args with
    | [low, high] => exact (frameBlind_range low high).frameLocal
    | [] | [_] | _ :: _ :: _ :: _ => exact (frameBlind_pure _).frameLocal
  | _ => exact (frameBlind_pure _).frameLocal

theorem frameBlind_readStored (function : FunctionId) (args : List Value) :
    FrameBlind (readStored setting function args) := by
  intro machine locals frameBase
  rw [readStored, get_bind_apply, get_bind_apply]
  dsimp only [inFrame]
  cases machine.pending.lookup machine.heap function (machine.heap.argKey setting.digest args)
      args with
  | some value => rfl
  | none =>
    cases machine.state.get? machine.heap function (machine.heap.argKey setting.digest args)
        args with
    | some value => rfl
    | none =>
      dsimp only
      split
      · rfl
      · rfl

theorem frameBlind_decide (value : Value) : FrameBlind (decide setting value) := by
  unfold decide
  split
  · exact frameBlind_pure _
  · exact frameBlind_pure _
  split
  · exact frameBlind_raise _
  · next cond _ =>
      intro machine locals frameBase
      rw [get_bind_apply, get_bind_apply]
      dsimp only [inFrame]
      cases machine.recorder.check cond <;> rfl

theorem frameBlind_domainElements (domain : Value) : FrameBlind (domainElements domain) := by
  cases domain <;> exact fun _ _ _ => rfl

theorem frameBlind_ruleOf (value : Value) : FrameBlind (ruleOf value) := by
  cases value <;> exact fun _ _ _ => rfl

theorem frameBlind_write (function : FunctionId) (args : List Value) (value : Value)
    (span : Span) : FrameBlind (write setting function args value span) := by
  intro machine locals frameBase
  rw [write, get_bind_apply, get_bind_apply]
  dsimp only [inFrame]
  cases machine.pending.add machine.heap setting.digest function args value span <;> rfl

theorem frameBlind_leave (merge : UpdateSet → ListHeap → Bool → UpdateSet × Option Fault)
    (forked : Bool) : FrameBlind (leave merge forked) := by
  intro machine locals frameBase
  rw [leave, get_bind_apply, get_bind_apply]
  dsimp only [inFrame]
  rcases merge machine.pending machine.heap forked with ⟨merged, _ | fault⟩ <;> rfl

/-! ### Expressions and statements -/

theorem evalClosed_frameLocal (setting : Setting) :
    EvalClosed (backend setting) AnyResult fun post run =>
      FrameLocal run ∧ Gives post run where
  pure h := ⟨(frameBlind_pure _).frameLocal, fun _ _ heq => Except.ok.inj heq ▸ h⟩
  outOfFuel := ⟨FrameBlind.frameLocal fun _ _ _ => rfl, nofun⟩
  fault _ := ⟨FrameBlind.frameLocal fun _ _ _ => rfl, nofun⟩
  raise _ := ⟨(frameBlind_raise _).frameLocal, nofun⟩
  bind hfirst hrest := ⟨hfirst.1.bind_of_gives hfirst.2 fun _ hresult => (hrest _ hresult).1,
    hfirst.2.bind fun _ hresult => (hrest _ hresult).2⟩
  attempt h := ⟨h.1.attempt, h.2.attempt⟩
  withFrame params args h := ⟨(h.1.withFrame params args).frameLocal, fun machine =>
    h.2 ((backend setting).enterFrame params args machine)⟩
  readStored function args := ⟨(frameBlind_readStored function args).frameLocal, gives_any _⟩
  operate _ args hread := ⟨frameLocal_operate args hread, gives_any _⟩
  equal value label _ hrest := ⟨fun machine => (hrest (machine.heap.equal value label)).1 machine,
    fun machine => (hrest (machine.heap.equal value label)).2 machine⟩

theorem frameLocal_selectArm {run : Stmt → Run Unit} (hrun : ∀ stmt, FrameLocal (run stmt))
    (fuel : Nat) (value : Value) (default : Option Stmt) (arms : List (Expr × Stmt)) :
    FrameLocal (do
      let selected ← (backend setting).selectArm ((backend setting).eval fuel) value
        default arms
      Backend.optionally run selected) := by
  have hselects := (evalClosed_frameLocal setting).selectArm fuel value
    (List.subset_append_left default.toList (arms.map Prod.snd)) (List.subset_append_right _ _)
  refine hselects.1.bind fun selected => ?_
  cases selected with
  | none => exact (frameBlind_pure _).frameLocal
  | some stmt => exact hrun stmt

theorem FrameLocal.block {run : Run Unit} (h : FrameLocal run) (parallel : Bool) :
    FrameLocal ((backend setting).inBlock parallel run) :=
  have henter : FrameBlind ((backend setting).enter parallel) := fun _ _ _ => rfl
  henter.frameLocal.bind fun forked => h.bind fun _ =>
    (frameBlind_leave UpdateSet.merge forked).frameLocal

theorem FrameLocal.rounds {run : Run Unit} (h : FrameLocal run) (fuel : Nat) :
    FrameLocal ((backend setting).rounds run fuel) := by
  induction fuel with
  | zero => exact FrameBlind.frameLocal fun _ _ _ => rfl
  | succ fuel ih =>
    have hleft (forked done : Bool) : FrameLocal (do
        (backend setting).leaveRound forked
        if done then pure () else (backend setting).rounds run fuel) := by
      refine (frameBlind_leave UpdateSet.mergeRound forked).frameLocal.bind fun _ => ?_
      split
      · exact (frameBlind_pure _).frameLocal
      · exact ih
    have henter : FrameBlind ((backend setting).enter true) := fun _ _ _ => rfl
    refine henter.frameLocal.bind fun forked => h.bind fun _ => ?_
    exact fun machine => hleft forked machine.pending.topIsEmpty machine

theorem execClosed_frameLocal (setting : Setting) :
    ExecClosed (backend setting) (fun _ => True) (fun _ => True) FrameLocal FrameLocal
      FrameLocal where
  eval fuel expr := ((evalClosed_frameLocal setting).eval fuel expr).1
  evalAll fuel exprs := ((evalClosed_frameLocal setting).evalAll fuel exprs).1
  read fuel function args := ((evalClosed_frameLocal setting).read fuel function args).1
  decide value := (frameBlind_decide value).frameLocal
  elements value := (frameBlind_domainElements value).frameLocal
  ruleOf value := (frameBlind_ruleOf value).frameLocal
  print _ := FrameBlind.frameLocal fun _ _ _ => rfl
  pushed value current := by
    cases current <;> exact FrameBlind.frameLocal fun _ _ _ => rfl
  popped current := by
    cases current <;> exact FrameBlind.frameLocal fun _ _ _ => rfl
  write function args value span _ := (frameBlind_write function args value span).frameLocal
  raise _ := (frameBlind_raise _).frameLocal
  abort _ := FrameBlind.frameLocal fun _ _ _ => rfl
  own := id
  continued := FrameLocal.bind
  selecting fuel value _ hrun := frameLocal_selectArm (fun stmt => hrun stmt trivial) fuel value _ _
  nested := id
  done := (frameBlind_pure ()).frameLocal
  andThen hfirst hrest := hfirst.bind fun _ => hrest
  withLocal name value hrun := hrun.withLocal name value
  withFrame params args hrun := (hrun.withFrame params args).frameLocal
  inBlock parallel hrun := hrun.block parallel
  iterate fuel hrun := (hrun.rounds fuel).block false

theorem balanced_eval (fuel : Nat) (expr : Expr) (machine : Machine) :
    Balanced machine (eval setting fuel expr machine) :=
  have hobserves := onlyObserves_eval fuel expr machine
  ⟨hobserves.locals, hobserves.frameBase⟩

theorem balanced_exec (fuel : Nat) (stmt : Stmt) (machine : Machine) :
    Balanced machine (exec setting fuel stmt machine) :=
  have hframes := (keepsLayers_exec fuel stmt machine).frames
  ⟨hframes.locals, hframes.frameBase⟩

theorem frameLocal_eval (fuel : Nat) (expr : Expr) : FrameLocal (eval setting fuel expr) := by
  rw [eval_eq]
  exact ((evalClosed_frameLocal setting).eval fuel expr).1

theorem frameLocal_exec (fuel : Nat) (stmt : Stmt) : FrameLocal (exec setting fuel stmt) := by
  rw [exec_eq]
  exact (execClosed_frameLocal setting).exec (FrameBlind.frameLocal fun _ _ _ => rfl)
    (fun _ => FrameBlind.frameLocal fun _ _ _ => rfl) fuel stmt

theorem frameBlind_read (fuel : Nat) (function : FunctionId) (args : List Value) :
    FrameBlind (read setting fuel function args) := by
  unfold read readWith
  dsimp only
  split
  · split
    · exact (frameLocal_eval fuel _).withFrame _ args
    · exact frameBlind_raise _
  · exact frameBlind_readStored function args
  · exact frameBlind_readStored function args

theorem frameBlind_callRule (fuel : Nat) (rule : RuleId) (args : List Value) :
    FrameBlind (callRule setting (exec setting fuel) rule args) := by
  unfold callRule
  dsimp only
  split
  · split
    · exact frameBlind_pure _
    · exact (frameLocal_exec fuel _).withFrame _ args
  · exact frameBlind_raise _

/-- However evaluation and execution end, they give the stack of bindings back, and they do the same
on any two stacks of which the same is visible. Calls do the same whatever the bindings of the
caller are: their bodies run where just the parameters are visible. A further binding hides those
of the same name. -/
theorem static_scope (setting : Setting) (fuel : Nat) :
    (∀ expr machine, Balanced machine (eval setting fuel expr machine)) ∧
    (∀ stmt machine, Balanced machine (exec setting fuel stmt machine)) ∧
    (∀ expr, FrameLocal (eval setting fuel expr)) ∧
    (∀ stmt, FrameLocal (exec setting fuel stmt)) ∧
    (∀ function args, FrameBlind (read setting fuel function args)) ∧
    (∀ rule args, FrameBlind (callRule setting (exec setting fuel) rule args)) ∧
    ∀ machine : Machine,
      (∀ params args,
        (machine.entered params args).visible = (List.zipWith Binding.mk params args).reverse ∧
        (∀ body, withFrame params args (eval setting fuel body) machine =
          reframed machine.locals machine.frameBase
            (eval setting fuel body (machine.entered params args))) ∧
        ∀ body, withFrame params args (exec setting fuel body) machine =
          reframed machine.locals machine.frameBase
            (exec setting fuel body (machine.entered params args))) ∧
      (machine.frameBase ≤ machine.locals.length → ∀ binding name,
        (machine.inFrame (binding :: machine.locals) machine.frameBase).lookupLocal name =
          if binding.name = name then binding.value else machine.lookupLocal name) := by
  refine ⟨balanced_eval fuel, balanced_exec fuel, frameLocal_eval fuel, frameLocal_exec fuel,
    frameBlind_read fuel, frameBlind_callRule fuel, fun machine => ⟨fun params args => ?_, ?_⟩⟩
  · refine ⟨visible_entered params args machine, fun body => ?_, fun body => ?_⟩
    · exact withFrame_apply (balanced_eval fuel body _)
    · exact withFrame_apply (balanced_exec fuel body _)
  · exact fun hbase binding name => lookupLocal_inFrame_cons hbase name

def doubling : Setting where
  spec :=
    { functions := #[{ name := "program", result := .rule },
        { name := "double", args := [.int],
          kind := .derived ["x"] (.binary .add (.var "x") (.var "x")) }] }

/-- The caller has a binding of the same name as the parameter. -/
theorem static_scope_doubling :
    let machine := new doubling
    let caller := machine.inFrame [⟨"x", .int 100⟩] 0
    machine.frameBase ≤ machine.locals.length ∧ caller.lookupLocal "x" = .int 100 ∧
      (read doubling 1 ⟨1⟩ [.int 3] caller).1 = .ok (.int 6) := by
  obtain ⟨-, -, -, -, hread, -, hmachine⟩ := static_scope doubling 1
  refine ⟨Nat.le_refl 0, ?_, ?_⟩
  · exact (hmachine (new doubling)).2 (Nat.le_refl 0) ⟨"x", .int 100⟩ "x"
  · rw [hread ⟨1⟩ [.int 3] (new doubling) [⟨"x", .int 100⟩] 0]
    decide

end Run

end AbstractStateMachine
