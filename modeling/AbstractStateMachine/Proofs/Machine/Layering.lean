import AbstractStateMachine.Proofs.Machine.Effects

/-!
# Execution gives back the layers

Blocks, rounds of iterations and calls may push layers onto the update set. A statement that
succeeds has merged every layer it pushed: the layers below the innermost one are those from before,
and the innermost one has lost no key. A statement that fails may leave layers behind on top of
those, but nothing else.
-/

namespace AbstractStateMachine.Run

open UpdateSet

variable {setting : Setting} {α β : Type} {machine next : Machine} {run : Run α} {body : Run Unit}

structure LayersKept (setting : Setting) (machine : Machine) (outcome : Except Stop α × Machine) :
    Prop where
  frames : machine.Frames setting outcome.2
  survives : machine.pending.Survives outcome.2.pending
  layered : ∀ result, outcome.1 = .ok result → machine.pending.Layered outcome.2.pending

theorem layersKept_of_layered {outcome : Except Stop α × Machine}
    (hframes : machine.Frames setting outcome.2)
    (hlayered : machine.pending.Layered outcome.2.pending) : LayersKept setting machine outcome :=
  ⟨hframes, hlayered.survives, fun _ _ => hlayered⟩

def KeepsLayers (setting : Setting) (run : Run α) : Prop :=
  ∀ machine, LayersKept setting machine (run machine)

/-! ### Rules -/

theorem LayersKept.bind {first : Run α} {rest : α → Run β}
    (h : LayersKept setting machine (first next))
    (hrest : ∀ result, KeepsLayers setting (rest result)) :
    LayersKept setting machine ((first >>= rest) next) := by
  rw [bind_apply]
  rcases hrun : first next with ⟨stop | result, last⟩ <;> rw [hrun] at h
  · exact ⟨h.frames, h.survives, by rintro _ ⟨⟩⟩
  · have hlast := hrest result last
    have hlayered := h.layered result rfl
    exact ⟨h.frames.trans hlast.frames, hlayered.trans_survives hlast.survives,
      fun final hfinal => hlayered.trans (hlast.layered final hfinal)⟩

theorem KeepsLayers.bind {first : Run α} {rest : α → Run β} (hfirst : KeepsLayers setting first)
    (hrest : ∀ result, KeepsLayers setting (rest result)) :
    KeepsLayers setting (first >>= rest) :=
  fun machine => (hfirst machine).bind hrest

theorem OnlyObserves.keepsLayers (h : OnlyObserves setting run) : KeepsLayers setting run := by
  intro machine
  refine layersKept_of_layered (h machine).toFrames ?_
  rw [(h machine).pending]
  exact .refl _

theorem keepsLayers_pure (result : α) : KeepsLayers setting (pure result) :=
  (onlyObserves_pure result).keepsLayers

theorem keepsLayers_write (function : FunctionId) (args : List Value) (value : Value)
    (span : Span) : KeepsLayers setting (write setting function args value span) := by
  intro machine
  cases hadd : machine.pending.add machine.heap setting.digest function args value span with
  | error fault =>
    have hwrite : write setting function args value span machine = _ := write_of_add_error hadd
    rw [hwrite]
    exact layersKept_of_layered (.refl setting machine) (.refl _)
  | ok pending =>
    have hwrite : write setting function args value span machine = _ := write_of_add_ok hadd
    rw [hwrite]
    exact layersKept_of_layered (Machine.frames_of_state rfl rfl (Nat.le_refl _))
      (layered_add hadd)

theorem keepsLayers_withLocal (h : KeepsLayers setting run) (name : String) (value : Value) :
    KeepsLayers setting (withLocal name value run) := by
  intro machine
  have hrun := h { machine with locals := ⟨name, value⟩ :: machine.locals }
  exact ⟨Machine.frames_withLocal hrun.frames, hrun.survives, hrun.layered⟩

theorem keepsLayers_withFrame (h : KeepsLayers setting run) (params : List String)
    (args : List Value) : KeepsLayers setting (withFrame params args run) := by
  intro machine
  have hrun := h { machine with
    frameBase := machine.locals.length
    locals := (List.zipWith Binding.mk params args).reverse ++ machine.locals }
  exact ⟨Machine.frames_withFrame hrun.frames, hrun.survives, hrun.layered⟩

/-! ### Blocks -/

theorem layersKept_leave {merge : UpdateSet → ListHeap → Bool → UpdateSet × Option Fault}
    {forked : Bool} (hframes : machine.Frames setting next)
    (hlayered : machine.pending.Layered (merge next.pending next.heap forked).1) :
    LayersKept setting machine (leave merge forked next) := by
  have hmerged : ∀ pending, machine.Frames setting { next with pending } := fun _ =>
    hframes.trans (Machine.frames_of_state rfl rfl (Nat.le_refl _))
  rcases hmerge : merge next.pending next.heap forked with ⟨merged, _ | fault⟩ <;>
    rw [hmerge] at hlayered
  · rw [leave_of_merge_ok hmerge]
    exact layersKept_of_layered (hmerged merged) hlayered
  · rw [leave_of_merge_error hmerge]
    exact layersKept_of_layered (hmerged merged) hlayered

/-- The body of a block runs in the layer that was entered; what follows it may rely on the layers
being below that one still. -/
theorem layersKept_entered {fork : UpdateSet → Bool × UpdateSet}
    (hfork : machine.pending.Enters (fork machine.pending)) (hbody : KeepsLayers setting body)
    {rest : Bool → Run α} (hrest : ∀ next, machine.Frames setting next →
      (fork machine.pending).2.Layered next.pending →
      LayersKept setting machine (rest (fork machine.pending).1 next)) :
    LayersKept setting machine ((do
      let forked ← onPending fork
      body
      rest forked : Run α) machine) := by
  have hrun := hbody { machine with pending := (fork machine.pending).2 }
  have hentered : machine.Frames setting { machine with pending := (fork machine.pending).2 } :=
    Machine.frames_of_state rfl rfl (Nat.le_refl _)
  rw [bind_apply, onPending_apply]
  show LayersKept setting machine ((body >>= fun _ => rest (fork machine.pending).1)
    { machine with pending := (fork machine.pending).2 })
  rw [bind_apply]
  generalize body { machine with pending := (fork machine.pending).2 } = outcome at hrun ⊢
  obtain ⟨stop | _, next⟩ := outcome
  · exact ⟨hentered.trans hrun.frames, hfork.survives hrun.survives, by rintro _ ⟨⟩⟩
  · exact hrest next (hentered.trans hrun.frames) (hrun.layered _ rfl)

theorem keepsLayers_inBlock {fork : UpdateSet → Bool × UpdateSet}
    (hfork : ∀ set : UpdateSet, set.Enters (fork set)) {body : Run Unit}
    (hbody : KeepsLayers setting body) : KeepsLayers setting (inBlock fork body) := by
  intro machine
  refine layersKept_entered (hfork machine.pending) hbody fun next hframes hlayered => ?_
  exact layersKept_leave hframes ((hfork machine.pending).layered_merge hlayered next.heap)

theorem keepsLayers_block (parallel : Bool) (hbody : KeepsLayers setting body) :
    KeepsLayers setting ((Machine.backend setting).inBlock parallel body) := by
  cases parallel with
  | true => exact keepsLayers_inBlock enters_forkParallel hbody
  | false => exact keepsLayers_inBlock enters_forkSequential hbody

theorem keepsLayers_rounds (hbody : KeepsLayers setting body) (fuel : Nat) :
    KeepsLayers setting (rounds body fuel) := by
  induction fuel with
  | zero => exact onlyObserves_outOfFuel.keepsLayers
  | succ fuel ih =>
    intro machine
    have henter := enters_forkParallel machine.pending
    refine layersKept_entered henter hbody fun next hframes hlayered => ?_
    rw [get_bind_apply]
    refine (layersKept_leave hframes
      (henter.layered_mergeRound hlayered next.heap)).bind fun _ => ?_
    split
    · exact keepsLayers_pure _
    · exact ih

/-! ### Statements -/

theorem keepsLayers_modify {change : Machine → Machine}
    (hframes : ∀ machine : Machine, machine.Frames setting (change machine))
    (hpending : ∀ machine, (change machine).pending = machine.pending) :
    KeepsLayers setting (modify change) := by
  refine fun machine => layersKept_of_layered (hframes machine) ?_
  show machine.pending.Layered (change machine).pending
  rw [hpending]
  exact .refl _

theorem keepsLayers_selectArm {run : Stmt → Run Unit}
    (hrun : ∀ stmt, KeepsLayers setting (run stmt)) (fuel : Nat) (value : Value)
    (default : Option Stmt) (arms : List (Expr × Stmt)) :
    KeepsLayers setting (do
      let selected ← selectArm (eval setting fuel) value default arms
      optionally run selected) := by
  refine (onlyObserves_selectArm fuel value default arms).keepsLayers.bind fun selected => ?_
  cases selected with
  | none => exact keepsLayers_pure _
  | some stmt => exact hrun stmt

theorem execClosed_keepsLayers (setting : Setting) :
    ExecClosed (Machine.backend setting) (fun _ => True) (fun _ => True) (KeepsLayers setting)
      (KeepsLayers setting) (KeepsLayers setting) where
  eval fuel expr := by
    rw [← eval_eq]
    exact (onlyObserves_eval fuel expr).keepsLayers
  evalAll fuel exprs := by
    rw [← evalAll_eq]
    exact (onlyObserves_evalAll fuel exprs).keepsLayers
  read fuel function args := by
    rw [← read_eq]
    exact (onlyObserves_read fuel function args).keepsLayers
  decide value := (onlyObserves_decide value).keepsLayers
  elements value := (onlyObserves_domainElements value).keepsLayers
  ruleOf value := (onlyObserves_ruleOf value).keepsLayers
  print _ :=
    keepsLayers_modify (fun _ => Machine.frames_of_state rfl rfl (Nat.le_refl _)) fun _ => rfl
  pushed value current := (onlyObserves_pushed value current).keepsLayers
  popped current := (onlyObserves_popped current).keepsLayers
  write function args value span _ := keepsLayers_write function args value span
  raise h := (onlyObserves_raise h).keepsLayers
  abort value := (onlyObserves_get fun machine => onlyObserves_raise
    (show (Cause.aborted (machine.text setting value)).kind ≠ _ from nofun)).keepsLayers
  own := id
  continued := KeepsLayers.bind
  selecting fuel value _ hrun := by
    rw [← eval_eq]
    simp only [← selectArm_eq, ← optionally_eq]
    exact keepsLayers_selectArm (fun stmt => hrun stmt trivial) fuel value _ _
  nested := id
  done := keepsLayers_pure ()
  andThen hfirst hrest := hfirst.bind fun _ => hrest
  withLocal name value hrun := keepsLayers_withLocal hrun name value
  withFrame params args hrun := keepsLayers_withFrame hrun params args
  inBlock := keepsLayers_block
  iterate fuel hrun :=
    keepsLayers_block false (rounds_eq setting fuel _ ▸ keepsLayers_rounds hrun fuel)

theorem keepsLayers_exec (fuel : Nat) (stmt : Stmt) :
    KeepsLayers setting (exec setting fuel stmt) := by
  rw [exec_eq]
  refine (execClosed_keepsLayers setting).exec (onlyObserves_outOfFuel).keepsLayers (fun span => ?_)
    fuel stmt
  exact keepsLayers_modify (fun _ => Machine.frames_of_state rfl rfl (Nat.le_refl _)) fun _ => rfl

theorem keepsLayers_sequence {run : Stmt → Run Unit}
    (hrun : ∀ stmt, KeepsLayers setting (run stmt)) (stmts : List Stmt) :
    KeepsLayers setting (sequence run stmts) := by
  rw [sequence_eq]
  exact (execClosed_keepsLayers setting).sequence fun stmt _ => hrun stmt

theorem keepsLayers_forEach (hbody : KeepsLayers setting body) (name : String)
    (values : List Value) : KeepsLayers setting (forEach name body values) := by
  rw [forEach_eq setting]
  exact (execClosed_keepsLayers setting).forEach hbody name values

theorem keepsLayers_callRule {run : Stmt → Run Unit}
    (hrun : ∀ stmt, KeepsLayers setting (run stmt)) (rule : RuleId) (args : List Value) :
    KeepsLayers setting (callRule setting run rule args) := by
  rw [callRule_eq]
  exact (execClosed_keepsLayers setting).callRule (fun body _ => hrun body) args

theorem keepsLayers_writeInitializers (fuel : Nat) (function : FunctionId)
    (initializers : List (List Expr × Expr)) :
    KeepsLayers setting (writeInitializers setting fuel function initializers) := by
  induction initializers with
  | nil => exact keepsLayers_pure _
  | cons initializer rest ih =>
    refine (onlyObserves_evalAll fuel initializer.1).keepsLayers.bind fun args => ?_
    refine (onlyObserves_eval fuel initializer.2).keepsLayers.bind fun value => ?_
    exact (keepsLayers_write function args value {}).bind fun _ => ih

theorem keepsLayers_writeAllInitializers (fuel : Nat) (functions : List FunctionId) :
    KeepsLayers setting (writeAllInitializers setting fuel functions) := by
  induction functions with
  | nil => exact keepsLayers_pure _
  | cons function rest ih =>
    exact (keepsLayers_writeInitializers fuel function _).bind fun _ => ih

theorem keepsLayers_scheduleStart (fuel : Nat) :
    KeepsLayers setting (scheduleStart setting fuel) := by
  refine (keepsLayers_writeAllInitializers fuel _).bind fun _ => ?_
  split
  · exact keepsLayers_pure _
  · exact keepsLayers_write Specification.program [] _ {}

/-- Abandoning a computation drops what is pending and leaves the rest as it was, if there were no
bindings to begin with. -/
theorem frames_orAbandon (hrun : KeepsLayers setting run) (hlocals : machine.locals = [])
    (hbase : machine.frameBase = 0) : machine.Frames setting (orAbandon run machine).2 := by
  have hframes := (hrun machine).frames
  unfold orAbandon
  rcases houtcome : run machine with ⟨stop | result, next⟩ <;> rw [houtcome] at hframes
  · refine ⟨?_, hframes.state_of_concrete, hframes.gains, hframes.lastSymbol⟩
    have hsurroundings := hframes.surroundings
    simp only [Machine.surroundings, Surroundings.mk.injEq] at hsurroundings ⊢
    exact ⟨hsurroundings.1, hlocals.symm, hbase.symm, hsurroundings.2.2.2⟩
  · exact hframes

end AbstractStateMachine.Run
