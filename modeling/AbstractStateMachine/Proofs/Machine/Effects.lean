import AbstractStateMachine.Proofs.Backend.Closure
import AbstractStateMachine.Proofs.Machine.Recording

/-!
# What computations leave alone

These facts hold in every machine and need no invariant. Evaluation makes lists and symbols; the
state at most gains locations with new symbols, and all else is as it was. Execution also records
updates and prints. Whether it succeeds or not, it gives back the bindings and the frame it was
started with; if it succeeds, it also gives back the layers of the update set.
-/

namespace AbstractStateMachine

open UpdateSet Machine

/-- What no statement changes for good. -/
structure Surroundings where
  lease : Lease
  locals : List Binding
  frameBase : Nat
  dumps : Array String
  steps : Nat
  halted : Bool

/-- A value that a location without one may get when it is read: a symbol that is newer than the
last one, if the function is symbolic. -/
def Setting.Symbolizes (setting : Setting) (last : Nat) (function : FunctionId) (value : Value) :
    Prop :=
  setting.symbolic = true ∧ (setting.spec.function function).symbolic = true ∧
    ∃ id, last < id ∧ value = .symbol id

theorem Setting.Symbolizes.mono {setting : Setting} {last later : Nat} (hle : last ≤ later)
    {function : FunctionId} {value : Value} (h : setting.Symbolizes later function value) :
    setting.Symbolizes last function value := by
  obtain ⟨hsymbolic, hfunction, id, hid, rfl⟩ := h
  exact ⟨hsymbolic, hfunction, id, by omega, rfl⟩

namespace Machine

variable {setting : Setting} {machine next last : Machine}

def surroundings (machine : Machine) : Surroundings where
  lease := machine.lease
  locals := machine.locals
  frameBase := machine.frameBase
  dumps := machine.dumps
  steps := machine.steps
  halted := machine.halted

structure Frames (setting : Setting) (machine next : Machine) : Prop where
  surroundings : next.surroundings = machine.surroundings
  state_of_concrete : setting.symbolic = false → next.state = machine.state
  gains : machine.state.Gains (setting.Symbolizes machine.recorder.lastSymbol) next.state
  lastSymbol : machine.recorder.lastSymbol ≤ next.recorder.lastSymbol

structure Observes (setting : Setting) (machine next : Machine) : Prop
    extends Frames setting machine next where
  pending : next.pending = machine.pending
  span : next.span = machine.span
  output : next.output = machine.output

theorem frames_of_state (hsurroundings : next.surroundings = machine.surroundings)
    (hstate : next.state = machine.state)
    (hlast : machine.recorder.lastSymbol ≤ next.recorder.lastSymbol) :
    machine.Frames setting next where
  surroundings := hsurroundings
  state_of_concrete _ := hstate
  gains := by
    rw [hstate]
    exact .refl _ _
  lastSymbol := hlast

theorem Frames.refl (setting : Setting) (machine : Machine) : machine.Frames setting machine :=
  frames_of_state rfl rfl (Nat.le_refl _)

theorem Frames.trans (h : machine.Frames setting next) (h' : next.Frames setting last) :
    machine.Frames setting last where
  surroundings := h'.surroundings.trans h.surroundings
  state_of_concrete hconcrete :=
    (h'.state_of_concrete hconcrete).trans (h.state_of_concrete hconcrete)
  gains := h.gains.trans h'.gains fun _ _ => Setting.Symbolizes.mono h.lastSymbol
  lastSymbol := Nat.le_trans h.lastSymbol h'.lastSymbol

theorem Observes.refl (setting : Setting) (machine : Machine) : machine.Observes setting machine :=
  ⟨.refl setting machine, rfl, rfl, rfl⟩

theorem Observes.trans (h : machine.Observes setting next) (h' : next.Observes setting last) :
    machine.Observes setting last :=
  ⟨h.toFrames.trans h'.toFrames, h'.pending.trans h.pending, h'.span.trans h.span,
    h'.output.trans h.output⟩

theorem Frames.locals (h : machine.Frames setting next) : next.locals = machine.locals :=
  congrArg Surroundings.locals h.surroundings

theorem Frames.frameBase (h : machine.Frames setting next) : next.frameBase = machine.frameBase :=
  congrArg Surroundings.frameBase h.surroundings

theorem frames_withLocal {binding : Binding}
    (h : Frames setting { machine with locals := binding :: machine.locals } next) :
    machine.Frames setting { next with locals := next.locals.tail } where
  surroundings := by
    have hframe := h.surroundings
    simp only [surroundings, Surroundings.mk.injEq] at hframe ⊢
    refine ⟨hframe.1, ?_, hframe.2.2⟩
    rw [hframe.2.1, List.tail_cons]
  state_of_concrete := h.state_of_concrete
  gains := h.gains
  lastSymbol := h.lastSymbol

theorem frames_withFrame {bindings : List Binding}
    (h : Frames setting
      { machine with frameBase := machine.locals.length, locals := bindings ++ machine.locals }
      next) :
    machine.Frames setting
      { next with
        locals := next.locals.drop (next.locals.length - next.frameBase)
        frameBase := machine.frameBase } where
  surroundings := by
    have hframe := h.surroundings
    simp only [surroundings, Surroundings.mk.injEq] at hframe ⊢
    refine ⟨hframe.1, ?_, trivial, hframe.2.2.2⟩
    rw [hframe.2.1, hframe.2.2.1, List.length_append, Nat.add_sub_cancel, List.drop_left]
  state_of_concrete := h.state_of_concrete
  gains := h.gains
  lastSymbol := h.lastSymbol

end Machine

namespace Run

variable {setting : Setting} {α β : Type} {machine next : Machine} {post : α → Prop}
  {last : β → Prop}

/-! ### Evaluation -/

/-- The outcome of a computation that makes lists and symbols only. Its faults are those of the
statement executed last. -/
structure Observed (setting : Setting) (post : α → Prop) (machine : Machine)
    (outcome : Except Stop α × Machine) : Prop extends Observes setting machine outcome.2 where
  result : ∀ result, outcome.1 = .ok result → post result
  fault : ∀ fault, outcome.1 = .error (.fault fault) → fault.IsOf machine.span

def OnlyObserves (setting : Setting) (run : Run α) : Prop :=
  ∀ machine : Machine, Observed setting AnyResult machine (run machine)

theorem observed_ok (h : machine.Observes setting next) {result : α} (hresult : post result) :
    Observed setting post machine (.ok result, next) :=
  ⟨h, fun _ heq => Except.ok.inj heq ▸ hresult, by rintro _ ⟨⟩⟩

theorem observed_fault (h : machine.Observes setting next) {fault : Fault}
    (hfault : fault.IsOf machine.span) :
    Observed setting post machine (.error (.fault fault), next) :=
  ⟨h, nofun, fun _ heq => Stop.fault.inj (Except.error.inj heq) ▸ hfault⟩

theorem observed_outOfFuel (h : machine.Observes setting next) :
    Observed setting post machine (.error .outOfFuel, next) :=
  ⟨h, nofun, by rintro _ ⟨⟩⟩

theorem observed_raised {cause : Cause} (h : cause.kind ≠ .conflict) :
    Observed setting post machine (.error (.fault { cause, span := machine.span }), machine) :=
  observed_fault (.refl setting machine) ⟨rfl, rfl, h⟩

theorem Observed.bind {first : Run α} {rest : α → Run β}
    (h : Observed setting post machine (first machine))
    (hrest : ∀ result next, post result → machine.Observes setting next →
      Observed setting last next (rest result next)) :
    Observed setting last machine ((first >>= rest) machine) := by
  rw [bind_apply]
  rcases hrun : first machine with ⟨stop | result, next⟩ <;> rw [hrun] at h
  · refine ⟨h.toObserves, nofun, ?_⟩
    rintro fault ⟨⟩
    exact h.fault fault rfl
  · have hnext := hrest result next (h.result result rfl) h.toObserves
    refine ⟨h.toObserves.trans hnext.toObserves, hnext.result, fun fault hfault => ?_⟩
    rw [← h.span]
    exact hnext.fault fault hfault

theorem OnlyObserves.bind {first : Run α} {rest : α → Run β} (hfirst : OnlyObserves setting first)
    (hrest : ∀ result, OnlyObserves setting (rest result)) : OnlyObserves setting (first >>= rest) :=
  fun machine => (hfirst machine).bind fun result next _ _ => hrest result next

theorem observes_withFrame {params : List String} {args : List Value}
    (h : Observes setting ((backend setting).enterFrame params args machine) next) :
    machine.Observes setting ((backend setting).leaveFrame machine next) :=
  ⟨frames_withFrame h.toFrames, h.pending, h.span, h.output⟩

theorem onlyObserves_pure (result : α) : OnlyObserves setting (pure result) :=
  fun machine => observed_ok (.refl setting machine) trivial

theorem onlyObserves_raise {cause : Cause} (h : cause.kind ≠ .conflict) :
    OnlyObserves setting (raise cause : Run α) :=
  fun _ => observed_raised h

theorem onlyObserves_outOfFuel : OnlyObserves setting (outOfFuel : Run α) :=
  fun machine => observed_outOfFuel (.refl setting machine)

theorem onlyObserves_get {rest : Machine → Run α}
    (hrest : ∀ machine, OnlyObserves setting (rest machine)) :
    OnlyObserves setting (get >>= rest) :=
  fun machine => hrest machine machine

theorem observes_recorded {heap : ListHeap} {recorder : Recorder}
    (hlast : machine.recorder.lastSymbol ≤ recorder.lastSymbol) :
    machine.Observes setting { machine with heap, recorder } :=
  ⟨frames_of_state rfl rfl hlast, rfl, rfl, rfl⟩

theorem onlyObserves_onHeap (operation : ListHeap → Handle × ListHeap) :
    OnlyObserves setting (onHeap operation) :=
  fun _ => observed_ok (observes_recorded (Nat.le_refl _)) trivial

end Run

namespace Recorder

theorem lastSymbol_create {recorder : Recorder} (key : LocationKey) (location : TrackedLocation) :
    (recorder.create key location).lastSymbol = recorder.lastSymbol := by
  refine view_foldl lastSymbol (fun recorder time => ?_) (List.range (recorder.timestamp + 1))
  rfl

end Recorder

namespace Run

variable {setting : Setting} {α : Type} {machine : Machine}

theorem onlyObserves_operate {expr : Expr} (hread : ∀ function args, expr ≠ .read function args)
    (args : List Value) : OnlyObserves setting ((backend setting).operate expr args) := by
  intro machine
  have hoperates := operatesTo_operate setting hread args machine
  generalize (backend setting).operate expr args machine = outcome at hoperates ⊢
  cases hoperates with
  | scalar | bound => exact observed_ok (.refl setting machine) trivial
  | built | listed => exact observed_ok (observes_recorded (Nat.le_refl _)) trivial
  | symbol | definition | comparison | negation =>
    exact observed_ok (observes_recorded (Nat.le_succ _)) trivial
  | raised h => exact observed_raised h

/-- The one place where evaluation writes to the state: a location of a symbolic function is read
and has no value. -/
theorem onlyObserves_readStored (function : FunctionId) (args : List Value) :
    OnlyObserves setting (readStored setting function args) := by
  intro machine
  have hreads := readsTo_readStored setting function args machine
  generalize readStored setting function args machine = outcome at hreads ⊢
  cases hreads with
  | symbolized hsymbol hunstored =>
    obtain ⟨hsymbolic, hfunction⟩ := Bool.and_eq_true_iff.mp hsymbol
    refine observed_ok ?_ trivial
    refine ⟨⟨rfl, fun hconcrete => ?_, ?_, ?_⟩, rfl, rfl, rfl⟩
    · rw [hconcrete] at hsymbolic
      cases hsymbolic
    · exact Interpretation.gains_set hunstored
        ⟨hsymbolic, hfunction, _, Nat.lt_succ_self _, rfl⟩
    · show _ ≤ (Recorder.create _ _ _).lastSymbol
      rw [Recorder.lastSymbol_create]
      exact Nat.le_succ _
  | _ => exact observed_ok (.refl setting machine) trivial

theorem onlyObserves_decide (value : Value) : OnlyObserves setting (decide setting value) := by
  intro machine
  have hdecides := decidesTo_decide setting value machine
  generalize decide setting value machine = outcome at hdecides ⊢
  cases hdecides with
  | decided => exact observed_ok (.refl setting machine) trivial
  | raised h => exact observed_raised h
  | assumed =>
    refine observed_ok ?_ trivial
    exact observes_recorded (Nat.le_refl _)

theorem evalClosed_observed (setting : Setting) (span : Span) :
    EvalClosed (backend setting) (Fault.IsOf span) fun post run =>
      ∀ machine : Machine, machine.span = span → Observed setting post machine (run machine) where
  pure hresult machine _ := observed_ok (.refl setting machine) hresult
  outOfFuel machine _ := observed_outOfFuel (.refl setting machine)
  fault hfault machine hspan := observed_fault (.refl setting machine) (by rwa [hspan])
  raise h _ _ := observed_raised h
  bind hfirst hrest machine hspan := (hfirst machine hspan).bind fun result next hresult hnext =>
    hrest result hresult next (hnext.span.trans hspan)
  attempt {_ _ run} h machine hspan := by
    have hrun := h machine hspan
    unfold Computation.attempt
    rcases houtcome : run machine with ⟨(fault | _) | result, next⟩ <;> rw [houtcome] at hrun
    · have hfault := hrun.fault fault rfl
      rw [hspan] at hfault
      exact observed_ok hrun.toObserves hfault
    · exact observed_outOfFuel hrun.toObserves
    · exact observed_ok hrun.toObserves (hrun.result result rfl)
  withFrame params args h machine hspan := by
    have hrun := h ((backend setting).enterFrame params args machine) hspan
    exact ⟨observes_withFrame hrun.toObserves, hrun.result, hrun.fault⟩
  readStored function args machine _ := onlyObserves_readStored function args machine
  operate _ args hread machine _ := onlyObserves_operate hread args machine
  equal value label _ hrest machine := hrest (machine.heap.equal value label) machine

theorem onlyObserves_eval (fuel : Nat) (expr : Expr) :
    OnlyObserves setting (eval setting fuel expr) := by
  rw [eval_eq]
  exact fun machine => (evalClosed_observed setting machine.span).eval fuel expr machine rfl

theorem onlyObserves_evalAll (fuel : Nat) (exprs : List Expr) :
    OnlyObserves setting (evalAll setting fuel exprs) := by
  rw [evalAll_eq]
  exact fun machine => (evalClosed_observed setting machine.span).evalAll fuel exprs machine rfl

theorem onlyObserves_read (fuel : Nat) (function : FunctionId) (args : List Value) :
    OnlyObserves setting (read setting fuel function args) := by
  rw [read_eq]
  exact fun machine => (evalClosed_observed setting machine.span).read fuel function args machine rfl

theorem onlyObserves_selectArm (fuel : Nat) (value : Value) (default : Option Stmt)
    (arms : List (Expr × Stmt)) :
    OnlyObserves setting (selectArm (eval setting fuel) value default arms) := by
  rw [selectArm_eq setting, eval_eq]
  intro machine
  have hselects := (evalClosed_observed setting machine.span).selectArm fuel value
    (List.subset_append_left default.toList (arms.map Prod.snd)) (List.subset_append_right _ _)
    machine rfl
  exact ⟨hselects.toObserves, fun _ _ => trivial, hselects.fault⟩

/-! ### Values in statements -/

theorem onlyObserves_domainElements (domain : Value) :
    OnlyObserves setting (domainElements domain) := by
  cases domain with
  | list list => exact onlyObserves_get fun _ => onlyObserves_pure _
  | undefined => exact onlyObserves_pure _
  | _ => exact onlyObserves_raise nofun

theorem onlyObserves_pushTarget (value : Value) : OnlyObserves setting (pushTarget value) := by
  cases value with
  | list list => exact onlyObserves_pure _
  | undefined => exact onlyObserves_onHeap ListHeap.empty
  | _ => exact onlyObserves_raise nofun

theorem onlyObserves_ruleOf (value : Value) : OnlyObserves setting (ruleOf value) := by
  cases value with
  | rule rule => exact onlyObserves_pure _
  | _ => exact onlyObserves_raise nofun

theorem onlyObserves_pushed (value current : Value) :
    OnlyObserves setting ((backend setting).pushed value current) :=
  (onlyObserves_pushTarget current).bind fun _ => (onlyObserves_onHeap _).bind fun _ =>
    onlyObserves_pure _

theorem onlyObserves_popped (current : Value) :
    OnlyObserves setting ((backend setting).popped current) := by
  cases current with
  | list list =>
    refine onlyObserves_get fun machine => ?_
    exact (onlyObserves_onHeap fun heap => heap.tail list).bind fun rest => onlyObserves_pure _
  | undefined => exact onlyObserves_pure _
  | _ => exact onlyObserves_raise nofun

end Run

namespace Machine

variable {setting : Setting} {machine next : Machine}

/-! ### Applying updates -/

def bindings (machine : Machine) : List Binding × Nat := (machine.locals, machine.frameBase)

theorem Frames.bindings (h : machine.Frames setting next) : next.bindings = machine.bindings :=
  Prod.ext h.locals h.frameBase

/-- The heap and what is held are the same; bindings, output and trace may differ. -/
structure SameHoldings (machine next : Machine) : Prop where
  heap : next.heap = machine.heap
  state : next.state = machine.state
  path : next.recorder.path = machine.recorder.path
  pending : next.pending = machine.pending

theorem exists_flattenValue_eq (machine : Machine) (value : Value) :
    ∃ heap, (machine.flattenValue value).2 = { machine with heap } := by
  cases value <;> exact ⟨_, rfl⟩

theorem exists_flattenValues_eq (machine : Machine) (values : List Value) :
    ∃ heap, (machine.flattenValues values).2 = { machine with heap } := by
  induction values generalizing machine with
  | nil => exact ⟨_, rfl⟩
  | cons value rest ih =>
    obtain ⟨heap, hrest⟩ := ih (machine.flattenValue value).2
    obtain ⟨_, hvalue⟩ := exists_flattenValue_eq machine value
    exact ⟨heap, hrest.trans (by rw [hvalue])⟩

theorem recorder_flatten (machine : Machine) (value : Value) (values : List Value) :
    ((machine.flattenValue value).2.flattenValues values).2.recorder = machine.recorder := by
  obtain ⟨_, hvalue⟩ := exists_flattenValue_eq machine value
  obtain ⟨_, hvalues⟩ := exists_flattenValues_eq (machine.flattenValue value).2 values
  rw [hvalues, hvalue]

/-- Updates are stored and reported, and lists are made for them. All else is as it was. -/
theorem exists_applyUpdate_eq (setting : Setting) (machine : Machine) (update : Update) :
    ∃ heap recorder state,
      machine.applyUpdate setting update = { machine with heap, recorder, state } := by
  obtain ⟨_, hvalue⟩ := exists_flattenValue_eq machine update.value
  obtain ⟨_, hargs⟩ := exists_flattenValues_eq (machine.flattenValue update.value).2 update.args
  rw [hvalue] at hargs
  unfold applyUpdate
  dsimp only
  rw [hvalue, hargs]
  split <;> exact ⟨_, _, _, rfl⟩

theorem exists_foldl_applyUpdate_eq (setting : Setting) (machine : Machine)
    (updates : List Update) : ∃ heap recorder state,
      updates.foldl (applyUpdate setting) machine = { machine with heap, recorder, state } := by
  induction updates generalizing machine with
  | nil => exact ⟨_, _, _, rfl⟩
  | cons update rest ih =>
    obtain ⟨heap, recorder, state, heq⟩ := ih (machine.applyUpdate setting update)
    obtain ⟨_, _, _, hupdate⟩ := exists_applyUpdate_eq setting machine update
    exact ⟨heap, recorder, state, heq.trans (by rw [hupdate])⟩

theorem pending_applyUpdate (update : Update) :
    (machine.applyUpdate setting update).pending = machine.pending := by
  obtain ⟨heap, recorder, state, heq⟩ := exists_applyUpdate_eq setting machine update
  rw [heq]

theorem surroundings_foldl_applyUpdate (updates : List Update) :
    (updates.foldl (applyUpdate setting) machine).surroundings = machine.surroundings := by
  obtain ⟨heap, recorder, state, heq⟩ := exists_foldl_applyUpdate_eq setting machine updates
  rw [heq]
  rfl

def recordedBy (machine : Machine) (recorder : Recorder) : Machine := { machine with recorder }

def summarized (setting : Setting) (endOfStep : Bool) (machine : Machine) : Machine :=
  { machine with
    pending := {}
    dumps :=
      if setting.dumpUpdates && endOfStep then
        machine.dumps.push (machine.updatesText setting machine.pending.updates)
      else machine.dumps }

theorem applyPending_eq (setting : Setting) (machine : Machine) (endOfStep : Bool) :
    machine.applyPending setting endOfStep =
      let start := machine.summarized setting endOfStep
      let updates := machine.pending.updates
      if setting.symbolic && endOfStep then
        let applied := updates.foldl (applyUpdate setting)
          (start.recordedBy start.recorder.advance)
        applied.recordedBy (applied.recorder.repeatOthers (touched updates))
      else updates.foldl (applyUpdate setting) start := by
  unfold applyPending summarized
  cases setting.dumpUpdates && endOfStep <;> cases setting.symbolic && endOfStep <;> rfl

theorem applyPending_of_concrete (hconcrete : setting.symbolic = false) (machine : Machine)
    (endOfStep : Bool) :
    machine.applyPending setting endOfStep =
      machine.pending.updates.foldl (applyUpdate setting)
        (machine.summarized setting endOfStep) := by
  rw [applyPending_eq, hconcrete, Bool.false_and]
  rfl

/-- Applying what is pending stores the updates one after the other, between some reporting. -/
theorem exists_foldl_applyPending (setting : Setting) (machine : Machine) (endOfStep : Bool) :
    ∃ start, SameHoldings (machine.pending.updates.foldl (applyUpdate setting) start)
        (machine.applyPending setting endOfStep) ∧
      (machine.applyPending setting endOfStep).bindings =
        (machine.pending.updates.foldl (applyUpdate setting) start).bindings ∧
      SameHoldings { machine with pending := {} } start ∧ start.bindings = machine.bindings := by
  rw [applyPending_eq]
  dsimp only
  split
  · exact ⟨_, ⟨rfl, rfl, Recorder.path_repeatOthers _, rfl⟩, rfl, ⟨rfl, rfl, rfl, rfl⟩, rfl⟩
  · exact ⟨_, ⟨rfl, rfl, rfl, rfl⟩, rfl, ⟨rfl, rfl, rfl, rfl⟩, rfl⟩

theorem pending_applyPending (endOfStep : Bool) :
    (machine.applyPending setting endOfStep).pending = {} := by
  obtain ⟨start, hend, -, hstart, -⟩ := exists_foldl_applyPending setting machine endOfStep
  obtain ⟨heap, recorder, state, heq⟩ :=
    exists_foldl_applyUpdate_eq setting start machine.pending.updates
  rw [hend.pending, heq]
  exact hstart.pending

theorem bindings_applyPending (endOfStep : Bool) :
    (machine.applyPending setting endOfStep).bindings = machine.bindings := by
  obtain ⟨start, -, hend, -, hstart⟩ := exists_foldl_applyPending setting machine endOfStep
  obtain ⟨heap, recorder, state, heq⟩ :=
    exists_foldl_applyUpdate_eq setting start machine.pending.updates
  rw [hend, heq]
  exact hstart

end Machine

end AbstractStateMachine
