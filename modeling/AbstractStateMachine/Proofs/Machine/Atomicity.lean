import AbstractStateMachine.Proofs.Machine.Grounding

/-!
# Failed calls are undone

A step or an initialization that fails, wherever and after however many writes, leaves the machine
as it was, apart from lists and symbols it has made: nothing it recorded is stored or still pending.
In symbolic mode a location without a value may have become a symbol, because it was read.
-/

namespace AbstractStateMachine

open ListHeap Standard

namespace Machine

/-- Nothing of a call is left that a later one could notice, except that in symbolic mode locations
that had no value may have become symbols. -/
structure Unaffected (setting : Setting) (machine next : Machine) : Prop where
  state_of_concrete : setting.symbolic = false → next.state = machine.state
  get_of_concrete : setting.symbolic = false → ∀ function args, machine.heap.Supports args →
    next.get setting function args = machine.get setting function args
  stored : ∀ function args, machine.heap.Supports args →
    next.storedValue? setting function args = machine.storedValue? setting function args ∨
      machine.storedValue? setting function args = none ∧
        ∃ value, next.storedValue? setting function args = some value ∧
          setting.Symbolizes machine.recorder.lastSymbol function value
  lists : ∀ list, machine.heap.Live list →
    next.heap.Live list ∧ next.heap.toList list = machine.heap.toList list
  dumps : next.dumps = machine.dumps
  steps : next.steps = machine.steps
  halted : next.halted = machine.halted
  locals : next.locals = []
  frameBase : next.frameBase = 0

variable {setting : Setting} {machine next : Machine}

theorem storedValue?_cases (hmachine : machine.Grounded setting)
    (hcontinues : Continues (.plain setting.symbolic) machine next)
    (hframes : machine.Frames setting next) (function : FunctionId) {args : List Value}
    (hargs : machine.heap.Supports args) :
    next.storedValue? setting function args = machine.storedValue? setting function args ∨
      machine.storedValue? setting function args = none ∧
        ∃ value, next.storedValue? setting function args = some value ∧
          setting.Symbolizes machine.recorder.lastSymbol function value := by
  rw [← get?_eq_storedValue? hmachine hcontinues.upholds hcontinues.grows hargs]
  exact hframes.gains.get?_cases next.heap function _ args

theorem Idle.unaffected (hidle : machine.Idle setting)
    (hcontinues : Continues (.plain setting.symbolic) machine next)
    (hframes : machine.Frames setting next) : Unaffected setting machine next where
  state_of_concrete := hframes.state_of_concrete
  get_of_concrete hconcrete function args hargs := by
    have hstored : next.storedValue? setting function args =
        machine.storedValue? setting function args := by
      rcases storedValue?_cases hidle.grounded hcontinues hframes function hargs with
        hsame | ⟨-, value, -, hsymbolic, -⟩
      · exact hsame
      · rw [hconcrete] at hsymbolic
        cases hsymbolic
    exact congrArg (Option.getD · .undefined) hstored
  stored function _ := storedValue?_cases hidle.grounded hcontinues hframes function
  lists list hlive := ⟨hcontinues.grows.live hlive,
    toList_of_extends hidle.grounded.wellFormed hcontinues.grows hlive⟩
  dumps := congrArg Surroundings.dumps hframes.surroundings
  steps := congrArg Surroundings.steps hframes.surroundings
  halted := congrArg Surroundings.halted hframes.surroundings
  locals := hframes.locals.trans hidle.locals
  frameBase := hframes.frameBase.trans hidle.frameBase

end Machine

namespace Run

open Machine

variable {setting : Setting} {machine next : Machine} {stop : Stop} {fuel : Nat} {α : Type}

/-! ### How calls fail -/

theorem orAbandon_of_init_error (h : init setting fuel machine = (.error stop, next)) :
    orAbandon (scheduleStart setting fuel) machine = (.error stop, next) := by
  have hinitializes := initializesTo_init setting fuel machine
  rw [h] at hinitializes
  cases hinitializes with
  | failed hstart => exact hstart

/-! ### What they leave -/

theorem unaffected_of_init_error (hidle : machine.Idle setting)
    (h : init setting fuel machine = (.error stop, next)) : Unaffected setting machine next := by
  have hends := ends_orAbandon (keeps_scheduleStart fuel) hidle.grounded hidle.bindings
  have hframes : machine.Frames setting _ :=
    frames_orAbandon (keepsLayers_scheduleStart fuel) hidle.locals hidle.frameBase
  rw [orAbandon_of_init_error h] at hends hframes
  exact hidle.unaffected hends.toContinues hframes

/-- A step fails when the rule that it runs does, or before it has found one. -/
theorem unaffected_of_step_error (hidle : machine.Idle setting)
    (h : step setting fuel machine = (.error stop, next)) :
    Unaffected setting machine next ∧ (next.pending = {} ∨ next.pending = machine.pending ∧
      ∀ rule, (read setting fuel Specification.program [] { machine with span := {} }).1 ≠
        .ok (.rule rule)) := by
  have hspan : Continues (.plain setting.symbolic) machine { machine with span := {} } :=
    SameHoldings.continues ⟨rfl, rfl, rfl, rfl⟩ hidle.grounded rfl
  have hends := keeps_read fuel Specification.program _ hspan.upholds acceptsAll_nil
  have hobserves : Observes setting { machine with span := {} } _ :=
    (onlyObserves_read fuel Specification.program [] _).toObserves
  have hcontinues := hspan.trans hends.toContinues
  have hstart : machine.Frames setting { machine with span := {} } :=
    frames_of_state rfl rfl (Nat.le_refl _)
  have hframes := hstart.trans hobserves.toFrames
  have hsteps := stepsTo_step setting fuel machine
  rw [h] at hsteps
  cases hsteps with
  | unscheduled _ hread hnone =>
    rw [hread] at hcontinues hframes hobserves ⊢
    exact ⟨hidle.unaffected hcontinues hframes, Or.inr ⟨hobserves.pending, hnone⟩⟩
  | @failed rule _ middle _ _ hread hcall =>
    rw [hread] at hcontinues hframes
    have hlocals := hframes.locals.trans hidle.locals
    have hcalled := ends_orAbandon (keeps_callRule fuel rule) hcontinues.upholds
      (hcontinues.bindings.trans hidle.bindings)
    have hcallFrames : middle.Frames setting _ := frames_orAbandon
      (keepsLayers_callRule (keepsLayers_exec fuel) rule []) hlocals
      (hframes.frameBase.trans hidle.frameBase)
    rw [hcall] at hcalled hcallFrames
    exact ⟨hidle.unaffected (hcontinues.trans hcalled.toContinues) (hframes.trans hcallFrames),
      Or.inl (pending_of_orAbandon_error hcall)⟩

/-- **Failed calls are undone.** Whatever calls came before, an initialization or a step that fails
leaves the machine unaffected. What it recorded is dropped, and a step that fails without running a
rule has recorded nothing and leaves what was pending, so no later call applies any of it. -/
theorem unaffected_of_failed_call (setting : Setting) (calls : List Call) (fuel : Nat) (stop : Stop)
    (next : Machine) :
    (init setting fuel (afterCalls setting calls) = (.error stop, next) →
      Unaffected setting (afterCalls setting calls) next ∧ next.pending = {}) ∧
    (step setting fuel (afterCalls setting calls) = (.error stop, next) →
      Unaffected setting (afterCalls setting calls) next ∧
      (next.pending = {} ∨
        next.pending = (afterCalls setting calls).pending ∧
        ∀ rule, (read setting fuel Specification.program []
            { afterCalls setting calls with span := {} }).1 ≠
          .ok (.rule rule))) := by
  have hidle := idle_afterCalls setting calls
  refine ⟨fun hinit => ?_, unaffected_of_step_error hidle⟩
  exact ⟨unaffected_of_init_error hidle hinit,
    pending_of_orAbandon_error (orAbandon_of_init_error hinit)⟩

/-- The rule `main` writes `x := 1` in a parallel block and again in a sequential one inside of it,
which then aborts. -/
def abortsAfterWrite : Setting where
  spec :=
    let write : Stmt := { action := .update ⟨1⟩ [] (.int 1) }
    let block : Stmt := { action := .seq [write, { action := .abort none }] }
    { functions := #[{ name := "program", result := .rule },
        { name := "x", initializers := [([], .int 0)] }]
      rules := #[{ name := "main", body := some { action := .par [write, block] } }]
      start := some ⟨0⟩ }

/-- The initial value of `y`, which comes after that of `x`, is the sum of `1` and `true`. -/
def faultyInitializer : Setting where
  spec :=
    { functions := #[{ name := "program", result := .rule },
        { name := "x", initializers := [([], .int 0)] },
        { name := "y", initializers := [([], .binary .add (.int 1) (.bool true))] }] }

/-- The step fails when two layers have a write to `x`, the initialization when one has; `x` is what
it was. -/
theorem unaffected_of_failed_call_abortsAfterWrite :
    (∃ stop next,
      step abortsAfterWrite 5 (afterCalls abortsAfterWrite [.init 5]) = (.error stop, next) ∧
      Unaffected abortsAfterWrite (afterCalls abortsAfterWrite [.init 5]) next ∧
      next.get abortsAfterWrite ⟨1⟩ [] = .int 0) ∧
    ∃ stop next,
      init faultyInitializer 5 (afterCalls faultyInitializer []) = (.error stop, next) ∧
      Unaffected faultyInitializer (afterCalls faultyInitializer []) next ∧
      next.pending = {} ∧ next.get faultyInitializer ⟨1⟩ [] = .undefined := by
  constructor
  · have hfails : (step abortsAfterWrite 5
        (afterCalls abortsAfterWrite [.init 5])).1.isOk = false := by
      decide +kernel
    rcases hstep : step abortsAfterWrite 5 (afterCalls abortsAfterWrite [.init 5]) with
      ⟨stop | _, next⟩
    · have hunaffected := ((unaffected_of_failed_call _ [.init 5] 5 stop next).2 hstep).1
      have hget := hunaffected.get_of_concrete rfl ⟨1⟩ [] (supports_iff.mpr (by simp))
      exact ⟨stop, next, rfl, hunaffected, hget.trans (by decide +kernel)⟩
    · rw [hstep] at hfails
      cases hfails
  · have hfails : (init faultyInitializer 5
        (afterCalls faultyInitializer [])).1.isOk = false := by
      decide +kernel
    rcases hinit : init faultyInitializer 5 (afterCalls faultyInitializer []) with
      ⟨stop | _, next⟩
    · obtain ⟨hunaffected, hpending⟩ := (unaffected_of_failed_call _ [] 5 stop next).1 hinit
      have hget := hunaffected.get_of_concrete rfl ⟨1⟩ [] (supports_iff.mpr (by simp))
      exact ⟨stop, next, rfl, hunaffected, hpending, hget.trans (by decide +kernel)⟩
    · rw [hinit] at hfails
      cases hfails

end Run

end AbstractStateMachine
