import AbstractStateMachine.Proofs.Machine.Layering

/-!
# Machines as a backend

Between calls a machine has no bindings. The operations that machines provide to the interpreter
keep it that way.
-/

namespace AbstractStateMachine.Machine

variable {setting : Setting} {machine : Machine}

def Unbound (machine : Machine) : Prop := machine.locals = []

theorem locals_applyPending (setting : Setting) (machine : Machine) (endOfStep : Bool) :
    (machine.applyPending setting endOfStep).locals = machine.locals :=
  congrArg Prod.fst (bindings_applyPending endOfStep)

theorem unbound_scheduled (h : machine.Unbound) (value : Value) :
    ((backend setting).scheduled value machine).2.Unbound := by
  cases value <;> exact h

theorem keepsResting_backend (setting : Setting) : (backend setting).KeepsResting Unbound where
  setSpan _ _ h := h
  read machine fuel function h := by
    rw [← Run.read_eq]
    exact (Run.onlyObserves_read fuel function [] machine).toFrames.locals.trans h
  scheduled _ value h := unbound_scheduled h value
  callRule machine fuel rule h := by
    rw [← Run.exec_eq, ← Run.callRule_eq]
    have hkeeps : Run.KeepsLayers setting (Run.callRule setting (Run.exec setting fuel) rule []) :=
      Run.keepsLayers_callRule (Run.keepsLayers_exec fuel) rule []
    exact (hkeeps machine).frames.locals.trans h
  scheduleStart machine fuel h := by
    rw [← Run.scheduleStart_eq]
    exact (Run.keepsLayers_scheduleStart fuel machine).frames.locals.trans h
  exec machine fuel stmt h := by
    rw [← Run.exec_eq]
    exact (Run.keepsLayers_exec fuel stmt machine).frames.locals.trans h
  eval machine fuel expr h := by
    rw [← Run.eval_eq]
    exact (Run.onlyObserves_eval fuel expr machine).toFrames.locals.trans h
  halt _ h := h
  abandon _ _ := rfl
  commit machine endOfStep h := by
    have hlocals := (locals_applyPending setting machine endOfStep).trans h
    cases endOfStep <;> exact hlocals

end AbstractStateMachine.Machine
