import AbstractStateMachine.Proofs.Backend.Invariants

/-!
# Narrated execution

A machine does not tell which statements are being executed, nor which of them an update stems from.
A narrated execution keeps track of both. Apart from that it is the execution it narrates: it ends
in the same way, and with the same machine.
-/

namespace AbstractStateMachine

structure Writing where
  /-- The statements that were being executed, innermost first. -/
  active : List Stmt
  /-- What was pending until then. -/
  pending : UpdateSet
  update : Update

structure Narration where
  machine : Machine
  /-- The statements that are being executed, innermost first. -/
  active : List Stmt := []
  /-- All writes so far, the latest first. -/
  writings : List Writing := []

namespace Narration

variable {α : Type}

def onMachine (change : Machine → Machine) (narration : Narration) : Narration :=
  { narration with machine := change narration.machine }

abbrev lift (run : Run α) : Computation Narration α :=
  Computation.within machine (fun narration machine => { narration with machine }) run

def write (setting : Setting) (function : FunctionId) (args : List Value) (value : Value)
    (span : Span) : Computation Narration Unit := fun narration =>
  let machine := narration.machine
  let update : Update :=
    { function, args, value, span
      key := machine.heap.argKey setting.digest args
      layer := machine.pending.depth }
  lift (Run.write setting function args value span)
    { narration with
      writings := ⟨narration.active, machine.pending, update⟩ :: narration.writings }

def enter (stmt : Stmt) (narration : Narration) : Narration :=
  { narration with
    machine := { narration.machine with span := stmt.span }
    active := stmt :: narration.active }

def leave (narration : Narration) : Narration :=
  { narration with active := narration.active.tail }

end Narration

open Narration in
/-- The operations of the interpreter, of which only writes are noted. -/
def narrating (setting : Setting) : Backend Narration Value :=
  let machines := Machine.backend setting
  { machines.within machine fun narration machine => { narration with machine } with
    write := write setting }

/-- Executes a statement. If it fails, the statements that were being executed stay on record. -/
def narrated (setting : Setting) : Nat → Stmt → Computation Narration Unit
  | 0, _ => throw .outOfFuel
  | fuel + 1, stmt => do
    modify (Narration.enter stmt)
    (narrating setting).execAction fuel (narrated setting fuel) stmt.span stmt.action
    modify Narration.leave

/-! ### The execution that is narrated -/

open Invariant Coupling

def anything : Invariant Machine Value := .ofStates fun _ => True

theorem maintains_anything {α : Type} {w : anything.World} {post : anything.World → α → Prop}
    (run : Run α) (hpost : ∀ result, post () result) : anything.Maintains w post run :=
  fun _ _ => ⟨(), trivial, trivial, fun result _ => hpost result⟩

theorem maintained_anything (setting : Setting) :
    Maintained anything (Machine.backend setting) where
  enterFrame _ _ _ _ _ _ := trivial
  leaveFrame _ _ _ _ _ _ := trivial
  readStored _ _ _ _ := maintains_anything _ fun _ => trivial
  operate _ _ _ _ _ := maintains_anything _ fun _ => trivial
  setSpan _ _ _ _ := trivial
  bindLocal _ _ _ _ _ _ := trivial
  unbindLocal _ _ _ := trivial
  decide _ _ _ := maintains_anything _ fun _ => trivial
  elements _ _ _ := maintains_anything _ fun _ _ _ => trivial
  ruleOf _ _ := maintains_anything _ fun _ => trivial
  print _ _ := maintains_anything _ fun _ => trivial
  pushed _ _ _ _ _ := maintains_anything _ fun _ => trivial
  popped _ _ _ := maintains_anything _ fun _ => ⟨trivial, fun _ _ => trivial⟩
  write _ _ _ _ _ _ _ := maintains_anything _ fun _ => trivial
  enter _ _ := maintains_anything _ fun _ => trivial
  leave _ _ := maintains_anything _ fun _ => trivial
  leaveRound _ _ := maintains_anything _ fun _ => trivial

abbrev forgetting : Coupling Machine Value Narration Value :=
  anything.carried Narration.machine fun _ _ => True

variable {w : forgetting.World} {α : Type}

theorem carries_narration (change : Machine → Machine) :
    anything.Carries Narration.machine (fun _ _ => True) change (Narration.onMachine change) :=
  fun _ _ _ => ⟨rfl, trivial⟩

theorem follows_narration {post : anything.World → α → Prop} {run : Run α} :
    anything.Follows Narration.machine (fun _ _ => True) w post run (Narration.lift run) :=
  Invariant.follows_within (fun _ _ => rfl) fun _ _ _ => trivial

theorem companion_narrating (setting : Setting) :
    Companion anything Narration.machine (fun _ _ => True) (Machine.backend setting)
      (narrating setting) where
  spec := rfl
  span _ := rfl
  equal _ := rfl
  text _ := rfl
  recordsNothing _ := rfl
  setSpan _ := carries_narration _
  bindLocal _ _ := carries_narration _
  unbindLocal := carries_narration _
  enterFrame _ _ := carries_narration _
  leaveFrame _ := carries_narration _
  operates hoperates := by
    cases hoperates with
    | write =>
      intro narration w' result next hholds hfits heq hlater hnext hpost
      exact follows_narration (w := w') hholds hfits heq hlater hnext hpost
    | _ => exact follows_narration

theorem alike_narration_leave {run : Run Unit} {told : Computation Narration Unit}
    (h : forgetting.Alike w forgetting.Same run told) :
    forgetting.Alike w forgetting.Same run (do
      told
      modify Narration.leave) := by
  have hends : forgetting.Alike w forgetting.Same (run >>= pure) (do
      told
      modify Narration.leave) :=
    h.bind fun w' _ _ _ _ _ _ hstates => .ok (forgetting.later_refl w') hstates rfl
  rwa [bind_pure] at hends

theorem alike_narrated (setting : Setting) (fuel : Nat) (w : forgetting.World) (stmt : Stmt) :
    forgetting.Alike w forgetting.Same ((Machine.backend setting).exec fuel stmt)
      (narrated setting fuel stmt) := by
  induction fuel generalizing w stmt with
  | zero => exact alike_throw _
  | succ fuel ih =>
    have haction := ((companion_narrating setting).correspondence
      (maintained_anything setting)).execAction (fun w stmt _ => ih w stmt) fuel w stmt trivial
    rintro _ narration ⟨rfl, -⟩
    exact alike_narration_leave haction _ (narration.enter stmt) ⟨rfl, trivial, trivial⟩

theorem exists_narrated {setting : Setting} {fuel : Nat} {stmt : Stmt} {machine next : Machine}
    {result : Except Stop Unit} (h : Run.exec setting fuel stmt machine = (result, next)) :
    ∃ narration, narrated setting fuel stmt { machine } = (result, narration) ∧
      narration.machine = next := by
  have hends := alike_narrated setting fuel () stmt machine { machine }
    ⟨rfl, trivial, trivial⟩
  rw [← Run.exec_eq, h] at hends
  generalize narrated setting fuel stmt { machine } = outcome at hends ⊢
  cases hends with
  | ok _ hstates _ => exact ⟨_, rfl, hstates.1⟩
  | error stop _ hstates => exact ⟨_, rfl, hstates.1⟩

end AbstractStateMachine
