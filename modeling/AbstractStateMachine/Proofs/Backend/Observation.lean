import AbstractStateMachine.Proofs.Machine.Reclamation

/-!
# Observing an interpreter

What an interpreter reads in the middle of a step leaves no mark of its own on the machine. An
observed interpreter also keeps a log: of reads of stored locations with the machine they were made
in, of other values that came up, and of the moments when updates were applied. It answers like the
one that is not observed and leaves the same machine behind, so what holds of every log holds of
every run. Such a property follows from an invariant of machines under which each new entry has it.
-/

namespace AbstractStateMachine

open AbstractStateMachine.Computation Invariant Machine

/-- What is observed. The machine is the one before a read, after other values have been computed,
and before pending updates are applied. -/
inductive Event where
  | read (machine : Machine) (function : FunctionId) (args : List Value) (value : Value)
  | gave (machine : Machine) (values : List Value)
  | applied (machine : Machine)

def Event.machine : Event → Machine
  | .read machine _ _ _ | .gave machine _ | .applied machine => machine

/-- A machine and what has been observed of it, latest first. -/
structure Watch where
  machine : Machine
  log : List Event := []

namespace Watch

variable {α : Type}

/-- Runs a computation and, if it succeeds, notes what there is to be noted. -/
def noting (events : Machine → α → Machine → List Event) (run : Run α) : Computation Watch α :=
  fun watch =>
    match run watch.machine with
    | (.ok result, next) => (.ok result, ⟨next, events watch.machine result next ++ watch.log⟩)
    | (.error stop, next) => (.error stop, { watch with machine := next })

def reading (function : FunctionId) (args : List Value) (run : Run Value) :
    Computation Watch Value :=
  noting (fun machine value _ => [.read machine function args value]) run

def giving (values : α → List Value) (run : Run α) : Computation Watch α :=
  noting (fun _ result next => [.gave next (values result)]) run

end Watch

open Watch in
def watching (setting : Setting) : Backend Watch Value :=
  let machines := Machine.backend setting
  { machines.within machine fun watch machine => { watch with machine } with
    readStored function args := reading function args (machines.readStored function args)
    operate expr args := giving ([·]) (machines.operate expr args)
    elements value := giving id (machines.elements value)
    pushed value current := giving ([·]) (machines.pushed value current)
    popped current := giving (fun popped => popped.1 :: popped.2.toList) (machines.popped current)
    commit endOfStep watch :=
      ⟨machines.commit endOfStep watch.machine, .applied watch.machine :: watch.log⟩ }

/-- The machine after a sequence of calls and the log of all that was observed on the way. -/
def Watch.afterCalls (setting : Setting) (calls : List Call) : Watch :=
  (watching setting).afterCalls { machine := .new setting } calls

/-! ### Properties of logs -/

/-- A property of logs in worlds that every new entry keeps, as long as the machines satisfy an
invariant. -/
structure LogInvariant (setting : Setting) (I : Invariant Machine Value)
    (P : List Event → I.World → Prop) : Prop where
  maintained : CallsMaintained I (backend setting) Unbound
  later : ∀ {log w w'}, I.Later w w' → P log w → P log w'
  read : ∀ {log w w' machine function args value next}, I.Holds w machine → I.CoversAll w args →
    P log w → Run.readStored setting function args machine = (.ok value, next) → I.Later w w' →
      I.Holds w' next → I.Covers w' value → P (.read machine function args value :: log) w'
  gave : ∀ {log w machine values}, I.Holds w machine → I.CoversAll w values → P log w →
    P (.gave machine values :: log) w
  commit : ∀ {log w machine} endOfStep, I.Holds w machine → machine.Unbound → P log w →
    ∃ w', I.Holds w' ((backend setting).commit endOfStep machine) ∧
      P (.applied machine :: log) w'

namespace LogInvariant

variable {setting : Setting} {I : Invariant Machine Value} {P : List Event → I.World → Prop}
  {α : Type} {w : I.World} {run : Run α} {post : I.World → α → Prop}

def Fits (I : Invariant Machine Value) (P : List Event → I.World → Prop) (w : I.World)
    (watch : Watch) : Prop :=
  P watch.log w

theorem carries_within (change : Machine → Machine) :
    I.Carries Watch.machine (Fits I P) change fun watch =>
      { watch with machine := change watch.machine } :=
  fun _ _ hfits => ⟨rfl, hfits⟩

variable (h : LogInvariant setting I P)
include h

theorem follows_noting (events : Machine → α → Machine → List Event)
    (hevents : ∀ {log w' machine result next}, I.Holds w machine → P log w →
      run machine = (.ok result, next) → I.Later w w' → I.Holds w' next → post w' result →
        P (events machine result next ++ log) w') :
    I.Follows Watch.machine (Fits I P) w post run (Watch.noting events run) := by
  intro watch w' result next hholds hfits heq hlater hnext hpost
  unfold Watch.noting
  rw [heq]
  cases result with
  | error stop => exact ⟨_, rfl, rfl, h.later hlater hfits⟩
  | ok result => exact ⟨_, rfl, rfl, hevents hholds hfits heq hlater hnext (hpost result rfl)⟩

theorem follows_within : I.Follows Watch.machine (Fits I P) w post run
    (Computation.within Watch.machine (fun watch machine => { watch with machine }) run) :=
  Invariant.follows_within (fun _ _ => rfl) fun _ hfits hlater => h.later hlater hfits

theorem follows_giving {values : α → List Value}
    (hvalues : ∀ w result, post w result → I.CoversAll w (values result)) :
    I.Follows Watch.machine (Fits I P) w post run (Watch.giving values run) :=
  h.follows_noting _ fun _ hlog _ hlater hnext hpost =>
    h.gave hnext (hvalues _ _ hpost) (h.later hlater hlog)

theorem companion :
    CallCompanion I Watch.machine (Fits I P) (backend setting) (watching setting) Unbound where
  spec := rfl
  span _ := rfl
  equal _ := rfl
  text _ := rfl
  recordsNothing _ := rfl
  setSpan _ := carries_within _
  bindLocal _ _ := carries_within _
  unbindLocal := carries_within _
  enterFrame _ _ := carries_within _
  leaveFrame _ := carries_within _
  operates hoperates := by
    cases hoperates with
    | readStored function hargs =>
      refine h.follows_noting (fun machine value _ => [.read machine function _ value])
        fun hholds hlog hread hlater hnext hvalue => ?_
      exact h.read hholds hargs hlog hread hlater hnext hvalue
    | operate | pushed => exact h.follows_giving fun _ _ => List.forall_mem_singleton.mpr
    | elements => exact h.follows_giving fun _ _ => id
    | popped =>
      refine h.follows_giving ?_
      rintro w ⟨first, rest⟩ ⟨hfirst, hrest⟩
      exact List.forall_mem_cons.mpr ⟨hfirst, fun value hvalue =>
        hrest value (Option.mem_toList.mp hvalue)⟩
    | _ => exact h.follows_within
  ofRule _ := rfl
  halted _ := rfl
  scheduled _ _ := h.follows_within
  halt := carries_within _
  abandon := carries_within _
  commit endOfStep hholds hrests hfits := ⟨rfl, h.commit endOfStep hholds hrests hfits⟩

theorem afterCalls (hnew : I.Holds w (.new setting)) (hnil : P [] w) (calls : List Call) :
    (Watch.afterCalls setting calls).machine = Machine.afterCalls setting calls ∧
      ∃ w', I.Holds w' (Watch.afterCalls setting calls).machine ∧
        P (Watch.afterCalls setting calls).log w' := by
  rw [Machine.afterCalls_eq]
  exact h.companion.afterCalls h.maintained (t := { machine := .new setting }) hnew hnil rfl calls

end LogInvariant

end AbstractStateMachine
