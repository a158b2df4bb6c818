import AbstractStateMachine.Machine.Step

/-!
# Computations step by step

What a computation comes to when it is applied to a machine, for the ways to combine computations
and for the primitive ones. Proofs about computations cite these instead of unfolding them.
-/

namespace AbstractStateMachine.Run

variable {setting : Setting} {α β : Type} {machine next : Machine}

theorem bind_apply (first : Run α) (rest : α → Run β) (machine : Machine) :
    (first >>= rest) machine = ExceptT.bindCont rest (first machine).1 (first machine).2 := rfl

theorem get_bind_apply (rest : Machine → Run α) (machine : Machine) :
    (get >>= rest : Run α) machine = rest machine machine := rfl

theorem modify_bind_apply (change : Machine → Machine) (rest : PUnit → Run α)
    (machine : Machine) : (modify change >>= rest : Run α) machine = rest ⟨⟩ (change machine) := rfl

theorem exists_of_bind_eq_ok {first : Run α} {rest : α → Run β} {result : β}
    (h : (first >>= rest) machine = (.ok result, next)) :
    ∃ value middle, first machine = (.ok value, middle) ∧
      rest value middle = (.ok result, next) := by
  rw [bind_apply] at h
  rcases hfirst : first machine with ⟨stop | value, middle⟩ <;> rw [hfirst] at h
  · cases h
  · exact ⟨value, middle, rfl, h⟩

section Writes

variable {function : FunctionId} {args : List Value} {value : Value} {span : Span}

theorem write_of_add_ok {pending : UpdateSet}
    (h : machine.pending.add machine.heap setting.digest function args value span = .ok pending) :
    write setting function args value span machine = (.ok (), { machine with pending }) := by
  rw [write, get_bind_apply, h]
  rfl

theorem write_of_add_error {fault : Fault}
    (h : machine.pending.add machine.heap setting.digest function args value span = .error fault) :
    write setting function args value span machine = (.error (.fault fault), machine) := by
  rw [write, get_bind_apply, h]
  rfl

theorem exists_pending_write (setting : Setting) (function : FunctionId) (args : List Value)
    (value : Value) (span : Span) (machine : Machine) :
    ∃ pending, (write setting function args value span machine).2 = { machine with pending } ∧
      (pending = machine.pending ∨ machine.pending.add machine.heap setting.digest function args
        value span = .ok pending) := by
  cases hadd : machine.pending.add machine.heap setting.digest function args value span with
  | error fault => exact ⟨machine.pending, by rw [write_of_add_error hadd], .inl rfl⟩
  | ok pending => exact ⟨pending, by rw [write_of_add_ok hadd], .inr rfl⟩

end Writes

theorem onPending_apply (operation : UpdateSet → α × UpdateSet) (machine : Machine) :
    onPending operation machine =
      (.ok (operation machine.pending).1,
        { machine with pending := (operation machine.pending).2 }) := rfl

section Leaving

variable {merge : UpdateSet → ListHeap → Bool → UpdateSet × Option Fault} {forked : Bool}
  {merged : UpdateSet}

theorem leave_of_merge_ok (h : merge machine.pending machine.heap forked = (merged, none)) :
    leave merge forked machine = (.ok (), { machine with pending := merged }) := by
  rw [leave, get_bind_apply, h]
  rfl

theorem leave_of_merge_error {fault : Fault}
    (h : merge machine.pending machine.heap forked = (merged, some fault)) :
    leave merge forked machine =
      (.error (.fault fault), { machine with pending := merged }) := by
  rw [leave, get_bind_apply, h]
  rfl

theorem snd_leave (merge : UpdateSet → ListHeap → Bool → UpdateSet × Option Fault) (forked : Bool)
    (machine : Machine) :
    (leave merge forked machine).2 =
      { machine with pending := (merge machine.pending machine.heap forked).1 } := by
  rcases hmerge : merge machine.pending machine.heap forked with ⟨merged, _ | fault⟩
  · rw [leave_of_merge_ok hmerge]
  · rw [leave_of_merge_error hmerge]

end Leaving

/-! ### Calls -/

inductive InitializesTo (setting : Setting) (fuel : Nat) (machine : Machine) :
    Except Stop Unit × Machine → Prop where
  | failed {stop : Stop} {next : Machine}
      (hstart : orAbandon (scheduleStart setting fuel) machine = (.error stop, next)) :
      InitializesTo setting fuel machine (.error stop, next)
  | done {next : Machine}
      (hstart : orAbandon (scheduleStart setting fuel) machine = (.ok (), next)) :
      InitializesTo setting fuel machine (.ok (), (next.applyPending setting false).reclaimLists)

theorem initializesTo_init (setting : Setting) (fuel : Nat) (machine : Machine) :
    InitializesTo setting fuel machine (init setting fuel machine) := by
  rw [init, bind_apply]
  rcases hstart : orAbandon (scheduleStart setting fuel) machine with ⟨stop | _, next⟩
  · exact .failed hstart
  · exact .done hstart

theorem orAbandon_eq_ok {α : Type} {run : Run α} {result : α} {machine next : Machine}
    (h : orAbandon run machine = (.ok result, next)) : run machine = (.ok result, next) := by
  unfold orAbandon at h
  rcases hrun : run machine with ⟨_ | _, last⟩ <;> rw [hrun] at h <;> cases h
  rfl

theorem pending_of_orAbandon_error {α : Type} {run : Run α} {machine next : Machine} {stop : Stop}
    (h : orAbandon run machine = (.error stop, next)) : next.pending = {} := by
  unfold orAbandon at h
  rcases hrun : run machine with ⟨_ | _, last⟩ <;> rw [hrun] at h <;> cases h
  rfl

/-- The ways a step can end. -/
inductive StepsTo (setting : Setting) (fuel : Nat) (machine : Machine) :
    Except Stop Bool × Machine → Prop where
  | halted (hhalted : machine.halted = true) : StepsTo setting fuel machine (.ok false, machine)
  | halts {next : Machine} (hrunning : ¬ machine.halted = true)
      (hread : read setting fuel Specification.program [] { machine with span := {} } =
        (.ok .undefined, next)) :
      StepsTo setting fuel machine (.ok false, next.halt setting)
  | unscheduled {stop : Stop} {program? : Except Stop Value} {next : Machine}
      (hrunning : ¬ machine.halted = true)
      (hread : read setting fuel Specification.program [] { machine with span := {} } =
        (program?, next)) (hnone : ∀ rule, program? ≠ .ok (.rule rule)) :
      StepsTo setting fuel machine (.error stop, next)
  | failed {rule : RuleId} {stop : Stop} {middle next : Machine}
      (hrunning : ¬ machine.halted = true)
      (hread : read setting fuel Specification.program [] { machine with span := {} } =
        (.ok (.rule rule), middle))
      (hcall : orAbandon (callRule setting (exec setting fuel) rule []) middle =
        (.error stop, next)) :
      StepsTo setting fuel machine (.error stop, next)
  | done {rule : RuleId} {middle next : Machine} (hrunning : ¬ machine.halted = true)
      (hread : read setting fuel Specification.program [] { machine with span := {} } =
        (.ok (.rule rule), middle))
      (hcall : orAbandon (callRule setting (exec setting fuel) rule []) middle = (.ok (), next)) :
      StepsTo setting fuel machine (.ok true, Machine.reclaimLists
        { next.applyPending setting true with
          steps := (next.applyPending setting true).steps + 1 })

theorem stepsTo_step (setting : Setting) (fuel : Nat) (machine : Machine) :
    StepsTo setting fuel machine (step setting fuel machine) := by
  rw [step, get_bind_apply]
  by_cases hhalted : machine.halted = true
  · rw [if_pos hhalted]
    exact .halted hhalted
  rw [if_neg hhalted, modify_bind_apply, bind_apply]
  rcases hread : read setting fuel Specification.program [] { machine with span := {} } with
    ⟨stop | program, middle⟩
  · exact .unscheduled hhalted hread (by rintro rule ⟨⟩)
  cases program with
  | undefined => exact .halts hhalted hread
  | rule rule =>
    dsimp only [ExceptT.bindCont]
    rw [bind_apply]
    rcases hcall : orAbandon (callRule setting (exec setting fuel) rule []) middle with
      ⟨stop | _, next⟩
    · exact .failed hhalted hread hcall
    · exact .done hhalted hread hcall
  | _ => exact .unscheduled hhalted hread (by rintro rule ⟨⟩)

end AbstractStateMachine.Run
