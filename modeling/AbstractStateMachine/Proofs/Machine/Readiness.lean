import AbstractStateMachine.Proofs.Machine.Reclamation
import AbstractStateMachine.Proofs.UpdateSet.Orderly

/-!
# Machines that are ready

A machine is ready for a statement if its values are sound and each layer of its update set has one
update for a location. In concrete mode a machine stays ready whatever it is called for, also when
the call fails and leaves open blocks behind.
-/

namespace AbstractStateMachine

open ListHeap Standard Run Invariant

namespace Run

variable {setting : Setting} {α : Type}

/-! ### Layers -/

def indexing : Invariant Machine Value where
  World := Unit
  Later _ _ := True
  Holds _ machine := ∀ layer ∈ machine.pending.layers, layer.Indexed
  Covers _ _ := True
  later_refl _ := trivial
  later_trans _ _ := trivial
  covers_later _ _ := trivial

theorem OnlyObserves.indexes {run : Run α} (h : OnlyObserves setting run)
    {post : Unit → α → Prop} (hpost : ∀ result, post () result) :
    indexing.Maintains () post run := by
  intro machine hmachine
  refine ⟨(), trivial, ?_, fun result _ => hpost result⟩
  show ∀ layer ∈ (run machine).2.pending.layers, layer.Indexed
  rw [(h machine).pending]
  exact hmachine

theorem indexes_write (function : FunctionId) (args : List Value) (value : Value) (span : Span) :
    indexing.Maintains () indexing.Anything
      ((Machine.backend setting).write function args value span) := by
  intro machine hmachine
  refine ⟨(), trivial, ?_, fun _ _ => trivial⟩
  show ∀ layer ∈ (write setting function args value span machine).2.pending.layers, layer.Indexed
  cases hadd : machine.pending.add machine.heap setting.digest function args value span with
  | error fault =>
    rw [write_of_add_error hadd]
    exact hmachine
  | ok pending =>
    rw [write_of_add_ok hadd]
    exact UpdateSet.forall_layers_add (Layer.lasting_indexed _) hmachine trivial hadd

theorem indexes_enter (parallel : Bool) :
    indexing.Maintains () indexing.Anything ((Machine.backend setting).enter parallel) := by
  intro machine hmachine
  refine ⟨(), trivial, ?_, fun _ _ => trivial⟩
  cases parallel with
  | true => exact UpdateSet.forall_layers_forkParallel (Layer.lasting_indexed machine.heap) hmachine
  | false =>
    exact UpdateSet.forall_layers_forkSequential (Layer.lasting_indexed machine.heap) hmachine

theorem indexes_leave {merge : UpdateSet → ListHeap → Bool → UpdateSet × Option Fault}
    (hmerge : ∀ (set : UpdateSet) heap forked, (∀ layer ∈ set.layers, layer.Indexed) →
      ∀ layer ∈ (merge set heap forked).1.layers, layer.Indexed) (forked : Bool) :
    indexing.Maintains () indexing.Anything (leave merge forked) := by
  intro machine hmachine
  refine ⟨(), trivial, ?_, fun _ _ => trivial⟩
  have hmerged := hmerge machine.pending machine.heap forked hmachine
  show ∀ layer ∈ (leave merge forked machine).2.pending.layers, layer.Indexed
  rcases hleave : merge machine.pending machine.heap forked with ⟨merged, _ | fault⟩ <;>
    rw [hleave] at hmerged
  · rw [leave_of_merge_ok hleave]
    exact hmerged
  · rw [leave_of_merge_error hleave]
    exact hmerged

theorem maintained_indexing (setting : Setting) :
    Maintained indexing (Machine.backend setting) where
  enterFrame _ _ _ _ h _ := h
  leaveFrame _ _ _ _ _ h := h
  readStored _ function args _ := (onlyObserves_readStored function args).indexes fun _ => trivial
  operate _ _ args hread _ := (onlyObserves_operate hread args).indexes fun _ => trivial
  setSpan _ _ _ h := h
  bindLocal _ _ _ _ h _ := h
  unbindLocal _ _ h := h
  decide _ value _ := (onlyObserves_decide value).indexes fun _ => trivial
  elements _ value _ :=
    (show OnlyObserves setting _ from onlyObserves_domainElements value).indexes
      fun _ _ _ => trivial
  ruleOf _ value :=
    (show OnlyObserves setting _ from onlyObserves_ruleOf value).indexes fun _ => trivial
  print _ _ := maintains_modify fun _ h => h
  pushed _ value current _ _ := (onlyObserves_pushed value current).indexes fun _ => trivial
  popped _ current _ :=
    (onlyObserves_popped current).indexes fun _ => ⟨trivial, fun _ _ => trivial⟩
  write _ function args value span _ _ := indexes_write function args value span
  enter _ := indexes_enter
  leave _ := indexes_leave fun _ heap forked h =>
    UpdateSet.forall_layers_merge (Layer.lasting_indexed heap) h forked
  leaveRound _ := indexes_leave fun _ heap forked h =>
    UpdateSet.forall_layers_mergeRound (Layer.lasting_indexed heap) h forked

end Run

namespace Machine

variable {setting : Setting} {machine : Machine}

structure Ready (setting : Setting) (machine : Machine) : Prop where
  consistent : machine.Consistent setting
  indexed : ∀ layer ∈ machine.pending.layers, layer.Indexed

theorem indexed_of_pending_eq (h : machine.pending = {}) :
    ∀ layer ∈ machine.pending.layers, layer.Indexed := by
  rw [h]
  exact List.forall_mem_singleton.mpr Layer.indexed_empty

theorem indexed_exec (h : ∀ layer ∈ machine.pending.layers, layer.Indexed) (fuel : Nat)
    (stmt : Stmt) :
    ∀ layer ∈ (Run.exec setting fuel stmt machine).2.pending.layers, layer.Indexed := by
  have hexec : indexing.Maintains () indexing.Anything ((backend setting).exec fuel stmt) :=
    maintains_of_alike ((maintained_indexing setting).correspondence.exec fuel () stmt trivial)
      fun _ _ _ => trivial
  obtain ⟨_, -, hindexed, -⟩ := hexec machine h
  rw [Run.exec_eq]
  exact hindexed

theorem indexed_step (h : ∀ layer ∈ machine.pending.layers, layer.Indexed) (fuel : Nat) :
    ∀ layer ∈ (Run.step setting fuel machine).2.pending.layers, layer.Indexed := by
  have hsteps := Run.stepsTo_step setting fuel machine
  have hobserves : Observes setting _ _ :=
    (onlyObserves_read fuel Specification.program [] { machine with span := {} }).toObserves
  generalize Run.step setting fuel machine = outcome at hsteps ⊢
  cases hsteps with
  | halted => exact h
  | halts _ hread | unscheduled _ hread =>
    rw [hread] at hobserves
    exact hobserves.pending.symm ▸ h
  | failed _ _ hcall => exact indexed_of_pending_eq (pending_of_orAbandon_error hcall)
  | done => exact indexed_of_pending_eq (pending_applyPending true)

theorem IsLeg.indexed {leg : Leg} (hleg : IsLeg setting machine leg)
    (h : ∀ layer ∈ machine.pending.layers, layer.Indexed) :
    ∀ layer ∈ leg.next.pending.layers, layer.Indexed := by
  cases hleg with
  | init fuel =>
    have hinitializes := Run.initializesTo_init setting fuel machine
    show ∀ layer ∈ (Run.init setting fuel machine).2.pending.layers, layer.Indexed
    generalize Run.init setting fuel machine = outcome at hinitializes ⊢
    cases hinitializes with
    | failed hstart => exact indexed_of_pending_eq (pending_of_orAbandon_error hstart)
    | done => exact indexed_of_pending_eq (pending_applyPending false)
  | step fuel => exact indexed_step h fuel
  | exec fuel stmt => exact indexed_exec h fuel stmt
  | eval fuel expr =>
    show ∀ layer ∈ (Run.eval setting fuel expr machine).2.pending.layers, layer.Indexed
    rw [(Run.onlyObserves_eval fuel expr machine).pending]
    exact h

theorem ready_afterCalls (hconcrete : setting.symbolic = false) (calls : List Call) :
    (afterCalls setting calls).Ready setting := by
  refine (afterCalls_induction (P := fun machine => machine.Ready setting ∧
    machine.bindings = ([], 0)) ⟨⟨consistent_new setting, indexed_of_pending_eq rfl⟩, rfl⟩ ?_
      calls).1
  rintro machine leg ⟨hready, hunbound⟩ hleg
  have hperforms := hleg.performs hready.consistent hunbound
  exact ⟨⟨hperforms.consistent hconcrete (congrArg Prod.fst hunbound),
    hleg.indexed hready.indexed⟩, hperforms.bindings.trans hunbound⟩

end Machine

end AbstractStateMachine
