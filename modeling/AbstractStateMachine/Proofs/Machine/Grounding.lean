import AbstractStateMachine.Proofs.Location.Stability
import AbstractStateMachine.Proofs.Machine.Reclamation
import Mathlib.Data.List.Find

/-!
# Grounded machines

A machine is grounded if the lists among its stored values, its pending updates and its bindings are
allocated. Unlike lists that are operands of comparisons, these are never lost: every call leaves a
machine grounded, whatever came before. While lists are only added, what a grounded machine has for
a location does not depend on the heap it is looked up in.
-/

namespace AbstractStateMachine

open ListHeap Standard

namespace UpdateSet

variable {heap later : ListHeap} (h : heap.Agrees later) {args : List Value}
  (hargs : heap.Supports args) (hargs' : later.Supports args)
include h hargs hargs'

theorem lookupIn_eq_of_agrees (function : FunctionId) (key : ArgKey) {layers : List Layer}
    (hheld : heap.Supports (layers.flatMap Layer.held))
    (hheld' : later.Supports (layers.flatMap Layer.held)) :
    lookupIn later function key args layers = lookupIn heap function key args layers := by
  induction layers with
  | nil => rfl
  | cons layer below ih =>
    have hfilter : ((layer.get? (function, key)).filter fun update =>
          later.sameArgs update.args args) =
        (layer.get? (function, key)).filter fun update => heap.sameArgs update.args args := by
      cases hfound : layer.get? (function, key) with
      | none => rfl
      | some update =>
        have hsub : ∀ value ∈ update.args, value ∈ (layer :: below).flatMap Layer.held :=
          fun value hvalue => List.mem_flatMap.mpr ⟨layer, List.mem_cons_self,
            List.mem_flatMap.mpr ⟨update, OrderedMap.mem_values_of_get? hfound,
              List.mem_append_left _ hvalue⟩⟩
        rw [Option.filter_some, Option.filter_some,
          h.sameArgs_eq (hheld.mono hsub) (hheld'.mono hsub) hargs hargs']
    have hbelow : ∀ value ∈ below.flatMap Layer.held,
        value ∈ (layer :: below).flatMap Layer.held := fun _ => List.mem_append_right _
    rw [lookupIn, lookupIn, hfilter, ih (hheld.mono hbelow) (hheld'.mono hbelow)]

end UpdateSet

namespace Interpretation

variable {state : Interpretation} {function : FunctionId} {key : ArgKey}

section Agreeing

variable {heap later : ListHeap} (h : heap.Agrees later) {args : List Value}
  (hargs : heap.Supports args) (hargs' : later.Supports args)
include h hargs hargs'

theorem get?_eq_of_agrees (function : FunctionId) (key : ArgKey)
    (hstate : heap.Supports state.values) (hstate' : later.Supports state.values) :
    state.get? later function key args = state.get? heap function key args := by
  unfold get?
  cases hbucket : (state.table function).get? key with
  | none => rfl
  | some bucket =>
    have hvalues := OrderedMap.mem_values_of_get? hbucket
    have hsub : ∀ location ∈ bucket, ∀ value ∈ location.args, value ∈ state.values :=
      fun location hlocation value hvalue => mem_values_iff.mpr
        ⟨_, mem_tables_of_mem_values hvalues, bucket, hvalues, location, hlocation, Or.inl hvalue⟩
    show Bucket.get? later bucket args = Bucket.get? heap bucket args
    unfold Bucket.get?
    rw [List.find?_congr fun location hlocation => h.sameArgs_eq
      (hstate.mono (hsub location hlocation)) (hstate'.mono (hsub location hlocation))
      hargs hargs']

end Agreeing

end Interpretation

namespace Machine

variable {setting : Setting} {machine next ready : Machine}

abbrev Grounded (setting : Setting) (machine : Machine) : Prop :=
  machine.Upholds (.plain setting.symbolic)

/-- The value that reads see because a sequential block has written it. -/
def pendingValue? (setting : Setting) (machine : Machine) (function : FunctionId)
    (args : List Value) : Option Value :=
  machine.pending.lookup machine.heap function (machine.heap.argKey setting.digest args) args

def storedValue? (setting : Setting) (machine : Machine) (function : FunctionId)
    (args : List Value) : Option Value :=
  machine.state.get? machine.heap function (machine.heap.argKey setting.digest args) args

/-! ### Stored values -/

section Stored

variable {function : FunctionId} {key : ArgKey}

theorem Upholds.supports_args (h : machine.Grounded setting) {location : StoredLocation}
    (hlocation : location ∈ machine.state.bucket function key) :
    machine.heap.Supports location.args :=
  (acceptsAll_plain_iff.mp h.state).mono fun _ hvalue =>
    Interpretation.mem_values_of_mem_bucket hlocation (.inl hvalue)

theorem Upholds.supports_value (h : machine.Grounded setting) {location : StoredLocation}
    (hlocation : location ∈ machine.state.bucket function key) :
    machine.heap.Supports [location.value] :=
  (acceptsAll_plain_iff.mp h.state).of_mem
    (Interpretation.mem_values_of_mem_bucket hlocation (.inr rfl))

end Stored

section Growing

variable (hmachine : machine.Grounded setting) (hnext : next.Grounded setting)
  (hgrows : machine.heap.Extends next.heap) {function : FunctionId} {args : List Value}
  (hargs : machine.heap.Supports args)
include hmachine hnext hgrows hargs

theorem pendingValue?_eq
    (hlookup : ∀ heap key, next.pending.lookup heap function key args =
      machine.pending.lookup heap function key args) :
    next.pendingValue? setting function args = machine.pendingValue? setting function args := by
  have hagrees := agrees_of_extends hmachine.wellFormed hnext.wellFormed hgrows
  have hheld := acceptsAll_plain_iff.mp hmachine.pending
  rw [pendingValue?, pendingValue?, hlookup, hagrees.argKey_eq hargs (hargs.extends hgrows)]
  exact UpdateSet.lookupIn_eq_of_agrees hagrees hargs (hargs.extends hgrows) function _ hheld
    (hheld.extends hgrows)

theorem get?_eq_storedValue? :
    machine.state.get? next.heap function (next.heap.argKey setting.digest args) args =
      machine.storedValue? setting function args := by
  have hagrees := agrees_of_extends hmachine.wellFormed hnext.wellFormed hgrows
  have hstate := acceptsAll_plain_iff.mp hmachine.state
  rw [storedValue?, hagrees.argKey_eq hargs (hargs.extends hgrows)]
  exact Interpretation.get?_eq_of_agrees hagrees hargs (hargs.extends hgrows) function _ hstate
    (hstate.extends hgrows)

end Growing

theorem grounded_reclaimLists (hready : ready.Grounded setting) (hpending : ready.pending = {})
    (hlocals : ready.locals = []) : ready.reclaimLists.Grounded setting := by
  refine upholds_reclaimLists hready hpending hlocals ?_ fun _ _ => ⟨trivial, trivial⟩
  have hstate := supports_iff.mp (acceptsAll_plain_iff.mp hready.state)
  refine acceptsAll_plain_iff.mpr (supports_iff.mpr fun list hlist => ?_)
  have hroot : .list list ∈ ready.roots := List.mem_append_left _ hlist
  exact ((retains_reclaimLists hready).live_iff list).mpr
    ⟨.root (mem_handles.mpr hroot), hstate list hlist⟩

/-- Between two calls a machine is grounded and has no bindings. -/
structure Idle (setting : Setting) (machine : Machine) : Prop where
  grounded : machine.Grounded setting
  locals : machine.locals = []
  frameBase : machine.frameBase = 0

theorem idle_new (setting : Setting) : (Machine.new setting).Idle setting :=
  ⟨upholds_new setting _, rfl, rfl⟩

theorem Idle.bindings (h : machine.Idle setting) : machine.bindings = ([], 0) :=
  Prod.ext h.locals h.frameBase

theorem Idle.leg (h : machine.Idle setting) {leg : Leg} (hleg : IsLeg setting machine leg) :
    leg.next.Idle setting := by
  have hperforms := hleg.performs h.grounded h.bindings
  obtain ⟨hlocals, hbase⟩ := Prod.mk.inj (hperforms.bindings.trans h.bindings)
  refine ⟨?_, hlocals, hbase⟩
  cases hperforms with
  | continues hnext => exact hnext.upholds
  | commits endOfStep hready =>
    obtain ⟨settled, hcommit, hsettled, hpending, -⟩ := hready.exists_settled endOfStep
    rw [hcommit] at hlocals ⊢
    exact grounded_reclaimLists hsettled.upholds hpending hlocals

theorem idle_afterCalls (setting : Setting) (calls : List Call) :
    (afterCalls setting calls).Idle setting :=
  afterCalls_induction (idle_new setting) (fun _ _ h hleg => h.leg hleg) calls

end Machine

end AbstractStateMachine
