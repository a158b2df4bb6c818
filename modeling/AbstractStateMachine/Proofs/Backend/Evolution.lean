import AbstractStateMachine.Proofs.Machine.Grounding
import AbstractStateMachine.Proofs.Symbolic.Reports
import AbstractStateMachine.Proofs.UpdateSet.Orderly

/-!
# How machines evolve between commits

Until its pending updates are applied, a machine changes in two ways: a location that is read comes
into being with a new symbol, or the state takes no part in the change. A relation between machines
that allows for both, and can be chained, holds between a machine and what any expression or
statement makes of it.
-/

namespace AbstractStateMachine

open ListHeap Standard Invariant

namespace Machine

variable {setting : Setting} {machine next : Machine} {args : List Value}

/-- A change that the state takes no part in: lists are only added, and the trace may go on as long
as no location is reported. -/
structure KeepsState (setting : Setting) (machine next : Machine) : Prop where
  grows : machine.heap.Extends next.heap
  grounded : next.Grounded setting
  state : next.state = machine.state
  pending : next.pending.Orderly next.heap setting.digest
  halted : next.halted = machine.halted
  tracks : machine.recorder.SameTracks next.recorder
  reports : ∀ subject time,
    next.recorder.reports subject time = machine.recorder.reports subject time

section KeepsState

theorem keepsState_of_pending {locals : List Binding} {frameBase : Nat} {span : Span}
    {output : Array String} {steps : Nat} {pending : UpdateSet}
    (hnext : Grounded setting { machine with locals, frameBase, span, output, steps, pending })
    (hpending : pending.Orderly machine.heap setting.digest) :
    machine.KeepsState setting { machine with locals, frameBase, span, output, steps, pending } where
  grows := .refl _
  grounded := hnext
  state := rfl
  pending := hpending
  halted := rfl
  tracks := ⟨rfl, rfl⟩
  reports _ _ := rfl

variable (hgrounded : machine.Grounded setting)
  (horderly : machine.pending.Orderly machine.heap setting.digest)
include hgrounded

theorem keepsState_abandonStep : machine.KeepsState setting machine.abandonStep :=
  keepsState_of_pending hgrounded.abandon UpdateSet.orderly_default

include horderly

theorem keepsState_recorded {heap : ListHeap} {recorder : Recorder}
    (hnext : Grounded setting { machine with heap, recorder })
    (hgrows : machine.heap.Extends heap) (htracks : machine.recorder.SameTracks recorder)
    (hreports : ∀ subject time,
      recorder.reports subject time = machine.recorder.reports subject time) :
    machine.KeepsState setting { machine with heap, recorder } := by
  have hagrees := agrees_of_extends hgrounded.wellFormed hnext.wellFormed hgrows
  have hheld := acceptsAll_plain_iff.mp hgrounded.pending
  exact ⟨hgrows, hnext, rfl, horderly.agrees hagrees hheld (hheld.extends hgrows), rfl, htracks,
    hreports⟩

theorem keepsState_with_heap {heap : ListHeap} (hheap : heap.WellFormed)
    (hgrows : machine.heap.Extends heap) : machine.KeepsState setting { machine with heap } :=
  keepsState_recorded hgrounded horderly (hgrounded.with_heap hheap hgrows) hgrows ⟨rfl, rfl⟩
    fun _ _ => rfl

theorem keepsState_refl : machine.KeepsState setting machine :=
  keepsState_with_heap hgrounded horderly hgrounded.wellFormed (.refl _)

theorem keepsState_operatesTo {outcome : Except Stop Value × Machine}
    (hnext : outcome.2.Grounded setting) (hgrows : machine.heap.Extends outcome.2.heap)
    (h : Run.OperatesTo setting args machine outcome) : machine.KeepsState setting outcome.2 := by
  cases h with
  | scalar | bound | raised => exact keepsState_refl hgrounded horderly
  | built | listed =>
    exact keepsState_with_heap hgrounded horderly hnext.wellFormed hgrows
  | symbol | comparison | negation =>
    exact keepsState_recorded hgrounded horderly hnext hgrows ⟨rfl, rfl⟩ fun _ _ =>
      Recorder.reports_fresh
  | definition op =>
    exact keepsState_recorded hgrounded horderly hnext hgrows ⟨rfl, rfl⟩ fun _ _ =>
      Recorder.reports_define op _ _

end KeepsState

/-- A relation that a machine is in with every machine it evolves into. -/
structure Evolution (setting : Setting) (Holds : Machine → Prop)
    (Leads : Machine → Machine → Prop) : Prop where
  grounded : ∀ {machine}, Holds machine → machine.Grounded setting
  orderly : ∀ {machine}, Holds machine → machine.pending.Orderly machine.heap setting.digest
  holds : ∀ {machine next}, Leads machine next → Holds next
  trans : ∀ {machine next last}, Leads machine next → Leads next last → Leads machine last
  kept : ∀ {machine next}, Holds machine → machine.KeepsState setting next → Leads machine next
  symbolized : ∀ {machine function args}, Holds machine → machine.heap.Supports args →
    (setting.symbolic && (setting.spec.function function).symbolic) = true →
    machine.state.get? machine.heap function (machine.heap.argKey setting.digest args) args = none →
      Leads machine (machine.symbolized setting function args)

end Machine

namespace Run

open Machine

variable {setting : Setting} {Holds : Machine → Prop} {Leads : Machine → Machine → Prop}
  {base machine next : Machine} {w : HeapWorld} {α : Type}

/-- Whatever is computed, the machine has evolved from the one that the computation started with. -/
def evolving (Leads : Machine → Machine → Prop) (base : Machine) : Invariant Machine Value where
  World := HeapWorld
  Later := HeapWorld.Later
  Holds w machine := machine.heap = w.1 ∧ Leads base machine
  Covers w value := w.1.Supports [value]
  later_refl := HeapWorld.later_refl
  later_trans := HeapWorld.later_trans
  covers_later hlater hvalue := hvalue.extends hlater.grows

theorem supports_of_coversAll {values : List Value}
    (h : (evolving Leads base).CoversAll w values) : w.1.Supports values :=
  have haccepted : (plain true).AcceptsAll w.1 values := h
  acceptsAll_plain_iff.mp haccepted

theorem maintained_grounded (setting : Setting) :
    Maintained (plain setting.symbolic).discipline.invariant (backend setting) :=
  (plain setting.symbolic).discipline.maintained

end Run

namespace Machine.Evolution

open Run

variable {setting : Setting} {Holds : Machine → Prop} {Leads : Machine → Machine → Prop}
  {base machine next : Machine} {w : HeapWorld} {α : Type}
  (E : Evolution setting Holds Leads) {run : Run α} {post : HeapWorld → α → Prop}
include E

theorem refl (h : Holds machine) : Leads machine machine :=
  E.kept h (keepsState_refl (E.grounded h) (E.orderly h))

theorem lasting : Evolution setting Holds fun _ next => Holds next where
  grounded := E.grounded
  orderly := E.orderly
  holds := id
  trans _ := id
  kept h hkept := E.holds (E.kept h hkept)
  symbolized h hargs hsymbolic hunstored := E.holds (E.symbolized h hargs hsymbolic hunstored)

theorem leads_abandonStep (h : Holds machine) : Leads machine machine.abandonStep :=
  E.kept h (keepsState_abandonStep (E.grounded h))

theorem leads_rebound (h : Holds machine) {locals : List Binding} {frameBase : Nat} {span : Span}
    {output : Array String} {steps : Nat}
    (hnext : Grounded setting { machine with locals, frameBase, span, output, steps }) :
    Leads machine { machine with locals, frameBase, span, output, steps } :=
  E.kept h (keepsState_of_pending hnext (E.orderly h))

/-! ### Single operations -/

theorem maintains_of (hrun : (plain setting.symbolic).discipline.invariant.Maintains w post run)
    (hleads : ∀ machine, machine.heap = w.1 → Holds machine → (run machine).2.Grounded setting →
      machine.heap.Extends (run machine).2.heap → Leads machine (run machine).2) :
    (evolving Leads base).Maintains w post run := by
  rintro machine ⟨hheap, hmachine⟩
  have hholds := E.holds hmachine
  obtain ⟨w', hlater, hnext, hpost⟩ :=
    hrun machine (governs_iff.mpr ⟨hheap, E.grounded hholds⟩)
  refine ⟨w', hlater, ⟨hnext.suits.1, E.trans hmachine ?_⟩, hpost⟩
  refine hleads machine hheap hholds (upholds_of_governs hnext) ?_
  rw [hheap, hnext.suits.1]
  exact hlater.grows

theorem holds_of_leads (h : (evolving Leads base).Holds w machine)
    (hheap : next.heap = machine.heap) (hnext : Holds machine → Leads machine next) :
    (evolving Leads base).Holds w next :=
  ⟨hheap.trans h.1, E.trans h.2 (hnext (E.holds h.2))⟩

theorem maintains_of_heap
    (hrun : (plain setting.symbolic).discipline.invariant.Maintains w post run)
    (hheap : ∀ machine, ∃ heap, (run machine).2 = { machine with heap }) :
    (evolving Leads base).Maintains w post run := by
  refine E.maintains_of hrun fun machine _ h hnext hgrows => ?_
  obtain ⟨heap, heq⟩ := hheap machine
  rw [heq] at hnext hgrows ⊢
  exact E.kept h (keepsState_with_heap (E.grounded h) (E.orderly h) hnext.wellFormed hgrows)

theorem maintains_of_pending
    (hrun : (plain setting.symbolic).discipline.invariant.Maintains w post run)
    (hpending : ∀ machine : Machine, machine.pending.Orderly machine.heap setting.digest →
      ∃ pending : UpdateSet, (run machine).2 = { machine with pending } ∧
        pending.Orderly machine.heap setting.digest) :
    (evolving Leads base).Maintains w post run := by
  refine E.maintains_of hrun fun machine _ h hnext _ => ?_
  obtain ⟨pending, heq, horderly⟩ := hpending machine (E.orderly h)
  rw [heq] at hnext ⊢
  exact E.kept h (keepsState_of_pending hnext horderly)

theorem maintains_readStored (function : FunctionId) {args : List Value}
    (hargs : (evolving Leads base).CoversAll w args) :
    (evolving Leads base).Maintains w (evolving Leads base).Covers
      ((backend setting).readStored function args) := by
  refine E.maintains_of ((maintained_grounded setting).readStored w function args hargs)
    fun machine hheap h _ _ => ?_
  have hreads := readsTo_readStored setting function args machine
  show Leads machine (readStored setting function args machine).2
  generalize readStored setting function args machine = outcome at hreads ⊢
  cases hreads with
  | symbolized hsymbolic hunstored =>
    exact E.symbolized h (hheap ▸ supports_of_coversAll hargs) hsymbolic hunstored
  | _ => exact E.refl h

theorem maintains_decide {value : Value} (hvalue : (evolving Leads base).Covers w value) :
    (evolving Leads base).Maintains w (evolving Leads base).Anything
      ((backend setting).decide value) := by
  refine E.maintains_of ((maintained_grounded setting).decide w value hvalue)
    fun machine _ h hnext hgrows => ?_
  have hdecides := decidesTo_decide setting value machine
  change Grounded setting (decide setting value machine).2 at hnext
  show Leads machine (decide setting value machine).2
  generalize decide setting value machine = outcome at hdecides hnext ⊢
  cases hdecides with
  | decided | raised => exact E.refl h
  | assumed => exact E.kept h (keepsState_recorded (E.grounded h) (E.orderly h) hnext
      (.refl _) ⟨rfl, rfl⟩ fun _ _ => Recorder.reports_assume _ _ _)

theorem maintains_write (function : FunctionId) {args : List Value} {value : Value}
    (hargs : (evolving Leads base).CoversAll w args)
    (hvalue : (evolving Leads base).Covers w value) (span : Span) :
    (evolving Leads base).Maintains w (evolving Leads base).Anything
      ((backend setting).write function args value span) := by
  refine E.maintains_of_pending
    ((maintained_grounded setting).write w function args value span hargs hvalue)
    fun machine horderly => ?_
  obtain ⟨pending, heq, rfl | hadd⟩ := exists_pending_write setting function args value span machine
  · exact ⟨_, heq, horderly⟩
  · exact ⟨pending, heq, horderly.add hadd⟩

theorem maintains_enter (parallel : Bool) :
    (evolving Leads base).Maintains w (evolving Leads base).Anything
      ((backend setting).enter parallel) := by
  refine E.maintains_of_pending ((maintained_grounded setting).enter w parallel)
    fun machine horderly => ?_
  cases parallel with
  | true => exact ⟨_, rfl, horderly.forkParallel⟩
  | false => exact ⟨_, rfl, horderly.forkSequential⟩

/-! ### Expressions and statements -/

theorem evalMaintained (base : Machine) :
    EvalMaintained (evolving Leads base) (backend setting) where
  enterFrame _ _ params _ h hargs := E.holds_of_leads h rfl fun hmachine =>
    E.leads_rebound hmachine ((E.grounded hmachine).enterFrame
      (acceptsAll_plain_iff.mpr (h.1 ▸ supports_of_coversAll hargs)) params)
  leaveFrame _ _ caller _ _ h := E.holds_of_leads h rfl fun hmachine =>
    E.leads_rebound hmachine ((E.grounded hmachine).leaveFrame caller)
  readStored _ function _ hargs := E.maintains_readStored function hargs
  operate w expr args hread hargs :=
    E.maintains_of ((maintained_grounded setting).operate w expr args hread hargs)
      fun machine _ h hnext hgrows => E.kept h (keepsState_operatesTo (E.grounded h) (E.orderly h)
        hnext hgrows (operatesTo_operate setting hread args machine))

theorem maintained (base : Machine) : Maintained (evolving Leads base) (backend setting) where
  toEvalMaintained := E.evalMaintained base
  setSpan _ _ span h := E.holds_of_leads h rfl fun hmachine =>
    E.leads_rebound hmachine ((E.grounded hmachine).setSpan span)
  bindLocal w _ name value h hvalue := E.holds_of_leads h rfl fun hmachine =>
    E.leads_rebound hmachine ((E.grounded hmachine).bindLocal
      (show (plain _).Accepts _ value from h.1 ▸ (show w.1.Supports [value] from hvalue)) name)
  unbindLocal _ _ h := E.holds_of_leads h rfl fun hmachine =>
    E.leads_rebound hmachine (E.grounded hmachine).unbindLocal
  decide _ _ hvalue := E.maintains_decide hvalue
  elements w value hvalue := E.maintains_of_heap
    ((maintained_grounded setting).elements w value hvalue)
    fun machine => ⟨machine.heap, by cases value <;> rfl⟩
  ruleOf w value := E.maintains_of_heap ((maintained_grounded setting).ruleOf w value)
    fun machine => ⟨machine.heap, by cases value <;> rfl⟩
  print w values := E.maintains_of ((maintained_grounded setting).print w values)
    fun _ _ h hnext _ => E.leads_rebound h hnext
  pushed w value current hvalue hcurrent := E.maintains_of_heap
    ((maintained_grounded setting).pushed w value current hvalue hcurrent)
    fun machine => by cases current <;> exact ⟨_, rfl⟩
  popped w current hcurrent := E.maintains_of_heap
    ((maintained_grounded setting).popped w current hcurrent)
    fun machine => by cases current <;> exact ⟨_, rfl⟩
  write _ function _ _ span hargs hvalue := E.maintains_write function hargs hvalue span
  enter _ := E.maintains_enter
  leave w forked := E.maintains_of_pending ((maintained_grounded setting).leave w forked)
    fun machine horderly => ⟨_, snd_leave UpdateSet.merge forked machine, horderly.merge forked⟩
  leaveRound w forked := E.maintains_of_pending ((maintained_grounded setting).leaveRound w forked)
    fun machine horderly =>
      ⟨_, snd_leave UpdateSet.mergeRound forked machine, horderly.mergeRound forked⟩

theorem maintains_scheduled (program : Value) :
    (evolving Leads base).Maintains w (evolving Leads base).Anything
      ((backend setting).scheduled program) :=
  E.maintains_of_heap (Discipline.allows_scheduled program)
    fun machine => ⟨machine.heap, by cases program <;> rfl⟩

theorem leads_run (h : Holds machine)
    (hrun : ∀ w : HeapWorld, (evolving Leads machine).Maintains w post run) :
    Leads machine (run machine).2 := by
  obtain ⟨_, -, ⟨-, hleads⟩, -⟩ :=
    hrun ⟨machine.heap, (E.grounded h).wellFormed⟩ machine ⟨rfl, E.refl h⟩
  exact hleads

theorem leads_orAbandon (h : Leads machine (run machine).2) :
    Leads machine (Run.orAbandon run machine).2 := by
  unfold Run.orAbandon
  rcases hrun : run machine with ⟨stop | result, next⟩ <;> rw [hrun] at h
  · exact E.trans h (E.leads_abandonStep (E.holds h))
  · exact h

end Machine.Evolution

end AbstractStateMachine
