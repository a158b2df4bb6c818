import AbstractStateMachine.Proofs.Backend.Calls
import AbstractStateMachine.Proofs.Machine.Execution

/-!
# Lists that outlive their calls

Between two calls, and between two steps of a run, a machine refers to lists through its state, its
pending updates and the conditions of its path, also through the elements of other lists and the
operands of the comparisons that symbols stand for. None of these lists dangles and none changes as
long as whatever is reclaimed leaves the operands of comparisons in place. The roots of reclamation
are not followed into comparisons, so a symbolic machine can lose a list; a machine that is not
symbolic cannot.
-/

namespace AbstractStateMachine

open ListHeap Standard Run

/-- The way of a machine from one rest to the next. -/
structure Leg where
  next : Machine
  /-- The machine whose updates are applied, if the leg gets so far. -/
  commit? : Option Machine := none
  endOfStep : Bool := false

namespace Machine

variable {setting : Setting} {std : Standard setting.symbolic}
  {machine middle next last ready : Machine} {leg : Leg} {way rest : List Leg}

/-! ### The way of a machine -/

theorem bind_pure_snd {α β : Type} (run : Run α) (f : α → β) (machine : Machine) :
    ((do let result ← run; pure (f result)) machine).2 = (run machine).2 := by
  rw [bind_apply]
  rcases run machine with ⟨_ | _, next⟩ <;> rfl

def initLeg (setting : Setting) (fuel : Nat) (machine : Machine) : Leg where
  next := (Run.init setting fuel machine).2
  commit? :=
    match orAbandon (scheduleStart setting fuel) machine with
    | (.ok _, ready) => some ready
    | (.error _, _) => none

def stepLeg (setting : Setting) (fuel : Nat) (machine : Machine) : Leg where
  next := (Run.step setting fuel machine).2
  commit? :=
    if machine.halted then none
    else
      match read setting fuel Specification.program [] { machine with span := {} } with
      | (.ok (.rule rule), middle) =>
        match orAbandon (callRule setting (exec setting fuel) rule []) middle with
        | (.ok _, ready) => some ready
        | (.error _, _) => none
      | _ => none
  endOfStep := true

theorem commit?_initLeg {fuel : Nat}
    (hstart : orAbandon (scheduleStart setting fuel) machine = (.ok (), ready)) :
    (machine.initLeg setting fuel).commit? = some ready := by
  rw [initLeg, hstart]

theorem commit?_stepLeg {fuel : Nat} {rule : RuleId} (hrunning : ¬ machine.halted = true)
    (hread : read setting fuel Specification.program [] { machine with span := {} } =
      (.ok (.rule rule), middle))
    (hcall : orAbandon (callRule setting (exec setting fuel) rule []) middle = (.ok (), ready)) :
    (machine.stepLeg setting fuel).commit? = some ready := by
  rw [stepLeg, if_neg hrunning, hread]
  dsimp only
  rw [hcall]

def runLegs (setting : Setting) (fuel : Nat) : Nat → Option Nat → Machine → List Leg
  | 0, _, _ => []
  | rounds + 1, limit, machine =>
    if limit = some 0 then []
    else
      let more :=
        match Run.step setting fuel machine with
        | (.ok true, next) => runLegs setting fuel rounds (limit.map (· - 1)) next
        | _ => []
      machine.stepLeg setting fuel :: more

/-- A run has a leg for each of its steps. -/
def legs (setting : Setting) (machine : Machine) : Call → List Leg
  | .init fuel => [machine.initLeg setting fuel]
  | .step fuel => [machine.stepLeg setting fuel]
  | .run fuel rounds limit => runLegs setting fuel rounds limit machine
  | .exec fuel stmt => [{ next := (Run.exec setting fuel stmt machine).2 }]
  | .eval fuel expr => [{ next := (Run.eval setting fuel expr machine).2 }]

def itinerary (setting : Setting) : Machine → List Call → List Leg
  | _, [] => []
  | machine, call :: rest =>
    machine.legs setting call ++ itinerary setting (Run.call setting call machine).2 rest

inductive IsLeg (setting : Setting) (machine : Machine) : Leg → Prop where
  | init (fuel : Nat) : IsLeg setting machine (machine.initLeg setting fuel)
  | step (fuel : Nat) : IsLeg setting machine (machine.stepLeg setting fuel)
  | exec (fuel : Nat) (stmt : Stmt) :
      IsLeg setting machine { next := (Run.exec setting fuel stmt machine).2 }
  | eval (fuel : Nat) (expr : Expr) :
      IsLeg setting machine { next := (Run.eval setting fuel expr machine).2 }

/-- One leg after the other leads from a machine to the last one. -/
inductive Travels (setting : Setting) : Machine → List Leg → Machine → Prop where
  | rests {machine : Machine} : Travels setting machine [] machine
  | goes {machine last : Machine} {leg : Leg} {rest : List Leg}
      (hleg : IsLeg setting machine leg) (hrest : Travels setting leg.next rest last) :
      Travels setting machine (leg :: rest) last

theorem IsLeg.travels (h : IsLeg setting machine leg) : Travels setting machine [leg] leg.next :=
  .goes h .rests

theorem Travels.append (h : Travels setting machine way middle)
    (hrest : Travels setting middle rest last) : Travels setting machine (way ++ rest) last := by
  induction h with
  | rests => exact hrest
  | goes hleg _ ih => exact .goes hleg (ih hrest)

theorem travels_run (setting : Setting) (fuel rounds : Nat) (limit : Option Nat)
    (machine : Machine) : Travels setting machine (runLegs setting fuel rounds limit machine)
      (Run.run setting fuel rounds limit machine).2 := by
  induction rounds generalizing limit machine with
  | zero => exact .rests
  | succ rounds ih =>
    unfold Run.run runLegs
    by_cases hlimit : limit = some 0
    · rw [if_pos hlimit, if_pos hlimit]
      exact .rests
    · rw [if_neg hlimit, if_neg hlimit, bind_apply]
      have hleg : IsLeg setting machine (machine.stepLeg setting fuel) := .step fuel
      have hnext : (machine.stepLeg setting fuel).next = (Run.step setting fuel machine).2 := rfl
      refine .goes hleg ?_
      rw [hnext]
      rcases Run.step setting fuel machine with ⟨stop | stepped, next⟩
      · exact .rests
      · cases stepped with
        | false => exact .rests
        | true => exact ih (limit.map (· - 1)) next

theorem call_init_snd (setting : Setting) (fuel : Nat) (machine : Machine) :
    (Run.call setting (.init fuel) machine).2 = (Run.init setting fuel machine).2 :=
  bind_pure_snd _ _ machine

theorem call_step_snd (setting : Setting) (fuel : Nat) (machine : Machine) :
    (Run.call setting (.step fuel) machine).2 = (Run.step setting fuel machine).2 :=
  bind_pure_snd _ _ machine

theorem travels_legs (setting : Setting) (machine : Machine) (call : Call) :
    Travels setting machine (machine.legs setting call) (Run.call setting call machine).2 := by
  cases call with
  | init fuel => exact call_init_snd setting fuel machine ▸ (IsLeg.init fuel).travels
  | step fuel => exact call_step_snd setting fuel machine ▸ (IsLeg.step fuel).travels
  | run fuel rounds limit =>
    exact bind_pure_snd (run setting fuel rounds limit) _ machine ▸
      travels_run setting fuel rounds limit machine
  | exec fuel stmt =>
    exact bind_pure_snd (exec setting fuel stmt) _ machine ▸ (IsLeg.exec fuel stmt).travels
  | eval fuel expr =>
    exact bind_pure_snd (eval setting fuel expr) _ machine ▸ (IsLeg.eval fuel expr).travels

theorem travels_afterCalls (setting : Setting) (calls : List Call) :
    Travels setting (.new setting) (itinerary setting (.new setting) calls)
      (afterCalls setting calls) := by
  unfold afterCalls
  generalize Machine.new setting = machine
  induction calls generalizing machine with
  | nil => exact .rests
  | cons call rest ih => exact (travels_legs setting machine call).append (ih _)

/-- What holds in the beginning and is kept by every leg holds after any calls. -/
theorem afterCalls_induction {P : Machine → Prop} (hnew : P (.new setting))
    (hleg : ∀ machine leg, P machine → IsLeg setting machine leg → P leg.next)
    (calls : List Call) : P (afterCalls setting calls) := by
  have hlast : ∀ machine way last, Travels setting machine way last → P machine → P last := by
    intro machine way last htravels
    induction htravels with
    | rests => exact id
    | goes hfirst _ ih => exact fun h => ih (hleg _ _ h hfirst)
  exact hlast _ _ _ (travels_afterCalls setting calls) hnew

/-- What a leg does to lists: it only adds some, unless it ends with a commit. -/
inductive Performs (std : Standard setting.symbolic) (machine : Machine) : Leg → Prop where
  | continues {next : Machine} {endOfStep : Bool} (hnext : Continues std machine next) :
      Performs std machine ⟨next, none, endOfStep⟩
  | commits {ready : Machine} (endOfStep : Bool) (hready : Continues std machine ready) :
      Performs std machine ⟨(backend setting).commit endOfStep ready, some ready, endOfStep⟩

theorem ends_orAbandon {α : Type} {run : Run α} {gives : α → List Value}
    (hrun : Keeps std [] run gives) (hmachine : machine.Upholds std)
    (hunbound : machine.bindings = ([], 0)) : Ends std machine gives (orAbandon run machine) := by
  have hends := hrun machine hmachine acceptsAll_nil
  unfold orAbandon
  rcases houtcome : run machine with ⟨stop | result, next⟩ <;> rw [houtcome] at hends
  · refine ⟨⟨?_, hends.grows, hunbound.symm⟩, by rintro _ ⟨⟩⟩
    exact { hends.upholds with
      pending := acceptsAll_nil
      locals := by rintro binding ⟨⟩ }
  · exact hends

theorem performs_init (hmachine : machine.Upholds std) (hunbound : machine.bindings = ([], 0))
    (fuel : Nat) : Performs std machine (machine.initLeg setting fuel) := by
  have hends := ends_orAbandon (keeps_scheduleStart fuel) hmachine hunbound
  have hinitializes := initializesTo_init setting fuel machine
  unfold initLeg
  generalize init setting fuel machine = outcome at hinitializes ⊢
  cases hinitializes with
  | failed hstart =>
    rw [hstart] at hends ⊢
    exact .continues hends.toContinues
  | done hstart =>
    rw [hstart] at hends ⊢
    exact .commits false hends.toContinues

theorem performs_step (hmachine : machine.Upholds std) (hunbound : machine.bindings = ([], 0))
    (fuel : Nat) : Performs std machine (machine.stepLeg setting fuel) := by
  have hspan : Continues std machine { machine with span := {} } :=
    SameHoldings.continues ⟨rfl, rfl, rfl, rfl⟩ hmachine rfl
  have hends := keeps_read fuel Specification.program _ hspan.upholds acceptsAll_nil
  have hcalled {rule : RuleId} {middle next : Machine} {outcome : Except Stop Unit}
      (hread : read setting fuel Specification.program [] { machine with span := {} } =
        (.ok (.rule rule), middle))
      (hcall : orAbandon (callRule setting (exec setting fuel) rule []) middle = (outcome, next)) :
      Continues std machine next := by
    rw [hread] at hends
    have hmiddle := hspan.trans hends.toContinues
    have hends := ends_orAbandon (keeps_callRule fuel rule) hmiddle.upholds
      (hmiddle.bindings.trans hunbound)
    rw [hcall] at hends
    exact hmiddle.trans hends.toContinues
  have hsteps := stepsTo_step setting fuel machine
  unfold stepLeg
  generalize step setting fuel machine = outcome at hsteps ⊢
  cases hsteps with
  | halted hhalted =>
    rw [if_pos hhalted]
    exact .continues hmachine.continues
  | halts hrunning hread =>
    rw [hread] at hends
    rw [if_neg hrunning, hread]
    have hnext := hspan.trans hends.toContinues
    exact .continues (hnext.trans (continues_halt hnext.upholds))
  | unscheduled hrunning hread hnone =>
    rw [hread] at hends
    rw [if_neg hrunning, hread]
    split
    · next hprogram => cases hnone _ (congrArg Prod.fst hprogram)
    · exact .continues (hspan.trans hends.toContinues)
  | failed hrunning hread hcall =>
    rw [if_neg hrunning, hread]
    dsimp only
    rw [hcall]
    exact .continues (hcalled hread hcall)
  | done hrunning hread hcall =>
    rw [if_neg hrunning, hread]
    dsimp only
    rw [hcall]
    exact .commits true (hcalled hread hcall)

theorem IsLeg.performs (h : IsLeg setting machine leg) (hmachine : machine.Upholds std)
    (hunbound : machine.bindings = ([], 0)) : Performs std machine leg := by
  cases h with
  | init fuel => exact performs_init hmachine hunbound fuel
  | step fuel => exact performs_step hmachine hunbound fuel
  | exec fuel stmt =>
    exact .continues (keeps_exec fuel stmt machine hmachine acceptsAll_nil).toContinues
  | eval fuel expr =>
    exact .continues (keeps_eval fuel expr machine hmachine acceptsAll_nil).toContinues

/-- A commit applies the updates and reclaims what is left over then. -/
theorem Continues.exists_settled (h : Continues std machine ready) (endOfStep : Bool) :
    ∃ settled : Machine, (backend setting).commit endOfStep ready = settled.reclaimLists ∧
      Continues std machine settled ∧ settled.pending = {} ∧
      settled.heap = (ready.applyPending setting endOfStep).heap ∧
      settled.roots = (ready.applyPending setting endOfStep).roots := by
  have happlied := h.trans (continues_applyPending h.upholds endOfStep)
  cases endOfStep with
  | false => exact ⟨_, rfl, happlied, pending_applyPending false, rfl, rfl⟩
  | true =>
    refine ⟨_, rfl, happlied.trans ?_, pending_applyPending true, rfl, rfl⟩
    exact SameHoldings.continues ⟨rfl, rfl, rfl, rfl⟩ happlied.upholds rfl

/-! ### Safety -/

/-- Every list that the held values contain is allocated. -/
def NoDangling (machine : Machine) : Prop :=
  ∀ value ∈ machine.held, ∀ list, machine.heap.Contains value (.list list) →
    machine.heap.Live list

/-- A list that is allocated before and after has the same elements. -/
def Intact (machine next : Machine) : Prop :=
  ∀ list, machine.heap.Live list → next.heap.Live list →
    next.heap.toList list = machine.heap.toList list

/-- Lists do not dangle, now and at every rest of the way, and no leg changes one that stays. -/
def Safe : Machine → List Leg → Prop
  | machine, [] => machine.NoDangling
  | machine, leg :: rest => machine.NoDangling ∧ Intact machine leg.next ∧ Safe leg.next rest

/-- Whenever lists are reclaimed, the roots also reach those lists that are operands of comparisons
within them. -/
def OperandsKept (setting : Setting) (way : List Leg) : Prop :=
  ∀ leg ∈ way, ∀ ready ∈ leg.commit?,
    let settled := ready.applyPending setting leg.endOfStep
    settled.heap.OperandsReached settled.roots

theorem Safe.noDangling (h : Safe machine way) : machine.NoDangling := by
  cases way with
  | nil => exact h
  | cons leg rest => exact h.1

theorem Travels.noDangling (h : Travels setting machine way last) (hsafe : Safe machine way) :
    last.NoDangling := by
  induction h with
  | rests => exact hsafe
  | goes _ _ ih => exact ih hsafe.2.2

/-- Every value that a computation can get hold of is sound. -/
abbrev Consistent (setting : Setting) (machine : Machine) : Prop :=
  machine.Upholds (.strict setting.symbolic)

theorem Consistent.sound_roots (h : machine.Consistent setting) :
    machine.heap.AllSound setting.symbolic machine.roots := by
  intro value hvalue
  rcases List.mem_append.mp hvalue with hstate | hpath
  · exact h.state value hstate
  · obtain ⟨cond, hcond, hside⟩ := List.mem_flatMap.mp hpath
    obtain ⟨hlhs, hrhs⟩ := h.path cond hcond
    rcases List.mem_pair.mp hside with rfl | rfl
    · exact hlhs
    · exact hrhs

theorem Consistent.noDangling (h : machine.Consistent setting) : machine.NoDangling := by
  intro value hvalue _ hlist
  rw [held_eq] at hvalue
  rcases List.mem_append.mp hvalue with hroot | hpending
  · exact (Consistent.sound_roots h value hroot).live hlist
  · exact Sound.live (h.pending value hpending) hlist

theorem Continues.intact (h : Continues std machine next) (hmachine : machine.Upholds std) :
    Intact machine next :=
  fun _ hlive _ => toList_of_extends hmachine.wellFormed h.grows hlive

section Reclaiming

variable (hready : ready.Upholds std) (hpending : ready.pending = {})
include hready

theorem retains_reclaimLists : ready.heap.Retains ready.roots ready.reclaimLists.heap :=
  retains_reclaim hready.wellFormed ready.roots

theorem Continues.intact_reclaimLists (h : Continues std machine ready)
    (hmachine : machine.Upholds std) : Intact machine ready.reclaimLists := by
  intro list hlive hkept
  calc ready.reclaimLists.heap.toList list
      = ready.heap.toList list := (retains_reclaimLists hready).toList_eq list hkept
    _ = machine.heap.toList list := toList_of_extends hmachine.wellFormed h.grows hlive

include hpending

/-- Between two calls only the state and the path are left to be looked after. -/
theorem upholds_reclaimLists (hlocals : ready.locals = [])
    (hstate : std.AcceptsAll ready.reclaimLists.heap ready.state.values)
    (hpath : ∀ cond ∈ ready.recorder.path, cond.AcceptedBy std ready.reclaimLists.heap) :
    ready.reclaimLists.Upholds std where
  wellFormed := wellFormed_beginEpoch (wellFormed_reclaim hready.wellFormed ready.roots)
  state := hstate
  pending := by
    show std.AcceptsAll _ ready.pending.held
    rw [hpending]
    exact acceptsAll_nil
  locals := by
    show ∀ binding ∈ ready.locals, _
    rw [hlocals]
    rintro binding ⟨⟩
  path := hpath

omit hready in
theorem held_reclaimLists : ready.reclaimLists.held = ready.roots := by
  have hheld : ready.reclaimLists.held = ready.roots ++ ready.pending.held :=
    held_eq ready.reclaimLists
  rw [hheld, hpending]
  exact List.append_nil _

theorem operandsReached_of_noDangling (h : ready.reclaimLists.NoDangling) :
    ready.heap.OperandsReached ready.roots := by
  refine (retains_reclaimLists hready).operandsReached fun root hroot list hlist => ?_
  exact h root (held_reclaimLists hpending ▸ hroot) list hlist

end Reclaiming

theorem consistent_reclaimLists (hready : ready.Consistent setting) (hpending : ready.pending = {})
    (hlocals : ready.locals = []) (hoperands : ready.heap.OperandsReached ready.roots) :
    ready.reclaimLists.Consistent setting := by
  have hsound := (retains_reclaimLists hready).allSound hready.wellFormed
    (Consistent.sound_roots hready) hoperands
  refine upholds_reclaimLists hready hpending hlocals ?_ fun cond hcond => ⟨?_, ?_⟩
  · exact fun value hvalue => hsound value (List.mem_append_left _ hvalue)
  · exact hsound _ (List.mem_append_right _ (List.mem_flatMap.mpr ⟨cond, hcond, by simp⟩))
  · exact hsound _ (List.mem_append_right _ (List.mem_flatMap.mpr ⟨cond, hcond, by simp⟩))

/-- Reclamation is the one thing that can make a list dangle, and it does so by missing an operand
of a comparison. -/
theorem Travels.safe_iff_operandsKept (h : Travels setting machine way last)
    (hmachine : machine.Consistent setting) (hunbound : machine.bindings = ([], 0)) :
    Safe machine way ↔ OperandsKept setting way := by
  induction h with
  | rests => exact iff_of_true (Consistent.noDangling hmachine) nofun
  | goes hleg _ ih =>
    rw [Safe, OperandsKept, List.forall_mem_cons, and_iff_right (Consistent.noDangling hmachine)]
    cases hleg.performs hmachine hunbound with
    | continues hnext =>
      rw [and_iff_right (hnext.intact hmachine), and_iff_right (by rintro _ ⟨⟩)]
      exact ih hnext.upholds (hnext.bindings.trans hunbound)
    | commits endOfStep hready =>
      obtain ⟨settled, hcommit, hsettled, hpending, hheap, hroots⟩ :=
        hready.exists_settled endOfStep
      rw [hcommit] at ih ⊢
      have hunbound' : settled.reclaimLists.bindings = ([], 0) := hsettled.bindings.trans hunbound
      have hnext (hoperands : settled.heap.OperandsReached settled.roots) :=
        consistent_reclaimLists hsettled.upholds hpending (congrArg Prod.fst hunbound') hoperands
      rw [and_iff_right (hsettled.intact_reclaimLists hsettled.upholds hmachine)]
      constructor
      · intro hsafe
        have hoperands := operandsReached_of_noDangling hsettled.upholds hpending hsafe.noDangling
        refine ⟨?_, (ih (hnext hoperands) hunbound').mp hsafe⟩
        rintro _ ⟨⟩
        dsimp only
        rwa [← hheap, ← hroots]
      · rintro ⟨hoperands, hkept⟩
        have hoperands := hoperands _ rfl
        dsimp only at hoperands
        rw [← hheap, ← hroots] at hoperands
        exact (ih (hnext hoperands) hunbound').mpr hkept

theorem operandsReached_of_concrete (hready : ready.Consistent setting)
    (hconcrete : setting.symbolic = false) : ready.heap.OperandsReached ready.roots := by
  intro root hroot id lhs op rhs hverdict
  have hsymbolic : setting.symbolic = true :=
    Consistent.sound_roots hready root hroot _ hverdict
  rw [hconcrete] at hsymbolic
  cases hsymbolic

theorem Consistent.commit (h : machine.Consistent setting) (hconcrete : setting.symbolic = false)
    (hunbound : machine.Unbound) (endOfStep : Bool) :
    ((backend setting).commit endOfStep machine).Consistent setting := by
  obtain ⟨settled, hcommit, hsettled, hpending, -⟩ := h.continues.exists_settled endOfStep
  rw [hcommit]
  exact consistent_reclaimLists hsettled.upholds hpending
    ((congrArg Prod.fst hsettled.bindings).trans hunbound)
    (operandsReached_of_concrete hsettled.upholds hconcrete)

theorem Performs.consistent (h : Performs (.strict setting.symbolic) machine leg)
    (hconcrete : setting.symbolic = false) (hunbound : machine.Unbound) :
    leg.next.Consistent setting := by
  cases h with
  | continues hnext => exact hnext.upholds
  | commits endOfStep hready =>
    have hlocals : _ = machine.locals := congrArg Prod.fst hready.bindings
    exact Consistent.commit hready.upholds hconcrete (hlocals.trans hunbound) endOfStep

theorem Performs.bindings (h : Performs std machine leg) :
    leg.next.bindings = machine.bindings := by
  cases h with
  | continues hnext => exact hnext.bindings
  | commits endOfStep hready =>
    obtain ⟨settled, hcommit, hsettled, -⟩ := hready.exists_settled endOfStep
    rw [hcommit]
    exact hsettled.bindings

theorem Travels.operandsKept_of_concrete (h : Travels setting machine way last)
    (hmachine : machine.Consistent setting) (hunbound : machine.bindings = ([], 0))
    (hconcrete : setting.symbolic = false) : OperandsKept setting way := by
  induction h with
  | rests => exact nofun
  | goes hleg _ ih =>
    have hperforms := hleg.performs hmachine hunbound
    refine List.forall_mem_cons.mpr ⟨?_, ih (hperforms.consistent hconcrete
      (congrArg Prod.fst hunbound)) (hperforms.bindings.trans hunbound)⟩
    cases hperforms with
    | continues => rintro _ ⟨⟩
    | commits endOfStep hready =>
      rintro _ ⟨⟩
      exact operandsReached_of_concrete (continues_applyPending hready.upholds endOfStep).upholds
        hconcrete

theorem upholds_new (setting : Setting) (std : Standard setting.symbolic) :
    (Machine.new setting).Upholds std :=
  have hgoverns : std.discipline.Governs ⟨_, wellFormed_beginEpoch wellFormed_default⟩
      (Machine.new setting) :=
    Discipline.governs_new ⟨rfl, nofun⟩
  upholds_of_governs hgoverns

theorem consistent_new (setting : Setting) : (Machine.new setting).Consistent setting :=
  upholds_new setting _

/-- From the beginning on, lists are safe exactly as long as every reclamation keeps the operands of
comparisons, and always in a machine that is not symbolic. -/
theorem safe_new_iff_operandsKept (setting : Setting) (calls : List Call) :
    let way := itinerary setting (.new setting) calls
    Travels setting (.new setting) way (afterCalls setting calls) ∧
      (Safe (.new setting) way ↔ OperandsKept setting way) ∧
      (setting.symbolic = false → Safe (.new setting) way) := by
  intro way
  have htravels := travels_afterCalls setting calls
  have hiff := htravels.safe_iff_operandsKept (consistent_new setting) rfl
  refine ⟨htravels, hiff, fun hconcrete => ?_⟩
  exact hiff.mpr (htravels.operandsKept_of_concrete (consistent_new setting) rfl hconcrete)

/-- The rule `main` stores the comparison of a symbol with a new list. -/
def comparisonStored : Setting where
  symbolic := true
  spec :=
    let comparison : Expr := .binary .eq (.read ⟨1⟩ []) (.list [.int 1, .int 2])
    { functions := #[{ name := "program", result := .rule }, { name := "s", symbolic := true },
        { name := "x" }]
      rules := #[{ name := "main", body := some { action := .update ⟨2⟩ [] comparison } }]
      start := some ⟨0⟩ }

theorem not_safe_comparisonStored :
    ¬ Safe (.new comparisonStored)
      (itinerary comparisonStored (.new comparisonStored) [.init 5, .step 5]) := by
  intro hsafe
  have hnoDangling := (travels_afterCalls comparisonStored [.init 5, .step 5]).noDangling hsafe
  have hheld : .verdict 2 (.symbol 1) .eq (.list ⟨0⟩) ∈
      (afterCalls comparisonStored [.init 5, .step 5]).held := by
    decide +kernel
  have hlive : (afterCalls comparisonStored [.init 5, .step 5]).heap.Live ⟨0⟩ :=
    hnoDangling _ hheld ⟨0⟩ (.rhs (.self _))
  have hfreed : ((afterCalls comparisonStored [.init 5, .step 5]).heap.slot? ⟨0⟩).isSome =
      false := by
    decide +kernel
  rw [Live, hfreed] at hlive
  cases hlive

end Machine

end AbstractStateMachine
