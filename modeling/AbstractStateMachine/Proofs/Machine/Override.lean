import AbstractStateMachine.Proofs.Machine.Filing
import AbstractStateMachine.Proofs.Machine.Readiness
import AbstractStateMachine.Proofs.Machine.SameStore

/-!
# Steps as overrides

The updates that a rule has left at the end of a step are for different locations, and the step
overrides the state by them: where there is an update its value is found afterwards, and everywhere
else what was found before. Locations are told apart by the data that their arguments represent, so
neither shared keys nor the reclamation of lists at the end of the step show.
-/

namespace AbstractStateMachine

open ListHeap Run Datum

/-! ### Data without floats -/

namespace Datum

variable {datum other : Datum} {data others : List Datum}

theorem eq_of_allPairs
    (hdata : ∀ datum ∈ data, ∀ other, datum.equal other = true → other = datum)
    (h : allPairs equal data others = true) : others = data := by
  rw [allPairs_iff_forall₂] at h
  induction h with
  | nil => rfl
  | cons hfirst _ ih =>
    obtain ⟨hdatum, hrest⟩ := List.forall_mem_cons.mp hdata
    rw [hdatum _ hfirst, ih hrest]

theorem FloatFree.eq_of_equal (h : datum.FloatFree) (hequal : datum.equal other = true) :
    other = datum := by
  induction h generalizing other with
  | @scalar datum hfloat hlist =>
    cases datum with
    | float value => exact absurd rfl (hfloat value)
    | list elements => exact absurd rfl (hlist elements)
    | undefined =>
      cases other with
      | undefined => rfl
      | _ => cases hequal
    | int | bool | str | rule =>
      cases other <;> simp only [equal, beq_iff_eq, Bool.false_eq_true] at hequal
      rw [hequal]
  | @list elements _ ih =>
    cases other with
    | list others =>
      rw [equal, equalAll_eq] at hequal
      rw [eq_of_allPairs (fun element helement _ => ih element helement) hequal]
    | _ => cases hequal

end Datum

/-! ### Updates and the locations they are for -/

namespace Machine

variable {setting : Setting} {machine ended ready : Machine} {function : FunctionId}
  {heap : ListHeap} {args : List Value} {data : List Datum} {datum : Datum} {update other : Update}

/-- Arguments that represent data without floats, in a heap that has the lists of the machine. -/
structure Probes (machine : Machine) (heap : ListHeap) (args : List Value) (data : List Datum) :
    Prop where
  wellFormed : heap.WellFormed
  grows : machine.heap.Extends heap
  represents : List.Forall₂ heap.Represents args data
  floatFree : ∀ datum ∈ data, datum.FloatFree

/-- The values are sound, the pending updates in order, and there is a table for each function. -/
structure Settled (setting : Setting) (ended : Machine) : Prop where
  consistent : ended.Consistent setting
  orderly : ended.pending.Orderly ended.heap setting.digest
  size : ended.state.tables.size = setting.spec.functions.size

theorem Probes.equal_self (hprobes : machine.Probes heap args data) :
    ∀ datum ∈ data, datum.equal datum = true :=
  fun datum hdatum => (hprobes.floatFree datum hdatum).equal_self

section Updates

variable (hconcrete : setting.symbolic = false) (h : ended.Settled setting)
  (hprobes : ended.Probes heap args data)
include h

theorem Settled.indexed : ended.pending.bottom.Indexed :=
  (h.orderly _ ended.pending.bottom_mem_layers).toIndexed

include hconcrete

theorem Settled.exists_represents (hupdate : update ∈ ended.pending.updates) :
    ∃ images datum, List.Forall₂ ended.heap.Represents update.args images ∧
      ended.heap.Represents update.value datum :=
  Machine.exists_represents hconcrete h.consistent fun value hvalue =>
    h.consistent.pending value (UpdateSet.mem_held_of_mem_updates hupdate hvalue)

include hprobes

omit hconcrete in
theorem Settled.sameArgs_eq {images : List Datum}
    (himages : List.Forall₂ ended.heap.Represents update.args images) :
    heap.sameArgs update.args args = allPairs equal data images :=
  sameArgs_eq_of_self hprobes.wellFormed
    (represents_extends h.consistent.wellFormed hprobes.grows himages) hprobes.represents
    hprobes.equal_self

theorem Settled.get?_of_isFor (hupdate : update ∈ ended.pending.updates)
    (hfor : update.IsFor heap function args) :
    ended.pending.bottom.get? (function, argKey setting.digest data) = some update := by
  obtain ⟨images, -, himages, -⟩ := h.exists_represents hconcrete hupdate
  have hsame : allPairs equal data images = true := by
    rw [← h.sameArgs_eq hprobes himages]
    exact hfor.sameArgs
  have heq : images = data :=
    eq_of_allPairs (fun datum hdatum _ => (hprobes.floatFree datum hdatum).eq_of_equal) hsame
  have hkey : update.key = argKey setting.digest data := by
    rw [h.orderly.key_eq hupdate, ← heq]
    exact argKey_eq_of_represents h.consistent.wellFormed himages setting.digest
  rw [← hkey, ← hfor.function_eq]
  exact h.indexed.get?_location hupdate

theorem Settled.eq_of_isFor (hupdate : update ∈ ended.pending.updates)
    (hother : other ∈ ended.pending.updates) (hfor : update.IsFor heap function args)
    (hfor' : other.IsFor heap function args) : update = other := by
  have hfound := h.get?_of_isFor hconcrete hprobes hupdate hfor
  rw [h.get?_of_isFor hconcrete hprobes hother hfor'] at hfound
  exact (Option.some.inj hfound).symm

theorem Settled.finds_of_isFor (hlt : function.index < setting.spec.functions.size)
    (hupdate : update ∈ ended.pending.updates) (hfor : update.IsFor heap function args)
    (endOfStep : Bool) :
    ∃ datum, ended.heap.Represents update.value datum ∧
      (ended.applyPending setting endOfStep).Finds setting function data datum := by
  obtain ⟨images, datum, himages, hdatum⟩ := h.exists_represents hconcrete hupdate
  obtain ⟨old, hold⟩ := exists_finds hconcrete h.consistent hprobes.equal_self function
  have hfound := h.get?_of_isFor hconcrete hprobes hupdate hfor
  have hsame : allPairs equal data images = true := by
    rw [← h.sameArgs_eq hprobes himages]
    exact hfor.sameArgs
  have hfinds := hold.applyPending_of_some hconcrete h.consistent h.indexed hprobes.equal_self
    endOfStep hfound himages hdatum
  rw [if_pos ⟨h.size.symm ▸ hlt, hsame⟩] at hfinds
  exact ⟨datum, hdatum, hfinds⟩

theorem Settled.finds_of_forall_not_isFor (hold : ended.Finds setting function data datum)
    (hnone : ∀ update ∈ ended.pending.updates, ¬ update.IsFor heap function args)
    (endOfStep : Bool) :
    (ended.applyPending setting endOfStep).Finds setting function data datum := by
  cases hfound : ended.pending.bottom.get? (function, argKey setting.digest data) with
  | none =>
    exact hold.applyPending_of_none hconcrete h.consistent h.indexed hprobes.equal_self
      endOfStep hfound
  | some update =>
    have hupdate := OrderedMap.mem_values_of_get? hfound
    have hlocation := h.indexed.location _ _ hfound
    obtain ⟨images, value, himages, hvalue⟩ := h.exists_represents hconcrete hupdate
    have hmiss : ¬ (function.index < ended.state.tables.size ∧
        allPairs equal data images = true) := by
      rintro ⟨-, hsame⟩
      refine hnone update hupdate ⟨(congrArg Prod.fst hlocation).symm, ?_⟩
      rw [h.sameArgs_eq hprobes himages]
      exact hsame
    have hfinds := hold.applyPending_of_some hconcrete h.consistent h.indexed
      hprobes.equal_self endOfStep hfound himages hvalue
    rw [if_neg hmiss] at hfinds
    exact hfinds

end Updates

/-! ### Reclamation -/

section Reclamation

variable (hconcrete : setting.symbolic = false) (hready : ready.Consistent setting)
include hconcrete hready

theorem exists_represents_of_mem_state {value : Value} (hvalue : value ∈ ready.state.values) :
    ∃ datum, ready.heap.Represents value datum ∧
      ready.reclaimLists.heap.Represents value datum := by
  have hstate := hready.state
  rw [hconcrete] at hstate
  obtain ⟨datum, hdatum⟩ := exists_represents_of_sound hready.wellFormed (hstate value hvalue)
  exact ⟨datum, hdatum, hdatum.retained hready.wellFormed (retains_reclaimLists hready)
    (List.mem_append_left _ hvalue)⟩

theorem exists_represents_of_subset_state {values : List Value}
    (hvalues : ∀ value ∈ values, value ∈ ready.state.values) :
    ∃ data, List.Forall₂ ready.heap.Represents values data ∧
      List.Forall₂ ready.reclaimLists.heap.Represents values data := by
  induction values with
  | nil => exact ⟨[], .nil, .nil⟩
  | cons value rest ih =>
    obtain ⟨hvalue, hrest⟩ := List.forall_mem_cons.mp hvalues
    obtain ⟨datum, hdatum, hdatum'⟩ := exists_represents_of_mem_state hconcrete hready hvalue
    obtain ⟨data, hdata, hdata'⟩ := ih hrest
    exact ⟨datum :: data, .cons hdatum hdata, .cons hdatum' hdata'⟩

theorem Finds.reclaimLists (hself : ∀ datum ∈ data, datum.equal datum = true)
    (h : ready.Finds setting function data datum) :
    ready.reclaimLists.Finds setting function data datum := by
  intro heap args hheap hgrows hargs
  have hwell : ready.reclaimLists.heap.WellFormed :=
    wellFormed_beginEpoch (wellFormed_reclaim hready.wellFormed ready.roots)
  obtain ⟨heap', args', hheap', hgrows', hargs'⟩ := exists_represents_data hready.wellFormed data
  have hfound := h heap' args' hheap' hgrows' hargs'
  have hsame : ready.state.get? heap' function (argKey setting.digest data) args' =
      ready.state.get? heap function (argKey setting.digest data) args := by
    refine Interpretation.get?_eq_of_represents hheap' hheap hargs' hargs hself ?_
    intro location hlocation
    obtain ⟨images, himages, himages'⟩ := exists_represents_of_subset_state hconcrete hready
      fun _ hvalue => Interpretation.mem_values_of_mem_bucket hlocation (.inl hvalue)
    exact ⟨images, represents_extends hready.wellFormed hgrows' himages,
      represents_extends hwell hgrows himages'⟩
  rw [get_eq hheap' hargs', hsame] at hfound
  rw [get_eq hheap hargs]
  show heap.Represents ((ready.state.get? heap function _ args).getD .undefined) datum
  cases hget : ready.state.get? heap function (argKey setting.digest data) args with
  | none =>
    rw [hget] at hfound
    rw [← hfound.unique (.scalar trivial)]
    exact .scalar trivial
  | some value =>
    rw [hget] at hfound
    obtain ⟨found, hvalue, hvalue'⟩ := exists_represents_of_mem_state hconcrete hready
      (Interpretation.mem_values_of_get? hget)
    rw [← hfound.unique (hvalue.extends hready.wellFormed hgrows')]
    exact hvalue'.extends hwell hgrows

end Reclamation

/-! ### Steps -/

/-- The machine after a step, given the one that it started from and the one when the rule had been
executed: the pending updates override the state, and the step is counted and summarized. -/
structure Overrides (setting : Setting) (machine ended after : Machine) : Prop where
  grows : machine.heap.Extends ended.heap
  unique : ∀ function heap args data, ended.Probes heap args data →
    ∀ update ∈ ended.pending.updates, ∀ other ∈ ended.pending.updates,
      update.IsFor heap function args → other.IsFor heap function args → update = other
  written : ∀ function heap args data, ended.Probes heap args data →
    function.index < setting.spec.functions.size →
    ∀ update ∈ ended.pending.updates, update.IsFor heap function args →
      ∃ datum, ended.heap.Represents update.value datum ∧ after.Finds setting function data datum
  kept : ∀ function heap args data, ended.Probes heap args data →
    (∀ update ∈ ended.pending.updates, ¬ update.IsFor heap function args) →
      ∃ datum, machine.Finds setting function data datum ∧ after.Finds setting function data datum
  steps : after.steps = machine.steps + 1
  pending : after.pending = {}
  dumps : after.dumps =
    if setting.dumpUpdates then
      machine.dumps.push
        (if ended.pending.updates = [] then "\x7b \x7d"
        else "\x7b " ++ ", ".intercalate (ended.pending.updates.map (ended.updateText setting)) ++
          " \x7d")
    else machine.dumps

theorem surroundings_applyPending (hconcrete : setting.symbolic = false) (ended : Machine) :
    (ended.applyPending setting true).surroundings =
      { ended.surroundings with
        dumps := if setting.dumpUpdates then
            ended.dumps.push (ended.updatesText setting ended.pending.updates)
          else ended.dumps } := by
  rw [applyPending_of_concrete hconcrete, surroundings_foldl_applyUpdate, summarized, Bool.and_true]
  rfl

section Step

variable {fuel : Nat} {rule : RuleId} {middle : Machine}
  (hread : read setting fuel Specification.program [] { machine with span := {} } =
    (.ok (.rule rule), middle))
  (hcall : callRule setting (exec setting fuel) rule [] middle = (.ok (), ended))
include hread hcall

theorem Upholds.continues_rule {std : Standard setting.symbolic} (h : machine.Upholds std) :
    Continues std machine ended := by
  have hspan : Continues std machine { machine with span := {} } :=
    SameHoldings.continues ⟨rfl, rfl, rfl, rfl⟩ h rfl
  have hmiddle := keeps_read fuel Specification.program _ hspan.upholds Standard.acceptsAll_nil
  rw [hread] at hmiddle
  have hended := keeps_callRule fuel rule middle hmiddle.upholds
    Standard.acceptsAll_nil
  rw [hcall] at hended
  exact (hspan.trans hmiddle.toContinues).trans hended.toContinues

theorem frames_rule : machine.Frames setting ended := by
  have hspan : machine.Frames setting { machine with span := {} } :=
    frames_of_state rfl rfl (Nat.le_refl _)
  have hmiddle : Observes setting _ _ :=
    (onlyObserves_read fuel Specification.program [] { machine with span := {} }).toObserves
  have hended : LayersKept setting _ _ :=
    keepsLayers_callRule (keepsLayers_exec fuel) rule [] middle
  rw [hread] at hmiddle
  rw [hcall] at hended
  exact (hspan.trans hmiddle.toFrames).trans hended.frames

theorem Filed.afterRule (h : machine.Filed setting) : ended.Filed setting := by
  have hspan : Filed setting { machine with span := {} } :=
    h.of_sameHoldings ⟨rfl, rfl, rfl, rfl⟩ rfl
  have E := evolution_advances setting
  have hmiddle := E.leads_run hspan fun w => (E.maintained _).read fuel Specification.program
  rw [← read_eq, hread] at hmiddle
  have hended := E.leads_run hmiddle.filed fun w => (E.maintained _).callRule fuel rule
  rw [← exec_eq, ← callRule_eq, hcall] at hended
  exact hended.filed

end Step

/-- Applying the pending updates at the end of a step overrides the state by them. -/
theorem Settled.overrides (hconcrete : setting.symbolic = false)
    (hmachine : machine.Consistent setting) (hframes : machine.Frames setting ended)
    (hgrows : machine.heap.Extends ended.heap) (h : ended.Settled setting) :
    let applied := ended.applyPending setting true
    machine.Overrides setting ended (reclaimLists { applied with steps := applied.steps + 1 }) := by
  intro applied
  have happlied := continues_applyPending h.consistent true
  have hcounted : Continues (.strict setting.symbolic) applied
      { applied with steps := applied.steps + 1 } :=
    SameHoldings.continues ⟨rfl, rfl, rfl, rfl⟩ happlied.upholds rfl
  have hreclaimed : ∀ {function data datum}, (∀ datum ∈ data, datum.equal datum = true) →
      applied.Finds setting function data datum →
      (reclaimLists { applied with steps := applied.steps + 1 }).Finds setting function data
        datum := by
    intro function data datum hself hfinds
    have hsame : Finds setting { applied with steps := applied.steps + 1 } function data datum :=
      hfinds.grow (.refl _) rfl
    exact hsame.reclaimLists hconcrete hcounted.upholds hself
  have hsurroundings := surroundings_applyPending hconcrete ended
  refine ⟨hgrows, ?_, ?_, ?_, ?_, pending_applyPending true, ?_⟩
  · intro function heap args data hprobes update hupdate other hother hfor hfor'
    exact h.eq_of_isFor hconcrete hprobes hupdate hother hfor hfor'
  · intro function heap args data hprobes hlt update hupdate hfor
    obtain ⟨datum, hdatum, hfinds⟩ := h.finds_of_isFor hconcrete hprobes hlt hupdate hfor true
    exact ⟨datum, hdatum, hreclaimed hprobes.equal_self hfinds⟩
  · intro function heap args data hprobes hnone
    obtain ⟨datum, hold⟩ := exists_finds hconcrete hmachine hprobes.equal_self function
    have hended := hold.grow hgrows (hframes.state_of_concrete hconcrete)
    have hfinds := h.finds_of_forall_not_isFor hconcrete hprobes hended hnone true
    exact ⟨datum, hold, hreclaimed hprobes.equal_self hfinds⟩
  · have hsteps : applied.steps = ended.steps := congrArg Surroundings.steps hsurroundings
    have hended : ended.steps = machine.steps := congrArg Surroundings.steps hframes.surroundings
    show applied.steps + 1 = machine.steps + 1
    rw [hsteps, hended]
  · have hended : ended.dumps = machine.dumps := congrArg Surroundings.dumps hframes.surroundings
    show applied.dumps = _
    rw [show applied.dumps = _ from congrArg Surroundings.dumps hsurroundings, hended]
    simp only [updatesText, List.isEmpty_iff]

/-- **A step overrides the state by its updates.** In concrete mode, whatever came before, a step
that executes a rule leaves at each location the value of the update for it among those that the
rule has left, of which there is at most one, or what was there if there is none. It counts itself,
leaves nothing pending and, if asked to, adds a line with the updates in their order. -/
theorem overrides_of_step (hconcrete : setting.symbolic = false) (calls : List Call) (fuel : Nat)
    (after : Machine) (hstep : step setting fuel (afterCalls setting calls) = (.ok true, after)) :
    let machine := afterCalls setting calls
    ∃ rule middle ended,
      read setting fuel Specification.program [] { machine with span := {} } =
        (.ok (.rule rule), middle) ∧
      callRule setting (exec setting fuel) rule [] middle = (.ok (), ended) ∧
      machine.Overrides setting ended after := by
  intro machine
  have hready : machine.Ready setting := ready_afterCalls hconcrete calls
  have hfiled : machine.Filed setting := filed_afterCalls setting calls
  have hsteps := stepsTo_step setting fuel machine
  rw [hstep] at hsteps
  cases hsteps with
  | @done rule middle ended _ hread hcall =>
    have hcall := orAbandon_eq_ok hcall
    have hcontinues := hready.consistent.continues_rule hread hcall
    have hended := hfiled.afterRule hread hcall
    have hsettled : ended.Settled setting := ⟨hcontinues.upholds, hended.pending, hended.size⟩
    exact ⟨rule, middle, ended, hread, hcall, hsettled.overrides hconcrete hready.consistent
      (frames_rule hread hcall) hcontinues.grows⟩

/-- In a step `main` gives the list `[1, 2]`, appended to and built at once, a new label in a
sequential block, and labels another list. -/
def relabels : Setting where
  spec :=
    let first : Stmt := { action := .update ⟨1⟩ [.list [.int 1, .int 2]] (.str "draft") }
    let second : Stmt :=
      { action := .update ⟨1⟩ [.builtin .app [.list [.int 1], .int 2]] (.str "new") }
    let other : Stmt := { action := .update ⟨1⟩ [.list []] (.list [.int 3]) }
    { functions :=
        #[{ name := "program", result := .rule },
          { name := "label"
            initializers := [([.list [.int 1, .int 2]], .str "old"), ([.int 7], .bool true)] }]
      rules :=
        #[{ name := "main"
            body := some { action := .par [other, { action := .seq [first, second] }] } }]
      start := some ⟨0⟩ }
  dumpUpdates := true

/-- The label that the first update drafts is not seen. -/
theorem overrides_of_step_relabels :
    relabels.symbolic = false ∧ ∃ after,
      step relabels 9 (afterCalls relabels [.init 9]) = (.ok true, after) ∧
      after.dumps = #["\x7b label([]) = [3], label([1, 2]) = new \x7d"] ∧
      ∃ rule middle ended,
        read relabels 9 Specification.program [] { afterCalls relabels [.init 9] with span := {} } =
          (.ok (.rule rule), middle) ∧
        callRule relabels (exec relabels 9) rule [] middle = (.ok (), ended) ∧
        (afterCalls relabels [.init 9]).Overrides relabels ended after := by
  have hok : (step relabels 9 (afterCalls relabels [.init 9])).1 = .ok true := by
    decide +kernel
  have hdumps : (step relabels 9 (afterCalls relabels [.init 9])).2.dumps =
      #["\x7b label([]) = [3], label([1, 2]) = new \x7d"] := by
    decide +kernel
  rcases hstep : step relabels 9 (afterCalls relabels [.init 9]) with ⟨result, after⟩
  rw [hstep] at hok hdumps
  cases hok
  exact ⟨rfl, after, rfl, hdumps, overrides_of_step rfl [.init 9] 9 after hstep⟩

end Machine

end AbstractStateMachine
