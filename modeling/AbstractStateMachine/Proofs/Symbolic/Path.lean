import AbstractStateMachine.Proofs.Backend.Decisions
import AbstractStateMachine.Proofs.Machine.Discipline
import AbstractStateMachine.Proofs.Symbolic.Exactness

/-!
# The conditions along a path

A condition joins the path when a branch has to be decided that the path leaves open. So no earlier
condition on a symbol refutes a later one, and any two have a solution in common. The exception is
that a symbol is below the least integer: this is never looked at, and it is assumed whatever the
path says. The trace has the conditions of the path in their order, written as they were then.
-/

namespace AbstractStateMachine

open TraceEntry

theorem Comparison.exists_relates (op : Comparison) (k : Int64) :
    ∃ x : Int, Int64.minValue.toInt ≤ x ∧ op.Relates x k.toInt := by
  have hleast := Int64.minValue_le_toInt k
  cases op with
  | eq => exact ⟨k.toInt, hleast, rfl⟩
  | le => exact ⟨k.toInt, hleast, le_refl _⟩
  | ne => exact ⟨k.toInt + 1, by omega, by simp [Relates]⟩
  | gt => exact ⟨k.toInt + 1, by omega, by simp [Relates]⟩

namespace Condition

/-- What the left side is compared with is below the least integer. -/
def BelowLeast (cond : Condition) : Prop := cond.lhs = .int Int64.minValue ∧ cond.op = .gt

/-- Some integer satisfies both conditions, which are on the same symbol. -/
def Compatible (first second : Condition) : Prop :=
  ∃ x : Int, first.Holds (fun _ => x) ∧ second.Holds fun _ => x

section Compatible

variable {first second cond candidate : Condition} {symbol : Nat}

theorem Compatible.symm (h : first.Compatible second) : second.Compatible first := by
  obtain ⟨x, hfirst, hsecond⟩ := h
  exact ⟨x, hsecond, hfirst⟩

theorem Bounds.exists_holds (h : cond.Bounds symbol) :
    ∃ x : Int, Int64.minValue.toInt ≤ x ∧ cond.Holds fun _ => x := by
  obtain ⟨k, hk⟩ := h
  obtain ⟨x, hleast, hx⟩ := cond.op.exists_relates k
  exact ⟨x, hleast, (holds_iff_of_bound? hk _).mpr hx⟩

theorem compatible_of_check {known : List Condition} (hunknown : check known candidate = .unknown)
    (hnormal : candidate.normalize = candidate) (hcond : cond ∈ known)
    (hbounds : cond.Bounds symbol) (hcandidate : candidate.Bounds symbol) :
    cond.Compatible candidate := by
  have hopen : check [cond] candidate ≠ .fails := by
    rw [check_eq_unknown_iff_forall.mp hunknown cond hcond]
    decide
  rw [Ne, check_singleton_eq_fails_iff hbounds (hnormal.symm ▸ hcandidate), Refutes] at hopen
  push Not at hopen
  obtain ⟨assignment, hknown, hholds⟩ := hopen
  obtain ⟨k, hk⟩ := hbounds
  obtain ⟨c, hc⟩ := hcandidate
  refine ⟨assignment symbol, ?_, ?_⟩
  · rw [holds_iff_of_bound? hk] at hknown ⊢
    exact hknown
  · rw [holds_iff_of_bound? hc] at hholds ⊢
    exact hholds

/-- A condition on a symbol has it on the left, or says that the least integer is a bound of it. -/
theorem ComparesSymbol.bounds_or_holds (h : cond.ComparesSymbol symbol)
    (hnormal : cond.normalize = cond) (hbelow : ¬ cond.BelowLeast) :
    cond.Bounds symbol ∨ ∀ x : Int, Int64.minValue.toInt ≤ x → cond.Holds fun _ => x := by
  have hfirst := symbolFirst_of_normalize_eq_self h.comparesIntegers hnormal
  rcases h with hbounds | ⟨constant, hlhs, hid⟩
  · exact .inl hbounds
  · refine .inr fun x hx => ?_
    rcases hfirst with hsymbolic | ⟨hleast, hordering⟩
    · rw [hlhs] at hsymbolic
      cases hsymbolic
    · have hmeaning : cond.lhs.meaning (fun _ => x) = some Int64.minValue.toInt := by
        rw [hleast]
        rfl
      rw [holds_iff_of_meaning hmeaning (Value.meaning_of_symbolId? hid _)]
      cases hop : cond.op with
      | le => exact hx
      | gt => exact absurd ⟨hleast, hop⟩ hbelow
      | eq => simp [hop, Comparison.isOrdering] at hordering
      | ne => simp [hop, Comparison.isOrdering] at hordering

end Compatible

/-- The conditions are in normal form, and any two on the same symbol can hold together. -/
structure Consistent (path : List Condition) : Prop where
  normal : ∀ cond ∈ path, cond.normalize = cond
  compatible : ∀ first ∈ path, ∀ second ∈ path, ∀ symbol, first.Bounds symbol →
    second.Bounds symbol → first.Compatible second

namespace Consistent

variable {path : List Condition}

theorem concat (h : Consistent path) {cond : Condition} (hnormal : cond.normalize = cond)
    (hopen : check path cond = .unknown) : Consistent (path ++ [cond]) where
  normal := List.forall_mem_append.mpr ⟨h.normal, List.forall_mem_singleton.mpr hnormal⟩
  compatible := by
    intro first hfirst second hsecond symbol hbounds hbounds'
    have hnew {other : Condition} (hother : other ∈ path) (hother' : other.Bounds symbol)
        (hcond : cond.Bounds symbol) : other.Compatible cond :=
      compatible_of_check hopen hnormal hother hother' hcond
    rcases List.mem_append.mp hfirst with hfirst | hfirst <;>
      rcases List.mem_append.mp hsecond with hsecond | hsecond
    · exact h.compatible first hfirst second hsecond symbol hbounds hbounds'
    · cases List.mem_singleton.mp hsecond
      exact hnew hfirst hbounds hbounds'
    · cases List.mem_singleton.mp hfirst
      exact (hnew hsecond hbounds' hbounds).symm
    · cases List.mem_singleton.mp hfirst
      cases List.mem_singleton.mp hsecond
      obtain ⟨x, -, hx⟩ := hbounds.exists_holds
      exact ⟨x, hx, hx⟩

theorem compatible_of_comparesSymbol (h : Consistent path) {first second : Condition} {symbol : Nat}
    (hfirst : first ∈ path) (hsecond : second ∈ path) (hcompares : first.ComparesSymbol symbol)
    (hcompares' : second.ComparesSymbol symbol) (hbelow : ¬ first.BelowLeast)
    (hbelow' : ¬ second.BelowLeast) : first.Compatible second := by
  rcases hcompares.bounds_or_holds (h.normal first hfirst) hbelow with hbounds | hall <;>
    rcases hcompares'.bounds_or_holds (h.normal second hsecond) hbelow' with hbounds' | hall'
  · exact h.compatible first hfirst second hsecond symbol hbounds hbounds'
  · obtain ⟨x, hleast, hx⟩ := hbounds.exists_holds
    exact ⟨x, hx, hall' x hleast⟩
  · obtain ⟨x, hleast, hx⟩ := hbounds'.exists_holds
    exact ⟨x, hall x hleast, hx⟩
  · exact ⟨_, hall _ le_rfl, hall' _ le_rfl⟩

end Consistent

def StatesNormal (value : Value) : Prop :=
  ∀ cond, ofVerdict? value = some cond → cond.normalize = cond

theorem statesNormal_symbol (id : Nat) : StatesNormal (.symbol id) := by
  rintro _ ⟨⟩
  rfl

theorem admissible_statesNormal : ListHeap.Admissible StatesNormal where
  of_isScalar {value} hscalar := by
    cases value <;> first | exact hscalar.elim | rintro _ ⟨⟩
  of_list _ := by rintro _ ⟨⟩

theorem normalize_of_ofNegation? {value : Value} {cond : Condition} (hvalue : StatesNormal value)
    (hcond : ofNegation? value = some cond) : cond.normalize = cond := by
  cases value <;> cases hcond
  · rfl
  · exact normalize_negate (hvalue _ rfl)

end Condition

open Condition in
/-- The conditions that come up are in normal form, and the path is consistent. -/
def normality (setting : Setting) : Discipline setting where
  World := Unit
  Later _ _ := True
  Allows _ := StatesNormal
  AllowsCondition _ cond := cond.normalize = cond
  Suits _ heap recorder := Consistent recorder.path ∧ heap.AllValues StatesNormal
  later_refl _ := trivial
  later_trans _ _ := trivial
  allows_later _ h := h
  of_isScalar := admissible_statesNormal.of_isScalar
  of_element h _ := h.2.of_mem_toList _
  of_peek h _ := h.2.peek admissible_statesNormal _
  of_comparison _ _ := normalize_of_ofComparison?
  of_negation := normalize_of_ofNegation?
  of_verdict hvalue := hvalue _
  list h hvalues hbuilds :=
    ⟨(), trivial, ⟨h.1, h.2.builds hvalues hbuilds⟩, admissible_statesNormal.of_list _⟩
  builtin h hargs hresult :=
    have hbuilt := h.2.builtin admissible_statesNormal hargs hresult
    ⟨(), trivial, ⟨h.1, hbuilt.2⟩, hbuilt.1⟩
  fresh h _ := by
    refine ⟨(), trivial, h, statesNormal_symbol _, fun cond hcond => ?_⟩
    rintro _ ⟨⟩
    exact hcond
  define _ _ h _ _ _ := ⟨(), trivial, h, statesNormal_symbol _⟩
  assume _ h hcond hcheck := ⟨h.1.concat hcond hcheck, h.2⟩
  create _ _ _ h _ _ := by
    rw [Recorder.path_create]
    exact h
  update _ _ _ h _ _ := h
  advance h := h
  repeatOthers _ h := by
    rw [Recorder.path_repeatOthers]
    exact h
  finish h := by
    rw [Recorder.path_finish]
    exact h

theorem callsMaintained_normality (setting : Setting) :
    CallsMaintained (normality setting).invariant (Machine.backend setting) Machine.Unbound :=
  (normality setting).callsMaintained fun _ machine h => ⟨h.1, h.2.reclaim machine.roots⟩

/-! ### What is told of a path -/

def TraceEntry.isCondition : TraceEntry → Bool
  | .condition _ _ _ _ => true
  | _ => false

namespace Recorder

variable {recorder : Recorder}

def assumptions (recorder : Recorder) : List Condition × List TraceEntry :=
  (recorder.path, recorder.trace.toList.filter isCondition)

theorem filter_push {trace : Array TraceEntry} (entry : TraceEntry) :
    (trace.push entry).toList.filter isCondition =
      trace.toList.filter isCondition ++ [entry].filter isCondition := by
  rw [Array.toList_push, List.filter_append]

theorem assumptions_assert {entry : Nat → TraceEntry}
    (hentry : ∀ id, (entry id).isCondition = false) :
    (recorder.assert entry).assumptions = recorder.assumptions := by
  refine Prod.ext rfl ?_
  show (recorder.trace.push _).toList.filter isCondition = _
  rw [filter_push, List.filter_singleton, hentry]
  exact List.append_nil _

theorem assumptions_fresh : recorder.fresh.2.assumptions = recorder.assumptions := by
  refine Prod.ext rfl ?_
  show (recorder.trace.push _).toList.filter isCondition = _
  rw [filter_push]
  exact List.append_nil _

theorem assumptions_define (op : DefinitionOp) (lhs rhs : Term) :
    (recorder.define op lhs rhs).2.assumptions = recorder.assumptions :=
  (assumptions_assert fun _ => rfl).trans assumptions_fresh

theorem assumptions_assume (cond : Condition) (lhs rhs : Term) :
    (recorder.assume cond lhs rhs).assumptions =
      (recorder.assumptions.1 ++ [cond],
        recorder.assumptions.2 ++ [.condition (recorder.lastAssertion + 1) lhs cond.op rhs]) :=
  Prod.ext rfl (filter_push _)

theorem assumptions_reportAt (location : TrackedLocation) (time : Timestep) :
    (recorder.reportAt location time).assumptions = recorder.assumptions :=
  assumptions_assert fun _ => rfl

theorem assumptions_create (key : LocationKey) (location : TrackedLocation) :
    (recorder.create key location).assumptions = recorder.assumptions :=
  view_foldl assumptions (fun _ _ => assumptions_reportAt location _) (List.range _)

theorem assumptions_update (key : LocationKey) (location : TrackedLocation) :
    (recorder.update key location).assumptions = recorder.assumptions := by
  show (recorder.reportAt location (.at recorder.timestamp)).assumptions = recorder.assumptions
  exact assumptions_reportAt location _

theorem assumptions_repeatOthers (touched : List LocationKey) :
    (recorder.repeatOthers touched).assumptions = recorder.assumptions := by
  refine view_foldl assumptions (fun recorder entry => ?_) _
  dsimp only
  split
  · rfl
  · exact assumptions_reportAt _ _

theorem assumptions_finish : recorder.finish.assumptions = recorder.assumptions :=
  view_foldl assumptions (fun _ location => assumptions_reportAt location _) recorder.tracked.values

end Recorder

namespace Machine

open Recorder

variable {setting : Setting} {machine : Machine}

theorem lasts_assumptions (machine : Machine) :
    Lasts fun recorder => recorder.assumptions = machine.recorder.assumptions where
  fresh := assumptions_fresh.trans
  define op lhs rhs := (assumptions_define op lhs rhs).trans
  create key location := (assumptions_create key location).trans

theorem assumptions_applyUpdate (update : Update) :
    (machine.applyUpdate setting update).recorder.assumptions = machine.recorder.assumptions := by
  have hflat := recorder_flatten machine update.value update.args
  unfold applyUpdate
  dsimp only
  split
  · exact (assumptions_update _ _).trans (congrArg Recorder.assumptions hflat)
  · exact congrArg Recorder.assumptions hflat

theorem assumptions_foldl_applyUpdate (updates : List Update) :
    (updates.foldl (applyUpdate setting) machine).recorder.assumptions =
      machine.recorder.assumptions := by
  induction updates generalizing machine with
  | nil => rfl
  | cons update rest ih => rw [List.foldl_cons, ih, assumptions_applyUpdate]

theorem assumptions_applyPending (endOfStep : Bool) :
    (machine.applyPending setting endOfStep).recorder.assumptions =
      machine.recorder.assumptions := by
  rw [applyPending_eq]
  dsimp only
  split
  · exact (assumptions_repeatOthers _).trans (assumptions_foldl_applyUpdate _)
  · exact assumptions_foldl_applyUpdate _

theorem assumptions_halt :
    (machine.halt setting).recorder.assumptions = machine.recorder.assumptions := by
  unfold halt
  split
  · exact assumptions_finish
  · rfl

theorem assumptions_commit (endOfStep : Bool) :
    ((backend setting).commit endOfStep machine).recorder.assumptions =
      machine.recorder.assumptions := by
  cases endOfStep with
  | false => exact assumptions_applyPending false
  | true => exact assumptions_applyPending true

theorem assumptions_write (function : FunctionId) (args : List Value) (value : Value)
    (span : Span) (machine : Machine) :
    (Run.write setting function args value span machine).2.recorder.assumptions =
      machine.recorder.assumptions := by
  obtain ⟨_, heq, -⟩ := Run.exists_pending_write setting function args value span machine
  rw [heq]

theorem assumptions_leave (merge : UpdateSet → ListHeap → Bool → UpdateSet × Option Fault)
    (forked : Bool) (machine : Machine) :
    (Run.leave merge forked machine).2.recorder.assumptions = machine.recorder.assumptions := by
  rw [Run.snd_leave]

theorem steady_assumptions (setting : Setting) :
    (backend setting).Steady fun machine => machine.recorder.assumptions where
  setSpan _ _ := rfl
  bindLocal _ _ _ := rfl
  unbindLocal _ := rfl
  enterFrame _ _ _ := rfl
  leaveFrame _ _ := rfl
  readStored function args machine := (lasts_assumptions machine).readStored function args rfl
  operate _ args machine hread := (lasts_assumptions machine).operate hread args rfl
  elements value _ := by cases value <;> rfl
  ruleOf value _ := by cases value <;> rfl
  print _ _ := rfl
  pushed _ current _ := by cases current <;> rfl
  popped current _ := by cases current <;> rfl
  write := assumptions_write
  enter parallel _ := by cases parallel <;> rfl
  leave := assumptions_leave UpdateSet.merge
  leaveRound := assumptions_leave UpdateSet.mergeRound
  scheduled program _ := by cases program <;> rfl
  halt _ := assumptions_halt
  abandon _ := rfl
  commit endOfStep _ := assumptions_commit endOfStep

/-! ### Decisions -/

/-- What is assumed when a branch on the value is decided: the condition it stands for, if the path
leaves it open. -/
def assumes? (machine : Machine) (value : Value) : Option Condition :=
  (Condition.ofVerdict? value).filter fun cond => machine.recorder.check cond = .unknown

/-- The conditions that decisions add to the path, with the machines that they are assumed in. -/
def assumed (decisions : List (Machine × Value)) : List (Machine × Condition) :=
  decisions.filterMap fun (machine, value) => (machine.assumes? value).map (machine, ·)

/-- The entry of a trace that tells of a condition, written as the machine writes its operands. -/
def conditionEntry (setting : Setting) (machine : Machine) (cond : Condition) : TraceEntry :=
  .condition (machine.recorder.lastAssertion + 1) (machine.term setting cond.lhs) cond.op
    (machine.term setting cond.rhs)

/-- The path and the trace after decisions. -/
def told (setting : Setting) (decisions : List (Machine × Value)) :
    List Condition × List TraceEntry :=
  ((assumed decisions).map fun (_, cond) => cond,
    (assumed decisions).map fun (machine, cond) => machine.conditionEntry setting cond)

theorem recorder_decide (value : Value) :
    (Run.decide setting value machine).2.recorder =
      match machine.assumes? value with
      | some cond => machine.recorder.assume cond (machine.term setting cond.lhs)
          (machine.term setting cond.rhs)
      | none => machine.recorder := by
  unfold Run.decide
  split
  · rfl
  · rfl
  · unfold assumes?
    cases Condition.ofVerdict? value with
    | none => rfl
    | some cond =>
      rw [Option.filter_some]
      dsimp only
      rw [Run.get_bind_apply]
      cases machine.recorder.check cond <;> rfl

theorem assumptions_decide {decisions : List (Machine × Value)} (value : Value)
    (htold : machine.recorder.assumptions = told setting decisions) :
    (Run.decide setting value machine).2.recorder.assumptions =
      told setting (decisions ++ [(machine, value)]) := by
  have happend : assumed (decisions ++ [(machine, value)]) =
      assumed decisions ++ ((machine.assumes? value).map (machine, ·)).toList := by
    cases hassumes : machine.assumes? value <;> simp [assumed, hassumes]
  rw [recorder_decide]
  unfold told
  rw [happend]
  cases machine.assumes? value with
  | none => simpa [told] using htold
  | some cond =>
    dsimp only
    rw [assumptions_assume, htold]
    simp [told, conditionEntry]

/-- At every moment the path and the trace have what was assumed in the decisions until then. -/
theorem decisionInvariant_told (setting : Setting) :
    DecisionInvariant (backend setting) (normality setting).invariant Unbound
      (fun machine => machine.recorder.assumptions)
      fun decisions seen => seen = told setting decisions where
  maintained := callsMaintained_normality setting
  steady := steady_assumptions setting
  decide {_ _ value _} _ _ htold := assumptions_decide value htold

/-- **Paths are consistent and the trace tells of them.** Keeping a history of decisions changes
nothing. At every moment of a run, whether its calls succeed or fail: every condition of the path is
in normal form; any two that compare the same symbol with an integer have a solution in common,
unless one of them says that it is below the least integer; and the conditions of the path, in their
order, are those that were assumed when the path left a decision open, as are those of the trace,
which are written as they were written then. -/
theorem path_consistent_afterCalls (setting : Setting) (calls : List Call) :
    let history := (backend setting).withHistory.afterCalls { state := .new setting } calls
    history.state = afterCalls setting calls ∧
    ∀ moment, history.Moment moment →
      let recorder := moment.state.recorder
      (∀ cond ∈ recorder.path, cond.normalize = cond) ∧
      (∀ first ∈ recorder.path, ∀ second ∈ recorder.path, ∀ symbol, first.ComparesSymbol symbol →
        second.ComparesSymbol symbol → ¬ first.BelowLeast → ¬ second.BelowLeast →
          first.Compatible second) ∧
      recorder.path = (assumed moment.decisions).map (fun (_, cond) => cond) ∧
      recorder.trace.toList.filter isCondition =
        (assumed moment.decisions).map fun (machine, cond) =>
          machine.conditionEntry setting cond := by
  intro history
  have hinvariant := decisionInvariant_told setting
  have hnew : (normality setting).invariant.Holds () (.new setting) :=
    Discipline.governs_new ⟨⟨nofun, nofun⟩, ListHeap.allValues_default⟩
  refine ⟨?_, fun moment hmoment => ?_⟩
  · rw [afterCalls_eq]
    exact (hinvariant.afterCalls hnew rfl rfl calls).1
  · obtain ⟨⟨_, hgoverns⟩, htold⟩ := hinvariant.of_moment hnew rfl rfl calls hmoment
    have hconsistent : Condition.Consistent moment.state.recorder.path := hgoverns.suits.1
    refine ⟨hconsistent.normal, ?_, congrArg Prod.fst htold, congrArg Prod.snd htold⟩
    intro first hfirst second hsecond symbol
    exact hconsistent.compatible_of_comparesSymbol hfirst hsecond

def unknownNumber : Setting where
  spec :=
    { functions := #[{ name := "program", result := .rule }, { name := "s", symbolic := true }] }
  symbolic := true

def aboveFiveAnd (op : BinaryOp) (bound : Int64) : Stmt where
  action := .ifThen (.binary .gt (.read ⟨1⟩ []) (.int 5))
    { action := .ifThen (.binary op (.read ⟨1⟩ []) (.int bound)) { action := .skip } none } none

/-- After `s > 5` has been assumed, `s < 8` is too, and the two are told as they were assumed. -/
theorem path_consistent_afterCalls_between :
    let history := (backend unknownNumber).withHistory.afterCalls { state := .new unknownNumber }
      [.exec 9 (aboveFiveAnd .lt 8)]
    let recorder := history.state.recorder
    let first : Condition := ⟨.symbol 1, .gt, .int 5⟩
    let second : Condition := ⟨.symbol 1, .le, .int 7⟩
    history.Moment history ∧ recorder.path = [first, second] ∧
      first.Compatible second ∧
      recorder.trace.toList.filter isCondition =
        (assumed history.decisions).map (fun (machine, cond) =>
          machine.conditionEntry unknownNumber cond) ∧
      recorder.trace.toList.filter isCondition =
        [.condition 2 (.symbol 1) .gt (.int 5), .condition 3 (.symbol 1) .le (.int 7)] := by
  intro history recorder first second
  have hlast : history.Moment history := .inl rfl
  have hpath : recorder.path = [first, second] := by decide +kernel
  obtain ⟨-, hcompatible, -, htold⟩ :=
    (path_consistent_afterCalls unknownNumber [.exec 9 (aboveFiveAnd .lt 8)]).2 history hlast
  refine ⟨hlast, hpath, ?_, htold, by decide +kernel⟩
  refine hcompatible first ?_ second ?_ 1 (.inl ⟨5, rfl⟩) (.inl ⟨7, rfl⟩) ?_ ?_
  · rw [hpath]
    exact List.mem_cons_self
  · rw [hpath]
    exact List.mem_cons_of_mem _ List.mem_cons_self
  · rintro ⟨⟨⟩, -⟩
  · rintro ⟨⟨⟩, -⟩

/-- After `s > 5` has been assumed, so is that `s` is below the least integer. -/
theorem not_compatible_below_least :
    let first : Condition := ⟨.symbol 1, .gt, .int 5⟩
    let second : Condition := ⟨.int Int64.minValue, .gt, .symbol 1⟩
    (afterCalls unknownNumber [.exec 9 (aboveFiveAnd .lt Int64.minValue)]).recorder.path =
        [first, second] ∧
      first.ComparesSymbol 1 ∧ second.ComparesSymbol 1 ∧ ¬ first.Compatible second := by
  intro first second
  refine ⟨by decide +kernel, .inl ⟨5, rfl⟩, .inr ⟨_, rfl, rfl⟩, ?_⟩
  rintro ⟨x, hfirst, hsecond⟩
  have habove : (5 : Int64).toInt < x := hfirst _ _ rfl rfl
  have hbelow : x < Int64.minValue.toInt := hsecond _ _ rfl rfl
  have hleast := Int64.minValue_le_toInt 5
  omega

end Machine

end AbstractStateMachine
