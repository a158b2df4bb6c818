import AbstractStateMachine.Proofs.Symbolic.Path

/-!
# A branch and its opposite

Once a branch on a comparison of a symbol with an integer has been taken, the path implies the
comparison from then on, so that its negation is refused whenever it comes up. Nothing like this is
known of other conditions: they are never looked at, and a run can take a branch on one of them and
later a branch on its negation.
-/

namespace AbstractStateMachine

/-- The comparison that holds exactly if the given one does not. -/
def BinaryOp.complement : BinaryOp → BinaryOp
  | .eq => .ne
  | .ne => .eq
  | .lt => .ge
  | .ge => .lt
  | .gt => .le
  | .le => .gt
  | op => op

theorem Comparison.relates_negate_iff (op : Comparison) {x y : Int} :
    op.negate.Relates x y ↔ ¬ op.Relates x y := by
  cases op <;> simp [negate, Relates]

namespace Condition

def negation (cond : Condition) : Condition := { cond with op := cond.op.negate }

variable {cond : Condition} {symbol : Nat} {path : List Condition} {lhs rhs : Value}
  {op : Comparison}

theorem Bounds.negation (h : cond.Bounds symbol) : cond.negation.Bounds symbol := h

theorem Bounds.holds_negation_iff (h : cond.Bounds symbol) (assignment : Assignment) :
    cond.negation.Holds assignment ↔ ¬ cond.Holds assignment := by
  obtain ⟨constant, hconstant⟩ := h
  have hnegation : cond.negation.bound? = some (symbol, constant) := hconstant
  rw [holds_iff_of_bound? hconstant, holds_iff_of_bound? hnegation]
  exact cond.op.relates_negate_iff

theorem normalize_negation (cond : Condition) :
    cond.negation.normalize = cond.normalize.negation := by
  obtain ⟨lhs, op, rhs⟩ := cond
  unfold normalize negation
  dsimp only
  split
  · rfl
  · cases op <;> cases lhs.int?.bind Integer.pred? <;> rfl

theorem less_negation (lhs rhs : Value) : (less lhs rhs).negation = greaterEq lhs rhs := by
  unfold less greaterEq
  cases rhs.int?.bind Integer.pred? <;> rfl

theorem greaterEq_negation (lhs rhs : Value) : (greaterEq lhs rhs).negation = less lhs rhs := by
  unfold less greaterEq
  cases rhs.int?.bind Integer.pred? <;> rfl

theorem ofComparison?_complement {op : BinaryOp} (h : ofComparison? op lhs rhs = some cond) :
    ofComparison? op.complement lhs rhs = some cond.negation := by
  cases op <;> cases h <;> simp only [BinaryOp.complement, ofComparison?, ← normalize_negation]
  case lt => rw [less_negation]
  case ge => rw [greaterEq_negation]
  all_goals rfl

theorem ofNegation?_of_bounds {value : Value} (hcond : ofVerdict? value = some cond)
    (hbounds : cond.Bounds symbol) : ofNegation? value = some cond.negation := by
  cases value with
  | symbol id =>
    cases hcond
    obtain ⟨_, ⟨⟩⟩ := hbounds
  | verdict id lhs op rhs =>
    cases hcond
    rfl
  | _ => cases hcond

theorem exists_ofNegation?_of_not_bounds {value : Value} (hcond : ofVerdict? value = some cond)
    (hbounds : ∀ symbol, ¬ cond.Bounds symbol) :
    ∃ negated, ofNegation? value = some negated ∧ ∀ symbol, ¬ negated.Bounds symbol := by
  cases value with
  | symbol id =>
    refine ⟨_, rfl, fun symbol hbounded => ?_⟩
    obtain ⟨_, ⟨⟩⟩ := hbounded
  | verdict id lhs op rhs =>
    cases hcond
    exact ⟨_, rfl, hbounds⟩
  | _ => cases hcond

theorem ComparesIntegers.symm {op' : Comparison} (h : ComparesIntegers ⟨lhs, op, rhs⟩) :
    ComparesIntegers ⟨rhs, op', lhs⟩ :=
  ⟨h.rhs, h.lhs, h.symbolic.symm⟩

theorem ComparesIntegers.of_moveBound {op' : Comparison} {bound : Int64}
    (h : ComparesIntegers ⟨lhs, op, .int bound⟩)
    (hbound : rhs.int?.bind Integer.pred? = some bound) : ComparesIntegers ⟨lhs, op', rhs⟩ := by
  obtain ⟨constant, rfl, -⟩ := exists_of_int?_bind_pred? hbound
  exact ⟨h.lhs, trivial, h.symbolic⟩

theorem ComparesIntegers.of_normalize (h : (Condition.normalize ⟨lhs, op, rhs⟩).ComparesIntegers)
    (op' : Comparison) : ComparesIntegers ⟨lhs, op', rhs⟩ := by
  have hswap (h : ComparesIntegers ⟨rhs, op, lhs⟩) : ComparesIntegers ⟨lhs, op', rhs⟩ := h.symm
  unfold Condition.normalize at h
  dsimp only at h
  split at h
  · exact ⟨h.lhs, h.rhs, h.symbolic⟩
  · split at h
    · exact h.symm
    · exact h.symm
    · next hbound => exact hswap (h.of_moveBound hbound)
    · next hbound => exact hswap (h.of_moveBound hbound)
    · exact ⟨h.lhs, h.rhs, h.symbolic⟩

theorem ComparesIntegers.of_ofComparison? {op : BinaryOp}
    (h : Condition.ofComparison? op lhs rhs = some cond) (hcond : cond.ComparesIntegers) :
    ComparesIntegers ⟨lhs, cond.op, rhs⟩ := by
  cases op <;> cases h
  case eq | ne | gt | le => exact hcond.of_normalize _
  case lt =>
    unfold less at hcond
    split at hcond
    · next hbound => exact (hcond.of_normalize .le).of_moveBound hbound
    · exact (hcond.of_normalize .le).symm
  case ge =>
    unfold greaterEq at hcond
    split at hcond
    · next hbound => exact (hcond.of_normalize .le).of_moveBound hbound
    · exact (hcond.of_normalize .le).symm

/-! ### What the path says of a negation -/

/-- The verdict is that of an upper bound which is above the one of the candidate. -/
def SettledLoosely (known : List Condition) (candidate : Condition) : Prop :=
  ∃ settler, Settles known candidate settler ∧ LooserBound settler candidate

theorem implies_of_check (hcond : cond.normalize.Bounds symbol)
    (hstrict : ¬ SettledLoosely path cond) (hholds : check path cond = .holds) :
    ∃ known ∈ path, known.Bounds symbol ∧ known.Implies cond := by
  obtain ⟨settler, hsettles⟩ := exists_settles (hholds.trans_ne (by decide))
  refine ⟨settler, hsettles.mem, bounds_of_check_singleton hcond hsettles.settled, ?_⟩
  rw [hsettles.check_eq] at hholds
  exact fun assignment => holds_of_check_singleton hholds fun hlooser =>
    hstrict ⟨settler, hsettles, hlooser⟩

theorem Consistent.check_negation (h : Consistent path) (hnormal : cond.normalize = cond)
    (hcond : cond.Bounds symbol) (hstrict : ¬ SettledLoosely path cond.negation)
    {known : Condition} (hknown : known ∈ path) (hbounds : known.Bounds symbol)
    (himplies : known.Implies cond) : check path cond.negation = .fails := by
  have hnegation : cond.negation.normalize.Bounds symbol := by
    rw [normalize_negation, hnormal]
    exact hcond.negation
  have hfails : check [known] cond.negation = .fails := by
    rw [check_singleton_eq_fails_iff hbounds hnegation]
    intro assignment hholds
    rw [hcond.holds_negation_iff, not_not]
    exact himplies assignment hholds
  cases hverdict : check path cond.negation with
  | fails => rfl
  | unknown =>
    rw [check_eq_unknown_iff_forall.mp hverdict known hknown] at hfails
    cases hfails
  | holds =>
    -- then another condition implies the negation, which has no solution in common with this one
    obtain ⟨other, hother, hbounds', himplies'⟩ := implies_of_check hnegation hstrict hverdict
    obtain ⟨x, hx, hx'⟩ := h.compatible known hknown other hother symbol hbounds hbounds'
    exact absurd (himplies _ hx) ((hcond.holds_negation_iff _).mp (himplies' _ hx'))

theorem check_of_forall_not_bounds (hcond : ∀ symbol, ¬ cond.normalize.Bounds symbol) :
    check path cond = .unknown := by
  unfold check
  dsimp only
  split
  · next symbol constant hbound => exact absurd ⟨constant, hbound⟩ (hcond symbol)
  · rfl

end Condition

/-! ### Branches -/

open Condition Run

namespace Run

variable {setting : Setting} {machine : Machine} {value : Value} {cond : Condition}

theorem decide_of_ofVerdict? (hcond : ofVerdict? value = some cond) :
    decide setting value machine =
      match machine.recorder.check cond with
      | .holds => (.ok true, machine)
      | .fails => (.ok false, machine)
      | .unknown => (.ok true,
          { machine with
            recorder := machine.recorder.assume cond (machine.term setting cond.lhs)
              (machine.term setting cond.rhs) }) := by
  have hdecide : decide setting value = (do
      let machine ← get
      match machine.recorder.check cond with
      | .holds => pure true
      | .fails => pure false
      | .unknown =>
        set { machine with
              recorder := machine.recorder.assume cond (machine.term setting cond.lhs)
                (machine.term setting cond.rhs) }
        pure true) := by
    cases value <;> cases hcond <;> rfl
  rw [hdecide, get_bind_apply]
  cases machine.recorder.check cond <;> rfl

theorem freshVerdict_bind_decide :
    (freshVerdict cond >>= decide setting) machine =
      decide setting (.verdict machine.recorder.fresh.1 cond.lhs cond.op cond.rhs)
        { machine with recorder := machine.recorder.fresh.2 } := rfl

theorem negation_of_ofNegation? (hcond : ofNegation? value = some cond) :
    negation value = freshVerdict cond := by
  rw [negation, hcond]

theorem binary_of_check_fails {op : BinaryOp} {lhs rhs : Value}
    (hcond : ofComparison? op lhs rhs = some cond) (hintegers : cond.ComparesIntegers)
    (hfails : machine.recorder.check cond = .fails) :
    binary setting op lhs rhs machine = (.ok (.bool false), machine) := by
  obtain ⟨hlhs, hrhs, hsymbolic⟩ := ComparesIntegers.of_ofComparison? hcond hintegers
  have hundefined : (lhs.isUndefined || rhs.isUndefined) = false := by
    rw [hlhs.isUndefined, hrhs.isUndefined, Bool.or_self]
  have hdefinition : DefinitionOp.ofBinaryOp? op = none := by cases op <;> first | rfl | cases hcond
  rw [binary, if_pos (Bool.or_eq_true_iff.mpr hsymbolic), symbolicBinary, hundefined,
    Bool.and_false, if_neg Bool.false_ne_true]
  rw [get_bind_apply, hdefinition, hcond]
  dsimp only
  rw [hfails]
  rfl

end Run

namespace Machine

variable {setting : Setting} {machine : Machine} {value : Value} {cond : Condition}

/-- The branch is decided false, and nothing is assumed for it. -/
def Refuses (machine : Machine) (branch : Run Bool) : Prop :=
  (branch machine).1 = .ok false ∧ (branch machine).2.recorder.path = machine.recorder.path

/-- The branch is decided true, and for that the condition is assumed. -/
def TakesAssuming (machine : Machine) (branch : Run Bool) (cond : Condition) : Prop :=
  (branch machine).1 = .ok true ∧
    (branch machine).2.recorder.path = machine.recorder.path ++ [cond]

theorem refuses_freshVerdict (hfails : machine.recorder.check cond = .fails) :
    machine.Refuses (freshVerdict cond >>= Run.decide setting) := by
  have hcheck : machine.recorder.fresh.2.check cond = .fails := hfails
  unfold Refuses
  rw [freshVerdict_bind_decide, decide_of_ofVerdict? rfl]
  dsimp only
  rw [hcheck]
  exact ⟨rfl, rfl⟩

theorem takesAssuming_freshVerdict (hunknown : machine.recorder.check cond = .unknown) :
    machine.TakesAssuming (freshVerdict cond >>= Run.decide setting) cond := by
  have hcheck : machine.recorder.fresh.2.check cond = .unknown := hunknown
  unfold TakesAssuming
  rw [freshVerdict_bind_decide, decide_of_ofVerdict? rfl]
  dsimp only
  rw [hcheck]
  exact ⟨rfl, rfl⟩

theorem refuses_binary {op : BinaryOp} {lhs rhs : Value}
    (hcond : ofComparison? op lhs rhs = some cond) (hintegers : cond.ComparesIntegers)
    (hfails : machine.recorder.check cond = .fails) :
    machine.Refuses (binary setting op lhs rhs >>= Run.decide setting) := by
  unfold Refuses
  rw [bind_apply, binary_of_check_fails hcond hintegers hfails]
  exact ⟨rfl, rfl⟩

/-- Whether the value is negated, the operands are compared the other way or the opposite has been
computed before: a branch on it is refused. -/
structure RefusesOpposite (setting : Setting) (machine : Machine) (value : Value)
    (cond : Condition) : Prop where
  negation : machine.Refuses (negation value >>= Run.decide setting)
  comparison : ∀ op lhs rhs, ofComparison? op lhs rhs = some cond →
    machine.Refuses (binary setting op.complement lhs rhs >>= Run.decide setting)
  computed : ∀ opposite, ofVerdict? opposite = some cond.negation →
    machine.Refuses (Run.decide setting opposite)

theorem refusesOpposite {symbol : Nat} (hcond : ofVerdict? value = some cond)
    (hbounds : cond.Bounds symbol) (hfails : machine.recorder.check cond.negation = .fails) :
    machine.RefusesOpposite setting value cond where
  negation := by
    rw [negation_of_ofNegation? (ofNegation?_of_bounds hcond hbounds)]
    exact refuses_freshVerdict hfails
  comparison op lhs rhs hcomparison :=
    have hsymbol : cond.negation.ComparesSymbol symbol := .inl hbounds.negation
    refuses_binary (ofComparison?_complement hcomparison) hsymbol.comparesIntegers hfails
  computed opposite hopposite := by
    unfold Refuses
    rw [decide_of_ofVerdict? hopposite, hfails]
    exact ⟨rfl, rfl⟩

theorem exists_implies_of_decide {symbol : Nat} (hcond : ofVerdict? value = some cond)
    (hnormal : cond.normalize = cond) (hbounds : cond.Bounds symbol)
    (hstrict : ¬ SettledLoosely machine.recorder.path cond)
    (htaken : (Run.decide setting value machine).1 = .ok true) :
    ∃ known ∈ (Run.decide setting value machine).2.recorder.path,
      known.Bounds symbol ∧ known.Implies cond := by
  rw [decide_of_ofVerdict? hcond] at htaken ⊢
  cases hcheck : machine.recorder.check cond with
  | fails =>
    rw [hcheck] at htaken
    cases htaken
  | holds => exact implies_of_check (hnormal.symm ▸ hbounds) hstrict hcheck
  | unknown =>
    refine ⟨cond, ?_, hbounds, fun _ => id⟩
    exact List.mem_append_right _ (List.mem_singleton_self cond)

/-! ### Runs -/

/-- Besides what is told of them, decisions are on values that stand for conditions in normal form.
-/
theorem decisionInvariant_statesNormal (setting : Setting) :
    DecisionInvariant (backend setting) (normality setting).invariant Unbound
      (fun machine => machine.recorder.assumptions)
      fun decisions seen => seen = told setting decisions ∧
        ∀ decision ∈ decisions, StatesNormal decision.2 where
  maintained := callsMaintained_normality setting
  steady := steady_assumptions setting
  decide {_ _ value _} _ hvalue h := by
    refine ⟨assumptions_decide value h.1, ?_⟩
    exact List.forall_mem_append.mpr ⟨h.2, List.forall_mem_singleton.mpr hvalue⟩

theorem told_prefix {decisions later : List (Machine × Value)} (h : decisions <+: later) :
    (told setting decisions).1 <+: (told setting later).1 :=
  (h.filterMap _).map _

/-- **A branch is not taken along with its opposite, if it is on a bound.** Let a branch on a value
have been taken in a run, and let the path be as it is at any later moment. If the value stands for
a comparison of a symbol with an integer, and no upper bound is taken to imply a smaller one, then a
branch on its opposite is refused. If it stands for anything else, a branch on its negation is taken
too, and the negation joins the path. -/
theorem opposite_refused_of_bounds (setting : Setting) (calls : List Call) :
    let history := (backend setting).withHistory.afterCalls { state := .new setting } calls
    ∀ before machine value after cond, history.decisions = before ++ (machine, value) :: after →
      ofVerdict? value = some cond → (Run.decide setting value machine).1 = .ok true →
    ∀ moment, history.Moment moment → before ++ [(machine, value)] <+: moment.decisions →
    ∀ later : Machine, later.recorder.path = moment.state.recorder.path →
      (∀ symbol, cond.Bounds symbol → ¬ SettledLoosely machine.recorder.path cond →
        ¬ SettledLoosely later.recorder.path cond.negation →
          later.RefusesOpposite setting value cond) ∧
      ((∀ symbol, ¬ cond.Bounds symbol) → ∃ negated, ofNegation? value = some negated ∧
        later.TakesAssuming (negation value >>= Run.decide setting) negated) := by
  intro history before machine value after cond hdecisions hcond htaken moment hmoment hlater later
    hpath
  have hinvariant := decisionInvariant_statesNormal setting
  have hnew : (normality setting).invariant.Holds () (.new setting) :=
    Discipline.governs_new ⟨⟨nofun, nofun⟩, ListHeap.allValues_default⟩
  have hearlier : history.Moment { state := machine, decisions := before } :=
    .inr ⟨value, after, hdecisions⟩
  obtain ⟨-, htold, -⟩ := hinvariant.of_moment hnew rfl ⟨rfl, nofun⟩ calls hearlier
  obtain ⟨⟨_, hgoverns⟩, htold', hnormals⟩ :=
    hinvariant.of_moment hnew rfl ⟨rfl, nofun⟩ calls hmoment
  have hstates : StatesNormal value :=
    hnormals (machine, value) (hlater.mem (List.mem_append_right _ (List.mem_singleton_self _)))
  have hconsistent : Condition.Consistent later.recorder.path := hpath ▸ hgoverns.suits.1
  -- what the path has after the branch was taken, it has at any later moment
  have hgrown : (Run.decide setting value machine).2.recorder.path <+: later.recorder.path := by
    have hafter : (Run.decide setting value machine).2.recorder.path = _ :=
      congrArg Prod.fst (assumptions_decide value htold)
    have hnow : moment.state.recorder.path = _ := congrArg Prod.fst htold'
    rw [hpath, hafter, hnow]
    exact told_prefix hlater
  refine ⟨fun symbol hbounds hstrict hstrict' => ?_, fun hbounds => ?_⟩
  · obtain ⟨known, hknown, hbounds', himplies⟩ :=
      exists_implies_of_decide hcond (hstates cond hcond) hbounds hstrict htaken
    exact refusesOpposite hcond hbounds (hconsistent.check_negation (hstates cond hcond) hbounds
      hstrict' (hgrown.mem hknown) hbounds' himplies)
  · obtain ⟨negated, hnegated, hunbounded⟩ := exists_ofNegation?_of_not_bounds hcond hbounds
    refine ⟨negated, hnegated, ?_⟩
    rw [negation_of_ofNegation? hnegated]
    refine takesAssuming_freshVerdict (check_of_forall_not_bounds ?_)
    rwa [normalize_of_ofNegation? hstates hnegated]

/-- After `s > 5` has been assumed, `s <= 5` is refused, and so is that `s > 5` does not hold. -/
theorem opposite_refused_of_bounds_above :
    let history := (backend unknownNumber).withHistory.afterCalls { state := .new unknownNumber }
      [.exec 9 (aboveFiveAnd .le 5)]
    let cond : Condition := ⟨.symbol 1, .gt, .int 5⟩
    let above : Value := .verdict 2 (.symbol 1) .gt (.int 5)
    history.decisions.map (fun (machine, value) => (machine.recorder.path, value)) =
        [([], above), ([cond], .bool false)] ∧
      history.state.recorder.path = [cond] ∧
      history.state.Refuses (negation above >>= Run.decide unknownNumber) ∧
      history.state.Refuses
        (binary unknownNumber .le (.symbol 1) (.int 5) >>= Run.decide unknownNumber) := by
  intro history cond above
  have hseen : history.decisions.map (fun (machine, value) => (machine.recorder.path, value)) =
      [([], above), ([cond], .bool false)] := by decide +kernel
  have hpath : history.state.recorder.path = [cond] := by decide +kernel
  obtain ⟨⟨machine, value⟩, rest, hdecisions, hfirst, -⟩ := List.map_eq_cons_iff.mp hseen
  obtain ⟨hempty, rfl⟩ := Prod.mk.inj hfirst
  have htaken : (Run.decide unknownNumber above machine).1 = .ok true := by
    have hunknown : machine.recorder.check cond = .unknown := by
      rw [Recorder.check, hempty]
      rfl
    rw [decide_of_ofVerdict? rfl, hunknown]
  have hstrict : ¬ SettledLoosely machine.recorder.path cond := by
    rintro ⟨settler, hsettles, -⟩
    rw [hempty] at hsettles
    cases hsettles.mem
  have hstrict' : ¬ SettledLoosely history.state.recorder.path cond.negation := by
    rintro ⟨settler, hsettles, _, _, _, _, hle, -⟩
    rw [hpath] at hsettles
    cases List.mem_singleton.mp hsettles.mem
    cases hle
  have hlater : [] ++ [(machine, above)] <+: history.decisions := ⟨rest, hdecisions.symm⟩
  have hrefuses := (opposite_refused_of_bounds unknownNumber [.exec 9 (aboveFiveAnd .le 5)] []
    machine above rest cond hdecisions rfl htaken history (.inl rfl) hlater history.state rfl).1 1
    ⟨5, rfl⟩ hstrict hstrict'
  exact ⟨hseen, hpath, hrefuses.negation,
    hrefuses.comparison .gt (.symbol 1) (.int 5) (by decide)⟩

def truthAndFalsity : Stmt where
  action := .ifThen (.read ⟨1⟩ [])
    { action := .ifThen (.not (.read ⟨1⟩ [])) { action := .skip } none } none

/-- After a symbol has been assumed to be true, it is also assumed to be false. -/
theorem not_refuses_falsity :
    let history := (backend unknownNumber).withHistory.afterCalls { state := .new unknownNumber }
      [.exec 9 truthAndFalsity]
    let truth : Condition := ⟨.symbol 1, .eq, .bool true⟩
    let falsity : Condition := ⟨.symbol 1, .eq, .bool false⟩
    history.decisions.map (fun (machine, value) =>
        (machine.recorder.path, value, (Run.decide unknownNumber value machine).1.toOption)) =
      [([], .symbol 1, some true),
        ([truth], .verdict 2 (.symbol 1) .eq (.bool false), some true)] ∧
    ofNegation? (.symbol 1) = some falsity ∧
    history.state.recorder.path = [truth, falsity] := by
  decide +kernel

end Machine

end AbstractStateMachine
