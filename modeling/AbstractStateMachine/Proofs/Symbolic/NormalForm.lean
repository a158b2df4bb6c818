import AbstractStateMachine.Proofs.Symbolic.Arithmetic

/-!
# The normal form of a condition

A comparison of an integer symbol becomes a condition that has the symbol on the left, for which a
strict or a flipped comparison moves the bound by one. The least integer has no predecessor, so it
stays where it is when it is a bound. None of this changes what is said: the condition holds under
the same assignments as the comparison, and to bring it into normal form again changes nothing.
-/

namespace AbstractStateMachine

open Integer

theorem Integer.pred?_eq_none_iff {n : Int64} : pred? n = none ↔ n = Int64.minValue := by
  have hlow : Int64.minValue.toInt ≤ n.toInt := Int64.minValue_le_toInt n
  have hhigh : n.toInt ≤ Int64.maxValue.toInt := Int64.toInt_le n
  unfold pred? ofInt? inRange
  rw [← Int64.toInt_inj]
  constructor
  · intro hnone
    by_contra hne
    rw [if_pos] at hnone
    · cases hnone
    · rw [Bool.and_eq_true, decide_eq_true_iff, decide_eq_true_iff]
      omega
  · intro hmin
    rw [if_neg]
    rw [Bool.and_eq_true, decide_eq_true_iff]
    omega

namespace Comparison

def isOrdering : Comparison → Bool
  | le | gt => true
  | eq | ne => false

@[simp]
theorem isOrdering_negate (op : Comparison) : op.negate.isOrdering = op.isOrdering := by
  cases op <;> rfl

end Comparison

namespace Condition

/-- An integer symbol is compared with an integer or with another one. -/
structure ComparesIntegers (cond : Condition) : Prop where
  lhs : cond.lhs.IsInteger
  rhs : cond.rhs.IsInteger
  symbolic : cond.lhs.isSymbolic = true ∨ cond.rhs.isSymbolic = true

/-- The symbol is on the left, unless the least integer is there as a bound. -/
def SymbolFirst (cond : Condition) : Prop :=
  cond.lhs.isSymbolic = true ∨ cond.lhs = .int Int64.minValue ∧ cond.op.isOrdering = true

/-! ### Normal forms -/

/-- A condition is in normal form if there is no symbol to be moved, or no bound to move it past. -/
theorem normalize_eq_self_iff {cond : Condition} :
    cond.normalize = cond ↔ cond.lhs.isSymbolic = true ∨ cond.rhs.isSymbolic = false ∨
      cond.op.isOrdering = true ∧ cond.lhs.int?.bind pred? = none := by
  obtain ⟨lhs, op, rhs⟩ := cond
  unfold normalize
  dsimp only
  by_cases hplaced : lhs.isSymbolic = true ∨ rhs.isSymbolic = false
  · rw [if_pos (by simpa using hplaced)]
    exact iff_of_true rfl (hplaced.imp_right .inl)
  · obtain ⟨hlhs, hrhs⟩ := not_or.mp hplaced
    have hne : rhs ≠ lhs := by
      rintro rfl
      exact hplaced (Bool.eq_false_or_eq_true _)
    rw [if_neg (by simpa using hplaced)]
    cases op <;> cases hbound : lhs.int?.bind pred? <;>
      simp [hlhs, hrhs, hne, Comparison.isOrdering]

theorem normalize_cases (cond : Condition) :
    cond.normalize = cond ∨ cond.rhs.isSymbolic = true ∧ cond.normalize.lhs = cond.rhs ∧
      (cond.normalize.rhs = cond.lhs ∨ ∃ bound, cond.normalize.rhs = .int bound) := by
  unfold normalize
  split
  · exact .inl rfl
  · next hmoved =>
      have hrhs : cond.rhs.isSymbolic = true := by
        rw [Bool.or_eq_true, not_or] at hmoved
        simpa using hmoved.2
      split
      · exact .inr ⟨hrhs, rfl, .inl rfl⟩
      · exact .inr ⟨hrhs, rfl, .inl rfl⟩
      · exact .inr ⟨hrhs, rfl, .inr ⟨_, rfl⟩⟩
      · exact .inr ⟨hrhs, rfl, .inr ⟨_, rfl⟩⟩
      · exact .inl rfl

theorem normalize_normalize (cond : Condition) : cond.normalize.normalize = cond.normalize := by
  rcases cond.normalize_cases with hself | ⟨hrhs, hlhs, -⟩
  · rw [hself, hself]
  · rw [normalize_eq_self_iff, hlhs]
    exact .inl hrhs

theorem normalize_negate {lhs rhs : Value} {op : Comparison}
    (h : normalize ⟨lhs, op, rhs⟩ = ⟨lhs, op, rhs⟩) :
    normalize ⟨lhs, op.negate, rhs⟩ = ⟨lhs, op.negate, rhs⟩ := by
  rw [normalize_eq_self_iff] at h ⊢
  simpa using h

/-- Only the least integer keeps a symbol from the left. -/
theorem symbolFirst_of_normalize_eq_self {cond : Condition} (h : cond.ComparesIntegers)
    (hself : cond.normalize = cond) : cond.SymbolFirst := by
  rcases normalize_eq_self_iff.mp hself with hlhs | hrhs | ⟨hordering, hbound⟩
  · exact .inl hlhs
  · exact .inl (h.symbolic.resolve_right (by simp [hrhs]))
  · cases hlhs : cond.lhs.isSymbolic with
    | true => exact .inl hlhs
    | false =>
      obtain ⟨n, hn⟩ := h.lhs.eq_int hlhs
      rw [hn] at hbound
      have hleast : n = Int64.minValue := pred?_eq_none_iff.mp hbound
      exact .inr ⟨hn.trans (congrArg Value.int hleast), hordering⟩

theorem check_normalize (known : List Condition) (candidate : Condition) :
    check known candidate.normalize = check known candidate := by
  unfold check
  rw [normalize_normalize]

/-! ### Comparisons of integers -/

theorem ComparesIntegers.normalize {cond : Condition} (h : cond.ComparesIntegers) :
    cond.normalize.ComparesIntegers := by
  rcases cond.normalize_cases with hself | ⟨hrhs, hlhs, hother | ⟨bound, hbound⟩⟩
  · rw [hself]
    exact h
  · exact ⟨hlhs ▸ h.rhs, hother ▸ h.lhs, .inl (hlhs ▸ hrhs)⟩
  · exact ⟨hlhs ▸ h.rhs, hbound ▸ trivial, .inl (hlhs ▸ hrhs)⟩

variable {lhs rhs : Value} {op : BinaryOp} {cond : Condition}

theorem ComparesIntegers.moveBound {op op' : Comparison} (h : ComparesIntegers ⟨lhs, op, rhs⟩)
    {bound : Int64} (hbound : rhs.int?.bind pred? = some bound) :
    ComparesIntegers ⟨lhs, op', .int bound⟩ := by
  obtain ⟨constant, rfl, -⟩ := exists_of_int?_bind_pred? hbound
  exact ⟨h.lhs, trivial, .inl (h.symbolic.resolve_right (by simp [Value.isSymbolic, Value.kind]))⟩

theorem ComparesIntegers.ofComparison? (h : ∀ op, ComparesIntegers ⟨lhs, op, rhs⟩)
    (hcond : Condition.ofComparison? op lhs rhs = some cond) : cond.ComparesIntegers := by
  have hswap (op : Comparison) : ComparesIntegers ⟨rhs, op, lhs⟩ :=
    ⟨(h op).rhs, (h op).lhs, (h op).symbolic.symm⟩
  cases op <;> cases hcond
  case eq | ne | gt | le => exact (h _).normalize
  case lt =>
    refine ComparesIntegers.normalize ?_
    unfold less
    cases hbound : rhs.int?.bind pred? with
    | none => exact hswap .gt
    | some bound => exact (h .le).moveBound hbound
  case ge =>
    refine ComparesIntegers.normalize ?_
    unfold greaterEq
    cases hbound : rhs.int?.bind pred? with
    | none => exact hswap .le
    | some bound => exact (h .gt).moveBound hbound

theorem normalize_of_ofComparison? (hcond : ofComparison? op lhs rhs = some cond) :
    cond.normalize = cond := by
  cases op <;> cases hcond <;> exact normalize_normalize _

theorem exists_ofComparison? (hop : op.isComparison = true) (lhs rhs : Value) :
    ∃ cond, ofComparison? op lhs rhs = some cond := by
  cases op <;> first | exact ⟨_, rfl⟩ | cases hop

/-- **Rewriting a comparison preserves its meaning.** A comparison of an integer symbol gives a
condition that holds exactly when the comparison does, and so does the normal form of a condition.
Both have the symbol on the left unless the least integer is there as a bound. To normalize twice is
to normalize once, and a candidate is judged like its normal form. -/
theorem comparison_keeps_meaning (lhs rhs : Value) (hlhs : lhs.IsInteger) (hrhs : rhs.IsInteger)
    (hsymbolic : lhs.isSymbolic = true ∨ rhs.isSymbolic = true) :
    (∀ op : BinaryOp, op.isComparison = true → ∃ cond, ofComparison? op lhs rhs = some cond ∧
      cond.ComparesIntegers ∧ cond.SymbolFirst ∧
      ∀ assignment, ∃ x y, lhs.meaning assignment = some x ∧ rhs.meaning assignment = some y ∧
        (cond.Holds assignment ↔ op.Compares x y)) ∧
    (∀ op : Comparison, (normalize ⟨lhs, op, rhs⟩).ComparesIntegers ∧
      (normalize ⟨lhs, op, rhs⟩).SymbolFirst) ∧
    ∀ cond : Condition,
      (∀ assignment, cond.normalize.Holds assignment ↔ cond.Holds assignment) ∧
      cond.normalize.normalize = cond.normalize ∧
      ∀ known, check known cond.normalize = check known cond := by
  have hcompares (op : Comparison) : ComparesIntegers ⟨lhs, op, rhs⟩ := ⟨hlhs, hrhs, hsymbolic⟩
  refine ⟨fun op hop => ?_, fun op => ?_, fun cond => ?_⟩
  · obtain ⟨cond, hcond⟩ := exists_ofComparison? hop lhs rhs
    have hintegers : cond.ComparesIntegers := .ofComparison? hcompares hcond
    refine ⟨cond, hcond, hintegers, ?_, fun assignment => ?_⟩
    · exact symbolFirst_of_normalize_eq_self hintegers (normalize_of_ofComparison? hcond)
    · obtain ⟨x, hx⟩ := Value.exists_meaning hlhs assignment
      obtain ⟨y, hy⟩ := Value.exists_meaning hrhs assignment
      exact ⟨x, y, hx, hy, holds_ofComparison?_iff hcond hx hy⟩
  · have hintegers := (hcompares op).normalize
    exact ⟨hintegers, symbolFirst_of_normalize_eq_self hintegers (normalize_normalize _)⟩
  · exact ⟨fun assignment => holds_normalize_iff assignment cond, normalize_normalize cond,
      fun known => check_normalize known cond⟩

/-- `x < c` for the least integer `c` becomes `c > x`, which holds under the same assignments. -/
theorem comparison_keeps_meaning_least :
    ofComparison? .lt (.symbol 1) (.int Int64.minValue) =
      some ⟨.int Int64.minValue, .gt, .symbol 1⟩ ∧
    ∀ assignment, Holds assignment ⟨.int Int64.minValue, .gt, .symbol 1⟩ ↔
      assignment 1 < Int64.minValue.toInt := by
  have hmeaning := (comparison_keeps_meaning (.symbol 1) (.int Int64.minValue) trivial trivial
    (.inl rfl)).1 .lt rfl
  obtain ⟨cond, hcond, -, -, hholds⟩ := hmeaning
  obtain rfl : ⟨.int Int64.minValue, .gt, .symbol 1⟩ = cond :=
    Option.some.inj ((by decide : some _ = ofComparison? .lt _ _).trans hcond)
  refine ⟨hcond, fun assignment => ?_⟩
  obtain ⟨x, y, hx, hy, hiff⟩ := hholds assignment
  cases hx
  cases hy
  exact hiff

end Condition

end AbstractStateMachine
