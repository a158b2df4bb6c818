import AbstractStateMachine.Proofs.Symbolic.NormalForm

/-!
# The verdicts that can be relied on

A candidate on a symbol is decided by one known condition at a time. Over the integers each entry of
the table but that for two upper bounds is exact: it says that the candidate holds if and only if
the known condition implies it, and that it fails if and only if the known condition refutes it. So
where no two upper bounds meet, nothing that one condition alone settles is missed, and the order of
the conditions only matters if they contradict each other. Candidates that keep the least integer on
their left are not looked at, so there it can be missed.
-/

namespace AbstractStateMachine.Condition

/-- A symbol on the left is compared with an integer. -/
def Bounds (cond : Condition) (symbol : Nat) : Prop :=
  ∃ constant, cond.bound? = some (symbol, constant)

def Implies (known candidate : Condition) : Prop :=
  ∀ assignment, known.Holds assignment → candidate.Holds assignment

def Refutes (known candidate : Condition) : Prop :=
  ∀ assignment, known.Holds assignment → ¬ candidate.Holds assignment

/-! ### The table -/

section Table

variable {known candidate : Comparison} {k c : Int64}

theorem decideBy_eq_holds_iff (hpair : ¬ (known = .le ∧ candidate = .le)) :
    decideBy known k candidate c = .holds ↔
      ∀ x : Int, known.Relates x k.toInt → candidate.Relates x c.toInt := by
  constructor
  · intro hholds x hx
    exact decideBy_holds hholds (fun h => hpair ⟨h.1, h.2.1⟩) hx
  · intro himplies
    -- What is not implied fails at one of the constants, or beyond both.
    have hknown := himplies k.toInt
    have hcandidate := himplies c.toInt
    have habove := himplies (max k.toInt c.toInt + 1)
    have hbelow := himplies (min k.toInt c.toInt - 1)
    clear himplies
    cases known <;> cases candidate <;>
      simp [decideBy, Comparison.Relates, Int64.lt_iff_toInt_lt, Int64.le_iff_toInt_le,
        ← Int64.toInt_inj] at *
    all_goals omega

theorem decideBy_eq_fails_iff :
    decideBy known k candidate c = .fails ↔
      ∀ x : Int, known.Relates x k.toInt → ¬ candidate.Relates x c.toInt := by
  constructor
  · intro hfails x hx
    exact decideBy_fails hfails hx
  · intro hrefutes
    have hknown := hrefutes k.toInt
    have hcandidate := hrefutes c.toInt
    have habove := hrefutes (max k.toInt c.toInt + 1)
    have hbelow := hrefutes (min k.toInt c.toInt - 1)
    clear hrefutes
    cases known <;> cases candidate <;>
      simp [decideBy, Comparison.Relates, Int64.lt_iff_toInt_lt, Int64.le_iff_toInt_le,
        ← Int64.toInt_inj] at *
    all_goals omega

end Table

/-! ### One known condition -/

section OneKnown

variable {known candidate : Condition} {symbol : Nat}

theorem forall_holds_iff {k c : Int64} (hknown : known.bound? = some (symbol, k))
    (hcandidate : candidate.normalize.bound? = some (symbol, c)) (p : Prop → Prop) :
    (∀ assignment, known.Holds assignment → p (candidate.Holds assignment)) ↔
      ∀ x : Int, known.op.Relates x k.toInt → p (candidate.normalize.op.Relates x c.toInt) := by
  have hiff (assignment : Assignment) : candidate.Holds assignment ↔
      candidate.normalize.op.Relates (assignment symbol) c.toInt := by
    rw [← holds_normalize_iff, holds_iff_of_bound? hcandidate]
  constructor
  · intro h x hx
    have hp := h (fun _ => x) ((holds_iff_of_bound? hknown _).mpr hx)
    rwa [hiff] at hp
  · intro h assignment hholds
    rw [hiff]
    exact h _ ((holds_iff_of_bound? hknown assignment).mp hholds)

theorem check_singleton_of_bound? {k c : Int64} (hknown : known.bound? = some (symbol, k))
    (hcandidate : candidate.normalize.bound? = some (symbol, c)) :
    check [known] candidate = decideBy known.op k candidate.normalize.op c := by
  simp only [check, checkBound, hknown, hcandidate, if_pos]
  cases decideBy known.op k candidate.normalize.op c <;> rfl

theorem check_singleton_eq_holds_iff (hknown : known.Bounds symbol)
    (hcandidate : candidate.normalize.Bounds symbol)
    (hpair : candidate.normalize.op = .le → known.op ≠ .le) :
    check [known] candidate = .holds ↔ known.Implies candidate := by
  obtain ⟨k, hk⟩ := hknown
  obtain ⟨c, hc⟩ := hcandidate
  rw [check_singleton_of_bound? hk hc, decideBy_eq_holds_iff fun h => hpair h.2 h.1]
  exact (forall_holds_iff hk hc id).symm

theorem check_singleton_eq_fails_iff (hknown : known.Bounds symbol)
    (hcandidate : candidate.normalize.Bounds symbol) :
    check [known] candidate = .fails ↔ known.Refutes candidate := by
  obtain ⟨k, hk⟩ := hknown
  obtain ⟨c, hc⟩ := hcandidate
  rw [check_singleton_of_bound? hk hc, decideBy_eq_fails_iff]
  exact (forall_holds_iff hk hc Not).symm

theorem bounds_of_check_singleton (hcandidate : candidate.normalize.Bounds symbol)
    (hsettled : check [known] candidate ≠ .unknown) : known.Bounds symbol := by
  obtain ⟨other, k, c, hk, hc, -⟩ := check_singleton rfl hsettled
  obtain ⟨constant, hconstant⟩ := hcandidate
  cases hc.symm.trans hconstant
  exact ⟨k, hk⟩

end OneKnown

/-! ### All known conditions -/

theorem check_eq_unknown_iff_forall {known : List Condition} {candidate : Condition} :
    check known candidate = .unknown ↔ ∀ cond ∈ known, check [cond] candidate = .unknown := by
  constructor
  · intro hunknown cond hcond
    by_contra hsettled
    -- The first condition that settles the candidate comes no later than this one.
    induction known with
    | nil => cases hcond
    | cons first rest ih =>
      rw [check_cons] at hunknown
      split at hunknown
      · next hfirst =>
          rcases List.mem_cons.mp hcond with rfl | hrest
          · exact hsettled hfirst
          · exact ih hunknown hrest
      · next hfirst => exact hfirst hunknown
  · intro hall
    by_contra hsettled
    obtain ⟨settler, hsettles⟩ := exists_settles hsettled
    exact hsettles.settled (hall settler hsettles.mem)

/-- No two upper bounds meet when the candidate is decided. -/
def ComparesNoUpperBounds (known : List Condition) (candidate : Condition) (symbol : Nat) : Prop :=
  candidate.normalize.op = .le → ∀ cond ∈ known, cond.Bounds symbol → cond.op ≠ .le

section AllKnown

variable {known others : List Condition} {candidate : Condition} {symbol : Nat}
  {assignment : Assignment} (hcandidate : candidate.normalize.Bounds symbol)
  (hpair : ComparesNoUpperBounds known candidate symbol)
  (hknown : ∀ cond ∈ known, cond.Bounds symbol → cond.Holds assignment)
include hcandidate

theorem exists_refutes_of_check (hfails : check known candidate = .fails) :
    ∃ cond ∈ known, cond.Bounds symbol ∧ cond.Refutes candidate := by
  obtain ⟨settler, hsettles⟩ := exists_settles (hfails.trans_ne (by decide))
  have hbounds := bounds_of_check_singleton hcandidate hsettles.settled
  rw [hsettles.check_eq, check_singleton_eq_fails_iff hbounds hcandidate] at hfails
  exact ⟨settler, hsettles.mem, hbounds, hfails⟩

include hpair

theorem exists_implies_of_check (hholds : check known candidate = .holds) :
    ∃ cond ∈ known, cond.Bounds symbol ∧ cond.Implies candidate := by
  obtain ⟨settler, hsettles⟩ := exists_settles (hholds.trans_ne (by decide))
  have hbounds := bounds_of_check_singleton hcandidate hsettles.settled
  rw [hsettles.check_eq, check_singleton_eq_holds_iff hbounds hcandidate
    fun hle => hpair hle settler hsettles.mem hbounds] at hholds
  exact ⟨settler, hsettles.mem, hbounds, hholds⟩

theorem check_eq_unknown_iff : check known candidate = .unknown ↔
    ∀ cond ∈ known, cond.Bounds symbol → ¬ cond.Implies candidate ∧ ¬ cond.Refutes candidate := by
  rw [check_eq_unknown_iff_forall]
  constructor
  · intro hunknown cond hcond hbounds
    rw [← check_singleton_eq_holds_iff hbounds hcandidate fun hle => hpair hle cond hcond hbounds,
      ← check_singleton_eq_fails_iff hbounds hcandidate, hunknown cond hcond]
    decide
  · intro hneither cond hcond
    by_contra hsettled
    have hbounds := bounds_of_check_singleton hcandidate hsettled
    obtain ⟨himplies, hrefutes⟩ := hneither cond hcond hbounds
    rw [← check_singleton_eq_holds_iff hbounds hcandidate fun hle => hpair hle cond hcond hbounds]
      at himplies
    rw [← check_singleton_eq_fails_iff hbounds hcandidate] at hrefutes
    cases hverdict : check [cond] candidate with
    | holds => exact himplies hverdict
    | fails => exact hrefutes hverdict
    | unknown => exact hsettled hverdict

include hknown

theorem check_ne_fails_of_check_eq_holds
    (hothers : ∀ cond ∈ others, cond.Bounds symbol → cond.Holds assignment)
    (hholds : check known candidate = .holds) : check others candidate ≠ .fails := by
  intro hfails
  obtain ⟨cond, hcond, hbounds, himplies⟩ := exists_implies_of_check hcandidate hpair hholds
  obtain ⟨other, hother, hbounds', hrefutes⟩ := exists_refutes_of_check hcandidate hfails
  exact hrefutes assignment (hothers other hother hbounds')
    (himplies assignment (hknown cond hcond hbounds))

theorem check_perm (hperm : others.Perm known) :
    check others candidate = check known candidate := by
  have hsame : check others candidate = .unknown ↔ check known candidate = .unknown := by
    rw [check_eq_unknown_iff_forall, check_eq_unknown_iff_forall]
    simp only [hperm.mem_iff]
  have hothers : ∀ cond ∈ others, cond.Bounds symbol → cond.Holds assignment :=
    fun cond hcond => hknown cond (hperm.mem_iff.mp hcond)
  have hpair' : ComparesNoUpperBounds others candidate symbol := fun hle cond hcond =>
    hpair hle cond (hperm.mem_iff.mp hcond)
  have hforth := check_ne_fails_of_check_eq_holds hcandidate hpair hknown hothers
  have hback := check_ne_fails_of_check_eq_holds hcandidate hpair' hothers hknown
  cases hverdict : check known candidate <;> cases hverdict' : check others candidate <;>
    simp_all

end AllKnown

def ComparesSymbol (cond : Condition) (symbol : Nat) : Prop :=
  cond.Bounds symbol ∨ ∃ constant, cond.lhs = .int constant ∧ cond.rhs.symbolId? = some symbol

/-- A candidate stays undecided exactly if no known condition on the symbol settles it by itself,
what is decided follows from one of them, and if they can hold together their order does not matter.
-/
structure Exact (known : List Condition) (candidate : Condition) (symbol : Nat) : Prop where
  unknown_iff : check known candidate = .unknown ↔
    ¬ ∃ cond ∈ known, cond.Bounds symbol ∧ (cond.Implies candidate ∨ cond.Refutes candidate)
  implied : check known candidate = .holds →
    ∃ cond ∈ known, cond.Bounds symbol ∧ cond.Implies candidate
  refuted : check known candidate = .fails →
    ∃ cond ∈ known, cond.Bounds symbol ∧ cond.Refutes candidate
  perm : (∃ assignment, ∀ cond ∈ known, cond.Bounds symbol → cond.Holds assignment) →
    ∀ others : List Condition, others.Perm known → check others candidate = check known candidate

section Exact

variable {known : List Condition} {candidate : Condition} {symbol : Nat}

theorem exact_of_bounds (hcandidate : candidate.normalize.Bounds symbol)
    (hpair : ComparesNoUpperBounds known candidate symbol) : Exact known candidate symbol where
  unknown_iff := by
    rw [check_eq_unknown_iff hcandidate hpair]
    simp only [not_exists, not_and, not_or]
  implied := exists_implies_of_check hcandidate hpair
  refuted := exists_refutes_of_check hcandidate
  perm := by
    rintro ⟨assignment, hknown⟩ others hperm
    exact check_perm hcandidate hpair hknown hperm

theorem bound?_of_lhs_int {cond : Condition} {constant : Int64}
    (hlhs : cond.lhs = .int constant) : cond.bound? = none := by
  obtain ⟨lhs, op, rhs⟩ := cond
  cases hlhs
  rfl

theorem check_of_lhs_int (known : List Condition) {constant : Int64}
    (hlhs : candidate.normalize.lhs = .int constant) : check known candidate = .unknown := by
  unfold check
  simp only [bound?_of_lhs_int hlhs]

theorem ComparesSymbol.comparesIntegers {cond : Condition} (h : cond.ComparesSymbol symbol) :
    cond.ComparesIntegers := by
  obtain ⟨lhs, op, rhs⟩ := cond
  rcases h with ⟨constant, hbound⟩ | ⟨constant, hlhs, hid⟩
  · unfold bound? at hbound
    split at hbound
    · next hid hrhs =>
        dsimp only at hid hrhs
        subst hrhs
        cases lhs <;> first | cases hid; done | exact ⟨trivial, trivial, .inl rfl⟩
    · cases hbound
  · dsimp only at hlhs hid
    subst hlhs
    cases rhs <;> first | cases hid; done | exact ⟨trivial, trivial, .inr rfl⟩

end Exact

/-- **Exactness of verdicts.** Let the normal form of a candidate compare a symbol with an integer,
and let it not be an upper bound unless no known one is. The symbol is on the left unless the least
integer is there as a bound. The verdict is exact if and only if the symbol is on the left, or
nothing that is known settles the candidate. -/
theorem check_exact_iff (known : List Condition) (candidate : Condition) (symbol : Nat)
    (hcandidate : candidate.normalize.ComparesSymbol symbol)
    (hpair : candidate.normalize.op ≠ .le ∨
      ∀ cond ∈ known, cond.Bounds symbol → cond.op ≠ .le) :
    candidate.normalize.SymbolFirst ∧
    (Exact known candidate symbol ↔ candidate.normalize.Bounds symbol ∨
      ¬ ∃ cond ∈ known, cond.Bounds symbol ∧
        (cond.Implies candidate ∨ cond.Refutes candidate)) := by
  refine ⟨symbolFirst_of_normalize_eq_self hcandidate.comparesIntegers (normalize_normalize _), ?_⟩
  rcases hcandidate with hbounds | ⟨constant, hlhs, -⟩
  · refine iff_of_true (exact_of_bounds hbounds fun hle => ?_) (.inl hbounds)
    exact hpair.resolve_left (not_not.mpr hle)
  · have hunknown (known : List Condition) := check_of_lhs_int known hlhs
    constructor
    · intro hexact
      exact .inr (hexact.unknown_iff.mp (hunknown known))
    · intro hsettled
      have hright : ¬ candidate.normalize.Bounds symbol := by
        rintro ⟨bound, hbound⟩
        rw [bound?_of_lhs_int hlhs] at hbound
        cases hbound
      have hnone := hsettled.resolve_left hright
      refine ⟨iff_of_true (hunknown known) hnone, ?_, ?_, fun _ others _ => ?_⟩
      · rw [hunknown]
        rintro ⟨⟩
      · rw [hunknown]
        rintro ⟨⟩
      · rw [hunknown, hunknown]

/-- That `x` is 4 is refuted by `x > 5` and not by `x != 3`, whichever of them comes first. -/
theorem check_exact_iff_above_bound :
    let known : List Condition := [⟨.symbol 1, .ne, .int 3⟩, ⟨.symbol 1, .gt, .int 5⟩]
    let candidate : Condition := ⟨.int 4, .eq, .symbol 1⟩
    candidate.normalize.Bounds 1 ∧ candidate.normalize.op ≠ .le ∧
      (∃ cond ∈ known, cond.Bounds 1 ∧ cond.Refutes candidate) ∧
      ∀ others : List Condition, others.Perm known → check others candidate = .fails := by
  intro known candidate
  have hcandidate : candidate.normalize.Bounds 1 := ⟨4, by decide⟩
  have hop : candidate.normalize.op ≠ .le := by decide
  have hfails : check known candidate = .fails := by decide
  have hexact : Exact known candidate 1 :=
    (check_exact_iff known candidate 1 (.inl hcandidate) (.inl hop)).2.mpr (.inl hcandidate)
  refine ⟨hcandidate, hop, hexact.refuted hfails, fun others hothers => ?_⟩
  refine (hexact.perm ⟨fun _ => 6, fun cond hcond hbounds => ?_⟩ others hothers).trans hfails
  obtain ⟨constant, hconstant⟩ := hbounds
  rw [holds_iff_of_bound? hconstant]
  rcases List.mem_pair.mp hcond with rfl | rfl
  · cases hconstant
    decide
  · cases hconstant
    decide

/-- Of an `x` that is above 5 it is not concluded that it is not below the least integer. And of an
`x` up to 50 it is concluded that it is below 41, as this is an upper bound once it is turned
around. -/
theorem not_exact_turned_around :
    let known : List Condition := [⟨.symbol 1, .le, .int 50⟩, ⟨.symbol 1, .gt, .int 5⟩]
    ¬ Exact known ⟨.int Int64.minValue, .gt, .symbol 1⟩ 1 ∧
      ¬ Exact known ⟨.int 41, .gt, .symbol 1⟩ 1 := by
  intro known
  refine ⟨fun hexact => ?_, fun hexact => ?_⟩
  · refine hexact.unknown_iff.mp (by decide)
      ⟨⟨.symbol 1, .gt, .int 5⟩, by simp [known], ⟨5, rfl⟩, ?_⟩
    refine .inr fun assignment hknown hcandidate => ?_
    rw [holds_iff_of_bound? rfl] at hknown
    have hbelow : assignment 1 < Int64.minValue.toInt := hcandidate _ _ rfl rfl
    have habove : (5 : Int64).toInt < assignment 1 := hknown
    have hleast := Int64.minValue_le_toInt 5
    omega
  · obtain ⟨cond, hcond, -, himplies⟩ := hexact.implied (by decide)
    -- 45 is up to 50 and above 5, but not below 41
    have hholds : cond.Holds fun _ => 45 := by
      rcases List.mem_pair.mp hcond with rfl | rfl
      · rw [holds_iff_of_bound? rfl]
        decide
      · rw [holds_iff_of_bound? rfl]
        decide
    have hbelow : (45 : Int) < (41 : Int64).toInt := himplies _ hholds _ _ rfl rfl
    exact absurd hbelow (by decide)

end AbstractStateMachine.Condition
