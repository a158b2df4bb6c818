import AbstractStateMachine.Symbolic.Condition
import Mathlib.Order.Nat

/-!
# What the verdicts on conditions are worth

Conditions are given a meaning over the integers: an assignment gives every symbol a value, and a
condition holds under it if its two sides compare as stated. A verdict on a candidate should follow
from the known conditions. It does, but for one entry of the table: a known upper bound is taken to
imply every smaller one. `check_sound_iff` says exactly when that does no harm.
-/

namespace AbstractStateMachine

abbrev Assignment := Nat → Int

/-- The integer a value stands for, if it stands for one. -/
def Value.meaning (assignment : Assignment) : Value → Option Int
  | .int value => some value.toInt
  | .symbol id => some (assignment id)
  | .verdict id _ _ _ => some (assignment id)
  | _ => none

theorem Value.meaning_of_symbolId? {value : Value} {id : Nat} (hid : value.symbolId? = some id)
    (assignment : Assignment) : value.meaning assignment = some (assignment id) := by
  cases value <;> simp_all [symbolId?, meaning]

def Comparison.Relates : Comparison → Int → Int → Prop
  | eq, x, y => x = y
  | ne, x, y => x ≠ y
  | le, x, y => x ≤ y
  | gt, x, y => y < x

instance (op : Comparison) (x y : Int) : Decidable (op.Relates x y) :=
  match op with
  | .eq => inferInstanceAs (Decidable (x = y))
  | .ne => inferInstanceAs (Decidable (x ≠ y))
  | .le => inferInstanceAs (Decidable (x ≤ y))
  | .gt => inferInstanceAs (Decidable (y < x))

namespace Condition

variable {assignment : Assignment} {x : Int} {b : Bool} {known candidate : Condition}

/-- A condition says nothing about an operand that is no integer. -/
def Holds (assignment : Assignment) (cond : Condition) : Prop :=
  ∀ x y, cond.lhs.meaning assignment = some x → cond.rhs.meaning assignment = some y →
    cond.op.Relates x y

theorem holds_iff_of_meaning {cond : Condition} {y : Int}
    (hlhs : cond.lhs.meaning assignment = some x) (hrhs : cond.rhs.meaning assignment = some y) :
    cond.Holds assignment ↔ cond.op.Relates x y := by
  constructor
  · intro h
    exact h x y hlhs hrhs
  · intro h x' y' hx hy
    rw [hlhs] at hx
    rw [hrhs] at hy
    cases hx
    cases hy
    exact h

theorem toInt_of_pred? {n bound : Int64} (h : Integer.pred? n = some bound) :
    bound.toInt = n.toInt - 1 := by
  unfold Integer.pred? Integer.ofInt? Integer.inRange at h
  split at h
  · rename_i hrange
    obtain ⟨hlow, hhigh⟩ := Bool.and_eq_true_iff.mp hrange
    cases h
    exact Int64.toInt_ofInt_of_le (of_decide_eq_true hlow)
      (Int.lt_of_le_of_lt (of_decide_eq_true hhigh) (by decide))
  · cases h

theorem exists_of_int?_bind_pred? {value : Value} {bound : Int64}
    (h : value.int?.bind Integer.pred? = some bound) :
    ∃ constant, value = .int constant ∧ bound.toInt = constant.toInt - 1 := by
  cases value with
  | int constant => exact ⟨constant, rfl, toInt_of_pred? h⟩
  | _ => cases h

theorem holds_pred_iff {constant bound : Int64} (hbound : bound.toInt = constant.toInt - 1)
    (other : Value) :
    (Holds assignment ⟨other, .le, .int bound⟩ ↔ Holds assignment ⟨.int constant, .gt, other⟩) ∧
    (Holds assignment ⟨other, .gt, .int bound⟩ ↔ Holds assignment ⟨.int constant, .le, other⟩) := by
  simp only [Holds, Comparison.Relates, Value.meaning, Option.some.injEq]
  grind

theorem holds_normalize_iff (assignment : Assignment) (cond : Condition) :
    cond.normalize.Holds assignment ↔ cond.Holds assignment := by
  obtain ⟨lhs, op, rhs⟩ := cond
  unfold normalize
  split
  · rfl
  cases op with
  | eq => exact ⟨fun h x y hx hy => (h y x hy hx).symm, fun h x y hx hy => (h y x hy hx).symm⟩
  | ne => exact ⟨fun h x y hx hy => (h y x hy hx).symm, fun h x y hx hy => (h y x hy hx).symm⟩
  | le =>
    cases hbound : lhs.int?.bind Integer.pred? with
    | none => rfl
    | some bound =>
      obtain ⟨constant, rfl, hconstant⟩ := exists_of_int?_bind_pred? hbound
      exact (holds_pred_iff hconstant rhs).2
  | gt =>
    cases hbound : lhs.int?.bind Integer.pred? with
    | none => rfl
    | some bound =>
      obtain ⟨constant, rfl, hconstant⟩ := exists_of_int?_bind_pred? hbound
      exact (holds_pred_iff hconstant rhs).1

/-! ### One known condition -/

theorem holds_iff_of_bound? {cond : Condition} {symbol : Nat} {constant : Int64}
    (hbound : cond.bound? = some (symbol, constant)) (assignment : Assignment) :
    cond.Holds assignment ↔ cond.op.Relates (assignment symbol) constant.toInt := by
  obtain ⟨lhs, op, rhs⟩ := cond
  unfold bound? at hbound
  split at hbound
  · rename_i hid hrhs
    cases hbound
    refine holds_iff_of_meaning (Value.meaning_of_symbolId? hid assignment) ?_
    simp only at hrhs
    rw [hrhs, Value.meaning]
  · cases hbound

@[simp]
theorem exactly_eq_holds_iff : exactly b = .holds ↔ b = true := by
  cases b <;> simp [exactly]

@[simp]
theorem exactly_eq_fails_iff : exactly b = .fails ↔ b = false := by
  cases b <;> simp [exactly]

@[simp]
theorem impliedIf_eq_holds_iff : impliedIf b = .holds ↔ b = true := by
  cases b <;> simp [impliedIf]

@[simp]
theorem impliedIf_ne_fails (b : Bool) : impliedIf b ≠ .fails := by
  cases b <;> simp [impliedIf]

@[simp]
theorem refutedIf_eq_fails_iff : refutedIf b = .fails ↔ b = true := by
  cases b <;> simp [refutedIf]

@[simp]
theorem refutedIf_ne_holds (b : Bool) : refutedIf b ≠ .holds := by
  cases b <;> simp [refutedIf]

/-- The table is right about what follows, but for a candidate below a known upper bound. -/
theorem decideBy_holds {known candidate : Comparison} {k c : Int64}
    (hverdict : decideBy known k candidate c = .holds)
    (hbounds : ¬ (known = .le ∧ candidate = .le ∧ c < k)) (hx : known.Relates x k.toInt) :
    candidate.Relates x c.toInt := by
  -- one goal for each entry of the table, each a fact about `x` and two bounds
  cases known <;> cases candidate <;>
    simp [decideBy, Comparison.Relates, Int64.lt_iff_toInt_lt, Int64.le_iff_toInt_le,
      ← Int64.toInt_inj] at hverdict hbounds hx ⊢
  all_goals omega

theorem decideBy_fails {known candidate : Comparison} {k c : Int64}
    (hverdict : decideBy known k candidate c = .fails) (hx : known.Relates x k.toInt) :
    ¬ candidate.Relates x c.toInt := by
  cases known <;> cases candidate <;>
    simp [decideBy, Comparison.Relates, Int64.lt_iff_toInt_lt, Int64.le_iff_toInt_le,
      ← Int64.toInt_inj] at hverdict hx ⊢
  all_goals omega

theorem check_singleton {verdict : Verdict} (hverdict : check [known] candidate = verdict)
    (hsettled : verdict ≠ .unknown) :
    ∃ symbol k c, known.bound? = some (symbol, k) ∧
      candidate.normalize.bound? = some (symbol, c) ∧
      decideBy known.op k candidate.normalize.op c = verdict := by
  unfold check at hverdict
  dsimp only at hverdict
  split at hverdict
  · rename_i symbol c hcandidate
    unfold checkBound at hverdict
    split at hverdict
    · rename_i other k hknown
      split at hverdict
      · rename_i heq
        subst heq
        refine ⟨other, k, c, hknown, hcandidate, ?_⟩
        split at hverdict
        · exact absurd hverdict.symm hsettled
        · exact hverdict
      · exact absurd hverdict.symm hsettled
    · exact absurd hverdict.symm hsettled
  · exact absurd hverdict.symm hsettled

/-- A known upper bound above the one of the candidate. -/
def LooserBound (known candidate : Condition) : Prop :=
  ∃ symbol k c, known.bound? = some (symbol, k) ∧ known.op = .le ∧
    candidate.normalize.bound? = some (symbol, c) ∧ candidate.normalize.op = .le ∧ c < k

theorem check_singleton_of_looserBound (h : LooserBound known candidate) :
    check [known] candidate = .holds := by
  obtain ⟨symbol, k, c, hknown, hle, hcandidate, hcandidateLe, hlt⟩ := h
  have hcle : c ≤ k := by
    rw [Int64.le_iff_toInt_le]
    rw [Int64.lt_iff_toInt_lt] at hlt
    omega
  simp [check, checkBound, hknown, hcandidate, hle, hcandidateLe, decideBy, impliedIf, hcle]

theorem holds_of_check_singleton (hverdict : check [known] candidate = .holds)
    (hbounds : ¬ LooserBound known candidate) (hknown : known.Holds assignment) :
    candidate.Holds assignment := by
  obtain ⟨symbol, k, c, hk, hc, hdecide⟩ := check_singleton hverdict (by simp)
  rw [← holds_normalize_iff, holds_iff_of_bound? hc]
  refine decideBy_holds hdecide ?_ ((holds_iff_of_bound? hk assignment).mp hknown)
  rintro ⟨hle, hcandidateLe, hlt⟩
  exact hbounds ⟨symbol, k, c, hk, hle, hc, hcandidateLe, hlt⟩

theorem not_holds_of_check_singleton (hverdict : check [known] candidate = .fails)
    (hknown : known.Holds assignment) : ¬ candidate.Holds assignment := by
  obtain ⟨symbol, k, c, hk, hc, hdecide⟩ := check_singleton hverdict (by simp)
  rw [← holds_normalize_iff, holds_iff_of_bound? hc]
  exact decideBy_fails hdecide ((holds_iff_of_bound? hk assignment).mp hknown)

/-! ### The first known condition that settles a candidate -/

theorem check_cons (known : Condition) (rest : List Condition) (candidate : Condition) :
    check (known :: rest) candidate =
      match check [known] candidate with
      | .unknown => check rest candidate
      | verdict => verdict := by
  unfold check
  dsimp only
  split
  · rw [checkBound, checkBound]
    split
    · split
      · split <;> simp [checkBound]
      · rfl
    · rfl
  · rfl

/-- The known condition that settles a candidate: the first one that alone does. -/
structure Settles (known : List Condition) (candidate settler : Condition) : Prop where
  first : ∃ before after, known = before ++ settler :: after ∧
    ∀ cond ∈ before, check [cond] candidate = .unknown
  settled : check [settler] candidate ≠ .unknown

theorem Settles.mem {known : List Condition} {settler : Condition}
    (h : Settles known candidate settler) : settler ∈ known := by
  obtain ⟨before, after, rfl, -⟩ := h.first
  simp

theorem Settles.check_eq {known : List Condition} {settler : Condition}
    (h : Settles known candidate settler) : check known candidate = check [settler] candidate := by
  obtain ⟨before, after, rfl, hbefore⟩ := h.first
  induction before with
  | nil =>
    rw [List.nil_append, check_cons]
    split
    · rename_i hunknown
      exact absurd hunknown h.settled
    · rfl
  | cons cond before ih =>
    rw [List.cons_append, check_cons, hbefore cond List.mem_cons_self]
    have hrest := fun other hother => hbefore other (List.mem_cons_of_mem cond hother)
    exact ih hrest ⟨⟨before, after, rfl, hrest⟩, h.settled⟩

theorem exists_settles {known : List Condition} (hsettled : check known candidate ≠ .unknown) :
    ∃ settler, Settles known candidate settler := by
  induction known with
  | nil =>
    refine absurd ?_ hsettled
    unfold check
    dsimp only
    split <;> rfl
  | cons cond rest ih =>
    by_cases hcond : check [cond] candidate = .unknown
    · rw [check_cons, hcond] at hsettled
      obtain ⟨settler, ⟨before, after, rfl, hbefore⟩, hsettler⟩ := ih hsettled
      refine ⟨settler, ⟨cond :: before, after, rfl, ?_⟩, hsettler⟩
      intro other hother
      rcases List.mem_cons.mp hother with rfl | hmem
      · exact hcond
      · exact hbefore other hmem
    · exact ⟨cond, ⟨[], rest, rfl, by simp⟩, hcond⟩

def Entails (known : List Condition) (candidate : Condition) : Prop :=
  ∀ assignment, (∀ cond ∈ known, cond.Holds assignment) → candidate.Holds assignment

/-- The verdict on a candidate is right under every assignment that satisfies the known conditions.
-/
def Sound (known : List Condition) (candidate : Condition) : Prop :=
  ∀ assignment, (∀ cond ∈ known, cond.Holds assignment) →
    (check known candidate = .holds → candidate.Holds assignment) ∧
    (check known candidate = .fails → ¬ candidate.Holds assignment)

/-- **Soundness of verdicts.** A verdict is right, unless an upper bound settles a candidate that is
a smaller one and the other conditions do not happen to imply it. -/
theorem check_sound_iff (known : List Condition) (candidate : Condition) :
    Sound known candidate ↔
      ∀ settler, Settles known candidate settler → LooserBound settler candidate →
        Entails known candidate := by
  constructor
  · intro hsound settler hsettles hlooser assignment hknown
    refine (hsound assignment hknown).1 ?_
    rw [hsettles.check_eq]
    exact check_singleton_of_looserBound hlooser
  · intro hentails assignment hknown
    refine ⟨fun hholds => ?_, fun hfails => ?_⟩
    · obtain ⟨settler, hsettles⟩ := exists_settles (by rw [hholds]; simp)
      by_cases hlooser : LooserBound settler candidate
      · exact hentails settler hsettles hlooser assignment hknown
      · rw [hsettles.check_eq] at hholds
        exact holds_of_check_singleton hholds hlooser (hknown settler hsettles.mem)
    · obtain ⟨settler, hsettles⟩ := exists_settles (by rw [hfails]; simp)
      rw [hsettles.check_eq] at hfails
      exact not_holds_of_check_singleton hfails (hknown settler hsettles.mem)

/-- From `x <= 50` it is concluded that `x <= 40`, which fails for `x = 45`. -/
theorem not_sound_of_looser_bound :
    ¬ Sound [⟨.symbol 1, .le, .int 50⟩] ⟨.symbol 1, .le, .int 40⟩ := by
  intro hsound
  have hknown : ∀ cond ∈ [(⟨.symbol 1, .le, .int 50⟩ : Condition)],
      cond.Holds fun _ => 45 := by
    intro cond hcond
    rw [List.mem_singleton.mp hcond, holds_iff_of_bound? rfl]
    decide
  have hholds := (hsound _ hknown).1 (by decide)
  rw [holds_iff_of_bound? rfl] at hholds
  exact absurd hholds (by decide)

end Condition

end AbstractStateMachine
