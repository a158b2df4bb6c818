import AbstractStateMachine.Operation
import AbstractStateMachine.Proofs.Value.Equality
import Mathlib.Logic.ExistsUnique

/-!
# Laws of integer operators

Every operator has a value on every pair of integers. Sums, differences and products are exact up to
a multiple of `2 ^ 64`. Quotients and remainders are missing for the divisor zero only, and
otherwise determine the dividend, also where the exact quotient is out of range. A power is exact or
missing. `satisfies_integer_laws` says all of this about operators as they are applied to values.
-/

namespace AbstractStateMachine

namespace Integer

variable {n base : Int} {r x y : Int64} {power : Nat}

theorem inRange_iff : inRange n = true ↔ -9223372036854775808 ≤ n ∧ n ≤ 9223372036854775807 := by
  have hmin : Int64.minValue.toInt = -9223372036854775808 := by decide
  have hmax : Int64.maxValue.toInt = 9223372036854775807 := by decide
  rw [inRange, Bool.and_eq_true, decide_eq_true_iff, decide_eq_true_iff, hmin, hmax]

theorem inRange_toInt (x : Int64) : inRange x.toInt = true := by
  apply inRange_iff.mpr
  have hlow := x.le_toInt
  have hhigh := x.toInt_lt
  omega

theorem toInt_ofInt_of_inRange (h : inRange n = true) : (Int64.ofInt n).toInt = n := by
  obtain ⟨hlow, hhigh⟩ := Bool.and_eq_true_iff.mp h
  exact Int64.toInt_ofInt_of_le (of_decide_eq_true hlow)
    (Int.lt_of_le_of_lt (of_decide_eq_true hhigh) (by decide))

theorem ofInt?_eq_some_iff : ofInt? n = some r ↔ r.toInt = n := by
  unfold ofInt?
  split
  · next hfits =>
      rw [Option.some.injEq, ← Int64.toInt_inj, toInt_ofInt_of_inRange hfits]
      exact eq_comm
  · next hfits =>
      refine iff_of_false nofun ?_
      rintro rfl
      exact hfits (inRange_toInt r)

/-! ### Wrapping around -/

/-- An integer of the right size that stands for an exact result. -/
def Wraps (exact : Int) (result : Int64) : Prop :=
  -9223372036854775808 ≤ result.toInt ∧ result.toInt ≤ 9223372036854775807 ∧
    (18446744073709551616 : Int) ∣ exact - result.toInt

theorem wraps_of_toInt_eq_bmod {exact : Int} {result : Int64}
    (h : result.toInt = exact.bmod 18446744073709551616) : Wraps exact result := by
  obtain ⟨hlow, hhigh⟩ := inRange_iff.mp (inRange_toInt result)
  refine ⟨hlow, hhigh, ?_⟩
  rw [h]
  exact Int.dvd_self_sub_bmod

/-! ### Division -/

/-- Quotient and remainder determine the dividend. For the one pair whose exact quotient is out of
range, both sides wrap around. -/
theorem div_mul_add_mod (x y : Int64) : x / y * y + x % y = x := by
  apply Int64.toInt_inj.mp
  calc (x / y * y + x % y).toInt
      = (x.toInt.tdiv y.toInt * y.toInt + x.toInt.tmod y.toInt).bmod (2 ^ 64) := by
        rw [Int64.toInt_add, Int64.toInt_mul, Int64.toInt_div, Int64.toInt_mod, Int.bmod_add_bmod,
          Int.add_bmod, Int.bmod_mul_bmod, ← Int.add_bmod]
    _ = x.toInt.bmod (2 ^ 64) := by rw [Int.tdiv_mul_add_tmod]
    _ = x.toInt := Int64.toInt_bmod x

theorem natAbs_mod_lt (hy : y ≠ 0) : (x % y).toInt.natAbs < y.toInt.natAbs := by
  rw [Int64.toInt_mod, Int.natAbs_tmod]
  apply Nat.mod_lt
  apply Int.natAbs_pos.mpr
  exact fun hzero => hy (Int64.toInt_inj.mp hzero)

theorem mod_eq_zero_or_sign_eq (x y : Int64) : x % y = 0 ∨ (x % y).toInt.sign = x.toInt.sign := by
  have hsign := Int.sign_tmod x.toInt y.toInt
  rw [← Int64.toInt_mod] at hsign
  split at hsign
  · exact .inl (Int64.toInt_inj.mp (Int.sign_eq_zero_iff_zero.mp hsign))
  · exact .inr hsign

/-! ### Powers -/

def IsPower (base power result : Int64) : Prop :=
  0 ≤ power.toInt ∧ power.toInt < 4294967296 ∧
    result.toInt = Int.pow base.toInt power.toInt.toNat

/-- No power beyond the sixty-fourth is in range, if the base has an absolute value of at least
two. -/
theorem pow_ne_toInt (hbase : 2 ≤ base.natAbs) (hpower : 64 < power) (r : Int64) :
    r.toInt ≠ Int.pow base power := by
  intro heq
  obtain ⟨hlow, hhigh⟩ := inRange_iff.mp (inRange_toInt r)
  have hlarge : 2 ^ 64 ≤ (Int.pow base power).natAbs :=
    calc 2 ^ 64 ≤ 2 ^ power := Nat.pow_le_pow_right (by decide) (Nat.le_of_lt hpower)
      _ ≤ base.natAbs ^ power := Nat.pow_le_pow_left hbase power
      _ = (Int.pow base power).natAbs := (Int.natAbs_pow base power).symm
  omega

theorem pow_zero_base (power : Nat) : Int.pow 0 power = if power == 0 then 1 else 0 := by
  cases power with
  | zero => rfl
  | succ power => exact Int.zero_pow (Nat.succ_ne_zero power)

theorem pow_one_base (power : Nat) : Int.pow 1 power = 1 := Int.one_pow

theorem pow_neg_one_base (power : Nat) :
    Int.pow (-1) power = if power % 2 == 0 then 1 else -1 := by
  induction power with
  | zero => rfl
  | succ power ih =>
    have hstep : Int.pow (-1) (power + 1) = Int.pow (-1) power * -1 := Int.pow_succ (-1) power
    rw [hstep, ih]
    rcases Nat.mod_two_eq_zero_or_one power with heven | hodd
    · simp [heven, Nat.add_mod]
    · simp [hodd, Nat.add_mod]

theorem eq_pow_of_powExact? (h : powExact? base power = some n) : n = Int.pow base power := by
  simp only [powExact?, beq_iff_eq] at h
  split at h
  · next hbase =>
      cases h
      simp only [hbase, pow_zero_base, beq_iff_eq]
  · split at h
    · next hbase =>
        cases h
        rw [hbase, pow_one_base]
    · split at h
      · next hbase =>
          cases h
          simp only [hbase, pow_neg_one_base, beq_iff_eq]
      · split at h <;> cases h
        rfl

theorem large_of_powExact?_eq_none (h : powExact? base power = none) :
    2 ≤ base.natAbs ∧ 64 < power := by
  unfold powExact? at h
  grind

/-- The short cycles are exact, and a power that is not computed is out of range. -/
theorem powExact?_bind_eq_some_iff :
    (powExact? base power).bind ofInt? = some r ↔ r.toInt = Int.pow base power := by
  cases hexact : powExact? base power with
  | some n =>
    rw [← eq_pow_of_powExact? hexact]
    exact ofInt?_eq_some_iff
  | none =>
    obtain ⟨hbase, hpower⟩ := large_of_powExact?_eq_none hexact
    exact iff_of_false nofun (pow_ne_toInt hbase hpower r)

theorem pow?_eq_some_iff {base power : Int64} :
    pow? base power = some r ↔ IsPower base power r := by
  unfold pow? IsPower
  simp only [Bool.and_eq_true, decide_eq_true_eq]
  split
  · next hpower =>
      rw [powExact?_bind_eq_some_iff]
      exact ⟨fun h => ⟨hpower.1, hpower.2, h⟩, fun h => h.2.2⟩
  · next hpower => exact iff_of_false nofun fun h => hpower ⟨h.1, h.2.1⟩

end Integer

namespace Operation

open Integer

/-- What the operators and the power give on two integers. -/
structure IntegerLaws (heap : ListHeap) (lease : Lease) (x y : Int64) : Prop where
  sum : ∃ r, binary heap .add (.int x) (.int y) = .ok (.int r) ∧ Wraps (x.toInt + y.toInt) r
  difference : ∃ r, binary heap .sub (.int x) (.int y) = .ok (.int r) ∧ Wraps (x.toInt - y.toInt) r
  product : ∃ r, binary heap .mul (.int x) (.int y) = .ok (.int r) ∧ Wraps (x.toInt * y.toInt) r
  division_by_zero : y = 0 →
    binary heap .div (.int x) (.int y) = .ok .undefined ∧
      binary heap .mod (.int x) (.int y) = .ok .undefined
  division : y ≠ 0 → ∃ q r p,
    binary heap .div (.int x) (.int y) = .ok (.int q) ∧
      binary heap .mod (.int x) (.int y) = .ok (.int r) ∧
      binary heap .mul (.int q) (.int y) = .ok (.int p) ∧
      binary heap .add (.int p) (.int r) = .ok (.int x) ∧
      r.toInt.natAbs < y.toInt.natAbs ∧ (r = 0 ∨ r.toInt.sign = x.toInt.sign)
  power : ∀ r, IsPower x y r → builtin heap lease .pow [.int x, .int y] = .ok (.int r, heap)
  no_power : (∀ r, ¬IsPower x y r) →
    builtin heap lease .pow [.int x, .int y] = .ok (.undefined, heap)
  trichotomy : ∃! op, op ∈ [BinaryOp.lt, .eq, .gt] ∧
    binary heap op (.int x) (.int y) = .ok (.bool true)
  equal : binary heap .eq (.int x) (.int y) = .ok (.bool (decide (x.toInt = y.toInt)))
  less : binary heap .lt (.int x) (.int y) = .ok (.bool (decide (x.toInt < y.toInt)))
  greater : binary heap .gt (.int x) (.int y) = .ok (.bool (decide (y.toInt < x.toInt)))
  at_most : ∃ b, binary heap .gt (.int x) (.int y) = .ok (.bool b) ∧
    binary heap .le (.int x) (.int y) = .ok (.bool !b)
  at_least : ∃ b, binary heap .lt (.int x) (.int y) = .ok (.bool b) ∧
    binary heap .ge (.int x) (.int y) = .ok (.bool !b)

variable (heap : ListHeap) (lease : Lease) (x y : Int64)

theorem binary_division {y : Int64} (hy : y ≠ 0) :
    binary heap .div (.int x) (.int y) = .ok (.int (x / y)) ∧
      binary heap .mod (.int x) (.int y) = .ok (.int (x % y)) := by
  have hdiv : integerArithmetic .div x y = some (.int (x / y)) := congrArg some (if_neg hy)
  have hmod : integerArithmetic .mod x y = some (.int (x % y)) := congrArg some (if_neg hy)
  constructor
  · change arithmetic .div (.int x) (.int y) = _
    simp only [arithmetic, hdiv]
  · change arithmetic .mod (.int x) (.int y) = _
    simp only [arithmetic, hmod]

theorem builtin_pow_of_isPower {r : Int64} (h : IsPower x y r) :
    builtin heap lease .pow [.int x, .int y] = .ok (.int r, heap) := by
  change Except.ok (optionalInt (pow? x y), heap) = _
  rw [pow?_eq_some_iff.mpr h]
  rfl

theorem builtin_pow_of_not_isPower (h : ∀ r, ¬IsPower x y r) :
    builtin heap lease .pow [.int x, .int y] = .ok (.undefined, heap) := by
  have hnone : pow? x y = none :=
    Option.eq_none_iff_forall_ne_some.mpr fun r hr => h r (pow?_eq_some_iff.mp hr)
  change Except.ok (optionalInt (pow? x y), heap) = _
  rw [hnone]
  rfl

theorem compare_cases :
    compare x y = .lt ∧ x.toInt < y.toInt ∨ compare x y = .eq ∧ x = y ∨
      compare x y = .gt ∧ y.toInt < x.toInt := by
  change compareOfLessAndEq x y = .lt ∧ _ ∨ compareOfLessAndEq x y = .eq ∧ _ ∨
    compareOfLessAndEq x y = .gt ∧ _
  unfold compareOfLessAndEq
  split
  · next hless => exact .inl ⟨rfl, Int64.lt_iff_toInt_lt.mp hless⟩
  · next hless =>
      rw [Int64.lt_iff_toInt_lt] at hless
      split
      · next heq => exact .inr (.inl ⟨rfl, heq⟩)
      · next hne =>
          rw [← Int64.toInt_inj] at hne
          exact .inr (.inr ⟨rfl, by omega⟩)

theorem binary_lt :
    binary heap .lt (.int x) (.int y) = .ok (.bool (decide (x.toInt < y.toInt))) := by
  change Except.ok (Value.bool (compare x y).isLT) = _
  rcases compare_cases x y with ⟨hcompare, hless⟩ | ⟨hcompare, rfl⟩ | ⟨hcompare, hless⟩
  · rw [hcompare, decide_eq_true hless]
    rfl
  · rw [hcompare, decide_eq_false (Int.lt_irrefl _)]
    rfl
  · rw [hcompare, decide_eq_false (Int.lt_asymm hless)]
    rfl

theorem binary_gt :
    binary heap .gt (.int x) (.int y) = .ok (.bool (decide (y.toInt < x.toInt))) := by
  change Except.ok (Value.bool (compare x y).isGT) = _
  rcases compare_cases x y with ⟨hcompare, hless⟩ | ⟨hcompare, rfl⟩ | ⟨hcompare, hless⟩
  · rw [hcompare, decide_eq_false (Int.lt_asymm hless)]
    rfl
  · rw [hcompare, decide_eq_false (Int.lt_irrefl _)]
    rfl
  · rw [hcompare, decide_eq_true hless]
    rfl

theorem binary_eq :
    binary heap .eq (.int x) (.int y) = .ok (.bool (decide (x.toInt = y.toInt))) := by
  have hequal : heap.equal (.int x) (.int y) = decide (x.toInt = y.toInt) := by
    rw [Bool.eq_iff_iff, ListHeap.equal_int_iff, decide_eq_true_iff, Int64.toInt_inj]
  change Except.ok (Value.bool (heap.equal (.int x) (.int y))) = _
  rw [hequal]

theorem existsUnique_comparison :
    ∃! op, op ∈ [BinaryOp.lt, .eq, .gt] ∧ binary heap op (.int x) (.int y) = .ok (.bool true) := by
  have hlt := binary_lt heap x y
  have hgt := binary_gt heap x y
  have heq := binary_eq heap x y
  rcases Int.lt_trichotomy x.toInt y.toInt with h | h | h
  · refine ⟨.lt, ?_, ?_⟩ <;> grind
  · refine ⟨.eq, ?_, ?_⟩ <;> grind
  · refine ⟨.gt, ?_, ?_⟩ <;> grind

/-- The laws hold for all pairs of integers, in every heap. -/
theorem satisfies_integer_laws : IntegerLaws heap lease x y where
  sum := ⟨x + y, rfl, wraps_of_toInt_eq_bmod (Int64.toInt_add x y)⟩
  difference := ⟨x - y, rfl, wraps_of_toInt_eq_bmod (Int64.toInt_sub x y)⟩
  product := ⟨x * y, rfl, wraps_of_toInt_eq_bmod (Int64.toInt_mul x y)⟩
  division_by_zero := by
    rintro rfl
    exact ⟨rfl, rfl⟩
  division := by
    intro hy
    obtain ⟨hdiv, hmod⟩ := binary_division heap x hy
    refine ⟨x / y, x % y, x / y * y, hdiv, hmod, rfl, ?_, natAbs_mod_lt hy,
      mod_eq_zero_or_sign_eq x y⟩
    exact congrArg (fun r => Except.ok (Value.int r)) (div_mul_add_mod x y)
  power := fun r => builtin_pow_of_isPower heap lease x y
  no_power := builtin_pow_of_not_isPower heap lease x y
  trichotomy := existsUnique_comparison heap x y
  equal := binary_eq heap x y
  less := binary_lt heap x y
  greater := binary_gt heap x y
  at_most := by
    refine ⟨(compare x y).isGT, rfl, ?_⟩
    change Except.ok (Value.bool (compare x y).isLE) = _
    cases compare x y <;> rfl
  at_least := by
    refine ⟨(compare x y).isLT, rfl, ?_⟩
    change Except.ok (Value.bool (compare x y).isGE) = _
    cases compare x y <;> rfl

end Operation

end AbstractStateMachine
