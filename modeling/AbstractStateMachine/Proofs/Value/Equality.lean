import AbstractStateMachine.Value.Equality
import AbstractStateMachine.Proofs.RelatedLists

/-!
# Laws of equality

Equality of values, and of argument tuples, is symmetric and transitive in every heap. It is not
reflexive: a NaN differs from itself.
-/

namespace AbstractStateMachine

section AllPairs

variable {α : Type} {related : α → α → Bool}

theorem allPairs_iff_forall₂ {xs ys : List α} :
    allPairs related xs ys = true ↔ List.Forall₂ (fun x y => related x y = true) xs ys := by
  induction xs generalizing ys with
  | nil => cases ys <;> simp [allPairs]
  | cons x xs ih => cases ys <;> simp [allPairs, ih]

theorem allPairs_symm (hsymm : ∀ x y, related x y = true → related y x = true) (xs ys : List α)
    (h : allPairs related xs ys = true) : allPairs related ys xs = true := by
  rw [allPairs_iff_forall₂] at h ⊢
  exact (h.imp hsymm).flip

theorem allPairs_trans
    (htrans : ∀ x y z, related x y = true → related y z = true → related x z = true)
    (xs ys zs : List α) (h : allPairs related xs ys = true) (h' : allPairs related ys zs = true) :
    allPairs related xs zs = true := by
  rw [allPairs_iff_forall₂] at h h' ⊢
  exact forall₂_comp h h' htrans

theorem allPairs_refl {xs : List α} (h : ∀ x ∈ xs, related x x = true) :
    allPairs related xs xs = true :=
  allPairs_iff_forall₂.mpr (List.forall₂_same.mpr h)

theorem allPairs_congr {other : α → α → Bool} :
    ∀ xs ys : List α, (∀ x ∈ xs, ∀ y ∈ ys, related x y = other x y) →
      allPairs related xs ys = allPairs other xs ys
  | [], [], _ => rfl
  | [], _ :: _, _ => rfl
  | _ :: _, [], _ => rfl
  | x :: xs, y :: ys, h => by
      rw [allPairs, allPairs, h x List.mem_cons_self y List.mem_cons_self,
        allPairs_congr xs ys fun x hx y hy =>
          h x (List.mem_cons_of_mem _ hx) y (List.mem_cons_of_mem _ hy)]

end AllPairs

theorem Binary64.equal_symm {x y : Binary64} (h : x.equal y = true) : y.equal x = true := by
  simp only [equal, Bool.and_eq_true, beq_iff_eq] at h ⊢
  exact ⟨⟨h.1.2, h.1.1⟩, h.2.symm⟩

theorem Binary64.equal_trans {x y z : Binary64} (h : x.equal y = true) (h' : y.equal z = true) :
    x.equal z = true := by
  simp only [equal, Bool.and_eq_true, beq_iff_eq] at h h' ⊢
  exact ⟨⟨h.1.1, h'.1.2⟩, h.2.trans h'.2⟩

namespace ListHeap

variable {heap : ListHeap} {depth : Nat} {x y : Value}

def sameList (heap : ListHeap) (depth : Nat) (x y : Handle) : Bool :=
  heap.equalWithin depth (.list x) (.list y)

theorem sameList_zero_iff {x y : Handle} : heap.sameList 0 x y = true ↔ x = y := by
  show (x == y || false) = true ↔ x = y
  rw [Bool.or_false, beq_iff_eq]

theorem sameList_succ_iff {x y : Handle} :
    heap.sameList (depth + 1) x y = true ↔
      x = y ∨ allPairs (heap.equalWithin depth) (heap.toList x) (heap.toList y) = true := by
  show (x == y || allPairs (heap.equalWithin depth) (heap.toList x) (heap.toList y)) = true ↔ _
  rw [Bool.or_eq_true, beq_iff_eq]

/-- Values that are equal to themselves and to nothing else, in any heap. -/
def IsDiscrete : Value → Prop
  | .int _ | .bool _ | .str _ | .undefined | .rule _ => True
  | _ => False

section Sides

variable {heap : ListHeap} {depth : Nat} {x y : Value}

/-! The kind of the left side settles what it can be equal to. -/

theorem equalWithin_iff_eq (hx : IsDiscrete x) : heap.equalWithin depth x y = true ↔ x = y := by
  cases x with
  | int value =>
    have hflat : heap.equalWithin depth (.int value) y = (some value == y.int?) := by
      cases depth <;> cases y <;> rfl
    rw [hflat]
    cases y <;> simp [Value.int?]
  | bool value =>
    have hflat : heap.equalWithin depth (.bool value) y = (some value == y.bool?) := by
      cases depth <;> cases y <;> rfl
    rw [hflat]
    cases y <;> simp [Value.bool?]
  | str value =>
    have hflat : heap.equalWithin depth (.str value) y = (some value == y.str?) := by
      cases depth <;> cases y <;> rfl
    rw [hflat]
    cases y <;> simp [Value.str?]
  | undefined =>
    have hflat : heap.equalWithin depth .undefined y = y.isUndefined := by
      cases depth <;> cases y <;> rfl
    rw [hflat]
    cases y <;> simp [Value.isUndefined, Value.kind]
  | rule value =>
    have hflat : heap.equalWithin depth (.rule value) y = (some value == y.rule?) := by
      cases depth <;> cases y <;> rfl
    rw [hflat]
    cases y <;> simp [Value.rule?]
  | _ => exact hx.elim

theorem equalWithin_float_iff {x : Binary64} :
    heap.equalWithin depth (.float x) y = true ↔ ∃ z, .float z = y ∧ x.equal z = true := by
  have hflat : heap.equalWithin depth (.float x) y = (y.float?.map x.equal).getD false := by
    cases depth <;> cases y <;> rfl
  rw [hflat]
  cases y <;> simp [Value.float?]

theorem equalWithin_list_iff {x : Handle} :
    heap.equalWithin depth (.list x) y = true ↔
      ∃ z, .list z = y ∧ heap.sameList depth x z = true := by
  have hflat : heap.equalWithin depth (.list x) y =
      (y.list?.map (heap.sameList depth x)).getD false := by
    cases depth <;> cases y <;> rfl
  rw [hflat]
  cases y <;> simp [Value.list?]

theorem equalWithin_iff_of_symbolId? {id : Nat} (hx : x.symbolId? = some id) :
    heap.equalWithin depth x y = true ↔ some id = y.symbolId? := by
  have hflat : heap.equalWithin depth x y = (x.symbolId? == y.symbolId?) := by
    cases x <;> first | cases hx; done | (cases depth <;> cases y <;> rfl)
  rw [hflat, hx, beq_iff_eq]

end Sides

theorem equalWithin_symm_of_sameList
    (hlist : ∀ x y, heap.sameList depth x y = true → heap.sameList depth y x = true)
    (h : heap.equalWithin depth x y = true) : heap.equalWithin depth y x = true := by
  have hsymbol : ∀ id, x.symbolId? = some id → heap.equalWithin depth y x = true := by
    intro id hid
    have hy := (equalWithin_iff_of_symbolId? hid).mp h
    exact (equalWithin_iff_of_symbolId? hy.symm).mpr hid.symm
  cases x with
  | float =>
    obtain ⟨z, rfl, hz⟩ := equalWithin_float_iff.mp h
    exact equalWithin_float_iff.mpr ⟨_, rfl, Binary64.equal_symm hz⟩
  | list =>
    obtain ⟨z, rfl, hz⟩ := equalWithin_list_iff.mp h
    exact equalWithin_list_iff.mpr ⟨_, rfl, hlist _ _ hz⟩
  | symbol id => exact hsymbol id rfl
  | verdict id => exact hsymbol id rfl
  | _ =>
    obtain rfl := (equalWithin_iff_eq (by trivial)).mp h
    exact h

theorem equalWithin_trans_of_sameList
    (hlist : ∀ x y z, heap.sameList depth x y = true → heap.sameList depth y z = true →
      heap.sameList depth x z = true) {z : Value} (h : heap.equalWithin depth x y = true)
    (h' : heap.equalWithin depth y z = true) : heap.equalWithin depth x z = true := by
  have hsymbol : ∀ id, x.symbolId? = some id → heap.equalWithin depth x z = true := by
    intro id hid
    have hy := (equalWithin_iff_of_symbolId? hid).mp h
    exact (equalWithin_iff_of_symbolId? hid).mpr ((equalWithin_iff_of_symbolId? hy.symm).mp h')
  cases x with
  | float =>
    obtain ⟨_, rfl, hy⟩ := equalWithin_float_iff.mp h
    obtain ⟨_, rfl, hz⟩ := equalWithin_float_iff.mp h'
    exact equalWithin_float_iff.mpr ⟨_, rfl, Binary64.equal_trans hy hz⟩
  | list =>
    obtain ⟨_, rfl, hy⟩ := equalWithin_list_iff.mp h
    obtain ⟨_, rfl, hz⟩ := equalWithin_list_iff.mp h'
    exact equalWithin_list_iff.mpr ⟨_, rfl, hlist _ _ _ hy hz⟩
  | symbol id => exact hsymbol id rfl
  | verdict id => exact hsymbol id rfl
  | _ =>
    obtain rfl := (equalWithin_iff_eq (by trivial)).mp h
    exact h'

theorem sameList_symm (heap : ListHeap) (depth : Nat) (x y : Handle)
    (h : heap.sameList depth x y = true) : heap.sameList depth y x = true := by
  induction depth generalizing x y with
  | zero => exact sameList_zero_iff.mpr (sameList_zero_iff.mp h).symm
  | succ depth ih =>
    rcases sameList_succ_iff.mp h with rfl | hpairs
    · exact h
    · refine sameList_succ_iff.mpr (Or.inr (allPairs_symm ?_ _ _ hpairs))
      exact fun _ _ => equalWithin_symm_of_sameList ih

theorem sameList_trans (heap : ListHeap) (depth : Nat) (x y z : Handle)
    (h : heap.sameList depth x y = true) (h' : heap.sameList depth y z = true) :
    heap.sameList depth x z = true := by
  induction depth generalizing x y z with
  | zero => exact sameList_zero_iff.mpr ((sameList_zero_iff.mp h).trans (sameList_zero_iff.mp h'))
  | succ depth ih =>
    rcases sameList_succ_iff.mp h with rfl | hpairs
    · exact h'
    · rcases sameList_succ_iff.mp h' with rfl | hpairs'
      · exact h
      · refine sameList_succ_iff.mpr (Or.inr (allPairs_trans ?_ _ _ _ hpairs hpairs'))
        exact fun _ _ _ => equalWithin_trans_of_sameList ih

theorem equal_symm (h : heap.equal x y = true) : heap.equal y x = true :=
  equalWithin_symm_of_sameList (sameList_symm heap _) h

theorem equal_trans {z : Value} (h : heap.equal x y = true) (h' : heap.equal y z = true) :
    heap.equal x z = true :=
  equalWithin_trans_of_sameList (sameList_trans heap _) h h'

theorem sameArgs_symm {xs ys : List Value} (h : heap.sameArgs xs ys = true) :
    heap.sameArgs ys xs = true :=
  allPairs_symm (fun _ _ => equal_symm) xs ys h

theorem sameArgs_trans {xs ys zs : List Value} (h : heap.sameArgs xs ys = true)
    (h' : heap.sameArgs ys zs = true) : heap.sameArgs xs zs = true :=
  allPairs_trans (fun x y z => @equal_trans heap x y z) xs ys zs h h'

theorem equal_int_iff {x y : Int64} : heap.equal (.int x) (.int y) = true ↔ x = y := by
  rw [equal, equalWithin_iff_eq (by trivial), Value.int.injEq]

end ListHeap

end AbstractStateMachine
