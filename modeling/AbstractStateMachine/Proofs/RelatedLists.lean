import Mathlib.Data.List.Forall2

/-!
# Lists related by position

Lists that a relation of their elements relates position by position, as the values of two machines
in the same places are.
-/

namespace AbstractStateMachine

variable {α β γ : Type} {R : α → β → Prop} {xs : List α} {ys : List β}

theorem exists_forall₂ (h : ∀ x ∈ xs, ∃ y, R x y) : ∃ ys, List.Forall₂ R xs ys := by
  induction xs with
  | nil => exact ⟨[], .nil⟩
  | cons x xs ih =>
    obtain ⟨⟨y, hy⟩, hxs⟩ := List.forall_mem_cons.mp h
    obtain ⟨ys, hys⟩ := ih hxs
    exact ⟨y :: ys, .cons hy hys⟩

theorem map_eq_map_of_forall₂ {f : α → γ} {g : β → γ}
    (h : List.Forall₂ (fun x y => f x = g y) xs ys) : xs.map f = ys.map g := by
  rw [← List.forall₂_eq_eq_eq, List.forall₂_map_left_iff, List.forall₂_map_right_iff]
  exact h

variable (h : List.Forall₂ R xs ys)
include h

/-! ### Elements -/

theorem exists_mem_of_forall₂ {x : α} (hx : x ∈ xs) : ∃ y ∈ ys, R x y := by
  induction h with
  | nil => cases hx
  | @cons _ y _ _ hxy _ ih =>
    rcases List.mem_cons.mp hx with rfl | hrest
    · exact ⟨y, List.mem_cons_self, hxy⟩
    · obtain ⟨y, hy, hxy⟩ := ih hrest
      exact ⟨y, List.mem_cons_of_mem _ hy, hxy⟩

theorem forall₂_imp_of_mem {S : α → β → Prop} (himp : ∀ x ∈ xs, ∀ y ∈ ys, R x y → S x y) :
    List.Forall₂ S xs ys :=
  List.forall₂_iff_zip.mpr ⟨h.length_eq, fun hmem =>
    himp _ (List.of_mem_zip hmem).1 _ (List.of_mem_zip hmem).2 (List.forall₂_zip h hmem)⟩

theorem pairwise_of_forall₂ {S : α → α → Prop} {T : β → β → Prop} (hys : ys.Pairwise T)
    (himp : ∀ x y x' y', R x y → R x' y' → T y y' → S x x') : xs.Pairwise S := by
  induction h with
  | nil => exact .nil
  | @cons x y xs ys hxy hrest ih =>
    obtain ⟨hfirst, hpairwise⟩ := List.pairwise_cons.mp hys
    refine List.pairwise_cons.mpr ⟨fun x' hx' => ?_, ih hpairwise⟩
    obtain ⟨y', hy', hx'y'⟩ := exists_mem_of_forall₂ hrest hx'
    exact himp x y x' y' hxy hx'y' (hfirst y' hy')

theorem rel_getElem? (index : Nat) : Option.Rel R xs[index]? ys[index]? := by
  induction h generalizing index with
  | nil => exact .none
  | cons hxy _ ih =>
    cases index with
    | zero => exact .some hxy
    | succ index => exact ih index

theorem forall₂_set {x : α} {y : β} (hxy : R x y) (index : Nat) :
    List.Forall₂ R (xs.set index x) (ys.set index y) := by
  induction h generalizing index with
  | nil => exact .nil
  | cons hfirst hrest ih =>
    cases index with
    | zero => exact .cons hxy hrest
    | succ index => exact .cons hfirst (ih index)

theorem rel_find? {hit : α → Bool} {hit' : β → Bool} (hhit : ∀ x y, R x y → hit' y = hit x) :
    Option.Rel R (xs.find? hit) (ys.find? hit') := by
  induction h with
  | nil => exact .none
  | @cons x y _ _ hxy _ ih =>
    rw [List.find?_cons, List.find?_cons, hhit x y hxy]
    cases hit x with
    | true => exact .some hxy
    | false => exact ih

/-! ### Related lists -/

theorem exists_forall₂_of_mem {P : α → γ → Prop} {Q : β → γ → Prop}
    (hstep : ∀ x ∈ xs, ∀ y, R x y → ∃ z, P x z ∧ Q y z) :
    ∃ zs, List.Forall₂ P xs zs ∧ List.Forall₂ Q ys zs := by
  induction h with
  | nil => exact ⟨[], .nil, .nil⟩
  | @cons x y xs ys hxy _ ih =>
    obtain ⟨hhead, htail⟩ := List.forall_mem_cons.mp hstep
    obtain ⟨z, hxz, hyz⟩ := hhead y hxy
    obtain ⟨zs, hxs, hys⟩ := ih htail
    exact ⟨z :: zs, .cons hxz hxs, .cons hyz hys⟩

theorem forall₂_comp {S : β → γ → Prop} {T : α → γ → Prop} {zs : List γ}
    (h' : List.Forall₂ S ys zs) (hcomp : ∀ x y z, R x y → S y z → T x z) :
    List.Forall₂ T xs zs := by
  induction h generalizing zs with
  | nil =>
    cases h'
    exact .nil
  | cons hxy _ ih =>
    cases h' with
    | cons hyz hrest => exact .cons (hcomp _ _ _ hxy hyz) (ih hrest)

theorem forall₂_right {S : β → β → Prop} (hself : ∀ x y, R x y → S y y) :
    List.Forall₂ S ys ys := by
  refine List.forall₂_same.mpr fun y hy => ?_
  obtain ⟨x, -, hxy⟩ := exists_mem_of_forall₂ h.flip hy
  exact hself x y hxy

theorem forall₂_unique {others : List β} (h' : List.Forall₂ R xs others)
    (hunique : ∀ y ∈ ys, ∀ x other, R x y → R x other → other = y) : others = ys := by
  have hmem : List.Forall₂ (fun x y => y ∈ ys ∧ R x y) xs ys :=
    forall₂_imp_of_mem h fun _ _ _ hy hxy => ⟨hy, hxy⟩
  rw [← List.forall₂_eq_eq_eq]
  exact forall₂_comp h'.flip hmem fun other x y hother hxy => hunique y hxy.1 x other hxy.2 hother

end AbstractStateMachine
