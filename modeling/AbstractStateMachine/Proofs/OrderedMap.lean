import AbstractStateMachine.OrderedMap
import AbstractStateMachine.Proofs.RelatedLists
import Mathlib.Data.List.Nodup

/-!
# Entries of ordered maps

A map whose keys are distinct holds exactly the entries that lookups find, and insertion keeps the
keys distinct.
-/

namespace AbstractStateMachine

namespace OrderedMap

variable {κ ν : Type} [DecidableEq κ] {map : OrderedMap κ ν} {key : κ} {value : ν}

theorem get?_cons (known : κ) (rest : List (κ × ν)) :
    get? ⟨(known, value) :: rest⟩ key = if key = known then some value else get? ⟨rest⟩ key := by
  rw [get?, List.lookup_cons]
  by_cases hkey : key = known
  · rw [if_pos hkey, beq_iff_eq.mpr hkey]
  · rw [if_neg hkey, beq_false_of_ne hkey]
    rfl

theorem get?_eq_none_iff : map.get? key = none ↔ key ∉ map.keys := by
  rw [get?, List.lookup_eq_none_iff]
  simp only [keys, List.mem_map, not_exists, not_and, bne_iff_ne, ne_eq]
  exact forall₂_congr fun entry _ => not_congr eq_comm

theorem mem_entries_of_get? (h : map.get? key = some value) : (key, value) ∈ map.entries := by
  obtain ⟨before, after, hentries, -⟩ := List.lookup_eq_some_iff.mp h
  rw [hentries]
  exact List.mem_append_right _ List.mem_cons_self

theorem mem_values_of_get? (h : map.get? key = some value) : value ∈ map.values :=
  List.mem_map_of_mem (mem_entries_of_get? h)

theorem get?_of_mem_entries (hnodup : map.keys.Nodup) (h : (key, value) ∈ map.entries) :
    map.get? key = some value := by
  cases hfound : map.get? key with
  | none => exact absurd (List.mem_map_of_mem h) (get?_eq_none_iff.mp hfound)
  | some found =>
    have hmem := mem_entries_of_get? hfound
    have hentry := List.inj_on_of_nodup_map hnodup hmem h rfl
    rw [(Prod.mk.inj hentry).2]

theorem nodup_keys_insert (hnodup : map.keys.Nodup) : (map.insert key value).keys.Nodup := by
  rw [keys_insert]
  split
  · exact hnodup
  · next hnew =>
      exact List.nodup_append.mpr ⟨hnodup, List.nodup_singleton key, by
        rintro x hx y hy rfl
        exact hnew (List.mem_singleton.mp hy ▸ hx)⟩

theorem mem_keys_insert {probe : κ} :
    probe ∈ (map.insert key value).keys ↔ probe = key ∨ probe ∈ map.keys := by
  rw [keys_insert]
  split
  · next hmem => exact ⟨Or.inr, fun h => h.elim (fun heq => heq ▸ hmem) id⟩
  · rw [List.mem_append, List.mem_singleton, or_comm]

theorem entries_insert_of_get?_eq_none (h : map.get? key = none) :
    (map.insert key value).entries = map.entries ++ [(key, value)] := by
  have hnew := get?_eq_none_iff.mp h
  obtain ⟨entries⟩ := map
  simp only [insert, keys] at hnew ⊢
  induction entries with
  | nil => rfl
  | cons entry rest ih =>
    rw [List.map_cons, List.mem_cons, not_or] at hnew
    rw [insertEntry, if_neg (Ne.symm hnew.1), ih (by simp [get?_eq_none_iff, keys, hnew.2]) hnew.2,
      List.cons_append]

theorem mem_values_insert {probe : ν} (h : probe ∈ (map.insert key value).values) :
    probe = value ∨ probe ∈ map.values := by
  obtain ⟨entries⟩ := map
  simp only [insert, values] at h ⊢
  induction entries with
  | nil => exact Or.inl (by simpa [insertEntry] using h)
  | cons entry rest ih =>
    rw [insertEntry] at h
    split at h <;> rcases List.mem_cons.mp h with rfl | hrest
    · exact Or.inl rfl
    · exact Or.inr (List.mem_cons_of_mem _ hrest)
    · exact Or.inr List.mem_cons_self
    · exact (ih hrest).imp_right (List.mem_cons_of_mem _)

theorem filter_entries_eq (key : κ) (hnodup : map.keys.Nodup) {selects : κ × ν → Bool}
    (hselects : ∀ entry ∈ map.entries, selects entry = true ↔ entry.1 = key) :
    map.entries.filter selects = ((map.get? key).map fun value => (key, value)).toList := by
  obtain ⟨entries⟩ := map
  simp only [keys, get?] at hnodup hselects ⊢
  induction entries with
  | nil => rfl
  | cons entry rest ih =>
    obtain ⟨known, value⟩ := entry
    obtain ⟨hnew, hrest⟩ := List.nodup_cons.mp hnodup
    obtain ⟨hentry, hothers⟩ := List.forall_mem_cons.mp hselects
    by_cases hkey : known = key
    · subst hkey
      have hnone : rest.filter selects = [] := by
        refine List.filter_eq_nil_iff.mpr fun other hother hselected => hnew ?_
        exact List.mem_map.mpr ⟨other, hother, (hothers other hother).mp hselected⟩
      rw [List.filter_cons_of_pos (hentry.mpr rfl), hnone, List.lookup_cons, beq_self_eq_true]
      rfl
    · rw [List.filter_cons_of_neg fun h => hkey (hentry.mp h), ih hrest hothers,
        List.lookup_cons, beq_false_of_ne (Ne.symm hkey)]

def mapValues {μ : Type} (map : OrderedMap κ ν) (change : ν → μ) : OrderedMap κ μ :=
  ⟨map.entries.map fun entry => (entry.1, change entry.2)⟩

section MapValues

variable {μ : Type} {change : ν → μ}

omit [DecidableEq κ] in
theorem values_mapValues : (map.mapValues change).values = map.values.map change := by
  simp [mapValues, values]

theorem get?_mapValues : (map.mapValues change).get? key = (map.get? key).map change := by
  obtain ⟨entries⟩ := map
  unfold mapValues get?
  induction entries with
  | nil => rfl
  | cons entry rest ih =>
    rw [List.map_cons, List.lookup_cons, List.lookup_cons]
    cases key == entry.1 with
    | true => rfl
    | false => exact ih

theorem mapValues_insert :
    (map.insert key value).mapValues change = (map.mapValues change).insert key (change value) := by
  obtain ⟨entries⟩ := map
  unfold mapValues insert
  congr 1
  induction entries with
  | nil => rfl
  | cons entry rest ih =>
    simp only [insertEntry, List.map_cons]
    split
    · rfl
    · rw [List.map_cons, ih]

end MapValues

/-- The maps have the same keys in the same order and related values. -/
def Related {μ : Type} (R : ν → μ → Prop) (map : OrderedMap κ ν) (other : OrderedMap κ μ) : Prop :=
  List.Forall₂ (fun entry entry' => entry.1 = entry'.1 ∧ R entry.2 entry'.2) map.entries other.entries

section Related

variable {μ : Type} {R : ν → μ → Prop} {other : OrderedMap κ μ} {image : μ}

omit [DecidableEq κ] in
theorem related_empty : Related R (.empty : OrderedMap κ ν) .empty := .nil

omit [DecidableEq κ] in
theorem Related.imp {S : ν → μ → Prop} (h : Related R map other) (himp : ∀ a b, R a b → S a b) :
    Related S map other :=
  List.Forall₂.imp (fun _ _ hentry => ⟨hentry.1, himp _ _ hentry.2⟩) h

omit [DecidableEq κ] in
theorem Related.imp_of_mem {S : ν → μ → Prop} (h : Related R map other)
    (himp : ∀ a ∈ map.values, ∀ b, R a b → S a b) : Related S map other :=
  forall₂_imp_of_mem h fun entry hentry _ _ hrelated =>
    ⟨hrelated.1, himp entry.2 (List.mem_map_of_mem hentry) _ hrelated.2⟩

omit [DecidableEq κ] in
theorem Related.values (h : Related R map other) : List.Forall₂ R map.values other.values :=
  List.forall₂_map_left_iff.mpr (List.forall₂_map_right_iff.mpr
    (List.Forall₂.imp (fun _ _ => And.right) h))

omit [DecidableEq κ] in
theorem Related.isEmpty_eq (h : Related R map other) : other.isEmpty = map.isEmpty := by
  obtain ⟨entries⟩ := map
  obtain ⟨entries'⟩ := other
  cases h with
  | nil => rfl
  | cons _ _ => rfl

theorem Related.get? (h : Related R map other) (key : κ) :
    Option.Rel R (map.get? key) (other.get? key) := by
  obtain ⟨entries⟩ := map
  obtain ⟨entries'⟩ := other
  unfold OrderedMap.get?
  dsimp only [Related] at h ⊢
  induction h with
  | nil => exact .none
  | @cons entry entry' _ _ hentry _ ih =>
    rw [List.lookup_cons, List.lookup_cons, hentry.1]
    cases key == entry'.1 with
    | true => exact .some hentry.2
    | false => exact ih

theorem Related.insert (h : Related R map other) (key : κ) (hvalue : R value image) :
    Related R (map.insert key value) (other.insert key image) := by
  obtain ⟨entries⟩ := map
  obtain ⟨entries'⟩ := other
  unfold OrderedMap.insert
  dsimp only [Related] at h ⊢
  induction h with
  | nil => exact .cons ⟨rfl, hvalue⟩ .nil
  | @cons entry entry' _ _ hentry hrest ih =>
    rw [insertEntry, insertEntry, hentry.1]
    split
    · exact .cons ⟨rfl, hvalue⟩ hrest
    · exact .cons ⟨rfl, hentry.2⟩ ih

end Related

end OrderedMap

end AbstractStateMachine
