import AbstractStateMachine.Location.Interpretation
import AbstractStateMachine.Proofs.OrderedMap
import AbstractStateMachine.Proofs.Value.Equality

/-!
# Locations added to a state

A state looks a location up in the bucket of its key. Storing a value where none is found adds a
location at the end of one bucket, and what was found before is still found.
-/

namespace AbstractStateMachine

namespace Bucket

variable {heap : ListHeap} {bucket extra : Bucket} {args : List Value} {value : Value}

theorem get?_append : Bucket.get? heap (bucket ++ extra) args =
    (Bucket.get? heap bucket args).or (Bucket.get? heap extra args) := by
  unfold get?
  rw [List.find?_append]
  cases bucket.find? fun location => heap.sameArgs location.args args <;> rfl

theorem exists_of_get? (h : Bucket.get? heap bucket args = some value) :
    ∃ location ∈ bucket, location.value = value := by
  obtain ⟨location, hlocation, rfl⟩ := Option.map_eq_some_iff.mp h
  exact ⟨location, List.mem_of_find?_eq_some hlocation, rfl⟩

theorem set_of_get?_eq_none (h : Bucket.get? heap bucket args = none) :
    Bucket.set heap args value bucket = bucket ++ [⟨args, value⟩] := by
  induction bucket with
  | nil => rfl
  | cons location rest ih =>
    rw [get?, Option.map_eq_none_iff, List.find?_cons] at h
    split at h
    · cases h
    · next hother =>
        rw [Bucket.set, if_neg (by simpa using hother), List.cons_append, ih]
        rw [get?, h]
        rfl

theorem set_cases (heap : ListHeap) (bucket : Bucket) (args : List Value) (value : Value) :
    Bucket.set heap args value bucket = bucket ++ [⟨args, value⟩] ∨
      ∃ before location after, bucket = before ++ location :: after ∧
        heap.sameArgs location.args args = true ∧
        Bucket.set heap args value bucket = before ++ { location with value } :: after := by
  induction bucket with
  | nil => exact .inl rfl
  | cons first rest ih =>
    rw [Bucket.set]
    split
    · next hsame => exact .inr ⟨[], first, rest, rfl, hsame, rfl⟩
    · rcases ih with hnew | ⟨before, location, after, hbucket, hsame, hset⟩
      · exact .inl (by rw [hnew, List.cons_append])
      · exact .inr ⟨first :: before, location, after, by rw [hbucket, List.cons_append], hsame,
          by rw [hset, List.cons_append]⟩

theorem value_eq_of_set_eq_singleton {location : StoredLocation}
    (h : Bucket.set heap args value bucket = [location]) : location.value = value := by
  rcases set_cases heap bucket args value with hset | ⟨before, found, after, -, -, hset⟩ <;>
    rw [hset] at h
  · cases bucket with
    | nil =>
      cases h
      rfl
    | cons first rest => simp at h
  · cases before with
    | nil =>
      cases h
      rfl
    | cons first rest => simp at h

theorem exists_mem_set {location : StoredLocation} (hlocation : location ∈ bucket) :
    ∃ later ∈ Bucket.set heap args value bucket, later.args = location.args := by
  rcases set_cases heap bucket args value with hset | ⟨before, found, after, rfl, -, hset⟩ <;>
    rw [hset]
  · exact ⟨location, List.mem_append_left _ hlocation, rfl⟩
  · rcases List.mem_append.mp hlocation with hbefore | hrest
    · exact ⟨location, List.mem_append_left _ hbefore, rfl⟩
    rcases List.mem_cons.mp hrest with rfl | hafter
    · exact ⟨_, List.mem_append_right _ List.mem_cons_self, rfl⟩
    · exact ⟨location, List.mem_append_right _ (List.mem_cons_of_mem _ hafter), rfl⟩

theorem length_le_length_set : bucket.length ≤ (Bucket.set heap args value bucket).length := by
  rcases set_cases heap bucket args value with hset | ⟨before, found, after, rfl, -, hset⟩ <;>
    rw [hset] <;> simp

theorem get?_cons (location : StoredLocation) : Bucket.get? heap (location :: bucket) args =
    if heap.sameArgs location.args args then some location.value
    else Bucket.get? heap bucket args := by
  rw [get?, List.find?_cons]
  split
  · next hsame => rw [if_pos hsame]; rfl
  · next hsame => rw [if_neg (by simp [hsame])]; rfl

theorem get?_set (probe : List Value) : Bucket.get? heap (Bucket.set heap args value bucket) probe =
    if heap.sameArgs args probe then some value else Bucket.get? heap bucket probe := by
  induction bucket with
  | nil => rw [Bucket.set, get?_cons]
  | cons location rest ih =>
    have hclass : heap.sameArgs location.args args = true →
        heap.sameArgs location.args probe = heap.sameArgs args probe := fun hsame =>
      Bool.eq_iff_iff.mpr
        ⟨ListHeap.sameArgs_trans (ListHeap.sameArgs_symm hsame), ListHeap.sameArgs_trans hsame⟩
    rw [Bucket.set]
    split
    · next hsame =>
        rw [get?_cons, get?_cons, hclass hsame]
        split <;> rfl
    · next hother =>
        rw [get?_cons, get?_cons, ih]
        by_cases hprobe : heap.sameArgs location.args probe = true
        · have hargs : ¬ heap.sameArgs args probe = true := fun hargs =>
            hother (ListHeap.sameArgs_trans hprobe (ListHeap.sameArgs_symm hargs))
          rw [if_pos hprobe, if_neg hargs, if_pos hprobe]
        · rw [if_neg hprobe, if_neg hprobe]

end Bucket

namespace Interpretation

variable {state next last : Interpretation} {heap : ListHeap} {function : FunctionId} {key : ArgKey}
  {args : List Value} {value : Value} {allowed : FunctionId → Value → Prop}

def bucket (state : Interpretation) (function : FunctionId) (key : ArgKey) : Bucket :=
  ((state.table function).get? key).getD []

theorem index_lt_of_mem_bucket {location : StoredLocation}
    (h : location ∈ state.bucket function key) : function.index < state.tables.size := by
  by_contra hle
  rw [bucket, table, Array.getD_eq_getD_getElem?, Array.getElem?_eq_none (by omega)] at h
  cases h

def places (state : Interpretation) : List (FunctionId × ArgKey) :=
  (List.range state.tables.size).flatMap fun index =>
    (state.table ⟨index⟩).keys.map fun key => (⟨index⟩, key)

theorem mem_places_of_mem_bucket {location : StoredLocation}
    (h : location ∈ state.bucket function key) : (function, key) ∈ state.places := by
  refine List.mem_flatMap.mpr ⟨function.index, List.mem_range.mpr (index_lt_of_mem_bucket h),
    List.mem_map_of_mem ?_⟩
  by_contra hkey
  rw [bucket, OrderedMap.get?_eq_none_iff.mpr hkey] at h
  cases h

theorem get?_eq_get?_bucket : state.get? heap function key args =
    Bucket.get? heap (state.bucket function key) args := by
  unfold get? bucket
  cases (state.table function).get? key <;> rfl

theorem bucket_set (other : FunctionId) (probe : ArgKey) :
    (state.set heap function key args value).bucket other probe =
      if other = function ∧ probe = key ∧ function.index < state.tables.size then
        Bucket.set heap args value (state.bucket function key)
      else state.bucket other probe := by
  obtain ⟨index⟩ := function
  obtain ⟨other⟩ := other
  simp only [bucket, table, set, Array.getD_eq_getD_getElem?, Array.getElem?_setIfInBounds,
    FunctionId.mk.injEq]
  by_cases hindex : index = other
  · subst hindex
    by_cases hlt : index < state.tables.size
    · rw [if_pos rfl, if_pos hlt, Option.getD_some, OrderedMap.get?_insert]
      by_cases hprobe : probe = key
      · simp [hprobe, hlt]
      · simp [hprobe]
    · rw [if_pos rfl, if_neg hlt, if_neg (by simp [hlt]), Array.getElem?_eq_none (by omega)]
  · rw [if_neg hindex, if_neg fun h => hindex h.1.symm]

/-- Nothing is lost or changed, and new locations have values that are allowed. -/
def Gains (allowed : FunctionId → Value → Prop) (state next : Interpretation) : Prop :=
  ∀ function key, ∃ extra, next.bucket function key = state.bucket function key ++ extra ∧
    ∀ location ∈ extra, allowed function location.value

theorem Gains.refl (allowed : FunctionId → Value → Prop) (state : Interpretation) :
    Gains allowed state state :=
  fun _ _ => ⟨[], (List.append_nil _).symm, fun _ hlocation => absurd hlocation List.not_mem_nil⟩

theorem Gains.trans {later : FunctionId → Value → Prop} (h : Gains allowed state next)
    (h' : Gains later next last) (hlater : ∀ function value, later function value →
      allowed function value) : Gains allowed state last := by
  intro function key
  obtain ⟨extra, hextra, hallowed⟩ := h function key
  obtain ⟨more, hmore, hallowed'⟩ := h' function key
  refine ⟨extra ++ more, by rw [hmore, hextra, List.append_assoc], fun location hlocation => ?_⟩
  rcases List.mem_append.mp hlocation with hmem | hmem
  · exact hallowed location hmem
  · exact hlater _ _ (hallowed' location hmem)

theorem gains_set (hnone : state.get? heap function key args = none)
    (hvalue : allowed function value) :
    Gains allowed state (state.set heap function key args value) := by
  intro other probe
  rw [bucket_set]
  split
  · next h =>
      obtain ⟨rfl, rfl, -⟩ := h
      rw [get?_eq_get?_bucket] at hnone
      refine ⟨[⟨args, value⟩], Bucket.set_of_get?_eq_none hnone, fun location hlocation => ?_⟩
      rw [List.mem_singleton.mp hlocation]
      exact hvalue
  · exact Gains.refl allowed state other probe

theorem Gains.get?_cases (h : Gains allowed state next) (heap : ListHeap) (function : FunctionId)
    (key : ArgKey) (args : List Value) :
    next.get? heap function key args = state.get? heap function key args ∨
      state.get? heap function key args = none ∧
        ∃ value, next.get? heap function key args = some value ∧ allowed function value := by
  obtain ⟨extra, hextra, hallowed⟩ := h function key
  rw [get?_eq_get?_bucket, get?_eq_get?_bucket, hextra, Bucket.get?_append]
  cases hold : Bucket.get? heap (state.bucket function key) args with
  | some value => exact Or.inl rfl
  | none =>
    cases hnew : Bucket.get? heap extra args with
    | none => exact Or.inl rfl
    | some value =>
      obtain ⟨location, hlocation, rfl⟩ := Bucket.exists_of_get? hnew
      exact Or.inr ⟨rfl, _, rfl, hallowed location hlocation⟩

end Interpretation

end AbstractStateMachine
