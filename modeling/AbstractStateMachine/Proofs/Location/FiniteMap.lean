import AbstractStateMachine.Proofs.Location.SharedKeys
import AbstractStateMachine.Proofs.Location.Stability

/-!
# States as finite maps

Equal tuples without floats have the same key, whatever the digest. So a state whose locations lie
in the buckets of their keys, with different arguments in each bucket, is a finite map on such
tuples: a lookup finds the one location with equal arguments, and storing a value changes what is
found there and nowhere else, no matter which keys are shared. Storing a value keeps a state so, and
so does a change of the heap that the stored arguments survive.
-/

namespace AbstractStateMachine

def Token.isFloat : Token → Bool
  | .float _ => true
  | _ => false

theorem Token.Alike.eq_of_isFloat {token other : Token} (h : token.Alike other)
    (hfloat : token.isFloat = false) : token = other := by
  rcases h with heq | ⟨sign, -, hsign, -⟩
  · exact heq
  · cases token with
    | float => cases hfloat
    | _ => cases hsign

namespace ListHeap

variable {heap later : ListHeap} {x y : Value} {xs ys : List Value}

def FloatFree (heap : ListHeap) (values : List Value) : Prop :=
  ∀ value ∈ values, ∀ token ∈ heap.tokens value, token.isFloat = false

instance (heap : ListHeap) (values : List Value) : Decidable (heap.FloatFree values) :=
  inferInstanceAs (Decidable (∀ value ∈ values, ∀ token ∈ heap.tokens value, token.isFloat = false))

theorem floatFree_cons : heap.FloatFree (x :: xs) ↔
    (∀ token ∈ heap.tokens x, token.isFloat = false) ∧ heap.FloatFree xs :=
  List.forall_mem_cons

theorem FloatFree.agrees (h : heap.FloatFree xs) (hagrees : heap.Agrees later)
    (hxs : heap.Supports xs) (hxs' : later.Supports xs) : later.FloatFree xs := by
  intro value hvalue token htoken
  rw [hagrees.tokens_eq (hxs.of_mem hvalue) (hxs'.of_mem hvalue)] at htoken
  exact h value hvalue token htoken

theorem tokens_eq_of_equal (hx : ∀ token ∈ heap.tokens x, token.isFloat = false)
    (h : heap.equal x y = true) : heap.tokens x = heap.tokens y := by
  have halike : List.Forall₂ Token.Alike (heap.tokens x) (heap.tokens y) :=
    alike_of_equalWithin _ h
  exact List.forall₂_eq_eq_eq ▸ forall₂_imp_of_mem halike fun token htoken _ _ halike =>
    halike.eq_of_isFloat (hx token htoken)

theorem keyPart_eq_of_equal (hx : ∀ token ∈ heap.tokens x, token.isFloat = false)
    (h : heap.equal x y = true) (digest : Digest) :
    heap.keyPart digest x = heap.keyPart digest y := by
  refine (keyPart_eq_iff_zeroSigns h).mpr ?_ digest
  exact (tokens_eq_iff_zeroSigns h).mp (tokens_eq_of_equal hx h)

theorem FloatFree.argKey_eq (hxs : heap.FloatFree xs) (h : heap.sameArgs xs ys = true)
    (digest : Digest) : heap.argKey digest xs = heap.argKey digest ys := by
  rw [sameArgs, allPairs_iff_forall₂] at h
  induction h with
  | nil => rfl
  | cons hequal _ ih =>
    obtain ⟨hx, hxs⟩ := floatFree_cons.mp hxs
    exact congrArg₂ List.cons (keyPart_eq_of_equal hx hequal digest) (ih hxs)

theorem FloatFree.of_sameArgs (hxs : heap.FloatFree xs) (h : heap.sameArgs xs ys = true) :
    heap.FloatFree ys := by
  rw [sameArgs, allPairs_iff_forall₂] at h
  induction h with
  | nil => exact hxs
  | cons hequal _ ih =>
    obtain ⟨hx, hxs⟩ := floatFree_cons.mp hxs
    refine floatFree_cons.mpr ⟨?_, ih hxs⟩
    rw [← tokens_eq_of_equal hx hequal]
    exact hx

end ListHeap

namespace Bucket

variable {heap : ListHeap} {bucket : Bucket} {args : List Value} {value : Value}
  {location : StoredLocation}

def Distinct (heap : ListHeap) (bucket : Bucket) : Prop :=
  bucket.Pairwise fun location other => heap.sameArgs location.args other.args = false

theorem mem_set_cases (h : location ∈ Bucket.set heap args value bucket) :
    location = ⟨args, value⟩ ∨ location ∈ bucket ∨
      ∃ old ∈ bucket, heap.sameArgs old.args args = true ∧ location = { old with value } := by
  rcases set_cases heap bucket args value with hset | ⟨before, old, after, rfl, hsame, hset⟩ <;>
    rw [hset] at h
  · rcases List.mem_append.mp h with hold | hnew
    · exact .inr (.inl hold)
    · exact .inl (List.mem_singleton.mp hnew)
  · rcases List.mem_append.mp h with hbefore | hrest
    · exact .inr (.inl (List.mem_append_left _ hbefore))
    rcases List.mem_cons.mp hrest with hchanged | hafter
    · exact .inr (.inr ⟨old, List.mem_append_right _ List.mem_cons_self, hsame, hchanged⟩)
    · exact .inr (.inl (List.mem_append_right _ (List.mem_cons_of_mem _ hafter)))

theorem mem_set_of_mem (h : location ∈ bucket) (hother : heap.sameArgs location.args args = false) :
    location ∈ Bucket.set heap args value bucket := by
  rcases set_cases heap bucket args value with hset | ⟨before, old, after, rfl, hsame, hset⟩ <;>
    rw [hset]
  · exact List.mem_append_left _ h
  · rcases List.mem_append.mp h with hbefore | hrest
    · exact List.mem_append_left _ hbefore
    rcases List.mem_cons.mp hrest with rfl | hafter
    · exact absurd hsame (Bool.eq_false_iff.mp hother)
    · exact List.mem_append_right _ (List.mem_cons_of_mem _ hafter)

theorem Distinct.set (h : bucket.Distinct heap) (args : List Value) (value : Value) :
    Distinct heap (Bucket.set heap args value bucket) := by
  induction bucket with
  | nil => exact List.pairwise_singleton _ _
  | cons location rest ih =>
    obtain ⟨hfirst, hrest⟩ := List.pairwise_cons.mp h
    rw [Bucket.set]
    split
    · exact List.pairwise_cons.mpr ⟨hfirst, hrest⟩
    · next hother =>
        refine List.pairwise_cons.mpr ⟨fun other hmem => ?_, ih hrest⟩
        rcases mem_set_cases hmem with rfl | hold | ⟨old, hold, -, rfl⟩
        · exact Bool.eq_false_iff.mpr hother
        · exact hfirst other hold
        · exact hfirst old hold

theorem Distinct.get?_eq_some (h : bucket.Distinct heap) (hlocation : location ∈ bucket)
    (hsame : heap.sameArgs location.args args = true) :
    Bucket.get? heap bucket args = some location.value := by
  induction bucket with
  | nil => cases hlocation
  | cons first rest ih =>
    obtain ⟨hfirst, hrest⟩ := List.pairwise_cons.mp h
    rw [get?_cons]
    rcases List.mem_cons.mp hlocation with rfl | hmem
    · rw [if_pos hsame]
    · have hother : ¬ heap.sameArgs first.args args = true := fun hsame' =>
        Bool.eq_false_iff.mp (hfirst location hmem)
          (ListHeap.sameArgs_trans hsame' (ListHeap.sameArgs_symm hsame))
      rw [if_neg hother]
      exact ih hrest hmem

theorem exists_sameArgs_of_get? (h : Bucket.get? heap bucket args = some value) :
    ∃ location ∈ bucket, heap.sameArgs location.args args = true ∧ location.value = value := by
  obtain ⟨location, hlocation, rfl⟩ := Option.map_eq_some_iff.mp h
  have hsame := List.find?_some hlocation
  exact ⟨location, List.mem_of_find?_eq_some hlocation, hsame, rfl⟩

end Bucket

namespace Interpretation

variable {heap later : ListHeap} {digest : Digest} {state : Interpretation}
  {function other : FunctionId} {key : ArgKey} {args xs ys : List Value} {value : Value}

def locationsOf (state : Interpretation) (function : FunctionId) : List StoredLocation :=
  (state.table function).values.flatten

theorem mem_locationsOf_of_mem_bucket {location : StoredLocation}
    (h : location ∈ state.bucket function key) : location ∈ state.locationsOf function := by
  unfold bucket at h
  cases hfound : (state.table function).get? key with
  | none =>
    rw [hfound] at h
    cases h
  | some found =>
    rw [hfound] at h
    exact List.mem_flatten.mpr ⟨found, OrderedMap.mem_values_of_get? hfound, h⟩

/-- Every location lies in the bucket of its key, and the locations of a bucket differ. -/
structure Filed (heap : ListHeap) (digest : Digest) (state : Interpretation) : Prop where
  nodup : ∀ function, (state.table function).keys.Nodup
  keyed : ∀ function key, ∀ location ∈ state.bucket function key,
    heap.argKey digest location.args = key
  distinct : ∀ function key, (state.bucket function key).Distinct heap

theorem table_empty (spec : Specification) (function : FunctionId) :
    (empty spec).table function = .empty := by
  rw [table, empty, Array.getD_eq_getD_getElem?, Array.getElem?_replicate]
  split <;> rfl

theorem bucket_empty (spec : Specification) (function : FunctionId) (key : ArgKey) :
    (empty spec).bucket function key = [] := by
  rw [bucket, table_empty]
  rfl

theorem filed_empty (heap : ListHeap) (digest : Digest) (spec : Specification) :
    (empty spec).Filed heap digest := by
  refine ⟨fun function => ?_, fun function key location hlocation => ?_, fun function key => ?_⟩
  · rw [table_empty]
    exact List.nodup_nil
  · rw [bucket_empty] at hlocation
    cases hlocation
  · rw [bucket_empty]
    exact List.Pairwise.nil

section Filed

variable (h : state.Filed heap digest)
include h

theorem Filed.bucket_eq {bucket : Bucket} (hentry : (key, bucket) ∈ (state.table function).entries) :
    state.bucket function key = bucket := by
  rw [Interpretation.bucket, OrderedMap.get?_of_mem_entries (h.nodup function) hentry]
  rfl

theorem Filed.mem_bucket {location : StoredLocation}
    (hlocation : location ∈ state.locationsOf function) :
    location ∈ state.bucket function (heap.argKey digest location.args) := by
  obtain ⟨bucket, hbucket, hmem⟩ := List.mem_flatten.mp hlocation
  obtain ⟨⟨key, _⟩, hentry, rfl⟩ := List.mem_map.mp hbucket
  have hmem : location ∈ state.bucket function key := h.bucket_eq hentry ▸ hmem
  rw [h.keyed function key location hmem]
  exact hmem

theorem Filed.set (hkey : heap.argKey digest args = key) :
    (state.set heap function key args value).Filed heap digest where
  nodup other := by
    have htable : (state.set heap function key args value).table other =
        if function.index = other.index ∧ function.index < state.tables.size then
          (state.table function).insert key
            (Bucket.set heap args value (state.bucket function key))
        else state.table other := by
      simp only [table, Interpretation.set, bucket, Array.getD_eq_getD_getElem?,
        Array.getElem?_setIfInBounds]
      by_cases hindex : function.index = other.index
      · by_cases hlt : function.index < state.tables.size
        · rw [if_pos hindex, if_pos hlt, if_pos ⟨hindex, hlt⟩]
          rfl
        · rw [if_pos hindex, if_neg hlt, if_neg fun h => hlt h.2,
            Array.getElem?_eq_none (by omega)]
      · rw [if_neg hindex, if_neg fun h => hindex h.1]
    rw [htable]
    split
    · exact OrderedMap.nodup_keys_insert (h.nodup function)
    · exact h.nodup other
  keyed other probe location hlocation := by
    rw [bucket_set] at hlocation
    split at hlocation
    · next hplace =>
        obtain ⟨rfl, rfl, -⟩ := hplace
        rcases Bucket.mem_set_cases hlocation with rfl | hold | ⟨old, hold, -, rfl⟩
        · exact hkey
        · exact h.keyed other probe location hold
        · exact h.keyed other probe old hold
    · exact h.keyed other probe location hlocation
  distinct other probe := by
    rw [bucket_set]
    split
    · exact (h.distinct function key).set args value
    · exact h.distinct other probe

theorem Filed.agrees (hagrees : heap.Agrees later)
    (hargs : ∀ function key, ∀ location ∈ state.bucket function key,
      heap.Supports location.args ∧ later.Supports location.args) :
    state.Filed later digest where
  nodup := h.nodup
  keyed function key location hlocation := by
    obtain ⟨hold, hnew⟩ := hargs function key location hlocation
    rw [hagrees.argKey_eq hold hnew]
    exact h.keyed function key location hlocation
  distinct function key := by
    refine (h.distinct function key).imp_of_mem fun {location other} hlocation hother hdiffer => ?_
    obtain ⟨hold, hnew⟩ := hargs function key location hlocation
    obtain ⟨hold', hnew'⟩ := hargs function key other hother
    rw [hagrees.sameArgs_eq hold hnew hold' hnew']
    exact hdiffer

/-! ### Lookups -/

theorem Filed.pairwise_locationsOf (function : FunctionId) :
    (state.locationsOf function).Pairwise fun location other =>
      heap.FloatFree location.args → heap.sameArgs location.args other.args = false := by
  refine List.pairwise_flatten.mpr ⟨fun bucket hbucket => ?_, ?_⟩
  · obtain ⟨entry, hentry, rfl⟩ := List.mem_map.mp hbucket
    have hbucket : state.bucket function entry.1 = entry.2 := h.bucket_eq hentry
    rw [← hbucket]
    apply (h.distinct function entry.1).imp
    intro location other hdiffer _
    exact hdiffer
  · refine List.pairwise_map.mpr ((List.pairwise_map.mp (h.nodup function)).imp_of_mem ?_)
    -- Buckets of different keys hold no equal arguments, as these have the same key.
    intro entry entry' hentry hentry' hkeys location hlocation other hother hfree
    rw [Bool.eq_false_iff]
    intro hsame
    refine hkeys ?_
    rw [← h.keyed function entry.1 location (h.bucket_eq hentry ▸ hlocation),
      ← h.keyed function entry'.1 other (h.bucket_eq hentry' ▸ hother)]
    exact hfree.argKey_eq hsame digest

theorem Filed.get?_eq_some_iff (hargs : heap.FloatFree args) :
    state.get? heap function (heap.argKey digest args) args = some value ↔
      ∃ location ∈ state.locationsOf function,
        heap.sameArgs args location.args = true ∧ location.value = value := by
  rw [get?_eq_get?_bucket]
  constructor
  · intro hfound
    obtain ⟨location, hlocation, hsame, hvalue⟩ := Bucket.exists_sameArgs_of_get? hfound
    exact ⟨location, mem_locationsOf_of_mem_bucket hlocation, ListHeap.sameArgs_symm hsame, hvalue⟩
  · rintro ⟨location, hlocation, hsame, rfl⟩
    rw [hargs.argKey_eq hsame digest]
    exact (h.distinct _ _).get?_eq_some (h.mem_bucket hlocation) (ListHeap.sameArgs_symm hsame)

end Filed

/-- Shared keys do no harm: the bucket is searched for equal arguments. -/
theorem get?_set_of_floatFree (hfunction : function.index < state.tables.size)
    (hxs : heap.FloatFree xs) :
    (state.set heap function (heap.argKey digest xs) xs value).get? heap other
        (heap.argKey digest ys) ys =
      if other = function ∧ heap.sameArgs xs ys = true then some value
      else state.get? heap other (heap.argKey digest ys) ys := by
  rw [get?_eq_get?_bucket, get?_eq_get?_bucket, bucket_set]
  by_cases hplace : other = function ∧ heap.argKey digest ys = heap.argKey digest xs
  · obtain ⟨rfl, hkeys⟩ := hplace
    rw [if_pos ⟨rfl, hkeys, hfunction⟩, Bucket.get?_set, hkeys]
    simp only [true_and]
  · rw [if_neg fun h => hplace ⟨h.1, h.2.1⟩, if_neg]
    rintro ⟨rfl, hsame⟩
    exact hplace ⟨rfl, (hxs.argKey_eq hsame digest).symm⟩

/-- A finite map on tuples without floats, with equality of values for equality of tuples. -/
structure IsFiniteMap (heap : ListHeap) (digest : Digest) (state : Interpretation) : Prop where
  /-- Locations lie in the buckets of their keys. -/
  keyed : ∀ function key bucket, (key, bucket) ∈ (state.table function).entries →
    ∀ location ∈ bucket, heap.argKey digest location.args = key
  /-- No two locations of a function have equal arguments. -/
  distinct : ∀ function, (state.locationsOf function).Pairwise fun location other =>
    heap.FloatFree location.args → heap.sameArgs location.args other.args = false
  get?_eq_some_iff : ∀ function args value, heap.FloatFree args →
    (state.get? heap function (heap.argKey digest args) args = some value ↔
      ∃ location ∈ state.locationsOf function,
        heap.sameArgs args location.args = true ∧ location.value = value)
  get?_set : ∀ function other xs ys value, function.index < state.tables.size →
    heap.FloatFree xs →
      (state.set heap function (heap.argKey digest xs) xs value).get? heap other
          (heap.argKey digest ys) ys =
        if other = function ∧ heap.sameArgs xs ys = true then some value
        else state.get? heap other (heap.argKey digest ys) ys

theorem Filed.isFiniteMap (h : state.Filed heap digest) : state.IsFiniteMap heap digest where
  keyed function key _ hentry location hlocation :=
    h.keyed function key location (h.bucket_eq hentry ▸ hlocation)
  distinct := h.pairwise_locationsOf
  get?_eq_some_iff _ _ _ := h.get?_eq_some_iff
  get?_set _ _ _ _ _ := get?_set_of_floatFree

end Interpretation

end AbstractStateMachine
