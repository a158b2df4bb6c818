import AbstractStateMachine.Location.Interpretation
import AbstractStateMachine.Proofs.OrderedMap

/-!
# Tables of locations

Tables can hold locations of any kind, as long as it can be told which of those in a bucket is
meant. An interpretation consists of such tables. Tables of related locations behave alike.
-/

namespace AbstractStateMachine

abbrev Tables (L : Type) := Array (OrderedMap ArgKey (List L))

namespace Tables

variable {L : Type}

def table (tables : Tables L) (function : FunctionId) : OrderedMap ArgKey (List L) :=
  tables.getD function.index .empty

def find (hit : L → Bool) (function : FunctionId) (key : ArgKey) (tables : Tables L) : Option L :=
  ((tables.table function).get? key).bind fun bucket => bucket.find? hit

/-- Changes the location that is meant; if there is none, a new one goes to the end. -/
def change (hit : L → Bool) (changed : L → L) (new : L) : List L → List L
  | [] => [new]
  | location :: rest =>
    if hit location then changed location :: rest else location :: change hit changed new rest

def store (hit : L → Bool) (changed : L → L) (new : L) (function : FunctionId) (key : ArgKey)
    (tables : Tables L) : Tables L :=
  let bucket := change hit changed new (((tables.table function).get? key).getD [])
  tables.setIfInBounds function.index ((tables.table function).insert key bucket)

end Tables

/-! ### Interpretations -/

namespace Interpretation

variable {heap : ListHeap} {function : FunctionId} {key : ArgKey} {args : List Value}
  (state : Interpretation)

theorem get?_eq : state.get? heap function key args =
    (Tables.find (fun location => heap.sameArgs location.args args) function key state.tables).map
      StoredLocation.value := by
  unfold get? Tables.find
  show ((state.table function).get? key).bind _ =
    (((state.table function).get? key).bind _).map _
  cases (state.table function).get? key <;> rfl

theorem change_eq (value : Value) (bucket : Bucket) :
    Bucket.set heap args value bucket =
      Tables.change (fun location => heap.sameArgs location.args args)
        (fun location => { location with value }) ⟨args, value⟩ bucket := by
  induction bucket with
  | nil => rfl
  | cons location rest ih => rw [Bucket.set, Tables.change, ih]

theorem set_eq (value : Value) : state.set heap function key args value =
    ⟨Tables.store (fun location => heap.sameArgs location.args args)
      (fun location => { location with value }) ⟨args, value⟩ function key state.tables⟩ := by
  unfold set Tables.store
  dsimp only
  rw [change_eq]
  rfl

end Interpretation

/-! ### Related tables -/

namespace Tables

variable {L L' : Type} {R : L → L' → Prop}

def Related (R : L → L' → Prop) (tables : Tables L) (other : Tables L') : Prop :=
  List.Forall₂ (OrderedMap.Related (List.Forall₂ R)) tables.toList other.toList

variable {tables : Tables L} {other : Tables L'} {hit : L → Bool} {hit' : L' → Bool}

theorem related_replicate (size : Nat) :
    Related R (Array.replicate size .empty) (Array.replicate size .empty) := by
  unfold Related
  rw [Array.toList_replicate, Array.toList_replicate]
  induction size with
  | zero => exact .nil
  | succ size ih => exact .cons OrderedMap.related_empty ih

theorem Related.imp {S : L → L' → Prop} (h : Related R tables other)
    (himp : ∀ a b, R a b → S a b) : Related S tables other :=
  List.Forall₂.imp (fun _ _ htable => htable.imp fun _ _ hbucket => hbucket.imp himp) h

theorem Related.imp_of_mem {S : L → L' → Prop} (h : Related R tables other)
    (himp : ∀ table ∈ tables, ∀ bucket ∈ table.values, ∀ a ∈ bucket, ∀ b, R a b → S a b) :
    Related S tables other := by
  refine forall₂_imp_of_mem h fun table htable _ _ hrelated => ?_
  refine hrelated.imp_of_mem fun bucket hbucket _ hlocations => ?_
  refine forall₂_imp_of_mem hlocations fun a ha b _ => ?_
  exact himp table (Array.mem_toList_iff.mp htable) bucket hbucket a ha b

theorem Related.table (h : Related R tables other) (function : FunctionId) :
    OrderedMap.Related (List.Forall₂ R) (tables.table function) (other.table function) := by
  unfold Tables.table
  rw [Array.getD_eq_getD_getElem?, Array.getD_eq_getD_getElem?, ← Array.getElem?_toList,
    ← Array.getElem?_toList]
  have htable := rel_getElem? h function.index
  generalize tables.toList[function.index]? = table at htable ⊢
  generalize other.toList[function.index]? = table' at htable ⊢
  cases htable with
  | none => exact OrderedMap.related_empty
  | some htable => exact htable

section Hits

variable (hhit : ∀ a a', R a a' → hit' a' = hit a)
include hhit

theorem Related.find (h : Related R tables other) (function : FunctionId) (key : ArgKey) :
    Option.Rel R (tables.find hit function key) (other.find hit' function key) := by
  unfold Tables.find
  have hbucket := (h.table function).get? key
  generalize (tables.table function).get? key = bucket at hbucket ⊢
  generalize (other.table function).get? key = bucket' at hbucket ⊢
  cases hbucket with
  | none => exact .none
  | some hbucket => exact rel_find? hbucket hhit

variable {changed : L → L} {changed' : L' → L'}
  (hchanged : ∀ a a', R a a' → R (changed a) (changed' a')) {new : L} {new' : L'}
  (hnew : R new new')
include hchanged hnew

theorem forall₂_change {bucket : List L} {bucket' : List L'} (h : List.Forall₂ R bucket bucket') :
    List.Forall₂ R (change hit changed new bucket) (change hit' changed' new' bucket') := by
  induction h with
  | nil => exact .cons hnew .nil
  | @cons a a' _ _ ha hrest ih =>
    rw [change, change, hhit a a' ha]
    split
    · exact .cons (hchanged a a' ha) hrest
    · exact .cons ha ih

theorem Related.store (h : Related R tables other) (function : FunctionId) (key : ArgKey) :
    Related R (tables.store hit changed new function key)
      (other.store hit' changed' new' function key) := by
  have hbucket : List.Forall₂ R (((tables.table function).get? key).getD [])
      (((other.table function).get? key).getD []) := by
    have hget := (h.table function).get? key
    generalize (tables.table function).get? key = bucket at hget ⊢
    generalize (other.table function).get? key = bucket' at hget ⊢
    cases hget with
    | none => exact .nil
    | some hbucket => exact hbucket
  have htable := (h.table function).insert key (forall₂_change hhit hchanged hnew hbucket)
  unfold Tables.store Related
  rw [Array.toList_setIfInBounds, Array.toList_setIfInBounds]
  exact forall₂_set h htable function.index

end Hits

end Tables

end AbstractStateMachine
