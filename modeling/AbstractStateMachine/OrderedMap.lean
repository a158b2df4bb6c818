/-!
Finite maps that remember the order in which their keys were first inserted. Storing a value under a
key that is present replaces the value and keeps its place.
-/

namespace AbstractStateMachine

structure OrderedMap (κ ν : Type) where
  entries : List (κ × ν) := []

namespace OrderedMap

variable {κ ν : Type} [DecidableEq κ]

def empty : OrderedMap κ ν := {}

def get? (map : OrderedMap κ ν) (key : κ) : Option ν := map.entries.lookup key

def contains (map : OrderedMap κ ν) (key : κ) : Bool := (map.get? key).isSome

def insertEntry (key : κ) (value : ν) : List (κ × ν) → List (κ × ν)
  | [] => [(key, value)]
  | (known, old) :: rest =>
    if known = key then (known, value) :: rest else (known, old) :: insertEntry key value rest

def insert (map : OrderedMap κ ν) (key : κ) (value : ν) : OrderedMap κ ν :=
  ⟨insertEntry key value map.entries⟩

omit [DecidableEq κ] in
def keys (map : OrderedMap κ ν) : List κ := map.entries.map (·.1)

omit [DecidableEq κ] in
def values (map : OrderedMap κ ν) : List ν := map.entries.map (·.2)

omit [DecidableEq κ] in
def size (map : OrderedMap κ ν) : Nat := map.entries.length

omit [DecidableEq κ] in
def isEmpty (map : OrderedMap κ ν) : Bool := map.entries.isEmpty

@[simp]
theorem get?_empty (key : κ) : (empty : OrderedMap κ ν).get? key = none := rfl

theorem get?_insert (map : OrderedMap κ ν) (key probe : κ) (value : ν) :
    (map.insert key value).get? probe = if probe = key then some value else map.get? probe := by
  obtain ⟨entries⟩ := map
  simp only [get?, insert]
  induction entries with
  | nil =>
    by_cases h : probe = key
    · simp [insertEntry, h]
    · have hne : (probe == key) = false := by simpa using h
      simp [insertEntry, List.lookup_cons, h, hne]
  | cons entry rest ih =>
    obtain ⟨known, old⟩ := entry
    by_cases hk : known = key
    · subst hk
      by_cases h : probe = known
      · simp [insertEntry, h]
      · have hne : (probe == known) = false := by simpa using h
        simp [insertEntry, List.lookup_cons, h, hne]
    · by_cases h : probe = known
      · subst h
        simp [insertEntry, hk]
      · have hne : (probe == known) = false := by simpa using h
        simp only [insertEntry, if_neg hk, List.lookup_cons, hne]
        exact ih

@[simp]
theorem get?_insert_self (map : OrderedMap κ ν) (key : κ) (value : ν) :
    (map.insert key value).get? key = some value := by
  simp [get?_insert]

theorem get?_insert_of_ne (map : OrderedMap κ ν) {key probe : κ} (value : ν) (h : probe ≠ key) :
    (map.insert key value).get? probe = map.get? probe := by
  simp [get?_insert, h]

/-- A new key goes to the end, a known key keeps its place. -/
theorem keys_insert (map : OrderedMap κ ν) (key : κ) (value : ν) :
    (map.insert key value).keys = if key ∈ map.keys then map.keys else map.keys ++ [key] := by
  obtain ⟨entries⟩ := map
  simp only [keys, insert]
  induction entries with
  | nil => simp [insertEntry]
  | cons entry rest ih =>
    obtain ⟨known, old⟩ := entry
    by_cases hk : known = key
    · simp [insertEntry, hk]
    · have hk' : ¬ key = known := fun h => hk h.symm
      by_cases hm : key ∈ rest.map (·.1) <;> simp_all [insertEntry]

end OrderedMap

end AbstractStateMachine
