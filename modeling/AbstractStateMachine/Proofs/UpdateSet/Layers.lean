import AbstractStateMachine.Proofs.UpdateSet.Agreement

/-!
# What the operations do to the layers

One lemma for each operation of an update set says what becomes of its innermost layer and that the
layers below stay. Recording never loses a key, and it fails only where the key is present already.
A lookup passes over the innermost layer of a parallel block, and in a sequential block it takes
what is found there.
-/

namespace AbstractStateMachine

open OrderedMap

def Update.movedTo (depth : Nat) (update : Update) : Update := { update with layer := depth }

namespace Layer

variable {heap : ListHeap} {layer result : Layer} {update : Update} {updates : List Update}
  {parallel : Bool}

theorem override_cases (h : layer.override heap update = .ok result) :
    result = layer.insert update.location update ∧ ∀ existing,
      layer.get? update.location = some existing →
        heap.sameArgs existing.args update.args = true := by
  unfold override at h
  split at h
  · next hnone =>
      cases h
      refine ⟨rfl, fun existing hexisting => ?_⟩
      rw [Update.location, hnone] at hexisting
      cases hexisting
  · next found hfound =>
      split at h <;> cases h
      next hargs =>
        refine ⟨rfl, fun existing hexisting => ?_⟩
        rw [Update.location, hfound] at hexisting
        cases hexisting
        exact hargs

theorem mem_keys_record (h : layer.record heap parallel update = .ok result) {key : LocationKey} :
    key ∈ result.keys ↔ key = update.location ∨ key ∈ layer.keys := by
  cases parallel with
  | true =>
    obtain ⟨-, rfl⟩ | ⟨existing, hfound, -, rfl⟩ := join_cases h
    · exact mem_keys_insert
    · have hmem : update.location ∈ result.keys := by
        by_contra hnone
        rw [get?_eq_none_iff.mpr hnone] at hfound
        cases hfound
      exact ⟨Or.inr, fun h => h.elim (fun heq => heq ▸ hmem) id⟩
  | false =>
    obtain ⟨rfl, -⟩ := override_cases h
    exact mem_keys_insert

theorem recordAll_keeps {P : Layer → Prop} (h : P layer) (hkeeps : ∀ {layer result : Layer},
      ∀ update ∈ updates, P layer → layer.record heap parallel update = .ok result → P result) :
    P (layer.recordAll heap parallel updates).1 := by
  induction updates generalizing layer with
  | nil => exact h
  | cons update rest ih =>
    rw [recordAll]
    split
    · next next hrecord =>
        refine ih (hkeeps update List.mem_cons_self h hrecord) ?_
        exact fun other hother => hkeeps other (List.mem_cons_of_mem _ hother)
    · exact h

theorem keys_subset_recordAll (updates : List Update) :
    layer.keys ⊆ (layer.recordAll heap parallel updates).1.keys :=
  recordAll_keeps (P := fun result => layer.keys ⊆ result.keys) (List.Subset.refl _)
    fun _ _ h hrecord _ hkey => (mem_keys_record hrecord).mpr (Or.inr (h hkey))

theorem get?_record_of_ne (h : layer.record heap parallel update = .ok result) {key : LocationKey}
    (hne : key ≠ update.location) : result.get? key = layer.get? key := by
  cases parallel with
  | true =>
    obtain ⟨-, rfl⟩ | ⟨existing, -, -, rfl⟩ := join_cases h
    · exact get?_insert_of_ne _ _ hne
    · rfl
  | false =>
    obtain ⟨rfl, -⟩ := override_cases h
    exact get?_insert_of_ne _ _ hne

theorem mem_values_record (h : layer.record heap parallel update = .ok result) {other : Update}
    (hother : other ∈ result.values) : other = update ∨ other ∈ layer.values := by
  cases parallel with
  | true =>
    obtain ⟨-, rfl⟩ | ⟨existing, -, -, rfl⟩ := join_cases h
    · exact mem_values_insert hother
    · exact .inr hother
  | false =>
    obtain ⟨rfl, -⟩ := override_cases h
    exact mem_values_insert hother

theorem mem_values_recordAll {other : Update}
    (hother : other ∈ (layer.recordAll heap parallel updates).1.values) :
    other ∈ layer.values ∨ other ∈ updates := by
  refine recordAll_keeps (P := fun result => ∀ other ∈ result.values,
    other ∈ layer.values ∨ other ∈ updates) (fun _ => .inl) ?_ other hother
  intro _ _ update hupdate h hrecord other hother
  rcases mem_values_record hrecord hother with rfl | hold
  · exact .inr hupdate
  · exact h other hold

/-! ### Conflicts -/

inductive Conflicts (layer : Layer) (update : Update) (fault : Fault) : Prop where
  | of_existing (cause : Cause) (existing : Update) (hkind : cause.kind = .conflict)
      (hfound : layer.get? update.location = some existing)
      (hfault : fault = conflict cause existing update)

theorem conflicts_of_record {fault : Fault} (h : layer.record heap parallel update = .error fault) :
    layer.Conflicts update fault := by
  cases hfound : layer.get? update.location with
  | none =>
    rw [Update.location] at hfound
    unfold record join override at h
    rw [hfound] at h
    cases parallel <;> cases h
  | some existing =>
    rw [Update.location] at hfound
    unfold record join override at h
    rw [hfound] at h
    dsimp only at h
    split at h
    · split at h <;> cases h
      exact ⟨.disagreement, existing, rfl, hfound, rfl⟩
    · split at h <;> cases h
      exact ⟨.keyCollision, existing, rfl, hfound, rfl⟩

/-- Updates for different locations conflict only with what was there before all of them. -/
theorem conflicts_of_recordAll {fault : Fault} (hnodup : (updates.map Update.location).Nodup)
    (h : (layer.recordAll heap parallel updates).2 = some fault) :
    ∃ update ∈ updates, layer.Conflicts update fault := by
  induction updates generalizing layer with
  | nil => cases h
  | cons update rest ih =>
    obtain ⟨hfirst, hrest⟩ := List.nodup_cons.mp hnodup
    rw [recordAll] at h
    split at h
    · next next hrecord =>
        obtain ⟨later, hlater, ⟨cause, existing, hkind, hfound, hfault⟩⟩ := ih hrest h
        have hne : later.location ≠ update.location := fun heq =>
          hfirst (heq ▸ List.mem_map_of_mem hlater)
        rw [get?_record_of_ne hrecord hne] at hfound
        exact ⟨later, List.mem_cons_of_mem _ hlater, cause, existing, hkind, hfound, hfault⟩
    · next found hrecord =>
        cases h
        exact ⟨update, List.mem_cons_self, conflicts_of_record hrecord⟩

end Layer

namespace UpdateSet

variable {set next : UpdateSet} {heap : ListHeap} {digest : Digest} {function : FunctionId}
  {key : ArgKey} {args probe : List Value} {value : Value} {span : Span}

theorem inParallel_congr (h : next.below = set.below) : next.inParallel = set.inParallel := by
  rw [inParallel, inParallel, depth, depth, h]

theorem exists_record_of_add (h : set.add heap digest function args value span = .ok next) :
    ∃ top, set.top.record heap set.inParallel
      { function, key := heap.argKey digest args, args, value, span, layer := set.depth } =
        .ok top ∧
      next = { set with top } := by
  rw [add] at h
  generalize set.top.record heap set.inParallel _ = outcome at h
  cases outcome with
  | error fault => cases h
  | ok top =>
    cases h
    exact ⟨top, rfl, rfl⟩

theorem conflicts_of_add {fault : Fault}
    (h : set.add heap digest function args value span = .error fault) :
    set.top.Conflicts
      { function, key := heap.argKey digest args, args, value, span, layer := set.depth } fault := by
  rw [add] at h
  generalize hrecord : set.top.record heap set.inParallel _ = outcome at h
  cases outcome with
  | error fault =>
    cases h
    exact Layer.conflicts_of_record hrecord
  | ok top => cases h

theorem mergeTop_of_below {parent : Layer} {below : List Layer} {agree : Bool}
    (h : set.below = parent :: below) : set.mergeTop heap agree =
      let merged := parent.recordAll heap agree (set.top.values.map (Update.movedTo below.length))
      (⟨merged.1, below⟩, merged.2) := by
  obtain ⟨top, layers⟩ := set
  subst h
  rfl

/-! ### Blocks

A block may write to the innermost layer and add layers of its own while it runs; when it is left,
the layers are those that were there when it was entered, and no key is gone.
-/

structure Layered (set next : UpdateSet) : Prop where
  below : next.below = set.below
  keys : set.top.keys ⊆ next.top.keys

theorem Layered.refl (set : UpdateSet) : set.Layered set :=
  ⟨rfl, List.Subset.refl _⟩

theorem Layered.trans {last : UpdateSet} (h : set.Layered next) (h' : next.Layered last) :
    set.Layered last :=
  ⟨h'.below.trans h.below, List.Subset.trans h.keys h'.keys⟩

theorem layered_add (h : set.add heap digest function args value span = .ok next) :
    set.Layered next := by
  obtain ⟨top, hrecord, rfl⟩ := exists_record_of_add h
  exact ⟨rfl, fun key hkey => (Layer.mem_keys_record hrecord).mpr (Or.inr hkey)⟩

theorem Layered.mergeTop (h : set.push.Layered next) (heap : ListHeap) (agree : Bool) :
    set.Layered (next.mergeTop heap agree).1 := by
  rw [mergeTop_of_below h.below]
  exact ⟨rfl, Layer.keys_subset_recordAll _⟩

/-- Whether entering a block took a new layer. -/
inductive Enters (set : UpdateSet) : Bool × UpdateSet → Prop where
  | same : Enters set (false, set)
  | pushed : Enters set (true, set.push)

theorem enters_forkParallel (set : UpdateSet) : set.Enters set.forkParallel := by
  unfold forkParallel
  split
  · exact .same
  · exact .pushed

theorem enters_forkSequential (set : UpdateSet) : set.Enters set.forkSequential := by
  unfold forkSequential
  split
  · exact .pushed
  · exact .same

section Leaving

variable {fork : Bool × UpdateSet} (henter : set.Enters fork) (h : fork.2.Layered next)
include henter h

theorem Enters.layered_merge (heap : ListHeap) : set.Layered (next.merge heap fork.1).1 := by
  cases henter with
  | same => exact h
  | pushed => exact h.mergeTop heap next.inParallel

theorem Enters.layered_mergeRound (heap : ListHeap) :
    set.Layered (next.mergeRound heap fork.1).1 := by
  cases henter with
  | same => exact h
  | pushed => exact h.mergeTop heap false

end Leaving

/-- What is left of the layers when a block is given up midway: further layers may lie on those that
were there, and no key is gone. -/
def Survives (set next : UpdateSet) : Prop :=
  ∃ left top, next.layers = left ++ top :: set.below ∧ set.top.keys ⊆ top.keys

theorem Layered.survives (h : set.Layered next) : set.Survives next :=
  ⟨[], next.top, by rw [layers, h.below, List.nil_append], h.keys⟩

theorem Layered.trans_survives {last : UpdateSet} (h : set.Layered next) (h' : next.Survives last) :
    set.Survives last := by
  obtain ⟨left, top, hlayers, hkeys⟩ := h'
  exact ⟨left, top, h.below ▸ hlayers, List.Subset.trans h.keys hkeys⟩

theorem Enters.survives {fork : Bool × UpdateSet} (henter : set.Enters fork)
    (h : fork.2.Survives next) : set.Survives next := by
  cases henter with
  | same => exact h
  | pushed =>
    obtain ⟨left, top, hlayers, -⟩ := h
    refine ⟨left ++ [top], set.top, ?_, List.Subset.refl _⟩
    rw [hlayers, push, List.append_assoc, List.singleton_append]

/-! ### Lookups -/

theorem lookup_of_inParallel (h : set.inParallel = true) :
    set.lookup heap function key args = lookupIn heap function key args set.below := by
  have hodd : set.below.length % 2 = 1 := by simpa [inParallel, depth] using h
  simp [lookup, layers, lookupIn, hodd]

/-- What parallel siblings have written stays invisible. -/
theorem Layered.lookup_eq (h : set.Layered next) (hparallel : set.inParallel = true) :
    next.lookup heap function key args = set.lookup heap function key args := by
  have hnext : next.inParallel = true := (inParallel_congr h.below).trans hparallel
  rw [lookup_of_inParallel hnext, lookup_of_inParallel hparallel, h.below]

theorem inParallel_forkParallel (set : UpdateSet) : set.forkParallel.2.inParallel = true := by
  cases h : set.inParallel with
  | true =>
    rw [forkParallel, if_pos h]
    exact h
  | false => rw [forkParallel_of_sequential h, inParallel_push, h, Bool.not_false]

theorem lookup_forkParallel (set : UpdateSet) (heap : ListHeap) (function : FunctionId)
    (key : ArgKey) (args : List Value) :
    set.forkParallel.2.lookup heap function key args = set.lookup heap function key args := by
  have hparallel := inParallel_forkParallel set
  cases h : set.inParallel with
  | true => rw [forkParallel, if_pos h]
  | false =>
    rw [forkParallel_of_sequential h] at hparallel ⊢
    exact lookup_of_inParallel hparallel

theorem lookup_of_sequential (h : set.inParallel = false) :
    set.lookup heap function key args =
      (((set.top.get? (function, key)).filter fun update =>
        heap.sameArgs update.args args).map Update.value).or
        (lookupIn heap function key args set.below) := by
  have heven : ¬ set.below.length % 2 = 1 := by simpa [inParallel, depth] using h
  rw [lookup, layers, lookupIn]
  simp only [beq_iff_eq, if_neg heven]
  split <;> next hfound => rw [hfound]; rfl

theorem lookup_add_of_sameArgs (hsequential : set.inParallel = false)
    (h : set.add heap digest function args value span = .ok next)
    (hargs : heap.sameArgs args probe = true) :
    next.lookup heap function (heap.argKey digest args) probe = some value := by
  obtain ⟨top, hrecord, rfl⟩ := exists_record_of_add h
  rw [Layer.record, hsequential] at hrecord
  have htop := (Layer.override_cases hrecord).1
  rw [lookup_of_sequential (by exact hsequential), htop, Update.location,
    get?_insert_self, Option.filter_some, if_pos hargs]
  rfl

end UpdateSet

end AbstractStateMachine
