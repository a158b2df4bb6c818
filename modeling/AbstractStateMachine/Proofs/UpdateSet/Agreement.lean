import AbstractStateMachine.Proofs.OrderedMap
import AbstractStateMachine.Proofs.Value.Equality
import AbstractStateMachine.UpdateSet

/-!
# Agreement of parallel writes

The writes of a parallel block have to agree where they meet. They are filed by key, so they meet
where their keys are the same, and of the writes with one key the first stands for all. This is the
same as meeting at one location exactly if keys tell the written locations apart and equal
arguments share a key.
-/

namespace AbstractStateMachine

open OrderedMap Layer

/-- What names a location: a function and arguments. -/
structure Place where
  function : FunctionId
  args : List Value
  deriving DecidableEq, Repr

structure Write extends Place where
  value : Value
  span : Span := {}
  deriving DecidableEq, Repr

namespace Place

def SameLocation (heap : ListHeap) (place other : Place) : Prop :=
  place.function = other.function ∧ heap.sameArgs place.args other.args = true

def SameKey (heap : ListHeap) (digest : Digest) (place other : Place) : Prop :=
  place.function = other.function ∧ heap.argKey digest place.args = heap.argKey digest other.args

end Place

namespace Write

def toUpdate (heap : ListHeap) (digest : Digest) (depth : Nat) (write : Write) : Update :=
  { function := write.function, key := heap.argKey digest write.args, args := write.args,
    value := write.value, span := write.span, layer := depth }

/-- Writes to places that meet have equal values. -/
def Agree (heap : ListHeap) (meets : Place → Place → Prop) (writes : List Write) : Prop :=
  writes.Pairwise fun write other =>
    meets write.toPlace other.toPlace → heap.equal write.value other.value = true

end Write

namespace Update

def location (update : Update) : LocationKey := (update.function, update.key)

end Update

namespace Layer

variable {heap : ListHeap} {layer result : Layer} {update found : Update} {updates : List Update}
  {key : LocationKey}

def joinAll (heap : ListHeap) (layer : Layer) (updates : List Update) : Except Fault Layer :=
  updates.foldlM (join heap) layer

theorem joinAll_cons : layer.joinAll heap (update :: updates) =
    (layer.join heap update).bind fun next => next.joinAll heap updates := rfl

theorem join_of_get?_eq_none (h : layer.get? update.location = none) :
    layer.join heap update = .ok (layer.insert update.location update) := by
  rw [Update.location] at h
  rw [join, h, Update.location]

theorem join_of_get?_eq_some {existing : Update} (h : layer.get? update.location = some existing) :
    layer.join heap update =
      if heap.equal existing.value update.value then .ok layer
      else .error (conflict .disagreement existing update) := by
  rw [Update.location] at h
  rw [join, h]

theorem join_cases (h : layer.join heap update = .ok result) :
    (layer.get? update.location = none ∧ result = layer.insert update.location update) ∨
      ∃ existing, layer.get? update.location = some existing ∧
        heap.equal existing.value update.value = true ∧ result = layer := by
  cases hfound : layer.get? update.location with
  | none =>
    rw [join_of_get?_eq_none hfound] at h
    exact Or.inl ⟨rfl, (Except.ok.inj h).symm⟩
  | some existing =>
    rw [join_of_get?_eq_some hfound] at h
    split at h
    · next hequal => exact Or.inr ⟨existing, rfl, hequal, (Except.ok.inj h).symm⟩
    · cases h

theorem nodup_keys_join (hnodup : layer.keys.Nodup) (h : layer.join heap update = .ok result) :
    result.keys.Nodup := by
  obtain ⟨-, rfl⟩ | ⟨existing, -, -, rfl⟩ := join_cases h
  · exact nodup_keys_insert hnodup
  · exact hnodup

theorem get?_join_mono (h : layer.join heap update = .ok result)
    (hfound : layer.get? key = some found) : result.get? key = some found := by
  obtain ⟨hnone, rfl⟩ | ⟨existing, -, -, rfl⟩ := join_cases h
  · have hne : key ≠ update.location := by
      rintro rfl
      rw [hnone] at hfound
      cases hfound
    rw [get?_insert_of_ne _ _ hne, hfound]
  · exact hfound

theorem get?_join_self (h : layer.join heap update = .ok result) :
    ∃ found, result.get? update.location = some found ∧
      (found = update ∨ heap.equal found.value update.value = true) := by
  obtain ⟨-, rfl⟩ | ⟨existing, hfound, hequal, rfl⟩ := join_cases h
  · exact ⟨update, get?_insert_self _ _ _, Or.inl rfl⟩
  · exact ⟨existing, hfound, Or.inr hequal⟩

theorem get?_join_cases (h : layer.join heap update = .ok result)
    (hfound : result.get? key = some found) :
    layer.get? key = some found ∨ (found = update ∧ update.location = key) := by
  obtain ⟨-, rfl⟩ | ⟨existing, -, -, rfl⟩ := join_cases h
  · rw [get?_insert] at hfound
    split at hfound
    · next hkey => exact Or.inr ⟨(Option.some.inj hfound).symm, hkey.symm⟩
    · exact Or.inl hfound
  · exact Or.inl hfound

theorem exists_join_of_joinAll_cons (h : layer.joinAll heap (update :: updates) = .ok result) :
    ∃ next, layer.join heap update = .ok next ∧ next.joinAll heap updates = .ok result := by
  rw [joinAll_cons] at h
  cases hjoin : layer.join heap update with
  | error fault =>
    rw [hjoin] at h
    cases h
  | ok next =>
    rw [hjoin] at h
    exact ⟨next, rfl, h⟩

theorem nodup_keys_joinAll (hnodup : layer.keys.Nodup)
    (h : layer.joinAll heap updates = .ok result) : result.keys.Nodup := by
  induction updates generalizing layer with
  | nil =>
    cases h
    exact hnodup
  | cons update rest ih =>
    obtain ⟨next, hjoin, hrest⟩ := exists_join_of_joinAll_cons h
    exact ih (nodup_keys_join hnodup hjoin) hrest

theorem get?_joinAll_mono (h : layer.joinAll heap updates = .ok result)
    (hfound : layer.get? key = some found) : result.get? key = some found := by
  induction updates generalizing layer with
  | nil =>
    cases h
    exact hfound
  | cons update rest ih =>
    obtain ⟨next, hjoin, hrest⟩ := exists_join_of_joinAll_cons h
    exact ih hrest (get?_join_mono hjoin hfound)

theorem get?_joinAll_cases (h : layer.joinAll heap updates = .ok result)
    (hfound : result.get? key = some found) :
    layer.get? key = some found ∨ (found ∈ updates ∧ found.location = key) := by
  induction updates generalizing layer with
  | nil =>
    cases h
    exact Or.inl hfound
  | cons update rest ih =>
    obtain ⟨next, hjoin, hrest⟩ := exists_join_of_joinAll_cons h
    rcases ih hrest with hnext | ⟨hmem, hkey⟩
    · rcases get?_join_cases hjoin hnext with hold | ⟨rfl, hkey⟩
      · exact Or.inl hold
      · exact Or.inr ⟨List.mem_cons_self, hkey⟩
    · exact Or.inr ⟨List.mem_cons_of_mem _ hmem, hkey⟩

/-- Of the updates with one key the first stands for all. -/
theorem get?_joinAll_of_mem (h : layer.joinAll heap updates = .ok result) (hmem : update ∈ updates) :
    ∃ found, result.get? update.location = some found ∧
      (found = update ∨ heap.equal found.value update.value = true) := by
  induction updates generalizing layer with
  | nil => cases hmem
  | cons first rest ih =>
    obtain ⟨next, hjoin, hrest⟩ := exists_join_of_joinAll_cons h
    rcases List.mem_cons.mp hmem with rfl | hlater
    · obtain ⟨found, hfound, hequal⟩ := get?_join_self hjoin
      exact ⟨found, get?_joinAll_mono hrest hfound, hequal⟩
    · exact ih hrest hlater

/-- Updates can be joined if each agrees with what the layer holds under its key and with the
other updates of its key. -/
theorem joinAll_ok_iff : (∃ result, layer.joinAll heap updates = .ok result) ↔
    (∀ update ∈ updates, ∀ existing, layer.get? update.location = some existing →
      heap.equal existing.value update.value = true) ∧
    updates.Pairwise fun update other =>
      update.location = other.location → heap.equal update.value other.value = true := by
  induction updates generalizing layer with
  | nil => exact iff_of_true ⟨layer, rfl⟩ ⟨by simp, List.Pairwise.nil⟩
  | cons first rest ih =>
    rw [joinAll_cons, List.pairwise_cons, List.forall_mem_cons]
    cases hfound : layer.get? first.location with
    | none =>
      rw [join_of_get?_eq_none hfound]
      refine ih.trans ⟨?_, ?_⟩
      · rintro ⟨hheld, hpairs⟩
        refine ⟨⟨by simp, ?_⟩, ?_, hpairs⟩
        · intro update hmem existing hexisting
          refine hheld update hmem existing ?_
          have hne : update.location ≠ first.location := by
            intro heq
            rw [heq, hfound] at hexisting
            cases hexisting
          rwa [get?_insert_of_ne _ _ hne]
        · intro update hmem hkey
          exact hheld update hmem first (hkey ▸ get?_insert_self _ _ _)
      · rintro ⟨⟨-, hheld⟩, hfirst, hpairs⟩
        refine ⟨?_, hpairs⟩
        intro update hmem existing hexisting
        rw [get?_insert] at hexisting
        split at hexisting
        · next hkey => exact Option.some.inj hexisting ▸ hfirst update hmem hkey.symm
        · exact hheld update hmem existing hexisting
    | some existing =>
      rw [join_of_get?_eq_some hfound]
      by_cases hequal : heap.equal existing.value first.value = true
      · rw [if_pos hequal]
        refine ih.trans ⟨?_, fun h => ⟨h.1.2, h.2.2⟩⟩
        rintro ⟨hheld, hpairs⟩
        refine ⟨⟨?_, hheld⟩, ?_, hpairs⟩
        · rintro _ ⟨⟩
          exact hequal
        · intro update hmem hkey
          have hother := hheld update hmem existing (hkey ▸ hfound)
          exact ListHeap.equal_trans (ListHeap.equal_symm hequal) hother
      · rw [if_neg hequal]
        refine iff_of_false (by rintro ⟨_, ⟨⟩⟩) ?_
        rintro ⟨⟨hheld, -⟩, -⟩
        exact hequal (hheld existing rfl)

theorem recordAll_of_fresh (parallel : Bool) (hnodup : (updates.map Update.location).Nodup)
    (hfresh : ∀ update ∈ updates, layer.get? update.location = none) :
    layer.recordAll heap parallel updates =
      (⟨layer.entries ++ updates.map fun update => (update.location, update)⟩, none) := by
  induction updates generalizing layer with
  | nil => simp [recordAll]
  | cons update rest ih =>
    obtain ⟨hnew, hrest⟩ := List.nodup_cons.mp hnodup
    have hnone := hfresh update List.mem_cons_self
    have hrecord : layer.record heap parallel update =
        .ok (layer.insert update.location update) := by
      rw [Update.location] at hnone
      cases parallel <;> simp [record, join, override, hnone, Update.location]
    have hlater : ∀ other ∈ rest,
        (layer.insert update.location update).get? other.location = none := by
      intro other hmem
      have hne : other.location ≠ update.location := by
        intro heq
        exact hnew (heq ▸ List.mem_map_of_mem hmem)
      rw [get?_insert_of_ne _ _ hne]
      exact hfresh other (List.mem_cons_of_mem _ hmem)
    rw [recordAll, hrecord]
    dsimp only
    rw [ih hrest hlater, entries_insert_of_get?_eq_none hnone]
    simp

end Layer

namespace UpdateSet

variable {base set : UpdateSet} {heap : ListHeap} {digest : Digest} {writes : List Write}

def addAll (set : UpdateSet) (heap : ListHeap) (digest : Digest) (writes : List Write) :
    Except Fault UpdateSet :=
  writes.foldlM (fun set write =>
    set.add heap digest write.function write.args write.value write.span) set

theorem addAll_of_inParallel (hparallel : set.inParallel = true) :
    set.addAll heap digest writes =
      (set.top.joinAll heap (writes.map (Write.toUpdate heap digest set.depth))).map
        fun top => { set with top } := by
  induction writes generalizing set with
  | nil => rfl
  | cons write rest ih =>
    have hadd : set.add heap digest write.function write.args write.value write.span =
        (set.top.join heap (write.toUpdate heap digest set.depth)).map
          fun top => { set with top } := by
      rw [add, record, if_pos hparallel]
      rfl
    rw [addAll, List.foldlM_cons, hadd, List.map_cons, joinAll_cons]
    cases set.top.join heap (write.toUpdate heap digest set.depth) with
    | error fault => rfl
    | ok top => exact ih hparallel

theorem forkParallel_of_sequential (hbase : base.inParallel = false) :
    base.forkParallel = (true, base.push) := by
  rw [forkParallel, hbase]
  rfl

theorem inParallel_push : base.push.inParallel = !base.inParallel := by
  have hdepth : base.push.depth = base.depth + 1 := rfl
  rw [inParallel, inParallel, hdepth]
  rcases Nat.mod_two_eq_zero_or_one base.depth with heven | hodd
  · rw [heven, Nat.add_mod, heven]
    rfl
  · rw [hodd, Nat.add_mod, hodd]
    rfl

theorem addAll_forkParallel_eq_ok_iff (hbase : base.inParallel = false) :
    base.forkParallel.2.addAll heap digest writes = .ok set ↔
      ∃ layer, joinAll heap .empty (writes.map (Write.toUpdate heap digest (base.depth + 1))) =
        .ok layer ∧ set = ⟨layer, base.top :: base.below⟩ := by
  have hparallel : base.push.inParallel = true := by rw [inParallel_push, hbase]; rfl
  rw [forkParallel_of_sequential hbase, addAll_of_inParallel hparallel]
  show (joinAll heap .empty
    (writes.map (Write.toUpdate heap digest (base.depth + 1)))).map _ = _ ↔ _
  cases joinAll heap .empty (writes.map (Write.toUpdate heap digest (base.depth + 1))) with
  | error fault => simp [Except.map]
  | ok layer => simp [Except.map, push, eq_comm]

theorem addAll_forkParallel_ok_iff (hbase : base.inParallel = false) :
    (∃ set, base.forkParallel.2.addAll heap digest writes = .ok set) ↔
      Write.Agree heap (Place.SameKey heap digest) writes := by
  calc (∃ set, base.forkParallel.2.addAll heap digest writes = .ok set)
      ↔ ∃ layer, joinAll heap .empty
          (writes.map (Write.toUpdate heap digest (base.depth + 1))) = .ok layer := by
        simp only [addAll_forkParallel_eq_ok_iff hbase]
        rw [exists_comm]
        simp only [exists_and_left, exists_eq, and_true]
    _ ↔ Write.Agree heap (Place.SameKey heap digest) writes := by
        rw [joinAll_ok_iff, and_iff_right (by simp), List.pairwise_map]
        simp only [Write.toUpdate, Update.location, Prod.mk.injEq]
        rfl

/-- Updates filed under their own, distinct keys move into an empty layer as they are. -/
theorem merge_into_empty {layer : Layer} {below : List Layer} (hnodup : layer.keys.Nodup)
    (hfiled : ∀ entry ∈ layer.entries, entry.2.location = entry.1) :
    UpdateSet.merge ⟨layer, .empty :: below⟩ heap true =
      (⟨⟨layer.entries.map fun entry =>
        (entry.1, { entry.2 with layer := below.length })⟩, below⟩, none) := by
  let moved := layer.values.map fun update => { update with layer := below.length }
  have hentries : moved.map (fun update => (update.location, update)) =
      layer.entries.map fun entry => (entry.1, { entry.2 with layer := below.length }) := by
    simp only [moved, values, List.map_map]
    refine List.map_congr_left fun entry hentry => ?_
    rw [← hfiled entry hentry]
    rfl
  have hlocations : moved.map Update.location = layer.keys := by
    calc moved.map Update.location
        = (moved.map fun update => (update.location, update)).map (·.1) := by
          rw [List.map_map (l := moved)]
          rfl
      _ = layer.keys := by rw [hentries, keys, List.map_map]; rfl
  have hrecord := @recordAll_of_fresh heap .empty moved
    (UpdateSet.inParallel ⟨layer, .empty :: below⟩) (hlocations ▸ hnodup)
    (fun update _ => get?_empty update.location)
  show (UpdateSet.mk (recordAll heap _ .empty moved).1 below,
    (recordAll heap _ .empty moved).2) = _
  rw [hrecord, hentries]
  rfl

/-- Leaving the block keeps, for every write, an update of its function and key that stands for
it. -/
theorem merge_forkParallel (hbase : base.inParallel = false) (htop : base.top = .empty)
    (hset : base.forkParallel.2.addAll heap digest writes = .ok set) :
    ∃ merged, set.merge heap base.forkParallel.1 = (merged, none) ∧
      ∀ write ∈ writes, ∃ update ∈ merged.top.values, ∃ other ∈ writes,
        other.SameKey heap digest write.toPlace ∧ update.function = other.function ∧
        update.args = other.args ∧
        (update.value = write.value ∨ heap.equal update.value write.value = true) := by
  obtain ⟨layer, hjoin, rfl⟩ := (addAll_forkParallel_eq_ok_iff hbase).mp hset
  rw [forkParallel_of_sequential hbase, htop]
  have hnodup : layer.keys.Nodup := nodup_keys_joinAll (by exact List.nodup_nil) hjoin
  have hfiled : ∀ entry ∈ layer.entries, entry.2.location = entry.1 := by
    intro entry hentry
    have hfound := get?_of_mem_entries hnodup hentry
    rcases get?_joinAll_cases hjoin hfound with hnone | ⟨-, hkey⟩
    · cases hnone
    · exact hkey
  refine ⟨_, merge_into_empty hnodup hfiled, ?_⟩
  intro write hwrite
  obtain ⟨found, hfound, hvalue⟩ := get?_joinAll_of_mem hjoin (List.mem_map_of_mem hwrite)
  rcases get?_joinAll_cases hjoin hfound with hnone | ⟨hmem, hkey⟩
  · cases hnone
  · obtain ⟨other, hother, rfl⟩ := List.mem_map.mp hmem
    refine ⟨{ other.toUpdate heap digest (base.depth + 1) with layer := base.below.length }, ?_,
      other, hother, Prod.mk.inj hkey, rfl, rfl, ?_⟩
    · have hentry := mem_entries_of_get? hfound
      exact List.mem_map.mpr ⟨_, List.mem_map_of_mem hentry, rfl⟩
    · exact hvalue.imp_left fun heq => congrArg Update.value heq

end UpdateSet

end AbstractStateMachine
