import AbstractStateMachine.Machine.Step
import AbstractStateMachine.Proofs.Location.Buckets
import AbstractStateMachine.Proofs.UpdateSet.Layers

/-!
# The values a machine holds

Between two calls a machine holds the values in its state, in its pending updates and in the
conditions of its path. An operation on one of these adds no value but those it is given.
-/

namespace AbstractStateMachine

namespace Interpretation

variable {state : Interpretation} {heap : ListHeap} {function : FunctionId} {key : ArgKey}
  {args : List Value} {value probe : Value}

theorem mem_values_iff : probe ∈ state.values ↔
    ∃ table ∈ state.tables, ∃ bucket ∈ table.values, ∃ location ∈ bucket,
      probe ∈ location.args ∨ probe = location.value := by
  simp only [values, locations, List.mem_flatMap, List.mem_flatten, List.mem_append,
    List.mem_singleton, Array.mem_toList_iff]
  constructor
  · rintro ⟨location, ⟨table, htable, bucket, hbucket, hlocation⟩, hprobe⟩
    exact ⟨table, htable, bucket, hbucket, location, hlocation, hprobe⟩
  · rintro ⟨table, htable, bucket, hbucket, location, hlocation, hprobe⟩
    exact ⟨location, ⟨table, htable, bucket, hbucket, hlocation⟩, hprobe⟩

theorem mem_tables_of_mem_values {bucket : Bucket}
    (hbucket : bucket ∈ (state.table function).values) : state.table function ∈ state.tables := by
  unfold table at hbucket ⊢
  by_cases hlt : function.index < state.tables.size
  · rw [Array.getD_eq_getD_getElem?, Array.getElem?_eq_getElem hlt, Option.getD_some]
    exact Array.getElem_mem hlt
  · rw [Array.getD_eq_getD_getElem?, Array.getElem?_eq_none (by omega), Option.getD_none] at hbucket
    cases hbucket

theorem mem_values_of_mem_bucket {location : StoredLocation}
    (h : location ∈ state.bucket function key)
    (hprobe : probe ∈ location.args ∨ probe = location.value) : probe ∈ state.values := by
  rw [bucket] at h
  cases hbucket : (state.table function).get? key with
  | none =>
    rw [hbucket] at h
    cases h
  | some bucket =>
    rw [hbucket] at h
    have hmem := OrderedMap.mem_values_of_get? hbucket
    exact mem_values_iff.mpr
      ⟨_, mem_tables_of_mem_values hmem, bucket, hmem, location, h, hprobe⟩

theorem mem_values_of_get? (h : state.get? heap function key args = some value) :
    value ∈ state.values := by
  obtain ⟨bucket, hbucket, hvalue⟩ := Option.bind_eq_some_iff.mp h
  obtain ⟨location, hlocation, rfl⟩ := Option.map_eq_some_iff.mp hvalue
  have hmem := OrderedMap.mem_values_of_get? hbucket
  exact mem_values_iff.mpr ⟨_, mem_tables_of_mem_values hmem, bucket, hmem, location,
    List.mem_of_find?_eq_some hlocation, Or.inr rfl⟩

theorem mem_bucket_set {bucket : Bucket} {location : StoredLocation}
    (h : location ∈ Bucket.set heap args value bucket) :
    (location.args = args ∨ ∃ old ∈ bucket, location.args = old.args) ∧
      (location.value = value ∨ location ∈ bucket) := by
  induction bucket with
  | nil =>
    rw [Bucket.set, List.mem_singleton] at h
    subst h
    exact ⟨Or.inl rfl, Or.inl rfl⟩
  | cons first rest ih =>
    rw [Bucket.set] at h
    split at h <;> rcases List.mem_cons.mp h with rfl | hrest
    · exact ⟨Or.inr ⟨first, List.mem_cons_self, rfl⟩, Or.inl rfl⟩
    · exact ⟨Or.inr ⟨location, List.mem_cons_of_mem _ hrest, rfl⟩,
        Or.inr (List.mem_cons_of_mem _ hrest)⟩
    · exact ⟨Or.inr ⟨_, List.mem_cons_self, rfl⟩, Or.inr List.mem_cons_self⟩
    · obtain ⟨hargs, hvalue⟩ := ih hrest
      refine ⟨hargs.imp_right ?_, hvalue.imp_right (List.mem_cons_of_mem _)⟩
      rintro ⟨old, hold, heq⟩
      exact ⟨old, List.mem_cons_of_mem _ hold, heq⟩

theorem mem_values_set (h : probe ∈ (state.set heap function key args value).values) :
    probe ∈ args ∨ probe = value ∨ probe ∈ state.values := by
  obtain ⟨table, htable, bucket, hbucket, location, hlocation, hprobe⟩ := mem_values_iff.mp h
  have hold : ∀ {table : Table} {bucket : Bucket}, table ∈ state.tables → bucket ∈ table.values →
      ∀ location ∈ bucket, ∀ probe, probe ∈ location.args ∨ probe = location.value →
        probe ∈ state.values :=
    fun htable hbucket location hlocation probe hprobe =>
      mem_values_iff.mpr ⟨_, htable, _, hbucket, location, hlocation, hprobe⟩
  rcases Array.mem_or_eq_of_mem_setIfInBounds htable with hmem | rfl
  · exact Or.inr (Or.inr (hold hmem hbucket location hlocation probe hprobe))
  rcases OrderedMap.mem_values_insert hbucket with rfl | hmem
  · -- The bucket that the location is stored in: its other locations come from an old bucket.
    obtain ⟨hargs, hvalue⟩ := mem_bucket_set hlocation
    rcases hprobe with hprobe | rfl
    · rcases hargs with heq | ⟨old, hmem, heq⟩
      · exact Or.inl (heq ▸ hprobe)
      · exact Or.inr (Or.inr (mem_values_of_mem_bucket hmem (Or.inl (heq ▸ hprobe))))
    · rcases hvalue with heq | hmem
      · exact Or.inr (Or.inl heq)
      · exact Or.inr (Or.inr (mem_values_of_mem_bucket hmem (Or.inr rfl)))
  · exact Or.inr (Or.inr (hold (mem_tables_of_mem_values hmem) hmem location hlocation probe hprobe))

end Interpretation

def Update.values (update : Update) : List Value := update.args ++ [update.value]

namespace Layer

variable {heap : ListHeap} {layer result : Layer} {update : Update} {probe : Value}

def held (layer : Layer) : List Value := layer.values.flatMap Update.values

theorem mem_held_record {parallel : Bool} (h : layer.record heap parallel update = .ok result)
    (hprobe : probe ∈ result.held) : probe ∈ update.values ∨ probe ∈ layer.held := by
  obtain ⟨other, hother, hprobe⟩ := List.mem_flatMap.mp hprobe
  rcases mem_values_record h hother with rfl | hold
  · exact Or.inl hprobe
  · exact Or.inr (List.mem_flatMap.mpr ⟨other, hold, hprobe⟩)

theorem mem_held_recordAll {parallel : Bool} {updates : List Update}
    (hprobe : probe ∈ held (layer.recordAll heap parallel updates).1) :
    probe ∈ layer.held ∨ ∃ update ∈ updates, probe ∈ update.values := by
  obtain ⟨other, hother, hprobe⟩ := List.mem_flatMap.mp hprobe
  rcases mem_values_recordAll hother with hold | hmem
  · exact Or.inl (List.mem_flatMap.mpr ⟨other, hold, hprobe⟩)
  · exact Or.inr ⟨other, hmem, hprobe⟩

end Layer

namespace UpdateSet

variable {set result : UpdateSet} {heap : ListHeap} {digest : Digest} {function : FunctionId}
  {args : List Value} {value probe : Value} {span : Span}

def held (set : UpdateSet) : List Value := set.layers.flatMap Layer.held

theorem mem_held_of_top (h : probe ∈ set.top.held) : probe ∈ set.held :=
  List.mem_flatMap.mpr ⟨set.top, List.mem_cons_self, h⟩

theorem mem_held_of_below {layer : Layer} (hlayer : layer ∈ set.below) (h : probe ∈ layer.held) :
    probe ∈ set.held :=
  List.mem_flatMap.mpr ⟨layer, List.mem_cons_of_mem _ hlayer, h⟩

theorem mem_held_cases (h : probe ∈ set.held) :
    probe ∈ set.top.held ∨ ∃ layer ∈ set.below, probe ∈ layer.held := by
  obtain ⟨layer, hlayer, hprobe⟩ := List.mem_flatMap.mp h
  rcases List.mem_cons.mp hlayer with rfl | hbelow
  · exact Or.inl hprobe
  · exact Or.inr ⟨layer, hbelow, hprobe⟩

theorem mem_held_add (h : set.add heap digest function args value span = .ok result)
    (hprobe : probe ∈ result.held) : probe ∈ args ∨ probe = value ∨ probe ∈ set.held := by
  obtain ⟨top, hrecord, rfl⟩ := exists_record_of_add h
  rcases mem_held_cases hprobe with htop | ⟨layer, hlayer, hmem⟩
  · rcases Layer.mem_held_record hrecord htop with hnew | hold
    · rcases List.mem_append.mp hnew with hargs | hvalue
      · exact Or.inl hargs
      · exact Or.inr (Or.inl (List.mem_singleton.mp hvalue))
    · exact Or.inr (Or.inr (mem_held_of_top hold))
  · exact Or.inr (Or.inr (mem_held_of_below hlayer hmem))

theorem mem_held_push (h : probe ∈ set.push.held) : probe ∈ set.held := by
  rcases mem_held_cases h with htop | ⟨layer, hlayer, hprobe⟩
  · cases htop
  · exact List.mem_flatMap.mpr ⟨layer, hlayer, hprobe⟩

theorem mem_held_forkParallel (h : probe ∈ set.forkParallel.2.held) : probe ∈ set.held := by
  unfold forkParallel at h
  split at h
  · exact h
  · exact mem_held_push h

theorem mem_held_forkSequential (h : probe ∈ set.forkSequential.2.held) : probe ∈ set.held := by
  unfold forkSequential at h
  split at h
  · exact mem_held_push h
  · exact h

theorem mem_held_mergeTop {agree : Bool} (h : probe ∈ (set.mergeTop heap agree).1.held) :
    probe ∈ set.held := by
  unfold mergeTop at h
  split at h
  · exact h
  · next parent below hbelow =>
      have hlayer : ∀ layer ∈ parent :: below, probe ∈ layer.held → probe ∈ set.held :=
        fun layer hlayer => mem_held_of_below (hbelow ▸ hlayer)
      rcases mem_held_cases h with htop | ⟨layer, hmem, hprobe⟩
      · rcases Layer.mem_held_recordAll htop with hparent | ⟨update, hupdate, hprobe⟩
        · exact hlayer parent List.mem_cons_self hparent
        · -- Moving an update to another layer keeps its values.
          obtain ⟨moved, hmoved, rfl⟩ := List.mem_map.mp hupdate
          exact mem_held_of_top (List.mem_flatMap.mpr ⟨moved, hmoved, hprobe⟩)
      · exact hlayer layer (List.mem_cons_of_mem _ hmem) hprobe

theorem mem_held_merge {forked : Bool} (h : probe ∈ (set.merge heap forked).1.held) :
    probe ∈ set.held := by
  unfold merge at h
  split at h
  · exact mem_held_mergeTop h
  · exact h

theorem mem_held_mergeRound {forked : Bool} (h : probe ∈ (set.mergeRound heap forked).1.held) :
    probe ∈ set.held := by
  unfold mergeRound at h
  split at h
  · exact mem_held_mergeTop h
  · exact h

theorem mem_held_of_lookup {key : ArgKey} (h : set.lookup heap function key args = some value) :
    value ∈ set.held := by
  suffices hlayers : ∀ layers, lookupIn heap function key args layers = some value →
      value ∈ layers.flatMap Layer.held from hlayers _ h
  intro layers
  induction layers with
  | nil => rintro ⟨⟩
  | cons layer below ih =>
    intro hfound
    rw [List.flatMap_cons, List.mem_append]
    rw [lookupIn] at hfound
    split at hfound
    · next update hupdate =>
        cases hfound
        split at hupdate
        · cases hupdate
        · have hmem := OrderedMap.mem_values_of_get? (Option.filter_eq_some_iff.mp hupdate).1
          refine Or.inl (List.mem_flatMap.mpr ⟨update, hmem, ?_⟩)
          exact List.mem_append_right _ (List.mem_singleton_self _)
    · exact Or.inr (ih hfound)

theorem bottom_mem_layers (set : UpdateSet) : set.bottom ∈ set.layers := by
  unfold bottom layers
  cases hbelow : set.below with
  | nil => exact List.mem_cons_self
  | cons parent rest =>
    rw [List.getLastD_cons]
    exact List.mem_cons_of_mem _ (List.getLastD_mem_cons ..)

theorem mem_held_of_mem_updates {update : Update} (hupdate : update ∈ set.updates)
    (h : probe ∈ update.values) : probe ∈ set.held :=
  List.mem_flatMap.mpr
    ⟨set.bottom, set.bottom_mem_layers, List.mem_flatMap.mpr ⟨update, hupdate, h⟩⟩

end UpdateSet

namespace Recorder

variable {recorder : Recorder}

theorem view_foldl {X α : Type} (view : Recorder → X) {record : Recorder → α → Recorder}
    (hrecord : ∀ recorder entry, view (record recorder entry) = view recorder) (entries : List α) :
    view (entries.foldl record recorder) = view recorder := by
  induction entries generalizing recorder with
  | nil => rfl
  | cons entry rest ih => rw [List.foldl_cons, ih, hrecord]

theorem path_create (key : LocationKey) (location : TrackedLocation) :
    (recorder.create key location).path = recorder.path := by
  refine view_foldl path (fun recorder time => ?_) (List.range (recorder.timestamp + 1))
  rfl

theorem path_repeatOthers (touched : List LocationKey) :
    (recorder.repeatOthers touched).path = recorder.path := by
  refine view_foldl path (fun recorder entry => ?_) _
  dsimp only
  split <;> rfl

theorem path_finish : recorder.finish.path = recorder.path := by
  refine view_foldl path (fun recorder location => ?_) recorder.tracked.values
  rfl

end Recorder

namespace Machine

/-- The values that survive a call: stored arguments and values, the operands of the conditions of
the path, and what is pending. -/
def held (machine : Machine) : List Value :=
  (machine.state.locations.flatMap fun location => location.args ++ [location.value]) ++
    (machine.recorder.path.flatMap fun cond => [cond.lhs, cond.rhs]) ++ machine.pending.held

theorem held_eq (machine : Machine) : machine.held = machine.roots ++ machine.pending.held := rfl

end Machine

end AbstractStateMachine
