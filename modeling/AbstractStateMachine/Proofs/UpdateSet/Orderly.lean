import AbstractStateMachine.Proofs.Location.Stability
import AbstractStateMachine.Proofs.Machine.Holdings
import AbstractStateMachine.Proofs.UpdateSet.Blocks

/-!
# Orderly update sets

In an orderly layer every update lies under its own location, there is one update for each, and the
key in it is that of its arguments. All operations of an update set keep its layers orderly, so the
updates of a completed step are for different locations.
-/

namespace AbstractStateMachine

namespace Layer

variable {heap later : ListHeap} {digest : Digest} {layer result : Layer} {update : Update}
  {updates : List Update} {parallel : Bool}

/-- Every update lies under its own location, and there is one for each. -/
structure Indexed (layer : Layer) : Prop where
  nodup : layer.keys.Nodup
  location : ∀ key update, layer.get? key = some update → key = update.location

structure Orderly (heap : ListHeap) (digest : Digest) (layer : Layer) : Prop
    extends layer.Indexed where
  filed : layer.Filed heap digest

theorem indexed_empty : Indexed .empty where
  nodup := List.nodup_nil
  location := nofun

theorem orderly_empty : Orderly heap digest .empty where
  toIndexed := indexed_empty
  filed := nofun

theorem Indexed.record (h : layer.Indexed)
    (hrecord : layer.record heap parallel update = .ok result) : result.Indexed := by
  have hinsert : result = layer ∨ result = layer.insert update.location update := by
    cases parallel with
    | true =>
      obtain ⟨-, rfl⟩ | ⟨existing, -, -, rfl⟩ := join_cases hrecord
      · exact .inr rfl
      · exact .inl rfl
    | false => exact .inr (override_cases hrecord).1
  refine ⟨?_, fun key found hfound => ?_⟩
  · rcases hinsert with rfl | rfl
    · exact h.nodup
    · exact OrderedMap.nodup_keys_insert h.nodup
  · rcases hinsert with rfl | rfl
    · exact h.location key found hfound
    · rw [OrderedMap.get?_insert] at hfound
      split at hfound
      · next heq =>
          cases hfound
          exact heq
      · exact h.location key found hfound

theorem Orderly.record (h : layer.Orderly heap digest)
    (hkey : update.key = heap.argKey digest update.args)
    (hrecord : layer.record heap parallel update = .ok result) : result.Orderly heap digest :=
  ⟨h.toIndexed.record hrecord, h.filed.record hkey hrecord⟩

theorem Orderly.agrees (h : layer.Orderly heap digest) (hagrees : heap.Agrees later)
    (hheld : heap.Supports layer.held) (hheld' : later.Supports layer.held) :
    layer.Orderly later digest := by
  refine { h with filed := fun update hupdate => ?_ }
  have hargs : ∀ value ∈ update.args, value ∈ layer.held := fun value hvalue =>
    List.mem_flatMap.mpr ⟨update, hupdate, List.mem_append_left _ hvalue⟩
  rw [hagrees.argKey_eq (hheld.mono hargs) (hheld'.mono hargs)]
  exact h.filed update hupdate

/-- A property of layers that lasts as long as the updates recorded in them are allowed, which those
in the layers themselves are. -/
structure Lasting (heap : ListHeap) (P : Layer → Prop) (allowed : Update → Prop) : Prop where
  empty : P .empty
  record : ∀ {layer result : Layer} {update : Update} {parallel : Bool}, P layer →
    allowed update → layer.record heap parallel update = .ok result → P result
  moved : ∀ {layer : Layer} {update : Update}, P layer → update ∈ layer.values →
    ∀ depth, allowed (update.movedTo depth)

theorem lasting_indexed (heap : ListHeap) : Lasting heap Indexed fun _ => True where
  empty := indexed_empty
  record h _ hrecord := h.record hrecord
  moved _ _ _ := trivial

theorem lasting_orderly (heap : ListHeap) (digest : Digest) : Lasting heap (Orderly heap digest)
    fun update => update.key = heap.argKey digest update.args where
  empty := orderly_empty
  record h hkey hrecord := h.record hkey hrecord
  moved {_ update} h hupdate _ := h.filed update hupdate

theorem Lasting.recordAll {P : Layer → Prop} {allowed : Update → Prop}
    (hlasting : Lasting heap P allowed) (h : P layer)
    (hupdates : ∀ update ∈ updates, allowed update) :
    P (layer.recordAll heap parallel updates).1 :=
  recordAll_keeps h fun update hupdate h => hlasting.record h (hupdates update hupdate)

theorem Indexed.map_location (h : layer.Indexed) :
    layer.values.map Update.location = layer.keys := by
  rw [OrderedMap.values, OrderedMap.keys, List.map_map]
  refine List.map_congr_left fun entry hentry => ?_
  exact (h.location entry.1 entry.2 (OrderedMap.get?_of_mem_entries h.nodup hentry)).symm

theorem Indexed.get?_location (h : layer.Indexed) (hupdate : update ∈ layer.values) :
    layer.get? update.location = some update := by
  obtain ⟨⟨key, update⟩, hentry, rfl⟩ := List.mem_map.mp hupdate
  have hfound := OrderedMap.get?_of_mem_entries h.nodup hentry
  rwa [← h.location key update hfound]

end Layer

namespace UpdateSet

variable {heap later : ListHeap} {digest : Digest} {set next : UpdateSet}

/-! ### Layers of an update set -/

section Lasting

variable {P : Layer → Prop} {allowed : Update → Prop} (hlasting : Layer.Lasting heap P allowed)
  (h : ∀ layer ∈ set.layers, P layer)
include hlasting h

theorem forall_layers_add {function : FunctionId} {args : List Value} {value : Value} {span : Span}
    (hallowed : allowed ⟨function, heap.argKey digest args, args, value, span, set.depth⟩)
    (hadd : set.add heap digest function args value span = .ok next) :
    ∀ layer ∈ next.layers, P layer := by
  obtain ⟨htop, hbelow⟩ := List.forall_mem_cons.mp h
  obtain ⟨top, hrecord, rfl⟩ := exists_record_of_add hadd
  exact List.forall_mem_cons.mpr ⟨hlasting.record htop hallowed hrecord, hbelow⟩

theorem forall_layers_push : ∀ layer ∈ set.push.layers, P layer :=
  List.forall_mem_cons.mpr ⟨hlasting.empty, h⟩

theorem forall_layers_forkParallel : ∀ layer ∈ set.forkParallel.2.layers, P layer := by
  unfold UpdateSet.forkParallel
  split
  · exact h
  · exact forall_layers_push hlasting h

theorem forall_layers_forkSequential : ∀ layer ∈ set.forkSequential.2.layers, P layer := by
  unfold UpdateSet.forkSequential
  split
  · exact forall_layers_push hlasting h
  · exact h

theorem forall_layers_mergeTop (agree : Bool) :
    ∀ layer ∈ (set.mergeTop heap agree).1.layers, P layer := by
  obtain ⟨top, _ | ⟨parent, below⟩⟩ := set
  · exact h
  · obtain ⟨htop, hbelow⟩ := List.forall_mem_cons.mp h
    obtain ⟨hparent, hrest⟩ := List.forall_mem_cons.mp hbelow
    rw [mergeTop_of_below rfl]
    refine List.forall_mem_cons.mpr ⟨hlasting.recordAll hparent fun update hupdate => ?_, hrest⟩
    obtain ⟨old, hold, rfl⟩ := List.mem_map.mp hupdate
    exact hlasting.moved htop hold below.length

theorem forall_layers_merge (forked : Bool) :
    ∀ layer ∈ (set.merge heap forked).1.layers, P layer := by
  cases forked with
  | true => exact forall_layers_mergeTop hlasting h set.inParallel
  | false => exact h

theorem forall_layers_mergeRound (forked : Bool) :
    ∀ layer ∈ (set.mergeRound heap forked).1.layers, P layer := by
  cases forked with
  | true => exact forall_layers_mergeTop hlasting h false
  | false => exact h

end Lasting

def Orderly (heap : ListHeap) (digest : Digest) (set : UpdateSet) : Prop :=
  ∀ layer ∈ set.layers, layer.Orderly heap digest

theorem orderly_default : Orderly heap digest {} :=
  List.forall_mem_singleton.mpr Layer.orderly_empty

theorem Orderly.add (h : set.Orderly heap digest) {function : FunctionId} {args : List Value}
    {value : Value} {span : Span}
    (hadd : set.add heap digest function args value span = .ok next) :
    next.Orderly heap digest :=
  forall_layers_add (Layer.lasting_orderly heap digest) h rfl hadd

theorem Orderly.forkParallel (h : set.Orderly heap digest) :
    set.forkParallel.2.Orderly heap digest :=
  forall_layers_forkParallel (Layer.lasting_orderly heap digest) h

theorem Orderly.forkSequential (h : set.Orderly heap digest) :
    set.forkSequential.2.Orderly heap digest :=
  forall_layers_forkSequential (Layer.lasting_orderly heap digest) h

theorem Orderly.merge (h : set.Orderly heap digest) (forked : Bool) :
    (set.merge heap forked).1.Orderly heap digest :=
  forall_layers_merge (Layer.lasting_orderly heap digest) h forked

theorem Orderly.mergeRound (h : set.Orderly heap digest) (forked : Bool) :
    (set.mergeRound heap forked).1.Orderly heap digest :=
  forall_layers_mergeRound (Layer.lasting_orderly heap digest) h forked

theorem Orderly.agrees (h : set.Orderly heap digest) (hagrees : heap.Agrees later)
    (hheld : heap.Supports set.held) (hheld' : later.Supports set.held) :
    set.Orderly later digest := by
  intro layer hlayer
  have hsub : ∀ value ∈ layer.held, value ∈ set.held := fun value hvalue =>
    List.mem_flatMap.mpr ⟨layer, hlayer, hvalue⟩
  exact (h layer hlayer).agrees hagrees (hheld.mono hsub) (hheld'.mono hsub)

theorem Orderly.nodup_updates (h : set.Orderly heap digest) :
    (set.updates.map Update.location).Nodup := by
  have hbottom := h set.bottom set.bottom_mem_layers
  rw [updates, hbottom.map_location]
  exact hbottom.nodup

theorem Orderly.key_eq (h : set.Orderly heap digest) {update : Update}
    (hupdate : update ∈ set.updates) : update.key = heap.argKey digest update.args :=
  (h set.bottom set.bottom_mem_layers).filed update hupdate

end UpdateSet

end AbstractStateMachine
