import AbstractStateMachine.Proofs.UpdateSet.Layers

/-!
# Nested blocks without layers

A block is a tree of writes, parallel blocks and sequential blocks. `Block.run` runs it on an update
set, by entering and leaving blocks, with the kind of a block hidden in the parity of a stack of
layers. `Block.eval` says what a block means without any stack: it turns a map of writes into
another one, in a context that is either parallel or sequential, and only a block of the other kind
starts a map of its own. Main statement: the two agree on every block and every update set, in the
faults and in the writes that are left in the innermost layer.
-/

namespace AbstractStateMachine

open UpdateSet OrderedMap

inductive Block where
  | write (entry : Write)
  | par (body : List Block)
  | seq (body : List Block)

/-- Writes, each filed under its function and the key of its arguments. -/
abbrev WriteMap := OrderedMap LocationKey Write

def settle {α : Type} : α × Option Fault → Except Fault α
  | (result, none) => .ok result
  | (_, some fault) => .error fault

namespace Write

def location (heap : ListHeap) (digest : Digest) (write : Write) : LocationKey :=
  (write.function, heap.argKey digest write.args)

def clash (cause : Cause) (existing write : Write) : Fault :=
  { cause, span := write.span, other := some existing.span }

end Write

namespace WriteMap

variable (heap : ListHeap) (digest : Digest)

/-- Adds a write that has to agree with an earlier one of its key. -/
def join (map : WriteMap) (write : Write) : Except Fault WriteMap :=
  match map.get? (write.location heap digest) with
  | none => .ok (map.insert (write.location heap digest) write)
  | some existing =>
    if heap.equal existing.value write.value then .ok map
    else .error (Write.clash .disagreement existing write)

/-- Adds a write that takes the place of an earlier one of its key, which must have the same
arguments. -/
def override (map : WriteMap) (write : Write) : Except Fault WriteMap :=
  match map.get? (write.location heap digest) with
  | none => .ok (map.insert (write.location heap digest) write)
  | some existing =>
    if heap.sameArgs existing.args write.args then
      .ok (map.insert (write.location heap digest) write)
    else .error (Write.clash .keyCollision existing write)

def add (parallel : Bool) : WriteMap → Write → Except Fault WriteMap :=
  if parallel then join heap digest else override heap digest

end WriteMap

namespace Block

variable (heap : ListHeap) (digest : Digest)

mutual

/-- Enters and leaves blocks on an update set. -/
def run : Block → UpdateSet → Except Fault UpdateSet
  | .write entry, set => set.add heap digest entry.function entry.args entry.value entry.span
  | .par body, set => do
    let (forked, set) := set.forkParallel
    let set ← runAll body set
    settle (set.merge heap forked)
  | .seq body, set => do
    let (forked, set) := set.forkSequential
    let set ← runAll body set
    settle (set.merge heap forked)

def runAll : List Block → UpdateSet → Except Fault UpdateSet
  | [], set => .ok set
  | block :: rest, set => do
    let set ← run block set
    runAll rest set

end

mutual

/-- What a block makes of the writes before it, in a parallel or a sequential context. -/
def eval (parallel : Bool) : Block → WriteMap → Except Fault WriteMap
  | .write entry, map => map.add heap digest parallel entry
  | .par body, map =>
    if parallel then evalAll true body map
    else do
      let inner ← evalAll true body .empty
      inner.values.foldlM (WriteMap.join heap digest) map
  | .seq body, map =>
    if parallel then do
      let inner ← evalAll false body .empty
      inner.values.foldlM (WriteMap.override heap digest) map
    else evalAll false body map

def evalAll (parallel : Bool) : List Block → WriteMap → Except Fault WriteMap
  | [], map => .ok map
  | block :: rest, map => do
    let map ← eval parallel block map
    evalAll parallel rest map

end

end Block

def Update.write (update : Update) : Write :=
  { function := update.function, args := update.args, value := update.value, span := update.span }

namespace Layer

variable {heap : ListHeap} {digest : Digest} {layer result : Layer} {update : Update}
  {updates : List Update} {parallel : Bool}

def writes (layer : Layer) : WriteMap := layer.mapValues Update.write

def Filed (heap : ListHeap) (digest : Digest) (layer : Layer) : Prop :=
  ∀ update ∈ layer.values, update.key = heap.argKey digest update.args

theorem writes_record (hkey : update.key = heap.argKey digest update.args) :
    (layer.record heap parallel update).map writes =
      layer.writes.add heap digest parallel update.write := by
  have hlocation : update.write.location heap digest = (update.function, update.key) := by
    rw [hkey]
    rfl
  cases parallel with
  | true =>
    simp only [record, WriteMap.add, if_true, join, WriteMap.join, hlocation, writes,
      get?_mapValues]
    cases layer.get? (update.function, update.key) with
    | none => simp [Except.map, writes, mapValues_insert]
    | some existing =>
      have hvalues : heap.equal existing.write.value update.write.value =
          heap.equal existing.value update.value := rfl
      simp only [Option.map_some, hvalues]
      split <;> rfl
  | false =>
    simp only [record, WriteMap.add, override, WriteMap.override, hlocation, writes,
      get?_mapValues,
      Bool.false_eq_true, if_false]
    cases layer.get? (update.function, update.key) with
    | none => simp [Except.map, writes, mapValues_insert]
    | some existing =>
      have hargs : heap.sameArgs existing.write.args update.write.args =
          heap.sameArgs existing.args update.args := rfl
      simp only [Option.map_some, hargs]
      split
      · simp [Except.map, writes, mapValues_insert]
      · rfl

theorem writes_recordAll (hkeys : ∀ update ∈ updates, update.key = heap.argKey digest update.args) :
    (settle (layer.recordAll heap parallel updates)).map writes =
      (updates.map Update.write).foldlM (WriteMap.add heap digest parallel) layer.writes := by
  induction updates generalizing layer with
  | nil => rfl
  | cons update rest ih =>
    obtain ⟨hkey, hrest⟩ := List.forall_mem_cons.mp hkeys
    rw [List.map_cons, List.foldlM_cons, ← writes_record hkey, recordAll]
    cases layer.record heap parallel update with
    | error fault => rfl
    | ok next => exact ih hrest

theorem Filed.record (hfiled : layer.Filed heap digest)
    (hkey : update.key = heap.argKey digest update.args)
    (h : layer.record heap parallel update = .ok result) : result.Filed heap digest := by
  intro other hother
  rcases mem_values_record h hother with rfl | hold
  · exact hkey
  · exact hfiled other hold

theorem Filed.recordAll (hfiled : layer.Filed heap digest)
    (hkeys : ∀ update ∈ updates, update.key = heap.argKey digest update.args) :
    Filed heap digest (layer.recordAll heap parallel updates).1 :=
  fun update hupdate => (mem_values_recordAll hupdate).elim (hfiled update) (hkeys update)

end Layer

namespace UpdateSet

variable {heap : ListHeap} {digest : Digest} {parent : Layer} {below : List Layer}
  {set next : UpdateSet}

def view (set : UpdateSet) : WriteMap × List Layer := (set.top.writes, set.below)

theorem view_mergeTop (agree : Bool) (hfiled : set.top.Filed heap digest)
    (hbelow : set.below = parent :: below) :
    (settle (set.mergeTop heap agree)).map view =
      (set.top.writes.values.foldlM (WriteMap.add heap digest agree) parent.writes).map
        (·, below) := by
  have hmoved : ∀ update ∈ set.top.values.map (Update.movedTo below.length),
      update.key = heap.argKey digest update.args := by
    intro update hupdate
    obtain ⟨old, hold, rfl⟩ := List.mem_map.mp hupdate
    exact hfiled old hold
  have hwrites : (set.top.values.map (Update.movedTo below.length)).map Update.write =
      set.top.writes.values := by
    rw [Layer.writes, values_mapValues, List.map_map]
    rfl
  rw [← hwrites, ← Layer.writes_recordAll hmoved, mergeTop_of_below hbelow]
  dsimp only
  generalize parent.recordAll heap agree _ = merged
  obtain ⟨top, _ | fault⟩ := merged <;> rfl

theorem filed_mergeTop {agree : Bool} (hfiled : set.top.Filed heap digest)
    (hbelow : set.below = parent :: below) (hparent : parent.Filed heap digest) :
    (set.mergeTop heap agree).1.top.Filed heap digest := by
  rw [mergeTop_of_below hbelow]
  refine hparent.recordAll fun update hupdate => ?_
  obtain ⟨old, hold, rfl⟩ := List.mem_map.mp hupdate
  exact hfiled old hold

end UpdateSet

namespace Block

variable {heap : ListHeap} {digest : Digest} {set next : UpdateSet}

def runNested (heap : ListHeap) (digest : Digest) (body : List Block) (set : UpdateSet) :
    Except Fault UpdateSet := do
  let inner ← runAll heap digest body set.push
  settle (inner.mergeTop heap inner.inParallel)

theorem run_par (body : List Block) : run heap digest (.par body) set =
    if set.inParallel then runAll heap digest body set else runNested heap digest body set := by
  rw [run, forkParallel]
  cases set.inParallel with
  | true => exact bind_pure _
  | false => rfl

theorem run_seq (body : List Block) : run heap digest (.seq body) set =
    if set.inParallel then runNested heap digest body set else runAll heap digest body set := by
  rw [run, forkSequential]
  cases set.inParallel with
  | true => rfl
  | false => exact bind_pure _

/-- A run keeps the layers below, and the innermost one properly filed. -/
structure Retains (heap : ListHeap) (digest : Digest) (set next : UpdateSet) : Prop where
  below : next.below = set.below
  filed : set.top.Filed heap digest → next.top.Filed heap digest

theorem Retains.trans {last : UpdateSet} (h : Retains heap digest set next)
    (h' : Retains heap digest next last) : Retains heap digest set last :=
  ⟨h'.below.trans h.below, fun hfiled => h'.filed (h.filed hfiled)⟩

theorem filed_push (set : UpdateSet) : set.push.top.Filed heap digest := by
  rintro update ⟨⟩

theorem Retains.settle_mergeTop {inner : UpdateSet} {agree : Bool}
    (h : Retains heap digest set.push inner)
    (hmerge : settle (inner.mergeTop heap agree) = .ok next) : Retains heap digest set next := by
  have hbelow : inner.below = set.top :: set.below := h.below
  have hnext : next = (inner.mergeTop heap agree).1 := by
    generalize inner.mergeTop heap agree = merged at hmerge
    obtain ⟨merged, _ | fault⟩ := merged
    · exact (Except.ok.inj hmerge).symm
    · cases hmerge
  refine ⟨?_, fun hfiled => ?_⟩
  · rw [hnext, mergeTop_of_below hbelow]
  · rw [hnext]
    exact filed_mergeTop (h.filed (filed_push set)) hbelow hfiled

theorem retains_runNested {body : List Block}
    (hbody : ∀ inner, runAll heap digest body set.push = .ok inner →
      Retains heap digest set.push inner)
    (h : runNested heap digest body set = .ok next) : Retains heap digest set next := by
  unfold runNested at h
  cases hinner : runAll heap digest body set.push with
  | error fault =>
    rw [hinner] at h
    cases h
  | ok inner =>
    rw [hinner] at h
    exact (hbody inner hinner).settle_mergeTop h

mutual

theorem retains_run : ∀ (block : Block) (set next : UpdateSet),
    run heap digest block set = .ok next → Retains heap digest set next
  | .write entry, set, next, h => by
      obtain ⟨top, hrecord, rfl⟩ := exists_record_of_add h
      exact ⟨rfl, fun hfiled => hfiled.record rfl hrecord⟩
  | .par body, set, next, h => by
      rw [run_par] at h
      split at h
      · exact retains_runAll body set next h
      · exact retains_runNested (retains_runAll body set.push) h
  | .seq body, set, next, h => by
      rw [run_seq] at h
      split at h
      · exact retains_runNested (retains_runAll body set.push) h
      · exact retains_runAll body set next h

theorem retains_runAll : ∀ (blocks : List Block) (set next : UpdateSet),
    runAll heap digest blocks set = .ok next → Retains heap digest set next
  | [], set, next, h => by
      cases h
      exact ⟨rfl, id⟩
  | block :: rest, set, next, h => by
      rw [runAll] at h
      cases hfirst : run heap digest block set with
      | error fault =>
        rw [hfirst] at h
        cases h
      | ok middle =>
        rw [hfirst] at h
        exact (retains_run block set middle hfirst).trans (retains_runAll rest middle next h)

end

def Agrees (outcome : Except Fault UpdateSet) (meant : Except Fault WriteMap)
    (below : List Layer) : Prop :=
  outcome.map view = meant.map (·, below)

theorem Agrees.cases {outcome : Except Fault UpdateSet} {meant : Except Fault WriteMap}
    {below : List Layer} (h : Agrees outcome meant below) :
    (∃ fault, outcome = .error fault ∧ meant = .error fault) ∨
      ∃ next, outcome = .ok next ∧ meant = .ok next.top.writes ∧ next.below = below := by
  unfold Agrees at h
  cases outcome with
  | error fault =>
    cases meant with
    | error other => exact Or.inl ⟨fault, rfl, congrArg _ (Except.error.inj h).symm⟩
    | ok map => cases h
  | ok next =>
    cases meant with
    | error other => cases h
    | ok map =>
      obtain ⟨hmap, hbelow⟩ := Prod.mk.inj (Except.ok.inj h)
      exact Or.inr ⟨next, rfl, congrArg _ hmap.symm, hbelow⟩

theorem agrees_runNested {body : List Block} {parallel : Bool}
    (hcontext : set.push.inParallel = parallel)
    (hbody : Agrees (runAll heap digest body set.push) (evalAll heap digest parallel body .empty)
      set.push.below) :
    Agrees (runNested heap digest body set) (do
      let inner ← evalAll heap digest parallel body .empty
      inner.values.foldlM (WriteMap.add heap digest parallel) set.top.writes) set.below := by
  rw [runNested]
  obtain ⟨fault, houtcome, hmeant⟩ | ⟨inner, houtcome, hmeant, hbelow⟩ := hbody.cases
  · rw [houtcome, hmeant]
    rfl
  · have hfiled := (retains_runAll body set.push inner houtcome).filed (filed_push set)
    have hparallel : inner.inParallel = parallel :=
      (inParallel_congr hbelow).trans hcontext
    rw [houtcome, hmeant, ← hparallel]
    exact view_mergeTop inner.inParallel hfiled hbelow

mutual

theorem agrees_run : ∀ (block : Block) (set : UpdateSet),
    Agrees (run heap digest block set) (eval heap digest set.inParallel block set.top.writes)
      set.below
  | .write entry, set => by
      let update : Update := entry.toUpdate heap digest set.depth
      have hrecord : (set.top.record heap set.inParallel update).map Layer.writes =
          set.top.writes.add heap digest set.inParallel entry := Layer.writes_record rfl
      rw [Agrees, eval, ← hrecord]
      show ((set.top.record heap set.inParallel update).map _).map _ = _
      cases set.top.record heap set.inParallel update <;> rfl
  | .par body, set => by
      rw [run_par, eval]
      cases hcontext : set.inParallel with
      | true =>
        have hbody : Agrees (runAll heap digest body set) _ _ := agrees_runAll body set
        rw [hcontext] at hbody
        exact hbody
      | false =>
        have hpush : set.push.inParallel = true := by
          rw [inParallel_push, hcontext]
          rfl
        exact agrees_runNested hpush (hpush ▸ agrees_runAll body set.push)
  | .seq body, set => by
      rw [run_seq, eval]
      cases hcontext : set.inParallel with
      | false =>
        have hbody : Agrees (runAll heap digest body set) _ _ := agrees_runAll body set
        rw [hcontext] at hbody
        exact hbody
      | true =>
        have hpush : set.push.inParallel = false := by
          rw [inParallel_push, hcontext]
          rfl
        exact agrees_runNested hpush (hpush ▸ agrees_runAll body set.push)

theorem agrees_runAll : ∀ (blocks : List Block) (set : UpdateSet),
    Agrees (runAll heap digest blocks set)
      (evalAll heap digest set.inParallel blocks set.top.writes) set.below
  | [], set => rfl
  | block :: rest, set => by
      rw [runAll, evalAll]
      obtain ⟨fault, houtcome, hmeant⟩ | ⟨next, houtcome, hmeant, hbelow⟩ :=
        (agrees_run block set).cases
      · rw [houtcome, hmeant]
        rfl
      · rw [houtcome, hmeant, ← inParallel_congr hbelow, ← hbelow]
        exact agrees_runAll rest next

end

end Block

end AbstractStateMachine
