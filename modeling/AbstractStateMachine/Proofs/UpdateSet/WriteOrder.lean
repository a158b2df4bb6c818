import AbstractStateMachine.Proofs.Machine.Computation
import AbstractStateMachine.Proofs.UpdateSet.Agreement
import Mathlib.Data.List.Perm.Basic

/-!
# The order of parallel writes

A parallel layer compares a write with the first one of its key only. As equality is symmetric and
transitive, the first one stands for all of them, whichever it is. So writes can be made in any
order: it does not decide whether they agree, nor what the layer holds in the end, but for values
that are equal.
-/

namespace AbstractStateMachine

namespace Layer

variable {heap : ListHeap} {layer result other : Layer} {updates others : List Update}

theorem joinAll_ok_of_perm (hperm : updates.Perm others)
    (h : layer.joinAll heap updates = .ok result) :
    ∃ other, layer.joinAll heap others = .ok other := by
  obtain ⟨hheld, hpairs⟩ := joinAll_ok_iff.mp ⟨result, h⟩
  refine joinAll_ok_iff.mpr ⟨fun update hmem => hheld update (hperm.mem_iff.mpr hmem), ?_⟩
  exact hperm.pairwise hpairs fun hagree hkey => ListHeap.equal_symm (hagree hkey.symm)

theorem exists_keys_joinAll (h : layer.joinAll heap updates = .ok result) :
    ∃ fresh : List LocationKey, result.keys = layer.keys ++ fresh ∧ fresh.Nodup ∧
      ∀ key, key ∈ fresh ↔ key ∉ layer.keys ∧ key ∈ updates.map Update.location := by
  induction updates generalizing layer with
  | nil =>
    cases h
    exact ⟨[], (List.append_nil _).symm, List.nodup_nil, by simp⟩
  | cons update rest ih =>
    obtain ⟨next, hjoin, hrest⟩ := exists_join_of_joinAll_cons h
    obtain ⟨fresh, hkeys, hnodup, hfresh⟩ := ih hrest
    obtain ⟨hnone, rfl⟩ | ⟨existing, hfound, -, rfl⟩ := join_cases hjoin
    · have hnew : update.location ∉ layer.keys := OrderedMap.get?_eq_none_iff.mp hnone
      rw [OrderedMap.keys_insert, if_neg hnew] at hkeys hfresh
      refine ⟨update.location :: fresh, by rw [hkeys, List.append_assoc]; rfl, ?_, fun key => ?_⟩
      · exact List.nodup_cons.mpr ⟨fun hmem => by simpa using ((hfresh _).mp hmem).1, hnodup⟩
      · rw [List.mem_cons, hfresh, List.map_cons, List.mem_cons, List.mem_append,
          List.mem_singleton]
        by_cases hkey : key = update.location
        · simp [hkey, hnew]
        · simp [hkey]
    · have hold : update.location ∈ next.keys := by
        by_contra hmissing
        rw [OrderedMap.get?_eq_none_iff.mpr hmissing] at hfound
        cases hfound
      refine ⟨fresh, hkeys, hnodup, fun key => ?_⟩
      rw [hfresh, List.map_cons, List.mem_cons]
      by_cases hkey : key = update.location
      · simp [hkey, hold]
      · simp [hkey]

theorem keys_joinAll_perm (hperm : updates.Perm others)
    (h : layer.joinAll heap updates = .ok result) (h' : layer.joinAll heap others = .ok other) :
    result.keys.Perm other.keys := by
  obtain ⟨fresh, hkeys, hnodup, hfresh⟩ := exists_keys_joinAll h
  obtain ⟨fresh', hkeys', hnodup', hfresh'⟩ := exists_keys_joinAll h'
  rw [hkeys, hkeys']
  refine ((List.perm_ext_iff_of_nodup hnodup hnodup').mpr fun key => ?_).append_left _
  rw [hfresh, hfresh', (hperm.map Update.location).mem_iff]

/-- Under one key, the two orders leave the same update or updates with equal values. -/
theorem get?_joinAll_perm (hperm : updates.Perm others)
    (h : layer.joinAll heap updates = .ok result) (h' : layer.joinAll heap others = .ok other)
    {key : LocationKey} {update update' : Update} (hfound : result.get? key = some update)
    (hfound' : other.get? key = some update') :
    update' = update ∨ heap.equal update'.value update.value = true := by
  rcases get?_joinAll_cases h hfound with hold | ⟨hmem, rfl⟩
  · have hkept := get?_joinAll_mono h' hold
    exact .inl (Option.some.inj (hfound'.symm.trans hkept))
  · obtain ⟨found, hstands, hequal⟩ := get?_joinAll_of_mem h' (hperm.mem_iff.mp hmem)
    cases hfound'.symm.trans hstands
    exact hequal

end Layer

namespace UpdateSet

variable {set next : UpdateSet} {heap : ListHeap} {digest : Digest} {writes others : List Write}

/-- The same layers, but for the order of the innermost one and for values that are equal. -/
structure SameWrites (heap : ListHeap) (set other : UpdateSet) : Prop where
  below : other.below = set.below
  keys : set.top.keys.Perm other.top.keys
  values : ∀ key update update', set.top.get? key = some update →
    other.top.get? key = some update' →
      update'.value = update.value ∨ heap.equal update'.value update.value = true

theorem exists_joinAll_of_addAll (hparallel : set.inParallel = true)
    (h : set.addAll heap digest writes = .ok next) :
    ∃ top, set.top.joinAll heap (writes.map (Write.toUpdate heap digest set.depth)) = .ok top ∧
      next = { set with top } := by
  rw [addAll_of_inParallel hparallel] at h
  generalize set.top.joinAll heap (writes.map _) = outcome at h
  cases outcome with
  | error fault => cases h
  | ok top =>
    cases h
    exact ⟨top, rfl, rfl⟩

theorem exists_addAll_of_perm (hparallel : set.inParallel = true) (hperm : writes.Perm others)
    (h : set.addAll heap digest writes = .ok next) :
    ∃ other, set.addAll heap digest others = .ok other ∧ SameWrites heap next other := by
  obtain ⟨top, hjoin, rfl⟩ := exists_joinAll_of_addAll hparallel h
  have hupdates := hperm.map (Write.toUpdate heap digest set.depth)
  obtain ⟨top', hjoin'⟩ := Layer.joinAll_ok_of_perm hupdates hjoin
  refine ⟨{ set with top := top' }, ?_, rfl, Layer.keys_joinAll_perm hupdates hjoin hjoin', ?_⟩
  · rw [addAll_of_inParallel hparallel, hjoin']
    rfl
  · intro key update update' hfound hfound'
    exact (Layer.get?_joinAll_perm hupdates hjoin hjoin' hfound hfound').imp_left
      (congrArg Update.value)

/-- **The order of direct writes to a parallel layer does not matter.** All of them are accepted in
one order if and only if they are in another. Then the innermost layer gets the same keys, and under
each key the same value or an equal one, and the layers below stay as they were. A write that fails
changes no layer. -/
theorem addAll_perm (set : UpdateSet) (heap : ListHeap) (digest : Digest)
    (hparallel : set.inParallel = true) (writes others : List Write) (hperm : writes.Perm others) :
    ((∃ next, set.addAll heap digest writes = .ok next) ↔
      ∃ next, set.addAll heap digest others = .ok next) ∧
    (∀ next other, set.addAll heap digest writes = .ok next →
      set.addAll heap digest others = .ok other →
        next.below = set.below ∧ SameWrites heap next other) ∧
    ∀ (setting : Setting) (machine after : Machine) (write : Write) (stop : Stop),
      Run.write setting write.function write.args write.value write.span machine =
        (.error stop, after) → after = machine := by
  refine ⟨⟨?_, ?_⟩, ?_, ?_⟩
  · rintro ⟨next, hnext⟩
    obtain ⟨other, hother, -⟩ := exists_addAll_of_perm hparallel hperm hnext
    exact ⟨other, hother⟩
  · rintro ⟨next, hnext⟩
    obtain ⟨other, hother, -⟩ := exists_addAll_of_perm hparallel hperm.symm hnext
    exact ⟨other, hother⟩
  · intro next other hnext hother
    obtain ⟨found, hfound, hsame⟩ := exists_addAll_of_perm hparallel hperm hnext
    obtain rfl : found = other := Except.ok.inj (hfound.symm.trans hother)
    obtain ⟨top, -, rfl⟩ := exists_joinAll_of_addAll hparallel hnext
    exact ⟨rfl, hsame⟩
  · intro setting machine after write stop hwrite
    cases hadd : machine.pending.add machine.heap setting.digest write.function write.args
        write.value write.span with
    | error fault =>
      rw [Run.write_of_add_error hadd] at hwrite
      exact (Prod.mk.inj hwrite).2.symm
    | ok pending =>
      rw [Run.write_of_add_ok hadd] at hwrite
      cases hwrite

/-- The list `[1, 2]`, in one buffer as the list 0 and as the list 2 with a head. -/
def twoShapes : ListHeap :=
  let heap := (ListHeap.ofList (ListHeap.ofList {} [.int 1, .int 2]).2 [.int 2]).2
  (heap.cons (.int 1) ⟨1⟩).2

def shapedWrites : List Write :=
  [{ function := ⟨1⟩, args := [.int 7], value := .list ⟨0⟩ },
    { function := ⟨2⟩, args := [], value := .undefined },
    { function := ⟨1⟩, args := [.int 7], value := .list ⟨2⟩ }]

/-- Of the two writes to one location each order keeps another one. -/
theorem addAll_perm_shapedWrites :
    let set := (forkParallel {}).2
    set.inParallel = true ∧ shapedWrites.Perm shapedWrites.reverse ∧
      ∃ next other, set.addAll twoShapes .tokens shapedWrites = .ok next ∧
        set.addAll twoShapes .tokens shapedWrites.reverse = .ok other ∧
        SameWrites twoShapes next other ∧
        (next.top.get? (⟨1⟩, [.word 7])).map Update.value = some (.list ⟨0⟩) ∧
        (other.top.get? (⟨1⟩, [.word 7])).map Update.value = some (.list ⟨2⟩) := by
  intro set
  obtain ⟨hiff, hsame, -⟩ := addAll_perm set twoShapes .tokens rfl shapedWrites
    shapedWrites.reverse (List.reverse_perm _).symm
  have hnext : set.addAll twoShapes .tokens shapedWrites = .ok _ := rfl
  obtain ⟨other, hother⟩ := hiff.mp ⟨_, hnext⟩
  refine ⟨rfl, (List.reverse_perm _).symm, _, other, hnext, hother, (hsame _ _ hnext hother).2, ?_⟩
  cases hother
  decide +kernel

end UpdateSet

end AbstractStateMachine
