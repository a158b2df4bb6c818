import AbstractStateMachine.Proofs.UpdateSet.Agreement
import Mathlib.Data.List.Pairwise

/-!
# Parallel writes and their locations

A parallel block should refuse writes that disagree at a location, and no others, and keep every
write it accepts. It does so for all values written to some places exactly if keys are faithful at
those places. They are not at `undef` and the integer that spells its key.
-/

namespace AbstractStateMachine

open Write ListHeap

namespace Place

variable {heap : ListHeap} {digest : Digest} {place other third : Place}

instance : Decidable (place.SameLocation heap other) := inferInstanceAs (Decidable (_ ∧ _))

instance : Decidable (place.SameKey heap digest other) := inferInstanceAs (Decidable (_ ∧ _))

theorem SameLocation.symm (h : place.SameLocation heap other) : other.SameLocation heap place :=
  ⟨h.1.symm, sameArgs_symm h.2⟩

theorem SameLocation.trans (h : place.SameLocation heap other)
    (h' : other.SameLocation heap third) : place.SameLocation heap third :=
  ⟨h.1.trans h'.1, sameArgs_trans h.2 h'.2⟩

theorem SameKey.symm (h : place.SameKey heap digest other) : other.SameKey heap digest place :=
  ⟨h.1.symm, h.2.symm⟩

theorem SameKey.trans (h : place.SameKey heap digest other)
    (h' : other.SameKey heap digest third) : place.SameKey heap digest third :=
  ⟨h.1.trans h'.1, h.2.trans h'.2⟩

/-- Two of the places share a key exactly if they are one location. A place with an argument that
differs from itself is not faithful. -/
def Faithful (heap : ListHeap) (digest : Digest) (places : List Place) : Prop :=
  ∀ place ∈ places, ∀ other ∈ places,
    place.SameKey heap digest other ↔ place.SameLocation heap other

instance {places : List Place} : Decidable (Faithful heap digest places) :=
  inferInstanceAs (Decidable (∀ place ∈ places, ∀ other ∈ places, _))

end Place

namespace Write

variable {heap : ListHeap} {digest : Digest} {places : List Place}

/-- One write for each place, of 1 where the mark is set and of 0 elsewhere. -/
def marking (mark : Place → Bool) (places : List Place) : List Write :=
  places.map fun place => { toPlace := place, value := .int (if mark place then 1 else 0) }

theorem places_marking (mark : Place → Bool) :
    (marking mark places).map toPlace = places := by
  rw [marking, List.map_map]
  exact List.map_id places

theorem equal_self_of_mem_marking {mark : Place → Bool} {write : Write}
    (h : write ∈ marking mark places) : heap.equal write.value write.value = true := by
  obtain ⟨place, -, rfl⟩ := List.mem_map.mp h
  exact equal_int_iff.mpr rfl

theorem agree_marking_iff {meets : Place → Place → Prop}
    (hsymm : ∀ place other, meets place other → meets other place) (mark : Place → Bool) :
    Agree heap meets (marking mark places) ↔
      ∀ place ∈ places, ∀ other ∈ places, meets place other → mark place = mark other := by
  have hvalues : ∀ place other, heap.equal (.int (if mark place then 1 else 0))
      (.int (if mark other then 1 else 0)) = true ↔ mark place = mark other := by
    intro place other
    rw [equal_int_iff]
    cases mark place <;> cases mark other <;> decide
  rw [Agree, marking, List.pairwise_map]
  simp only [hvalues]
  constructor
  · intro hpairs place hplace other hother
    have : Std.Symm fun place other => meets place other → mark place = mark other :=
      ⟨fun place other h hmeets => (h (hsymm other place hmeets)).symm⟩
    exact hpairs.forall_of_forall (fun _ _ _ => rfl) hplace hother
  · exact List.pairwise_of_forall_mem_list

end Write

namespace UpdateSet

/-- Of the writes of a parallel block entered from `base` no two disagree at one location exactly if
all are accepted, and then each is found in the layer that the block leaves behind. -/
structure JudgedByLocation (base : UpdateSet) (heap : ListHeap) (digest : Digest)
    (writes : List Write) : Prop where
  accepted_iff : (∃ set, base.forkParallel.2.addAll heap digest writes = .ok set) ↔
    Agree heap (Place.SameLocation heap) writes
  kept : ∀ set, base.forkParallel.2.addAll heap digest writes = .ok set →
    ∃ merged, set.merge heap base.forkParallel.1 = (merged, none) ∧
      ∀ write ∈ writes, ∃ update ∈ merged.top.values, update.function = write.function ∧
        heap.sameArgs update.args write.args = true ∧
        heap.equal update.value write.value = true

variable {base : UpdateSet} {heap : ListHeap} {digest : Digest}

theorem JudgedByLocation.sameLocation_self {writes : List Write}
    (h : JudgedByLocation base heap digest writes)
    (hagree : Agree heap (Place.SameLocation heap) writes) :
    ∀ write ∈ writes, write.SameLocation heap write.toPlace ∧
      heap.equal write.value write.value = true := by
  intro write hwrite
  obtain ⟨set, hset⟩ := h.accepted_iff.mpr hagree
  obtain ⟨merged, -, hkept⟩ := h.kept set hset
  obtain ⟨update, -, -, hargs, hvalue⟩ := hkept write hwrite
  exact ⟨⟨rfl, sameArgs_trans (sameArgs_symm hargs) hargs⟩,
    equal_trans (equal_symm hvalue) hvalue⟩

theorem judgedByLocation_of_faithful (hbase : base.inParallel = false) (htop : base.top = .empty)
    {writes : List Write} (hfaithful : Place.Faithful heap digest (writes.map toPlace))
    (hself : Agree heap (Place.SameLocation heap) writes →
      ∀ write ∈ writes, heap.equal write.value write.value = true) :
    JudgedByLocation base heap digest writes := by
  have hsame : ∀ write ∈ writes, ∀ other ∈ writes,
      write.SameKey heap digest other.toPlace ↔ write.SameLocation heap other.toPlace :=
    fun write hwrite other hother =>
      hfaithful _ (List.mem_map_of_mem hwrite) _ (List.mem_map_of_mem hother)
  have haccepted : (∃ set, base.forkParallel.2.addAll heap digest writes = .ok set) ↔
      Agree heap (Place.SameLocation heap) writes := by
    rw [addAll_forkParallel_ok_iff hbase]
    refine List.Pairwise.iff_of_mem fun hwrite hother => ?_
    rw [hsame _ hwrite _ hother]
  refine ⟨haccepted, fun set hset => ?_⟩
  obtain ⟨merged, hmerge, hstands⟩ := merge_forkParallel hbase htop hset
  refine ⟨merged, hmerge, fun write hwrite => ?_⟩
  obtain ⟨update, hupdate, other, hother, hkey, hfunction, hargs, hvalue⟩ := hstands write hwrite
  have hlocation := (hsame other hother write hwrite).mp hkey
  refine ⟨update, hupdate, hfunction.trans hlocation.1, hargs ▸ hlocation.2, ?_⟩
  rcases hvalue with heq | hequal
  · rw [heq]
    exact hself (haccepted.mp ⟨set, hset⟩) write hwrite
  · exact hequal

/-- If marks are judged by location, a mark that tells keys apart tells locations apart, and the
other way round. -/
theorem faithful_of_judgedByLocation (hbase : base.inParallel = false) {places : List Place}
    (hjudged : ∀ mark, JudgedByLocation base heap digest (marking mark places)) :
    Place.Faithful heap digest places := by
  have hmark : ∀ mark : Place → Bool,
      (∀ place ∈ places, ∀ other ∈ places, place.SameKey heap digest other →
        mark place = mark other) ↔
      ∀ place ∈ places, ∀ other ∈ places, place.SameLocation heap other →
        mark place = mark other := by
    intro mark
    rw [← agree_marking_iff (fun _ _ => Place.SameKey.symm) mark,
      ← agree_marking_iff (fun _ _ => Place.SameLocation.symm) mark,
      ← addAll_forkParallel_ok_iff hbase]
    exact (hjudged mark).accepted_iff
  have hself : ∀ place ∈ places, place.SameLocation heap place := by
    intro place hplace
    have hagree : Agree heap (Place.SameLocation heap)
        (marking (fun _ => false) places) :=
      (agree_marking_iff (fun _ _ => Place.SameLocation.symm) _).mpr
        fun _ _ _ _ _ => rfl
    exact ((hjudged _).sameLocation_self hagree _ (List.mem_map_of_mem hplace)).1
  intro place hplace other hother
  constructor
  · intro hkey
    have hsame := (hmark fun third => decide (place.SameLocation heap third)).mpr
      (fun x _ y _ hxy => decide_eq_decide.mpr
        ⟨fun h => h.trans hxy, fun h => h.trans hxy.symm⟩) place hplace other hother hkey
    exact (decide_eq_decide.mp hsame).mp (hself place hplace)
  · intro hlocation
    have hsame := (hmark fun third => decide (place.SameKey heap digest third)).mp
      (fun x _ y _ hxy => decide_eq_decide.mpr
        ⟨fun h => h.trans hxy, fun h => h.trans hxy.symm⟩) place hplace other hother hlocation
    exact (decide_eq_decide.mp hsame).mp ⟨rfl, rfl⟩

/-- Accepted writes of values that differ from themselves apart, parallel writes to some places are
judged by location exactly if keys are faithful there. -/
theorem judgedByLocation_iff_faithful (hbase : base.inParallel = false)
    (htop : base.top = .empty) (places : List Place) :
    (∀ writes : List Write, writes.map Write.toPlace = places →
      (JudgedByLocation base heap digest writes ↔
        (Write.Agree heap (Place.SameLocation heap) writes →
          ∀ write ∈ writes, heap.equal write.value write.value = true))) ↔
    Place.Faithful heap digest places := by
  constructor
  · intro hjudged
    refine faithful_of_judgedByLocation hbase fun mark => ?_
    refine (hjudged _ (places_marking mark)).mpr fun _ write hwrite => ?_
    exact equal_self_of_mem_marking hwrite
  · rintro hfaithful writes rfl
    constructor
    · intro hjudged hagree write hwrite
      exact (hjudged.sameLocation_self hagree write hwrite).2
    · exact judgedByLocation_of_faithful hbase htop hfaithful

theorem judgedByLocation_int_and_str :
    ({} : UpdateSet).inParallel = false ∧ ({} : UpdateSet).top = .empty ∧
    ∀ writes : List Write,
      writes.map Write.toPlace = [⟨⟨0⟩, [.int 1]⟩, ⟨⟨0⟩, [.str "a"]⟩, ⟨⟨0⟩, [.int 1]⟩] →
      (JudgedByLocation {} {} KeyPart.tokens writes ↔
        (Write.Agree {} (Place.SameLocation {}) writes →
          ∀ write ∈ writes, ListHeap.equal {} write.value write.value = true)) :=
  ⟨rfl, rfl, (judgedByLocation_iff_faithful rfl rfl _).mpr (by decide)⟩

/-- A write to `f(undef)` swallows one to the location that shares its key, whatever the digest. -/
theorem not_judgedByLocation_undef : ¬ ∃ digest : Digest, JudgedByLocation {} {} digest
    [{ function := ⟨0⟩, args := [.undefined], value := .int 1 },
      { function := ⟨0⟩, args := [.int (-9223372036854775807)], value := .int 1 }] := by
  rintro ⟨digest, hjudged⟩
  obtain ⟨merged, hmerge, hkept⟩ := hjudged.kept _ rfl
  obtain ⟨update, hupdate, -, hargs, -⟩ := hkept _ (List.mem_cons_of_mem _ List.mem_cons_self)
  have hmerged := (Prod.mk.inj hmerge).1
  subst hmerged
  rw [List.mem_singleton.mp hupdate] at hargs
  have hsame : sameArgs {} [.undefined] [.int (-9223372036854775807)] = true := hargs
  exact absurd hsame (by decide)

end UpdateSet

end AbstractStateMachine
