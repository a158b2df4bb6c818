import AbstractStateMachine.Proofs.Journal.Basic

/-!
# The order of journals

Replaying a journal treats each key on its own: what becomes of the slot of a key depends on the
entries with that key only. So the journals of several statements can be replayed in any order,
unless one of them replaces what others write under the same key by another value.
-/

namespace AbstractStateMachine

open ListHeap

/-! ### Slots -/

namespace Entry

/-- What the slot of the key holds once the entry is recorded; nothing, if there is a conflict. -/
def put (heap : ListHeap) (slot : Option Update) (entry : Entry) : Option Update :=
  match slot with
  | none => some entry.update
  | some existing =>
    if entry.agree then
      if heap.equal existing.value entry.update.value then some existing else none
    else if heap.sameArgs existing.args entry.update.args then some entry.update else none

def putAll (heap : ListHeap) : Option Update → List Entry → Option (Option Update)
  | slot, [] => some slot
  | slot, entry :: rest => (entry.put heap slot).bind fun update => putAll heap (some update) rest

def filedUnder (key : LocationKey) (entry : Entry) : Bool := entry.update.location = key

end Entry

namespace Layer

open Entry

variable {heap : ListHeap} {layer next result : Layer} {entry : Entry} {entries : List Entry}

theorem put_of_record (h : layer.record heap entry.agree entry.update = .ok next) :
    ∃ update, entry.put heap (layer.get? entry.update.location) = some update ∧
      ∀ key, next.get? key = if key = entry.update.location then some update
        else layer.get? key := by
  obtain ⟨agree, update⟩ := entry
  cases agree with
  | true =>
    obtain ⟨hnone, rfl⟩ | ⟨existing, hfound, hequal, rfl⟩ := join_cases h
    · refine ⟨update, ?_, fun key => OrderedMap.get?_insert _ _ _ _⟩
      rw [hnone]
      rfl
    · refine ⟨existing, ?_, fun key => ?_⟩
      · rw [hfound]
        exact if_pos hequal
      · split
        · next hkey => rw [hkey, hfound]
        · rfl
  | false =>
    obtain ⟨rfl, hargs⟩ := override_cases h
    refine ⟨update, ?_, fun key => OrderedMap.get?_insert _ _ _ _⟩
    dsimp only
    cases hfound : layer.get? update.location with
    | none => rfl
    | some existing => exact if_pos (hargs existing hfound)

theorem exists_record_of_put {update : Update}
    (h : entry.put heap (layer.get? entry.update.location) = some update) :
    ∃ next, layer.record heap entry.agree entry.update = .ok next := by
  obtain ⟨agree, written⟩ := entry
  dsimp only at h ⊢
  unfold record join override
  change put heap (layer.get? (written.function, written.key)) ⟨agree, written⟩ = _ at h
  cases hfound : layer.get? (written.function, written.key) with
  | none => cases agree <;> exact ⟨_, rfl⟩
  | some existing =>
    rw [hfound] at h
    cases agree with
    | true =>
      by_cases hequal : heap.equal existing.value written.value = true
      · exact ⟨layer, if_pos hequal⟩
      · cases (if_neg hequal : put heap (some existing) ⟨true, written⟩ = none).symm.trans h
    | false =>
      by_cases hargs : heap.sameArgs existing.args written.args = true
      · exact ⟨_, if_pos hargs⟩
      · cases (if_neg hargs : put heap (some existing) ⟨false, written⟩ = none).symm.trans h

theorem putAll_of_replay (h : layer.replay heap entries = .ok result) (key : LocationKey) :
    putAll heap (layer.get? key) (entries.filter (filedUnder key)) = some (result.get? key) := by
  induction entries generalizing layer with
  | nil =>
    cases h
    rfl
  | cons entry rest ih =>
    obtain ⟨next, hrecord, hreplay⟩ := exists_of_replay_cons h
    obtain ⟨update, hput, hnext⟩ := put_of_record hrecord
    have hrest := ih hreplay
    rw [hnext key] at hrest
    by_cases hkey : entry.update.location = key
    · rw [if_pos hkey.symm] at hrest
      rw [List.filter_cons_of_pos (by simpa [filedUnder] using hkey), putAll, ← hkey, hput]
      rw [← hkey] at hrest
      exact hrest
    · rw [if_neg (Ne.symm hkey)] at hrest
      rw [List.filter_cons_of_neg (by simpa [filedUnder] using hkey)]
      exact hrest

theorem exists_replay (h : ∀ key, ∃ slot,
      putAll heap (layer.get? key) (entries.filter (filedUnder key)) = some slot) :
    ∃ result, layer.replay heap entries = .ok result := by
  induction entries generalizing layer with
  | nil => exact ⟨layer, rfl⟩
  | cons entry rest ih =>
    have hself := h entry.update.location
    rw [List.filter_cons_of_pos (by simp [filedUnder])] at hself
    obtain ⟨slot, hslot⟩ := hself
    obtain ⟨update, hput, -⟩ := Option.bind_eq_some_iff.mp hslot
    obtain ⟨next, hrecord⟩ := exists_record_of_put hput
    obtain ⟨update', hput', hnext⟩ := put_of_record hrecord
    show ∃ result, (layer.record heap entry.agree entry.update).bind _ = .ok result
    rw [hrecord]
    refine ih fun key => ?_
    obtain ⟨slot, hslot⟩ := h key
    rw [hnext key]
    by_cases hkey : entry.update.location = key
    · rw [List.filter_cons_of_pos (by simpa [filedUnder] using hkey), putAll, ← hkey,
        hput'] at hslot
      rw [if_pos hkey.symm, ← hkey]
      exact ⟨slot, hslot⟩
    · rw [List.filter_cons_of_neg (by simpa [filedUnder] using hkey)] at hslot
      rw [if_neg (Ne.symm hkey)]
      exact ⟨slot, hslot⟩

theorem exists_replay_of_slots {P : LocationKey → Option Update → Prop} (h : ∀ key, ∃ slot,
      putAll heap (layer.get? key) (entries.filter (filedUnder key)) = some slot ∧ P key slot) :
    ∃ result, layer.replay heap entries = .ok result ∧ ∀ key, P key (result.get? key) := by
  obtain ⟨result, hresult⟩ := exists_replay fun key => (h key).imp fun _ => And.left
  refine ⟨result, hresult, fun key => ?_⟩
  obtain ⟨slot, hput, hslot⟩ := h key
  rwa [← Option.some.inj (hput.symm.trans (putAll_of_replay hresult key))]

end Layer

/-! ### Any order -/

/-- Two updates of one location, with equal values. -/
def Update.Alike (heap : ListHeap) (update other : Update) : Prop :=
  update.location = other.location ∧ heap.sameArgs update.args other.args = true ∧
    heap.equal update.value other.value = true

theorem Update.Alike.symm {heap : ListHeap} {update other : Update} (h : update.Alike heap other) :
    other.Alike heap update :=
  ⟨h.1.symm, sameArgs_symm h.2.1, equal_symm h.2.2⟩

theorem Update.Alike.trans {heap : ListHeap} {update other third : Update}
    (h : update.Alike heap other) (h' : other.Alike heap third) : update.Alike heap third :=
  ⟨h.1.trans h'.1, sameArgs_trans h.2.1 h'.2.1, equal_trans h.2.2 h'.2.2⟩

def Update.Agrees (heap : ListHeap) (update other : Update) : Prop :=
  update = other ∨ update.Alike heap other

/-- Under one key two statements write to one location, and neither replaces what the other one
writes, unless all that both write there is the same, as is what the layer may hold already. -/
def Compatible (heap : ListHeap) (layer : Layer) (block other : List Entry) : Prop :=
  ∀ entry ∈ block, ∀ entry' ∈ other, entry.update.location = entry'.update.location →
    heap.sameArgs entry.update.args entry'.update.args = true ∧
      (entry.agree = true ∧ entry'.agree = true ∨
        (∀ existing ∈ layer.get? entry.update.location, existing.Alike heap entry.update) ∧
          ∀ written ∈ block ++ other, written.update.location = entry.update.location →
            written.update.Alike heap entry.update)

section Compatible

variable {heap : ListHeap} {layer : Layer} {block other block' other' : List Entry}
  (h : Compatible heap layer block other)
include h

theorem Compatible.symm : Compatible heap layer other block := by
  intro entry hentry entry' hentry' hlocation
  obtain ⟨hargs, ⟨hagree', hagree⟩ | ⟨hlayer, hwritten⟩⟩ :=
    h entry' hentry' entry hentry hlocation.symm
  · exact ⟨sameArgs_symm hargs, .inl ⟨hagree, hagree'⟩⟩
  · have halike := (hwritten entry (List.mem_append_right _ hentry) hlocation).symm
    refine ⟨sameArgs_symm hargs, .inr ⟨fun existing hexisting => ?_, fun written hmem heq => ?_⟩⟩
    · exact (hlayer existing (hlocation ▸ hexisting)).trans halike
    · exact (hwritten written (List.mem_append.mpr (List.mem_append.mp hmem).symm)
        (heq.trans hlocation)).trans halike

theorem Compatible.mono (hblock : block' ⊆ block) (hother : other' ⊆ other) :
    Compatible heap layer block' other' := by
  intro entry hentry entry' hentry' hlocation
  refine (h entry (hblock hentry) entry' (hother hentry') hlocation).imp_right (.imp_right ?_)
  refine And.imp_right fun hwritten written hmem => hwritten written ?_
  exact List.mem_append.mpr ((List.mem_append.mp hmem).imp (@hblock _) (@hother _))

theorem Compatible.alike {key : LocationKey} (hother : other ≠ [])
    (hkey : ∀ entry ∈ block ++ other, entry.update.location = key) {entry written : Entry}
    (hentry : entry ∈ block) (hwritten : written ∈ block ++ other) :
    heap.sameArgs written.update.args entry.update.args = true ∧
      (entry.agree = false → (∀ existing ∈ layer.get? key, existing.Alike heap entry.update) ∧
        written.update.Alike heap entry.update) := by
  have hone : ∀ entry ∈ block ++ other, ∀ entry' ∈ block ++ other,
      entry.update.location = entry'.update.location := fun entry hentry entry' hentry' =>
    (hkey entry hentry).trans (hkey entry' hentry').symm
  have hin := List.mem_append_left other hentry
  obtain ⟨partner, hpartner⟩ := List.exists_mem_of_ne_nil other hother
  have hout := List.mem_append_right block hpartner
  obtain ⟨hargs, hcase⟩ := h entry hentry partner hpartner (hone _ hin _ hout)
  constructor
  · rcases List.mem_append.mp hwritten with hblock | hother
    · have hargs' := (h written hblock partner hpartner (hone _ hwritten _ hout)).1
      exact sameArgs_trans hargs' (sameArgs_symm hargs)
    · exact sameArgs_symm (h entry hentry written hother (hone _ hin _ hwritten)).1
  · intro hoverrides
    obtain ⟨hslot, halike⟩ := hcase.resolve_left fun hagree =>
      Bool.false_ne_true (hoverrides.symm.trans hagree.1)
    rw [hkey entry hin] at hslot
    exact ⟨hslot, halike written hwritten (hone _ hwritten _ hin)⟩

end Compatible

namespace Entry

variable {heap : ListHeap} {slot result : Option Update} {entries entries' : List Entry}
  {layer : Layer} {blocks order : List (List Entry)} {key : LocationKey}

theorem putAll_some_iff (hagree : ∀ entry ∈ entries, entry.agree = true) {existing : Update} :
    putAll heap (some existing) entries = some result ↔ result = some existing ∧
      ∀ entry ∈ entries, heap.equal existing.value entry.update.value = true := by
  induction entries with
  | nil =>
    constructor
    · intro h
      cases h
      exact ⟨rfl, nofun⟩
    · rintro ⟨rfl, -⟩
      rfl
  | cons entry rest ih =>
    obtain ⟨hentry, hrest⟩ := List.forall_mem_cons.mp hagree
    rw [putAll, put, if_pos hentry, List.forall_mem_cons]
    by_cases hequal : heap.equal existing.value entry.update.value = true
    · rw [if_pos hequal, Option.bind_some, ih hrest]
      simp [hequal]
    · rw [if_neg hequal]
      simp [hequal]

structure Joint (heap : ListHeap) (key : LocationKey) (entries : List Entry) : Prop where
  agree : ∀ entry ∈ entries, entry.agree = true
  location : ∀ entry ∈ entries, entry.update.location = key
  args : ∀ entry ∈ entries, ∀ entry' ∈ entries,
    heap.sameArgs entry.update.args entry'.update.args = true

theorem Joint.putAll_perm (h : Joint heap key entries) (hperm : entries.Perm entries')
    (hput : putAll heap slot entries = some result) :
    ∃ result', putAll heap slot entries' = some result' ∧
      Option.Rel (Update.Agrees heap) result result' := by
  have hagree : ∀ entry ∈ entries', entry.agree = true := fun entry hentry =>
    h.agree entry (hperm.mem_iff.mpr hentry)
  cases slot with
  | some existing =>
    obtain ⟨rfl, hequal⟩ := (putAll_some_iff h.agree).mp hput
    refine ⟨some existing, (putAll_some_iff hagree).mpr ⟨rfl, fun entry hentry => ?_⟩,
      .some (.inl rfl)⟩
    exact hequal entry (hperm.mem_iff.mpr hentry)
  | none =>
    cases entries with
    | nil =>
      rw [List.nil_perm.mp hperm]
      cases hput
      exact ⟨none, rfl, .none⟩
    | cons first rest =>
      cases entries' with
      | nil => cases List.perm_nil.mp hperm
      | cons first' rest' =>
        have hrest := (List.forall_mem_cons.mp h.agree).2
        obtain ⟨rfl, hequal⟩ := (putAll_some_iff hrest).mp hput
        have hpairwise : (first :: rest).Pairwise fun entry entry' =>
            heap.equal entry.update.value entry'.update.value = true :=
          List.pairwise_cons.mpr ⟨hequal, List.pairwise_of_forall_mem_list
            fun entry hentry entry' hentry' =>
              equal_trans (equal_symm (hequal entry hentry)) (hequal entry' hentry')⟩
        have hequal' := (List.pairwise_cons.mp (hpairwise.perm hperm equal_symm)).1
        refine ⟨some first'.update, (putAll_some_iff
          (List.forall_mem_cons.mp hagree).2).mpr ⟨rfl, hequal'⟩, .some ?_⟩
        have hmem : first' ∈ first :: rest := hperm.mem_iff.mpr List.mem_cons_self
        rcases List.mem_cons.mp hmem with rfl | hlater
        · exact .inl rfl
        · refine .inr ⟨?_, h.args first List.mem_cons_self first' hmem, hequal first' hlater⟩
          rw [h.location first List.mem_cons_self, h.location first' hmem]

theorem exists_put_of_alike {entry : Entry} {pivot : Update}
    (hslot : ∀ existing ∈ slot, existing.Alike heap pivot)
    (hentry : entry.update.Alike heap pivot) :
    ∃ update, entry.put heap slot = some update ∧ update.Alike heap pivot := by
  cases slot with
  | none => exact ⟨entry.update, rfl, hentry⟩
  | some existing =>
    have hexisting := hslot existing rfl
    have halike := hexisting.trans hentry.symm
    rw [put, if_pos halike.2.2, if_pos halike.2.1]
    split
    · exact ⟨existing, rfl, hexisting⟩
    · exact ⟨entry.update, rfl, hentry⟩

/-- Where all that is written is the same, whatever comes last is left. -/
theorem exists_putAll_of_alike {pivot : Update}
    (hslot : ∀ existing ∈ slot, existing.Alike heap pivot)
    (hentries : ∀ entry ∈ entries, entry.update.Alike heap pivot) (hsome : entries ≠ []) :
    ∃ update, putAll heap slot entries = some (some update) ∧ update.Alike heap pivot := by
  induction entries generalizing slot with
  | nil => exact absurd rfl hsome
  | cons entry rest ih =>
    obtain ⟨hfirst, hrest⟩ := List.forall_mem_cons.mp hentries
    obtain ⟨update, hput, hupdate⟩ := exists_put_of_alike hslot hfirst
    rw [putAll, hput, Option.bind_some]
    cases rest with
    | nil => exact ⟨update, rfl, hupdate⟩
    | cons next rest => exact ih (by rintro _ ⟨⟩; exact hupdate) hrest (List.cons_ne_nil _ _)

/-- In two blocks or more under one key, an entry is for the same location as every other one, and
an entry that replaces others has the same value as well. -/
theorem alike_of_compatible (hcompatible : blocks.Pairwise (Compatible heap layer))
    (htwo : 1 < blocks.length) (hsome : ∀ block ∈ blocks, block ≠ [])
    (hkey : ∀ entry ∈ blocks.flatten, entry.update.location = key) :
    ∀ entry ∈ blocks.flatten, ∀ written ∈ blocks.flatten,
      heap.sameArgs written.update.args entry.update.args = true ∧
        (entry.agree = false → (∀ existing ∈ layer.get? key, existing.Alike heap entry.update) ∧
          written.update.Alike heap entry.update) := by
  intro entry hentry written hwritten
  obtain ⟨block, hblock, hwithin⟩ := List.mem_flatten.mp hentry
  obtain ⟨others, hperm⟩ : ∃ others, blocks.Perm (block :: others) := by
    obtain ⟨before, after, rfl⟩ := List.append_of_mem hblock
    exact ⟨before ++ after, List.perm_middle⟩
  have hothers := (List.pairwise_cons.mp (hcompatible.perm hperm Compatible.symm)).1
  have hmem {other : List Entry} (hother : other ∈ others) : other ∈ blocks :=
    hperm.mem_iff.mpr (List.mem_cons_of_mem _ hother)
  -- what is in the same block is compared through any other block
  obtain ⟨other, hother, hwritten⟩ : ∃ other ∈ others, written ∈ block ++ other := by
    obtain ⟨block', hblock', hwithin'⟩ := List.mem_flatten.mp hwritten
    rcases List.mem_cons.mp (hperm.mem_iff.mp hblock') with rfl | hother
    · rw [hperm.length_eq] at htwo
      obtain ⟨other, hother⟩ := List.exists_mem_of_length_pos (Nat.lt_of_succ_lt_succ htwo)
      exact ⟨other, hother, List.mem_append_left _ hwithin'⟩
    · exact ⟨block', hother, List.mem_append_right _ hwithin'⟩
  refine (hothers other hother).alike (hsome other (hmem hother)) (fun entry hentry => ?_) hwithin
    hwritten
  refine hkey entry (List.mem_flatten.mpr ?_)
  rcases List.mem_append.mp hentry with hentry | hentry
  · exact ⟨block, hblock, hentry⟩
  · exact ⟨other, hmem hother, hentry⟩

theorem putAll_flatten_perm (hperm : blocks.Perm order)
    (hcompatible : blocks.Pairwise (Compatible heap layer))
    (hkey : ∀ entry ∈ blocks.flatten, entry.update.location = key)
    (hput : putAll heap (layer.get? key) blocks.flatten = some result) :
    ∃ result', putAll heap (layer.get? key) order.flatten = some result' ∧
      Option.Rel (Update.Agrees heap) result result' := by
  have hsome : ∀ block ∈ blocks.filter fun block => !block.isEmpty, block ≠ [] := by
    rintro _ hblock rfl
    cases (List.mem_filter.mp hblock).2
  have hperm := hperm.filter fun block => !block.isEmpty
  have hcompatible := hcompatible.filter fun block => !block.isEmpty
  rw [← List.flatten_filter_not_isEmpty] at hkey hput
  rw [← List.flatten_filter_not_isEmpty]
  generalize blocks.filter (fun block => !block.isEmpty) = blocks at *
  generalize order.filter (fun block => !block.isEmpty) = order at *
  have hsame : blocks = order → ∃ result',
      putAll heap (layer.get? key) order.flatten = some result' ∧
        Option.Rel (Update.Agrees heap) result result' := by
    rintro rfl
    refine ⟨result, hput, ?_⟩
    cases result with
    | none => exact .none
    | some update => exact .some (.inl rfl)
  rcases blocks with _ | ⟨block, _ | ⟨other, rest⟩⟩
  · exact hsame (List.nil_perm.mp hperm).symm
  · exact hsame (List.singleton_perm.mp hperm)
  · have halike := alike_of_compatible hcompatible (Nat.le_add_left 2 rest.length) hsome hkey
    by_cases hagree : ∀ entry ∈ (block :: other :: rest).flatten, entry.agree = true
    · have hjoint : Joint heap key (block :: other :: rest).flatten :=
        ⟨hagree, hkey, fun entry hentry entry' hentry' => (halike entry' hentry' entry hentry).1⟩
      exact hjoint.putAll_perm hperm.flatten hput
    · obtain ⟨entry, hentry, hoverrides⟩ : ∃ entry ∈ (block :: other :: rest).flatten,
          entry.agree = false := by simpa using hagree
      have hslot := ((halike entry hentry entry hentry).2 hoverrides).1
      have hall := fun written hwritten => ((halike entry hentry written hwritten).2 hoverrides).2
      obtain ⟨update, hupdate, hleft⟩ :=
        exists_putAll_of_alike hslot hall (List.ne_nil_of_mem hentry)
      obtain ⟨update', hupdate', hleft'⟩ := exists_putAll_of_alike hslot
        (fun written hwritten => hall written (hperm.flatten.mem_iff.mpr hwritten))
        (List.ne_nil_of_mem (hperm.flatten.mem_iff.mp hentry))
      cases hput.symm.trans hupdate
      exact ⟨_, hupdate', .some (.inr (hleft.trans hleft'.symm))⟩

end Entry

namespace Layer

open Entry

/-- **Any order will do** for blocks that are compatible. -/
theorem replay_perm {heap : ListHeap} {layer result : Layer} {blocks order : List (List Entry)}
    (hperm : blocks.Perm order) (hcompatible : blocks.Pairwise (Compatible heap layer))
    (h : layer.replay heap blocks.flatten = .ok result) :
    ∃ result', layer.replay heap order.flatten = .ok result' ∧
      ∀ key, Option.Rel (Update.Agrees heap) (result.get? key) (result'.get? key) := by
  refine exists_replay_of_slots fun key => ?_
  have hput := putAll_of_replay h key
  rw [List.filter_flatten] at hput ⊢
  have hkey : ∀ entry ∈ (blocks.map (List.filter (filedUnder key))).flatten,
      entry.update.location = key := by
    intro entry hentry
    obtain ⟨_, hblock, hentry⟩ := List.mem_flatten.mp hentry
    obtain ⟨block, -, rfl⟩ := List.mem_map.mp hblock
    exact of_decide_eq_true (List.mem_filter.mp hentry).2
  refine putAll_flatten_perm (hperm.map _) ?_ hkey hput
  exact List.pairwise_map.mpr (hcompatible.imp fun hblocks =>
    hblocks.mono (List.filter_subset_self _) (List.filter_subset_self _))

end Layer

end AbstractStateMachine
