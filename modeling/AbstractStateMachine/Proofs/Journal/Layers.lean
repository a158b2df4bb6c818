import AbstractStateMachine.Proofs.Journal.Order
import AbstractStateMachine.Proofs.Journal.Renaming
import AbstractStateMachine.Proofs.UpdateSet.Orderly

/-!
# Corresponding layers

Layers that come from the same journals in another order hold updates for the same locations with
equal values, up to the names of lists. This stays so when the layers are merged into the one below.
-/

namespace AbstractStateMachine

open ListHeap Entry

/-- The updates agree, up to the names of lists. -/
def Update.Corresponds (pairing : Pairing) (update other : Update) : Prop :=
  ∃ between, update.Agrees pairing.heap between ∧ between.Renames pairing.names other

namespace Layer

variable {pairing : Pairing} {layer layer' parent result : Layer} {entries entries' : List Entry}

/-- Under every key there are corresponding updates, or none. -/
def Corresponds (pairing : Pairing) (layer other : Layer) : Prop :=
  ∀ key, Option.Rel (Update.Corresponds pairing) (layer.get? key) (other.get? key)

theorem corresponds_of_related (h : layer.Related (Update.Renames pairing.names) layer') :
    layer.Corresponds pairing layer' :=
  fun key => rel_imp (h.get? key) fun _ _ hupdate => ⟨_, .inl rfl, hupdate⟩

theorem Corresponds.of_agrees {between : Layer}
    (h : ∀ key, Option.Rel (Update.Agrees pairing.heap) (layer.get? key) (between.get? key))
    (h' : between.Related (Update.Renames pairing.names) layer') :
    layer.Corresponds pairing layer' := by
  intro key
  have hleft := h key
  have hright := h'.get? key
  generalize layer.get? key = slot at hleft ⊢
  generalize between.get? key = middle at hleft hright
  generalize layer'.get? key = slot' at hright ⊢
  cases hleft with
  | none =>
    cases hright
    exact .none
  | some hagrees =>
    cases hright with
    | some hrenames => exact .some ⟨_, hagrees, hrenames⟩

theorem replay_renames (hlayer : layer.Related (Update.Renames pairing.names) layer')
    (hentries : List.Forall₂ (Entry.Renames pairing.names) entries entries')
    (h : layer.replay pairing.heap entries = .ok result) :
    ∃ result', layer'.replay pairing.image entries' = .ok result' ∧
      result.Related (Update.Renames pairing.names) result' := by
  induction hentries generalizing layer layer' with
  | nil =>
    cases h
    exact ⟨layer', rfl, hlayer⟩
  | @cons entry entry' rest rest' hentry _ ih =>
    have hrecord := pairing.respects_handling.record hlayer entry.agree hentry.update
    rw [← Layer.record_eq, ← Layer.record_eq, ← hentry.agree] at hrecord
    change (layer.record pairing.heap entry.agree entry.update).bind _ = _ at h
    rw [← hentry.agree] at h
    show ∃ result', (layer'.record pairing.image entry'.agree entry'.update).bind _ = _ ∧ _
    generalize layer.record pairing.heap entry'.agree entry.update = outcome at hrecord h
    generalize layer'.record pairing.image entry'.agree entry'.update = outcome' at hrecord ⊢
    cases hrecord with
    | error fault => cases h
    | ok hnext => exact ih hnext h

theorem Indexed.replay {heap : ListHeap} (h : layer.Indexed)
    (hreplay : layer.replay heap entries = .ok result) : result.Indexed := by
  induction entries generalizing layer with
  | nil =>
    cases hreplay
    exact h
  | cons entry rest ih =>
    obtain ⟨next, hrecord, hrest⟩ := exists_of_replay_cons hreplay
    exact ih (h.record hrecord) hrest

/-! ### Merging -/

def handed (depth : Nat) (layer : Layer) : List Entry :=
  (layer.values.map (Update.movedTo depth)).map (Entry.mk true)

theorem Indexed.filter_handed (h : layer.Indexed) (depth : Nat) (key : LocationKey) :
    (layer.handed depth).filter (filedUnder key) =
      (layer.get? key).toList.map fun update => ⟨true, update.movedTo depth⟩ := by
  have hselects : ∀ entry ∈ layer.entries,
      filedUnder key ⟨true, entry.2.movedTo depth⟩ = true ↔ entry.1 = key := by
    intro entry hentry
    rw [h.location entry.1 entry.2 (OrderedMap.get?_of_mem_entries h.nodup hentry)]
    exact decide_eq_true_iff
  have hfilter := OrderedMap.filter_entries_eq key h.nodup hselects
  rw [handed, OrderedMap.values, List.map_map, List.map_map, List.filter_map]
  refine (congrArg _ hfilter).trans ?_
  cases layer.get? key <;> rfl

theorem putAll_corresponds {slot : Option Update} {found found' : Option Update} (depth : Nat)
    (hslot : Option.Rel (Update.Renames pairing.names) slot slot)
    (h : Option.Rel (Update.Corresponds pairing) found found') {result : Option Update}
    (hput : putAll pairing.heap slot
      (found.toList.map fun update => ⟨true, update.movedTo depth⟩) = some result) :
    ∃ result', putAll pairing.image slot
        (found'.toList.map fun update => ⟨true, update.movedTo depth⟩) = some result' ∧
      Option.Rel (Update.Corresponds pairing) result result' := by
  have hself : Option.Rel (Update.Corresponds pairing) slot slot :=
    rel_imp hslot fun _ _ hupdate => ⟨_, .inl rfl, hupdate⟩
  cases h with
  | none =>
    cases hput
    exact ⟨slot, rfl, hself⟩
  | @some update update' h =>
    obtain ⟨between, hagrees, hrenames⟩ := h
    cases slot with
    | none =>
      cases hput
      refine ⟨_, rfl, .some ⟨between.movedTo depth, ?_, { hrenames with }⟩⟩
      rcases hagrees with rfl | hagrees
      · exact .inl rfl
      · exact .inr hagrees
    | some existing =>
      cases hslot with
      | some hexisting =>
        have hagree : ∀ update : Update, ∀ entry ∈ [(⟨true, update.movedTo depth⟩ : Entry)],
            entry.agree = true := fun _ _ hentry => List.mem_singleton.mp hentry ▸ rfl
        obtain ⟨rfl, hequal⟩ := (putAll_some_iff (hagree update)).mp hput
        have hexists := hequal _ List.mem_cons_self
        have hbetween : pairing.heap.equal existing.value between.value = true := by
          rcases hagrees with rfl | ⟨-, -, hvalue⟩
          · exact hexists
          · exact equal_trans hexists hvalue
        refine ⟨some existing, (putAll_some_iff (hagree update')).mpr ⟨rfl, ?_⟩, hself⟩
        rintro entry hentry
        rw [List.mem_singleton.mp hentry]
        exact (pairing.renames.equal_eq hexisting.value hrenames.value).trans hbetween

theorem Corresponds.replay_handed (h : layer.Corresponds pairing layer') (hlayer : layer.Indexed)
    (hlayer' : layer'.Indexed) (hparent : parent.Related (Update.Renames pairing.names) parent)
    (depth : Nat) (hreplay : parent.replay pairing.heap (layer.handed depth) = .ok result) :
    ∃ result', parent.replay pairing.image (layer'.handed depth) = .ok result' ∧
      result.Corresponds pairing result' := by
  refine exists_replay_of_slots fun key => ?_
  have hput := putAll_of_replay hreplay key
  rw [hlayer.filter_handed] at hput
  rw [hlayer'.filter_handed]
  exact putAll_corresponds depth (hparent.get? key) (h key) hput

end Layer

end AbstractStateMachine
