import AbstractStateMachine.Proofs.Journal.Tracking
import AbstractStateMachine.Proofs.Renaming.Machine

/-!
# Journals up to the names of lists

Journaling does not look at the layer that it keeps the journal of. So on two machines that are the
same up to that layer and the names of lists, a statement ends alike and gives the same journal. The
journal accounts for that layer: it is what replaying the journal makes of the layer from before.
-/

namespace AbstractStateMachine

open ListHeap Draft UpdateSet

/-! ### Replaying in a heap that grows -/

def Entry.values (entry : Entry) : List Value := entry.update.values

namespace Layer

variable {heap later : ListHeap} {layer result : Layer} {entries : List Entry}

theorem supports_record {agree : Bool} {update : Update} (hlayer : heap.Supports layer.held)
    (hupdate : heap.Supports update.values) (h : layer.record later agree update = .ok result) :
    heap.Supports result.held := by
  refine supports_iff.mpr fun list hlist => ?_
  rcases mem_held_record h hlist with hnew | hold
  · exact supports_iff.mp hupdate list hnew
  · exact supports_iff.mp hlayer list hold

theorem supports_replay (hlayer : heap.Supports layer.held)
    (hentries : ∀ entry ∈ entries, heap.Supports entry.values)
    (h : layer.replay later entries = .ok result) : heap.Supports result.held := by
  induction entries generalizing layer with
  | nil =>
    cases h
    exact hlayer
  | cons entry rest ih =>
    obtain ⟨hentry, hrest⟩ := List.forall_mem_cons.mp hentries
    obtain ⟨next, hrecord, hreplay⟩ := exists_of_replay_cons h
    exact ih (supports_record hlayer hentry hrecord) hrest hreplay

theorem supports_of_get? {key : LocationKey} {update : Update} (hlayer : heap.Supports layer.held)
    (h : layer.get? key = some update) : heap.Supports update.values :=
  hlayer.mono fun _ hvalue =>
    List.mem_flatMap.mpr ⟨update, OrderedMap.mem_values_of_get? h, hvalue⟩

section Agrees

variable (hagrees : heap.Agrees later)
include hagrees

theorem record_eq_of_agrees {agree : Bool} {update : Update} (hlayer : heap.Supports layer.held)
    (hlayer' : later.Supports layer.held) (hupdate : heap.Supports update.values)
    (hupdate' : later.Supports update.values) :
    layer.record later agree update = layer.record heap agree update := by
  have hargs : ∀ {heap : ListHeap} {update : Update}, heap.Supports update.values →
      heap.Supports update.args := fun h => h.mono fun _ => List.mem_append_left _
  have hvalue : ∀ {heap : ListHeap} {update : Update}, heap.Supports update.values →
      heap.Supports [update.value] := fun h => h.mono fun _ => List.mem_append_right _
  unfold record join override
  cases hget : layer.get? (update.function, update.key) with
  | none => rfl
  | some existing =>
    have hexisting := supports_of_get? hlayer hget
    have hexisting' := supports_of_get? hlayer' hget
    dsimp only
    rw [hagrees.equal_eq (hvalue hexisting) (hvalue hexisting') (hvalue hupdate)
        (hvalue hupdate'),
      hagrees.sameArgs_eq (hargs hexisting) (hargs hexisting') (hargs hupdate) (hargs hupdate')]

theorem replay_eq_of_agrees (hlayer : heap.Supports layer.held)
    (hlayer' : later.Supports layer.held) (hentries : ∀ entry ∈ entries, heap.Supports entry.values)
    (hentries' : ∀ entry ∈ entries, later.Supports entry.values) :
    layer.replay later entries = layer.replay heap entries := by
  induction entries generalizing layer with
  | nil => rfl
  | cons entry rest ih =>
    obtain ⟨hentry, hrest⟩ := List.forall_mem_cons.mp hentries
    obtain ⟨hentry', hrest'⟩ := List.forall_mem_cons.mp hentries'
    show (layer.record later entry.agree entry.update).bind _ =
      (layer.record heap entry.agree entry.update).bind _
    rw [record_eq_of_agrees hagrees hlayer hlayer' hentry hentry']
    cases hrecord : layer.record heap entry.agree entry.update with
    | error fault => rfl
    | ok next =>
      exact ih (supports_record hlayer hentry hrecord) (supports_record hlayer' hentry' hrecord)
        hrest hrest'

end Agrees

end Layer

/-! ### Drafts -/

structure Entry.Renames (names : Handle → Handle → Prop) (entry other : Entry) : Prop where
  agree : other.agree = entry.agree
  update : entry.update.Renames names other.update

def layerAt (depth : Nat) : List Layer → Option Layer
  | [] => none
  | layer :: below => if below.length = depth then some layer else layerAt depth below

/-- Two drafts with the same journal. Where it is given which layer the journal began with, the
journal accounts for what became of that layer. -/
structure Draft.Renames (depth : Nat) (origin : Option Layer) (pairing : Pairing)
    (draft other : Draft) : Prop where
  machine : draft.machine.Renames pairing depth other.machine
  entries : List.Forall₂ (Entry.Renames pairing.names) draft.entries other.entries
  deep : depth ≤ draft.machine.pending.depth
  supports : ∀ start ∈ origin, pairing.heap.Supports start.held
  clean : ∀ start ∈ origin, draft.clean = true →
    ∃ layer, layerAt depth draft.machine.pending.layers = some layer ∧
      start.replay pairing.heap draft.entries = .ok layer
  unclean : ∀ start ∈ origin, draft.clean = false →
    ∃ fault, start.replay pairing.heap draft.entries = .error fault

section Drafts

variable {depth : Nat} {origin : Option Layer} {pairing later : Pairing} {draft other : Draft}
  {layer : Layer} {entries : List Entry}

theorem layerAt_of_ne {below : List Layer} (h : below.length ≠ depth) :
    layerAt depth (layer :: below) = layerAt depth below :=
  if_neg h

theorem layerAt_of_eq {below : List Layer} (h : below.length = depth) :
    layerAt depth (layer :: below) = some layer :=
  if_pos h

theorem supports_entries {entries' : List Entry}
    (h : List.Forall₂ (Entry.Renames pairing.names) entries entries') :
    ∀ entry ∈ entries, pairing.heap.Supports entry.values := by
  intro entry hentry
  obtain ⟨other, -, hrenames⟩ := exists_mem_of_forall₂ h hentry
  exact supports_of_renames pairing.renames
    (List.rel_append hrenames.update.args (.cons hrenames.update.value .nil))

theorem replay_later (hlater : pairing.Later later) (hlayer : pairing.heap.Supports layer.held)
    (hentries : ∀ entry ∈ entries, pairing.heap.Supports entry.values) :
    layer.replay later.heap entries = layer.replay pairing.heap entries :=
  Layer.replay_eq_of_agrees
    (agrees_of_extends pairing.renames.wellFormed later.renames.wellFormed hlater.heap) hlayer
    (hlayer.extends hlater.heap) hentries fun entry hentry =>
      (hentries entry hentry).extends hlater.heap

theorem Draft.Renames.onward (h : draft.Renames depth origin pairing other)
    (hlater : pairing.Later later) {machine machine' : Machine}
    (hmachine : machine.Renames later depth machine')
    (hpending : machine.pending = draft.machine.pending) :
    Renames depth origin later { draft with machine } { other with machine := machine' } where
  machine := hmachine
  entries := h.entries.imp fun _ _ hentry => ⟨hentry.agree, hentry.update.imp hlater.names⟩
  deep := hpending ▸ h.deep
  supports start hstart := (h.supports start hstart).extends hlater.heap
  clean start hstart hclean := by
    rw [hpending, replay_later hlater (h.supports start hstart) (supports_entries h.entries)]
    exact h.clean start hstart hclean
  unclean start hstart hunclean := by
    rw [replay_later hlater (h.supports start hstart) (supports_entries h.entries)]
    exact h.unclean start hstart hunclean

theorem Draft.Renames.above (h : draft.Renames depth origin pairing other)
    {pending pending' : UpdateSet} (hdeep : depth ≤ pending.depth)
    (hlayers : RelatedBesides depth (Update.Renames pairing.names) pending.layers pending'.layers)
    (hbase : layerAt depth pending.layers = layerAt depth draft.machine.pending.layers) :
    Renames depth origin pairing
      { draft with machine := { draft.machine with pending } }
      { other with machine := { other.machine with pending := pending' } } :=
  { h with
    machine := { h.machine with layers := hlayers }
    deep := hdeep
    clean := fun start hstart hclean => hbase ▸ h.clean start hstart hclean }

theorem Draft.exists_deliver (draft : Draft) (pending : UpdateSet) (entries : List Entry) :
    ∃ top clean, draft.deliver pending entries =
      { machine := { draft.machine with pending := { pending with top } }
        entries := draft.entries ++ entries
        clean } := by
  cases h : pending.top.replay draft.machine.heap entries with
  | ok top => exact ⟨top, draft.clean, deliver_of_ok h⟩
  | error fault => exact ⟨pending.top, false, deliver_of_error h⟩

theorem Draft.Renames.deliver (h : draft.Renames depth origin pairing other)
    {pending pending' : UpdateSet} {entries' : List Entry} (hdepth : pending.depth = depth)
    (hlayers : RelatedBesides depth (Update.Renames pairing.names) pending.layers pending'.layers)
    (hbase : layerAt depth draft.machine.pending.layers = some pending.top)
    (hentries : List.Forall₂ (Entry.Renames pairing.names) entries entries') :
    Renames depth origin pairing (draft.deliver pending entries)
      (other.deliver pending' entries') := by
  obtain ⟨top', clean', hother⟩ := other.exists_deliver pending' entries'
  have hjournal := List.rel_append h.entries hentries
  have hfaulty : ∀ start ∈ origin, draft.clean = false →
      ∃ fault, start.replay pairing.heap (draft.entries ++ entries) = .error fault := by
    intro start hstart hunclean
    obtain ⟨fault, hfault⟩ := h.unclean start hstart hunclean
    exact ⟨fault, by rw [Layer.replay_append, hfault]; rfl⟩
  have hreplay : ∀ start ∈ origin, draft.clean = true →
      start.replay pairing.heap (draft.entries ++ entries) =
        pending.top.replay pairing.heap entries := by
    intro start hstart hclean
    obtain ⟨layer, hlayer, hok⟩ := h.clean start hstart hclean
    obtain rfl : layer = pending.top := Option.some.inj (hlayer.symm.trans hbase)
    rw [Layer.replay_append, hok]
    rfl
  rw [hother]
  cases hnext : pending.top.replay draft.machine.heap entries with
  | ok top =>
    rw [deliver_of_ok hnext]
    rw [h.machine.heap] at hnext
    exact {
      machine := { h.machine with layers := hlayers.replace hdepth }
      entries := hjournal
      deep := hdepth.ge
      supports := h.supports
      clean := fun start hstart hclean =>
        ⟨top, layerAt_of_eq hdepth, (hreplay start hstart hclean).trans hnext⟩
      unclean := hfaulty }
  | error fault =>
    rw [deliver_of_error hnext]
    rw [h.machine.heap] at hnext
    exact {
      machine := { h.machine with layers := hlayers.replace hdepth }
      entries := hjournal
      deep := hdepth.ge
      supports := h.supports
      clean := nofun
      unclean := fun start hstart _ => by
        cases hclean : draft.clean with
        | false => exact hfaulty start hstart hclean
        | true => exact ⟨fault, (hreplay start hstart hclean).trans hnext⟩ }

end Drafts

/-! ### Computations -/

def drafted (depth : Nat) (origin : Option Layer) : Coupling Draft Value Draft Value where
  World := Pairing
  Later := Pairing.Later
  States pairing := Renames depth origin pairing
  Values pairing := Value.Renames pairing.names
  later_refl := Pairing.later_refl
  later_trans := @Pairing.later_trans
  values_later := @Pairing.Later.renames

namespace Draft

open Coupling

variable {α β : Type} {setting : Setting} {depth : Nat} {origin : Option Layer} {w : Pairing}
  {rel : Pairing → α → β → Prop} {draft image : Draft}

theorem alike_lift_of_pending {run : Run α} {run' : Run β}
    (h : (renamed depth).Alike w rel run run')
    (hpending : ∀ machine, (run machine).2.pending = machine.pending) :
    (drafted depth origin).Alike w rel (lift run) (lift run') := by
  intro draft other hdraft
  have hends := h draft.machine other.machine hdraft.machine
  have hsame := hpending draft.machine
  unfold lift Computation.within
  generalize run draft.machine = outcome at hends hsame ⊢
  generalize run' other.machine = outcome' at hends ⊢
  cases hends with
  | ok hlater hstates hrel => exact .ok hlater (hdraft.onward hlater hstates hsame) hrel
  | error stop hlater hstates => exact .error stop hlater (hdraft.onward hlater hstates hsame)

theorem alike_observing (setting : Setting) {run : Run α} {run' : Run β}
    (hrun : Run.OnlyObserves setting run) (h : (renamed depth).Alike w rel run run') :
    (drafted depth origin).Alike w rel (lift run) (lift run') :=
  alike_lift_of_pending h fun machine => (hrun machine).pending

/-! ### Updates -/

theorem depth_eq (h : draft.Renames depth origin w image) :
    image.machine.pending.depth = draft.machine.pending.depth :=
  Nat.succ.inj h.machine.layers.length_eq

theorem inParallel_eq (h : draft.Renames depth origin w image) :
    image.machine.pending.inParallel = draft.machine.pending.inParallel := by
  rw [inParallel, inParallel, depth_eq h]

theorem alike_write {function : FunctionId} {args others : List Value} {value other : Value}
    (hargs : List.Forall₂ (Value.Renames w.names) args others)
    (hvalue : value.Renames w.names other) (span : Span) :
    (drafted depth origin).Alike w (drafted depth origin).Same
      (write setting depth function args value span)
      (write setting depth function others other span) := by
  intro draft image h
  have hlayers := h.machine.layers
  have hdepth := depth_eq h
  have hparallel := inParallel_eq h
  have hkey : image.machine.heap.argKey setting.digest others =
      draft.machine.heap.argKey setting.digest args := by
    rw [h.machine.heap, h.machine.image]
    exact w.renames.argKey_eq hargs setting.digest
  have hupdate : ∀ layer, Update.Renames w.names
      { function, key := draft.machine.heap.argKey setting.digest args, args, value, span, layer }
      { function, key := draft.machine.heap.argKey setting.digest args, args := others
        value := other, span, layer } := fun _ => ⟨rfl, hargs, hvalue, rfl⟩
  unfold write
  dsimp only
  rw [hdepth, hkey]
  split
  · next hbase =>
      rw [hparallel]
      refine .ok ((drafted depth origin).later_refl w) ?_ rfl
      exact h.deliver hbase hlayers (layerAt_of_eq hbase) (.cons ⟨rfl, hupdate depth⟩ .nil)
  · next hne =>
      have htop := hlayers.of_top hne
      have hrecord := w.respects_handling.record htop draft.machine.pending.inParallel
        (hupdate draft.machine.pending.depth)
      rw [← Layer.record_eq, ← Layer.record_eq, ← h.machine.heap, ← h.machine.image] at hrecord
      have hadd : draft.machine.pending.add draft.machine.heap setting.digest function args value
          span = (draft.machine.pending.top.record draft.machine.heap
            draft.machine.pending.inParallel
            { function, key := draft.machine.heap.argKey setting.digest args, args, value, span
              layer := draft.machine.pending.depth }).map
          fun top => { draft.machine.pending with top } := rfl
      have hadd' : image.machine.pending.add image.machine.heap setting.digest function others other
          span = (image.machine.pending.top.record image.machine.heap
            draft.machine.pending.inParallel
            { function, key := draft.machine.heap.argKey setting.digest args, args := others
              value := other, span, layer := draft.machine.pending.depth }).map
          fun top => { image.machine.pending with top } := by
        rw [add, hkey, hparallel, hdepth]
      generalize draft.machine.pending.top.record _ _ _ = outcome at hrecord hadd
      generalize image.machine.pending.top.record _ _ _ = outcome' at hrecord hadd'
      unfold lift Computation.within
      cases hrecord with
      | error fault =>
        rw [Run.write_of_add_error hadd, Run.write_of_add_error hadd']
        exact .error _ ((drafted depth origin).later_refl w) h
      | ok htop =>
        rw [Run.write_of_add_ok hadd, Run.write_of_add_ok hadd']
        refine .ok ((drafted depth origin).later_refl w) (h.above h.deep ?_ ?_) rfl
        · exact .cons (fun _ => htop) hlayers.of_below
        · exact (layerAt_of_ne hne).trans (layerAt_of_ne hne).symm

theorem alike_enter (parallel : Bool) :
    (drafted depth origin).Alike w (drafted depth origin).Same
      ((journaling setting depth).enter parallel) ((journaling setting depth).enter parallel) := by
  intro draft image h
  have hlayers := h.machine.layers
  have hparallel := inParallel_eq h
  show (drafted depth origin).EndsAlike w _ (lift _ draft) (lift _ image)
  unfold lift Computation.within
  by_cases hsame : draft.machine.pending.inParallel = parallel
  · rw [Tracks.enter_of_eq hsame, Tracks.enter_of_eq (hparallel.trans hsame)]
    exact .ok ((drafted depth origin).later_refl w) h rfl
  · rw [Tracks.enter_of_ne hsame, Tracks.enter_of_ne (by rwa [hparallel])]
    have hne : draft.machine.pending.layers.length ≠ depth := by
      have hdeep : depth ≤ draft.machine.pending.below.length := h.deep
      rw [layers, List.length_cons]
      omega
    refine .ok ((drafted depth origin).later_refl w) (h.above ?_ ?_ (layerAt_of_ne hne)) rfl
    · exact Nat.le_succ_of_le h.deep
    · exact .cons (fun _ => OrderedMap.related_empty) hlayers

theorem renames_handOver (h : draft.Renames depth origin w image)
    (hdepth : draft.machine.pending.depth = depth + 1) (agree : Bool) :
    (draft.handOver agree).Renames depth origin w (image.handOver agree) := by
  have hlayers := h.machine.layers
  have htop := hlayers.of_top (by
    have hlength : draft.machine.pending.below.length = depth + 1 := hdepth
    omega)
  have hbelow := hlayers.of_below
  have hdeep : draft.machine.pending.below.length = depth + 1 := hdepth
  have hbase : layerAt depth draft.machine.pending.layers =
      layerAt depth draft.machine.pending.below := layerAt_of_ne (by omega)
  unfold handOver
  generalize draft.machine.pending.below = below at hbelow hdeep hbase ⊢
  generalize image.machine.pending.below = below' at hbelow ⊢
  cases hbelow with
  | nil => exact h
  | @cons parent parent' below below' hparent hbelow =>
    rw [List.length_cons] at hdeep
    have hdepth : below.length = depth := by omega
    rw [layerAt_of_eq hdepth] at hbase
    refine h.deliver hdepth (.cons hparent hbelow) hbase ?_
    rw [hbelow.length_eq]
    refine List.forall₂_map_left_iff.mpr (List.forall₂_map_right_iff.mpr ?_)
    exact htop.values.imp fun _ _ hupdate => ⟨rfl, w.respects_handling.movedTo _ hupdate⟩

theorem renames_mergeTop (h : draft.Renames depth origin w image)
    (hdepth : depth + 1 < draft.machine.pending.depth) (agree : Bool) :
    Renames depth origin w
        { draft with machine := { draft.machine with
          pending := (draft.machine.pending.mergeTop draft.machine.heap agree).1 } }
        { image with machine := { image.machine with
          pending := (image.machine.pending.mergeTop image.machine.heap agree).1 } } ∧
      (image.machine.pending.mergeTop image.machine.heap agree).2 =
        (draft.machine.pending.mergeTop draft.machine.heap agree).2 := by
  have hlayers := h.machine.layers
  have hdeep : depth + 1 < draft.machine.pending.below.length := hdepth
  have htop := hlayers.of_top (by omega)
  have hbelow := hlayers.of_below
  have hbase : layerAt depth draft.machine.pending.layers =
      layerAt depth draft.machine.pending.below := layerAt_of_ne (by omega)
  cases hdraft : draft.machine.pending.below with
  | nil =>
    rw [hdraft] at hdeep
    cases hdeep
  | cons parent below =>
    rw [hdraft] at hbelow hdeep hbase
    generalize himage : image.machine.pending.below = below' at hbelow
    cases hbelow with
    | @cons _ parent' _ below' hparent hbelow =>
      rw [List.length_cons] at hdeep
      have hmoved : List.Forall₂ (Update.Renames w.names)
          (draft.machine.pending.top.values.map (Update.movedTo below.length))
          (image.machine.pending.top.values.map (Update.movedTo below'.length)) := by
        rw [hbelow.length_eq]
        refine List.forall₂_map_left_iff.mpr (List.forall₂_map_right_iff.mpr ?_)
        exact htop.values.imp fun _ _ => w.respects_handling.movedTo _
      obtain ⟨hmerged, hfault⟩ :=
        w.respects_handling.recordAll (hparent (by omega)) agree hmoved
      rw [← Layer.recordAll_eq, ← Layer.recordAll_eq, ← h.machine.heap, ← h.machine.image]
        at hmerged hfault
      rw [mergeTop_of_below hdraft, mergeTop_of_below himage]
      have hle : depth ≤ below.length := by omega
      have hne : below.length ≠ depth := by omega
      refine ⟨h.above hle (.cons (fun _ => hmerged) hbelow) ?_, hfault⟩
      rw [hbase]
      exact (layerAt_of_ne hne).trans (layerAt_of_ne hne).symm

theorem alike_leave (merge : UpdateSet → ListHeap → Bool → UpdateSet × Option Fault)
    (agree : UpdateSet → Bool) (hstay : ∀ set heap, merge set heap false = (set, none))
    (hmerge : ∀ set heap, merge set heap true = set.mergeTop heap (agree set))
    (hagree : ∀ set set' : UpdateSet, set'.depth = set.depth → agree set' = agree set)
    (forked : Bool) :
    (drafted depth origin).Alike w (drafted depth origin).Same
      (leave merge agree depth forked) (leave merge agree depth forked) := by
  intro draft image h
  have hdepth := depth_eq h
  unfold leave
  dsimp only
  rw [hdepth, hagree _ _ hdepth]
  split
  · exact .error _ ((drafted depth origin).later_refl w) h
  split
  · next hbase =>
      exact .ok ((drafted depth origin).later_refl w) (renames_handOver h hbase.2 _) rfl
  · next habove hbase =>
      unfold lift Computation.within
      cases forked with
      | false =>
        rw [Run.leave_of_merge_ok (hstay _ _), Run.leave_of_merge_ok (hstay _ _)]
        exact .ok ((drafted depth origin).later_refl w) h rfl
      | true =>
        have hdeep : depth + 1 < draft.machine.pending.depth := by
          have hlt := mt (And.intro rfl) habove
          have hne := mt (And.intro rfl) hbase
          omega
        obtain ⟨hmerged, hfault⟩ := renames_mergeTop h hdeep (agree draft.machine.pending)
        have hleft := hmerge draft.machine.pending draft.machine.heap
        have hright := hmerge image.machine.pending image.machine.heap
        rw [hagree _ _ hdepth] at hright
        generalize draft.machine.pending.mergeTop _ _ = merged at hmerged hfault hleft
        generalize image.machine.pending.mergeTop _ _ = merged' at hmerged hfault hright
        obtain ⟨pending, fault⟩ := merged
        obtain ⟨pending', fault'⟩ := merged'
        cases hfault
        cases fault with
        | none =>
          rw [Run.leave_of_merge_ok hleft, Run.leave_of_merge_ok hright]
          exact .ok ((drafted depth origin).later_refl w) hmerged rfl
        | some fault =>
          rw [Run.leave_of_merge_error hleft, Run.leave_of_merge_error hright]
          exact .error _ ((drafted depth origin).later_refl w) hmerged

end Draft

/-! ### Statements -/

open Coupling Run Machine

theorem Draft.Renames.rebound {depth : Nat} {origin : Option Layer} {w : Pairing}
    {draft other : Draft} (h : draft.Renames depth origin w other) {machine machine' : Machine}
    (hmachine : machine.Renames w depth machine')
    (hpending : machine.pending = draft.machine.pending) :
    Renames depth origin w { draft with machine } { other with machine := machine' } :=
  h.onward (Pairing.later_refl w) hmachine hpending

theorem correspondence_drafted {setting : Setting} (hconcrete : setting.symbolic = false)
    {depth : Nat} (hodd : depth % 2 = 1) (origin : Option Layer) :
    Correspondence (drafted depth origin) (journaling setting depth) (journaling setting depth)
      (.all _) where
  spec := rfl
  span _ _ _ h := h.machine.span
  enterFrame w draft other params args others h hargs := by
    refine h.rebound { h.machine with
      locals := ?_
      frameBase := h.machine.locals.length_eq.symm } rfl
    exact List.rel_append (List.forall₂_reverse_iff.mpr (renames_frame params hargs))
      h.machine.locals
  leaveFrame w w' caller caller' draft other hcaller h := by
    refine h.rebound { h.machine with locals := ?_, frameBase := hcaller.machine.frameBase } rfl
    show List.Forall₂ _ (draft.machine.locals.drop _) (other.machine.locals.drop _)
    rw [← h.machine.locals.length_eq, h.machine.frameBase]
    exact List.forall₂_drop _ h.machine.locals
  readStored _ function _ _ hargs :=
    alike_observing setting (onlyObserves_readStored function _)
      (renames_readStored hconcrete hodd function hargs)
  operate _ _ _ _ _ hread hargs :=
    alike_observing setting (onlyObserves_operate hread _)
      (renames_operate hconcrete hread hargs)
  equal w draft other _ _ _ _ h hvalue hother := by
    show other.machine.heap.equal _ _ = draft.machine.heap.equal _ _
    rw [h.machine.heap, h.machine.image]
    exact w.renames.equal_eq hvalue hother
  setSpan _ _ _ _ h := h.rebound { h.machine with span := rfl } rfl
  bindLocal _ _ _ _ _ _ h hvalue :=
    h.rebound { h.machine with locals := .cons ⟨rfl, hvalue⟩ h.machine.locals } rfl
  unbindLocal w draft other h := by
    refine h.rebound { h.machine with locals := ?_ } rfl
    show List.Forall₂ _ draft.machine.locals.tail other.machine.locals.tail
    rw [← List.drop_one, ← List.drop_one]
    exact List.forall₂_drop 1 h.machine.locals
  decide _ _ _ hvalue :=
    alike_observing setting (onlyObserves_decide _) (renames_decide hvalue)
  elements _ _ _ hvalue :=
    alike_observing setting (onlyObserves_domainElements _) (renames_domainElements hvalue)
  ruleOf _ _ _ hvalue :=
    alike_observing setting (onlyObserves_ruleOf _) (renames_ruleOf hvalue)
  text w draft other _ _ h hvalue := by
    show other.machine.heap.text _ _ = draft.machine.heap.text _ _
    rw [h.machine.heap, h.machine.image]
    exact w.renames.text_eq hvalue setting.spec
  print _ _ _ _ := alike_lift_of_pending
    (alike_modify fun _ _ h => { h with }) fun _ => rfl
  pushed _ _ _ _ _ hvalue hcurrent :=
    alike_observing setting (onlyObserves_pushed _ _) (renames_pushed hvalue hcurrent)
  popped _ _ _ hcurrent :=
    alike_observing setting (onlyObserves_popped _) (renames_popped hcurrent)
  write _ _ _ _ _ _ span hargs hvalue := alike_write hargs hvalue span
  enter _ parallel := alike_enter parallel
  leave _ forked := by
    refine alike_leave merge inParallel (fun _ _ => rfl) (fun _ _ => rfl)
      (fun _ _ hdepth => ?_) forked
    rw [inParallel, inParallel, hdepth]
  leaveRound _ forked := alike_leave mergeRound (fun _ => false) (fun _ _ => rfl)
    (fun _ _ => rfl) (fun _ _ _ => rfl) forked
  recordsNothing w draft other h := by
    show (other.machine.pending.depth != depth && other.machine.pending.top.isEmpty) =
      (draft.machine.pending.depth != depth && draft.machine.pending.top.isEmpty)
    rw [depth_eq h]
    by_cases hbase : draft.machine.pending.depth = depth
    · rw [hbase, bne_self_eq_false, Bool.false_and, Bool.false_and]
    · rw [(h.machine.layers.of_top hbase).isEmpty_eq]

end AbstractStateMachine
