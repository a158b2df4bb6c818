import AbstractStateMachine.Proofs.Journal.Parallel
import AbstractStateMachine.Proofs.Machine.Readiness
import AbstractStateMachine.Proofs.Machine.SameStore

/-!
# Parallel blocks in any order

Independent statements of a parallel block may be executed in any order: they succeed in one order
if they do in another, and what is stored in the end is the same.
-/

namespace AbstractStateMachine

open ListHeap Run

/-! ### What corresponding updates store -/

theorem Update.Corresponds.exists_data {pairing : Pairing} {update other : Update}
    (h : update.Corresponds pairing other) {images : List Datum} {datum : Datum}
    (himages : List.Forall₂ pairing.heap.Represents update.args images)
    (hdatum : pairing.heap.Represents update.value datum) :
    ∃ images' datum', List.Forall₂ pairing.image.Represents other.args images' ∧
      pairing.image.Represents other.value datum' ∧ datum.Similar datum' ∧
      ∀ data, (∀ datum ∈ data, datum.equal datum = true) →
        allPairs Datum.equal data images' = allPairs Datum.equal data images := by
  obtain ⟨between, hagrees, hrenames⟩ := h
  obtain ⟨images', hargs, hargs'⟩ := pairing.renames.exists_represents_all hrenames.args
  obtain ⟨datum', hvalue, hvalue'⟩ := pairing.renames.exists_represents hrenames.value
  refine ⟨images', datum', hargs', hvalue', ?_⟩
  rcases hagrees with rfl | ⟨-, hsame, hequal⟩
  · cases forall₂_unique himages hargs fun _ _ _ _ h h' => h.unique h'
    cases hdatum.unique hvalue
    exact ⟨.same _, fun _ _ => rfl⟩
  · have hheap := pairing.renames.wellFormed
    refine ⟨hdatum.similar_of_equal hheap hvalue hequal, fun data hself => ?_⟩
    -- compare with values that represent the data, in a heap that has them
    obtain ⟨later, probe, hlater, hgrows, hprobe⟩ := exists_represents_data hheap data
    have hleft := represents_extends hheap hgrows himages
    have hright := represents_extends hheap hgrows hargs
    have hsame' : later.sameArgs update.args between.args = true := by
      rw [(agrees_of_extends hheap hlater hgrows).sameArgs_eq (supports_of_represents himages)
        (supports_of_represents hleft) (supports_of_represents hargs)
        (supports_of_represents hright)]
      exact hsame
    rw [← sameArgs_eq_of_self hlater hleft hprobe hself,
      ← sameArgs_eq_of_self hlater hright hprobe hself]
    exact Bool.eq_iff_iff.mpr ⟨sameArgs_trans hsame', sameArgs_trans (sameArgs_symm hsame')⟩

namespace Machine

variable {setting : Setting} {machine next next' : Machine} {pairing : Pairing}

/-! ### Consistent machines under their own names -/

theorem relatedBesides_self {R : Update → Update → Prop} (depth : Nat) {layers : List Layer}
    (h : ∀ layer ∈ layers, OrderedMap.Related R layer layer) :
    RelatedBesides depth R layers layers := by
  induction layers with
  | nil => exact .nil
  | cons layer below ih =>
    obtain ⟨hlayer, hbelow⟩ := List.forall_mem_cons.mp h
    exact .cons (fun _ => hlayer) (ih hbelow)

section Consistent

variable (hconcrete : setting.symbolic = false) (hmachine : machine.Consistent setting)
include hconcrete hmachine

theorem Consistent.related_layer {layer : Layer} (hlayer : layer ∈ machine.pending.layers) :
    layer.Related (Update.Renames machine.heap.SameName) layer := by
  have hpending := hmachine.pending
  rw [hconcrete] at hpending
  refine List.forall₂_same.mpr fun entry hentry => ?_
  have hvalues : ∀ value ∈ entry.2.values, value.Renames machine.heap.SameName value :=
    fun value hvalue => renames_of_sound (hpending value (List.mem_flatMap.mpr ⟨layer, hlayer,
      List.mem_flatMap.mpr ⟨entry.2, List.mem_map_of_mem hentry, hvalue⟩⟩))
  exact ⟨rfl, rfl, List.forall₂_same.mpr fun value hvalue =>
    hvalues value (List.mem_append_left _ hvalue),
    hvalues entry.2.value (List.mem_append_right _ List.mem_cons_self), rfl⟩

theorem Consistent.related_tables :
    Tables.Related (StoredLocation.Renames machine.heap.SameName) machine.state.tables
      machine.state.tables := by
  have hstate := hmachine.state
  rw [hconcrete] at hstate
  refine List.forall₂_same.mpr fun table htable => List.forall₂_same.mpr fun entry hentry =>
    ⟨rfl, List.forall₂_same.mpr fun location hlocation => ?_⟩
  have hvalues : ∀ value, value ∈ location.args ∨ value = location.value →
      value.Renames machine.heap.SameName value := fun value hvalue =>
    renames_of_sound (hstate value (Interpretation.mem_values_iff.mpr
      ⟨table, Array.mem_toList_iff.mp htable, entry.2, List.mem_map_of_mem hentry, location,
        hlocation, hvalue⟩))
  exact ⟨List.forall₂_same.mpr fun value hvalue => hvalues value (.inl hvalue),
    hvalues _ (.inr rfl)⟩

theorem Consistent.inBlock : machine.InBlock machine.pending.depth := by
  have hlocals := hmachine.locals
  rw [hconcrete] at hlocals
  refine ⟨hmachine.wellFormed,
    ⟨⟨rfl, rfl, hmachine.related_tables hconcrete, ?_, ?_, rfl, rfl⟩, rfl⟩, ?_⟩
  · exact relatedBesides_self _ fun layer hlayer => hmachine.related_layer hconcrete hlayer
  · exact List.forall₂_same.mpr fun binding hbinding =>
      ⟨rfl, renames_of_sound (hlocals binding hbinding)⟩
  · have hpending := hmachine.pending
    rw [hconcrete] at hpending
    refine supports_iff.mpr fun list hlist => (sound_list_iff.mp (hpending _ ?_)).1
    exact List.mem_flatMap.mpr ⟨machine.pending.top, List.mem_cons_self, hlist⟩

end Consistent

/-! ### Leaving the block -/

theorem leave_eq_ok_iff {parent : Layer} {below : List Layer}
    (hbelow : machine.pending.below = parent :: below)
    (hparallel : machine.pending.inParallel = true) :
    leave UpdateSet.merge true machine = (.ok (), next) ↔
      ∃ result, parent.replay machine.heap (machine.pending.top.handed below.length) = .ok result ∧
        next = { machine with pending := ⟨result, below⟩ } := by
  have hmerge : machine.pending.merge machine.heap true =
      let merged := parent.recordAll machine.heap true
        (machine.pending.top.values.map (Update.movedTo below.length))
      (⟨merged.1, below⟩, merged.2) := by
    rw [UpdateSet.merge, if_pos rfl, hparallel, UpdateSet.mergeTop_of_below hbelow]
  rw [Layer.handed, Layer.replay_map]
  rcases hrecorded : parent.recordAll machine.heap true
    (machine.pending.top.values.map (Update.movedTo below.length)) with ⟨result, _ | fault⟩
  · rw [hrecorded] at hmerge
    rw [leave_of_merge_ok hmerge]
    constructor
    · rintro ⟨⟩
      exact ⟨result, rfl, rfl⟩
    · rintro ⟨_, ⟨⟩, rfl⟩
      rfl
  · rw [hrecorded] at hmerge
    rw [leave_of_merge_error hmerge]
    constructor
    · rintro ⟨⟩
    · rintro ⟨_, ⟨⟩, -⟩

def entering (span : Span) (machine : Machine) : Machine :=
  { machine with span, pending := machine.pending.forkParallel.2 }

theorem exec_par_eq_ok_iff {fuel : Nat} {span : Span} {stmts : List Stmt} :
    exec setting (fuel + 1) ⟨span, .par stmts⟩ machine = (.ok (), next) ↔
      ∃ middle, Backend.sequence ((Machine.backend setting).exec fuel) stmts
          (machine.entering span) = (.ok (), middle) ∧
        leave UpdateSet.merge machine.pending.forkParallel.1 middle = (.ok (), next) := by
  rw [exec_eq]
  show (Backend.sequence ((Machine.backend setting).exec fuel) stmts >>= fun _ =>
    leave UpdateSet.merge machine.pending.forkParallel.1) (machine.entering span) = _ ↔ _
  constructor
  · intro hrun
    obtain ⟨⟨⟩, middle, hsequence, hleave⟩ := exists_of_bind_eq_ok hrun
    exact ⟨middle, hsequence, hleave⟩
  · rintro ⟨middle, hsequence, hleave⟩
    exact (Computation.bind_of_eq_ok hsequence).trans hleave

theorem Consistent.entering (h : machine.Consistent setting) (span : Span) :
    (machine.entering span).Consistent setting :=
  { h with pending := fun value hvalue =>
      h.pending value (UpdateSet.mem_held_forkParallel hvalue) }

theorem odd_depth_entering (machine : Machine) (span : Span) :
    (machine.entering span).pending.depth % 2 = 1 :=
  eq_of_beq machine.pending.inParallel_forkParallel

theorem indexed_entering (h : machine.pending.top.Indexed) (span : Span) :
    (machine.entering span).pending.top.Indexed := by
  show machine.pending.forkParallel.2.top.Indexed
  rw [UpdateSet.forkParallel]
  split
  · exact h
  · exact Layer.indexed_empty

theorem grows_of_entering {span : Span} (h : (machine.entering span).Grows next)
    {pending : UpdateSet} (hbelow : pending.below = machine.pending.below) :
    machine.Grows { next with pending } :=
  ⟨h.wellFormed, h.heap, h.state, hbelow, h.locals, h.frameBase⟩

section Blocks

variable {span : Span} {fuel : Nat} {stmts stmts' : List Stmt} {middle middle' : Machine}
  (hconcrete : setting.symbolic = false) (hmachine : machine.Ready setting)
include hconcrete hmachine

theorem Resemble.leave (h : (machine.entering span).Resemble pairing middle middle')
    (hleave : leave UpdateSet.merge machine.pending.forkParallel.1 middle = (.ok (), next)) :
    ∃ next', leave UpdateSet.merge machine.pending.forkParallel.1 middle' = (.ok (), next') ∧
      machine.Resemble pairing next next' := by
  cases hparallel : machine.pending.inParallel with
  | true =>
    have hfork : machine.pending.forkParallel = (false, machine.pending) := by
      rw [UpdateSet.forkParallel, if_pos hparallel]
    have hbelow : (machine.entering span).pending.below = machine.pending.below := by
      rw [entering, hfork]
    rw [hfork] at hleave ⊢
    cases hleave
    refine ⟨middle', rfl, { h with
      grows := grows_of_entering h.grows (h.grows.below.trans hbelow)
      grows' := grows_of_entering h.grows' (h.grows'.below.trans hbelow) }⟩
  | false =>
    have hfork := UpdateSet.forkParallel_of_sequential hparallel
    have hbelow : (machine.entering span).pending.below =
        machine.pending.top :: machine.pending.below := by
      rw [entering, hfork]
      rfl
    have hodd : (machine.entering span).pending.inParallel = true :=
      machine.pending.inParallel_forkParallel
    have hmiddle := h.grows.below
    have hmiddle' := h.grows'.below
    rw [hfork] at hleave ⊢
    obtain ⟨result, hreplay, rfl⟩ := (leave_eq_ok_iff (hmiddle.trans hbelow)
      (by rw [UpdateSet.inParallel, UpdateSet.depth, hmiddle]; exact hodd)).mp hleave
    have hparent : machine.pending.top.Related (Update.Renames pairing.names)
        machine.pending.top :=
      (hmachine.consistent.related_layer hconcrete List.mem_cons_self).imp fun _ _ hupdate =>
        hupdate.imp h.names
    have htop := hmachine.indexed machine.pending.top List.mem_cons_self
    obtain ⟨result', hreplay', hcorresponds⟩ := h.top.replay_handed h.indexed h.indexed' hparent _
      (h.heap ▸ hreplay)
    refine ⟨_, (leave_eq_ok_iff (hmiddle'.trans hbelow)
      (by rw [UpdateSet.inParallel, UpdateSet.depth, hmiddle']; exact hodd)).mpr
        ⟨result', h.image ▸ hreplay', rfl⟩, ?_⟩
    exact { h with
      grows := grows_of_entering h.grows rfl
      grows' := grows_of_entering h.grows' rfl
      indexed := htop.replay hreplay
      indexed' := htop.replay hreplay'
      top := hcorresponds }

/-- **Parallel composition.** Independent statements that succeed in one order do so in any. -/
theorem exists_resemble_of_perm (hperm : stmts.Perm stmts')
    (hindependent : (machine.entering span).Independent setting fuel stmts)
    (hexec : exec setting (fuel + 1) ⟨span, .par stmts⟩ machine = (.ok (), next)) :
    ∃ next' pairing, exec setting (fuel + 1) ⟨span, .par stmts'⟩ machine = (.ok (), next') ∧
      machine.Resemble pairing next next' := by
  obtain ⟨middle, hsequence, hleave⟩ := exec_par_eq_ok_iff.mp hexec
  have hentering := hmachine.consistent.entering span
  obtain ⟨middle', pairing, hresemble, hsequence'⟩ := (hentering.inBlock hconcrete).sequence_perm
    hconcrete (machine.odd_depth_entering span)
    (indexed_entering (hmachine.indexed _ List.mem_cons_self) span)
    (hentering.related_layer hconcrete List.mem_cons_self) hperm hindependent hsequence
  obtain ⟨next', hleave', hresemble'⟩ := hresemble.leave hconcrete hmachine hleave
  exact ⟨next', pairing, exec_par_eq_ok_iff.mpr ⟨middle', hsequence', hleave'⟩, hresemble'⟩

theorem Resemble.bottom (h : machine.Resemble pairing next next') :
    next.pending.bottom.Indexed ∧ next'.pending.bottom.Indexed ∧
      next.pending.bottom.Corresponds pairing next'.pending.bottom := by
  rw [UpdateSet.bottom, UpdateSet.bottom, h.grows.below, h.grows'.below]
  cases hbelow : machine.pending.below with
  | nil => exact ⟨h.indexed, h.indexed', h.top⟩
  | cons parent below =>
    have hmem : (parent :: below).getLastD machine.pending.top ∈ machine.pending.layers := by
      rw [← hbelow]
      exact machine.pending.bottom_mem_layers
    rw [List.getLastD_cons] at hmem ⊢
    rw [List.getLastD_cons]
    refine ⟨hmachine.indexed _ hmem, hmachine.indexed _ hmem, Layer.corresponds_of_related ?_⟩
    exact (hmachine.consistent.related_layer hconcrete hmem).imp fun _ _ hupdate =>
      hupdate.imp h.names

theorem Resemble.sameStore (h : machine.Resemble pairing next next')
    (hnext : next.Consistent setting) (hnext' : next'.Consistent setting) (endOfStep : Bool) :
    (next.applyPending setting endOfStep).SameStore setting
      (next'.applyPending setting endOfStep) := by
  intro function data hself
  obtain ⟨hbottom, hbottom', hcorresponds⟩ := h.bottom hconcrete hmachine
  obtain ⟨old, hold⟩ := exists_finds hconcrete hmachine.consistent hself function
  have hfirst := hold.grow h.grows.heap h.grows.state
  have hsecond := hold.grow h.grows'.heap h.grows'.state
  have hslot := hcorresponds (function, Datum.argKey setting.digest data)
  generalize hfound : next.pending.bottom.get? _ = slot at hslot
  generalize hfound' : next'.pending.bottom.get? _ = slot' at hslot
  cases hslot with
  | none =>
    exact ⟨old, old,
      hfirst.applyPending_of_none hconcrete hnext hbottom hself endOfStep hfound,
      hsecond.applyPending_of_none hconcrete hnext' hbottom' hself endOfStep hfound', .same old⟩
  | @some update update' hupdate =>
    obtain ⟨images, datum, himages, hdatum⟩ := exists_represents hconcrete hnext
      fun value hvalue => hnext.pending value (UpdateSet.mem_held_of_mem_updates
        (OrderedMap.mem_values_of_get? hfound) hvalue)
    rw [← h.heap] at himages hdatum
    obtain ⟨images', datum', himages', hdatum', hsimilar, hsame⟩ :=
      hupdate.exists_data himages hdatum
    rw [h.heap] at himages hdatum
    rw [h.image] at himages' hdatum'
    refine ⟨_, _, hfirst.applyPending_of_some hconcrete hnext hbottom hself endOfStep hfound
      himages hdatum, hsecond.applyPending_of_some hconcrete hnext' hbottom' hself endOfStep
      hfound' himages' hdatum', ?_⟩
    rw [hsame data hself, h.grows.state, h.grows'.state]
    split
    · exact hsimilar
    · exact .same old

omit hconcrete in
theorem Ready.consistent_of_exec {stmt : Stmt}
    (hexec : exec setting fuel stmt machine = (.ok (), next)) : next.Consistent setting := by
  have hends := keeps_exec fuel stmt machine hmachine.consistent Standard.acceptsAll_nil
  rw [hexec] at hends
  exact hends.upholds

/-- **Parallel composition does not depend on the order** of statements that are independent. -/
theorem exec_par_perm (hperm : stmts.Perm stmts')
    (hindependent : (machine.entering span).Independent setting fuel stmts) :
    ((∃ next, Run.exec setting (fuel + 1) ⟨span, .par stmts⟩ machine = (.ok (), next)) ↔
      ∃ next', Run.exec setting (fuel + 1) ⟨span, .par stmts'⟩ machine = (.ok (), next')) ∧
    ∀ next next', Run.exec setting (fuel + 1) ⟨span, .par stmts⟩ machine = (.ok (), next) →
      Run.exec setting (fuel + 1) ⟨span, .par stmts'⟩ machine = (.ok (), next') →
      ∀ endOfStep, (next.applyPending setting endOfStep).SameStore setting
        (next'.applyPending setting endOfStep) := by
  have hentering := hmachine.consistent.entering span
  refine ⟨⟨?_, ?_⟩, ?_⟩
  · rintro ⟨next, hexec⟩
    obtain ⟨next', -, hexec', -⟩ :=
      exists_resemble_of_perm hconcrete hmachine hperm hindependent hexec
    exact ⟨next', hexec'⟩
  · rintro ⟨next', hexec'⟩
    have hindependent' := (hentering.inBlock hconcrete).independent_perm hconcrete
      (machine.odd_depth_entering span) (hentering.related_layer hconcrete List.mem_cons_self) hperm
      hindependent
    obtain ⟨next, -, hexec, -⟩ :=
      exists_resemble_of_perm hconcrete hmachine hperm.symm hindependent' hexec'
    exact ⟨next, hexec⟩
  · intro next next' hexec hexec' endOfStep
    obtain ⟨last, pairing, hlast, hresemble⟩ :=
      exists_resemble_of_perm hconcrete hmachine hperm hindependent hexec
    cases hlast.symm.trans hexec'
    exact hresemble.sameStore hconcrete hmachine (hmachine.consistent_of_exec hexec)
      (hmachine.consistent_of_exec hexec') endOfStep

end Blocks

/-- Functions `x`, `y` and `z`, of which `y` starts as `4`. -/
def threeFunctions : Setting where
  spec :=
    { functions := #[{ name := "program", result := .rule }, { name := "x" },
        { name := "y", initializers := [([], .int 4)] }, { name := "z" }] }

/-- Three statements agree on `y`, one of them from a sequential block, and one has the only writes
to `x`. -/
def fourSiblings : List Stmt :=
  [{ action := .update ⟨2⟩ [] (.int 5) },
    { action := .seq [{ action := .update ⟨1⟩ [] (.int 1) },
      { action := .update ⟨1⟩ [] (.binary .add (.read ⟨1⟩ []) (.read ⟨3⟩ [])) }] },
    { action := .update ⟨2⟩ [] (.binary .add (.read ⟨2⟩ []) (.int 1)) },
    { action := .seq [{ action := .update ⟨2⟩ [] (.int 5) }] }]

/-- When the block is entered, an update of `z` is pending. -/
theorem exec_par_perm_fourSiblings :
    let start := afterCalls threeFunctions [.init 5, .exec 5 { action := .update ⟨3⟩ [] (.int 9) }]
    (start.entering {}).Independent threeFunctions 5 fourSiblings ∧
      (exec threeFunctions 6 ⟨{}, .par fourSiblings⟩ start).1 = .ok () ∧
      ((∃ next, exec threeFunctions 6 ⟨{}, .par fourSiblings⟩ start = (.ok (), next)) ↔
        ∃ next', exec threeFunctions 6 ⟨{}, .par fourSiblings.reverse⟩ start =
          (.ok (), next')) ∧
      ∀ next next', exec threeFunctions 6 ⟨{}, .par fourSiblings⟩ start = (.ok (), next) →
        exec threeFunctions 6 ⟨{}, .par fourSiblings.reverse⟩ start = (.ok (), next') →
        ∀ endOfStep, (next.applyPending threeFunctions endOfStep).SameStore threeFunctions
          (next'.applyPending threeFunctions endOfStep) := by
  have hindependent : ((afterCalls threeFunctions [.init 5, .exec 5
      { action := .update ⟨3⟩ [] (.int 9) }]).entering {}).Independent threeFunctions 5
        fourSiblings := by
    decide +kernel
  exact ⟨hindependent, by decide +kernel, exec_par_perm rfl (ready_afterCalls rfl _)
    fourSiblings.reverse_perm.symm hindependent⟩

/-- A sequential sibling replaces what was written before it, and is in conflict with what is
written after it. -/
theorem exec_par_order_matters :
    let one : Stmt := { action := .update ⟨1⟩ [] (.int 1) }
    let two : Stmt := { action := .seq [{ action := .update ⟨1⟩ [] (.int 2) }] }
    let oneFirst := exec threeFunctions 5 ⟨{}, .par [one, two]⟩ (.new threeFunctions)
    let twoFirst := exec threeFunctions 5 ⟨{}, .par [two, one]⟩ (.new threeFunctions)
    oneFirst.1 = .ok () ∧
      (oneFirst.2.applyPending threeFunctions true).get threeFunctions ⟨1⟩ [] = .int 2 ∧
      twoFirst.1 ≠ .ok () := by
  decide +kernel

end Machine

end AbstractStateMachine
