import AbstractStateMachine.Proofs.Journal.Layers
import AbstractStateMachine.Proofs.Journal.Siblings

/-!
# Parallel blocks

The statements of a parallel block succeed one after the other exactly if their journals can be
replayed one after the other, and then the layer of the block is what replaying gives. Statements in
another order have the same journals in that order, up to the names of new lists. So the order does
not matter if the journals are compatible with each other.
-/

namespace AbstractStateMachine

open ListHeap

/-! ### Statements of a block -/

/-- A machine with a parallel block as the innermost one, at the given depth. -/
structure Machine.InBlock (depth : Nat) (machine : Machine) : Prop where
  wellFormed : machine.heap.WellFormed
  same : machine.Matches (.self machine.heap wellFormed) depth machine
  supports : machine.heap.Supports machine.pending.top.held

/-- The journal accounts for what a statement does to the layer of the block. -/
structure Accounts (depth : Nat) (machine : Machine) (draft : Draft) : Prop where
  grows : machine.Grows draft.machine
  supports : ∀ entry ∈ draft.entries, draft.machine.heap.Supports entry.values
  clean : draft.clean = true → draft.machine.InBlock depth ∧
    machine.pending.top.replay draft.machine.heap draft.entries = .ok draft.machine.pending.top
  unclean : draft.clean = false →
    ∃ fault, machine.pending.top.replay draft.machine.heap draft.entries = .error fault

section Statements

variable {setting : Setting} {depth fuel : Nat} {machine next : Machine} {stmt : Stmt}
  {stmts : List Stmt} {draft : Draft} {blocks : List (List Entry)}
  (hconcrete : setting.symbolic = false) (hodd : depth % 2 = 1)
include hconcrete hodd

theorem Machine.InBlock.accounts (h : machine.InBlock depth)
    (hexec : (journaling setting depth).exec fuel stmt { machine } = (.ok (), draft)) :
    Accounts depth machine draft := by
  have hstart : Draft.Renames depth (some machine.pending.top) (.self machine.heap h.wellFormed)
      { machine := { machine with span := {} } } { machine := { machine with span := {} } } := by
    refine ⟨h.same.renames, .nil, h.same.depth.ge, ?_, ?_, nofun⟩
    · rintro _ ⟨⟩
      exact h.supports
    · rintro _ ⟨⟩ -
      exact ⟨machine.pending.top, layerAt_of_eq h.same.depth, rfl⟩
  have hends := (correspondence_drafted hconcrete hodd (some machine.pending.top)).exec fuel _ stmt
    trivial _ _ hstart
  rw [exec_journaling_span {} hexec] at hends
  cases hends with
  | @ok later _ _ _ _ hlater hrenames =>
    obtain ⟨heap, image, names, hpairing⟩ := later
    obtain rfl : draft.machine.heap = heap := hrenames.machine.heap
    obtain rfl : draft.machine.heap = image := hrenames.machine.image
    have hgrows : machine.Grows draft.machine :=
      grows_of_exec hconcrete hodd h.same.depth hpairing.wellFormed hlater.heap hexec
    have hdepth : draft.machine.pending.below.length = depth := by
      rw [hgrows.below]
      exact h.same.depth
    have hsupports : ∀ entry ∈ draft.entries, draft.machine.heap.Supports entry.values :=
      supports_entries hrenames.entries
    refine ⟨hgrows, hsupports, fun hclean => ?_, hrenames.unclean _ rfl⟩
    obtain ⟨layer, hlayer, hreplay⟩ := hrenames.clean _ rfl hclean
    obtain rfl : draft.machine.pending.top = layer :=
      Option.some.inj ((layerAt_of_eq hdepth).symm.trans hlayer)
    exact ⟨⟨hpairing.wellFormed, ⟨{ hrenames.machine.right with span := rfl }, hdepth⟩,
      Layer.supports_replay (h.supports.extends hgrows.heap) hsupports hreplay⟩, hreplay⟩

theorem Machine.Matches.journals_grows {pairing : Pairing} {other : Machine}
    (h : machine.Matches pairing depth other)
    (hjournals : machine.journals setting depth fuel stmts = some (blocks, next)) :
    machine.Grows next := by
  induction stmts generalizing machine other pairing blocks with
  | nil =>
    cases hjournals
    exact .refl (h.renames.heap ▸ pairing.renames.wellFormed)
  | cons stmt rest ih =>
    obtain ⟨draft, more, hexec, hrest, rfl⟩ := journals_cons_eq_some.mp hjournals
    obtain ⟨_, _, -, -, hmatches, hgrows, -, -⟩ := h.exec hconcrete hodd hexec
    exact hgrows.trans (ih hmatches hrest)

omit hconcrete hodd in
theorem Accounts.replay_eq {last : Machine} (h : Accounts depth machine draft)
    (hmachine : machine.InBlock depth) (hlast : draft.machine.Grows last) :
    machine.pending.top.replay last.heap draft.entries =
      machine.pending.top.replay draft.machine.heap draft.entries := by
  have hsupports := hmachine.supports.extends h.grows.heap
  exact Layer.replay_eq_of_agrees
    (agrees_of_extends h.grows.wellFormed hlast.wellFormed hlast.heap) hsupports
    (hsupports.extends hlast.heap) h.supports fun entry hentry =>
      (h.supports entry hentry).extends hlast.heap

/-- Statements that succeed one after the other have journals, which lead to what they leave in the
layer of their block. -/
theorem Machine.InBlock.exists_journals (h : machine.InBlock depth)
    (hrun : Backend.sequence ((Machine.backend setting).exec fuel) stmts machine = (.ok (), next)) :
    ∃ blocks, machine.journals setting depth fuel stmts = some (blocks, next) ∧
      machine.pending.top.replay next.heap blocks.flatten = .ok next.pending.top := by
  induction stmts generalizing machine with
  | nil =>
    cases hrun
    exact ⟨[], rfl, rfl⟩
  | cons stmt rest ih =>
    obtain ⟨⟨⟩, middle, hexec, hrest⟩ := Computation.exists_of_bind_eq_ok hrun
    have htracks : Tracks setting machine.pending.below machine.pending.below _ _ :=
      Tracks.exec hodd fuel stmt h.same.depth.ge
    obtain ⟨entries, hjournaled⟩ := (htracks.ok_iff machine [] () middle rfl).mp hexec
    have haccounts := h.accounts hconcrete hodd hjournaled
    obtain ⟨hmiddle, hreplay⟩ := haccounts.clean rfl
    obtain ⟨blocks, hjournals, hblocks⟩ := ih hmiddle hrest
    have hlast := hmiddle.same.journals_grows hconcrete hodd hjournals
    refine ⟨entries :: blocks, journals_cons_eq_some.mpr ⟨_, _, hjournaled, hjournals, rfl⟩, ?_⟩
    rw [List.flatten_cons, Layer.replay_append, haccounts.replay_eq h hlast, hreplay]
    exact hblocks

/-- Statements succeed if they have journals that can be replayed. -/
theorem Machine.InBlock.sequence_eq_ok (h : machine.InBlock depth) {result : Layer}
    (hjournals : machine.journals setting depth fuel stmts = some (blocks, next))
    (hreplay : machine.pending.top.replay next.heap blocks.flatten = .ok result) :
    Backend.sequence ((Machine.backend setting).exec fuel) stmts machine = (.ok (), next) := by
  induction stmts generalizing machine blocks with
  | nil =>
    cases hjournals
    rfl
  | cons stmt rest ih =>
    obtain ⟨draft, blocks, hexec, hrest, rfl⟩ := journals_cons_eq_some.mp hjournals
    have haccounts := h.accounts hconcrete hodd hexec
    obtain ⟨_, _, -, -, hmatches, -, -, -⟩ := h.same.exec hconcrete hodd hexec
    have hlast := hmatches.journals_grows hconcrete hodd hrest
    rw [List.flatten_cons, Layer.replay_append, haccounts.replay_eq h hlast] at hreplay
    obtain ⟨middle, entries, clean⟩ := draft
    cases clean with
    | false =>
      obtain ⟨fault, hfault⟩ := haccounts.unclean rfl
      rw [hfault] at hreplay
      cases hreplay
    | true =>
      obtain ⟨hmiddle, hfirst⟩ := haccounts.clean rfl
      rw [hfirst] at hreplay
      have htracks : Tracks setting machine.pending.below machine.pending.below _ _ :=
        Tracks.exec hodd fuel stmt h.same.depth.ge
      have hrun := (htracks.ok_iff machine [] () middle rfl).mpr ⟨entries, hexec⟩
      exact (Computation.bind_of_eq_ok hrun).trans (ih hmiddle hrest hreplay)

end Statements

/-! ### Any order -/

theorem Update.Alike.of_renames {pairing : Pairing} {update other update' other' : Update}
    (h : update'.Alike pairing.image other') (hupdate : update.Renames pairing.names update')
    (hother : other.Renames pairing.names other') : update.Alike pairing.heap other :=
  ⟨hupdate.location.symm.trans (h.1.trans hother.location),
    (pairing.renames.sameArgs_eq hupdate.args hother.args).symm.trans h.2.1,
    (pairing.renames.equal_eq hupdate.value hother.value).symm.trans h.2.2⟩

theorem Compatible.of_renames {pairing : Pairing} {layer layer' : Layer}
    {block other block' other' : List Entry} (h : Compatible pairing.image layer' block' other')
    (hlayer : layer.Related (Update.Renames pairing.names) layer')
    (hblock : List.Forall₂ (Entry.Renames pairing.names) block block')
    (hother : List.Forall₂ (Entry.Renames pairing.names) other other') :
    Compatible pairing.heap layer block other := by
  intro entry hentry rival hrival hlocation
  obtain ⟨entry', hentry', hrenames⟩ := exists_mem_of_forall₂ hblock hentry
  obtain ⟨rival', hrival', hrenames'⟩ := exists_mem_of_forall₂ hother hrival
  obtain ⟨hargs, hcase⟩ := h entry' hentry' rival' hrival'
    (hrenames.update.location.trans (hlocation.trans hrenames'.update.location.symm))
  rw [hrenames.update.location] at hcase
  refine ⟨(pairing.renames.sameArgs_eq hrenames.update.args hrenames'.update.args).symm.trans hargs,
    hcase.imp (.imp (hrenames.agree ▸ ·) (hrenames'.agree ▸ ·)) ?_⟩
  rintro ⟨hexisting, hwritten⟩
  refine ⟨fun existing hfound => ?_, fun written hmem heq => ?_⟩
  · have hslot := hlayer.get? entry.update.location
    rw [Option.mem_def.mp hfound] at hslot
    generalize hfound' : layer'.get? entry.update.location = slot' at hslot
    cases hslot with
    | some hrenamed => exact (hexisting _ hfound').of_renames hrenamed hrenames.update
  · obtain ⟨written', hmem', hrenamed⟩ := exists_mem_of_forall₂ (List.rel_append hblock hother) hmem
    exact (hwritten written' hmem' (hrenamed.update.location.trans heq)).of_renames hrenamed.update
      hrenames.update

instance (heap : ListHeap) (update other : Update) : Decidable (update.Alike heap other) :=
  inferInstanceAs (Decidable (_ ∧ _ ∧ _))

instance (heap : ListHeap) (layer : Layer) (block other : List Entry) :
    Decidable (Compatible heap layer block other) :=
  inferInstanceAs (Decidable (∀ entry ∈ block, ∀ entry' ∈ other, _))

/-- The statements of the innermost block are independent: if they have journals, these are
compatible with each other on the layer of the block. -/
def Machine.Independent (setting : Setting) (fuel : Nat) (stmts : List Stmt) (machine : Machine) :
    Prop :=
  ∀ outcome ∈ machine.journals setting machine.pending.depth fuel stmts,
    outcome.1.Pairwise (Compatible outcome.2.heap machine.pending.top)

instance (setting : Setting) (fuel : Nat) (stmts : List Stmt) (machine : Machine) :
    Decidable (machine.Independent setting fuel stmts) :=
  inferInstanceAs (Decidable (∀ outcome ∈ machine.journals setting _ fuel stmts, _))

/-- From the same start, two machines have come to resemble each other: innermost layers correspond
under a pairing in which old lists keep their names. -/
structure Machine.Resemble (pairing : Pairing) (start next next' : Machine) : Prop where
  heap : pairing.heap = next.heap
  image : pairing.image = next'.heap
  names : ∀ list other, start.heap.SameName list other → pairing.names list other
  grows : start.Grows next
  grows' : start.Grows next'
  indexed : next.pending.top.Indexed
  indexed' : next'.pending.top.Indexed
  top : next.pending.top.Corresponds pairing next'.pending.top

section Order

variable {setting : Setting} {depth fuel : Nat} {machine next : Machine}
  {stmts stmts' : List Stmt} (hconcrete : setting.symbolic = false) (hodd : depth % 2 = 1)
include hconcrete hodd

theorem Machine.InBlock.independent_perm (h : machine.InBlock depth)
    (htop : machine.pending.top.Related (Update.Renames machine.heap.SameName) machine.pending.top)
    (hperm : stmts.Perm stmts') (hindependent : machine.Independent setting fuel stmts) :
    machine.Independent setting fuel stmts' := by
  rintro ⟨blocks', last'⟩ hjournals'
  obtain rfl := h.same.depth
  obtain ⟨⟨blocks, last⟩, hjournals, later, hlater, hheap, himage, order, hblocks, horder⟩ :=
    h.same.journals_perm hconcrete hodd hperm.symm hjournals'
  have hcompatible : blocks.Pairwise (Compatible later.image machine.pending.top) :=
    himage ▸ hindependent (blocks, last) hjournals
  have htop := htop.imp fun _ _ hupdate => hupdate.imp hlater.names
  have hpairwise : order.Pairwise (Compatible later.heap machine.pending.top) :=
    pairwise_of_forall₂ horder hcompatible fun _ _ _ _ hblock hother hcompatible =>
      hcompatible.of_renames htop hblock hother
  exact (hheap ▸ hpairwise).perm hblocks.symm .symm

/-- **The order of independent statements** of a block does not matter. -/
theorem Machine.InBlock.sequence_perm (h : machine.InBlock depth)
    (hindexed : machine.pending.top.Indexed)
    (htop : machine.pending.top.Related (Update.Renames machine.heap.SameName) machine.pending.top)
    (hperm : stmts.Perm stmts') (hindependent : machine.Independent setting fuel stmts)
    (hrun : Backend.sequence ((Machine.backend setting).exec fuel) stmts machine = (.ok (), next)) :
    ∃ next' pairing, machine.Resemble pairing next next' ∧
      Backend.sequence ((Machine.backend setting).exec fuel) stmts' machine = (.ok (), next') := by
  obtain rfl := h.same.depth
  obtain ⟨blocks, hjournals, hreplay⟩ := h.exists_journals hconcrete hodd hrun
  obtain ⟨⟨blocks', next'⟩, hjournals', later, hlater, hheap, himage, order, hblocks, horder⟩ :=
    h.same.journals_perm hconcrete hodd hperm hjournals
  obtain ⟨result, hresult, hagrees⟩ :=
    Layer.replay_perm hblocks (hindependent (blocks, next) hjournals) hreplay
  have htop' : machine.pending.top.Related (Update.Renames later.names) machine.pending.top :=
    htop.imp fun _ _ hupdate => hupdate.imp hlater.names
  obtain ⟨result', hresult', hrelated⟩ :=
    Layer.replay_renames htop' (List.rel_flatten horder) (hheap ▸ hresult)
  have hrun' := h.sequence_eq_ok hconcrete hodd hjournals' (himage ▸ hresult')
  have hlast : result' = next'.pending.top := by
    obtain ⟨blocks'', hjournals'', hreplay''⟩ := h.exists_journals hconcrete hodd hrun'
    cases hjournals'.symm.trans hjournals''
    exact Except.ok.inj ((himage ▸ hresult').symm.trans hreplay'')
  subst hlast
  refine ⟨next', later, ⟨hheap, himage, hlater.names,
    h.same.journals_grows hconcrete hodd hjournals, h.same.journals_grows hconcrete hodd hjournals',
    hindexed.replay hreplay, hindexed.replay hresult', ?_⟩, hrun'⟩
  exact .of_agrees (hheap ▸ hagrees) hrelated

end Order

end AbstractStateMachine
