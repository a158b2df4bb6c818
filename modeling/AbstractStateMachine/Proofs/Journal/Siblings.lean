import AbstractStateMachine.Proofs.Journal.Renaming

/-!
# Journals of siblings

The statements of a parallel block do not see what their siblings write. In which order they are
journaled matters for the names of the lists that they make, and for nothing else. Main statement:
the journals of the statements in another order are the same journals in that order, up to the
names of lists.
-/

namespace AbstractStateMachine

open ListHeap

/-! ### Machines paired with themselves -/

theorem OrderedMap.Related.right {κ α β : Type} {R : α → β → Prop} {S : β → β → Prop}
    {map : OrderedMap κ α} {other : OrderedMap κ β} (h : map.Related R other)
    (hself : ∀ x y, R x y → S y y) : other.Related S other :=
  forall₂_right h fun _ _ hentry => ⟨rfl, hself _ _ hentry.2⟩

theorem RelatedBesides.right {depth : Nat} {R S : Update → Update → Prop}
    {layers layers' : List Layer} (h : RelatedBesides depth R layers layers')
    (hself : ∀ x y, R x y → S y y) : RelatedBesides depth S layers' layers' := by
  induction h with
  | nil => exact .nil
  | @cons _ _ below below' hlayer hbelow ih =>
    refine .cons (fun hne => (hlayer ?_).right hself) ih
    rwa [← hbelow.length_eq]

namespace Pairing

def self (heap : ListHeap) (hheap : heap.WellFormed) : Pairing :=
  ⟨heap, heap, heap.SameName, renames_self hheap⟩

variable {pairing : Pairing}

theorem sound_of_represents {heap : ListHeap} {value : Value} {datum : Datum}
    (h : heap.Represents value datum) : heap.Sound false value := by
  induction datum using Datum.induction generalizing value with
  | scalar datum hdatum =>
    cases h with
    | scalar hscalar => exact sound_of_isScalar hscalar
    | list => exact absurd rfl (hdatum _)
  | list data ih =>
    obtain ⟨list, rfl, hlive, helements⟩ := represents_list_iff.mp h
    refine sound_list_iff.mpr ⟨hlive, fun element helement => ?_⟩
    obtain ⟨inner, hinner, hrepresents⟩ := exists_mem_of_forall₂ helements helement
    exact ih inner hinner hrepresents

theorem renames_right {value other : Value} (h : value.Renames pairing.names other) :
    other.Renames pairing.image.SameName other := by
  obtain ⟨datum, -, hdatum⟩ := pairing.renames.exists_represents h
  exact renames_of_sound (sound_of_represents hdatum)

theorem renames_right_all {values others : List Value}
    (h : List.Forall₂ (Value.Renames pairing.names) values others) :
    List.Forall₂ (Value.Renames pairing.image.SameName) others others :=
  forall₂_right h fun _ _ => renames_right

theorem update_renames_right {update other : Update} (h : update.Renames pairing.names other) :
    other.Renames pairing.image.SameName other :=
  ⟨rfl, renames_right_all h.args, renames_right h.value, rfl⟩

def comp (first second : Pairing) (h : second.heap = first.image) : Pairing :=
  ⟨first.heap, second.image, Relation.Comp first.names second.names,
    first.renames.comp (h ▸ second.renames)⟩

end Pairing

theorem Machine.Renames.right {pairing : Pairing} {depth : Nat} {machine other : Machine}
    (h : machine.Renames pairing depth other) :
    other.Renames (.self pairing.image pairing.renames.wellFormed_image) depth other where
  heap := h.image
  image := h.image
  tables := forall₂_right h.tables fun _ _ htable => htable.right fun _ _ hbucket =>
    forall₂_right hbucket fun _ _ hlocation =>
      ⟨Pairing.renames_right_all hlocation.args, Pairing.renames_right hlocation.value⟩
  layers := h.layers.right fun _ _ => Pairing.update_renames_right
  locals := forall₂_right h.locals fun _ _ hbinding => ⟨rfl, Pairing.renames_right hbinding.value⟩
  frameBase := rfl
  span := rfl

/-- Two computations, one of which came first on the left and the other on the right, have paired
different lists. -/
theorem Pairing.exists_union (pairing : Pairing) {early late start start' : Pairing}
    (h : start.Later early) (h' : start'.Later late) (hnames : start.names = pairing.names)
    (hnames' : start'.names = pairing.names) (hheap : start.heap = pairing.heap)
    (himage : start.image = late.image) (hheap' : start'.heap = early.heap)
    (himage' : start'.image = pairing.image) :
    ∃ both : Pairing, both.heap = late.heap ∧ both.image = early.image ∧ pairing.Later both ∧
      (∀ list other, early.names list other → both.names list other) ∧
      ∀ list other, late.names list other → both.names list other := by
  obtain ⟨_, _, _, hstart⟩ := start
  obtain ⟨_, _, _, hstart'⟩ := start'
  subst hnames hnames' hheap himage hheap' himage'
  have hfirst : late.heap.Renames early.names early.image :=
    early.renames.extends late.renames.wellFormed early.renames.wellFormed_image h'.heap (.refl _)
  have hsecond : late.heap.Renames late.names early.image :=
    late.renames.extends late.renames.wellFormed early.renames.wellFormed_image (.refl _) h.image
  refine ⟨⟨late.heap, early.image, _, hfirst.union hsecond ?_⟩, rfl, rfl,
    ⟨h.heap.trans h'.heap, h'.image.trans h.image, fun list other hpaired =>
      .inl (h.names list other hpaired), ?_⟩, fun _ _ => .inl, fun _ _ => .inr⟩
  · intro x x' y y' hx hy
    obtain ⟨hx₁, hx₂⟩ := early.renames.live hx
    obtain ⟨hy₁, hy₂⟩ := late.renames.live hy
    rcases h.fresh x x' hx with hold | ⟨hnew, hnew'⟩ <;>
      rcases h'.fresh y y' hy with hold' | ⟨hnew₂, hnew₂'⟩
    · exact pairing.renames.eq_iff hold hold'
    · refine iff_of_false ?_ ?_ <;> rintro rfl
      · exact hnew₂ hx₁
      · exact hnew₂' (pairing.renames.live hold).2
    · refine iff_of_false ?_ ?_ <;> rintro rfl
      · exact hnew (pairing.renames.live hold').1
      · exact hnew' hy₂
    · refine iff_of_false ?_ ?_ <;> rintro rfl
      · exact hnew₂ hx₁
      · exact hnew' hy₂
  · rintro list other (hpaired | hpaired)
    · rcases h.fresh list other hpaired with hold | ⟨hnew, hnew'⟩
      · exact .inl hold
      · exact .inr ⟨hnew, mt h'.image.live hnew'⟩
    · rcases h'.fresh list other hpaired with hold | ⟨hnew, hnew'⟩
      · exact .inl hold
      · exact .inr ⟨mt h.heap.live hnew, hnew'⟩

/-! ### Machines within a block -/

/-- What a statement in the innermost parallel block does to the rest of a machine. -/
structure Machine.Grows (machine next : Machine) : Prop where
  wellFormed : next.heap.WellFormed
  heap : machine.heap.Extends next.heap
  state : next.state = machine.state
  below : next.pending.below = machine.pending.below
  locals : next.locals = machine.locals
  frameBase : next.frameBase = machine.frameBase

/-- The machines are the same, up to the names of lists, the innermost layer, which is at the given
depth, and the statement executed last. -/
structure Machine.Matches (pairing : Pairing) (depth : Nat) (machine other : Machine) : Prop where
  renames : { machine with span := {} }.Renames pairing depth { other with span := {} }
  depth : machine.pending.depth = depth

section Matching

variable {setting : Setting} {pairing later : Pairing} {depth fuel : Nat}
  {machine next other next' : Machine} {stmt : Stmt} {draft : Draft}

theorem Machine.Grows.refl (h : machine.heap.WellFormed) : machine.Grows machine :=
  ⟨h, .refl _, rfl, rfl, rfl, rfl⟩

theorem Machine.Matches.depth_right (h : machine.Matches pairing depth other) :
    other.pending.depth = depth :=
  (Nat.succ.inj h.renames.layers.length_eq).trans h.depth

theorem Machine.Matches.grow (h : machine.Matches pairing depth other) (hnext : machine.Grows next)
    (hnext' : other.Grows next') :
    ∃ hrenames, next.Matches ⟨next.heap, next'.heap, pairing.names, hrenames⟩ depth next' := by
  have hheap : pairing.heap = machine.heap := h.renames.heap.symm
  have himage : pairing.image = other.heap := h.renames.image.symm
  refine ⟨pairing.renames.extends hnext.wellFormed hnext'.wellFormed (hheap ▸ hnext.heap)
    (himage ▸ hnext'.heap), ⟨rfl, rfl, ?_, ?_, ?_, ?_, rfl⟩, ?_⟩
  · show Tables.Related _ next.state.tables next'.state.tables
    rw [hnext.state, hnext'.state]
    exact h.renames.tables
  · show RelatedBesides _ _ (next.pending.top :: next.pending.below)
      (next'.pending.top :: next'.pending.below)
    rw [hnext.below, hnext'.below]
    exact RelatedBesides.replace h.renames.layers h.depth
  · show List.Forall₂ _ next.locals next'.locals
    rw [hnext.locals, hnext'.locals]
    exact h.renames.locals
  · show next'.frameBase = next.frameBase
    rw [hnext.frameBase, hnext'.frameBase]
    exact h.renames.frameBase
  · rw [UpdateSet.depth, hnext.below]
    exact h.depth

theorem Machine.Grows.trans {last : Machine} (h : machine.Grows next) (h' : next.Grows last) :
    machine.Grows last where
  wellFormed := h'.wellFormed
  heap := h.heap.trans h'.heap
  state := h'.state.trans h.state
  below := h'.below.trans h.below
  locals := h'.locals.trans h.locals
  frameBase := h'.frameBase.trans h.frameBase

theorem Machine.Matches.widen (h : machine.Matches pairing depth other)
    (hheap : later.heap = pairing.heap) (himage : later.image = pairing.image)
    (hnames : ∀ list other, pairing.names list other → later.names list other) :
    machine.Matches later depth other where
  renames := { h.renames with
    heap := h.renames.heap.trans hheap.symm
    image := h.renames.image.trans himage.symm
    tables := h.renames.tables.imp fun _ _ hlocation =>
      ⟨renames_imp hlocation.args hnames, hlocation.value.imp hnames⟩
    layers := h.renames.layers.imp fun _ _ hupdate => hupdate.imp hnames
    locals := h.renames.locals.imp fun _ _ hbinding =>
      ⟨hbinding.name, hbinding.value.imp hnames⟩ }
  depth := h.depth

theorem exec_journaling_span (span : Span)
    (hexec : (journaling setting depth).exec fuel stmt { machine } = (.ok (), draft)) :
    (journaling setting depth).exec fuel stmt { machine := { machine with span } } =
      (.ok (), draft) := by
  cases fuel with
  | zero => cases hexec
  | succ fuel => exact hexec

variable (hconcrete : setting.symbolic = false) (hodd : depth % 2 = 1)
include hconcrete hodd

theorem grows_of_exec (hdepth : machine.pending.depth = depth)
    (hwell : draft.machine.heap.WellFormed) (hheap : machine.heap.Extends draft.machine.heap)
    (hexec : (journaling setting depth).exec fuel stmt { machine } = (.ok (), draft)) :
    machine.Grows draft.machine := by
  obtain ⟨hframes, hbelow⟩ := (Tracks.exec hodd fuel stmt hdepth.ge).restores _ rfl hexec
  exact ⟨hwell, hheap, hframes.state_of_concrete hconcrete, hbelow, hframes.locals,
    hframes.frameBase⟩

theorem Machine.Matches.exec (h : machine.Matches pairing depth other)
    (hexec : (journaling setting depth).exec fuel stmt { machine } = (.ok (), draft)) :
    ∃ draft' later, (journaling setting depth).exec fuel stmt { machine := other } =
        (.ok (), draft') ∧
      pairing.Later later ∧ draft.machine.Matches later depth draft'.machine ∧
      machine.Grows draft.machine ∧ other.Grows draft'.machine ∧
      List.Forall₂ (Entry.Renames later.names) draft.entries draft'.entries := by
  have hstart : Draft.Renames depth none pairing { machine := { machine with span := {} } }
      { machine := { other with span := {} } } :=
    ⟨h.renames, .nil, h.depth.ge, nofun, nofun, nofun⟩
  have hends := (correspondence_drafted hconcrete hodd none).exec fuel pairing stmt trivial _ _
    hstart
  rw [exec_journaling_span {} hexec] at hends
  generalize hexec' : (journaling setting depth).exec fuel stmt
    { machine := { other with span := {} } } = outcome' at hends
  cases hends with
  | @ok later _ _ _ draft' hlater hrenames =>
    have hother : (journaling setting depth).exec fuel stmt { machine := other } =
        (.ok (), draft') := by
      have hspan := exec_journaling_span other.span hexec'
      exact hspan
    have hgrows : machine.Grows draft.machine :=
      grows_of_exec hconcrete hodd h.depth (hrenames.machine.heap ▸ later.renames.wellFormed)
        (hrenames.machine.heap ▸ h.renames.heap ▸ hlater.heap) hexec
    have hgrows' : other.Grows draft'.machine :=
      grows_of_exec hconcrete hodd h.depth_right
        (hrenames.machine.image ▸ later.renames.wellFormed_image)
        (hrenames.machine.image ▸ h.renames.image ▸ hlater.image) hother
    refine ⟨draft', later, hother, hlater, ⟨{ hrenames.machine with span := rfl }, ?_⟩, hgrows,
      hgrows', hrenames.entries⟩
    rw [UpdateSet.depth, hgrows.below]
    exact h.depth

end Matching

/-! ### Permutations -/

def Reordered (pairing : Pairing) (outcome outcome' : List (List Entry) × Machine) : Prop :=
  ∃ later : Pairing, pairing.Later later ∧ later.heap = outcome.2.heap ∧
    later.image = outcome'.2.heap ∧
      Relation.Comp List.Perm (List.Forall₂ (List.Forall₂ (Entry.Renames later.names)))
        outcome.1 outcome'.1

section Permutations

variable {setting : Setting} {pairing later : Pairing} {depth fuel : Nat} {machine other : Machine}
  {stmt : Stmt} {rest stmts stmts' : List Stmt} {entries entries' : List Entry}
  {outcome outcome' : List (List Entry) × Machine}

theorem Entry.Renames.imp {names wider : Handle → Handle → Prop} {entry other : Entry}
    (h : entry.Renames names other) (himp : ∀ x y, names x y → wider x y) :
    entry.Renames wider other :=
  ⟨h.agree, h.update.imp himp⟩

theorem Machine.journals_cons_eq_some {all : List (List Entry)} {last : Machine} :
    machine.journals setting depth fuel (stmt :: rest) = some (all, last) ↔
      ∃ draft blocks, (journaling setting depth).exec fuel stmt { machine } = (.ok (), draft) ∧
        draft.machine.journals setting depth fuel rest = some (blocks, last) ∧
        all = draft.entries :: blocks := by
  rw [journals]
  rcases (journaling setting depth).exec fuel stmt { machine } with ⟨stop | _, draft⟩
  · exact ⟨nofun, fun ⟨_, _, hexec, _⟩ => nomatch hexec⟩
  · dsimp only
    rw [Option.map_eq_some_iff]
    constructor
    · rintro ⟨⟨blocks, last⟩, hrest, ⟨⟩⟩
      exact ⟨draft, blocks, rfl, hrest, rfl⟩
    · rintro ⟨_, blocks, ⟨⟩, hrest, rfl⟩
      exact ⟨_, hrest, rfl⟩

theorem Reordered.cons (hlater : pairing.Later later)
    (hentries : List.Forall₂ (Entry.Renames later.names) entries entries')
    (h : Reordered later outcome outcome') :
    Reordered pairing (entries :: outcome.1, outcome.2) (entries' :: outcome'.1, outcome'.2) := by
  obtain ⟨last, hlast, hheap, himage, order, hperm, hblocks⟩ := h
  refine ⟨last, Pairing.later_trans hlater hlast, hheap, himage, entries :: order,
    hperm.cons entries, .cons ?_ hblocks⟩
  exact hentries.imp fun _ _ hentry => hentry.imp hlast.names

theorem Entry.Renames.comp {names others : Handle → Handle → Prop} {entry between last : Entry}
    (h : entry.Renames names between) (h' : between.Renames others last) :
    entry.Renames (Relation.Comp names others) last where
  agree := h'.agree.trans h.agree
  update :=
    { location := h'.update.location.trans h.update.location
      args := forall₂_comp h.update.args h'.update.args fun _ _ _ => renames_comp
      value := renames_comp h.update.value h'.update.value
      span := h'.update.span.trans h.update.span }

theorem Reordered.trans {between : List (List Entry) × Machine}
    (h : Reordered pairing outcome between)
    (h' : Reordered (.self pairing.image pairing.renames.wellFormed_image) between outcome') :
    Reordered pairing outcome outcome' := by
  obtain ⟨first, hfirst, hheap, himage, order, hperm, hblocks⟩ := h
  obtain ⟨second, hsecond, hheap', himage', order', hperm', hblocks'⟩ := h'
  have hcomp : Relation.Comp (List.Forall₂ (List.Forall₂ (Entry.Renames first.names))) List.Perm
      order order' := ⟨_, hblocks, hperm'⟩
  rw [List.forall₂_comp_perm_eq_perm_comp_forall₂] at hcomp
  obtain ⟨order'', hperm'', hblocks''⟩ := hcomp
  refine ⟨first.comp second (hheap'.trans himage.symm), ⟨hfirst.heap, hsecond.image, ?_, ?_⟩, hheap,
    himage', order'', hperm.trans hperm'', ?_⟩
  · intro list other hpaired
    obtain ⟨datum, -, hdatum⟩ := pairing.renames.exists_represents (.list hpaired)
    exact ⟨other, hfirst.names list other hpaired,
      hsecond.names other other ⟨rfl, Pairing.sound_of_represents hdatum⟩⟩
  · rintro list other ⟨middle, hleft, hright⟩
    rcases hfirst.fresh list middle hleft with hold | ⟨hnew, hnew'⟩ <;>
      rcases hsecond.fresh middle other hright with ⟨rfl, -⟩ | ⟨hfresh, hfresh'⟩
    · exact .inl hold
    · exact absurd (pairing.renames.live hold).2 hfresh
    · exact .inr ⟨hnew, hnew'⟩
    · exact .inr ⟨hnew, hfresh'⟩
  · exact forall₂_comp hblocks'' hblocks' fun _ _ _ hleft hright =>
      forall₂_comp hleft hright fun _ _ _ => Entry.Renames.comp

variable (hconcrete : setting.symbolic = false) (hodd : depth % 2 = 1)
  (h : machine.Matches pairing depth other)
include hconcrete hodd h

theorem Machine.Matches.journals_cons
    (hjournals : machine.journals setting depth fuel (stmt :: stmts) = some outcome)
    (hrest : ∀ {later : Pairing} {next next' : Machine} {outcome : List (List Entry) × Machine},
      next.Matches later depth next' → next.journals setting depth fuel stmts = some outcome →
      ∃ outcome', next'.journals setting depth fuel stmts' = some outcome' ∧
        Reordered later outcome outcome') :
    ∃ outcome', other.journals setting depth fuel (stmt :: stmts') = some outcome' ∧
      Reordered pairing outcome outcome' := by
  obtain ⟨all, last⟩ := outcome
  obtain ⟨draft, blocks, hexec, hblocks, rfl⟩ := journals_cons_eq_some.mp hjournals
  obtain ⟨draft', later, hexec', hlater, hmatches, -, -, hentries⟩ := h.exec hconcrete hodd hexec
  obtain ⟨⟨blocks', last'⟩, hblocks', hreordered⟩ := hrest hmatches hblocks
  exact ⟨(draft'.entries :: blocks', last'),
    journals_cons_eq_some.mpr ⟨draft', blocks', hexec', hblocks', rfl⟩,
    hreordered.cons hlater hentries⟩

theorem Machine.Matches.journals
    (hjournals : machine.journals setting depth fuel stmts = some outcome) :
    ∃ outcome', other.journals setting depth fuel stmts = some outcome' ∧
      Reordered pairing outcome outcome' := by
  induction stmts generalizing machine other pairing outcome with
  | nil =>
    cases hjournals
    exact ⟨([], other), rfl, pairing, Pairing.later_refl pairing, h.renames.heap.symm,
      h.renames.image.symm, [], .nil, .nil⟩
  | cons stmt rest ih => exact h.journals_cons hconcrete hodd hjournals ih

theorem Machine.Matches.journals_swap {first second : Stmt}
    (hjournals : machine.journals setting depth fuel (first :: second :: rest) = some outcome) :
    ∃ outcome', other.journals setting depth fuel (second :: first :: rest) = some outcome' ∧
      Reordered pairing outcome outcome' := by
  obtain ⟨all, last⟩ := outcome
  obtain ⟨draft, blocks, hfirst, htail, rfl⟩ := journals_cons_eq_some.mp hjournals
  obtain ⟨draft₂, more, hsecond, hrest, rfl⟩ := journals_cons_eq_some.mp htail
  have hself : machine.Grows machine := .refl (h.renames.heap ▸ pairing.renames.wellFormed)
  have hself' : other.Grows other := .refl (h.renames.image ▸ pairing.renames.wellFormed_image)
  obtain ⟨-, -, -, -, -, hgrows, -, -⟩ := h.exec hconcrete hodd hfirst
  -- the second statement comes first on the other side, where nothing was made before
  obtain ⟨hlate, hmatches⟩ := h.grow hgrows hself'
  obtain ⟨draft', late, hsecond', hlater, hlate', hgrows₂, hgrows', hentries₂⟩ :=
    hmatches.exec hconcrete hodd hsecond
  obtain ⟨hearly, hmatches'⟩ := h.grow hself hgrows'
  obtain ⟨draft₂', early, hfirst', hlater', hearly', -, hgrows₂', hentries⟩ :=
    hmatches'.exec hconcrete hodd hfirst
  obtain ⟨both, hheap, himage, hboth, hnames, hnames₂⟩ := pairing.exists_union hlater' hlater
    rfl rfl h.renames.heap hlate'.renames.image hearly'.renames.heap h.renames.image
  obtain ⟨hunion, hmatches₂⟩ := h.grow (hgrows.trans hgrows₂) (hgrows'.trans hgrows₂')
  have hwide : draft₂.machine.Matches both depth draft₂'.machine :=
    hmatches₂.widen (hheap.trans hlate'.renames.heap.symm)
      (himage.trans hearly'.renames.image.symm) hboth.names
  obtain ⟨⟨blocks', last'⟩, hrest', later, hlast, hlastHeap, hlastImage, order, hperm, horder⟩ :=
    hwide.journals hconcrete hodd hrest
  refine ⟨(draft'.entries :: draft₂'.entries :: blocks', last'), journals_cons_eq_some.mpr
    ⟨draft', _, hsecond', journals_cons_eq_some.mpr ⟨draft₂', _, hfirst', hrest', rfl⟩, rfl⟩,
    later, Pairing.later_trans hboth hlast, hlastHeap, hlastImage,
    draft₂.entries :: draft.entries :: order, ?_, .cons ?_ (.cons ?_ horder)⟩
  · exact (List.Perm.swap _ _ _).trans ((hperm.cons _).cons _)
  · exact hentries₂.imp fun _ _ hentry =>
      hentry.imp fun x y hxy => hlast.names x y (hnames₂ x y hxy)
  · exact hentries.imp fun _ _ hentry =>
      hentry.imp fun x y hxy => hlast.names x y (hnames x y hxy)

/-- **The order of siblings.** Statements that have journals have them in any order. -/
theorem Machine.Matches.journals_perm (hperm : stmts.Perm stmts')
    (hjournals : machine.journals setting depth fuel stmts = some outcome) :
    ∃ outcome', other.journals setting depth fuel stmts' = some outcome' ∧
      Reordered pairing outcome outcome' := by
  induction hperm generalizing machine other pairing outcome with
  | nil => exact h.journals hconcrete hodd hjournals
  | cons stmt _ ih => exact h.journals_cons hconcrete hodd hjournals ih
  | swap => exact h.journals_swap hconcrete hodd hjournals
  | trans _ _ ih ih' =>
    obtain ⟨between, hbetween, hreordered⟩ := ih h hjournals
    obtain ⟨outcome', houtcome', hreordered'⟩ := ih' ⟨h.renames.right, h.depth_right⟩ hbetween
    exact ⟨outcome', houtcome', hreordered.trans hreordered'⟩

end Permutations

end AbstractStateMachine
