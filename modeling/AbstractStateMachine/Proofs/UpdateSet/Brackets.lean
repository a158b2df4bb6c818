import AbstractStateMachine.Proofs.ListHeap.Collection
import AbstractStateMachine.Proofs.Location.SharedKeys
import AbstractStateMachine.Proofs.UpdateSet.Orderly
import AbstractStateMachine.Proofs.UpdateSet.Stack

/-!
# What holds of update sets after every sequence of operations

A session enters and leaves blocks, adds updates, clears the set and works on lists in between. It
remembers the blocks that were entered and not left, and leaves each with the answer of the fork
that entered it. `represents_of_run` states what then holds of the layers. A look-up finds the
newest update with equal arguments as long as that has the key of the arguments that are looked up;
zeros of different signs are equal arguments with different keys.
-/

namespace AbstractStateMachine

/-! ### Operations on lists -/

namespace ListHeap

variable {heap : ListHeap} {op : Op}

theorem Op.keeps_of_live {list : Handle} (h : (op.perform heap).2.Live list) :
    op.Keeps heap list := by
  cases op with
  | reclaim roots => exact (live_reclaim_iff.mp h).1
  | _ => trivial

section Perform

variable (hheap : heap.WellFormed) (hop : ∀ list ∈ op.operands, heap.Live list)
include hheap hop

theorem valid_perform :
    Session.Valid (.step ⟨heap, { entry | heap.Denotes entry.1 entry.2 }⟩ op) := by
  refine Session.Valid.step ⟨hheap, ?_⟩ fun list hlist => ⟨_, hheap.denotes_toList (hop list hlist)⟩
  exact fun _ _ hlist => hlist

theorem denotes_perform {list : Handle} (hlive : heap.Live list) (hkept : op.Keeps heap list) :
    (op.perform heap).2.Denotes list (heap.toList list) :=
  (valid_perform hheap hop).denotes _ _ (.inl ⟨hheap.denotes_toList hlive, hkept⟩)

theorem agrees_perform : heap.Agrees (op.perform heap).2 :=
  ⟨hheap, (valid_perform hheap hop).wellFormed, fun _ hlive hlive' =>
    (denotes_perform hheap hop hlive (Op.keeps_of_live hlive')).toList_eq⟩

theorem supports_perform {values : List Value} (hvalues : heap.Supports values)
    (hkept : ∀ list ∈ handles values, op.Keeps heap list) :
    (op.perform heap).2.Supports values :=
  fun list hlist => (denotes_perform hheap hop (hvalues list hlist) (hkept list hlist)).live

end Perform

end ListHeap

namespace UpdateSet

/-! ### Layers -/

def TaggedIn : List Layer → Prop
  | [] => True
  | layer :: below => (∀ update ∈ layer.values, update.layer = below.length) ∧ TaggedIn below

/-- The newest update of a kind among the sequential layers, the innermost layer being first. -/
def NewestIn (hit : Update → Bool) : List Layer → Update → Prop
  | [], _ => False
  | layer :: below, update =>
    if below.length % 2 = 0 ∧ ∃ other ∈ layer.values, hit other = true then
      update ∈ layer.values ∧ hit update = true
    else NewestIn hit below update

instance decidableNewestIn (hit : Update → Bool) :
    (layers : List Layer) → (update : Update) → Decidable (NewestIn hit layers update)
  | [], _ => inferInstanceAs (Decidable False)
  | layer :: below, update =>
    have := decidableNewestIn hit below update
    inferInstanceAs (Decidable (if below.length % 2 = 0 ∧ ∃ other ∈ layer.values, hit other = true
      then update ∈ layer.values ∧ hit update = true else NewestIn hit below update))

def fork (set : UpdateSet) (parallel : Bool) : Bool × UpdateSet :=
  if parallel then set.forkParallel else set.forkSequential

/-- What leaving a block can do. -/
inductive Leaves (heap : ListHeap) (set : UpdateSet) : Bool → UpdateSet → Prop where
  | same : Leaves heap set false set
  | merged (agree : Bool) : Leaves heap set true (set.mergeTop heap agree).1

variable {heap : ListHeap} {digest : Digest} {set next : UpdateSet} {parallel forked : Bool}
  {layers : List Layer} {update : Update} {hit : Update → Bool}

theorem fork_eq (set : UpdateSet) (parallel : Bool) :
    set.fork parallel =
      if set.inParallel = parallel then (false, set) else (true, set.push) := by
  unfold fork forkParallel forkSequential
  cases set.inParallel <;> cases parallel <;> rfl

theorem leaves_merge (heap : ListHeap) (set : UpdateSet) (forked : Bool) :
    set.Leaves heap forked (set.merge heap forked).1 := by
  cases forked with
  | true => exact .merged set.inParallel
  | false => exact .same

theorem leaves_mergeRound (heap : ListHeap) (set : UpdateSet) (forked : Bool) :
    set.Leaves heap forked (set.mergeRound heap forked).1 := by
  cases forked with
  | true => exact .merged false
  | false => exact .same

theorem enters_fork (set : UpdateSet) (parallel : Bool) : set.Enters (set.fork parallel) := by
  cases parallel with
  | true => exact set.enters_forkParallel
  | false => exact set.enters_forkSequential

theorem Leaves.below_eq {fork : Bool × UpdateSet} {inside : UpdateSet} (henters : set.Enters fork)
    (hinside : inside.below = fork.2.below) (h : inside.Leaves heap fork.1 next) :
    next.below = set.below := by
  cases henters with
  | same =>
    cases h
    exact hinside
  | pushed =>
    cases h
    rw [mergeTop_of_below hinside]

theorem Leaves.held_subset (h : set.Leaves heap forked next) {value : Value}
    (hvalue : value ∈ next.held) : value ∈ set.held := by
  cases h with
  | same => exact hvalue
  | merged agree => exact mem_held_mergeTop hvalue

theorem Leaves.orderly (h : set.Leaves heap forked next) (hset : set.Orderly heap digest) :
    next.Orderly heap digest := by
  cases h with
  | same => exact hset
  | merged agree => exact forall_layers_mergeTop (Layer.lasting_orderly heap digest) hset agree

theorem depth_mergeTop (agree : Bool) : (set.mergeTop heap agree).1.depth = set.depth - 1 := by
  obtain ⟨top, _ | ⟨parent, below⟩⟩ := set
  · rfl
  · rfl

theorem layer_eq_of_taggedIn (h : TaggedIn layers) {layer : Layer} {below : List Layer}
    (hsuffix : layer :: below <:+ layers) (hupdate : update ∈ layer.values) :
    update.layer = below.length := by
  induction layers with
  | nil => cases List.suffix_nil.mp hsuffix
  | cons first rest ih =>
    rcases List.suffix_cons_iff.mp hsuffix with heq | hrest
    · cases heq
      exact h.1 update hupdate
    · exact ih h.2 hrest

theorem taggedIn_mergeTop (h : TaggedIn set.layers) (agree : Bool) :
    TaggedIn (set.mergeTop heap agree).1.layers := by
  obtain ⟨top, _ | ⟨parent, below⟩⟩ := set
  · exact h
  · obtain ⟨-, hparent, hbelow⟩ := h
    rw [mergeTop_of_below rfl]
    refine ⟨fun update hupdate => ?_, hbelow⟩
    rcases Layer.mem_values_recordAll hupdate with hold | hmoved
    · exact hparent update hold
    · obtain ⟨old, -, rfl⟩ := List.mem_map.mp hmoved
      rfl

theorem taggedIn_add {function : FunctionId} {args : List Value} {value : Value} {span : Span}
    (h : TaggedIn set.layers) (hadd : set.add heap digest function args value span = .ok next) :
    TaggedIn next.layers := by
  obtain ⟨top, hrecord, rfl⟩ := exists_record_of_add hadd
  refine ⟨fun update hupdate => ?_, h.2⟩
  rcases Layer.mem_values_record hrecord hupdate with rfl | hold
  · rfl
  · exact h.1 update hold

/-! ### Look-ups -/

theorem filter_get?_eq_some_iff {key : LocationKey} {layer : Layer} (h : layer.Indexed) :
    (layer.get? key).filter hit = some update ↔
      update ∈ layer.values ∧ (hit update && update.location == key) = true := by
  rw [Option.filter_eq_some_iff, Bool.and_eq_true, beq_iff_eq]
  constructor
  · rintro ⟨hfound, hhit⟩
    exact ⟨OrderedMap.mem_values_of_get? hfound, hhit, (h.location key update hfound).symm⟩
  · rintro ⟨hupdate, hhit, rfl⟩
    exact ⟨h.get?_location hupdate, hhit⟩

/-- A look-up finds the newest update among those that are filed under its key. -/
theorem findIn_eq_some_iff {key : LocationKey} (h : ∀ layer ∈ layers, layer.Indexed) :
    Stack.findIn hit key layers = some update ↔
      NewestIn (fun other => hit other && other.location == key) layers update := by
  induction layers with
  | nil => exact iff_of_false nofun id
  | cons layer below ih =>
    obtain ⟨hlayer, hbelow⟩ := List.forall_mem_cons.mp h
    have ih := ih hbelow
    rw [Stack.findIn, NewestIn]
    rcases Nat.mod_two_eq_zero_or_one below.length with heven | hodd
    · simp only [heven, true_and, Nat.reduceBEq, Bool.false_eq_true, if_false]
      cases hfound : (layer.get? key).filter hit with
      | some found =>
        obtain ⟨hmem, hhit⟩ := (filter_get?_eq_some_iff hlayer).mp hfound
        rw [if_pos ⟨found, hmem, hhit⟩, ← filter_get?_eq_some_iff hlayer, hfound,
          Option.some_or]
      | none =>
        rw [if_neg, Option.none_or]
        · exact ih
        · rintro ⟨other, hother⟩
          rw [(filter_get?_eq_some_iff hlayer).mpr hother] at hfound
          cases hfound
    · simp only [hodd, Nat.reduceEqDiff, false_and, if_false, BEq.rfl, if_true, Option.none_or]
      exact ih

theorem NewestIn.hits (h : NewestIn hit layers update) : hit update = true := by
  induction layers with
  | nil => exact h.elim
  | cons layer below ih =>
    rw [NewestIn] at h
    split at h
    · exact h.2
    · exact ih h

theorem newestIn_congr {hit' : Update → Bool}
    (h : ∀ layer ∈ layers, ∀ other ∈ layer.values, hit other = hit' other) :
    NewestIn hit layers update ↔ NewestIn hit' layers update := by
  induction layers with
  | nil => exact Iff.rfl
  | cons layer below ih =>
    obtain ⟨hlayer, hbelow⟩ := List.forall_mem_cons.mp h
    have hmatch : (∃ other ∈ layer.values, hit other = true) ↔
        ∃ other ∈ layer.values, hit' other = true :=
      exists_congr fun other => and_congr_right fun hother => by rw [hlayer other hother]
    simp only [NewestIn, hmatch]
    split
    · exact and_congr_right fun hupdate => by rw [hlayer update hupdate]
    · exact ih hbelow

theorem newestIn_and_iff {also : Update → Bool} :
    (∀ update, NewestIn (fun other => hit other && also other) layers update ↔
        NewestIn hit layers update) ↔
      ∀ update, NewestIn hit layers update → also update = true := by
  constructor
  · intro h update hupdate
    exact (Bool.and_eq_true_iff.mp ((h update).mpr hupdate).hits).2
  · intro h
    induction layers with
    | nil => exact fun update => Iff.rfl
    | cons layer below ih =>
      intro update
      by_cases hmatch : below.length % 2 = 0 ∧ ∃ other ∈ layer.values, hit other = true
      · -- All that is hit in this layer is the newest, so it belongs to the smaller kind.
        have hlayer : ∀ other ∈ layer.values, hit other = true → also other = true := by
          intro other hother hhit
          refine h other ?_
          rw [NewestIn, if_pos hmatch]
          exact ⟨hother, hhit⟩
        obtain ⟨heven, other, hother, hhit⟩ := hmatch
        have hboth : (hit other && also other) = true :=
          Bool.and_eq_true_iff.mpr ⟨hhit, hlayer other hother hhit⟩
        rw [NewestIn, NewestIn, if_pos ⟨heven, other, hother, hboth⟩,
          if_pos ⟨heven, other, hother, hhit⟩]
        refine and_congr_right fun hupdate => ?_
        rw [Bool.and_eq_true]
        exact ⟨And.left, fun hhit => ⟨hhit, hlayer update hupdate hhit⟩⟩
      · rw [NewestIn, NewestIn, if_neg hmatch, if_neg]
        · refine ih (fun other hother => h other ?_) update
          rw [NewestIn, if_neg hmatch]
          exact hother
        · rintro ⟨heven, other, hother, hhit⟩
          exact hmatch ⟨heven, other, hother, (Bool.and_eq_true_iff.mp hhit).1⟩

/-! ### Sessions -/

/-- A block that was entered and not left, with the answer of the fork. -/
structure OpenBlock where
  parallel : Bool
  forked : Bool
  deriving DecidableEq, Repr

structure Session where
  heap : ListHeap := {}
  set : UpdateSet := {}
  /-- The innermost block is first. -/
  blocks : List OpenBlock := []

inductive Op where
  | enter (parallel : Bool)
  | add (function : FunctionId) (args : List Value) (value : Value) (span : Span)
  | leave
  | endRound
  | clear
  | lists (op : ListHeap.Op)

namespace Session

def left? (session : Session) (merge : Bool → UpdateSet × Option Fault) : Option Session :=
  match session.blocks with
  | [] => none
  | block :: blocks =>
    match merge block.forked with
    | (set, none) => some { session with set, blocks }
    | (_, some _) => none

/-- Gives no result if there is no block to leave or the operation fails. Clearing gives up all
blocks. -/
def step? (digest : Digest) (session : Session) : Op → Option Session
  | .enter parallel =>
    let (forked, set) := session.set.fork parallel
    some { session with set, blocks := ⟨parallel, forked⟩ :: session.blocks }
  | .add function args value span =>
    match session.set.add session.heap digest function args value span with
    | .ok set => some { session with set }
    | .error _ => none
  | .leave => session.left? (session.set.merge session.heap)
  | .endRound => session.left? (session.set.mergeRound session.heap)
  | .clear => some { session with set := {}, blocks := [] }
  | .lists op => some { session with heap := (op.perform session.heap).2 }

def run? (digest : Digest) (session : Session) (ops : List Op) : Option Session :=
  ops.foldlM (step? digest) session

/-- Operations are applied to lists that are allocated, and the lists in the set are kept. -/
def Permits (session : Session) : Op → Prop
  | .add _ args value _ => session.heap.Supports (value :: args)
  | .lists op => (∀ list ∈ op.operands, session.heap.Live list) ∧
      ∀ list ∈ ListHeap.handles session.set.held, op.Keeps session.heap list
  | .enter _ | .leave | .endRound | .clear => True

def PermitsAll (digest : Digest) (session : Session) : List Op → Prop
  | [] => True
  | op :: ops => session.Permits op ∧
      ∀ next, session.step? digest op = some next → next.PermitsAll digest ops

def context : List OpenBlock → Bool
  | [] => false
  | block :: _ => block.parallel

/-- A block took a layer exactly if the one around it is of the other kind. -/
def Coherent : List OpenBlock → Prop
  | [] => True
  | block :: blocks => block.forked = (block.parallel != context blocks) ∧ Coherent blocks

structure Sound (digest : Digest) (session : Session) : Prop where
  coherent : Coherent session.blocks
  depth_eq : session.set.depth = session.blocks.countP (·.forked)
  tagged : TaggedIn session.set.layers
  orderly : session.set.Orderly session.heap digest
  wellFormed : session.heap.WellFormed
  supports : session.heap.Supports session.set.held

variable {session next : Session} {op : Op} {ops : List Op} {function : FunctionId}
  {args : List Value}

theorem sound_start (digest : Digest) : ({} : Session).Sound digest where
  coherent := trivial
  depth_eq := rfl
  tagged := ⟨nofun, trivial⟩
  orderly := orderly_default
  wellFormed := ListHeap.wellFormed_default
  supports := nofun

theorem context_eq {blocks : List OpenBlock} (h : Coherent blocks) :
    context blocks = (blocks.countP (·.forked) % 2 == 1) := by
  induction blocks with
  | nil => rfl
  | cons block blocks ih =>
    obtain ⟨hforked, hblocks⟩ := h
    rw [ih hblocks] at hforked
    rw [context, List.countP_cons, hforked]
    rcases Nat.mod_two_eq_zero_or_one (blocks.countP (·.forked)) with heven | hodd
    · cases block.parallel <;> simp [heven, Nat.add_mod]
    · cases block.parallel <;> simp [hodd, Nat.add_mod]

theorem Sound.inParallel_eq (h : session.Sound digest) :
    session.set.inParallel = context session.blocks := by
  rw [context_eq h.coherent, inParallel, h.depth_eq]

theorem Sound.depth_pos (h : session.Sound digest) :
    ∀ block ∈ session.blocks.head?, block.forked = true → 0 < session.set.depth := by
  intro block hblock hforked
  rw [h.depth_eq]
  exact List.countP_pos_iff.mpr ⟨block, List.mem_of_mem_head? hblock, hforked⟩

theorem exists_of_step?_add {value : Value} {span : Span}
    (h : session.step? digest (.add function args value span) = some next) :
    ∃ set, session.set.add session.heap digest function args value span = .ok set ∧
      next = { session with set } := by
  rw [step?] at h
  split at h
  · next set hadd =>
      cases h
      exact ⟨set, hadd, rfl⟩
  · cases h

theorem exists_of_left? {merge : Bool → UpdateSet × Option Fault}
    (h : session.left? merge = some next) :
    ∃ block blocks, session.blocks = block :: blocks ∧
      next = { session with set := (merge block.forked).1, blocks } := by
  unfold left? at h
  split at h
  · cases h
  · next block blocks hblocks =>
      split at h
      · next set hmerge =>
          cases h
          exact ⟨block, blocks, hblocks, by rw [hmerge]⟩
      · cases h

theorem Sound.enter (h : session.Sound digest) (parallel : Bool) :
    Sound digest { session with
      set := (session.set.fork parallel).2
      blocks := ⟨parallel, (session.set.fork parallel).1⟩ :: session.blocks } := by
  have hcontext := h.inParallel_eq
  rw [fork_eq]
  split
  · next hkind =>
      exact { h with
        coherent := ⟨by rw [← hcontext, hkind, bne_self_eq_false], h.coherent⟩
        depth_eq := h.depth_eq }
  · next hkind =>
      refine { h with
        coherent := ⟨?_, h.coherent⟩
        depth_eq := ?_
        tagged := ⟨nofun, h.tagged⟩
        orderly := forall_layers_push (Layer.lasting_orderly session.heap digest) h.orderly
        supports := h.supports.mono fun value => mem_held_push }
      · rw [← hcontext]
        exact (bne_iff_ne.mpr (Ne.symm hkind)).symm
      · rw [List.countP_cons, ← h.depth_eq]
        rfl

theorem Sound.left (h : session.Sound digest) {block : OpenBlock} {blocks : List OpenBlock}
    (hblocks : session.blocks = block :: blocks)
    (hset : session.set.Leaves session.heap block.forked set) :
    Sound digest { session with set, blocks } := by
  have hcoherent := h.coherent
  have hdepth := h.depth_eq
  rw [hblocks] at hcoherent hdepth
  refine { h with
    coherent := hcoherent.2
    depth_eq := ?_
    tagged := ?_
    orderly := hset.orderly h.orderly
    supports := h.supports.mono fun value => hset.held_subset }
  · rw [List.countP_cons] at hdepth
    generalize block.forked = forked at hset hdepth
    cases hset with
    | same => exact hdepth
    | merged agree => rw [depth_mergeTop, hdepth]; rfl
  · generalize block.forked = forked at hset
    cases hset with
    | same => exact h.tagged
    | merged agree => exact taggedIn_mergeTop h.tagged agree

theorem Sound.add (h : session.Sound digest) {value : Value} {span : Span}
    (hvalues : session.heap.Supports (value :: args))
    (hadd : session.set.add session.heap digest function args value span = .ok set) :
    Sound digest { session with set } := by
  have hbelow : set.below = session.set.below := (layered_add hadd).below
  refine { h with
    depth_eq := ?_
    tagged := taggedIn_add h.tagged hadd
    orderly := h.orderly.add hadd
    supports := ?_ }
  · rw [depth, hbelow]
    exact h.depth_eq
  · apply ListHeap.supports_iff.mpr
    intro list hlist
    rcases mem_held_add hadd hlist with harg | rfl | hold
    · exact ListHeap.supports_iff.mp hvalues list (List.mem_cons_of_mem _ harg)
    · exact ListHeap.supports_iff.mp hvalues list List.mem_cons_self
    · exact ListHeap.supports_iff.mp h.supports list hold

theorem Sound.perform (h : session.Sound digest) {op : ListHeap.Op}
    (hoperands : ∀ list ∈ op.operands, session.heap.Live list)
    (hkept : ∀ list ∈ ListHeap.handles session.set.held, op.Keeps session.heap list) :
    Sound digest { session with heap := (op.perform session.heap).2 } := by
  have hagrees := ListHeap.agrees_perform h.wellFormed hoperands
  have hsupports := ListHeap.supports_perform h.wellFormed hoperands h.supports hkept
  exact { h with
    orderly := h.orderly.agrees hagrees h.supports hsupports
    wellFormed := hagrees.after
    supports := hsupports }

theorem Sound.step (h : session.Sound digest) (hop : session.Permits op)
    (hstep : session.step? digest op = some next) : next.Sound digest := by
  cases op with
  | enter parallel =>
    cases hstep
    exact h.enter parallel
  | add function args value span =>
    obtain ⟨set, hadd, rfl⟩ := exists_of_step?_add hstep
    exact h.add hop hadd
  | leave =>
    obtain ⟨block, blocks, hblocks, rfl⟩ := exists_of_left? hstep
    exact h.left hblocks (leaves_merge session.heap session.set block.forked)
  | endRound =>
    obtain ⟨block, blocks, hblocks, rfl⟩ := exists_of_left? hstep
    exact h.left hblocks (leaves_mergeRound session.heap session.set block.forked)
  | clear =>
    cases hstep
    exact { sound_start digest with
      orderly := orderly_default
      wellFormed := h.wellFormed
      supports := nofun }
  | lists op =>
    cases hstep
    exact h.perform hop.1 hop.2

theorem exists_of_run?_cons (h : session.run? digest (op :: ops) = some next) :
    ∃ middle, session.step? digest op = some middle ∧ middle.run? digest ops = some next := by
  rw [run?, List.foldlM_cons] at h
  exact Option.bind_eq_some_iff.mp h

theorem exists_of_run?_append {before after : List Op}
    (h : session.run? digest (before ++ after) = some next) :
    ∃ middle, session.run? digest before = some middle ∧ middle.run? digest after = some next := by
  rw [run?, List.foldlM_append] at h
  exact Option.bind_eq_some_iff.mp h

theorem Sound.run (h : session.Sound digest) (hops : session.PermitsAll digest ops)
    (hrun : session.run? digest ops = some next) : next.Sound digest := by
  induction ops generalizing session with
  | nil =>
    cases hrun
    exact h
  | cons op ops ih =>
    obtain ⟨middle, hstep, hrest⟩ := exists_of_run?_cons hrun
    exact ih (h.step hops.1 hstep) (hops.2 middle hstep) hrest

/-! ### Matching forks and merges -/

/-- Sequences in which every block that is entered is left, and no other. -/
inductive Matched : List Op → Prop where
  | nil : Matched []
  | add (function : FunctionId) (args : List Value) (value : Value) (span : Span) :
    Matched [.add function args value span]
  | lists (op : ListHeap.Op) : Matched [.lists op]
  | block (parallel : Bool) {inner : List Op} (hinner : Matched inner) {last : Op}
    (hlast : last = .leave ∨ last = .endRound) : Matched (.enter parallel :: inner ++ [last])
  | append {before after : List Op} (hbefore : Matched before) (hafter : Matched after) :
    Matched (before ++ after)

theorem exists_of_step?_last {last : Op} (hlast : last = .leave ∨ last = .endRound)
    (h : session.step? digest last = some next) :
    ∃ block blocks, session.blocks = block :: blocks ∧ next.blocks = blocks ∧
      session.set.Leaves session.heap block.forked next.set := by
  rcases hlast with rfl | rfl
  · obtain ⟨block, blocks, hblocks, rfl⟩ := exists_of_left? h
    exact ⟨block, blocks, hblocks, rfl, leaves_merge _ _ _⟩
  · obtain ⟨block, blocks, hblocks, rfl⟩ := exists_of_left? h
    exact ⟨block, blocks, hblocks, rfl, leaves_mergeRound _ _ _⟩

theorem Matched.below_eq (h : Matched ops) (hrun : session.run? digest ops = some next) :
    next.blocks = session.blocks ∧ next.set.below = session.set.below := by
  induction h generalizing session next with
  | nil =>
    cases hrun
    exact ⟨rfl, rfl⟩
  | add function args value span =>
    obtain ⟨middle, hstep, hrest⟩ := exists_of_run?_cons hrun
    obtain ⟨set, hadd, rfl⟩ := exists_of_step?_add hstep
    cases hrest
    exact ⟨rfl, (layered_add hadd).below⟩
  | lists op =>
    obtain ⟨middle, hstep, hrest⟩ := exists_of_run?_cons hrun
    cases hstep
    cases hrest
    exact ⟨rfl, rfl⟩
  | @block parallel inner _ last hlast ih =>
    obtain ⟨entered, hstep, hrest⟩ := exists_of_run?_cons hrun
    obtain ⟨inside, hinner, hrest⟩ := exists_of_run?_append hrest
    obtain ⟨left, hleft, hnil⟩ := exists_of_run?_cons hrest
    cases hstep
    cases hnil
    obtain ⟨hblocks, hbelow⟩ := ih hinner
    obtain ⟨block, blocks, hopen, hleftBlocks, hleaves⟩ := exists_of_step?_last hlast hleft
    rw [hblocks] at hopen
    cases hopen
    exact ⟨hleftBlocks, hleaves.below_eq (session.set.enters_fork parallel) hbelow⟩
  | append _ _ ihbefore ihafter =>
    obtain ⟨middle, hbefore, hafter⟩ := exists_of_run?_append hrun
    obtain ⟨hblocks, hbelow⟩ := ihbefore hbefore
    obtain ⟨hblocks', hbelow'⟩ := ihafter hafter
    exact ⟨hblocks'.trans hblocks, hbelow'.trans hbelow⟩

/-! ### The invariant -/

def found? (digest : Digest) (session : Session) (function : FunctionId) (args : List Value) :
    Option Update :=
  session.set.stack.find (fun update => session.heap.sameArgs update.args args)
    (function, session.heap.argKey digest args)

def IsNewest (session : Session) (function : FunctionId) (args : List Value) (update : Update) :
    Prop :=
  NewestIn (fun update => update.function == function && session.heap.sameArgs update.args args)
    session.set.layers update

/-- What the layers look like. -/
structure Represents (digest : Digest) (session : Session) : Prop where
  layers_pos : 0 < session.set.layers.length
  /-- No block is left by merging the outermost layer. -/
  merges_layer : ∀ block ∈ session.blocks.head?, block.forked = true → 0 < session.set.depth
  parallel_iff : context session.blocks = true ↔ session.set.depth % 2 = 1
  tagged : ∀ layer below, layer :: below <:+ session.set.layers →
    ∀ update ∈ layer.values, update.layer = below.length
  filed : ∀ layer ∈ session.set.layers, ∀ key update, layer.get? key = some update →
    key = (update.function, update.key) ∧ update.key = session.heap.argKey digest update.args
  nodup : ∀ layer ∈ session.set.layers, layer.keys.Nodup
  depth_eq : ∀ ops next, Matched ops → session.run? digest ops = some next →
    next.set.depth = session.set.depth
  lookup_eq : ∀ function args,
    session.set.lookup session.heap function (session.heap.argKey digest args) args =
      (session.found? digest function args).map Update.value
  /-- A look-up finds the newest of the updates with equal arguments and the same key. -/
  found : ∀ function args update, session.found? digest function args = some update ↔
    NewestIn (fun update => update.function == function &&
      session.heap.sameArgs update.args args &&
      session.heap.argKey digest update.args == session.heap.argKey digest args)
      session.set.layers update
  /-- This is a newest update with equal arguments exactly if all of those have the same key. -/
  found_iff : ∀ function args,
    (∀ update, session.found? digest function args = some update ↔
        session.IsNewest function args update) ↔
      ∀ update, session.IsNewest function args update →
        session.heap.argKey digest update.args = session.heap.argKey digest args
  found_of_zeroSigns : ∀ function args,
    (∀ update, session.IsNewest function args update →
      update.args.map session.heap.zeroSigns = args.map session.heap.zeroSigns) →
    ∀ update, session.found? digest function args = some update ↔
      session.IsNewest function args update

theorem Sound.found?_eq_some_iff (h : session.Sound digest) {update : Update} :
    session.found? digest function args = some update ↔
      NewestIn (fun update => update.function == function &&
        session.heap.sameArgs update.args args &&
        session.heap.argKey digest update.args == session.heap.argKey digest args)
        session.set.layers update := by
  have hindexed : ∀ layer ∈ session.set.layers, layer.Indexed := fun layer hlayer =>
    (h.orderly layer hlayer).toIndexed
  refine (findIn_eq_some_iff hindexed).trans (newestIn_congr fun layer hlayer other hother => ?_)
  rw [← (h.orderly layer hlayer).filed other hother, Bool.and_right_comm, Bool.and_comm]
  rfl

theorem Sound.found_iff (h : session.Sound digest) (function : FunctionId) (args : List Value) :
    (∀ update, session.found? digest function args = some update ↔
        session.IsNewest function args update) ↔
      ∀ update, session.IsNewest function args update →
        session.heap.argKey digest update.args = session.heap.argKey digest args := by
  simp only [h.found?_eq_some_iff]
  refine newestIn_and_iff.trans (forall_congr' fun update => ?_)
  rw [beq_iff_eq]
  rfl

/-- **Representation invariant.** It holds after every sequence of operations that succeed, in which
the block that is left is always the innermost one. -/
theorem represents_of_run (digest : Digest) (ops : List Op) (session : Session)
    (hops : ({} : Session).PermitsAll digest ops)
    (hrun : ({} : Session).run? digest ops = some session) : session.Represents digest := by
  have hsound : session.Sound digest := (sound_start digest).run hops hrun
  exact {
    layers_pos := Nat.succ_pos _
    merges_layer := hsound.depth_pos
    parallel_iff := by rw [← hsound.inParallel_eq, inParallel, beq_iff_eq]
    tagged := fun layer below hsuffix update => layer_eq_of_taggedIn hsound.tagged hsuffix
    filed := fun layer hlayer key update hfound =>
      ⟨(hsound.orderly layer hlayer).location key update hfound,
        (hsound.orderly layer hlayer).filed update (OrderedMap.mem_values_of_get? hfound)⟩
    nodup := fun layer hlayer => (hsound.orderly layer hlayer).nodup
    depth_eq := fun ops next hmatched hnext =>
      congrArg List.length (hmatched.below_eq hnext).2
    lookup_eq := fun function args => lookupIn_eq function _ args session.set.layers
    found := fun function args update => hsound.found?_eq_some_iff
    found_iff := hsound.found_iff
    found_of_zeroSigns := by
      intro function args hsigns
      refine (hsound.found_iff function args).mpr fun update hupdate => ?_
      have hargs := (Bool.and_eq_true_iff.mp hupdate.hits).2
      exact (ListHeap.argKey_eq_iff_zeroSigns hargs).mpr (hsigns update hupdate) digest }

/-- A write in a block within a parallel block, to a location that is a list, seen after both blocks
are left. -/
theorem represents_nested_write :
    ∃ session, ({} : Session).run? .tokens [.lists (.ofList [.int 7]), .enter true, .enter false,
        .add ⟨0⟩ [.list ⟨0⟩] (.int 1) {}, .leave, .endRound] = some session ∧
      session.Represents .tokens := by
  refine ⟨_, rfl, represents_of_run .tokens [.lists (.ofList [.int 7]), .enter true, .enter false,
        .add ⟨0⟩ [.list ⟨0⟩] (.int 1) {}, .leave, .endRound] _ ?_ rfl⟩
  refine ⟨⟨nofun, nofun⟩, ?_⟩
  rintro _ ⟨⟩
  refine ⟨trivial, ?_⟩
  rintro _ ⟨⟩
  refine ⟨trivial, ?_⟩
  rintro _ ⟨⟩
  refine ⟨?_, ?_⟩
  · rintro list (_ | ⟨_, ⟨⟩⟩)
    rfl
  rintro _ ⟨⟩
  refine ⟨trivial, ?_⟩
  rintro _ ⟨⟩
  refine ⟨trivial, ?_⟩
  rintro _ ⟨⟩
  trivial

def zeroWrite : Update where
  function := ⟨0⟩
  key := [.tokens [.float (Binary64.zero false).bits]]
  args := [.float (.zero false)]
  value := .int 1
  layer := 0

/-- What is written at a zero is the newest write with arguments equal to the other zero, and is not
found there. -/
theorem lookup_negative_zero :
    ∃ session, ({} : Session).run? .tokens [.add ⟨0⟩ [.float (.zero false)] (.int 1) {}] =
        some session ∧
      session.IsNewest ⟨0⟩ [.float (.zero true)] zeroWrite ∧
      session.set.lookup session.heap ⟨0⟩
        (session.heap.argKey .tokens [.float (.zero true)]) [.float (.zero true)] = none := by
  refine ⟨_, rfl, ?_, by decide +kernel⟩
  unfold IsNewest
  decide +kernel

end Session

end UpdateSet

end AbstractStateMachine
