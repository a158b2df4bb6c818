import AbstractStateMachine.Proofs.Journal.Basic

/-!
# Journaling tracks execution

As long as a draft is clean, a statement does to it what it does to its machine. A statement
succeeds on a machine if and only if journaling it gives a clean draft, and both end with the same
machine. Clean or not, the bindings and the layers below are given back.
-/

namespace AbstractStateMachine

open AbstractStateMachine.Computation Coupling Machine
open UpdateSet (forkParallel forkSequential inParallel)

variable {α β : Type}

namespace Computation

variable {S : Type} {state : S}

theorem bind_of_eq_ok {first : Computation S α} {rest : α → Computation S β} {middle : S}
    {value : α} (h : first state = (.ok value, middle)) :
    (first >>= rest) state = rest value middle := by
  show ExceptT.bindCont rest (first state).1 (first state).2 = _
  rw [h]
  rfl

theorem exists_of_bind_eq_ok {first : Computation S α} {rest : α → Computation S β} {last : S}
    {result : β} (h : (first >>= rest) state = (.ok result, last)) :
    ∃ value middle, first state = (.ok value, middle) ∧ rest value middle = (.ok result, last) := by
  change ExceptT.bindCont rest (first state).1 (first state).2 = _ at h
  rcases hfirst : first state with ⟨stop | value, middle⟩ <;> rw [hfirst] at h
  · cases h
  · exact ⟨value, middle, rfl, h⟩

theorem restoring_eq_ok_iff {restore : S → S} {run : Computation S α} {last : S} {result : α} :
    restoring restore run state = (.ok result, last) ↔
      ∃ middle, run state = (.ok result, middle) ∧ restore middle = last := by
  unfold restoring
  rcases run state with ⟨outcome, middle⟩
  constructor
  · intro h
    cases h
    exact ⟨middle, rfl, rfl⟩
  · rintro ⟨_, h, rfl⟩
    cases h
    rfl

end Computation

/-! ### Evaluation -/

/-- The journal stays as it is, and all else happens on the machine. -/
def lifting : Coupling Machine Value Draft Value where
  World := List Entry × Bool
  Later := Eq
  States journal machine draft := draft = ⟨machine, journal.1, journal.2⟩
  Values _ := Eq
  later_refl := Eq.refl
  later_trans := Eq.trans
  values_later := fun _ heq => heq

theorem alike_lift {w : lifting.World} {rel : lifting.World → α → α → Prop} (run : Run α)
    (hrel : ∀ w a, rel w a a) : lifting.Alike w rel run (Draft.lift run) := by
  rintro machine _ rfl
  unfold Draft.lift within
  dsimp only
  rcases run machine with ⟨stop | value, next⟩
  · exact .error stop rfl rfl
  · exact .ok rfl rfl (hrel w value)

theorem eq_lift_of_alike {rel : lifting.World → α → α → Prop} {run : Run α}
    {journaled : Computation Draft α} (h : ∀ w, lifting.Alike w rel run journaled)
    (hrel : ∀ w a b, rel w a b → b = a) : journaled = Draft.lift run := by
  funext draft
  have hends := h (draft.entries, draft.clean) draft.machine draft rfl
  unfold Draft.lift within
  generalize run draft.machine = outcome at hends ⊢
  generalize journaled draft = outcome' at hends ⊢
  cases hends with
  | ok hlater hstates hresult =>
    cases hlater
    cases hstates
    rw [hrel _ _ _ hresult]
  | error stop hlater hstates =>
    cases hlater
    cases hstates
    rfl

section Evaluation

variable (setting : Setting) (depth fuel : Nat)

theorem evalCorrespondence_lifting : EvalCorrespondence lifting (backend setting)
    (journaling setting depth) (.all _) where
  spec := rfl
  span := by
    rintro w machine _ rfl
    rfl
  enterFrame := by
    rintro w machine _ params args _ rfl hargs
    rw [AllValues, show lifting.Values w = Eq from rfl, List.forall₂_eq_eq_eq] at hargs
    cases hargs
    rfl
  leaveFrame := by
    rintro w w' machine _ machine' _ rfl rfl
    rfl
  readStored := by
    rintro w function args _ hargs
    rw [AllValues, show lifting.Values w = Eq from rfl, List.forall₂_eq_eq_eq] at hargs
    cases hargs
    exact alike_lift _ fun _ _ => rfl
  operate := by
    rintro w expr args _ - - hargs
    rw [AllValues, show lifting.Values w = Eq from rfl, List.forall₂_eq_eq_eq] at hargs
    cases hargs
    exact alike_lift _ fun _ _ => rfl
  equal := by
    rintro w machine _ value _ other _ rfl rfl rfl
    rfl

theorem eval_journaling (expr : Expr) : (journaling setting depth).eval fuel expr =
    Draft.lift ((backend setting).eval fuel expr) :=
  eq_lift_of_alike
    (fun w => (evalCorrespondence_lifting setting depth).eval fuel w expr trivial)
    fun _ _ _ => Eq.symm

theorem evalAll_journaling (exprs : List Expr) : (journaling setting depth).evalAll fuel exprs =
    Draft.lift ((backend setting).evalAll fuel exprs) := by
  refine eq_lift_of_alike
    (fun w => (evalCorrespondence_lifting setting depth).evalAll fuel w exprs fun _ _ => trivial)
    fun w values others h => ?_
  rw [AllValues, show lifting.Values w = Eq from rfl, List.forall₂_eq_eq_eq] at h
  exact h.symm

theorem read_journaling (function : FunctionId) (args : List Value) :
    (journaling setting depth).read fuel function args =
      Draft.lift ((backend setting).read fuel function args) :=
  eq_lift_of_alike (fun _ => (evalCorrespondence_lifting setting depth).read fuel function
    (List.forall₂_same.mpr fun _ _ => rfl)) fun _ _ _ => Eq.symm

theorem selectArm_journaling (value : Value) (default : Option Stmt) (arms : List (Expr × Stmt)) :
    (journaling setting depth).selectArm ((journaling setting depth).eval fuel) value default
        arms =
      Draft.lift ((backend setting).selectArm ((backend setting).eval fuel) value
        default arms) :=
  eq_lift_of_alike (fun w => (evalCorrespondence_lifting setting depth).selectArm
    (fun w arm _ => (evalCorrespondence_lifting setting depth).eval fuel w arm.1 trivial)
    (show lifting.Values w value value from rfl) default) fun _ _ _ h => h.1.symm

end Evaluation

/-! ### Tracking -/

/-- A computation on machines and one on drafts, started with the layers `before` below the
innermost one, which end with the layers `after` below it. -/
structure Tracks (setting : Setting) (before after : List Layer) (run : Run α)
    (journaled : Computation Draft α) : Prop where
  restores : ∀ (draft : Draft) {result next}, draft.machine.pending.below = before →
    journaled draft = (.ok result, next) →
      draft.machine.Frames setting next.machine ∧ next.machine.pending.below = after
  unclean : ∀ (draft : Draft) {result next}, draft.machine.pending.below = before →
    journaled draft = (.ok result, next) → draft.clean = false → next.clean = false
  ok_iff : ∀ (machine : Machine) (entries : List Entry) (result : α) (next : Machine),
    machine.pending.below = before →
      (run machine = (.ok result, next) ↔
        ∃ more, journaled ⟨machine, entries, true⟩ = (.ok result, ⟨next, more, true⟩))

namespace Tracks

variable {setting : Setting} {before middle after : List Layer} {journaled : Computation Draft α}
  {run : Run α}

theorem bind {first : Run α} {rest : α → Run β} {further : α → Computation Draft β}
    (h : Tracks setting before middle first journaled)
    (hrest : ∀ value, Tracks setting middle after (rest value) (further value)) :
    Tracks setting before after (first >>= rest) (journaled >>= further) where
  restores draft _ _ hbefore hrun := by
    obtain ⟨value, between, hfirst, hsecond⟩ := exists_of_bind_eq_ok hrun
    obtain ⟨hframes, hmiddle⟩ := h.restores draft hbefore hfirst
    obtain ⟨hframes', hafter⟩ := (hrest value).restores between hmiddle hsecond
    exact ⟨hframes.trans hframes', hafter⟩
  unclean draft _ _ hbefore hrun hunclean := by
    obtain ⟨value, between, hfirst, hsecond⟩ := exists_of_bind_eq_ok hrun
    exact (hrest value).unclean between (h.restores draft hbefore hfirst).2 hsecond
      (h.unclean draft hbefore hfirst hunclean)
  ok_iff machine entries result next hbefore := by
    constructor
    · intro hrun
      obtain ⟨value, between, hfirst, hsecond⟩ := exists_of_bind_eq_ok hrun
      obtain ⟨more, hjournaled⟩ := (h.ok_iff machine entries value between hbefore).mp hfirst
      have hmiddle := (h.restores _ hbefore hjournaled).2
      obtain ⟨last, hfurther⟩ := ((hrest value).ok_iff between more result next hmiddle).mp hsecond
      exact ⟨last, (bind_of_eq_ok hjournaled).trans hfurther⟩
    · rintro ⟨last, hrun⟩
      obtain ⟨value, ⟨between, more, clean⟩, hfirst, hsecond⟩ :=
        exists_of_bind_eq_ok hrun
      have hmiddle := (h.restores _ hbefore hfirst).2
      cases clean with
      | false => cases (hrest value).unclean _ hmiddle hsecond rfl
      | true =>
        have hrun := (h.ok_iff machine entries value between hbefore).mpr ⟨more, hfirst⟩
        rw [bind_of_eq_ok hrun]
        exact ((hrest value).ok_iff between more result next hmiddle).mpr ⟨last, hsecond⟩

theorem congr_left {same : Run α} (h : Tracks setting before after run journaled)
    (heq : ∀ machine : Machine, machine.pending.below = before → same machine = run machine) :
    Tracks setting before after same journaled where
  restores := h.restores
  unclean := h.unclean
  ok_iff machine entries result next hbefore := by
    rw [heq machine hbefore]
    exact h.ok_iff machine entries result next hbefore

theorem congr {other : Computation Draft α} (h : Tracks setting before after run journaled)
    (heq : ∀ draft : Draft, draft.machine.pending.below = before → other draft = journaled draft) :
    Tracks setting before after run other where
  restores draft _ _ hbefore hrun := h.restores draft hbefore (heq draft hbefore ▸ hrun)
  unclean draft _ _ hbefore hrun := h.unclean draft hbefore (heq draft hbefore ▸ hrun)
  ok_iff machine entries result next hbefore := by
    rw [heq ⟨machine, entries, true⟩ hbefore]
    exact h.ok_iff machine entries result next hbefore

theorem lift (h : ∀ {machine result next}, machine.pending.below = before →
      run machine = (.ok result, next) →
        machine.Frames setting next ∧ next.pending.below = after) :
    Tracks setting before after run (Draft.lift run) where
  restores draft _ _ hbefore hrun := by
    obtain ⟨hresult, rfl⟩ := Prod.mk.inj hrun
    exact h hbefore (Prod.ext hresult rfl)
  unclean draft _ _ _ hrun hunclean := by
    obtain ⟨-, rfl⟩ := Prod.mk.inj hrun
    exact hunclean
  ok_iff machine entries result next _ := by
    constructor
    · intro hrun
      refine ⟨entries, ?_⟩
      unfold Draft.lift within
      rw [hrun]
    · rintro ⟨more, hrun⟩
      obtain ⟨hresult, hnext⟩ := Prod.mk.inj hrun
      exact Prod.ext hresult (Draft.mk.inj hnext).1

theorem observing (h : Run.OnlyObserves setting run) :
    Tracks setting before before run (Draft.lift run) := by
  refine lift fun {machine result next} hbefore hrun => ?_
  have hobserves := h machine
  rw [hrun] at hobserves
  exact ⟨hobserves.toFrames, by rw [hobserves.pending, hbefore]⟩

theorem pure (result : α) : Tracks setting before before (pure result) (pure result) :=
  observing (Run.onlyObserves_pure result)

theorem get {rest : Machine → Run α} {further : Draft → Computation Draft α}
    (h : ∀ draft, draft.machine.pending.below = before →
      Tracks setting before after (rest draft.machine) (further draft)) :
    Tracks setting before after (get >>= rest) (get >>= further) where
  restores draft _ _ hbefore hrun := (h draft hbefore).restores draft hbefore hrun
  unclean draft _ _ hbefore hrun := (h draft hbefore).unclean draft hbefore hrun
  ok_iff machine entries result next hbefore :=
    (h ⟨machine, entries, true⟩ hbefore).ok_iff machine entries result next hbefore

theorem pushed (h : ∀ top, Tracks setting (top :: before) after run journaled) :
    Tracks setting before after
      (fun machine => run { machine with pending := machine.pending.push })
      fun draft => journaled (draft.onMachine fun machine =>
        { machine with pending := machine.pending.push }) where
  restores draft _ _ hbefore hrun := by
    have hpushed : draft.machine.pending.push.below = draft.machine.pending.top :: before := by
      rw [UpdateSet.push, hbefore]
    obtain ⟨hframes, hafter⟩ := (h draft.machine.pending.top).restores _ hpushed hrun
    have hentered : draft.machine.Frames setting
        { draft.machine with pending := draft.machine.pending.push } :=
      frames_of_state rfl rfl (Nat.le_refl _)
    exact ⟨hentered.trans hframes, hafter⟩
  unclean draft _ _ hbefore hrun hunclean := by
    have hpushed : draft.machine.pending.push.below = draft.machine.pending.top :: before := by
      rw [UpdateSet.push, hbefore]
    exact (h draft.machine.pending.top).unclean _ hpushed hrun hunclean
  ok_iff machine entries result next hbefore := by
    have hpushed : machine.pending.push.below = machine.pending.top :: before := by
      rw [UpdateSet.push, hbefore]
    exact (h machine.pending.top).ok_iff _ entries result next hpushed

theorem inScope (h : Tracks setting before before run journaled) {enter : Machine → Machine}
    {leave : Machine → Machine → Machine} (henter : ∀ machine, (enter machine).pending =
      machine.pending) (hleave : ∀ caller machine, (leave caller machine).pending =
      machine.pending) (hframes : ∀ {machine next}, (enter machine).Frames setting next →
        machine.Frames setting (leave machine next)) :
    Tracks setting before before
      (fun machine => restoring (leave machine) run (enter machine))
      fun draft => restoring (Draft.onMachine (leave draft.machine)) journaled
        (draft.onMachine enter) where
  restores draft _ _ hbefore hrun := by
    obtain ⟨middle, hjournaled, rfl⟩ := restoring_eq_ok_iff.mp hrun
    have hentered : (draft.onMachine enter).machine.pending.below = before := by
      rw [Draft.onMachine, henter, hbefore]
    obtain ⟨hscope, hbelow⟩ := h.restores (draft.onMachine enter) hentered hjournaled
    exact ⟨hframes hscope, by rw [Draft.onMachine, hleave, hbelow]⟩
  unclean draft _ _ hbefore hrun hunclean := by
    obtain ⟨middle, hjournaled, rfl⟩ := restoring_eq_ok_iff.mp hrun
    have hentered : (draft.onMachine enter).machine.pending.below = before := by
      rw [Draft.onMachine, henter, hbefore]
    have hmiddle : middle.clean = false :=
      h.unclean (draft.onMachine enter) hentered hjournaled hunclean
    exact hmiddle
  ok_iff machine entries result next hbefore := by
    have hentered : (enter machine).pending.below = before := by rw [henter, hbefore]
    rw [restoring_eq_ok_iff]
    constructor
    · rintro ⟨middle, hrun, rfl⟩
      obtain ⟨more, hjournaled⟩ :=
        (h.ok_iff (enter machine) entries result middle hentered).mp hrun
      exact ⟨more, restoring_eq_ok_iff.mpr ⟨_, hjournaled, rfl⟩⟩
    · rintro ⟨more, hrun⟩
      obtain ⟨⟨middle, _, _⟩, hjournaled, hnext⟩ := restoring_eq_ok_iff.mp hrun
      cases hnext
      exact ⟨middle, (h.ok_iff (enter machine) entries result middle hentered).mpr
        ⟨_, hjournaled⟩, rfl⟩

theorem withLocal (h : Tracks setting before before run journaled) (depth : Nat) (name : String)
    (value : Value) :
    Tracks setting before before ((backend setting).withLocal name value run)
      ((journaling setting depth).withLocal name value journaled) :=
  h.inScope (fun _ => rfl) (fun _ _ => rfl) frames_withLocal

theorem withFrame (h : Tracks setting before before run journaled) (depth : Nat)
    (params : List String) (args : List Value) :
    Tracks setting before before ((backend setting).withFrame params args run)
      ((journaling setting depth).withFrame params args journaled) :=
  h.inScope (fun _ => rfl) (fun _ _ => rfl) frames_withFrame

end Tracks

/-! ### Blocks -/

namespace Draft

variable {setting : Setting} {depth : Nat} {draft : Draft} {pending : UpdateSet}
  {entries : List Entry}

theorem deliver_of_ok {top : Layer}
    (h : pending.top.replay draft.machine.heap entries = .ok top) :
    draft.deliver pending entries =
      { draft with
        machine := { draft.machine with pending := { pending with top } }
        entries := draft.entries ++ entries } := by
  unfold deliver
  rw [h]

theorem deliver_of_error {fault : Fault}
    (h : pending.top.replay draft.machine.heap entries = .error fault) :
    draft.deliver pending entries =
      ⟨{ draft.machine with pending }, draft.entries ++ entries, false⟩ := by
  unfold deliver
  rw [h]

theorem below_deliver : (draft.deliver pending entries).machine.pending.below = pending.below := by
  cases h : pending.top.replay draft.machine.heap entries with
  | ok top => rw [deliver_of_ok h]
  | error fault => rw [deliver_of_error h]

theorem frames_deliver : draft.machine.Frames setting (draft.deliver pending entries).machine := by
  cases h : pending.top.replay draft.machine.heap entries with
  | ok top =>
    rw [deliver_of_ok h]
    exact frames_of_state rfl rfl (Nat.le_refl _)
  | error fault =>
    rw [deliver_of_error h]
    exact frames_of_state rfl rfl (Nat.le_refl _)

theorem unclean_deliver (h : draft.clean = false) :
    (draft.deliver pending entries).clean = false := by
  cases hreplay : pending.top.replay draft.machine.heap entries with
  | ok top =>
    rw [deliver_of_ok hreplay]
    exact h
  | error fault => rw [deliver_of_error hreplay]

theorem tracks_deliver {before after : List Layer} {run : Run Unit} {target : Draft → UpdateSet}
    {given : Draft → List Entry}
    (hbelow : ∀ draft, draft.machine.pending.below = before → (target draft).below = after)
    (hrun : ∀ draft next, draft.machine.pending.below = before →
      (run draft.machine = (.ok (), next) ↔
        ∃ top, (target draft).top.replay draft.machine.heap (given draft) = .ok top ∧
          next = { draft.machine with pending := { target draft with top } })) :
    Tracks setting before after run
      fun draft => (.ok (), draft.deliver (target draft) (given draft)) where
  restores draft _ _ hbefore hdelivered := by
    cases hdelivered
    exact ⟨frames_deliver, below_deliver.trans (hbelow draft hbefore)⟩
  unclean draft _ _ _ hdelivered hunclean := by
    cases hdelivered
    exact unclean_deliver hunclean
  ok_iff machine entries _ next hbefore := by
    rw [hrun ⟨machine, entries, true⟩ next hbefore]
    constructor
    · rintro ⟨top, hreplay, rfl⟩
      exact ⟨_, by rw [deliver_of_ok hreplay]⟩
    · rintro ⟨more, hdelivered⟩
      cases hreplay : (target ⟨machine, entries, true⟩).top.replay machine.heap
          (given ⟨machine, entries, true⟩) with
      | ok top =>
        rw [deliver_of_ok hreplay] at hdelivered
        cases hdelivered
        exact ⟨top, rfl, rfl⟩
      | error fault =>
        rw [deliver_of_error hreplay] at hdelivered
        cases hdelivered

theorem tracks_write {before : List Layer} (function : FunctionId) (args : List Value)
    (value : Value) (span : Span) :
    Tracks setting before before (Run.write setting function args value span)
      (write setting depth function args value span) := by
  by_cases hdepth : before.length = depth
  · have hdelivers : Tracks setting before before (Run.write setting function args value span)
        fun draft => (.ok (), draft.deliver draft.machine.pending
          [⟨draft.machine.pending.inParallel,
            { function, key := draft.machine.heap.argKey setting.digest args, args, value, span
              layer := draft.machine.pending.depth }⟩]) := by
      refine tracks_deliver (fun _ hbefore => hbefore) fun draft next hbefore => ?_
      rw [Layer.replay_singleton]
      cases hrecord : draft.machine.pending.top.record draft.machine.heap
          draft.machine.pending.inParallel
          { function, key := draft.machine.heap.argKey setting.digest args, args, value, span
            layer := draft.machine.pending.depth } with
      | error fault =>
        have hadd : draft.machine.pending.add draft.machine.heap setting.digest function args
            value span = .error fault := by rw [UpdateSet.add, hrecord]; rfl
        rw [Run.write_of_add_error hadd]
        constructor
        · rintro ⟨⟩
        · rintro ⟨_, ⟨⟩, -⟩
      | ok top =>
        have hadd : draft.machine.pending.add draft.machine.heap setting.digest function args
            value span = .ok { draft.machine.pending with top } := by
          rw [UpdateSet.add, hrecord]
          rfl
        rw [Run.write_of_add_ok hadd]
        constructor
        · intro h
          cases h
          exact ⟨top, rfl, rfl⟩
        · rintro ⟨_, ⟨⟩, rfl⟩
          rfl
    refine hdelivers.congr fun draft hbefore => ?_
    have hpending : draft.machine.pending.depth = depth := by
      rw [UpdateSet.depth, hbefore, hdepth]
    unfold write
    dsimp only
    rw [if_pos hpending, hpending]
  · have hlifts : Tracks setting before before (Run.write setting function args value span)
        (lift (Run.write setting function args value span)) := by
      refine Tracks.lift fun {machine _ next} hbefore hrun => ?_
      have hkeeps : Run.LayersKept setting machine (Run.write setting function args value span
        machine) := Run.keepsLayers_write function args value span machine
      rw [hrun] at hkeeps
      exact ⟨hkeeps.frames, (hkeeps.layered _ rfl).below.trans hbefore⟩
    refine hlifts.congr fun draft hbefore => ?_
    unfold write
    dsimp only
    rw [if_neg (by rwa [UpdateSet.depth, hbefore])]

/-! The ways of leaving a layer differ in whether its updates have to agree with those below. -/

section Leaving

variable {merge : UpdateSet → ListHeap → Bool → UpdateSet × Option Fault}
  {agree : UpdateSet → Bool}

theorem tracks_leave_false {before : List Layer}
    (hmerge : ∀ set heap, merge set heap false = (set, none)) :
    Tracks setting before before (Run.leave merge false) (leave merge agree depth false) := by
  have hlifts : Tracks setting before before (Run.leave merge false)
      (lift (Run.leave merge false)) := by
    refine Tracks.lift fun {machine _ next} hbefore hrun => ?_
    rw [Run.leave_of_merge_ok (hmerge machine.pending machine.heap)] at hrun
    cases hrun
    exact ⟨.refl setting machine, hbefore⟩
  refine hlifts.congr fun draft _ => ?_
  unfold leave
  dsimp only
  rw [if_neg fun h => Bool.false_ne_true h.1, if_neg fun h => Bool.false_ne_true h.1]

theorem tracks_leave_true {parent : Layer} {below : List Layer} (hdepth : depth ≤ below.length)
    (hmerge : ∀ set heap, merge set heap true = set.mergeTop heap (agree set)) :
    Tracks setting (parent :: below) below (Run.leave merge true)
      (leave merge agree depth true) := by
  have hpending : ∀ {set : UpdateSet}, set.below = parent :: below →
      set.depth = below.length + 1 := fun h => by rw [UpdateSet.depth, h, List.length_cons]
  have hmerged : ∀ {machine : Machine}, machine.pending.below = parent :: below →
      merge machine.pending machine.heap true =
        (⟨(parent.recordAll machine.heap (agree machine.pending)
            (machine.pending.top.values.map (Update.movedTo below.length))).1, below⟩,
          (parent.recordAll machine.heap (agree machine.pending)
            (machine.pending.top.values.map (Update.movedTo below.length))).2) := by
    intro machine hbefore
    rw [hmerge, UpdateSet.mergeTop_of_below hbefore]
  by_cases hbase : below.length = depth
  · have hdelivers : Tracks setting (parent :: below) below (Run.leave merge true)
        fun draft => (.ok (), draft.deliver ⟨parent, below⟩
          ((draft.machine.pending.top.values.map (Update.movedTo below.length)).map
            (Entry.mk (agree draft.machine.pending)))) := by
      refine tracks_deliver (fun _ _ => rfl) fun draft next hbefore => ?_
      have hmerged := hmerged hbefore
      rw [Layer.replay_map]
      generalize Layer.recordAll _ _ parent _ = merged at hmerged ⊢
      obtain ⟨top, _ | fault⟩ := merged
      · rw [Run.leave_of_merge_ok hmerged]
        constructor
        · intro h
          cases h
          exact ⟨top, rfl, rfl⟩
        · rintro ⟨_, ⟨⟩, rfl⟩
          rfl
      · rw [Run.leave_of_merge_error hmerged]
        constructor
        · rintro ⟨⟩
        · rintro ⟨_, ⟨⟩, -⟩
    refine hdelivers.congr fun draft hbefore => ?_
    have hdraft := hpending hbefore
    unfold leave handOver
    dsimp only
    rw [if_neg (by omega), if_pos ⟨rfl, by omega⟩, hbefore, List.map_map]
    rfl
  · have hlifts : Tracks setting (parent :: below) below (Run.leave merge true)
        (lift (Run.leave merge true)) := by
      refine Tracks.lift fun {machine _ next} hbefore hrun => ?_
      have hmerged := hmerged hbefore
      generalize Layer.recordAll _ _ parent _ = merged at hmerged
      obtain ⟨top, _ | fault⟩ := merged
      · rw [Run.leave_of_merge_ok hmerged] at hrun
        cases hrun
        exact ⟨frames_of_state rfl rfl (Nat.le_refl _), rfl⟩
      · rw [Run.leave_of_merge_error hmerged] at hrun
        cases hrun
    refine hlifts.congr fun draft hbefore => ?_
    have hdraft := hpending hbefore
    unfold leave
    dsimp only
    rw [if_neg (by omega), if_neg (by omega)]

end Leaving

variable {parent : Layer} {below : List Layer}

theorem tracks_leaveBlock (hdepth : depth ≤ below.length) :
    Tracks setting (parent :: below) below ((backend setting).leave true)
      ((journaling setting depth).leave true) := by
  show Tracks setting _ _ (Run.leave UpdateSet.merge true)
    (leave UpdateSet.merge inParallel depth true)
  exact tracks_leave_true hdepth fun _ _ => rfl

theorem tracks_leaveRound (hdepth : depth ≤ below.length) :
    Tracks setting (parent :: below) below ((backend setting).leaveRound true)
      ((journaling setting depth).leaveRound true) := by
  show Tracks setting _ _ (Run.leave UpdateSet.mergeRound true)
    (leave UpdateSet.mergeRound (fun _ => false) depth true)
  exact tracks_leave_true hdepth fun _ _ => rfl

theorem tracks_stay : Tracks setting below below ((backend setting).leave false)
    ((journaling setting depth).leave false) := by
  show Tracks setting _ _ (Run.leave UpdateSet.merge false)
    (leave UpdateSet.merge inParallel depth false)
  exact tracks_leave_false fun _ _ => rfl

end Draft

/-! ### Statements -/

namespace Tracks

variable {setting : Setting} {below : List Layer} {depth : Nat} {parallel : Bool}

theorem raise {cause : Cause} (h : cause.kind ≠ .conflict) :
    Tracks setting below below ((backend setting).raise cause : Run α)
      ((journaling setting depth).raise cause) :=
  observing (Run.onlyObserves_raise h)

theorem outOfFuel : Tracks setting below below (throw .outOfFuel : Run α) (throw .outOfFuel) :=
  observing Run.onlyObserves_outOfFuel

theorem eval (fuel : Nat) (expr : Expr) :
    Tracks setting below below ((backend setting).eval fuel expr)
      ((journaling setting depth).eval fuel expr) := by
  rw [eval_journaling, ← Run.eval_eq]
  exact observing (Run.onlyObserves_eval fuel expr)

theorem evalAll (fuel : Nat) (exprs : List Expr) :
    Tracks setting below below ((backend setting).evalAll fuel exprs)
      ((journaling setting depth).evalAll fuel exprs) := by
  rw [evalAll_journaling, ← Run.evalAll_eq]
  exact observing (Run.onlyObserves_evalAll fuel exprs)

theorem read (fuel : Nat) (function : FunctionId) (args : List Value) :
    Tracks setting below below ((backend setting).read fuel function args)
      ((journaling setting depth).read fuel function args) := by
  rw [read_journaling, ← Run.read_eq]
  exact observing (Run.onlyObserves_read fuel function args)

theorem selectArm (fuel : Nat) (value : Value) (default : Option Stmt)
    (arms : List (Expr × Stmt)) :
    Tracks setting below below
      ((backend setting).selectArm ((backend setting).eval fuel) value default arms)
      ((journaling setting depth).selectArm ((journaling setting depth).eval fuel) value default
        arms) := by
  rw [selectArm_journaling, ← Run.selectArm_eq, ← Run.eval_eq]
  exact observing (Run.onlyObserves_selectArm fuel value default arms)

theorem enter_of_eq {machine : Machine} (h : machine.pending.inParallel = parallel) :
    (backend setting).enter parallel machine = (.ok false, machine) := by
  subst h
  cases hparallel : machine.pending.inParallel with
  | true =>
    show Run.onPending forkParallel machine = _
    rw [Run.onPending_apply, forkParallel, if_pos hparallel]
  | false =>
    show Run.onPending forkSequential machine = _
    rw [Run.onPending_apply, forkSequential, hparallel]
    rfl

theorem enter_of_ne {machine : Machine} (h : machine.pending.inParallel ≠ parallel) :
    (backend setting).enter parallel machine =
      (.ok true, { machine with pending := machine.pending.push }) := by
  cases parallel with
  | true =>
    show Run.onPending forkParallel machine = _
    rw [Run.onPending_apply, forkParallel, if_neg h]
  | false =>
    show Run.onPending forkSequential machine = _
    rw [Run.onPending_apply, forkSequential, if_pos (by simpa using h)]

theorem entering {rest : Bool → Run α} {further : Bool → Computation Draft α}
    (hsame : (below.length % 2 == 1) = parallel →
      Tracks setting below below (rest false) (further false))
    (hpushed : (below.length % 2 == 1) ≠ parallel →
      ∀ top, Tracks setting (top :: below) below (rest true) (further true)) :
    Tracks setting below below ((backend setting).enter parallel >>= rest)
      ((journaling setting depth).enter parallel >>= further) := by
  have hparallel : ∀ {machine : Machine}, machine.pending.below = below →
      machine.pending.inParallel = (below.length % 2 == 1) :=
    fun hbelow => by rw [inParallel, UpdateSet.depth, hbelow]
  by_cases h : (below.length % 2 == 1) = parallel
  · refine ((hsame h).congr fun draft hbelow => ?_).congr_left fun machine hbelow => ?_
    · refine bind_of_eq_ok ?_
      show Draft.lift _ draft = _
      rw [Draft.lift, within, enter_of_eq ((hparallel hbelow).trans h)]
    · exact bind_of_eq_ok (enter_of_eq ((hparallel hbelow).trans h))
  · refine ((pushed (hpushed h)).congr fun draft hbelow => ?_).congr_left fun machine hbelow => ?_
    · refine bind_of_eq_ok ?_
      show Draft.lift _ draft = _
      rw [Draft.lift, within, enter_of_ne (by rwa [hparallel hbelow])]
      rfl
    · exact bind_of_eq_ok (enter_of_ne (by rwa [hparallel hbelow]))

section Bodies

variable {body : Run Unit} {journaled : Computation Draft Unit}

theorem inBlock (hbelow : depth ≤ below.length) {parallel : Bool}
    (hbody : ∀ below : List Layer, depth ≤ below.length → (below.length % 2 == 1) = parallel →
      Tracks setting below below body journaled) :
    Tracks setting below below ((backend setting).inBlock parallel body)
      ((journaling setting depth).inBlock parallel journaled) := by
  refine entering (fun hsame => ?_) fun hdiffers top => ?_
  · exact (hbody below hbelow hsame).bind fun _ => Draft.tracks_stay
  · have hparity : ((top :: below).length % 2 == 1) = parallel := by
      rw [List.length_cons]
      cases parallel <;> simp at hdiffers ⊢ <;> omega
    refine (hbody (top :: below) ?_ hparity).bind fun _ => Draft.tracks_leaveBlock hbelow
    rw [List.length_cons]
    omega

theorem rounds (hbelow : depth < below.length) (hparity : below.length % 2 = 0)
    (hbody : ∀ below : List Layer, depth ≤ below.length → Tracks setting below below body journaled)
    (fuel : Nat) :
    Tracks setting below below ((backend setting).rounds body fuel)
      ((journaling setting depth).rounds journaled fuel) := by
  induction fuel with
  | zero => exact outOfFuel
  | succ fuel ih =>
    refine entering (fun hsame => ?_) fun _ top => ?_
    · simp [hparity] at hsame
    refine (hbody (top :: below) (by rw [List.length_cons]; omega)).bind fun _ =>
      get fun draft hdraft => ?_
    have hnothing : (journaling setting depth).recordsNothing draft =
        (backend setting).recordsNothing draft.machine := by
      show (draft.machine.pending.depth != depth && _) = _
      have hne : draft.machine.pending.depth ≠ depth := by
        rw [UpdateSet.depth, hdraft, List.length_cons]
        omega
      rw [bne_iff_ne.mpr hne, Bool.true_and]
    dsimp only
    rw [hnothing]
    refine bind (Draft.tracks_leaveRound (Nat.le_of_lt hbelow)) fun _ => ?_
    split
    · exact pure ()
    · exact ih

theorem forEach (hbody : Tracks setting below below body journaled) (name : String)
    (values : List Value) :
    Tracks setting below below ((backend setting).forEach name body values)
      ((journaling setting depth).forEach name journaled values) := by
  induction values with
  | nil => exact pure ()
  | cons value rest ih => exact (hbody.withLocal depth name value).bind fun _ => ih

end Bodies

section Statements

variable {run : Stmt → Run Unit} {journaled : Stmt → Computation Draft Unit}

theorem sequence (hrun : ∀ stmt, Tracks setting below below (run stmt) (journaled stmt))
    (stmts : List Stmt) :
    Tracks setting below below (Backend.sequence run stmts)
      (Backend.sequence journaled stmts) := by
  induction stmts with
  | nil => exact pure ()
  | cons stmt rest ih => exact (hrun stmt).bind fun _ => ih

theorem optionally (hrun : ∀ stmt, Tracks setting below below (run stmt) (journaled stmt))
    (stmt : Option Stmt) :
    Tracks setting below below (Backend.optionally run stmt)
      (Backend.optionally journaled stmt) := by
  cases stmt with
  | none => exact pure ()
  | some stmt => exact hrun stmt

theorem callRule (hrun : ∀ stmt, Tracks setting below below (run stmt) (journaled stmt))
    (rule : RuleId) (args : List Value) :
    Tracks setting below below ((backend setting).callRule run rule args)
      ((journaling setting depth).callRule journaled rule args) := by
  unfold Backend.callRule
  rw [show (journaling setting depth).spec = (backend setting).spec from rfl]
  dsimp only
  split
  · split
    · exact pure ()
    · exact (hrun _).withFrame depth _ args
  · exact raise nofun

theorem execAction (hodd : depth % 2 = 1) (hbelow : depth ≤ below.length)
    (hrun : ∀ below : List Layer, depth ≤ below.length → ∀ stmt,
      Tracks setting below below (run stmt) (journaled stmt))
    (fuel : Nat) (span : Span) (action : Action) :
    Tracks setting below below ((backend setting).execAction fuel run span action)
      ((journaling setting depth).execAction fuel journaled span action) := by
  cases action with
  | skip => exact pure ()
  | update function args value =>
    exact (evalAll fuel args).bind fun args => (eval fuel value).bind fun value =>
      Draft.tracks_write function args value span
  | par body =>
    exact inBlock hbelow fun below hbelow _ => sequence (hrun below hbelow) body
  | seq body =>
    exact inBlock hbelow fun below hbelow _ => sequence (hrun below hbelow) body
  | ifThen cond yes no =>
    refine (eval fuel cond).bind fun value => ?_
    refine (observing (Run.onlyObserves_decide value)).bind fun holds => ?_
    cases holds with
    | true => exact hrun below hbelow yes
    | false => exact optionally (hrun below hbelow) no
  | cases scrutinee arms default =>
    exact (eval fuel scrutinee).bind fun value => (selectArm fuel value default arms).bind
      fun selected => optionally (hrun below hbelow) selected
  | letIn name value body =>
    exact (eval fuel value).bind fun value => (hrun below hbelow body).withLocal depth name value
  | forAll name domain body =>
    refine (eval fuel domain).bind fun domain => ?_
    refine (observing (Run.onlyObserves_domainElements domain)).bind fun elements => ?_
    exact inBlock hbelow fun below hbelow _ => forEach (hrun below hbelow body) name elements
  | iterate body =>
    refine inBlock hbelow fun below hbelow hparity => ?_
    have heven : below.length % 2 = 0 := by simpa using hparity
    exact rounds (by omega) heven (fun below hbelow => hrun below hbelow body) fuel
  | call rule args =>
    exact (evalAll fuel args).bind fun args => callRule (hrun below hbelow) rule args
  | callValue target args =>
    exact (eval fuel target).bind fun target =>
      (observing (Run.onlyObserves_ruleOf target)).bind fun rule =>
        (evalAll fuel args).bind fun args => callRule (hrun below hbelow) rule args
  | print values =>
    refine (evalAll fuel values).bind fun values => lift fun {machine _ next} hbelow hrun => ?_
    cases hrun
    exact ⟨frames_of_state rfl rfl (Nat.le_refl _), hbelow⟩
  | assert cond =>
    refine (eval fuel cond).bind fun value => ?_
    refine (observing (Run.onlyObserves_decide value)).bind fun holds => ?_
    cases holds with
    | true => exact pure ()
    | false => exact raise nofun
  | abort message =>
    cases message with
    | none => exact raise nofun
    | some message =>
      refine (eval fuel message).bind fun value => get fun draft _ => ?_
      exact raise (show (Cause.aborted (draft.machine.text setting value)).kind ≠ _ from nofun)
  | push value target args =>
    exact (eval fuel value).bind fun value => (evalAll fuel args).bind fun args =>
      (read fuel target args).bind fun current =>
        (observing (Run.onlyObserves_pushed value current)).bind fun pushed =>
          Draft.tracks_write target args pushed span
  | pop source args target =>
    refine (evalAll fuel args).bind fun args => (read fuel source args).bind fun current => ?_
    refine (observing (Run.onlyObserves_popped current)).bind fun result => ?_
    obtain ⟨first, rest⟩ := result
    refine (Draft.tracks_write target [] first span).bind fun _ => ?_
    cases rest with
    | none => exact pure ()
    | some rest => exact Draft.tracks_write source args rest span

end Statements

theorem exec (hodd : depth % 2 = 1) (fuel : Nat) (stmt : Stmt) (hbelow : depth ≤ below.length) :
    Tracks setting below below ((backend setting).exec fuel stmt)
      ((journaling setting depth).exec fuel stmt) := by
  induction fuel generalizing stmt below with
  | zero => exact outOfFuel
  | succ fuel ih =>
    have hspan : Tracks setting below below
        (modify ((backend setting).setSpan stmt.span) : Run PUnit)
        (modify ((journaling setting depth).setSpan stmt.span)) := by
      refine lift fun {machine _ next} hbelow hrun => ?_
      cases hrun
      exact ⟨frames_of_state rfl rfl (Nat.le_refl _), hbelow⟩
    exact hspan.bind fun _ =>
      execAction hodd hbelow (fun below hbelow stmt => ih stmt hbelow) fuel stmt.span stmt.action

end Tracks

end AbstractStateMachine
