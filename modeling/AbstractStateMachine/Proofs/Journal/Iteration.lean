import AbstractStateMachine.Proofs.Journal.Commutation

/-!
# Iterations reach a fixed point

An iteration executes its body in rounds. Each round has a parallel layer of its own, on top of the
layer with what the rounds before have written, and its updates replace those they meet there. The
first round without an update is the last one. Executing the body once more then gives no update
either: the body reads what it read in the last round, so its journal is empty again.
-/

namespace AbstractStateMachine

open ListHeap

/-! ### Replacing updates of a layer -/

namespace Layer

variable {heap : ListHeap} {layer newer result : Layer} {depth : Nat} {updates : List Update}

/-- The layer at the given depth, with the updates of a newer one in place of its own. -/
def overriddenBy (depth : Nat) (layer newer : Layer) : Layer :=
  newer.values.foldl (fun layer update => layer.insert update.location (update.movedTo depth)) layer

theorem get?_foldl_insert_of_notMem {key : LocationKey}
    (h : key ∉ updates.map Update.location) :
    (updates.foldl (fun layer update => layer.insert update.location (update.movedTo depth))
      layer).get? key = layer.get? key := by
  induction updates generalizing layer with
  | nil => rfl
  | cons update rest ih =>
    obtain ⟨hne, hrest⟩ := List.ne_and_not_mem_of_not_mem_cons h
    rw [List.foldl_cons, ih hrest, OrderedMap.get?_insert_of_ne _ _ hne]

theorem get?_foldl_insert_of_mem (hnodup : (updates.map Update.location).Nodup) {update : Update}
    (h : update ∈ updates) :
    (updates.foldl (fun layer update => layer.insert update.location (update.movedTo depth))
      layer).get? update.location = some (update.movedTo depth) := by
  induction updates generalizing layer with
  | nil => cases h
  | cons first rest ih =>
    obtain ⟨hfirst, hrest⟩ := List.nodup_cons.mp hnodup
    rw [List.foldl_cons]
    rcases List.mem_cons.mp h with rfl | hmem
    · rw [get?_foldl_insert_of_notMem hfirst, OrderedMap.get?_insert_self]
    · exact ih hrest hmem

theorem get?_overriddenBy (h : newer.Indexed) (key : LocationKey) :
    (layer.overriddenBy depth newer).get? key =
      ((newer.get? key).map (Update.movedTo depth)).or (layer.get? key) := by
  cases hfound : newer.get? key with
  | none =>
    refine get?_foldl_insert_of_notMem ?_
    rw [h.map_location]
    exact OrderedMap.get?_eq_none_iff.mp hfound
  | some update =>
    obtain rfl := h.location key update hfound
    refine get?_foldl_insert_of_mem ?_ (OrderedMap.mem_values_of_get? hfound)
    rw [h.map_location]
    exact h.nodup

theorem recordAll_override (hnodup : (updates.map Update.location).Nodup)
    (h : layer.recordAll heap false (updates.map (Update.movedTo depth)) = (result, none)) :
    result = updates.foldl
        (fun layer update => layer.insert update.location (update.movedTo depth)) layer ∧
      ∀ update ∈ updates, ∀ existing, layer.get? update.location = some existing →
        heap.sameArgs existing.args update.args = true := by
  induction updates generalizing layer with
  | nil =>
    cases h
    exact ⟨rfl, nofun⟩
  | cons update rest ih =>
    obtain ⟨hnew, hrest⟩ := List.nodup_cons.mp hnodup
    rw [List.map_cons, recordAll] at h
    cases hrecord : layer.record heap false (update.movedTo depth) with
    | error fault =>
      rw [hrecord] at h
      cases h
    | ok next =>
      rw [hrecord] at h
      obtain ⟨rfl, hargs⟩ := override_cases hrecord
      obtain ⟨hresult, hlater⟩ := ih hrest h
      refine ⟨hresult, List.forall_mem_cons.mpr ⟨hargs, fun other hother existing hfound => ?_⟩⟩
      refine hlater other hother existing ?_
      rw [OrderedMap.get?_insert_of_ne, hfound]
      intro heq
      exact hnew (List.mem_map.mpr ⟨other, hother, heq⟩)

end Layer

namespace Machine

variable {setting : Setting} {fuel : Nat} {body : Stmt} {machine start executed next : Machine}
  {rounds : List Machine}

/-! ### Rounds -/

def inNewLayer (machine : Machine) : Machine := { machine with pending := machine.pending.push }

/-- What a round leaves behind, given the machine that it started from and the one that has executed
the body: what it has recorded replaces what was in the layer below. -/
def afterRound (start executed : Machine) : Machine :=
  { executed with pending := { start.pending with
      top := start.pending.top.overriddenBy start.pending.depth executed.pending.top } }

def afterRounds (machine : Machine) (rounds : List Machine) : Machine :=
  rounds.foldl afterRound machine

/-- A round executes the body in a layer of its own. Whatever it has recorded there, it reads what
it found at the start, and what it replaces is for the same locations. -/
structure Round (setting : Setting) (fuel : Nat) (body : Stmt) (start executed : Machine) :
    Prop where
  exec : Run.exec setting fuel body start.inNewLayer = (.ok (), executed)
  below : executed.pending.below = start.pending.layers
  state : executed.state = start.state
  indexed : executed.pending.top.Indexed
  reads : ∀ (top : Layer) heap function key args,
    UpdateSet.lookup ⟨top, start.pending.layers⟩ heap function key args =
      start.pending.lookup heap function key args
  sameArgs : ∀ key existing update, start.pending.top.get? key = some existing →
    executed.pending.top.get? key = some update →
      executed.heap.sameArgs existing.args update.args = true

/-- What rounds have left behind: in the innermost layer the newest update of each location, the
rest as it was. -/
structure LeftBy (machine : Machine) (rounds : List Machine) (left : Machine) : Prop where
  top : ∀ key, left.pending.top.get? key =
    ((rounds.reverse.findSome? fun executed => executed.pending.top.get? key).map
      (Update.movedTo machine.pending.depth)).or (machine.pending.top.get? key)
  below : left.pending.below = machine.pending.below
  state : left.state = machine.state

/-- Rounds, each with the machine that has executed the body, of which only the last one has
recorded nothing. -/
structure Iterates (setting : Setting) (fuel : Nat) (body : Stmt) (machine : Machine)
    (rounds : List Machine) (next : Machine) : Prop where
  nonempty : rounds ≠ []
  result : next = machine.afterRounds rounds
  left : ∀ earlier later, rounds = earlier ++ later →
    machine.LeftBy earlier (machine.afterRounds earlier)
  round : ∀ earlier executed later, rounds = earlier ++ executed :: later →
    (machine.afterRounds earlier).Round setting fuel body executed
  empty_iff : ∀ earlier executed later, rounds = earlier ++ executed :: later →
    (executed.pending.top = .empty ↔ later = [])

/-- Executing the body in a layer of its own succeeds and records nothing. -/
def IsFixedPoint (setting : Setting) (fuel : Nat) (body : Stmt) (machine : Machine) : Prop :=
  ∃ again, Run.exec setting fuel body machine.inNewLayer = (.ok (), again) ∧
    again.pending = machine.inNewLayer.pending ∧ again.state = machine.state

theorem leftBy_nil (machine : Machine) : machine.LeftBy [] machine := ⟨fun _ => rfl, rfl, rfl⟩

theorem Round.leftBy (hround : machine.Round setting fuel body executed) {left : Machine}
    (h : (machine.afterRound executed).LeftBy rounds left) :
    machine.LeftBy (executed :: rounds) left where
  top key := by
    rw [h.top key, List.reverse_cons, List.findSome?_append]
    show ((List.findSome? _ _).map (Update.movedTo machine.pending.depth)).or
      ((machine.pending.top.overriddenBy machine.pending.depth executed.pending.top).get? key) = _
    rw [Layer.get?_overriddenBy hround.indexed, Option.map_or, Option.or_assoc]
    congr 2
    rw [List.findSome?_singleton]
  below := h.below
  state := h.state.trans hround.state

theorem split_singleton {α : Type} {only other : α} {earlier later : List α}
    (h : [only] = earlier ++ other :: later) : earlier = [] ∧ only = other ∧ later = [] := by
  cases earlier with
  | nil =>
    cases h
    exact ⟨rfl, rfl, rfl⟩
  | cons _ rest => simp at h

theorem Round.iterates_of_empty (h : machine.Round setting fuel body executed)
    (hempty : executed.pending.top = .empty) :
    machine.Iterates setting fuel body [executed] (machine.afterRound executed) where
  nonempty := nofun
  result := rfl
  left earlier later hrounds := by
    obtain ⟨rfl, -⟩ | ⟨rest, rfl, hrest⟩ := List.cons_eq_append_iff.mp hrounds
    · exact machine.leftBy_nil
    · obtain ⟨rfl, -⟩ := List.nil_eq_append_iff.mp hrest
      exact h.leftBy (leftBy_nil _)
  round earlier other later hrounds := by
    obtain ⟨rfl, rfl, rfl⟩ := split_singleton hrounds
    exact h
  empty_iff earlier other later hrounds := by
    obtain ⟨rfl, rfl, rfl⟩ := split_singleton hrounds
    exact iff_of_true hempty rfl

theorem Round.iterates_cons (h : machine.Round setting fuel body executed)
    (hupdates : executed.pending.top ≠ .empty)
    (hrest : (machine.afterRound executed).Iterates setting fuel body rounds next) :
    machine.Iterates setting fuel body (executed :: rounds) next where
  nonempty := nofun
  result := hrest.result
  left earlier later hrounds := by
    obtain ⟨rfl, -⟩ | ⟨rest, rfl, hsplit⟩ := List.cons_eq_append_iff.mp hrounds
    · exact machine.leftBy_nil
    · exact h.leftBy (hrest.left rest later hsplit)
  round earlier other later hrounds := by
    obtain ⟨rfl, hsplit⟩ | ⟨rest, rfl, hsplit⟩ := List.cons_eq_append_iff.mp hrounds
    · cases hsplit
      exact h
    · exact hrest.round rest other later hsplit
  empty_iff earlier other later hrounds := by
    obtain ⟨rfl, hsplit⟩ | ⟨rest, rfl, hsplit⟩ := List.cons_eq_append_iff.mp hrounds
    · cases hsplit
      exact iff_of_false hupdates hrest.nonempty
    · exact hrest.empty_iff rest other later hsplit

/-! ### Executing rounds -/

theorem Ready.inNewLayer (h : machine.Ready setting) : machine.inNewLayer.Ready setting where
  consistent := { h.consistent with pending := h.consistent.pending }
  indexed := UpdateSet.forall_layers_push (Layer.lasting_indexed machine.heap) h.indexed

theorem leave_mergeRound_eq_ok (hbelow : executed.pending.below = start.pending.layers)
    (hindexed : executed.pending.top.Indexed)
    (hleave : Run.leave UpdateSet.mergeRound true executed = (.ok (), next)) :
    next = start.afterRound executed ∧
      ∀ key existing update, start.pending.top.get? key = some existing →
        executed.pending.top.get? key = some update →
          executed.heap.sameArgs existing.args update.args = true := by
  rcases hmerge : executed.pending.mergeRound executed.heap true with ⟨merged, _ | fault⟩
  · rw [Run.leave_of_merge_ok hmerge] at hleave
    cases hleave
    rw [UpdateSet.mergeRound, if_pos rfl, UpdateSet.mergeTop_of_below hbelow] at hmerge
    obtain ⟨rfl, hfault⟩ := Prod.mk.inj hmerge
    have hnodup : (executed.pending.top.values.map Update.location).Nodup := by
      rw [hindexed.map_location]
      exact hindexed.nodup
    obtain ⟨htop, hargs⟩ := Layer.recordAll_override hnodup (Prod.ext rfl hfault)
    refine ⟨?_, fun key existing update hexisting hupdate => ?_⟩
    · unfold afterRound
      exact congrArg (fun top => { executed with pending := ⟨top, start.pending.below⟩ }) htop
    · obtain rfl := hindexed.location key update hupdate
      exact hargs update (OrderedMap.mem_values_of_get? hupdate) existing hexisting
  · rw [Run.leave_of_merge_error hmerge] at hleave
    cases hleave

theorem lookup_of_below (hsequential : machine.pending.inParallel = false) (top : Layer)
    (heap : ListHeap) (function : FunctionId) (key : ArgKey) (args : List Value) :
    UpdateSet.lookup ⟨top, machine.pending.layers⟩ heap function key args =
      machine.pending.lookup heap function key args := by
  have hparallel : UpdateSet.inParallel ⟨top, machine.pending.layers⟩ = true := by
    show machine.pending.push.inParallel = true
    rw [UpdateSet.inParallel_push, hsequential, Bool.not_false]
  exact UpdateSet.lookup_of_inParallel hparallel

theorem Ready.of_leaveRound (h : machine.Ready setting) {forked : Bool}
    {outcome : Except Stop Unit}
    (hleave : Run.leave UpdateSet.mergeRound forked machine = (outcome, next)) :
    next.Ready setting := by
  have hcontinues : Continues (.strict setting.symbolic) machine next := by
    have hnext := Run.snd_leave UpdateSet.mergeRound forked machine
    rw [hleave] at hnext
    subst hnext
    exact h.consistent.continues_pending fun _ => UpdateSet.mem_held_mergeRound
  obtain ⟨_, -, hindexed, -⟩ := (Run.maintained_indexing setting).leaveRound () forked machine
    h.indexed
  change ∀ layer ∈ (Run.leave UpdateSet.mergeRound forked machine).2.pending.layers, _ at hindexed
  rw [hleave] at hindexed
  exact ⟨hcontinues.upholds, hindexed⟩

theorem exists_round (hconcrete : setting.symbolic = false) (hstart : start.Ready setting)
    (hsequential : start.pending.inParallel = false) {count : Nat}
    (hrun : Run.rounds (Run.exec setting fuel body) (count + 1) start = (.ok (), next)) :
    ∃ executed, start.Round setting fuel body executed ∧
      (start.afterRound executed).Ready setting ∧
      if executed.pending.topIsEmpty then next = start.afterRound executed
      else Run.rounds (Run.exec setting fuel body) count (start.afterRound executed) =
        (.ok (), next) := by
  obtain ⟨forked, entered, henter, hrun⟩ := Run.exists_of_bind_eq_ok hrun
  rw [Run.onPending_apply, UpdateSet.forkParallel_of_sequential hsequential] at henter
  cases henter
  obtain ⟨⟨⟩, executed, hexec, hrun⟩ := Run.exists_of_bind_eq_ok hrun
  rw [Run.get_bind_apply] at hrun
  obtain ⟨⟨⟩, merged, hleave, hrun⟩ := Run.exists_of_bind_eq_ok hrun
  change Run.exec setting fuel body start.inNewLayer = _ at hexec
  have hready : executed.Ready setting := by
    refine ⟨hstart.inNewLayer.consistent_of_exec hexec, ?_⟩
    have hindexed : ∀ layer ∈ (Run.exec setting fuel body start.inNewLayer).2.pending.layers,
        layer.Indexed := indexed_exec hstart.inNewLayer.indexed fuel body
    rwa [hexec] at hindexed
  have hbelow : executed.pending.below = start.pending.layers := (Run.layered_exec hexec).below
  have hindexed := hready.indexed _ List.mem_cons_self
  obtain ⟨rfl, hargs⟩ := leave_mergeRound_eq_ok hbelow hindexed hleave
  refine ⟨executed, ⟨hexec, hbelow, ?_, hindexed, lookup_of_below hsequential, hargs⟩, ?_, ?_⟩
  · have hkept : Run.LayersKept setting start.inNewLayer _ := Run.keepsLayers_exec fuel body _
    rw [hexec] at hkept
    exact hkept.frames.state_of_concrete hconcrete
  · exact hready.of_leaveRound hleave
  · cases hdone : executed.pending.topIsEmpty <;> rw [hdone] at hrun
    · exact hrun
    · cases hrun
      rfl

/-! ### The last round once more -/

theorem keys_subset_replay {heap : ListHeap} {layer result : Layer} {entries : List Entry}
    (h : layer.replay heap entries = .ok result) : layer.keys ⊆ result.keys := by
  induction entries generalizing layer with
  | nil =>
    cases h
    exact List.Subset.refl _
  | cons entry rest ih =>
    obtain ⟨next, hrecord, hrest⟩ := Layer.exists_of_replay_cons h
    exact fun key hkey => ih hrest ((Layer.mem_keys_record hrecord).mpr (.inr hkey))

theorem eq_nil_of_replay {heap : ListHeap} {layer : Layer} {entries : List Entry}
    (h : layer.replay heap entries = .ok .empty) : entries = [] := by
  cases entries with
  | nil => rfl
  | cons entry rest =>
    obtain ⟨next, hrecord, hrest⟩ := Layer.exists_of_replay_cons h
    cases keys_subset_replay hrest ((Layer.mem_keys_record hrecord).mpr (.inl rfl))

theorem Round.inNewLayer_afterRound (h : start.Round setting fuel body executed)
    (hempty : executed.pending.top = .empty) :
    (start.afterRound executed).inNewLayer = executed := by
  obtain ⟨_, _, _, ⟨top, below⟩, _⟩ := executed
  obtain rfl : top = .empty := hempty
  obtain rfl : below = start.pending.layers := h.below
  rfl

/-- After a round without updates the body finds what it found before, so its journal is empty
again. -/
theorem Round.isFixedPoint (hconcrete : setting.symbolic = false) (hstart : start.Ready setting)
    (hsequential : start.pending.inParallel = false) (h : start.Round setting fuel body executed)
    (hempty : executed.pending.top = .empty) :
    (start.afterRound executed).IsFixedPoint setting fuel body := by
  have hodd : start.inNewLayer.pending.depth % 2 = 1 := by
    have hparallel : start.pending.push.inParallel = true := by
      rw [UpdateSet.inParallel_push, hsequential, Bool.not_false]
    exact eq_of_beq hparallel
  have hblock := hstart.inNewLayer.consistent.inBlock hconcrete
  have hexec := h.exec
  rw [Run.exec_eq] at hexec
  obtain ⟨entries, hjournaled⟩ :=
    ((Tracks.exec hodd fuel body le_rfl).ok_iff start.inNewLayer [] () executed rfl).mp hexec
  have haccounts := hblock.accounts hconcrete hodd hjournaled
  obtain ⟨hexecuted, hreplay⟩ := haccounts.clean rfl
  obtain rfl : entries = [] := eq_nil_of_replay (hempty ▸ hreplay)
  obtain ⟨_, hmatches⟩ := hblock.same.grow (.refl hblock.wellFormed) haccounts.grows
  obtain ⟨⟨again, entries, clean⟩, _, hagain, -, -, -, -, hentries⟩ :=
    hmatches.exec hconcrete hodd hjournaled
  cases hentries
  have haccounts' := hexecuted.accounts hconcrete hodd hagain
  unfold IsFixedPoint
  rw [h.inNewLayer_afterRound hempty]
  cases clean with
  | false =>
    obtain ⟨fault, hfault⟩ := haccounts'.unclean rfl
    cases hfault
  | true =>
    obtain ⟨-, htop⟩ := haccounts'.clean rfl
    refine ⟨again, ?_, ?_, haccounts'.grows.state⟩
    · rw [Run.exec_eq]
      exact ((Tracks.exec hodd fuel body hexecuted.same.depth.ge).ok_iff executed [] () again
        rfl).mpr ⟨[], hagain⟩
    · exact congrArg₂ UpdateSet.mk (Except.ok.inj htop).symm haccounts'.grows.below

/-! ### Iterations -/

theorem exists_iterates (hconcrete : setting.symbolic = false) {count : Nat}
    (hstart : start.Ready setting) (hsequential : start.pending.inParallel = false)
    (hrun : Run.rounds (Run.exec setting fuel body) count start = (.ok (), next)) :
    ∃ rounds, start.Iterates setting fuel body rounds next ∧
      next.IsFixedPoint setting fuel body := by
  induction count generalizing start with
  | zero => cases hrun
  | succ count ih =>
    obtain ⟨executed, hround, hready, hrest⟩ :=
      exists_round hconcrete hstart hsequential hrun
    split at hrest
    · next hdone =>
        have hempty : executed.pending.top = .empty :=
          congrArg OrderedMap.mk (List.isEmpty_iff.mp hdone)
        subst hrest
        exact ⟨[executed], hround.iterates_of_empty hempty,
          hround.isFixedPoint hconcrete hstart hsequential hempty⟩
    · next hmore =>
        obtain ⟨rounds, hrounds, hfixed⟩ := ih hready hsequential hrest
        refine ⟨executed :: rounds, hround.iterates_cons ?_ hrounds, hfixed⟩
        intro hempty
        exact hmore (by rw [UpdateSet.topIsEmpty, hempty]; rfl)

theorem rounds_of_exec_iterate {span : Span} (hsequential : machine.pending.inParallel = false)
    (hexec : Run.exec setting (fuel + 1) ⟨span, .iterate body⟩ machine = (.ok (), next)) :
    Run.rounds (Run.exec setting fuel body) fuel machine = (.ok (), next) := by
  change Run.inBlock UpdateSet.forkSequential (Run.rounds (Run.exec setting fuel body) fuel)
    { machine with span } = _ at hexec
  obtain ⟨forked, entered, henter, hexec⟩ := Run.exists_of_bind_eq_ok hexec
  obtain ⟨⟨⟩, last, hrounds, hleave⟩ := Run.exists_of_bind_eq_ok hexec
  have hfork : machine.pending.forkSequential = (false, machine.pending) := by
    rw [UpdateSet.forkSequential, hsequential]
    rfl
  rw [Run.onPending_apply] at henter
  dsimp only at henter
  rw [hfork] at henter
  cases henter
  cases hleave
  -- the body sets its own span
  cases fuel with
  | zero => cases hrounds
  | succ fuel => exact hrounds

/-- **Iterations reach a fixed point.** An iteration in a sequential layer that succeeds has gone
through rounds, of which exactly the last one has recorded nothing and each one has started from
what the earlier ones have left, and it ends with what all of them have left. Executing the body
once more succeeds and records nothing. -/
theorem exists_rounds_of_exec_iterate (hconcrete : setting.symbolic = false)
    (hmachine : machine.Ready setting) (hsequential : machine.pending.inParallel = false)
    {span : Span}
    (hexec : Run.exec setting (fuel + 1) ⟨span, .iterate body⟩ machine = (.ok (), next)) :
    ∃ rounds, machine.Iterates setting fuel body rounds next ∧
      next.IsFixedPoint setting fuel body :=
  exists_iterates hconcrete hmachine hsequential (rounds_of_exec_iterate hsequential hexec)

/-- While `x` is less than `3`, counts it up and keeps its last value in `y`. -/
def countUp : Stmt :=
  { action := .ifThen (.binary .lt (.read ⟨1⟩ []) (.int 3))
      { action := .par [{ action := .update ⟨2⟩ [] (.read ⟨1⟩ []) },
        { action := .seq [{ action := .update ⟨1⟩ [] (.binary .add (.read ⟨1⟩ []) (.int 1)) }] }] }
      none }

/-- When the iteration starts, an update of `x` is pending. -/
theorem exists_rounds_of_exec_iterate_countUp :
    let start := afterCalls threeFunctions [.init 5, .exec 5 { action := .update ⟨1⟩ [] (.int 1) }]
    start.pending.inParallel = false ∧
      ∃ next, Run.exec threeFunctions (10 + 1) ⟨{}, .iterate countUp⟩ start = (.ok (), next) ∧
        ∃ rounds, start.Iterates threeFunctions 10 countUp rounds next ∧
          next.IsFixedPoint threeFunctions 10 countUp := by
  intro start
  have hsequential : start.pending.inParallel = false := by decide +kernel
  have hok : (Run.exec threeFunctions (10 + 1) ⟨{}, .iterate countUp⟩ start).1 = .ok () := by
    decide +kernel
  have hready : start.Ready threeFunctions := ready_afterCalls rfl _
  clear_value start
  rcases hexec : Run.exec threeFunctions (10 + 1) ⟨{}, .iterate countUp⟩ start with ⟨result, next⟩
  rw [hexec] at hok
  subst hok
  exact ⟨hsequential, next, rfl, exists_rounds_of_exec_iterate rfl hready hsequential hexec⟩

end Machine

end AbstractStateMachine
