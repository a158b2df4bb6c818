import AbstractStateMachine.Proofs.Machine.Grounding

/-!
# Isolation of parallel siblings

A lookup passes over the innermost layer of a parallel block, and a statement that succeeds gives
back the layers below. So no statement of such a block sees what those before it have written, and
neither does a round of a `forall`: each starts with the view that the block was entered with.
-/

namespace AbstractStateMachine

open ListHeap Standard UpdateSet

namespace Machine

/-- A statement cannot tell the two machines apart: it reads the same at every location, sees the
same bindings, and finds the same elements in every list. -/
structure SameView (setting : Setting) (machine next : Machine) : Prop where
  reads : ∀ function args, machine.heap.Supports args →
    (Run.readStored setting function args next).1 = (Run.readStored setting function args machine).1
  lists : ∀ list, machine.heap.Live list →
    next.heap.Live list ∧ next.heap.toList list = machine.heap.toList list
  locals : next.locals = machine.locals
  frameBase : next.frameBase = machine.frameBase

end Machine

namespace Run

open Machine

variable {setting : Setting} {machine middle next : Machine}

theorem readStored_apply {function : FunctionId}
    (hknown : (setting.symbolic && (setting.spec.function function).symbolic) = false)
    (args : List Value) (machine : Machine) :
    readStored setting function args machine =
      (.ok (((machine.pendingValue? setting function args).or
        (machine.storedValue? setting function args)).getD .undefined), machine) := by
  rw [readStored, get_bind_apply, pendingValue?, storedValue?]
  cases machine.pending.lookup machine.heap function (machine.heap.argKey setting.digest args)
      args with
  | some value => rfl
  | none =>
    cases machine.state.get? machine.heap function (machine.heap.argKey setting.digest args)
        args with
    | some value => rfl
    | none =>
      dsimp only
      rw [hknown, if_neg Bool.false_ne_true]
      rfl

theorem readStored_of_concrete (hconcrete : setting.symbolic = false) (function : FunctionId)
    (args : List Value) (machine : Machine) :
    readStored setting function args machine =
      (.ok (((machine.pendingValue? setting function args).or
        (machine.storedValue? setting function args)).getD .undefined), machine) :=
  readStored_apply (by rw [hconcrete, Bool.false_and]) args machine

theorem sameView_of_lookup_eq (hconcrete : setting.symbolic = false)
    (hmachine : machine.Grounded setting)
    (hcontinues : Continues (.plain setting.symbolic) machine next)
    (hframes : machine.Frames setting next)
    (hlookup : ∀ heap function key args, next.pending.lookup heap function key args =
      machine.pending.lookup heap function key args) :
    SameView setting machine next where
  reads function args hargs := by
    have hpending := pendingValue?_eq hmachine hcontinues.upholds hcontinues.grows hargs
      fun heap key => hlookup heap function key args
    have hstored : next.storedValue? setting function args =
        machine.storedValue? setting function args := by
      rw [storedValue?, hframes.state_of_concrete hconcrete]
      exact get?_eq_storedValue? hmachine hcontinues.upholds hcontinues.grows hargs
    rw [readStored_of_concrete hconcrete, readStored_of_concrete hconcrete, hpending, hstored]
  lists list hlive :=
    ⟨hcontinues.grows.live hlive, toList_of_extends hmachine.wellFormed hcontinues.grows hlive⟩
  locals := hframes.locals
  frameBase := hframes.frameBase

/-! ### Siblings -/

/-- The siblings that come first do not change the view; before them, the machine has entered the
block from one in which the same updates were pending as at its start. -/
theorem sameView_of_siblings (hconcrete : setting.symbolic = false)
    (hmachine : machine.Grounded setting)
    (hmiddle : Continues (.plain setting.symbolic) machine middle)
    (hframes : machine.Frames setting middle) (hpending : middle.pending = machine.pending)
    {siblings : Run Unit} (hlayers : KeepsLayers setting siblings) {needs : List Value}
    (hkeeps : Keeps (.plain setting.symbolic) needs siblings nothing)
    (hneeds : (plain setting.symbolic).AcceptsAll middle.heap needs)
    (hrun : siblings { middle with pending := middle.pending.forkParallel.2 } = (.ok (), next)) :
    next.Grounded setting ∧ SameView setting machine next := by
  have hentered : Continues (.plain setting.symbolic) middle
      { middle with pending := middle.pending.forkParallel.2 } :=
    hmiddle.upholds.continues_pending fun _ => mem_held_forkParallel
  have hends := hkeeps _ hentered.upholds hneeds
  have hkept := hlayers { middle with pending := middle.pending.forkParallel.2 }
  rw [hrun] at hends hkept
  have hunchanged : middle.Frames setting
      { middle with pending := middle.pending.forkParallel.2 } :=
    frames_of_state rfl rfl (Nat.le_refl _)
  refine ⟨hends.upholds, sameView_of_lookup_eq hconcrete hmachine
    (hmiddle.trans (hentered.trans hends.toContinues))
    (hframes.trans (hunchanged.trans hkept.frames)) fun heap function key args => ?_⟩
  calc next.pending.lookup heap function key args
      = middle.pending.forkParallel.2.lookup heap function key args :=
        (hkept.layered _ rfl).lookup_eq (inParallel_forkParallel _)
    _ = middle.pending.lookup heap function key args :=
        lookup_forkParallel _ heap function key args
    _ = machine.pending.lookup heap function key args := by rw [hpending]

theorem sequence_append {run : Stmt → Run Unit} {before : List Stmt}
    (h : sequence run before machine = (.ok (), next)) (rest : List Stmt) :
    sequence run (before ++ rest) machine = sequence run rest next := by
  induction before generalizing machine with
  | nil =>
    cases h
    rfl
  | cons stmt others ih =>
    obtain ⟨_, middle, hfirst, hothers⟩ := exists_of_bind_eq_ok h
    rw [List.cons_append, sequence, bind_apply, hfirst]
    exact ih hothers

theorem forEach_append {name : String} {body : Run Unit} {front : List Value}
    (h : forEach name body front machine = (.ok (), next)) (back : List Value) :
    forEach name body (front ++ back) machine = forEach name body back next := by
  induction front generalizing machine with
  | nil =>
    cases h
    rfl
  | cons value others ih =>
    obtain ⟨_, middle, hfirst, hothers⟩ := exists_of_bind_eq_ok h
    rw [List.cons_append, forEach, bind_apply, hfirst]
    exact ih hothers

theorem inBlock_apply (fork : UpdateSet → Bool × UpdateSet) (body : Run Unit)
    (machine : Machine) :
    inBlock fork body machine =
      (do body; leave merge (fork machine.pending).1)
        { machine with pending := (fork machine.pending).2 } := rfl

/-- Every statement of a parallel block starts with the view from before the block, once the
statements before it have succeeded. So does every round of a `forall`, apart from its binding. -/
structure Isolates (setting : Setting) (machine : Machine) : Prop where
  par : ∀ fuel span before child after next,
    sequence (exec setting fuel) before
        { machine with span, pending := machine.pending.forkParallel.2 } = (.ok (), next) →
      exec setting (fuel + 1) { span, action := .par (before ++ child :: after) } machine =
        (do
          exec setting fuel child
          sequence (exec setting fuel) after
          leave merge machine.pending.forkParallel.1) next ∧
      next.Grounded setting ∧ SameView setting machine next
  forAll : ∀ fuel span name domain body front value back middle next,
    (eval setting fuel domain >>= domainElements) { machine with span } =
      (.ok (front ++ value :: back), middle) →
    forEach name (exec setting fuel body) front
        { middle with pending := middle.pending.forkParallel.2 } = (.ok (), next) →
      exec setting (fuel + 1) { span, action := .forAll name domain body } machine =
        (do
          withLocal name value (exec setting fuel body)
          forEach name (exec setting fuel body) back
          leave merge middle.pending.forkParallel.1) next ∧
      next.Grounded setting ∧ SameView setting machine next

theorem exec_par_apply {fuel : Nat} {span : Span} {before : List Stmt}
    (hbefore : sequence (exec setting fuel) before
      { machine with span, pending := machine.pending.forkParallel.2 } = (.ok (), next))
    (child : Stmt) (after : List Stmt) :
    exec setting (fuel + 1) { span, action := .par (before ++ child :: after) } machine =
      (do
        exec setting fuel child
        sequence (exec setting fuel) after
        leave merge machine.pending.forkParallel.1) next := by
  show inBlock forkParallel _ { machine with span } = _
  rw [inBlock_apply, bind_apply, sequence_append hbefore, ← bind_apply, sequence, bind_assoc]

theorem exec_forAll_apply {fuel : Nat} {span : Span} {name : String} {domain : Expr} {body : Stmt}
    {front back : List Value} {value : Value}
    (hdomain : (eval setting fuel domain >>= domainElements) { machine with span } =
      (.ok (front ++ value :: back), middle))
    (hfront : forEach name (exec setting fuel body) front
      { middle with pending := middle.pending.forkParallel.2 } = (.ok (), next)) :
    exec setting (fuel + 1) { span, action := .forAll name domain body } machine =
      (do
        withLocal name value (exec setting fuel body)
        forEach name (exec setting fuel body) back
        leave merge middle.pending.forkParallel.1) next := by
  show (eval setting fuel domain >>= fun domain => domainElements domain >>= fun elements =>
    inBlock forkParallel (forEach name (exec setting fuel body) elements))
      { machine with span } = _
  rw [← bind_assoc, bind_apply, hdomain]
  show inBlock forkParallel _ middle = _
  rw [inBlock_apply, bind_apply, forEach_append hfront, ← bind_apply, forEach, bind_assoc]

theorem isolates_of_grounded (hconcrete : setting.symbolic = false)
    (hmachine : machine.Grounded setting) : Isolates setting machine where
  par fuel span before child after next hbefore := by
    refine ⟨exec_par_apply hbefore child after, ?_⟩
    have hspan : Continues (.plain setting.symbolic) machine { machine with span } :=
      SameHoldings.continues ⟨rfl, rfl, rfl, rfl⟩ hmachine rfl
    exact sameView_of_siblings hconcrete hmachine hspan
      (frames_of_state rfl rfl (Nat.le_refl _)) rfl
      (keepsLayers_sequence (keepsLayers_exec fuel) before)
      (keeps_sequence fuel before) acceptsAll_nil hbefore
  forAll fuel span name domain body front value back middle next hdomain hfront := by
    refine ⟨exec_forAll_apply hdomain hfront, ?_⟩
    have hspan : Continues (.plain setting.symbolic) machine { machine with span } :=
      SameHoldings.continues ⟨rfl, rfl, rfl, rfl⟩ hmachine rfl
    have hframes : machine.Frames setting { machine with span } :=
      frames_of_state rfl rfl (Nat.le_refl _)
    have hends := keeps_elements fuel domain _ hspan.upholds acceptsAll_nil
    have hobserves : OnlyObserves setting (eval setting fuel domain >>= domainElements) :=
      (onlyObserves_eval fuel domain).bind onlyObserves_domainElements
    replace hobserves := (hobserves { machine with span }).toObserves
    rw [hdomain] at hends hobserves
    have helements : (plain setting.symbolic).AcceptsAll middle.heap front :=
      (acceptsAll_append.mp (hends.accepted _ rfl)).1
    exact sameView_of_siblings hconcrete hmachine (hspan.trans hends.toContinues)
      (hframes.trans hobserves.toFrames) hobserves.pending
      (keepsLayers_forEach (keepsLayers_exec fuel body) name front)
      (keeps_forEach fuel name body front) helements hfront

section Execution

variable {fuel : Nat} {stmt : Stmt} (hexec : exec setting fuel stmt machine = (.ok (), next))
include hexec

theorem layered_exec : machine.pending.Layered next.pending := by
  have hlayers : LayersKept setting machine _ := keepsLayers_exec fuel stmt machine
  rw [hexec] at hlayers
  exact hlayers.layered _ rfl

theorem continues_exec (hmachine : machine.Grounded setting) :
    Continues (.plain setting.symbolic) machine next := by
  have hends := keeps_exec fuel stmt machine hmachine acceptsAll_nil
  rw [hexec] at hends
  exact hends.toContinues

theorem pendingValue?_exec (hmachine : machine.Grounded setting)
    (hparallel : machine.pending.inParallel = true) (function : FunctionId) {args : List Value}
    (hargs : machine.heap.Supports args) :
    next.pendingValue? setting function args = machine.pendingValue? setting function args := by
  have hcontinues := continues_exec hexec hmachine
  exact pendingValue?_eq hmachine hcontinues.upholds hcontinues.grows hargs fun heap key =>
    (layered_exec hexec).lookup_eq hparallel

end Execution

/-- **Layer discipline and isolation.** A statement that succeeds gives back the layers below the
innermost one and loses no key of it. If the innermost layer is parallel, lookups give what they
gave before, in any fixed heap and, in a machine that calls can reach, also as the heap grows; in a
concrete machine, the statements of parallel blocks are isolated from each other. -/
theorem layered_exec_and_isolates (setting : Setting) :
    (∀ machine fuel stmt next, exec setting fuel stmt machine = (.ok (), next) →
      machine.pending.Layered next.pending ∧
      (machine.pending.inParallel = true → ∀ heap function key args,
        next.pending.lookup heap function key args =
          machine.pending.lookup heap function key args)) ∧
    (∀ calls, (afterCalls setting calls).Grounded setting) ∧
    ∀ machine : Machine, machine.Grounded setting →
      (∀ fuel stmt next, exec setting fuel stmt machine = (.ok (), next) →
        next.Grounded setting ∧
        (machine.pending.inParallel = true → ∀ function args, machine.heap.Supports args →
          next.pendingValue? setting function args =
            machine.pendingValue? setting function args)) ∧
      (setting.symbolic = false → Isolates setting machine) := by
  refine ⟨fun machine fuel stmt next hexec => ?_, fun calls => ?_, fun machine hmachine => ⟨?_, ?_⟩⟩
  · have hlayered := layered_exec hexec
    exact ⟨hlayered, fun hparallel heap function key args => hlayered.lookup_eq hparallel⟩
  · exact (idle_afterCalls setting calls).grounded
  · intro fuel stmt next hexec
    exact ⟨(continues_exec hexec hmachine).upholds, fun hparallel function args hargs =>
      pendingValue?_exec hexec hmachine hparallel function hargs⟩
  · exact fun hconcrete => isolates_of_grounded hconcrete hmachine

def oneFunction : Setting where
  spec := { functions := #[{ name := "program", result := .rule }, { name := "f" }] }

def enteredAtStart : Machine :=
  { Machine.new oneFunction with pending := push {} }

def writeOne : Stmt := { action := .update ⟨1⟩ [.int 1] (.int 5) }

def writeEach : Stmt := { action := .update ⟨1⟩ [.var "i"] (.int 5) }

/-- After a write to `f(1)` in the layer of a parallel block no lookup finds it, the statement that
follows starts with the view from before, and so does the second round of a `forall`. -/
theorem layered_exec_and_isolates_unseenWrite :
    (∃ next, exec oneFunction 2 writeOne enteredAtStart = (.ok (), next) ∧
      next.pending.top.keys = [(⟨1⟩, [.word 1])] ∧
      enteredAtStart.pending.Layered next.pending ∧
      next.pendingValue? oneFunction ⟨1⟩ [.int 1] = none) ∧
    (∃ next, sequence (exec oneFunction 2) [writeOne] enteredAtStart = (.ok (), next) ∧
      SameView oneFunction (.new oneFunction) next) ∧
    ∃ middle next,
      (eval oneFunction 2 (.list [.int 1, .int 2]) >>= domainElements) (.new oneFunction) =
        (.ok ([.int 1] ++ [.int 2]), middle) ∧
      forEach "i" (exec oneFunction 2 writeEach) [.int 1]
        { middle with pending := middle.pending.forkParallel.2 } = (.ok (), next) ∧
      next.pending.top.keys = [(⟨1⟩, [.word 1])] ∧
      SameView oneFunction (.new oneFunction) next := by
  obtain ⟨hexec, -, hgrounded⟩ := layered_exec_and_isolates oneFunction
  have hnew := upholds_new oneFunction (.plain oneFunction.symbolic)
  have hentered : enteredAtStart.Grounded oneFunction := { hnew with pending := acceptsAll_nil }
  have hisolates := (hgrounded _ hnew).2 rfl
  refine ⟨?_, ?_, ?_⟩
  · obtain ⟨next, hnext, hkeys⟩ : ∃ next,
        exec oneFunction 2 writeOne enteredAtStart = (.ok (), next) ∧
          next.pending.top.keys = [(⟨1⟩, [.word 1])] := ⟨_, rfl, rfl⟩
    have hargs : enteredAtStart.heap.Supports [.int 1] := supports_iff.mpr (by simp)
    have hpending := ((hgrounded _ hentered).1 _ _ _ hnext).2 rfl ⟨1⟩ [.int 1] hargs
    exact ⟨next, hnext, hkeys, (hexec _ _ _ _ hnext).1, hpending⟩
  · obtain ⟨next, hnext⟩ : ∃ next,
        sequence (exec oneFunction 2) [writeOne] enteredAtStart = (.ok (), next) := ⟨_, rfl⟩
    exact ⟨next, hnext, (hisolates.par 2 {} _ writeEach [] next hnext).2.2⟩
  · obtain ⟨middle, next, hmiddle, hnext, hkeys⟩ : ∃ middle next,
        (eval oneFunction 2 (.list [.int 1, .int 2]) >>= domainElements) (.new oneFunction) =
          (.ok ([.int 1] ++ [.int 2]), middle) ∧
        forEach "i" (exec oneFunction 2 writeEach) [.int 1]
          { middle with pending := middle.pending.forkParallel.2 } = (.ok (), next) ∧
        next.pending.top.keys = [(⟨1⟩, [.word 1])] := ⟨_, _, rfl, rfl, rfl⟩
    exact ⟨middle, next, hmiddle, hnext, hkeys,
      (hisolates.forAll 2 {} "i" _ writeEach _ _ _ middle next hmiddle hnext).2.2⟩

end Run

end AbstractStateMachine
