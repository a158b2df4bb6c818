import AbstractStateMachine.Proofs.Machine.Reclamation
import AbstractStateMachine.Proofs.UpdateSet.Blocks

/-!
# Journals of parallel blocks

What a statement does in a parallel block is a list of updates handed to the layer of the block. In
a journaling interpreter a conflict among them is noted and not a fault, so a statement goes on
whatever its siblings have written, and the journal is complete. Replaying it on a layer does what
the statement would have done to it.
-/

namespace AbstractStateMachine

/-- An update handed to a layer: a write within the block, which has to agree with the others, or
one from a sequential block inside of it, which replaces them. -/
structure Entry where
  agree : Bool
  update : Update
  deriving DecidableEq, Repr

def Layer.replay (heap : ListHeap) : Layer → List Entry → Except Fault Layer
  | layer, [] => .ok layer
  | layer, entry :: rest => do
    let layer ← layer.record heap entry.agree entry.update
    replay heap layer rest

/-- A machine with a journal of the layer at some depth. It is clean as long as there was no
conflict in that layer. -/
structure Draft where
  machine : Machine
  entries : List Entry := []
  clean : Bool := true

namespace Draft

variable {α : Type}

def onMachine (change : Machine → Machine) (draft : Draft) : Draft :=
  { draft with machine := change draft.machine }

abbrev lift (run : Run α) : Computation Draft α :=
  Computation.within machine (fun draft machine => { draft with machine }) run

/-- Hands entries to the innermost layer of `pending`, which becomes the update set. -/
def deliver (draft : Draft) (pending : UpdateSet) (entries : List Entry) : Draft :=
  match pending.top.replay draft.machine.heap entries with
  | .ok top =>
    { draft with
      machine := { draft.machine with pending := { pending with top } }
      entries := draft.entries ++ entries }
  | .error _ =>
    { machine := { draft.machine with pending }
      entries := draft.entries ++ entries
      clean := false }

def write (setting : Setting) (depth : Nat) (function : FunctionId) (args : List Value)
    (value : Value) (span : Span) : Computation Draft Unit := fun draft =>
  let machine := draft.machine
  if machine.pending.depth = depth then
    let update : Update :=
      { function, args, value, span
        key := machine.heap.argKey setting.digest args
        layer := depth }
    (.ok (), draft.deliver machine.pending [⟨machine.pending.inParallel, update⟩])
  else lift (Run.write setting function args value span) draft

/-- Hands what is in the innermost layer to the one below. -/
def handOver (agree : Bool) (draft : Draft) : Draft :=
  match draft.machine.pending.below with
  | [] => draft
  | parent :: below =>
    draft.deliver { top := parent, below } (draft.machine.pending.top.values.map fun update =>
      ⟨agree, update.movedTo below.length⟩)

/-- Leaves a block. The one in which the journal began is never left. -/
def leave (merge : UpdateSet → ListHeap → Bool → UpdateSet × Option Fault)
    (agree : UpdateSet → Bool) (depth : Nat) (forked : Bool) : Computation Draft Unit :=
  fun draft =>
    let pending := draft.machine.pending
    if forked = true ∧ pending.depth ≤ depth then (.error .outOfFuel, draft)
    else if forked = true ∧ pending.depth = depth + 1 then (.ok (), draft.handOver (agree pending))
    else lift (Run.leave merge forked) draft

end Draft

open Draft in
/-- The interpreter that keeps a journal of the layer at the given depth. -/
def journaling (setting : Setting) (depth : Nat) : Backend Draft Value :=
  let machines := Machine.backend setting
  { machines.within machine fun draft machine => { draft with machine } with
    write := write setting depth
    leave := leave UpdateSet.merge UpdateSet.inParallel depth
    leaveRound := leave UpdateSet.mergeRound (fun _ => false) depth
    recordsNothing draft :=
      draft.machine.pending.depth != depth && machines.recordsNothing draft.machine }

/-- The journals of the statements of a parallel block, one after the other, and the machine that
they leave behind. -/
def Machine.journals (setting : Setting) (depth fuel : Nat) :
    List Stmt → Machine → Option (List (List Entry) × Machine)
  | [], machine => some ([], machine)
  | stmt :: rest, machine =>
    match (journaling setting depth).exec fuel stmt { machine } with
    | (.error _, _) => none
    | (.ok _, draft) =>
      (journals setting depth fuel rest draft.machine).map fun (blocks, last) =>
        (draft.entries :: blocks, last)

/-! ### Replaying -/

namespace Layer

variable {heap : ListHeap} {layer : Layer}

theorem replay_append (first second : List Entry) :
    layer.replay heap (first ++ second) =
      (layer.replay heap first).bind fun layer => layer.replay heap second := by
  induction first generalizing layer with
  | nil => rfl
  | cons entry rest ih =>
    show (layer.record heap entry.agree entry.update).bind _ =
      ((layer.record heap entry.agree entry.update).bind _).bind _
    cases layer.record heap entry.agree entry.update with
    | error fault => rfl
    | ok next => exact ih

theorem exists_of_replay_cons {result : Layer} {entry : Entry} {rest : List Entry}
    (h : layer.replay heap (entry :: rest) = .ok result) :
    ∃ next, layer.record heap entry.agree entry.update = .ok next ∧
      next.replay heap rest = .ok result := by
  change (layer.record heap entry.agree entry.update).bind _ = _ at h
  cases hrecord : layer.record heap entry.agree entry.update with
  | error fault =>
    rw [hrecord] at h
    cases h
  | ok next =>
    rw [hrecord] at h
    exact ⟨next, rfl, h⟩

theorem replay_singleton (entry : Entry) :
    layer.replay heap [entry] = layer.record heap entry.agree entry.update := by
  show (layer.record heap entry.agree entry.update).bind .ok = _
  cases layer.record heap entry.agree entry.update <;> rfl

theorem replay_map (agree : Bool) (updates : List Update) :
    layer.replay heap (updates.map (Entry.mk agree)) =
      settle (layer.recordAll heap agree updates) := by
  induction updates generalizing layer with
  | nil => rfl
  | cons update rest ih =>
    rw [recordAll]
    show (layer.record heap agree update).bind _ = _
    cases layer.record heap agree update with
    | error fault => rfl
    | ok next => exact ih

end Layer

end AbstractStateMachine
