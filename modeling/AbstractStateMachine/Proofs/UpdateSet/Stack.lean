import AbstractStateMachine.Proofs.UpdateSet.Layers

/-!
# Stacks of layers

Layers can hold updates of any kind, as long as these can be located and compared. The layers of an
update set are such a stack, whose updates are compared in a heap. Two stacks of related updates
behave alike.
-/

namespace AbstractStateMachine

open Update

/-- What a stack of layers has to know of the updates in it. -/
structure Handling (U : Type) where
  location : U → LocationKey
  span : U → Span
  sameValue : (existing update : U) → Bool
  sameArgs : (existing update : U) → Bool
  movedTo : Nat → U → U

structure Stack (U : Type) where
  top : OrderedMap LocationKey U := .empty
  below : List (OrderedMap LocationKey U) := []

namespace Handling

variable {U : Type} (handling : Handling U)

def conflict (cause : Cause) (existing update : U) : Fault :=
  { cause, span := handling.span update, other := some (handling.span existing) }

/-- Writes in parallel have to agree; otherwise the later one replaces the earlier. -/
def record (parallel : Bool) (layer : OrderedMap LocationKey U) (update : U) :
    Except Fault (OrderedMap LocationKey U) :=
  match layer.get? (handling.location update) with
  | none => .ok (layer.insert (handling.location update) update)
  | some existing =>
    if parallel then
      if handling.sameValue existing update then .ok layer
      else .error (handling.conflict .disagreement existing update)
    else if handling.sameArgs existing update then
      .ok (layer.insert (handling.location update) update)
    else .error (handling.conflict .keyCollision existing update)

def recordAll (parallel : Bool) :
    OrderedMap LocationKey U → List U → OrderedMap LocationKey U × Option Fault
  | layer, [] => (layer, none)
  | layer, update :: rest =>
    match handling.record parallel layer update with
    | .ok layer => recordAll parallel layer rest
    | .error fault => (layer, some fault)

end Handling

namespace Stack

variable {U : Type}

def layers (stack : Stack U) : List (OrderedMap LocationKey U) := stack.top :: stack.below

def inParallel (stack : Stack U) : Bool := stack.below.length % 2 == 1

def push (stack : Stack U) : Stack U := { top := .empty, below := stack.top :: stack.below }

def enter (parallel : Bool) (stack : Stack U) : Bool × Stack U :=
  if stack.inParallel == parallel then (false, stack) else (true, stack.push)

def add (handling : Handling U) (stack : Stack U) (update : U) : Except Fault (Stack U) :=
  (handling.record stack.inParallel stack.top update).map fun top => { stack with top }

def mergeTop (handling : Handling U) (agree : Bool) (stack : Stack U) : Stack U × Option Fault :=
  match stack.below with
  | [] => (stack, none)
  | parent :: below =>
    let (top, fault) := handling.recordAll agree parent
      (stack.top.values.map (handling.movedTo below.length))
    ({ top, below }, fault)

def merge (handling : Handling U) (forked : Bool) (stack : Stack U) : Stack U × Option Fault :=
  if forked then stack.mergeTop handling stack.inParallel else (stack, none)

def mergeRound (handling : Handling U) (forked : Bool) (stack : Stack U) : Stack U × Option Fault :=
  if forked then stack.mergeTop handling false else (stack, none)

/-- The newest update among the sequential layers that is filed under a key and meant by it. -/
def findIn (hit : U → Bool) (key : LocationKey) : List (OrderedMap LocationKey U) → Option U
  | [] => none
  | layer :: below =>
    (if below.length % 2 == 1 then none else (layer.get? key).filter hit).or (findIn hit key below)

def find (hit : U → Bool) (key : LocationKey) (stack : Stack U) : Option U :=
  findIn hit key stack.layers

def updates (stack : Stack U) : List U := (stack.below.getLastD stack.top).values

end Stack

/-! ### Update sets -/

def Update.handling (heap : ListHeap) : Handling Update where
  location := location
  span := span
  sameValue existing update := heap.equal existing.value update.value
  sameArgs existing update := heap.sameArgs existing.args update.args
  movedTo := movedTo

namespace Layer

variable {heap : ListHeap}

theorem record_eq (parallel : Bool) (layer : Layer) (update : Update) :
    layer.record heap parallel update = (handling heap).record parallel layer update := by
  unfold Layer.record Layer.join Layer.override Handling.record
  dsimp only [handling, location]
  cases OrderedMap.get? layer (update.function, update.key) <;> cases parallel <;> rfl

theorem recordAll_eq (parallel : Bool) (layer : Layer) (updates : List Update) :
    layer.recordAll heap parallel updates =
      (handling heap).recordAll parallel layer updates := by
  induction updates generalizing layer with
  | nil => rfl
  | cons update rest ih =>
    rw [Layer.recordAll, Handling.recordAll, record_eq]
    cases (handling heap).record parallel layer update with
    | error fault => rfl
    | ok next => exact ih next

end Layer

namespace UpdateSet

variable {heap : ListHeap}

def stack (set : UpdateSet) : Stack Update := ⟨set.top, set.below⟩

def ofStack (stack : Stack Update) : UpdateSet := ⟨stack.top, stack.below⟩

theorem forkParallel_eq (set : UpdateSet) :
    set.forkParallel = ((set.stack.enter true).1, ofStack (set.stack.enter true).2) := by
  have hparallel : set.stack.inParallel = set.inParallel := rfl
  unfold forkParallel Stack.enter
  rw [hparallel]
  cases set.inParallel <;> rfl

theorem forkSequential_eq (set : UpdateSet) :
    set.forkSequential = ((set.stack.enter false).1, ofStack (set.stack.enter false).2) := by
  have hparallel : set.stack.inParallel = set.inParallel := rfl
  unfold forkSequential Stack.enter
  rw [hparallel]
  cases set.inParallel <;> rfl

theorem add_eq (set : UpdateSet) (digest : Digest) (function : FunctionId) (args : List Value)
    (value : Value) (span : Span) :
    set.add heap digest function args value span =
      (set.stack.add (handling heap)
        { function, key := heap.argKey digest args, args, value, span, layer := set.depth }).map
        ofStack := by
  obtain ⟨top, below⟩ := set
  unfold add Stack.add stack inParallel Stack.inParallel depth
  dsimp only
  rw [Layer.record_eq]
  cases (handling heap).record (below.length % 2 == 1) top
    { function, key := heap.argKey digest args, args, value, span, layer := below.length } <;> rfl

theorem mergeTop_eq (set : UpdateSet) (agree : Bool) :
    set.mergeTop heap agree =
      (ofStack (set.stack.mergeTop (handling heap) agree).1,
        (set.stack.mergeTop (handling heap) agree).2) := by
  obtain ⟨top, below⟩ := set
  cases below with
  | nil => rfl
  | cons parent below =>
    rw [mergeTop_of_below rfl]
    dsimp only
    rw [Layer.recordAll_eq]
    rfl

theorem merge_eq (set : UpdateSet) (forked : Bool) :
    set.merge heap forked =
      (ofStack (set.stack.merge (handling heap) forked).1,
        (set.stack.merge (handling heap) forked).2) := by
  cases forked with
  | false => rfl
  | true => exact mergeTop_eq set set.inParallel

theorem mergeRound_eq (set : UpdateSet) (forked : Bool) :
    set.mergeRound heap forked =
      (ofStack (set.stack.mergeRound (handling heap) forked).1,
        (set.stack.mergeRound (handling heap) forked).2) := by
  cases forked with
  | false => rfl
  | true => exact mergeTop_eq set false

theorem lookupIn_eq (function : FunctionId) (key : ArgKey) (args : List Value)
    (layers : List Layer) :
    lookupIn heap function key args layers =
      (Stack.findIn (fun update => heap.sameArgs update.args args) (function, key) layers).map
        value := by
  induction layers with
  | nil => rfl
  | cons layer below ih =>
    rw [lookupIn, Stack.findIn, ih]
    cases (if below.length % 2 == 1 then none else (layer.get? (function, key)).filter
      fun update => heap.sameArgs update.args args) <;> rfl

end UpdateSet

/-! ### Related stacks -/

variable {U U' : Type}

/-- Related updates are located and compared alike. -/
structure Handling.Respects (R : U → U' → Prop) (handling : Handling U) (handling' : Handling U') :
    Prop where
  location : ∀ {a a'}, R a a' → handling'.location a' = handling.location a
  span : ∀ {a a'}, R a a' → handling'.span a' = handling.span a
  sameValue : ∀ {a a' b b'}, R a a' → R b b' → handling'.sameValue a' b' = handling.sameValue a b
  sameArgs : ∀ {a a' b b'}, R a a' → R b b' → handling'.sameArgs a' b' = handling.sameArgs a b
  movedTo : ∀ {a a'} (depth : Nat), R a a' →
    R (handling.movedTo depth a) (handling'.movedTo depth a')

/-- Both succeed with related results, or both fail in the same way. -/
inductive SameOutcome {ε α β : Type} (R : α → β → Prop) : Except ε α → Except ε β → Prop where
  | ok {a : α} {b : β} (h : R a b) : SameOutcome R (.ok a) (.ok b)
  | error (error : ε) : SameOutcome R (.error error) (.error error)

structure Stack.Related (R : U → U' → Prop) (stack : Stack U) (other : Stack U') : Prop where
  top : OrderedMap.Related R stack.top other.top
  below : List.Forall₂ (OrderedMap.Related R) stack.below other.below

theorem Stack.Related.imp {R S : U → U' → Prop} {stack : Stack U} {other : Stack U'}
    (h : stack.Related R other) (himp : ∀ a b, R a b → S a b) : stack.Related S other :=
  ⟨h.top.imp himp, h.below.imp fun _ _ hlayer => hlayer.imp himp⟩

section Respects

variable {R : U → U' → Prop} {handling : Handling U} {handling' : Handling U'}
  (h : handling.Respects R handling') {layer : OrderedMap LocationKey U}
  {layer' : OrderedMap LocationKey U'}
include h

theorem Handling.Respects.record (hlayer : OrderedMap.Related R layer layer') (parallel : Bool)
    {a : U} {a' : U'} (ha : R a a') :
    SameOutcome (OrderedMap.Related R) (handling.record parallel layer a)
      (handling'.record parallel layer' a') := by
  unfold Handling.record Handling.conflict
  rw [h.location ha]
  have hfound := hlayer.get? (handling.location a)
  generalize layer.get? (handling.location a) = found at hfound ⊢
  generalize layer'.get? (handling.location a) = found' at hfound ⊢
  cases hfound with
  | none => exact .ok (hlayer.insert _ ha)
  | some hexisting =>
    dsimp only
    rw [h.sameValue hexisting ha, h.sameArgs hexisting ha, h.span ha, h.span hexisting]
    split
    · split
      · exact .ok hlayer
      · exact .error _
    · split
      · exact .ok (hlayer.insert _ ha)
      · exact .error _

theorem Handling.Respects.recordAll (hlayer : OrderedMap.Related R layer layer') (parallel : Bool)
    {updates : List U} {updates' : List U'} (hupdates : List.Forall₂ R updates updates') :
    OrderedMap.Related R (handling.recordAll parallel layer updates).1
        (handling'.recordAll parallel layer' updates').1 ∧
      (handling'.recordAll parallel layer' updates').2 =
        (handling.recordAll parallel layer updates).2 := by
  induction hupdates generalizing layer layer' with
  | nil => exact ⟨hlayer, rfl⟩
  | @cons a a' rest rest' ha _ ih =>
    rw [Handling.recordAll, Handling.recordAll]
    have hrecord := h.record hlayer parallel ha
    generalize handling.record parallel layer a = outcome at hrecord ⊢
    generalize handling'.record parallel layer' a' = outcome' at hrecord ⊢
    cases hrecord with
    | error fault => exact ⟨hlayer, rfl⟩
    | ok hnext => exact ih hnext

variable {stack : Stack U} {stack' : Stack U'} (hstack : stack.Related R stack')
include hstack

theorem Stack.Related.mergeTop (agree : Bool) :
    (stack.mergeTop handling agree).1.Related R (stack'.mergeTop handling' agree).1 ∧
      (stack'.mergeTop handling' agree).2 = (stack.mergeTop handling agree).2 := by
  obtain ⟨htop, hbelow⟩ := hstack
  obtain ⟨top, below⟩ := stack
  obtain ⟨top', below'⟩ := stack'
  cases hbelow with
  | nil => exact ⟨⟨htop, .nil⟩, rfl⟩
  | @cons parent parent' below below' hparent hbelow =>
    have hmoved : List.Forall₂ R (top.values.map (handling.movedTo below.length))
        (top'.values.map (handling'.movedTo below'.length)) := by
      rw [← hbelow.length_eq]
      refine List.forall₂_map_left_iff.mpr (List.forall₂_map_right_iff.mpr ?_)
      exact htop.values.imp fun _ _ => h.movedTo below.length
    obtain ⟨hmerged, hfault⟩ := h.recordAll hparent agree hmoved
    exact ⟨⟨hmerged, hbelow⟩, hfault⟩

omit h in
theorem Stack.Related.inParallel_eq : stack'.inParallel = stack.inParallel := by
  rw [inParallel, inParallel, hstack.below.length_eq]

theorem Stack.Related.add {a : U} {a' : U'} (ha : R a a') :
    SameOutcome (Stack.Related R) (stack.add handling a) (stack'.add handling' a') := by
  have hrecord := h.record hstack.top stack.inParallel ha
  unfold Stack.add
  rw [hstack.inParallel_eq]
  generalize handling.record stack.inParallel stack.top a = outcome at hrecord ⊢
  generalize handling'.record stack.inParallel stack'.top a' = outcome' at hrecord ⊢
  cases hrecord with
  | ok htop => exact .ok ⟨htop, hstack.below⟩
  | error fault => exact .error fault

theorem Stack.Related.merge (forked : Bool) :
    (stack.merge handling forked).1.Related R (stack'.merge handling' forked).1 ∧
      (stack'.merge handling' forked).2 = (stack.merge handling forked).2 := by
  cases forked with
  | false => exact ⟨hstack, rfl⟩
  | true =>
    rw [Stack.merge, Stack.merge, hstack.inParallel_eq]
    exact hstack.mergeTop h _

theorem Stack.Related.mergeRound (forked : Bool) :
    (stack.mergeRound handling forked).1.Related R (stack'.mergeRound handling' forked).1 ∧
      (stack'.mergeRound handling' forked).2 = (stack.mergeRound handling forked).2 := by
  cases forked with
  | false => exact ⟨hstack, rfl⟩
  | true => exact hstack.mergeTop h _

end Respects

namespace Stack.Related

variable {R : U → U' → Prop} {stack : Stack U} {stack' : Stack U'} (hstack : stack.Related R stack')
include hstack

theorem enter (parallel : Bool) :
    (stack'.enter parallel).1 = (stack.enter parallel).1 ∧
      (stack.enter parallel).2.Related R (stack'.enter parallel).2 := by
  unfold Stack.enter
  rw [hstack.inParallel_eq]
  split
  · exact ⟨rfl, hstack⟩
  · exact ⟨rfl, OrderedMap.related_empty, .cons hstack.top hstack.below⟩

theorem layers : List.Forall₂ (OrderedMap.Related R) stack.layers stack'.layers :=
  .cons hstack.top hstack.below

theorem find {hit : U → Bool} {hit' : U' → Bool} (hhit : ∀ {a a'}, R a a' → hit' a' = hit a)
    (key : LocationKey) : Option.Rel R (stack.find hit key) (stack'.find hit' key) := by
  unfold Stack.find
  have hlayers := hstack.layers
  generalize stack.layers = layers at hlayers ⊢
  generalize stack'.layers = layers' at hlayers ⊢
  induction hlayers with
  | nil => exact .none
  | @cons layer layer' below below' hlayer hbelow ih =>
    have hfound : Option.Rel R ((layer.get? key).filter hit) ((layer'.get? key).filter hit') := by
      have hget := hlayer.get? key
      generalize layer.get? key = found at hget ⊢
      generalize layer'.get? key = found' at hget ⊢
      cases hget with
      | none => exact .none
      | @some a a' ha =>
        rw [Option.filter_some, Option.filter_some, hhit ha]
        split
        · exact .some ha
        · exact .none
    rw [findIn, findIn, ← hbelow.length_eq]
    split
    · exact ih
    · generalize (layer.get? key).filter hit = found at hfound ⊢
      generalize (layer'.get? key).filter hit' = found' at hfound ⊢
      cases hfound with
      | none => exact ih
      | some ha => exact .some ha

theorem updates : List.Forall₂ R stack.updates stack'.updates := by
  unfold Stack.updates
  refine OrderedMap.Related.values ?_
  obtain ⟨htop, hbelow⟩ := hstack
  obtain ⟨top, below⟩ := stack
  obtain ⟨top', below'⟩ := stack'
  dsimp only at htop hbelow ⊢
  induction hbelow generalizing top top' with
  | nil => exact htop
  | cons hlayer _ ih =>
    rw [List.getLastD_cons, List.getLastD_cons]
    exact ih _ _ hlayer

end Stack.Related

end AbstractStateMachine
