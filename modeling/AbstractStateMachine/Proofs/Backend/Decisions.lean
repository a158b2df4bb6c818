import AbstractStateMachine.Proofs.Backend.Invariants

/-!
# The decisions of an interpreter

An interpreter can keep a history of the branches it decides: the value that was decided on and the
state in which this happened. It answers like the one without and comes to the same states. If what
is seen of a state changes by decisions only, then a property of what is seen and of the decisions
so far holds at every moment of every run as soon as each decision keeps it.
-/

namespace AbstractStateMachine

open AbstractStateMachine.Computation Invariant

/-- A state and the decisions on the way to it, the first one first. A decision is given by the
state before it and by the value that is decided on. -/
structure History (S V : Type) where
  state : S
  decisions : List (S × V) := []

variable {S V X α : Type}

namespace History

def deciding (value : V) (run : Computation S Bool) : Computation (History S V) Bool :=
  fun history => ((run history.state).1,
    { state := (run history.state).2, decisions := history.decisions ++ [(history.state, value)] })

/-- What the history was when one of the decisions was about to be made. -/
def Past (decisions : List (S × V)) (moment : History S V) : Prop :=
  ∃ value later, decisions = moment.decisions ++ (moment.state, value) :: later

/-- What the history was at some moment, the last one included. -/
def Moment (history moment : History S V) : Prop :=
  moment = history ∨ Past history.decisions moment

theorem past_concat_iff {decisions : List (S × V)} {s : S} {value : V} {moment : History S V} :
    Past (decisions ++ [(s, value)]) moment ↔
      moment = { state := s, decisions } ∨ Past decisions moment := by
  constructor
  · rintro ⟨other, later, heq⟩
    rcases List.eq_nil_or_concat later with rfl | ⟨rest, last, rfl⟩
    · obtain ⟨hdecisions, hlast⟩ := List.append_inj' heq rfl
      cases hlast
      exact .inl (by rw [hdecisions])
    · rw [List.concat_eq_append, ← List.cons_append, ← List.append_assoc] at heq
      exact .inr ⟨other, rest, (List.append_inj' heq rfl).1⟩
  · rintro (rfl | ⟨other, later, rfl⟩)
    · exact ⟨value, [], rfl⟩
    · exact ⟨other, later ++ [(s, value)], by rw [List.append_assoc, List.cons_append]⟩

end History

open History

def Backend.withHistory (backend : Backend S V) : Backend (History S V) V :=
  { backend.within state fun history state => { history with state } with
    decide value := deciding value (backend.decide value) }

/-! ### Properties of histories -/

structure Backend.Steady (backend : Backend S V) (view : S → X) : Prop where
  setSpan : ∀ span s, view (backend.setSpan span s) = view s
  bindLocal : ∀ name value s, view (backend.bindLocal name value s) = view s
  unbindLocal : ∀ s, view (backend.unbindLocal s) = view s
  enterFrame : ∀ params args s, view (backend.enterFrame params args s) = view s
  leaveFrame : ∀ caller s, view (backend.leaveFrame caller s) = view s
  readStored : ∀ function args s, view (backend.readStored function args s).2 = view s
  operate : ∀ expr args s, (∀ function args, expr ≠ .read function args) →
    view (backend.operate expr args s).2 = view s
  elements : ∀ value s, view (backend.elements value s).2 = view s
  ruleOf : ∀ value s, view (backend.ruleOf value s).2 = view s
  print : ∀ values s, view (backend.print values s).2 = view s
  pushed : ∀ value current s, view (backend.pushed value current s).2 = view s
  popped : ∀ current s, view (backend.popped current s).2 = view s
  write : ∀ function args value span s, view (backend.write function args value span s).2 = view s
  enter : ∀ parallel s, view (backend.enter parallel s).2 = view s
  leave : ∀ forked s, view (backend.leave forked s).2 = view s
  leaveRound : ∀ forked s, view (backend.leaveRound forked s).2 = view s
  scheduled : ∀ program s, view (backend.scheduled program s).2 = view s
  halt : ∀ s, view (backend.halt s) = view s
  abandon : ∀ s, view (backend.abandon s) = view s
  commit : ∀ endOfStep s, view (backend.commit endOfStep s) = view s

/-- A property of decisions and of what is seen after them that one more decision keeps, as long as
the states satisfy an invariant. -/
structure DecisionInvariant (backend : Backend S V) (I : Invariant S V) (Rests : S → Prop)
    (view : S → X) (P : List (S × V) → X → Prop) : Prop where
  maintained : CallsMaintained I backend Rests
  steady : backend.Steady view
  decide : ∀ {w s value decisions}, I.Holds w s → I.Covers w value → P decisions (view s) →
    P (decisions ++ [(s, value)]) (view (backend.decide value s).2)

namespace DecisionInvariant

variable {backend : Backend S V} {I : Invariant S V} {Rests : S → Prop} {view : S → X}
  {P : List (S × V) → X → Prop} {w : I.World}

def Fits (I : Invariant S V) (view : S → X) (P : List (S × V) → X → Prop) (_ : I.World)
    (history : History S V) : Prop :=
  P history.decisions (view history.state)

theorem carries_within {change : S → S} (hview : ∀ s, view (change s) = view s) :
    I.Carries state (Fits I view P) change fun history =>
      { history with state := change history.state } := by
  intro w history hfits
  refine ⟨rfl, ?_⟩
  show P history.decisions (view (change history.state))
  rw [hview]
  exact hfits

theorem follows_within {run : Computation S α} {post : I.World → α → Prop}
    (hview : ∀ s, view (run s).2 = view s) :
    I.Follows state (Fits I view P) w post run
      (within state (fun history state => { history with state }) run) := by
  refine Invariant.follows_within (fun _ _ => rfl) fun {history _ _ next} heq hfits _ => ?_
  have hseen := hview history.state
  rw [heq] at hseen
  show P history.decisions (view next)
  rw [hseen]
  exact hfits

variable (h : DecisionInvariant backend I Rests view P)
include h

theorem follows_deciding {value : V} (hvalue : I.Covers w value) :
    I.Follows state (Fits I view P) w I.Anything (backend.decide value)
      (deciding value (backend.decide value)) := by
  intro history w' result next hholds hfits heq _ _ _
  have hseen := h.decide hholds hvalue hfits
  rw [heq] at hseen
  exact ⟨⟨next, history.decisions ++ [(history.state, value)]⟩, by rw [deciding, heq], rfl,
    hseen⟩

theorem companion : Companion I state (Fits I view P) backend backend.withHistory where
  spec := rfl
  span _ := rfl
  equal _ := rfl
  text _ := rfl
  recordsNothing _ := rfl
  setSpan span := carries_within (h.steady.setSpan span)
  bindLocal name value := carries_within (h.steady.bindLocal name value)
  unbindLocal := carries_within h.steady.unbindLocal
  enterFrame params args := carries_within (h.steady.enterFrame params args)
  leaveFrame caller := carries_within (h.steady.leaveFrame caller.state)
  operates hoperates := by
    cases hoperates with
    | readStored function => exact follows_within (h.steady.readStored function _)
    | operate expr hread => exact follows_within fun s => h.steady.operate expr _ s hread
    | decide hvalue => exact h.follows_deciding hvalue
    | elements => exact follows_within (h.steady.elements _)
    | ruleOf value => exact follows_within (h.steady.ruleOf value)
    | print values => exact follows_within (h.steady.print values)
    | pushed => exact follows_within (h.steady.pushed _ _)
    | popped => exact follows_within (h.steady.popped _)
    | write function span => exact follows_within (h.steady.write function _ _ span)
    | enter parallel => exact follows_within (h.steady.enter parallel)
    | leave forked => exact follows_within (h.steady.leave forked)
    | leaveRound forked => exact follows_within (h.steady.leaveRound forked)

theorem callCompanion :
    CallCompanion I state (Fits I view P) backend backend.withHistory Rests where
  toCompanion := h.companion
  ofRule _ := rfl
  halted _ := rfl
  scheduled _ value := follows_within (h.steady.scheduled value)
  halt := carries_within h.steady.halt
  abandon := carries_within h.steady.abandon
  commit endOfStep hholds hrests hfits := by
    obtain ⟨w', hcommit⟩ := h.maintained.commit _ _ endOfStep hholds hrests
    exact ⟨rfl, w', hcommit, (carries_within (h.steady.commit endOfStep) w' _ hfits).2⟩

theorem afterCalls {s : S} (hs : I.Holds w s) (hrests : Rests s) (hnil : P [] (view s))
    (calls : List Call) : let history := backend.withHistory.afterCalls { state := s } calls
    history.state = backend.afterCalls s calls ∧
      (∃ w', I.Holds w' history.state) ∧ P history.decisions (view history.state) := by
  obtain ⟨hstate, w', hholds, hfits⟩ :=
    h.callCompanion.afterCalls h.maintained (t := { state := s }) hs hnil hrests calls
  exact ⟨hstate, ⟨w', hholds⟩, hfits⟩

/-- What holds in the end has held at all earlier decisions. -/
theorem throughout : DecisionInvariant backend I Rests view fun decisions seen =>
    P decisions seen ∧ ∀ moment, Past decisions moment →
      (∃ w, I.Holds w moment.state) ∧ P moment.decisions (view moment.state) where
  maintained := h.maintained
  steady := h.steady
  decide := by
    rintro w s value decisions hholds hvalue ⟨hnow, hpast⟩
    refine ⟨h.decide hholds hvalue hnow, fun moment hmoment => ?_⟩
    rcases past_concat_iff.mp hmoment with rfl | hearlier
    · exact ⟨⟨w, hholds⟩, hnow⟩
    · exact hpast moment hearlier

/-- At every moment of a run the invariant holds, and the property of the decisions up to then. -/
theorem of_moment {s : S} (hs : I.Holds w s) (hrests : Rests s) (hnil : P [] (view s))
    (calls : List Call) {moment : History S V}
    (hmoment : (backend.withHistory.afterCalls { state := s } calls).Moment moment) :
    (∃ w', I.Holds w' moment.state) ∧ P moment.decisions (view moment.state) := by
  have hpast : ∀ moment : History S V, Past [] moment →
      (∃ w, I.Holds w moment.state) ∧ P moment.decisions (view moment.state) := by
    rintro moment ⟨value, later, heq⟩
    exact absurd heq.symm (by simp)
  obtain ⟨-, hholds, hnow, hthroughout⟩ := h.throughout.afterCalls hs hrests ⟨hnil, hpast⟩ calls
  rcases hmoment with rfl | hearlier
  · exact ⟨hholds, hnow⟩
  · exact hthroughout moment hearlier

end DecisionInvariant

end AbstractStateMachine
