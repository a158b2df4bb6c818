import AbstractStateMachine.Proofs.Backend.Calls

/-!
# Invariants of an interpreter

An invariant says what states satisfy and what values in use meet. A companion is a backend that
works on the same values, in states that carry those of another one and possibly more. If the
operations of a backend maintain an invariant and those of its companion follow them, then both
do the same in every expression, every statement and every call, and the invariant is maintained.
Every backend is its own companion.
-/

namespace AbstractStateMachine

open AbstractStateMachine.Computation

/-- What states satisfy and what values in use meet. Both may depend on a world, and values that
were met in one world are met in later ones. -/
structure Invariant (S V : Type) where
  World : Type
  Later : World → World → Prop
  Holds : World → S → Prop
  Covers : World → V → Prop
  later_refl : ∀ w, Later w w
  later_trans : ∀ {w w' w''}, Later w w' → Later w' w'' → Later w w''
  covers_later : ∀ {w w' a}, Later w w' → Covers w a → Covers w' a

variable {S T V α β : Type}

namespace Invariant

variable (I : Invariant S V) {w w' : I.World}

def CoversAll (w : I.World) (values : List V) : Prop := ∀ value ∈ values, I.Covers w value

def Anything (_ : I.World) (_ : α) : Prop := True

def CoversPopped (w : I.World) (popped : V × Option V) : Prop :=
  I.Covers w popped.1 ∧ ∀ rest ∈ popped.2, I.Covers w rest

def ofStates (P : S → Prop) : Invariant S V where
  World := Unit
  Later _ _ := True
  Holds _ := P
  Covers _ _ := True
  later_refl _ := trivial
  later_trans _ _ := trivial
  covers_later _ _ := trivial

/-- However a computation ends that was started in world `w`, the invariant holds afterwards. -/
def Maintains (w : I.World) (post : I.World → α → Prop) (run : Computation S α) : Prop :=
  ∀ s, I.Holds w s →
    ∃ w', I.Later w w' ∧ I.Holds w' (run s).2 ∧ ∀ result, (run s).1 = .ok result → post w' result

/-- States of one backend and states of another that carry them and that fit the world. -/
def carried (state : T → S) (Fits : I.World → T → Prop) : Coupling S V T V where
  World := I.World
  Later := I.Later
  States w s t := state t = s ∧ I.Holds w s ∧ Fits w t
  Values w a b := b = a ∧ I.Covers w a
  later_refl := I.later_refl
  later_trans := I.later_trans
  values_later hlater h := ⟨h.1, I.covers_later hlater h.2⟩

/-- A change of states and the same one of states that carry them. -/
def Carries (state : T → S) (Fits : I.World → T → Prop) (change : S → S) (change' : T → T) : Prop :=
  ∀ w t, Fits w t → state (change' t) = change (state t) ∧ Fits w (change' t)

/-- A computation and one on states that carry those of the first and go on to do so. -/
def Follows (state : T → S) (Fits : I.World → T → Prop) (w : I.World) (post : I.World → α → Prop)
    (run : Computation S α) (run' : Computation T α) : Prop :=
  ∀ ⦃t w' result next⦄, I.Holds w (state t) → Fits w t → run (state t) = (result, next) →
    I.Later w w' → I.Holds w' next → (∀ a, result = .ok a → post w' a) →
      ∃ t', run' t = (result, t') ∧ state t' = next ∧ Fits w' t'

abbrev diagonal : Coupling S V S V := I.carried id fun _ _ => True

variable {I} {post : I.World → α → Prop} {post' : I.World → β → Prop}

/-! ### Rules -/

theorem maintains_pure {result : α} (h : post w result) : I.Maintains w post (pure result) := by
  intro s hs
  refine ⟨w, I.later_refl w, hs, ?_⟩
  rintro _ ⟨⟩
  exact h

theorem maintains_throw (stop : Stop) : I.Maintains w post (throw stop) :=
  fun _ hs => ⟨w, I.later_refl w, hs, nofun⟩

theorem Maintains.bind {first : Computation S α} {rest : α → Computation S β}
    (h : I.Maintains w post first)
    (hrest : ∀ w' result, I.Later w w' → post w' result → I.Maintains w' post' (rest result)) :
    I.Maintains w post' (first >>= rest) := by
  intro s hs
  obtain ⟨w', hlater, hs', hpost⟩ := h s hs
  show ∃ w', I.Later w w' ∧ I.Holds w' (ExceptT.bindCont rest (first s).1 (first s).2).2 ∧ ∀ result,
    (ExceptT.bindCont rest (first s).1 (first s).2).1 = .ok result → post' w' result
  generalize first s = outcome at hs' hpost ⊢
  rcases outcome with ⟨stop | result, s'⟩
  · exact ⟨w', hlater, hs', nofun⟩
  · obtain ⟨w'', hlater', hholds⟩ := hrest w' result hlater (hpost result rfl) s' hs'
    exact ⟨w'', I.later_trans hlater hlater', hholds⟩

theorem maintains_get {rest : S → Computation S α}
    (h : ∀ s, I.Holds w s → I.Maintains w post (rest s)) :
    I.Maintains w post (get >>= rest) :=
  fun s hs => h s hs s hs

theorem maintains_modify {change : S → S} (h : ∀ s, I.Holds w s → I.Holds w (change s)) :
    I.Maintains w I.Anything (modify change) :=
  fun s hs => ⟨w, I.later_refl w, h s hs, fun _ _ => trivial⟩

/-! ### Invariants as couplings -/

variable {state : T → S} {Fits : I.World → T → Prop}

theorem allValues_carried_iff {values others : List V} :
    (I.carried state Fits).AllValues w values others ↔ others = values ∧ I.CoversAll w values := by
  constructor
  · intro h
    induction h with
    | nil => exact ⟨rfl, nofun⟩
    | cons hfirst _ ih =>
      exact ⟨by rw [hfirst.1, ih.1], List.forall_mem_cons.mpr ⟨hfirst.2, ih.2⟩⟩
  · rintro ⟨rfl, hcovers⟩
    exact List.forall₂_same.mpr fun value hvalue => ⟨rfl, hcovers value hvalue⟩

theorem Carries.states {change : S → S} {change' : T → T} {s : S} {t : T}
    (h : I.Carries state Fits change change') (hstates : (I.carried state Fits).States w s t)
    (hholds : I.Holds w (change s)) : (I.carried state Fits).States w (change s) (change' t) := by
  obtain ⟨rfl, -, hfits⟩ := hstates
  exact ⟨(h w t hfits).1, hholds, (h w t hfits).2⟩

theorem Follows.alike {run : Computation S α} {run' : Computation T α}
    (h : I.Follows state Fits w post run run') (hrun : I.Maintains w post run)
    {rel : I.World → α → α → Prop} (hrel : ∀ w a, post w a → rel w a a) :
    (I.carried state Fits).Alike w rel run run' := by
  rintro _ t ⟨rfl, hs, hfits⟩
  obtain ⟨w', hlater, hs', hpost⟩ := hrun _ hs
  rcases heq : run (state t) with ⟨result, next⟩
  rw [heq] at hs' hpost
  obtain ⟨t', heq', rfl, hfits'⟩ := h hs hfits heq hlater hs' hpost
  rw [heq']
  cases result with
  | error stop => exact .error stop hlater ⟨rfl, hs', hfits'⟩
  | ok result => exact .ok hlater ⟨rfl, hs', hfits'⟩ (hrel w' result (hpost result rfl))

theorem maintains_of_alike {run : Computation S α} {rel : I.diagonal.World → α → α → Prop}
    (h : I.diagonal.Alike w rel run run) (hpost : ∀ w a, rel w a a → post w a) :
    I.Maintains w post run := by
  intro s hs
  have hends := h s s ⟨rfl, hs, trivial⟩
  generalize run s = outcome at hends ⊢
  cases hends with
  | ok hlater hstates hrel =>
    refine ⟨_, hlater, hstates.2.1, ?_⟩
    rintro _ ⟨⟩
    exact hpost _ _ hrel
  | error stop hlater hstates => exact ⟨_, hlater, hstates.2.1, nofun⟩

end Invariant

/-! ### What operations maintain -/

structure EvalMaintained (I : Invariant S V) (backend : Backend S V) : Prop where
  enterFrame : ∀ w s params args, I.Holds w s → I.CoversAll w args →
    I.Holds w (backend.enterFrame params args s)
  leaveFrame : ∀ w w' caller s, I.Holds w caller → I.Holds w' s →
    I.Holds w' (backend.leaveFrame caller s)
  readStored : ∀ w function args, I.CoversAll w args →
    I.Maintains w I.Covers (backend.readStored function args)
  operate : ∀ w expr args, (∀ function args, expr ≠ .read function args) → I.CoversAll w args →
    I.Maintains w I.Covers (backend.operate expr args)

structure Maintained (I : Invariant S V) (backend : Backend S V) : Prop
    extends EvalMaintained I backend where
  setSpan : ∀ w s span, I.Holds w s → I.Holds w (backend.setSpan span s)
  bindLocal : ∀ w s name value, I.Holds w s → I.Covers w value →
    I.Holds w (backend.bindLocal name value s)
  unbindLocal : ∀ w s, I.Holds w s → I.Holds w (backend.unbindLocal s)
  decide : ∀ w value, I.Covers w value → I.Maintains w I.Anything (backend.decide value)
  elements : ∀ w value, I.Covers w value → I.Maintains w I.CoversAll (backend.elements value)
  ruleOf : ∀ w value, I.Maintains w I.Anything (backend.ruleOf value)
  print : ∀ w values, I.Maintains w I.Anything (backend.print values)
  pushed : ∀ w value current, I.Covers w value → I.Covers w current →
    I.Maintains w I.Covers (backend.pushed value current)
  popped : ∀ w current, I.Covers w current →
    I.Maintains w I.CoversPopped (backend.popped current)
  write : ∀ w function args value span, I.CoversAll w args → I.Covers w value →
    I.Maintains w I.Anything (backend.write function args value span)
  enter : ∀ w parallel, I.Maintains w I.Anything (backend.enter parallel)
  leave : ∀ w forked, I.Maintains w I.Anything (backend.leave forked)
  leaveRound : ∀ w forked, I.Maintains w I.Anything (backend.leaveRound forked)

/-- Committing a state at rest may start a new world. -/
structure CallsMaintained (I : Invariant S V) (backend : Backend S V) (Rests : S → Prop) : Prop
    extends Maintained I backend where
  resting : backend.KeepsResting Rests
  ofRule : ∀ w rule, I.Covers w (backend.ofRule rule)
  scheduled : ∀ w value, I.Maintains w I.Anything (backend.scheduled value)
  halt : ∀ w s, I.Holds w s → I.Holds w (backend.halt s)
  abandon : ∀ w s, I.Holds w s → I.Holds w (backend.abandon s)
  commit : ∀ w s endOfStep, I.Holds w s → Rests s →
    ∃ w', I.Holds w' (backend.commit endOfStep s)

/-! ### Companions -/

section Operations

variable (I : Invariant S V) (w : I.World) (one : Backend S V) (two : Backend T V)

/-- A computation of one backend and the same one of another, on values that are covered, with what
is known of its result. -/
inductive Operates :
    {α : Type} → (I.World → α → Prop) → Computation S α → Computation T α → Prop where
  | readStored (function : FunctionId) {args : List V} (hargs : I.CoversAll w args) :
      Operates I.Covers (one.readStored function args) (two.readStored function args)
  | operate (expr : Expr) {args : List V} (hread : ∀ function args, expr ≠ .read function args)
      (hargs : I.CoversAll w args) :
      Operates I.Covers (one.operate expr args) (two.operate expr args)
  | decide {value : V} (hvalue : I.Covers w value) :
      Operates I.Anything (one.decide value) (two.decide value)
  | elements {value : V} (hvalue : I.Covers w value) :
      Operates I.CoversAll (one.elements value) (two.elements value)
  | ruleOf (value : V) : Operates I.Anything (one.ruleOf value) (two.ruleOf value)
  | print (values : List V) : Operates I.Anything (one.print values) (two.print values)
  | pushed {value current : V} (hvalue : I.Covers w value) (hcurrent : I.Covers w current) :
      Operates I.Covers (one.pushed value current) (two.pushed value current)
  | popped {current : V} (hcurrent : I.Covers w current) :
      Operates I.CoversPopped (one.popped current) (two.popped current)
  | write (function : FunctionId) {args : List V} {value : V} (span : Span)
      (hargs : I.CoversAll w args) (hvalue : I.Covers w value) :
      Operates I.Anything (one.write function args value span) (two.write function args value span)
  | enter (parallel : Bool) : Operates I.Anything (one.enter parallel) (two.enter parallel)
  | leave (forked : Bool) : Operates I.Anything (one.leave forked) (two.leave forked)
  | leaveRound (forked : Bool) :
      Operates I.Anything (one.leaveRound forked) (two.leaveRound forked)

end Operations

section Companions

variable (I : Invariant S V) (state : T → S) (Fits : I.World → T → Prop) (one : Backend S V)
  (two : Backend T V)

/-- A backend whose states carry those of another one. -/
structure Companion : Prop where
  spec : two.spec = one.spec
  span : ∀ t, two.span t = one.span (state t)
  equal : ∀ t, two.equal t = one.equal (state t)
  text : ∀ t, two.text t = one.text (state t)
  recordsNothing : ∀ t, two.recordsNothing t = one.recordsNothing (state t)
  setSpan : ∀ span, I.Carries state Fits (one.setSpan span) (two.setSpan span)
  bindLocal : ∀ name value,
    I.Carries state Fits (one.bindLocal name value) (two.bindLocal name value)
  unbindLocal : I.Carries state Fits one.unbindLocal two.unbindLocal
  enterFrame : ∀ params args,
    I.Carries state Fits (one.enterFrame params args) (two.enterFrame params args)
  leaveFrame : ∀ caller,
    I.Carries state Fits (one.leaveFrame (state caller)) (two.leaveFrame caller)
  operates : ∀ {w α} {post : I.World → α → Prop} {run run'},
    Operates I w one two post run run' → I.Follows state Fits w post run run'

structure CallCompanion (Rests : S → Prop) : Prop extends Companion I state Fits one two where
  ofRule : ∀ rule, two.ofRule rule = one.ofRule rule
  halted : ∀ t, two.halted t = one.halted (state t)
  scheduled : ∀ w value,
    I.Follows state Fits w I.Anything (one.scheduled value) (two.scheduled value)
  halt : I.Carries state Fits one.halt two.halt
  abandon : I.Carries state Fits one.abandon two.abandon
  commit : ∀ {w t} endOfStep, I.Holds w (state t) → Rests (state t) → Fits w t →
    state (two.commit endOfStep t) = one.commit endOfStep (state t) ∧
      ∃ w', I.Holds w' (one.commit endOfStep (state t)) ∧ Fits w' (two.commit endOfStep t)

end Companions

open Invariant

variable {I : Invariant S V} {backend : Backend S V} {w : I.World} {s : S}

namespace Companion

variable {state : T → S} {Fits : I.World → T → Prop} {two : Backend T V}
  (h : Companion I state Fits backend two)
include h

theorem evalCorrespondence (hmaintained : EvalMaintained I backend) :
    EvalCorrespondence (I.carried state Fits) backend two (.all backend.spec) where
  spec := h.spec
  span := by
    rintro w _ t ⟨rfl, -⟩
    exact h.span t
  enterFrame := by
    intro w s t params args others hst hargs
    obtain ⟨rfl, hcovers⟩ := allValues_carried_iff.mp hargs
    exact (h.enterFrame params _).states hst (hmaintained.enterFrame w s params _ hst.2.1 hcovers)
  leaveFrame := by
    rintro w w' _ caller s t ⟨rfl, hcaller, -⟩ hst
    exact (h.leaveFrame caller).states hst (hmaintained.leaveFrame w w' _ s hcaller hst.2.1)
  readStored := by
    intro w function args others hargs
    obtain ⟨rfl, hcovers⟩ := allValues_carried_iff.mp hargs
    exact (h.operates (.readStored function hcovers)).alike
      (hmaintained.readStored w function _ hcovers) fun _ _ hvalue => ⟨rfl, hvalue⟩
  operate := by
    intro w expr args others _ hread hargs
    obtain ⟨rfl, hcovers⟩ := allValues_carried_iff.mp hargs
    exact (h.operates (.operate expr hread hcovers)).alike
      (hmaintained.operate w expr _ hread hcovers) fun _ _ hvalue => ⟨rfl, hvalue⟩
  equal := by
    rintro w _ t _ value _ other ⟨rfl, -⟩ ⟨rfl, -⟩ ⟨rfl, -⟩
    rw [h.equal]

theorem correspondence (hmaintained : Maintained I backend) :
    Correspondence (I.carried state Fits) backend two (.all backend.spec) where
  toEvalCorrespondence := h.evalCorrespondence hmaintained.toEvalMaintained
  setSpan w s t span hst := (h.setSpan span).states hst (hmaintained.setSpan w s span hst.2.1)
  bindLocal := by
    rintro w s t name _ value hst ⟨rfl, hvalue⟩
    exact (h.bindLocal name value).states hst (hmaintained.bindLocal w s name value hst.2.1 hvalue)
  unbindLocal w s t hst := h.unbindLocal.states hst (hmaintained.unbindLocal w s hst.2.1)
  decide := by
    rintro w _ value ⟨rfl, hvalue⟩
    exact (h.operates (.decide hvalue)).alike (hmaintained.decide w value hvalue) fun _ _ _ => rfl
  elements := by
    rintro w _ value ⟨rfl, hvalue⟩
    exact (h.operates (.elements hvalue)).alike (hmaintained.elements w value hvalue)
      fun _ _ hcovers => allValues_carried_iff.mpr ⟨rfl, hcovers⟩
  ruleOf := by
    rintro w _ value ⟨rfl, -⟩
    exact (h.operates (.ruleOf value)).alike (hmaintained.ruleOf w value) fun _ _ _ => rfl
  text := by
    rintro w _ t _ value ⟨rfl, -⟩ ⟨rfl, -⟩
    rw [h.text]
  print := by
    intro w values others hvalues
    obtain ⟨rfl, -⟩ := allValues_carried_iff.mp hvalues
    exact (h.operates (.print _)).alike (hmaintained.print w _) fun _ _ _ => rfl
  pushed := by
    rintro w _ value _ current ⟨rfl, hvalue⟩ ⟨rfl, hcurrent⟩
    exact (h.operates (.pushed hvalue hcurrent)).alike
      (hmaintained.pushed w value current hvalue hcurrent) fun _ _ hpushed => ⟨rfl, hpushed⟩
  popped := by
    rintro w _ current ⟨rfl, hcurrent⟩
    refine (h.operates (.popped hcurrent)).alike (hmaintained.popped w current hcurrent) ?_
    rintro w ⟨first, rest⟩ ⟨hfirst, hrest⟩
    refine ⟨⟨rfl, hfirst⟩, ?_⟩
    cases rest with
    | none => exact .none
    | some rest => exact .some ⟨rfl, hrest rest rfl⟩
  write := by
    rintro w function args others _ value span hargs ⟨rfl, hvalue⟩
    obtain ⟨rfl, hcovers⟩ := allValues_carried_iff.mp hargs
    exact (h.operates (.write function span hcovers hvalue)).alike
      (hmaintained.write w function _ value span hcovers hvalue) fun _ _ _ => rfl
  enter w parallel :=
    (h.operates (.enter parallel)).alike (hmaintained.enter w parallel) fun _ _ _ => rfl
  leave w forked := (h.operates (.leave forked)).alike (hmaintained.leave w forked) fun _ _ _ => rfl
  leaveRound w forked :=
    (h.operates (.leaveRound forked)).alike (hmaintained.leaveRound w forked) fun _ _ _ => rfl
  recordsNothing := by
    rintro w _ t ⟨rfl, -⟩
    exact h.recordsNothing t

end Companion

namespace CallCompanion

variable {state : T → S} {Fits : I.World → T → Prop} {two : Backend T V} {Rests : S → Prop}
  (h : CallCompanion I state Fits backend two Rests) (hmaintained : CallsMaintained I backend Rests)
include h hmaintained

theorem callCorrespondence :
    CallCorrespondence (I.carried state Fits) backend two (.all backend.spec) Rests where
  toCorrespondence := h.correspondence hmaintained.toMaintained
  resting := hmaintained.resting
  ofRule w rule := ⟨h.ofRule rule, hmaintained.ofRule w rule⟩
  scheduled := by
    rintro w _ value ⟨rfl, -⟩
    exact (h.scheduled w value).alike (hmaintained.scheduled w value) fun _ _ _ => rfl
  halted := by
    rintro w _ t ⟨rfl, -⟩
    exact h.halted t
  halt w s t hst := h.halt.states hst (hmaintained.halt w s hst.2.1)
  abandon w s t hst := h.abandon.states hst (hmaintained.abandon w s hst.2.1)
  commit := by
    rintro w _ t endOfStep ⟨rfl, hs, hfits⟩ hrests
    obtain ⟨hstate, w', hcommit⟩ := h.commit endOfStep hs hrests hfits
    exact ⟨w', hstate, hcommit⟩

theorem afterCalls {t : T} (hs : I.Holds w (state t)) (hfits : Fits w t) (hrests : Rests (state t))
    (calls : List Call) : state (two.afterCalls t calls) = backend.afterCalls (state t) calls ∧
      ∃ w', I.Holds w' (state (two.afterCalls t calls)) ∧ Fits w' (two.afterCalls t calls) := by
  obtain ⟨w', ⟨hstate, hs', hfits'⟩, -⟩ := (h.callCorrespondence hmaintained).afterCalls
    (fun call (_ : call ∈ calls) => call.of_all) ⟨rfl, hs, hfits⟩ hrests
  exact ⟨hstate, w', hstate ▸ hs', hfits'⟩

end CallCompanion

theorem Invariant.follows_self {run : Computation S α} {post : I.World → α → Prop} :
    I.Follows id (fun _ _ => True) w post run run :=
  fun _ _ _ next _ _ heq _ _ _ => ⟨next, heq, rfl, trivial⟩

theorem Invariant.follows_within {held : T → S} {hold : T → S → T} {Fits : I.World → T → Prop}
    {run : Computation S α} {post : I.World → α → Prop} (hheld : ∀ t s, held (hold t s) = s)
    (hfits : ∀ {t w' result next}, run (held t) = (result, next) → Fits w t → I.Later w w' →
      Fits w' (hold t next)) :
    I.Follows held Fits w post run (within held hold run) :=
  fun t _ _ next _ hbefore heq hlater _ _ =>
    ⟨hold t next, by rw [within, heq], hheld t next, hfits heq hbefore hlater⟩

theorem Invariant.carries_self (change : S → S) : I.Carries id (fun _ _ => True) change change :=
  fun _ _ _ => ⟨rfl, trivial⟩

theorem Companion.self (I : Invariant S V) (backend : Backend S V) :
    Companion I id (fun _ _ => True) backend backend where
  spec := rfl
  span _ := rfl
  equal _ := rfl
  text _ := rfl
  recordsNothing _ := rfl
  setSpan _ := carries_self _
  bindLocal _ _ := carries_self _
  unbindLocal := carries_self _
  enterFrame _ _ := carries_self _
  leaveFrame _ := carries_self _
  operates hoperates := by cases hoperates <;> exact follows_self

namespace EvalMaintained

variable (h : EvalMaintained I backend)
include h

theorem correspondence : EvalCorrespondence I.diagonal backend backend (.all backend.spec) :=
  (Companion.self I backend).evalCorrespondence h

theorem eval (fuel : Nat) (expr : Expr) : I.Maintains w I.Covers (backend.eval fuel expr) :=
  maintains_of_alike (h.correspondence.eval fuel w expr trivial) fun _ _ hvalue => hvalue.2

end EvalMaintained

namespace Maintained

variable (h : Maintained I backend)
include h

theorem correspondence : Correspondence I.diagonal backend backend (.all backend.spec) :=
  (Companion.self I backend).correspondence h

theorem evalAll (fuel : Nat) (exprs : List Expr) :
    I.Maintains w I.CoversAll (backend.evalAll fuel exprs) :=
  maintains_of_alike (h.correspondence.evalAll fuel w exprs fun _ _ => trivial) fun _ _ hvalues =>
    (allValues_carried_iff.mp hvalues).2

theorem read (fuel : Nat) (function : FunctionId) :
    I.Maintains w I.Covers (backend.read fuel function []) :=
  maintains_of_alike (h.correspondence.read fuel function .nil) fun _ _ hvalue => hvalue.2

theorem callRule (fuel : Nat) (rule : RuleId) :
    I.Maintains w I.Anything (backend.callRule (backend.exec fuel) rule []) :=
  maintains_of_alike (h.correspondence.callRule (h.correspondence.exec fuel) rule .nil)
    fun _ _ _ => trivial

theorem scheduleStart (hrule : ∀ w rule, I.Covers w (backend.ofRule rule)) (fuel : Nat) :
    I.Maintains w I.Anything (backend.scheduleStart fuel) :=
  maintains_of_alike (h.correspondence.scheduleStart (fun w rule => ⟨rfl, hrule w rule⟩) fuel)
    fun _ _ _ => trivial

end Maintained

theorem CallsMaintained.afterCalls {Rests : S → Prop} (h : CallsMaintained I backend Rests)
    (calls : List Call) (hs : I.Holds w s) (hrests : Rests s) :
    ∃ w', I.Holds w' (backend.afterCalls s calls) := by
  have hself : CallCompanion I id (fun _ _ => True) backend backend Rests :=
    { Companion.self I backend with
      ofRule := fun _ => rfl
      halted := fun _ => rfl
      scheduled := fun _ _ => follows_self
      halt := carries_self _
      abandon := carries_self _
      commit := fun {w s} endOfStep hs hrests _ => by
        obtain ⟨w', hcommit⟩ := h.commit w s endOfStep hs hrests
        exact ⟨rfl, w', hcommit, trivial⟩ }
  obtain ⟨-, w', hs', -⟩ := hself.afterCalls h hs trivial hrests calls
  exact ⟨w', hs'⟩

end AbstractStateMachine
