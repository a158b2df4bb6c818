import AbstractStateMachine.Proofs.Backend.Correspondence

/-!
# Calls to an interpreter

A machine is driven by calls: it is initialized, takes steps, runs, and executes or evaluates what
it is given in between. Over corresponding backends every sequence of calls gets the same replies.
-/

namespace AbstractStateMachine

open AbstractStateMachine.Computation

inductive Call where
  | init (fuel : Nat)
  | step (fuel : Nat)
  | run (fuel rounds : Nat) (limit : Option Nat)
  | exec (fuel : Nat) (stmt : Stmt)
  | eval (fuel : Nat) (expr : Expr)

inductive Reply (V : Type) where
  | done
  | stepped (more : Bool)
  | value (value : V)
  deriving DecidableEq, Repr

namespace Run

def call (setting : Setting) : Call → Run (Reply Value)
  | .init fuel => do
    init setting fuel
    pure .done
  | .step fuel => do
    let more ← step setting fuel
    pure (.stepped more)
  | .run fuel rounds limit => do
    let more ← run setting fuel rounds limit
    pure (.stepped more)
  | .exec fuel stmt => do
    exec setting fuel stmt
    pure .done
  | .eval fuel expr => do
    let value ← eval setting fuel expr
    pure (.value value)

end Run

namespace Machine

/-- The machine after a sequence of calls, of which any may have failed. -/
def afterCalls (setting : Setting) (calls : List Call) : Machine :=
  calls.foldl (fun machine call => (Run.call setting call machine).2) (.new setting)

end Machine

namespace Backend

variable {S V : Type}

def call (backend : Backend S V) : Call → Computation S (Reply V)
  | .init fuel => do
    backend.init fuel
    pure .done
  | .step fuel => do
    let more ← backend.step fuel
    pure (.stepped more)
  | .run fuel rounds limit => do
    let more ← backend.run fuel rounds limit
    pure (.stepped more)
  | .exec fuel stmt => do
    backend.exec fuel stmt
    pure .done
  | .eval fuel expr => do
    let value ← backend.eval fuel expr
    pure (.value value)

def afterCalls (backend : Backend S V) (start : S) (calls : List Call) : S :=
  calls.foldl (fun state call => (backend.call call state).2) start

end Backend

namespace Run

theorem call_eq (setting : Setting) (call : Call) :
    Run.call setting call = (Machine.backend setting).call call := by
  cases call with
  | init fuel => rw [Run.call, Backend.call, init_eq]
  | step fuel => rw [Run.call, Backend.call, step_eq]
  | run fuel rounds limit => rw [Run.call, Backend.call, run_eq]
  | exec fuel stmt => rw [Run.call, Backend.call, exec_eq]
  | eval fuel expr => rw [Run.call, Backend.call, eval_eq]

end Run

theorem Machine.afterCalls_eq (setting : Setting) (calls : List Call) :
    Machine.afterCalls setting calls =
      (Machine.backend setting).afterCalls (.new setting) calls := by
  simp only [Machine.afterCalls, Backend.afterCalls, Run.call_eq]

variable {S₁ V₁ S₂ V₂ α β : Type}

def Fragment.calls {spec : Specification} (fragment : Fragment spec) : Call → Prop
  | .exec _ stmt => fragment.stmts stmt
  | .eval _ expr => fragment.exprs expr
  | .init _ | .step _ | .run _ _ _ => True

theorem Call.of_all {spec : Specification} (call : Call) : (Fragment.all spec).calls call := by
  cases call <;> trivial

/-- Between calls a state rests, and no call changes that. -/
structure Backend.KeepsResting (backend : Backend S₁ V₁) (Rests : S₁ → Prop) : Prop where
  setSpan : ∀ s span, Rests s → Rests (backend.setSpan span s)
  read : ∀ s fuel function, Rests s → Rests (backend.read fuel function [] s).2
  scheduled : ∀ s a, Rests s → Rests (backend.scheduled a s).2
  callRule : ∀ s fuel rule, Rests s → Rests (backend.callRule (backend.exec fuel) rule [] s).2
  scheduleStart : ∀ s fuel, Rests s → Rests (backend.scheduleStart fuel s).2
  exec : ∀ s fuel stmt, Rests s → Rests (backend.exec fuel stmt s).2
  eval : ∀ s fuel expr, Rests s → Rests (backend.eval fuel expr s).2
  halt : ∀ s, Rests s → Rests (backend.halt s)
  abandon : ∀ s, Rests s → Rests (backend.abandon s)
  commit : ∀ s endOfStep, Rests s → Rests (backend.commit endOfStep s)

/-- What calls need of corresponding backends beyond expressions and statements. Committing a state
at rest may start a new world. -/
structure CallCorrespondence (C : Coupling S₁ V₁ S₂ V₂) (one : Backend S₁ V₁) (two : Backend S₂ V₂)
    (fragment : Fragment one.spec) (Rests : S₁ → Prop) : Prop
    extends Correspondence C one two fragment where
  resting : one.KeepsResting Rests
  ofRule : ∀ w rule, C.Values w (one.ofRule rule) (two.ofRule rule)
  scheduled : ∀ w a b, C.Values w a b → C.Alike w C.Same (one.scheduled a) (two.scheduled b)
  halted : ∀ w s t, C.States w s t → two.halted t = one.halted s
  halt : ∀ w s t, C.States w s t → C.States w (one.halt s) (two.halt t)
  abandon : ∀ w s t, C.States w s t → C.States w (one.abandon s) (two.abandon t)
  commit : ∀ w s t endOfStep, C.States w s t → Rests s →
    ∃ w', C.States w' (one.commit endOfStep s) (two.commit endOfStep t)

namespace Coupling

variable (C : Coupling S₁ V₁ S₂ V₂) (Rests : S₁ → Prop)

inductive AnswersAlike (rel : C.World → α → β → Prop) :
    Except Stop α × S₁ → Except Stop β × S₂ → Prop where
  | ok {w : C.World} {a : α} {b : β} {s : S₁} {t : S₂} (hstates : C.States w s t)
      (hrests : Rests s) (hrel : rel w a b) : AnswersAlike rel (.ok a, s) (.ok b, t)
  | error {w : C.World} (stop : Stop) {s : S₁} {t : S₂} (hstates : C.States w s t)
      (hrests : Rests s) : AnswersAlike rel (.error stop, s) (.error stop, t)

def Replies (w : C.World) : Reply V₁ → Reply V₂ → Prop
  | .done, .done => True
  | .stepped more, .stepped more' => more = more'
  | .value a, .value b => C.Values w a b
  | _, _ => False

variable {C Rests} {rel : C.World → α → β → Prop} {outcome : Except Stop α × S₁}
  {outcome' : Except Stop β × S₂}

theorem EndsAlike.answers {w : C.World} (h : C.EndsAlike w rel outcome outcome')
    (hrests : Rests outcome.2) : C.AnswersAlike Rests rel outcome outcome' := by
  cases h with
  | ok hlater hstates hrel => exact .ok hstates hrests hrel
  | error stop hlater hstates => exact .error stop hstates hrests

variable {γ δ : Type} {rel' : C.World → γ → δ → Prop}

theorem AnswersAlike.bind {first : Computation S₁ α} {second : Computation S₂ β} {s : S₁} {t : S₂}
    (h : C.AnswersAlike Rests rel (first s) (second t)) {rest : α → Computation S₁ γ}
    {rest' : β → Computation S₂ δ}
    (hrest : ∀ w a b s t, C.States w s t → Rests s → rel w a b →
      C.AnswersAlike Rests rel' (rest a s) (rest' b t)) :
    C.AnswersAlike Rests rel' ((first >>= rest) s) ((second >>= rest') t) := by
  show C.AnswersAlike Rests rel' (ExceptT.bindCont rest (first s).1 (first s).2)
    (ExceptT.bindCont rest' (second t).1 (second t).2)
  generalize first s = outcome at h ⊢
  generalize second t = outcome' at h ⊢
  cases h with
  | ok hstates hrests hrel => exact hrest _ _ _ _ _ hstates hrests hrel
  | error stop hstates hrests => exact .error stop hstates hrests

theorem AnswersAlike.matched (h : C.AnswersAlike Rests rel outcome outcome') :
    ∃ w, C.States w outcome.2 outcome'.2 ∧ Rests outcome.2 := by
  cases h with
  | ok hstates hrests _ => exact ⟨_, hstates, hrests⟩
  | error _ hstates hrests => exact ⟨_, hstates, hrests⟩

end Coupling

namespace Correspondence

open Coupling

variable {C : Coupling S₁ V₁ S₂ V₂} {one : Backend S₁ V₁} {two : Backend S₂ V₂}
  {fragment : Fragment one.spec} (h : Correspondence C one two fragment) {w : C.World}
include h

theorem writeInitializers (fuel : Nat) (function : FunctionId)
    {initializers : List (List Expr × Expr)}
    (hexprs : ∀ initializer ∈ initializers,
      fragment.exprs initializer.2 ∧ ∀ expr ∈ initializer.1, fragment.exprs expr) :
    C.Alike w C.Same (one.writeInitializers fuel function initializers)
      (two.writeInitializers fuel function initializers) := by
  induction initializers generalizing w with
  | nil => exact alike_pure rfl
  | cons initializer rest ih =>
    obtain ⟨⟨hvalue, hargs⟩, hrest⟩ := List.forall_mem_cons.mp hexprs
    refine (h.evalAll fuel w initializer.1 hargs).bind fun w₁ as bs _ hargs => ?_
    refine (h.eval fuel w₁ initializer.2 hvalue).bind fun w₂ a b hlater hvalue => ?_
    refine (h.write w₂ function as bs a b _ (hargs.later hlater) hvalue).bind
      fun _ _ _ _ _ => ?_
    exact ih hrest

theorem scheduleStart (hrule : ∀ w rule, C.Values w (one.ofRule rule) (two.ofRule rule))
    (fuel : Nat) : C.Alike w C.Same (one.scheduleStart fuel) (two.scheduleStart fuel) := by
  have hall : ∀ (functions : List FunctionId) (w : C.World),
      C.Alike w C.Same (one.writeAllInitializers fuel functions)
        (two.writeAllInitializers fuel functions) := by
    intro functions
    induction functions with
    | nil => exact fun _ => alike_pure rfl
    | cons function rest ih =>
      intro w
      rw [Backend.writeAllInitializers, Backend.writeAllInitializers, h.spec]
      exact (h.writeInitializers fuel function (fragment.initializers function)).bind
        fun w' _ _ _ _ => ih w'
  rw [Backend.scheduleStart, Backend.scheduleStart, h.spec]
  refine (hall _ w).bind fun w' _ _ _ _ => ?_
  cases one.spec.start with
  | none => exact alike_pure rfl
  | some rule => exact h.write w' Specification.program [] [] _ _ _ .nil (hrule w' rule)

end Correspondence

namespace CallCorrespondence

open Coupling

variable {C : Coupling S₁ V₁ S₂ V₂} {one : Backend S₁ V₁} {two : Backend S₂ V₂}
  {fragment : Fragment one.spec} {Rests : S₁ → Prop}
  (h : CallCorrespondence C one two fragment Rests) {w : C.World} {s : S₁} {t : S₂}
include h

theorem orElse {first : Computation S₁ Unit} {second : Computation S₂ Unit}
    (hends : C.EndsAlike w C.Same (first s) (second t)) (hrests : Rests (first s).2) :
    C.AnswersAlike Rests C.Same (orElse one.abandon first s) (orElse two.abandon second t) := by
  unfold Computation.orElse
  generalize first s = outcome at hends hrests ⊢
  generalize second t = outcome' at hends ⊢
  cases hends with
  | ok hlater hstates hrel => exact .ok hstates hrests hrel
  | error stop hlater hstates =>
    exact .error stop (h.abandon _ _ _ hstates) (h.resting.abandon _ hrests)

theorem commits (hstates : C.States w s t) (hrests : Rests s) (endOfStep : Bool) :
    C.AnswersAlike Rests C.Same ((modify (one.commit endOfStep) : Computation S₁ Unit) s)
      ((modify (two.commit endOfStep) : Computation S₂ Unit) t) := by
  obtain ⟨w', hcommit⟩ := h.commit w s t endOfStep hstates hrests
  exact .ok hcommit (h.resting.commit s endOfStep hrests) rfl

theorem init (fuel : Nat) (hstates : C.States w s t) (hrests : Rests s) :
    C.AnswersAlike Rests C.Same (one.init fuel s) (two.init fuel t) := by
  have hstart := h.orElse (h.scheduleStart h.ofRule fuel s t hstates)
    (h.resting.scheduleStart s fuel hrests)
  exact hstart.bind fun w _ _ s t hstates hrests _ => h.commits hstates hrests false

theorem step (fuel : Nat) (hstates : C.States w s t) (hrests : Rests s) :
    C.AnswersAlike Rests C.Same (one.step fuel s) (two.step fuel t) := by
  show C.AnswersAlike Rests C.Same
    ((if one.halted s then pure false else _ : Computation S₁ Bool) s)
    ((if two.halted t then pure false else _ : Computation S₂ Bool) t)
  rw [h.halted w s t hstates]
  split
  · exact .ok hstates hrests rfl
  have hread := (h.read fuel Specification.program .nil _ _ (h.setSpan w s t {} hstates)).answers
    (h.resting.read _ fuel Specification.program (h.resting.setSpan s {} hrests))
  refine hread.bind fun w₁ a b s t hstates hrests hprogram => ?_
  have hscheduled := (h.scheduled w₁ a b hprogram s t hstates).answers
    (h.resting.scheduled s a hrests)
  refine hscheduled.bind fun w₂ rule? _ s t hstates hrests hrule => ?_
  cases hrule
  cases rule? with
  | none => exact .ok (h.halt w₂ s t hstates) (h.resting.halt s hrests) rfl
  | some rule =>
    have hcall := h.orElse (h.callRule (h.exec fuel) rule .nil s t hstates)
      (h.resting.callRule s fuel rule hrests)
    refine hcall.bind fun w₃ _ _ s t hstates hrests _ => ?_
    refine (h.commits hstates hrests true).bind fun w₄ _ _ s t hstates hrests _ => ?_
    exact .ok hstates hrests rfl

theorem run (fuel rounds : Nat) (limit : Option Nat) (hstates : C.States w s t)
    (hrests : Rests s) :
    C.AnswersAlike Rests C.Same (one.run fuel rounds limit s) (two.run fuel rounds limit t) := by
  induction rounds generalizing w s t limit with
  | zero => exact .error _ hstates hrests
  | succ rounds ih =>
    unfold Backend.run
    split
    · exact .ok hstates hrests rfl
    refine (h.step fuel hstates hrests).bind fun w' more _ s t hstates hrests hmore => ?_
    cases hmore
    split
    · exact ih _ hstates hrests
    · exact .ok hstates hrests rfl

theorem call {call : Call} (hcall : fragment.calls call) (hstates : C.States w s t)
    (hrests : Rests s) : C.AnswersAlike Rests C.Replies (one.call call s) (two.call call t) := by
  cases call with
  | init fuel =>
    exact (h.init fuel hstates hrests).bind fun _ _ _ _ _ hstates hrests _ =>
      .ok hstates hrests trivial
  | step fuel =>
    exact (h.step fuel hstates hrests).bind fun _ _ _ _ _ hstates hrests hmore =>
      .ok hstates hrests hmore
  | run fuel rounds limit =>
    exact (h.run fuel rounds limit hstates hrests).bind fun _ _ _ _ _ hstates hrests hmore =>
      .ok hstates hrests hmore
  | exec fuel stmt =>
    have hexec := (h.exec fuel w stmt hcall s t hstates).answers
      (h.resting.exec s fuel stmt hrests)
    exact hexec.bind fun _ _ _ _ _ hstates hrests _ => .ok hstates hrests trivial
  | eval fuel expr =>
    have heval := (h.eval fuel w expr hcall s t hstates).answers
      (h.resting.eval s fuel expr hrests)
    exact heval.bind fun _ _ _ _ _ hstates hrests hvalue => .ok hstates hrests hvalue

theorem afterCalls {calls : List Call} (hcalls : ∀ call ∈ calls, fragment.calls call)
    (hstates : C.States w s t) (hrests : Rests s) :
    ∃ w', C.States w' (one.afterCalls s calls) (two.afterCalls t calls) ∧
      Rests (one.afterCalls s calls) := by
  induction calls generalizing w s t with
  | nil => exact ⟨w, hstates, hrests⟩
  | cons call rest ih =>
    obtain ⟨hcall, hrest⟩ := List.forall_mem_cons.mp hcalls
    obtain ⟨w', hstates', hrests'⟩ := (h.call hcall hstates hrests).matched
    exact ih hrest hstates' hrests'

end CallCorrespondence

end AbstractStateMachine
