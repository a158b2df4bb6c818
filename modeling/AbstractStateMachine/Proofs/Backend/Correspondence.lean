import AbstractStateMachine.Proofs.Backend.Basic
import Mathlib.Data.List.Forall2

/-!
# Interpreters over corresponding backends

A coupling relates the states and the values of two backends. What is related may depend on a world,
such as the heap that the values refer to, and stays related in later worlds. If every operation of
one backend ends like that of the other, in related states and with related results, then so does
every expression, every statement and every call.
-/

namespace AbstractStateMachine

open AbstractStateMachine.Computation

variable {S₁ V₁ S₂ V₂ α β γ δ : Type}

/-! ### Fragments -/

/-- The expressions that a statement evaluates itself. -/
def Action.exprs : Action → List Expr
  | .skip | .par _ | .seq _ | .iterate _ => []
  | .update _ args value => value :: args
  | .ifThen cond _ _ | .assert cond => [cond]
  | .cases scrutinee arms _ => scrutinee :: arms.map Prod.fst
  | .letIn _ value _ => [value]
  | .forAll _ domain _ => [domain]
  | .call _ args | .print args | .pop _ args _ => args
  | .callValue target args => target :: args
  | .abort message => message.toList
  | .push value _ args => value :: args

/-- The statements within a statement. -/
def Action.bodies : Action → List Stmt
  | .par body | .seq body => body
  | .ifThen _ yes no => yes :: no.toList
  | .cases _ arms default => default.toList ++ arms.map Prod.snd
  | .letIn _ _ body | .forAll _ _ body | .iterate body => [body]
  | _ => []

theorem getD_mem_or_eq (values : Array α) (index : Nat) (default : α) :
    values.getD index default ∈ values ∨ values.getD index default = default := by
  rw [Array.getD_eq_getD_getElem?]
  by_cases hlt : index < values.size
  · rw [Array.getElem?_eq_getElem hlt, Option.getD_some]
    exact .inl (Array.getElem_mem hlt)
  · rw [Array.getElem?_eq_none (by omega)]
    exact .inr rfl

theorem Specification.function_mem_or_eq_default (spec : Specification) (id : FunctionId) :
    spec.function id ∈ spec.functions ∨ spec.function id = default :=
  getD_mem_or_eq spec.functions id.index default

theorem Specification.rule_mem_or_eq_default (spec : Specification) (id : RuleId) :
    spec.rule id ∈ spec.rules ∨ spec.rule id = default :=
  getD_mem_or_eq spec.rules id.index default

/-- A part of the language that contains whatever its expressions and statements lead to. -/
structure Fragment (spec : Specification) where
  exprs : Expr → Prop
  stmts : Stmt → Prop
  children : ∀ expr, exprs expr → ∀ child ∈ expr.children, exprs child
  exprs_of_stmts : ∀ stmt, stmts stmt → ∀ expr ∈ stmt.action.exprs, exprs expr
  bodies : ∀ stmt, stmts stmt → ∀ body ∈ stmt.action.bodies, stmts body
  derived : ∀ id params body, (spec.function id).kind = .derived params body → exprs body
  rules : ∀ id body, (spec.rule id).body = some body → stmts body
  initializers : ∀ id, ∀ initializer ∈ (spec.function id).initializers,
    exprs initializer.2 ∧ ∀ expr ∈ initializer.1, exprs expr

def Fragment.all (spec : Specification) : Fragment spec where
  exprs _ := True
  stmts _ := True
  children _ _ _ _ := trivial
  exprs_of_stmts _ _ _ _ := trivial
  bodies _ _ _ _ := trivial
  derived _ _ _ _ := trivial
  rules _ _ _ := trivial
  initializers _ _ _ := ⟨trivial, fun _ _ => trivial⟩

/-! ### Couplings -/

structure Coupling (S₁ V₁ S₂ V₂ : Type) where
  World : Type
  Later : World → World → Prop
  States : World → S₁ → S₂ → Prop
  Values : World → V₁ → V₂ → Prop
  later_refl : ∀ w, Later w w
  later_trans : ∀ {w w' w''}, Later w w' → Later w' w'' → Later w w''
  values_later : ∀ {w w' a b}, Later w w' → Values w a b → Values w' a b

namespace Coupling

variable (C : Coupling S₁ V₁ S₂ V₂) {w w' : C.World} {first : Computation S₁ α}
  {second : Computation S₂ β}

/-- How two computations end alike that were started in world `w`. -/
inductive EndsAlike (w : C.World) (rel : C.World → α → β → Prop) :
    Except Stop α × S₁ → Except Stop β × S₂ → Prop where
  | ok {w' : C.World} {a : α} {b : β} {s : S₁} {t : S₂} (hlater : C.Later w w')
      (hstates : C.States w' s t) (hrel : rel w' a b) : EndsAlike w rel (.ok a, s) (.ok b, t)
  | error {w' : C.World} (stop : Stop) {s : S₁} {t : S₂} (hlater : C.Later w w')
      (hstates : C.States w' s t) : EndsAlike w rel (.error stop, s) (.error stop, t)

def Alike (w : C.World) (rel : C.World → α → β → Prop) (first : Computation S₁ α)
    (second : Computation S₂ β) : Prop :=
  ∀ s t, C.States w s t → C.EndsAlike w rel (first s) (second t)

def Same (_ : C.World) (a b : α) : Prop := a = b

def AllValues (w : C.World) : List V₁ → List V₂ → Prop := List.Forall₂ (C.Values w)

def Attempted (w : C.World) (a : Except Fault V₁) (b : Except Fault V₂) : Prop :=
  match a, b with
  | .ok a, .ok b => C.Values w a b
  | .error fault, .error fault' => fault = fault'
  | _, _ => False

def Popped (w : C.World) (a : V₁ × Option V₁) (b : V₂ × Option V₂) : Prop :=
  C.Values w a.1 b.1 ∧ Option.Rel (C.Values w) a.2 b.2

variable {C} {rel : C.World → α → β → Prop} {rel' : C.World → γ → δ → Prop}

theorem AllValues.later {as : List V₁} {bs : List V₂} (hlater : C.Later w w')
    (h : C.AllValues w as bs) : C.AllValues w' as bs :=
  h.imp fun _ _ => C.values_later hlater

theorem Attempted.later {a : Except Fault V₁} {b : Except Fault V₂} (hlater : C.Later w w')
    (h : C.Attempted w a b) : C.Attempted w' a b := by
  cases a <;> cases b
  · exact h
  · exact h
  · exact h
  · exact C.values_later hlater h

theorem EndsAlike.of_later {outcome : Except Stop α × S₁} {outcome' : Except Stop β × S₂}
    (hlater : C.Later w w') (h : C.EndsAlike w' rel outcome outcome') :
    C.EndsAlike w rel outcome outcome' := by
  cases h with
  | ok hlater' hstates hrel => exact .ok (C.later_trans hlater hlater') hstates hrel
  | error stop hlater' hstates => exact .error stop (C.later_trans hlater hlater') hstates

/-! ### Rules -/

theorem Alike.imp {weaker : C.World → α → β → Prop} (h : C.Alike w rel first second)
    (himp : ∀ w a b, rel w a b → weaker w a b) : C.Alike w weaker first second := by
  intro s t hstates
  have hends := h s t hstates
  generalize first s = outcome at hends ⊢
  generalize second t = outcome' at hends ⊢
  cases hends with
  | ok hlater hstates hrel => exact .ok hlater hstates (himp _ _ _ hrel)
  | error stop hlater hstates => exact .error stop hlater hstates

theorem alike_pure {a : α} {b : β} (h : rel w a b) : C.Alike w rel (pure a) (pure b) :=
  fun _ _ hstates => .ok (C.later_refl w) hstates h

theorem alike_throw (stop : Stop) : C.Alike w rel (throw stop) (throw stop) :=
  fun _ _ hstates => .error stop (C.later_refl w) hstates

theorem Alike.bind {rest : α → Computation S₁ γ} {rest' : β → Computation S₂ δ}
    (h : C.Alike w rel first second)
    (hrest : ∀ w' a b, C.Later w w' → rel w' a b → C.Alike w' rel' (rest a) (rest' b)) :
    C.Alike w rel' (first >>= rest) (second >>= rest') := by
  intro s t hstates
  have hends := h s t hstates
  show C.EndsAlike w rel' (ExceptT.bindCont rest (first s).1 (first s).2)
    (ExceptT.bindCont rest' (second t).1 (second t).2)
  generalize first s = outcome at hends ⊢
  generalize second t = outcome' at hends ⊢
  cases hends with
  | ok hlater hstates hrel => exact .of_later hlater (hrest _ _ _ hlater hrel _ _ hstates)
  | error stop hlater hstates => exact .error stop hlater hstates

theorem alike_get {rest : S₁ → Computation S₁ α} {rest' : S₂ → Computation S₂ β}
    (h : ∀ s t, C.States w s t → C.Alike w rel (rest s) (rest' t)) :
    C.Alike w rel (get >>= rest) (get >>= rest') :=
  fun s t hstates => h s t hstates s t hstates

theorem alike_modify {change : S₁ → S₁} {change' : S₂ → S₂}
    (h : ∀ s t, C.States w s t → C.States w (change s) (change' t)) :
    C.Alike w C.Same (modify change) (modify change') :=
  fun s t hstates => .ok (C.later_refl w) (h s t hstates) rfl

theorem Alike.attempt {first : Computation S₁ V₁} {second : Computation S₂ V₂}
    (h : C.Alike w C.Values first second) :
    C.Alike w C.Attempted (attempt first) (attempt second) := by
  intro s t hstates
  have hends := h s t hstates
  unfold Computation.attempt
  generalize first s = outcome at hends ⊢
  generalize second t = outcome' at hends ⊢
  cases hends with
  | ok hlater hstates hrel => exact .ok hlater hstates hrel
  | error stop hlater hstates =>
    cases stop with
    | fault fault => exact .ok hlater hstates rfl
    | outOfFuel => exact .error _ hlater hstates

theorem alike_collect {outcomes : List (Except Fault V₁)} {outcomes' : List (Except Fault V₂)}
    (h : List.Forall₂ (C.Attempted w) outcomes outcomes') :
    C.Alike w C.AllValues (collect outcomes) (collect outcomes') := by
  induction h with
  | nil => exact alike_pure .nil
  | @cons a b rest rest' hfirst _ ih =>
    cases a with
    | error fault =>
      cases b with
      | error fault' =>
        cases hfirst
        exact alike_throw _
      | ok _ => cases hfirst
    | ok value =>
      cases b with
      | error _ => cases hfirst
      | ok value' =>
        refine ih.bind fun w' values values' hlater hvalues => ?_
        exact alike_pure (.cons (C.values_later hlater hfirst) hvalues)

theorem Alike.restoring (h : C.Alike w rel first second) {restore : S₁ → S₁} {restore' : S₂ → S₂}
    (hrestore : ∀ w' s t, C.Later w w' → C.States w' s t → C.States w' (restore s) (restore' t)) :
    C.Alike w rel (restoring restore first) (restoring restore' second) := by
  intro s t hstates
  have hends := h s t hstates
  unfold Computation.restoring
  generalize first s = outcome at hends ⊢
  generalize second t = outcome' at hends ⊢
  cases hends with
  | ok hlater hstates hrel => exact .ok hlater (hrestore _ _ _ hlater hstates) hrel
  | error stop hlater hstates => exact .error stop hlater (hrestore _ _ _ hlater hstates)

end Coupling

/-! ### Correspondence -/

/-- The operations that evaluation needs end alike in both backends, given related operands. -/
structure EvalCorrespondence (C : Coupling S₁ V₁ S₂ V₂) (one : Backend S₁ V₁)
    (two : Backend S₂ V₂) (fragment : Fragment one.spec) : Prop where
  spec : two.spec = one.spec
  span : ∀ w s t, C.States w s t → two.span t = one.span s
  enterFrame : ∀ w s t params as bs, C.States w s t → C.AllValues w as bs →
    C.States w (one.enterFrame params as s) (two.enterFrame params bs t)
  leaveFrame : ∀ w w' s t s' t', C.States w s t → C.States w' s' t' →
    C.States w' (one.leaveFrame s s') (two.leaveFrame t t')
  readStored : ∀ w function as bs, C.AllValues w as bs →
    C.Alike w C.Values (one.readStored function as) (two.readStored function bs)
  operate : ∀ w expr as bs, fragment.exprs expr → (∀ function args, expr ≠ .read function args) →
    C.AllValues w as bs → C.Alike w C.Values (one.operate expr as) (two.operate expr bs)
  equal : ∀ w s t a b a' b', C.States w s t → C.Values w a b → C.Values w a' b' →
    two.equal t b b' = one.equal s a a'

/-- Every operation ends alike in both backends, given related operands. -/
structure Correspondence (C : Coupling S₁ V₁ S₂ V₂) (one : Backend S₁ V₁) (two : Backend S₂ V₂)
    (fragment : Fragment one.spec) : Prop extends EvalCorrespondence C one two fragment where
  setSpan : ∀ w s t span, C.States w s t → C.States w (one.setSpan span s) (two.setSpan span t)
  bindLocal : ∀ w s t name a b, C.States w s t → C.Values w a b →
    C.States w (one.bindLocal name a s) (two.bindLocal name b t)
  unbindLocal : ∀ w s t, C.States w s t → C.States w (one.unbindLocal s) (two.unbindLocal t)
  decide : ∀ w a b, C.Values w a b → C.Alike w C.Same (one.decide a) (two.decide b)
  elements : ∀ w a b, C.Values w a b → C.Alike w C.AllValues (one.elements a) (two.elements b)
  ruleOf : ∀ w a b, C.Values w a b → C.Alike w C.Same (one.ruleOf a) (two.ruleOf b)
  text : ∀ w s t a b, C.States w s t → C.Values w a b → two.text t b = one.text s a
  print : ∀ w as bs, C.AllValues w as bs → C.Alike w C.Same (one.print as) (two.print bs)
  pushed : ∀ w a b a' b', C.Values w a b → C.Values w a' b' →
    C.Alike w C.Values (one.pushed a a') (two.pushed b b')
  popped : ∀ w a b, C.Values w a b → C.Alike w C.Popped (one.popped a) (two.popped b)
  write : ∀ w function as bs a b span, C.AllValues w as bs → C.Values w a b →
    C.Alike w C.Same (one.write function as a span) (two.write function bs b span)
  enter : ∀ w parallel, C.Alike w C.Same (one.enter parallel) (two.enter parallel)
  leave : ∀ w forked, C.Alike w C.Same (one.leave forked) (two.leave forked)
  leaveRound : ∀ w forked, C.Alike w C.Same (one.leaveRound forked) (two.leaveRound forked)
  recordsNothing : ∀ w s t, C.States w s t → two.recordsNothing t = one.recordsNothing s

namespace EvalCorrespondence

open Coupling

variable {C : Coupling S₁ V₁ S₂ V₂} {one : Backend S₁ V₁} {two : Backend S₂ V₂}
  {fragment : Fragment one.spec} (h : EvalCorrespondence C one two fragment) {w w' : C.World}
  {rel : C.World → α → β → Prop}
include h

theorem raise (cause : Cause) : C.Alike w rel (one.raise cause) (two.raise cause) := by
  refine alike_get fun s t hstates => ?_
  rw [h.span w s t hstates]
  exact alike_throw _

theorem withFrame {first : Computation S₁ α} {second : Computation S₂ β}
    (hrun : C.Alike w rel first second) (params : List String) {as : List V₁} {bs : List V₂}
    (hargs : C.AllValues w as bs) :
    C.Alike w rel (one.withFrame params as first) (two.withFrame params bs second) := by
  intro s t hstates
  exact hrun.restoring (fun w' s' t' _ => h.leaveFrame w w' s t s' t' hstates) _ _
    (h.enterFrame w s t params as bs hstates hargs)

/-! ### Expressions -/

section Expressions

variable {evalBody : Expr → Computation S₁ V₁} {evalBody' : Expr → Computation S₂ V₂}
  (hbody : ∀ w expr, fragment.exprs expr → C.Alike w C.Values (evalBody expr) (evalBody' expr))
include hbody

theorem readWith (function : FunctionId) {as : List V₁} {bs : List V₂}
    (hargs : C.AllValues w as bs) :
    C.Alike w C.Values (one.readWith evalBody function as)
      (two.readWith evalBody' function bs) := by
  unfold Backend.readWith
  rw [h.spec, ← hargs.length_eq]
  dsimp only
  cases hkind : (one.spec.function function).kind with
  | controlled => exact h.readStored w function as bs hargs
  | static => exact h.readStored w function as bs hargs
  | derived params body =>
    dsimp only
    split
    · exact h.withFrame (hbody w body (fragment.derived function params body hkind)) params hargs
    · exact h.raise _

theorem node {expr : Expr} (hexpr : fragment.exprs expr) {as : List V₁} {bs : List V₂}
    (hargs : C.AllValues w as bs) :
    C.Alike w C.Values (one.node evalBody expr as) (two.node evalBody' expr bs) := by
  cases expr with
  | read function args => exact h.readWith hbody function hargs
  | _ => exact h.operate w _ as bs hexpr nofun hargs

theorem visit {expr : Expr} (hexpr : fragment.exprs expr) {children : List (Except Fault V₁)}
    {children' : List (Except Fault V₂)}
    (hchildren : List.Forall₂ (C.Attempted w) children children') :
    C.Alike w C.Attempted (one.visit evalBody expr children)
      (two.visit evalBody' expr children') := by
  refine Alike.attempt ((alike_collect hchildren).bind fun w' as bs _ hargs => ?_)
  exact h.node hbody hexpr hargs

end Expressions

end EvalCorrespondence

/-! ### Traversal -/

section Traversal

variable {C : Coupling S₁ V₁ S₂ V₂} {exprs : Expr → Prop}
  {visit : Expr → List (Except Fault V₁) → Computation S₁ (Except Fault V₁)}
  {visit' : Expr → List (Except Fault V₂) → Computation S₂ (Except Fault V₂)}

structure VisitsAlike (C : Coupling S₁ V₁ S₂ V₂) (exprs : Expr → Prop)
    (visit : Expr → List (Except Fault V₁) → Computation S₁ (Except Fault V₁))
    (visit' : Expr → List (Except Fault V₂) → Computation S₂ (Except Fault V₂)) : Prop where
  children : ∀ expr, exprs expr → ∀ child ∈ expr.children, exprs child
  visit : ∀ w expr children children', exprs expr →
    List.Forall₂ (C.Attempted w) children children' →
    C.Alike w C.Attempted (visit expr children) (visit' expr children')

mutual

theorem VisitsAlike.foldM (h : VisitsAlike C exprs visit visit') (w : C.World) :
    ∀ expr : Expr, exprs expr → C.Alike w C.Attempted (expr.foldM visit) (expr.foldM visit')
  | .int _, hexpr | .float _, hexpr | .bool _, hexpr | .str _, hexpr | .undefined, hexpr
  | .rule _, hexpr | .var _, hexpr => h.visit w _ _ _ hexpr .nil
  | .read _ args, hexpr | .builtin _ args, hexpr | .list args, hexpr =>
    (h.foldListM w args (h.children _ hexpr)).bind fun _ _ _ _ => h.visit _ _ _ _ hexpr
  | .not operand, hexpr =>
    (h.foldM w operand (h.children _ hexpr _ (by simp [Expr.children]))).bind
      fun _ _ _ _ hresult => h.visit _ _ _ _ hexpr (.cons hresult .nil)
  | .binary _ left right, hexpr | .range left right, hexpr =>
    (h.foldM w left (h.children _ hexpr _ (by simp [Expr.children]))).bind
      fun w' _ _ _ hfirst =>
        (h.foldM w' right (h.children _ hexpr _ (by simp [Expr.children]))).bind
          fun _ _ _ hlater hsecond =>
            h.visit _ _ _ _ hexpr (.cons (hfirst.later hlater) (.cons hsecond .nil))

theorem VisitsAlike.foldListM (h : VisitsAlike C exprs visit visit') (w : C.World) :
    ∀ list : List Expr, (∀ expr ∈ list, exprs expr) →
      C.Alike w (fun w => List.Forall₂ (C.Attempted w)) (Expr.foldListM visit list)
        (Expr.foldListM visit' list)
  | [], _ => Coupling.alike_pure .nil
  | expr :: rest, hlist =>
    (h.foldM w expr (hlist expr List.mem_cons_self)).bind fun w' _ _ _ hfirst =>
      (h.foldListM w' rest fun expr hexpr => hlist expr (List.mem_cons_of_mem _ hexpr)).bind
        fun _ _ _ hlater hothers => Coupling.alike_pure (.cons (hfirst.later hlater) hothers)

end

end Traversal

namespace EvalCorrespondence

open Coupling

variable {C : Coupling S₁ V₁ S₂ V₂} {one : Backend S₁ V₁} {two : Backend S₂ V₂}
  {fragment : Fragment one.spec} (h : EvalCorrespondence C one two fragment) {w w' : C.World}
include h

theorem eval (fuel : Nat) (w : C.World) (expr : Expr) (hexpr : fragment.exprs expr) :
    C.Alike w C.Values (one.eval fuel expr) (two.eval fuel expr) := by
  induction fuel generalizing w expr with
  | zero => exact alike_throw _
  | succ fuel ih =>
    have hvisits : VisitsAlike C fragment.exprs (one.visit (one.eval fuel))
        (two.visit (two.eval fuel)) :=
      ⟨fragment.children, fun w expr _ _ hexpr => h.visit ih hexpr⟩
    refine (hvisits.foldM w expr hexpr).bind fun w' result result' _ hresult => ?_
    cases result with
    | error fault =>
      cases result' with
      | error fault' =>
        cases hresult
        exact alike_throw _
      | ok _ => cases hresult
    | ok value =>
      cases result' with
      | error _ => cases hresult
      | ok value' => exact alike_pure hresult

theorem evalAll (fuel : Nat) (w : C.World) (exprs : List Expr)
    (hexprs : ∀ expr ∈ exprs, fragment.exprs expr) :
    C.Alike w C.AllValues (one.evalAll fuel exprs) (two.evalAll fuel exprs) := by
  induction exprs generalizing w with
  | nil => exact alike_pure .nil
  | cons expr rest ih =>
    refine (h.eval fuel w expr (hexprs expr List.mem_cons_self)).bind
      fun w' a b _ hvalue => ?_
    refine (ih w' fun expr hexpr => hexprs expr (List.mem_cons_of_mem _ hexpr)).bind
      fun w'' as bs hlater hvalues => ?_
    exact alike_pure (.cons (C.values_later hlater hvalue) hvalues)

theorem read (fuel : Nat) (function : FunctionId) {as : List V₁} {bs : List V₂}
    (hargs : C.AllValues w as bs) :
    C.Alike w C.Values (one.read fuel function as) (two.read fuel function bs) :=
  h.readWith (h.eval fuel) function hargs

theorem selectArm {evalLabel : Expr → Computation S₁ V₁} {evalLabel' : Expr → Computation S₂ V₂}
    {arms : List (Expr × Stmt)}
    (hlabel : ∀ w, ∀ arm ∈ arms, C.Alike w C.Values (evalLabel arm.1) (evalLabel' arm.1))
    {a : V₁} {b : V₂} (hvalue : C.Values w a b) (default : Option Stmt) :
    C.Alike w (fun _ selected selected' => selected = selected' ∧
        ∀ stmt ∈ selected, stmt ∈ default.toList ++ arms.map Prod.snd)
      (one.selectArm evalLabel a default arms) (two.selectArm evalLabel' b default arms) := by
  induction arms generalizing w with
  | nil => exact alike_pure ⟨rfl, by simp⟩
  | cons arm rest ih =>
    refine (hlabel w arm List.mem_cons_self).bind fun w' label label' hlater hlabels => ?_
    refine alike_get fun s t hstates => ?_
    have hvalue' := C.values_later hlater hvalue
    rw [h.equal w' s t a b label label' hstates hvalue' hlabels]
    split
    · exact alike_pure ⟨rfl, by simp⟩
    · refine (ih (fun w arm harm => hlabel w arm (List.mem_cons_of_mem _ harm)) hvalue').imp
        fun _ selected _ hselected => ⟨hselected.1, fun stmt hstmt => ?_⟩
      have hmem := hselected.2 stmt hstmt
      simp only [List.map_cons, List.mem_append, List.mem_cons] at hmem ⊢
      exact hmem.imp_right Or.inr

end EvalCorrespondence

/-! ### Statements -/

namespace Correspondence

open Coupling

variable {C : Coupling S₁ V₁ S₂ V₂} {one : Backend S₁ V₁} {two : Backend S₂ V₂}
  {fragment : Fragment one.spec} (h : Correspondence C one two fragment) {w w' : C.World}
  {first : Computation S₁ Unit} {second : Computation S₂ Unit}
include h

theorem withLocal {rel : C.World → α → β → Prop} {first : Computation S₁ α}
    {second : Computation S₂ β} (hrun : C.Alike w rel first second) (name : String)
    {a : V₁} {b : V₂} (hvalue : C.Values w a b) :
    C.Alike w rel (one.withLocal name a first) (two.withLocal name b second) := by
  intro s t hstates
  exact hrun.restoring (fun w' s t _ => h.unbindLocal w' s t) _ _
    (h.bindLocal w s t name a b hstates hvalue)

theorem inBlock (hrun : ∀ w, C.Alike w C.Same first second) (parallel : Bool) :
    C.Alike w C.Same (one.inBlock parallel first) (two.inBlock parallel second) := by
  refine (h.enter w parallel).bind fun w' forked _ _ hforked => ?_
  cases hforked
  exact (hrun w').bind fun w'' _ _ _ _ => h.leave w'' forked

theorem rounds (hrun : ∀ w, C.Alike w C.Same first second) (fuel : Nat) :
    C.Alike w C.Same (one.rounds first fuel) (two.rounds second fuel) := by
  induction fuel generalizing w with
  | zero => exact alike_throw _
  | succ fuel ih =>
    refine (h.enter w true).bind fun w₁ forked _ _ hforked => ?_
    cases hforked
    refine (hrun w₁).bind fun w₂ _ _ _ _ => alike_get fun s t hstates => ?_
    rw [h.recordsNothing w₂ s t hstates]
    refine (h.leaveRound w₂ forked).bind fun w₃ _ _ _ _ => ?_
    split
    · exact alike_pure rfl
    · exact ih

theorem forEach (hrun : ∀ w, C.Alike w C.Same first second) (name : String) {as : List V₁}
    {bs : List V₂} (hvalues : C.AllValues w as bs) :
    C.Alike w C.Same (one.forEach name first as) (two.forEach name second bs) := by
  induction as generalizing w bs with
  | nil =>
    cases hvalues
    exact alike_pure rfl
  | cons a as ih =>
    cases hvalues with
    | cons hvalue hrest =>
      refine (h.withLocal (hrun w) name hvalue).bind fun w' _ _ hlater _ => ?_
      exact ih (hrest.imp fun _ _ => C.values_later hlater)

section Statements

variable {run : Stmt → Computation S₁ Unit} {run' : Stmt → Computation S₂ Unit}
  (hrun : ∀ w stmt, fragment.stmts stmt → C.Alike w C.Same (run stmt) (run' stmt))

section

omit h
include hrun

theorem sequence {stmts : List Stmt} (hstmts : ∀ stmt ∈ stmts, fragment.stmts stmt) :
    C.Alike w C.Same (Backend.sequence run stmts) (Backend.sequence run' stmts) := by
  induction stmts generalizing w with
  | nil => exact alike_pure rfl
  | cons stmt rest ih =>
    refine (hrun w stmt (hstmts stmt List.mem_cons_self)).bind fun w' _ _ _ _ => ?_
    exact ih fun stmt hstmt => hstmts stmt (List.mem_cons_of_mem _ hstmt)

theorem optionally {stmt : Option Stmt} (hstmt : ∀ body ∈ stmt, fragment.stmts body) :
    C.Alike w C.Same (Backend.optionally run stmt) (Backend.optionally run' stmt) := by
  cases stmt with
  | none => exact alike_pure rfl
  | some body => exact hrun w body (hstmt body rfl)

end

include hrun

theorem callRule (rule : RuleId) {as : List V₁} {bs : List V₂} (hargs : C.AllValues w as bs) :
    C.Alike w C.Same (one.callRule run rule as) (two.callRule run' rule bs) := by
  unfold Backend.callRule
  rw [h.spec, ← hargs.length_eq]
  dsimp only
  split
  · cases hbody : (one.spec.rule rule).body with
    | none => exact alike_pure rfl
    | some body => exact h.withFrame (hrun w body (fragment.rules rule body hbody)) _ hargs
  · exact h.raise _

theorem execAction (fuel : Nat) (w : C.World) (stmt : Stmt) (hstmt : fragment.stmts stmt) :
    C.Alike w C.Same (one.execAction fuel run stmt.span stmt.action)
      (two.execAction fuel run' stmt.span stmt.action) := by
  have hexprs := fragment.exprs_of_stmts stmt hstmt
  have hbodies := fragment.bodies stmt hstmt
  generalize stmt.action = action at hexprs hbodies ⊢
  cases action with
  | skip => exact alike_pure rfl
  | update function args value =>
    obtain ⟨hvalue, hargs⟩ := List.forall_mem_cons.mp hexprs
    refine (h.evalAll fuel w args hargs).bind fun w' as bs _ hargs => ?_
    refine (h.eval fuel w' value hvalue).bind fun w'' a b hlater hvalue => ?_
    exact h.write w'' function as bs a b _ (hargs.later hlater) hvalue
  | par body => exact h.inBlock (fun _ => sequence hrun hbodies) true
  | seq body => exact h.inBlock (fun _ => sequence hrun hbodies) false
  | ifThen cond yes no =>
    obtain ⟨hyes, hno⟩ := List.forall_mem_cons.mp hbodies
    refine (h.eval fuel w cond (hexprs cond List.mem_cons_self)).bind fun w₁ a b _ hvalue => ?_
    refine (h.decide w₁ a b hvalue).bind fun w₂ holds _ _ hholds => ?_
    cases hholds
    split
    · exact hrun w₂ yes hyes
    · exact optionally hrun fun body hbody => hno body (Option.mem_toList.mpr hbody)
  | cases scrutinee arms default =>
    obtain ⟨hscrutinee, hlabels⟩ := List.forall_mem_cons.mp hexprs
    refine (h.eval fuel w scrutinee hscrutinee).bind fun w₁ a b _ hvalue => ?_
    refine (h.selectArm (fun w arm harm => h.eval fuel w arm.1
      (hlabels arm.1 (List.mem_map_of_mem harm))) hvalue default).bind
      fun w₂ selected _ _ hselected => ?_
    rw [← hselected.1]
    exact optionally hrun fun body hbody => hbodies body (hselected.2 body hbody)
  | letIn name value body =>
    refine (h.eval fuel w value (hexprs value List.mem_cons_self)).bind
      fun w₁ a b _ hvalue => ?_
    exact h.withLocal (hrun w₁ body (hbodies body List.mem_cons_self)) name hvalue
  | forAll name domain body =>
    refine (h.eval fuel w domain (hexprs domain List.mem_cons_self)).bind
      fun w₁ a b _ hdomain => ?_
    refine (h.elements w₁ a b hdomain).bind fun w₂ as bs _ helements => ?_
    refine (h.enter w₂ true).bind fun w₃ forked _ hlater hforked => ?_
    cases hforked
    refine (h.forEach (fun w => hrun w body (hbodies body List.mem_cons_self)) name
      (helements.later hlater)).bind fun w₄ _ _ _ _ => ?_
    exact h.leave w₄ forked
  | iterate body =>
    exact h.inBlock (fun _ => h.rounds (fun w => hrun w body (hbodies body List.mem_cons_self))
      fuel) false
  | call rule args =>
    refine (h.evalAll fuel w args hexprs).bind fun w₁ as bs _ hargs => ?_
    exact h.callRule hrun rule hargs
  | callValue target args =>
    obtain ⟨htarget, hargs⟩ := List.forall_mem_cons.mp hexprs
    refine (h.eval fuel w target htarget).bind fun w₁ a b _ hvalue => ?_
    refine (h.ruleOf w₁ a b hvalue).bind fun w₂ rule _ _ hrule => ?_
    cases hrule
    refine (h.evalAll fuel w₂ args hargs).bind fun w₃ as bs _ hargs => ?_
    exact h.callRule hrun rule hargs
  | print values =>
    refine (h.evalAll fuel w values hexprs).bind fun w₁ as bs _ hvalues => ?_
    exact h.print w₁ as bs hvalues
  | assert cond =>
    refine (h.eval fuel w cond (hexprs cond List.mem_cons_self)).bind fun w₁ a b _ hvalue => ?_
    refine (h.decide w₁ a b hvalue).bind fun w₂ holds _ _ hholds => ?_
    cases hholds
    rw [h.spec]
    split
    · exact alike_pure rfl
    · exact h.raise _
  | abort message =>
    cases message with
    | none => exact h.raise _
    | some message =>
      refine (h.eval fuel w message (hexprs message List.mem_cons_self)).bind
        fun w₁ a b _ hvalue => alike_get fun s t hstates => ?_
      rw [h.text w₁ s t a b hstates hvalue]
      exact h.raise _
  | push value target args =>
    obtain ⟨hvalue, hargs⟩ := List.forall_mem_cons.mp hexprs
    refine (h.eval fuel w value hvalue).bind fun w₁ a b _ hvalue => ?_
    refine (h.evalAll fuel w₁ args hargs).bind fun w₂ as bs hlater₂ hargs => ?_
    refine (h.read fuel target hargs).bind fun w₃ c d hlater₃ hcurrent => ?_
    have hvalue := C.values_later (C.later_trans hlater₂ hlater₃) hvalue
    refine (h.pushed w₃ a b c d hvalue hcurrent).bind fun w₄ e f hlater₄ hpushed => ?_
    exact h.write w₄ target as bs e f _ (hargs.later (C.later_trans hlater₃ hlater₄)) hpushed
  | pop source args target =>
    refine (h.evalAll fuel w args hexprs).bind fun w₁ as bs _ hargs => ?_
    refine (h.read fuel source hargs).bind fun w₂ a b hlater₂ hcurrent => ?_
    refine (h.popped w₂ a b hcurrent).bind fun w₃ c d hlater₃ hpopped => ?_
    obtain ⟨hfirst, hrest⟩ := hpopped
    refine (h.write w₃ target [] [] c.1 d.1 _ .nil hfirst).bind fun w₄ _ _ hlater₄ _ => ?_
    have hlater := C.later_trans (C.later_trans hlater₂ hlater₃) hlater₄
    rcases c with ⟨_, rest⟩
    rcases d with ⟨_, rest'⟩
    cases hrest with
    | none => exact alike_pure rfl
    | some hrest =>
      exact h.write w₄ source as bs _ _ _ (hargs.later hlater) (C.values_later hlater₄ hrest)

end Statements

theorem exec (fuel : Nat) (w : C.World) (stmt : Stmt) (hstmt : fragment.stmts stmt) :
    C.Alike w C.Same (one.exec fuel stmt) (two.exec fuel stmt) := by
  induction fuel generalizing w stmt with
  | zero => exact alike_throw _
  | succ fuel ih =>
    refine (alike_modify fun s t => h.setSpan w s t stmt.span).bind fun w' _ _ _ _ => ?_
    exact h.execAction ih fuel w' stmt hstmt

end Correspondence

end AbstractStateMachine
