import AbstractStateMachine.Proofs.Backend.Basic

/-!
# Outcomes of computations

A judgement about computations that also speaks of their faults: from a state with one property, a
computation ends with a result and a state that fit together, or with a fault and a state that do.
Nothing is said about one that uses up its fuel.
-/

namespace AbstractStateMachine

variable {S α β : Type}

namespace Computation

variable {fails fails' : Fault → S → Prop} {pre pre' : S → Prop} {post post' : α → S → Prop}
  {run : Computation S α}

inductive Ends (fails : Fault → S → Prop) (post : α → S → Prop) : Except Stop α × S → Prop where
  | ok {result : α} {state : S} (h : post result state) : Ends fails post (.ok result, state)
  | fault {fault : Fault} {state : S} (h : fails fault state) :
      Ends fails post (.error (.fault fault), state)
  | outOfFuel {state : S} : Ends fails post (.error .outOfFuel, state)

def Meets (fails : Fault → S → Prop) (pre : S → Prop) (run : Computation S α)
    (post : α → S → Prop) : Prop :=
  ∀ state, pre state → Ends fails post (run state)

/-! ### Rules -/

theorem Ends.imp {outcome : Except Stop α × S} (h : Ends fails post outcome)
    (hfails : ∀ fault state, fails fault state → fails' fault state)
    (hpost : ∀ result state, post result state → post' result state) :
    Ends fails' post' outcome := by
  cases h with
  | ok h => exact .ok (hpost _ _ h)
  | fault h => exact .fault (hfails _ _ h)
  | outOfFuel => exact .outOfFuel

theorem Meets.imp (h : Meets fails pre run post)
    (hfails : ∀ fault state, fails fault state → fails' fault state)
    (hpost : ∀ result state, post result state → post' result state) : Meets fails' pre run post' :=
  fun state hstate => (h state hstate).imp hfails hpost

theorem Meets.of_imp (h : Meets fails pre run post) (hpre : ∀ state, pre' state → pre state) :
    Meets fails pre' run post :=
  fun state hstate => h state (hpre state hstate)

theorem meets_pure {result : α} (h : ∀ state, pre state → post result state) :
    Meets fails pre (pure result) post :=
  fun state hstate => .ok (h state hstate)

theorem meets_fault {fault : Fault} (h : ∀ state, pre state → fails fault state) :
    Meets fails pre (throw (.fault fault) : Computation S α) post :=
  fun state hstate => .fault (h state hstate)

theorem meets_outOfFuel : Meets fails pre (throw .outOfFuel : Computation S α) post :=
  fun _ _ => .outOfFuel

theorem Meets.bind {first : Computation S α} {rest : α → Computation S β} {last : β → S → Prop}
    (h : Meets fails pre first post)
    (hrest : ∀ result, Meets fails (post result) (rest result) last) :
    Meets fails pre (first >>= rest) last := by
  intro state hstate
  have hends := h state hstate
  show Ends fails last (ExceptT.bindCont rest (first state).1 (first state).2)
  generalize first state = outcome at hends ⊢
  cases hends with
  | ok h => exact hrest _ _ h
  | fault h => exact .fault h
  | outOfFuel => exact .outOfFuel

theorem meets_get {rest : S → Computation S α}
    (h : ∀ state, pre state → Meets fails pre (rest state) post) :
    Meets fails pre (get >>= rest) post :=
  fun state hstate => h state hstate state hstate

theorem meets_modify {change : S → S} {post : PUnit → S → Prop}
    (h : ∀ state, pre state → post ⟨⟩ (change state)) : Meets fails pre (modify change) post :=
  fun state hstate => .ok (h state hstate)

theorem Meets.restoring (h : Meets fails pre run post) {restore : S → S}
    (hfails : ∀ fault state, fails fault state → fails' fault (restore state))
    (hpost : ∀ result state, post result state → post' result (restore state)) :
    Meets fails' pre (restoring restore run) post' := by
  intro state hstate
  have hends := h state hstate
  unfold Computation.restoring
  generalize run state = outcome at hends ⊢
  cases hends with
  | ok h => exact .ok (hpost _ _ h)
  | fault h => exact .fault (hfails _ _ h)
  | outOfFuel => exact .outOfFuel

end Computation

end AbstractStateMachine
