import AbstractStateMachine.Proofs.Plain.Simulation
import AbstractStateMachine.Proofs.Renaming.Operation

/-!
# Machines up to the names of lists

Two machines are the same up to a renaming if stored locations, bindings and pending updates are.
One layer of a parallel block may be left out of account: reads pass over it, so evaluation does not
depend on what is in there.
-/

namespace AbstractStateMachine

open ListHeap

variable {names wider : Handle → Handle → Prop}

/-! ### Machines -/

theorem renames_imp {values others : List Value}
    (h : List.Forall₂ (Value.Renames names) values others)
    (himp : ∀ x y, names x y → wider x y) : List.Forall₂ (Value.Renames wider) values others :=
  h.imp fun _ _ hvalue => hvalue.imp himp

structure Binding.Renames (names : Handle → Handle → Prop) (binding other : Binding) : Prop where
  name : other.name = binding.name
  value : binding.value.Renames names other.value

structure StoredLocation.Renames (names : Handle → Handle → Prop)
    (location other : StoredLocation) : Prop where
  args : List.Forall₂ (Value.Renames names) location.args other.args
  value : location.value.Renames names other.value

structure Update.Renames (names : Handle → Handle → Prop) (update other : Update) : Prop where
  location : other.location = update.location
  args : List.Forall₂ (Value.Renames names) update.args other.args
  value : update.value.Renames names other.value
  span : other.span = update.span

theorem Update.Renames.imp {update other : Update} (h : update.Renames names other)
    (himp : ∀ x y, names x y → wider x y) : update.Renames wider other :=
  { h with args := renames_imp h.args himp, value := h.value.imp himp }

/-- Related layers, except that the one at the given depth may be anything. -/
inductive RelatedBesides (depth : Nat) (R : Update → Update → Prop) :
    List Layer → List Layer → Prop where
  | nil : RelatedBesides depth R [] []
  | cons {layer other : Layer} {below below' : List Layer}
      (hlayer : below.length ≠ depth → OrderedMap.Related R layer other)
      (hbelow : RelatedBesides depth R below below') :
      RelatedBesides depth R (layer :: below) (other :: below')

structure Machine.Renames (pairing : Pairing) (depth : Nat) (machine other : Machine) : Prop where
  heap : machine.heap = pairing.heap
  image : other.heap = pairing.image
  tables : Tables.Related (StoredLocation.Renames pairing.names) machine.state.tables
    other.state.tables
  layers : RelatedBesides depth (Update.Renames pairing.names) machine.pending.layers
    other.pending.layers
  locals : List.Forall₂ (Binding.Renames pairing.names) machine.locals other.locals
  frameBase : other.frameBase = machine.frameBase
  span : other.span = machine.span

namespace RelatedBesides

variable {depth : Nat} {R S : Update → Update → Prop} {layers layers' : List Layer}

theorem length_eq (h : RelatedBesides depth R layers layers') : layers'.length = layers.length := by
  induction h with
  | nil => rfl
  | cons _ _ ih => rw [List.length_cons, List.length_cons, ih]

theorem imp (h : RelatedBesides depth R layers layers') (himp : ∀ a b, R a b → S a b) :
    RelatedBesides depth S layers layers' := by
  induction h with
  | nil => exact .nil
  | cons hlayer _ ih => exact .cons (fun hne => (hlayer hne).imp himp) ih

section Top

variable {top top' : Layer} {below below' : List Layer}
  (h : RelatedBesides depth R (top :: below) (top' :: below'))
include h

theorem of_top (hne : below.length ≠ depth) : OrderedMap.Related R top top' := by
  cases h with
  | cons hlayer _ => exact hlayer hne

theorem of_below : RelatedBesides depth R below below' := by
  cases h with
  | cons _ hbelow => exact hbelow

theorem replace {next next' : Layer} (hdepth : below.length = depth) :
    RelatedBesides depth R (next :: below) (next' :: below') :=
  .cons (fun hne => absurd hdepth hne) h.of_below

end Top

end RelatedBesides

theorem Pairing.respects_handling (pairing : Pairing) :
    (Update.handling pairing.heap).Respects (Update.Renames pairing.names)
      (Update.handling pairing.image) where
  location h := h.location
  span h := h.span
  sameValue h h' := pairing.renames.equal_eq h.value h'.value
  sameArgs h h' := pairing.renames.sameArgs_eq h.args h'.args
  movedTo _ h := { h with }

section Machines

variable {pairing later : Pairing} {depth : Nat} {machine other : Machine}

theorem Machine.Renames.grow (h : machine.Renames pairing depth other)
    (hlater : pairing.Later later) :
    { machine with heap := later.heap }.Renames later depth { other with heap := later.image } :=
  { h with
    heap := rfl
    image := rfl
    tables := h.tables.imp fun _ _ hlocation =>
      ⟨renames_imp hlocation.args hlater.names, hlater.renames hlocation.value⟩
    layers := h.layers.imp fun _ _ hupdate => hupdate.imp hlater.names
    locals := h.locals.imp fun _ _ hbinding => ⟨hbinding.name, hlater.renames hbinding.value⟩ }

/-! ### Lookups -/

theorem rel_renames_map {α β : Type} {R : α → β → Prop} {f : α → Value} {g : β → Value}
    {found : Option α} {found' : Option β} (h : Option.Rel R found found')
    (hvalues : ∀ a b, R a b → (f a).Renames names (g b)) :
    Option.Rel (Value.Renames names) (found.map f) (found'.map g) := by
  cases h with
  | none => exact .none
  | some h => exact .some (hvalues _ _ h)

theorem renames_getD_undefined {found found' : Option Value}
    (h : Option.Rel (Value.Renames names) found found') :
    (found.getD .undefined).Renames names (found'.getD .undefined) := by
  cases h with
  | none => exact .scalar trivial
  | some h => exact h

theorem RelatedBesides.findIn {R : Update → Update → Prop} {layers layers' : List Layer}
    (hodd : depth % 2 = 1) (h : RelatedBesides depth R layers layers') {hit hit' : Update → Bool}
    (hhit : ∀ {a a'}, R a a' → hit' a' = hit a) (key : LocationKey) :
    Option.Rel R (Stack.findIn hit key layers) (Stack.findIn hit' key layers') := by
  induction h with
  | nil => exact .none
  | @cons layer layer' below below' hlayer hbelow ih =>
    rw [Stack.findIn, Stack.findIn, hbelow.length_eq]
    split
    · exact ih
    · next heven =>
        have hne : below.length ≠ depth := by
          rintro rfl
          rw [hodd] at heven
          exact heven rfl
        have hget := (hlayer hne).get? key
        generalize layer.get? key = found at hget ⊢
        generalize layer'.get? key = found' at hget ⊢
        cases hget with
        | none => exact ih
        | @some a a' ha =>
          rw [Option.filter_some, Option.filter_some, hhit ha]
          split
          · exact .some ha
          · exact ih

namespace Machine

variable (h : machine.Renames pairing depth other)
include h

theorem Renames.lookupLocal (name : String) :
    (machine.lookupLocal name).Renames pairing.names (other.lookupLocal name) := by
  unfold Machine.lookupLocal Machine.visible
  rw [h.frameBase, ← h.locals.length_eq]
  refine renames_getD_undefined (rel_renames_map ?_ fun _ _ => Binding.Renames.value)
  refine rel_find? (List.forall₂_take _ h.locals) fun binding binding' hbinding => ?_
  rw [hbinding.name]

section Locations

variable {args others : List Value} (hargs : List.Forall₂ (Value.Renames pairing.names) args others)
include hargs

theorem Renames.pending? (hodd : depth % 2 = 1) (function : FunctionId) (key : ArgKey) :
    Option.Rel (Value.Renames pairing.names)
      (machine.pending.lookup machine.heap function key args)
      (other.pending.lookup other.heap function key others) := by
  unfold UpdateSet.lookup
  rw [UpdateSet.lookupIn_eq, UpdateSet.lookupIn_eq, h.heap, h.image]
  refine rel_renames_map ?_ fun _ _ => Update.Renames.value
  exact h.layers.findIn hodd
    (fun hupdate => pairing.renames.sameArgs_eq hupdate.args hargs) (function, key)

theorem Renames.stored? (function : FunctionId) (key : ArgKey) :
    Option.Rel (Value.Renames pairing.names) (machine.state.get? machine.heap function key args)
      (other.state.get? other.heap function key others) := by
  rw [Interpretation.get?_eq, Interpretation.get?_eq, h.heap, h.image]
  refine rel_renames_map ?_ fun _ _ => StoredLocation.Renames.value
  exact h.tables.find (fun _ _ hlocation =>
    pairing.renames.sameArgs_eq hlocation.args hargs) function key

end Locations

end Machine

end Machines

theorem renames_frame (params : List String) {args others : List Value}
    (hargs : List.Forall₂ (Value.Renames names) args others) :
    List.Forall₂ (Binding.Renames names) (List.zipWith Binding.mk params args)
      (List.zipWith Binding.mk params others) := by
  induction hargs generalizing params with
  | nil => cases params <;> exact .nil
  | cons hvalue _ ih =>
    cases params with
    | nil => exact .nil
    | cons name rest => exact .cons ⟨rfl, hvalue⟩ (ih rest)

/-! ### Computations -/

def renamed (depth : Nat) : Coupling Machine Value Machine Value where
  World := Pairing
  Later := Pairing.Later
  States pairing := Machine.Renames pairing depth
  Values pairing := Value.Renames pairing.names
  later_refl := Pairing.later_refl
  later_trans := @Pairing.later_trans
  values_later := @Pairing.Later.renames

namespace Run

open Coupling

variable {setting : Setting} {depth : Nat} {w : Pairing} {value other : Value}
  {args others : List Value}

theorem renames_raise {α β : Type} {rel : Pairing → α → β → Prop} (cause : Cause) :
    (renamed depth).Alike w rel (raise cause) (raise cause) := by
  intro machine image h
  show (renamed depth).EndsAlike w rel (.error (.fault ⟨cause, machine.span, _⟩), machine)
    (.error (.fault ⟨cause, image.span, _⟩), image)
  rw [h.span]
  exact .error _ ((renamed depth).later_refl w) h

theorem renames_scalar (hscalar : IsScalar value) :
    (renamed depth).Alike w (renamed depth).Values (pure value) (pure value) :=
  alike_pure (.scalar hscalar)

theorem renames_onHeap {operation operation' : ListHeap → Handle × ListHeap}
    (hpairs : w.Pairs (operation w.heap) (operation' w.image)) :
    (renamed depth).Alike w Pairing.names (onHeap operation) (onHeap operation') := by
  intro machine image h
  obtain ⟨later, hlater, hheap, himage, hnames⟩ := hpairs
  have hstates := h.grow hlater
  rw [← h.heap] at hheap hnames
  rw [← h.image] at himage hnames
  rw [hheap, himage] at hstates
  exact .ok hlater hstates hnames

theorem renames_list {operation operation' : ListHeap → Handle × ListHeap}
    (hpairs : w.Pairs (operation w.heap) (operation' w.image)) :
    (renamed depth).Alike w (renamed depth).Values
      (do
        let handle ← onHeap operation
        pure (.list handle))
      (do
        let handle ← onHeap operation'
        pure (.list handle)) :=
  (renames_onHeap hpairs).bind fun _ _ _ _ hlist => alike_pure (.list hlist)

theorem renames_operand {outcome outcome' : Operation.Outcome}
    (h : SameOutcome (Value.Renames w.names) outcome outcome') :
    (renamed depth).Alike w (renamed depth).Values (operand outcome) (operand outcome') := by
  cases h with
  | ok hvalue => exact alike_pure hvalue
  | error error => exact renames_raise _

theorem isSymbolic_of_renames (h : value.Renames names other) :
    value.isSymbolic = false ∧ other.isSymbolic = false := by
  cases h with
  | list => exact ⟨rfl, rfl⟩
  | scalar hscalar => cases value <;> first | exact hscalar.elim | exact ⟨rfl, rfl⟩

theorem renames_binary {left right left' right' : Value} (hleft : left.Renames w.names left')
    (hright : right.Renames w.names right') (op : BinaryOp) :
    (renamed depth).Alike w (renamed depth).Values (binary setting op left right)
      (binary setting op left' right') := by
  unfold binary
  rw [(isSymbolic_of_renames hleft).1, (isSymbolic_of_renames hleft).2,
    (isSymbolic_of_renames hright).1, (isSymbolic_of_renames hright).2]
  refine alike_get fun machine image h => ?_
  rw [h.heap, h.image]
  exact renames_operand (Pairing.sameOutcome_binary hleft hright op)

theorem renames_negation (hvalue : value.Renames w.names other) :
    (renamed depth).Alike w (renamed depth).Values (negation value) (negation other) := by
  obtain ⟨hsymbolic, hsymbolic'⟩ := isSymbolic_of_renames hvalue
  unfold negation
  rw [ofNegation?_of_not_isSymbolic hsymbolic, ofNegation?_of_not_isSymbolic hsymbolic']
  exact renames_operand (Pairing.sameOutcome_not hvalue)

theorem renames_builtin (hconcrete : setting.symbolic = false) (op : Builtin)
    (hargs : List.Forall₂ (Value.Renames w.names) args others) :
    (renamed depth).Alike w (renamed depth).Values (builtin setting op args)
      (builtin setting op others) := by
  intro machine image h
  have houtcome : SameOutcome _ (Operation.builtin w.heap machine.lease op args)
      (Operation.builtin w.image image.lease op others) := Pairing.sameOutcome_builtin op hargs
  unfold builtin
  rw [get_bind_apply, get_bind_apply, hconcrete, h.heap, h.image]
  generalize Operation.builtin w.heap machine.lease op args = outcome at houtcome ⊢
  generalize Operation.builtin w.image image.lease op others = outcome' at houtcome ⊢
  cases houtcome with
  | ok hyields =>
    obtain ⟨later, hlater, hheap, himage, hvalue⟩ := hyields
    have hstates := h.grow hlater
    rw [hheap, himage] at hstates
    exact .ok hlater hstates hvalue
  | error error => exact renames_raise _ machine image h

theorem renames_integersBetween (names : Handle → Handle → Prop) (low high : Int64) :
    List.Forall₂ (Value.Renames names) (integersBetween low high) (integersBetween low high) := by
  refine List.forall₂_same.mpr fun value hvalue => ?_
  obtain ⟨offset, -, rfl⟩ := List.mem_map.mp hvalue
  exact .scalar trivial

theorem renames_range {low high low' high' : Value} (hlow : low.Renames w.names low')
    (hhigh : high.Renames w.names high') :
    (renamed depth).Alike w (renamed depth).Values (range low high) (range low' high') := by
  have hsame : range low' high' = range low high := by
    rw [← range_outline, hlow.outline_eq, hhigh.outline_eq, range_outline]
  rw [hsame]
  unfold range
  split
  · exact renames_list (Pairing.pairs_ofList (renames_integersBetween _ _ _))
  · split
    · exact renames_scalar trivial
    · exact renames_raise _

/-! ### Reads and statements -/

theorem renames_readStored (hconcrete : setting.symbolic = false) (hodd : depth % 2 = 1)
    (function : FunctionId) (hargs : List.Forall₂ (Value.Renames w.names) args others) :
    (renamed depth).Alike w (renamed depth).Values (readStored setting function args)
      (readStored setting function others) := by
  unfold readStored
  refine alike_get fun machine image h => ?_
  have hkey : image.heap.argKey setting.digest others =
      machine.heap.argKey setting.digest args := by
    rw [h.heap, h.image]
    exact w.renames.argKey_eq hargs setting.digest
  rw [hkey, hconcrete]
  dsimp only
  have hpending := h.pending? hargs hodd function (machine.heap.argKey setting.digest args)
  generalize machine.pending.lookup _ _ _ _ = found at hpending ⊢
  generalize image.pending.lookup _ _ _ _ = found' at hpending ⊢
  cases hpending with
  | some hvalue => exact alike_pure hvalue
  | none =>
    have hstored := h.stored? hargs function (machine.heap.argKey setting.digest args)
    dsimp only
    generalize machine.state.get? _ _ _ _ = found at hstored ⊢
    generalize image.state.get? _ _ _ _ = found' at hstored ⊢
    cases hstored with
    | some hvalue => exact alike_pure hvalue
    | none => exact renames_scalar trivial

theorem renames_operate (hconcrete : setting.symbolic = false) {expr : Expr}
    (hread : ∀ function args, expr ≠ .read function args)
    (hargs : List.Forall₂ (Value.Renames w.names) args others) :
    (renamed depth).Alike w (renamed depth).Values ((Machine.backend setting).operate expr args)
      ((Machine.backend setting).operate expr others) := by
  cases expr with
  | read function args => exact absurd rfl (hread function args)
  | int | float | bool | str | undefined | rule => exact renames_scalar trivial
  | var name => exact alike_get fun _ _ h => alike_pure (h.lookupLocal name)
  | builtin op children => exact renames_builtin hconcrete op hargs
  | list => exact renames_list (Pairing.pairs_ofList hargs)
  | not =>
    match hargs with
    | .cons hvalue .nil => exact renames_negation hvalue
    | .nil | .cons _ (.cons _ _) => exact renames_scalar trivial
  | binary op _ _ =>
    match hargs with
    | .cons hleft (.cons hright .nil) => exact renames_binary hleft hright op
    | .nil | .cons _ .nil | .cons _ (.cons _ (.cons _ _)) => exact renames_scalar trivial
  | range =>
    match hargs with
    | .cons hlow (.cons hhigh .nil) => exact renames_range hlow hhigh
    | .nil | .cons _ .nil | .cons _ (.cons _ (.cons _ _)) => exact renames_scalar trivial

theorem renames_domainElements (hvalue : value.Renames w.names other) :
    (renamed depth).Alike w (renamed depth).AllValues (domainElements value)
      (domainElements other) := by
  cases hvalue with
  | @list list list' hlist =>
    refine alike_get fun machine image h => ?_
    rw [h.heap, h.image]
    exact alike_pure (w.renames.elements hlist)
  | scalar hscalar =>
    cases value with
    | list | symbol | verdict => exact hscalar.elim
    | undefined => exact alike_pure .nil
    | _ => exact renames_raise _

theorem renames_decide (hvalue : value.Renames w.names other) :
    (renamed depth).Alike w (renamed depth).Same (decide setting value) (decide setting other) := by
  cases hvalue with
  | list => exact renames_raise _
  | scalar hscalar =>
    cases value with
    | list | symbol | verdict => exact hscalar.elim
    | bool | undefined => exact alike_pure rfl
    | _ => exact renames_raise _

theorem renames_ruleOf (hvalue : value.Renames w.names other) :
    (renamed depth).Alike w (renamed depth).Same (ruleOf value) (ruleOf other) := by
  cases hvalue with
  | list => exact renames_raise _
  | scalar hscalar =>
    cases value with
    | list | symbol | verdict => exact hscalar.elim
    | rule => exact alike_pure rfl
    | _ => exact renames_raise _

theorem renames_cons {list list' : Handle} (hvalue : value.Renames w.names other)
    (hlist : w.names list list') :
    (renamed depth).Alike w (renamed depth).Values
      (do
        let handle ← onHeap fun heap => heap.cons value list
        pure (.list handle))
      (do
        let handle ← onHeap fun heap => heap.cons other list'
        pure (.list handle)) :=
  renames_list (Pairing.pairs_cons hlist hvalue)

theorem renames_empty :
    (renamed depth).Alike w Pairing.names (onHeap ListHeap.empty) (onHeap ListHeap.empty) :=
  renames_onHeap (Pairing.pairs_ofList .nil)

theorem renames_pushed {current current' : Value} (hvalue : value.Renames w.names other)
    (hcurrent : current.Renames w.names current') :
    (renamed depth).Alike w (renamed depth).Values
      ((Machine.backend setting).pushed value current)
      ((Machine.backend setting).pushed other current') := by
  cases hcurrent with
  | list hlist => exact renames_cons hvalue hlist
  | scalar hscalar =>
    cases current with
    | list | symbol | verdict => exact hscalar.elim
    | undefined =>
      exact renames_empty.bind fun _ _ _ hlater hlist =>
        renames_cons (hlater.renames hvalue) hlist
    | _ => exact renames_raise _

theorem renames_popped {current current' : Value} (hcurrent : current.Renames w.names current') :
    (renamed depth).Alike w (renamed depth).Popped ((Machine.backend setting).popped current)
      ((Machine.backend setting).popped current') := by
  cases hcurrent with
  | @list list list' hlist =>
    refine alike_get fun machine image h => ?_
    have hpeek := Pairing.renames_peek hlist
    rw [h.heap, h.image]
    exact (renames_onHeap (Pairing.pairs_tail hlist)).bind fun _ _ _ hlater hrest =>
      alike_pure ⟨hlater.renames hpeek, .some (.list hrest)⟩
  | scalar hscalar =>
    cases current with
    | list | symbol | verdict => exact hscalar.elim
    | undefined => exact alike_pure ⟨.scalar trivial, .none⟩
    | _ => exact renames_raise _

end Run

end AbstractStateMachine
