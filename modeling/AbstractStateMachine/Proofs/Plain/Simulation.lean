import AbstractStateMachine.Proofs.Machine.Isolation
import AbstractStateMachine.Proofs.Plain.Machine
import AbstractStateMachine.Proofs.Plain.Operation

/-!
# Machines that realize plain machines

A machine realizes a plain one if in its heap every binding, pending update and stored location
represents the plain one in the same place. The operations of an interpreter in concrete mode keep
it that way as long as there are no floats.
-/

namespace AbstractStateMachine

open ListHeap UpdateSet

/-! ### Machines -/

structure Binding.Realizes (heap : ListHeap) (binding : Binding) (image : String × Datum) :
    Prop where
  name : image.1 = binding.name
  value : heap.Realizes binding.value image.2

structure StoredLocation.Realizes (heap : ListHeap) (location : StoredLocation)
    (image : Plain.Location) : Prop where
  args : List.Forall₂ heap.Realizes location.args image.args
  value : heap.Realizes location.value image.value

/-- The key of an update was computed when it was recorded. -/
structure Update.Realizes (heap : ListHeap) (digest : Digest) (update : Update)
    (image : Plain.Update) : Prop where
  function : image.function = update.function
  key : update.key = Datum.argKey digest image.args
  args : List.Forall₂ heap.Realizes update.args image.args
  value : heap.Realizes update.value image.value
  span : image.span = update.span

structure Machine.Realizes (setting : Setting) (heap : ListHeap) (machine : Machine)
    (plain : Plain.Machine) : Prop where
  heap_eq : machine.heap = heap
  tables : Tables.Related (StoredLocation.Realizes heap) machine.state.tables plain.tables
  pending : machine.pending.stack.Related (Update.Realizes heap setting.digest) plain.pending
  locals : List.Forall₂ (Binding.Realizes heap) machine.locals plain.locals
  frameBase : plain.frameBase = machine.frameBase
  span : plain.span = machine.span
  output : plain.output = machine.output
  dumps : plain.dumps = machine.dumps
  steps : plain.steps = machine.steps
  halted : plain.halted = machine.halted

section Machines

variable {setting : Setting} {heap later : ListHeap} {machine : Machine} {plain : Plain.Machine}
  {digest : Digest} (hheap : heap.WellFormed)
include hheap

theorem realizes_extends {values : List Value} {data : List Datum} (hgrows : heap.Extends later)
    (h : List.Forall₂ heap.Realizes values data) : List.Forall₂ later.Realizes values data :=
  h.imp fun _ _ => Realizes.extends hheap hgrows

theorem argKey_eq_of_realizes {args : List Value} {data : List Datum}
    (h : List.Forall₂ heap.Realizes args data) (digest : Digest) :
    heap.argKey digest args = Datum.argKey digest data :=
  argKey_eq_of_represents hheap (h.imp fun _ _ => Realizes.represents) digest

theorem Update.Realizes.extends {update : Update} {image : Plain.Update}
    (hgrows : heap.Extends later) (h : update.Realizes heap digest image) :
    update.Realizes later digest image :=
  { h with
    args := realizes_extends hheap hgrows h.args
    value := h.value.extends hheap hgrows }

theorem respects_handling (digest : Digest) :
    (Update.handling heap).Respects (Update.Realizes heap digest)
      (Plain.Update.handling digest) where
  location h := by
    dsimp only [Plain.Update.handling, Update.handling, Update.location]
    rw [h.function, h.key]
  span h := h.span
  sameValue h h' := (h.value.represents.equal_eq hheap h'.value.represents
    h.value.floatFree.equal_self).symm
  sameArgs h h' := (sameArgs_eq_of_represents hheap h.args
    (h'.args.imp fun _ _ => Realizes.represents)).symm
  movedTo _ h := { h with }

theorem Machine.Realizes.grow (h : machine.Realizes setting heap plain)
    (hgrows : heap.Extends later) :
    { machine with heap := later }.Realizes setting later plain :=
  { h with
    heap_eq := rfl
    tables := h.tables.imp fun _ _ hlocation =>
      ⟨realizes_extends hheap hgrows hlocation.args, hlocation.value.extends hheap hgrows⟩
    pending := h.pending.imp fun _ _ => Update.Realizes.extends hheap hgrows
    locals := h.locals.imp fun _ _ hbinding =>
      ⟨hbinding.name, hbinding.value.extends hheap hgrows⟩ }

/-! ### Lookups -/

omit hheap in
theorem rel_map {α β : Type} {R : α → β → Prop} {f : α → Value} {g : β → Datum} {found : Option α}
    {found' : Option β} (h : Option.Rel R found found')
    (hvalues : ∀ a b, R a b → heap.Realizes (f a) (g b)) :
    Option.Rel heap.Realizes (found.map f) (found'.map g) := by
  cases h with
  | none => exact .none
  | some h => exact .some (hvalues _ _ h)

omit hheap in
theorem realizes_getD_undefined {found : Option Value} {found' : Option Datum}
    (h : Option.Rel heap.Realizes found found') :
    heap.Realizes (found.getD .undefined) (found'.getD .undefined) := by
  cases h with
  | none => exact realizes_scalar trivial nofun
  | some h => exact h

namespace Machine

variable (h : machine.Realizes setting heap plain)
include h

omit hheap in
theorem Realizes.lookupLocal (name : String) :
    heap.Realizes (machine.lookupLocal name) (plain.lookupLocal name) := by
  unfold Machine.lookupLocal Plain.Machine.lookupLocal Machine.visible
  dsimp only
  rw [h.frameBase, ← h.locals.length_eq]
  refine realizes_getD_undefined (rel_map ?_ fun _ _ => Binding.Realizes.value)
  refine rel_find? (List.forall₂_take _ h.locals) fun binding image hbinding => ?_
  rw [hbinding.name]

section Locations

variable {args : List Value} {data : List Datum} (hargs : List.Forall₂ heap.Represents args data)
include hargs

theorem Realizes.pending? (function : FunctionId) :
    Option.Rel heap.Realizes (machine.pendingValue? setting function args)
      (plain.pending? setting function data) := by
  unfold pendingValue? Plain.Machine.pending? lookup
  rw [lookupIn_eq, h.heap_eq, argKey_eq_of_represents hheap hargs]
  have hfound := h.pending.find
    (fun hupdate => (sameArgs_eq_of_represents hheap hupdate.args hargs).symm)
    (function, Datum.argKey setting.digest data)
  exact rel_map hfound fun _ _ => Update.Realizes.value

theorem Realizes.stored? (function : FunctionId) :
    Option.Rel heap.Realizes (machine.storedValue? setting function args)
      (plain.stored? setting function data) := by
  unfold storedValue? Plain.Machine.stored?
  rw [Interpretation.get?_eq, h.heap_eq, argKey_eq_of_represents hheap hargs]
  refine rel_map ?_ fun _ _ => StoredLocation.Realizes.value
  exact h.tables.find (fun _ _ hlocation =>
    (sameArgs_eq_of_represents hheap hlocation.args hargs).symm) function _

theorem Realizes.get (function : FunctionId) :
    heap.Realizes (machine.get setting function args) (plain.get setting function data) :=
  realizes_getD_undefined (h.stored? hheap hargs function)

end Locations

end Machine

end Machines

/-! ### Computations -/

def realization (setting : Setting) : Coupling Machine Value Plain.Machine Datum where
  World := HeapWorld
  Later heap later := heap.1.Extends later.1
  States heap := Machine.Realizes setting heap.1
  Values heap := heap.1.Realizes
  later_refl heap := .refl heap.1
  later_trans := Extends.trans
  values_later := fun {heap _ _ _} hgrows hvalue => hvalue.extends heap.2 hgrows

namespace Run

open Coupling

variable {setting : Setting} {w : (realization setting).World} {value : Value} {datum : Datum}
  {data : List Datum}

theorem alike_raise {α β : Type} {rel : (realization setting).World → α → β → Prop}
    (cause : Cause) :
    (realization setting).Alike w rel (raise cause) (Plain.Run.raise cause) := by
  intro machine plain h
  show (realization setting).EndsAlike w rel (.error (.fault ⟨cause, machine.span, _⟩), machine)
    (.error (.fault ⟨cause, plain.span, _⟩), plain)
  rw [h.span]
  exact .error _ ((realization setting).later_refl w) h

theorem alike_scalar (hscalar : IsScalar value) (hfloat : ∀ number, value ≠ .float number) :
    (realization setting).Alike w (realization setting).Values (pure value)
      (pure (Datum.ofScalar value)) :=
  alike_pure (realizes_scalar hscalar hfloat)

theorem alike_onHeap (operation : ListHeap → Handle × ListHeap) {elements : List Value}
    (hmakes : w.1.Makes (operation w.1) elements)
    (helements : List.Forall₂ w.1.Realizes elements data) :
    (realization setting).Alike w (fun w list data => w.1.Realizes (.list list) (.list data))
      (onHeap operation) (pure data) := by
  obtain ⟨heap, hheap⟩ := w
  intro machine plain h
  obtain rfl : machine.heap = heap := h.heap_eq
  have hlater : (realization setting).Later ⟨machine.heap, hheap⟩
    ⟨(operation machine.heap).2, hmakes.wellFormed⟩ := hmakes.grows
  exact .ok hlater (h.grow hheap hmakes.grows) (realizes_of_makes hheap hmakes helements)

theorem alike_ofList {values : List Value} (hvalues : List.Forall₂ w.1.Realizes values data) :
    (realization setting).Alike w (realization setting).Values
      (do
        let handle ← onHeap fun heap => heap.ofList values
        pure (.list handle))
      (pure (.list data)) := by
  have hmakes := makes_ofList w.2 (supports_of_realizes hvalues)
  exact (alike_onHeap _ hmakes hvalues).bind fun _ _ _ _ hlist => alike_pure hlist

theorem alike_operand {outcome : Operation.Outcome} {outcome' : Datum.Outcome}
    (h : SameOutcome w.1.Realizes outcome outcome') :
    (realization setting).Alike w (realization setting).Values (operand outcome)
      (Plain.Run.outcome outcome') := by
  cases h with
  | ok hvalue => exact alike_pure hvalue
  | error error => exact alike_raise _

theorem ofNegation?_of_not_isSymbolic (h : value.isSymbolic = false) :
    Condition.ofNegation? value = none := by
  cases value <;> first | rfl | cases h

theorem isSymbolic_of_realizes {heap : ListHeap} (h : heap.Realizes value datum) :
    value.isSymbolic = false := by
  obtain ⟨list, data, rfl, -⟩ | ⟨hscalar, -, -⟩ := h.cases
  · rfl
  · cases value <;> first | exact hscalar.elim | rfl

theorem alike_binary {left right : Value} {leftDatum rightDatum : Datum}
    (hleft : w.1.Realizes left leftDatum) (hright : w.1.Realizes right rightDatum)
    (op : BinaryOp) :
    (realization setting).Alike w (realization setting).Values (binary setting op left right)
      (Plain.Run.outcome (Datum.binary op leftDatum rightDatum)) := by
  unfold binary
  rw [isSymbolic_of_realizes hleft, isSymbolic_of_realizes hright]
  intro machine plain h
  have houtcome := Operation.sameOutcome_binary w.2 hleft hright op
  rw [← h.heap_eq] at houtcome
  exact alike_operand (h.heap_eq ▸ houtcome) machine plain h

theorem alike_negation (hvalue : w.1.Realizes value datum) :
    (realization setting).Alike w (realization setting).Values (negation value)
      (Plain.Run.outcome datum.not) := by
  unfold negation
  rw [ofNegation?_of_not_isSymbolic (isSymbolic_of_realizes hvalue)]
  exact alike_operand (Operation.sameOutcome_not hvalue)

theorem alike_builtin (hconcrete : setting.symbolic = false) {op : Builtin} (hop : op ≠ .asFloat)
    {args : List Value} (hargs : List.Forall₂ w.1.Realizes args data) :
    (realization setting).Alike w (realization setting).Values (builtin setting op args)
      (Plain.Run.outcome (Datum.builtin op data)) := by
  obtain ⟨heap, hheap⟩ := w
  intro machine plain h
  obtain rfl : machine.heap = heap := h.heap_eq
  have houtcome : SameOutcome _ (Operation.builtin machine.heap machine.lease op args) _ :=
    Operation.sameOutcome_builtin hheap hop hargs
  unfold builtin
  rw [get_bind_apply, hconcrete]
  generalize Operation.builtin machine.heap machine.lease op args = outcome at houtcome ⊢
  generalize Datum.builtin op data = outcome' at houtcome ⊢
  cases houtcome with
  | @ok result _ hyields =>
    have hlater : (realization setting).Later ⟨machine.heap, hheap⟩
      ⟨result.2, hyields.wellFormed⟩ := hyields.grows
    exact .ok hlater (h.grow hheap hyields.grows) hyields.realizes
  | error error => exact alike_raise _ machine plain h

theorem realizes_integersBetween (heap : ListHeap) (low high : Int64) :
    List.Forall₂ heap.Realizes (integersBetween low high)
      ((integersBetween low high).map Datum.ofScalar) := by
  refine List.forall₂_map_right_iff.mpr (List.forall₂_same.mpr fun value hvalue => ?_)
  obtain ⟨offset, -, rfl⟩ := List.mem_map.mp hvalue
  exact realizes_scalar trivial nofun

theorem range_outline (low high : Value) :
    range (Operation.outline low) (Operation.outline high) = range low high := by
  cases low <;> cases high <;> rfl

theorem alike_range {low high : Value} {lowDatum highDatum : Datum}
    (hlow : w.1.Realizes low lowDatum) (hhigh : w.1.Realizes high highDatum) :
    (realization setting).Alike w (realization setting).Values (range low high)
      (Plain.Run.range lowDatum highDatum) := by
  rw [← range_outline, ← Operation.outline_of_represents hlow.represents,
    ← Operation.outline_of_represents hhigh.represents]
  cases lowDatum with
  | int low =>
    cases highDatum with
    | int high => exact alike_ofList (realizes_integersBetween w.1 low high)
    | undefined => exact alike_scalar trivial nofun
    | _ => exact alike_raise _
  | undefined => cases highDatum <;> exact alike_scalar trivial nofun
  | _ =>
    cases highDatum with
    | undefined => exact alike_scalar trivial nofun
    | _ => exact alike_raise _

theorem alike_domainElements (hvalue : w.1.Realizes value datum) :
    (realization setting).Alike w (realization setting).AllValues (domainElements value)
      (Plain.Run.elements datum) := by
  obtain ⟨list, data, rfl, rfl⟩ | ⟨hscalar, rfl, -⟩ := hvalue.cases
  · obtain ⟨elements, hdenotes, helements⟩ := hvalue.exists_elements w.2
    intro machine plain h
    show (realization setting).EndsAlike w _ (.ok (machine.heap.toList list), machine) _
    rw [h.heap_eq, hdenotes.toList_eq]
    exact .ok ((realization setting).later_refl w) h helements
  · cases value with
    | list | symbol | verdict => exact hscalar.elim
    | undefined => exact alike_pure .nil
    | _ => exact alike_raise _

theorem alike_decide (hvalue : w.1.Realizes value datum) :
    (realization setting).Alike w (realization setting).Same (decide setting value)
      (Plain.Run.decide datum) := by
  obtain ⟨list, data, rfl, rfl⟩ | ⟨hscalar, rfl, -⟩ := hvalue.cases
  · exact alike_raise _
  · cases value with
    | list | symbol | verdict => exact hscalar.elim
    | bool | undefined => exact alike_pure rfl
    | _ => exact alike_raise _

theorem alike_ruleOf (hvalue : w.1.Realizes value datum) :
    (realization setting).Alike w (realization setting).Same (ruleOf value)
      (Plain.Run.ruleOf datum) := by
  obtain ⟨list, data, rfl, rfl⟩ | ⟨hscalar, rfl, -⟩ := hvalue.cases
  · exact alike_raise _
  · cases value with
    | list | symbol | verdict => exact hscalar.elim
    | rule => exact alike_pure rfl
    | _ => exact alike_raise _

theorem alike_scheduled (hvalue : w.1.Realizes value datum) :
    (realization setting).Alike w (realization setting).Same
      ((Machine.backend setting).scheduled value) (Plain.Run.scheduled datum) := by
  obtain ⟨list, data, rfl, rfl⟩ | ⟨hscalar, rfl, -⟩ := hvalue.cases
  · exact alike_raise _
  · cases value with
    | list | symbol | verdict => exact hscalar.elim
    | undefined | rule => exact alike_pure rfl
    | _ => exact alike_raise _

theorem alike_cons {list : Handle} (hvalue : w.1.Realizes value datum)
    (hlist : w.1.Realizes (.list list) (.list data)) :
    (realization setting).Alike w (realization setting).Values
      (do
        let handle ← onHeap fun heap => heap.cons value list
        pure (.list handle))
      (pure (.list (datum :: data))) := by
  obtain ⟨elements, hdenotes, helements⟩ := hlist.exists_elements w.2
  have hmakes := makes_cons w.2 hvalue.represents.supports hdenotes
  exact (alike_onHeap _ hmakes (.cons hvalue helements)).bind fun _ _ _ _ hlist =>
    alike_pure hlist

theorem alike_pushed {current : Value} {image : Datum} (hvalue : w.1.Realizes value datum)
    (hcurrent : w.1.Realizes current image) :
    (realization setting).Alike w (realization setting).Values
      ((Machine.backend setting).pushed value current) (Plain.Run.pushed datum image) := by
  obtain ⟨list, data, rfl, rfl⟩ | ⟨hscalar, rfl, -⟩ := hcurrent.cases
  · exact alike_cons hvalue hcurrent
  · cases current with
    | list | symbol | verdict => exact hscalar.elim
    | undefined =>
      exact (alike_onHeap ListHeap.empty (makes_empty w.2) .nil).bind
        fun _ _ _ hlater hlist => alike_cons (hvalue.extends w.2 hlater) hlist
    | _ => exact alike_raise _

theorem alike_popped {current : Value} {image : Datum} (hcurrent : w.1.Realizes current image) :
    (realization setting).Alike w (realization setting).Popped
      ((Machine.backend setting).popped current) (Plain.Run.popped image) := by
  obtain ⟨list, data, rfl, rfl⟩ | ⟨hscalar, rfl, -⟩ := hcurrent.cases
  · obtain ⟨elements, hdenotes, helements⟩ := hcurrent.exists_elements w.2
    have hmakes := makes_tail w.2 hdenotes
    have htail : List.Forall₂ w.1.Realizes elements.tail data.tail := by
      cases helements with
      | nil => exact .nil
      | cons _ hrest => exact hrest
    show (realization setting).Alike w _ _ (get >>= fun _ => pure data.tail >>= fun rest =>
      (pure (data.headD .undefined, some (.list rest)) : Plain.Run (Datum × Option Datum)))
    refine alike_get fun machine plain h => ?_
    rw [h.heap_eq]
    have hpeek := Operation.realizes_peek w.2 hcurrent
    exact (alike_onHeap (fun heap => heap.tail list) hmakes htail).bind
      fun w' rest data hlater hrest => alike_pure ⟨hpeek.extends w.2 hlater, .some hrest⟩
  · cases current with
    | list | symbol | verdict => exact hscalar.elim
    | undefined => exact alike_pure ⟨realizes_scalar trivial nofun, .none⟩
    | _ => exact alike_raise _

/-! ### Updates -/

theorem alike_write {args : List Value} (hargs : List.Forall₂ w.1.Realizes args data)
    (hvalue : w.1.Realizes value datum) (function : FunctionId) (span : Span) :
    (realization setting).Alike w (realization setting).Same
      (write setting function args value span)
      (Plain.Run.write setting function data datum span) := by
  obtain ⟨heap, hheap⟩ := w
  intro machine plain h
  obtain rfl : machine.heap = heap := h.heap_eq
  have hupdate : Update.Realizes machine.heap setting.digest
      { function, key := machine.heap.argKey setting.digest args, args, value, span
        layer := machine.pending.depth }
      { function, args := data, value := datum, span } :=
    ⟨rfl, argKey_eq_of_realizes hheap hargs _, hargs, hvalue, rfl⟩
  have hadd := h.pending.add (respects_handling hheap setting.digest) hupdate
  unfold write Plain.Run.write
  rw [get_bind_apply, add_eq, Computation.get_bind_apply]
  generalize machine.pending.stack.add _ _ = outcome at hadd ⊢
  generalize plain.pending.add _ _ = outcome' at hadd ⊢
  cases hadd with
  | @ok pending image hpending =>
    have hstates : (realization setting).States ⟨machine.heap, hheap⟩
      { machine with pending := .ofStack pending } { plain with pending := image } :=
      { h with pending := hpending }
    exact .ok ((realization setting).later_refl _) hstates rfl
  | error fault => exact .error _ ((realization setting).later_refl _) h

theorem enter_apply (parallel : Bool) (machine : Machine) :
    (Machine.backend setting).enter parallel machine =
      (.ok (machine.pending.stack.enter parallel).1,
        { machine with pending := .ofStack (machine.pending.stack.enter parallel).2 }) := by
  cases parallel with
  | true =>
    show onPending forkParallel machine = _
    rw [onPending, get_bind_apply, forkParallel_eq]
    rfl
  | false =>
    show onPending forkSequential machine = _
    rw [onPending, get_bind_apply, forkSequential_eq]
    rfl

theorem alike_enter (parallel : Bool) :
    (realization setting).Alike w (realization setting).Same
      ((Machine.backend setting).enter parallel) (Plain.Run.enter parallel) := by
  intro machine plain h
  obtain ⟨hforked, hstack⟩ := h.pending.enter parallel
  have hstates : (realization setting).States w
      { machine with pending := .ofStack (machine.pending.stack.enter parallel).2 }
      { plain with pending := (plain.pending.enter parallel).2 } := { h with pending := hstack }
  rw [enter_apply]
  exact .ok ((realization setting).later_refl w) hstates hforked.symm

theorem alike_leave (merge : UpdateSet → ListHeap → Bool → UpdateSet × Option Fault)
    (merge' : Stack Plain.Update → Stack Plain.Update × Option Fault) (forked : Bool)
    (hmerge : ∀ (pending : UpdateSet) (image : Stack Plain.Update),
      pending.stack.Related (Update.Realizes w.1 setting.digest) image →
      (merge pending w.1 forked).1.stack.Related (Update.Realizes w.1 setting.digest)
          (merge' image).1 ∧
        (merge' image).2 = (merge pending w.1 forked).2) :
    (realization setting).Alike w (realization setting).Same (leave merge forked)
      (Plain.Run.leave merge') := by
  obtain ⟨heap, hheap⟩ := w
  intro machine plain h
  obtain rfl : machine.heap = heap := h.heap_eq
  obtain ⟨hstack, hfault⟩ := hmerge machine.pending plain.pending h.pending
  have hstates : (realization setting).States ⟨machine.heap, hheap⟩
      { machine with pending := (merge machine.pending machine.heap forked).1 }
      { plain with pending := (merge' plain.pending).1 } := { h with pending := hstack }
  show (realization setting).EndsAlike _ _
    (ofFault (merge machine.pending machine.heap forked).2 _)
    (Plain.Run.ofFault (merge' plain.pending).2 _)
  rw [hfault]
  cases (merge machine.pending machine.heap forked).2 with
  | none => exact .ok ((realization setting).later_refl _) hstates rfl
  | some fault => exact .error _ ((realization setting).later_refl _) hstates

theorem alike_leaveBlock (forked : Bool) :
    (realization setting).Alike w (realization setting).Same
      ((Machine.backend setting).leave forked) ((Plain.backend setting).leave forked) := by
  refine alike_leave merge (Stack.merge (Plain.Update.handling setting.digest) forked)
    forked fun pending image hpending => ?_
  rw [merge_eq]
  exact hpending.merge (respects_handling w.2 setting.digest) forked

theorem alike_leaveRound (forked : Bool) :
    (realization setting).Alike w (realization setting).Same
      ((Machine.backend setting).leaveRound forked)
      ((Plain.backend setting).leaveRound forked) := by
  refine alike_leave mergeRound
    (Stack.mergeRound (Plain.Update.handling setting.digest) forked) forked
    fun pending image hpending => ?_
  rw [mergeRound_eq]
  exact hpending.mergeRound (respects_handling w.2 setting.digest) forked

end Run

end AbstractStateMachine
