import AbstractStateMachine.Proofs.Location.FiniteMap
import AbstractStateMachine.Proofs.Machine.Isolation

/-!
# Pushing and popping

Statements that push onto a location and pop from it work on a list that they read through all
pending layers, and write its new version to the innermost one. In a sequential layer the next
statement sees that version, so the location follows a stack. What is popped goes to a second
location. A statement only fails if a location that it writes has the key of another one that is
pending in the layer. `seq_follows_stack` says so for all blocks of such statements, whatever nodes
represent the lists and through whatever tuples, equal to each other, the location is addressed.
-/

namespace AbstractStateMachine

open ListHeap Standard UpdateSet

/-! ### Equal tuples -/

namespace ListHeap

structure SameLocation (heap : ListHeap) (digest : Digest) (xs ys : List Value) : Prop where
  key : heap.argKey digest xs = heap.argKey digest ys
  args : ∀ probe, heap.sameArgs probe xs = heap.sameArgs probe ys

theorem FloatFree.sameLocation {heap : ListHeap} {xs ys : List Value} (hys : heap.FloatFree ys)
    (h : heap.sameArgs xs ys = true) (digest : Digest) : heap.SameLocation digest xs ys where
  key := (hys.argKey_eq (sameArgs_symm h) digest).symm
  args _ := Bool.eq_iff_iff.mpr
    ⟨fun hprobe => sameArgs_trans hprobe h, fun hprobe => sameArgs_trans hprobe (sameArgs_symm h)⟩

end ListHeap

namespace UpdateSet

variable {set next : UpdateSet} {heap : ListHeap} {digest : Digest} {function other : FunctionId}
  {key : ArgKey} {args probe : List Value} {value : Value} {span : Span}

theorem lookup_congr (h : ∀ held, heap.sameArgs held args = heap.sameArgs held probe)
    (set : UpdateSet) (function : FunctionId) (key : ArgKey) :
    set.lookup heap function key args = set.lookup heap function key probe := by
  unfold lookup
  induction set.layers with
  | nil => rfl
  | cons layer below ih => simp only [lookupIn, h, ih]

section Sequential

variable (hsequential : set.inParallel = false)
include hsequential

theorem top_of_add (h : set.add heap digest function args value span = .ok next) :
    next.below = set.below ∧ ∃ update,
      next.top = set.top.insert (function, heap.argKey digest args) update := by
  obtain ⟨top, hrecord, rfl⟩ := exists_record_of_add h
  rw [Layer.record, hsequential] at hrecord
  exact ⟨rfl, _, (Layer.override_cases hrecord).1⟩

theorem lookup_add_of_ne (h : set.add heap digest function args value span = .ok next)
    (hne : (other, key) ≠ (function, heap.argKey digest args)) :
    next.lookup heap other key probe = set.lookup heap other key probe := by
  obtain ⟨hbelow, update, htop⟩ := top_of_add hsequential h
  rw [lookup_of_sequential ((inParallel_congr hbelow).trans hsequential),
    lookup_of_sequential hsequential, hbelow, htop, OrderedMap.get?_insert_of_ne _ _ hne]

end Sequential

end UpdateSet

namespace Machine

variable {setting : Setting} {machine next last : Machine} {function other : FunctionId}
  {args values : List Value} {value : Value} {span : Span}

/-! ### What is seen of a location -/

def visibleValue (setting : Setting) (machine : Machine) (function : FunctionId)
    (args : List Value) : Value :=
  ((machine.pendingValue? setting function args).or
    (machine.storedValue? setting function args)).getD .undefined

/-- Reading the location gives the value and has no effect. -/
def Sees (setting : Setting) (machine : Machine) (function : FunctionId) (args : List Value)
    (value : Value) : Prop :=
  ∀ fuel, Run.read setting fuel function args machine = (.ok value, machine)

/-- Another location is pending in the innermost layer under the key of this one. -/
def Collides (setting : Setting) (machine : Machine) (function : FunctionId)
    (args : List Value) : Prop :=
  ∃ existing,
    machine.pending.top.get? (function, machine.heap.argKey setting.digest args) = some existing ∧
      machine.heap.sameArgs existing.args args = false

section Stored

variable (hconcrete : setting.symbolic = false)
  (hstored : (setting.spec.function function).isDerived = false)
include hconcrete hstored

theorem read_eq_visibleValue (fuel : Nat) (args : List Value) (machine : Machine) :
    Run.read setting fuel function args machine =
      (.ok (machine.visibleValue setting function args), machine) := by
  rw [Run.read, Run.readWith]
  cases hkind : (setting.spec.function function).kind with
  | derived params body =>
    rw [FunctionDecl.isDerived, hkind] at hstored
    cases hstored
  | controlled => exact Run.readStored_of_concrete hconcrete function args machine
  | static => exact Run.readStored_of_concrete hconcrete function args machine

theorem sees_iff : machine.Sees setting function args value ↔
    machine.visibleValue setting function args = value := by
  constructor
  · intro h
    have hread := h 0
    rw [read_eq_visibleValue hconcrete hstored] at hread
    exact Except.ok.inj (Prod.mk.inj hread).1
  · intro h fuel
    rw [read_eq_visibleValue hconcrete hstored, h]

end Stored

section SameLocation

variable (h : machine.heap.SameLocation setting.digest values args)
include h

theorem visibleValue_congr :
    machine.visibleValue setting function values = machine.visibleValue setting function args := by
  have hstored : machine.storedValue? setting function values =
      machine.storedValue? setting function args := by
    simp only [storedValue?, Interpretation.get?, Bucket.get?, h.key, h.args]
  rw [visibleValue, visibleValue, hstored, pendingValue?, pendingValue?, h.key,
    lookup_congr h.args]

theorem collides_congr :
    machine.Collides setting function values ↔ machine.Collides setting function args := by
  simp only [Collides, h.key, h.args]

end SameLocation

/-! ### Lists are added -/

/-- Nothing has been written, but there may be more lists. -/
structure Widens (setting : Setting) (machine next : Machine) : Prop
    extends Continues (.plain setting.symbolic) machine next where
  pending : next.pending = machine.pending
  state : next.state = machine.state

theorem Widens.trans (h : machine.Widens setting next) (h' : next.Widens setting last) :
    machine.Widens setting last :=
  ⟨h.toContinues.trans h'.toContinues, h'.pending.trans h.pending, h'.state.trans h.state⟩

section Grounded

variable (hmachine : machine.Grounded setting)
include hmachine

theorem widens_span (span : Span) : machine.Widens setting { machine with span } :=
  ⟨SameHoldings.continues ⟨rfl, rfl, rfl, rfl⟩ hmachine rfl, rfl, rfl⟩

theorem widens_of_makes {result : Handle × ListHeap} {elements : List Value}
    (h : machine.heap.Makes result elements) :
    machine.Widens setting { machine with heap := result.2 } :=
  ⟨⟨hmachine.with_heap h.wellFormed h.grows, h.grows, rfl⟩, rfl, rfl⟩

theorem widens_of_observes {α : Type} {run : Run α} {gives : α → List Value} {result : α}
    (hconcrete : setting.symbolic = false)
    (hkeeps : Run.Keeps (.plain setting.symbolic) [] run gives)
    (hobserves : Run.OnlyObserves setting run) (hrun : run machine = (.ok result, next)) :
    machine.Widens setting next ∧ next.heap.Supports (gives result) := by
  have hends := hkeeps machine hmachine acceptsAll_nil
  have hobserved := hobserves machine
  rw [hrun] at hends hobserved
  exact ⟨⟨hends.toContinues, hobserved.pending, hobserved.state_of_concrete hconcrete⟩,
    acceptsAll_plain_iff.mp (hends.accepted result rfl)⟩

section Widens

variable (h : machine.Widens setting next) (hargs : machine.heap.Supports args)
include h hargs

theorem Widens.agrees : machine.heap.Agrees next.heap ∧ next.heap.Supports args :=
  ⟨agrees_of_extends hmachine.wellFormed h.upholds.wellFormed h.grows, hargs.extends h.grows⟩

theorem Widens.visibleValue_eq :
    next.visibleValue setting function args = machine.visibleValue setting function args := by
  have hpending : next.pendingValue? setting function args =
      machine.pendingValue? setting function args :=
    pendingValue?_eq hmachine h.upholds h.grows hargs fun _ _ => by rw [h.pending]
  have hstored : next.storedValue? setting function args =
      machine.storedValue? setting function args := by
    rw [storedValue?, h.state]
    exact get?_eq_storedValue? hmachine h.upholds h.grows hargs
  rw [visibleValue, visibleValue, hpending, hstored]

theorem Widens.collides_iff :
    next.Collides setting function args ↔ machine.Collides setting function args := by
  obtain ⟨hagrees, hargs'⟩ := h.agrees hmachine hargs
  have hheld := acceptsAll_plain_iff.mp hmachine.pending
  rw [Collides, Collides, h.pending, hagrees.argKey_eq hargs hargs']
  refine exists_congr fun existing => and_congr_right fun hexisting => ?_
  have hexistingArgs : machine.heap.Supports existing.args := hheld.mono fun value hvalue => ?_
  · rw [hagrees.sameArgs_eq hexistingArgs (hexistingArgs.extends h.grows) hargs hargs']
  · exact List.mem_flatMap.mpr ⟨_, List.mem_cons_self,
      List.mem_flatMap.mpr ⟨existing, OrderedMap.mem_values_of_get? hexisting,
        List.mem_append_left _ hvalue⟩⟩

end Widens

end Grounded

/-! ### Writes to a sequential layer -/

/-- The location has the value, and what is seen and pending under other keys is as before. -/
structure Wrote (setting : Setting) (function : FunctionId) (values : List Value) (value : Value)
    (machine next : Machine) : Prop where
  heap : next.heap = machine.heap
  sequential : next.pending.inParallel = false
  seen : ∀ args, machine.heap.SameLocation setting.digest values args →
    machine.heap.sameArgs values args = true → next.visibleValue setting function args = value
  unseen : ∀ other args, (other, machine.heap.argKey setting.digest args) ≠
    (function, machine.heap.argKey setting.digest values) →
      next.visibleValue setting other args = machine.visibleValue setting other args
  collides_iff : ∀ other args, (other, machine.heap.argKey setting.digest args) ≠
    (function, machine.heap.argKey setting.digest values) →
      (next.Collides setting other args ↔ machine.Collides setting other args)

section Writes

variable (hsequential : machine.pending.inParallel = false)
include hsequential

theorem wrote_of_add {pending : UpdateSet}
    (hadd : machine.pending.add machine.heap setting.digest function values value span =
      .ok pending) : machine.Wrote setting function values value { machine with pending } where
  heap := rfl
  sequential := (inParallel_congr (top_of_add hsequential hadd).1).trans
    hsequential
  seen args hsame hargs := by
    have hlookup := lookup_add_of_sameArgs hsequential hadd hargs
    rw [hsame.key] at hlookup
    rw [visibleValue, pendingValue?, hlookup]
    rfl
  unseen other args hne := by
    rw [visibleValue, visibleValue, pendingValue?, pendingValue?,
      lookup_add_of_ne hsequential hadd hne]
    rfl
  collides_iff other args hne := by
    obtain ⟨-, update, htop⟩ := top_of_add hsequential hadd
    simp only [Collides, htop, OrderedMap.get?_insert_of_ne _ _ hne]

theorem write_of_not_collides (h : ¬machine.Collides setting function values) (value : Value)
    (span : Span) : ∃ next,
      Run.write setting function values value span machine = (.ok (), next) ∧
        machine.Wrote setting function values value next := by
  obtain ⟨pending, hadd⟩ : ∃ pending,
      machine.pending.add machine.heap setting.digest function values value span = .ok pending := by
    rw [add, Layer.record, hsequential, if_neg Bool.false_ne_true, Layer.override]
    split
    · exact ⟨_, rfl⟩
    · next existing hexisting =>
        cases hargs : machine.heap.sameArgs existing.args values with
        | true => exact ⟨_, rfl⟩
        | false => exact absurd ⟨existing, hexisting, hargs⟩ h
  exact ⟨_, Run.write_of_add_ok hadd, wrote_of_add hsequential hadd⟩

theorem write_of_collides (h : machine.Collides setting function values) (value : Value)
    (span : Span) : ∃ fault,
      Run.write setting function values value span machine = (.error (.fault fault), machine) ∧
        fault.cause = .keyCollision ∧ fault.span = span := by
  obtain ⟨existing, hexisting, hargs⟩ := h
  obtain ⟨fault, hadd, hfault⟩ : ∃ fault,
      machine.pending.add machine.heap setting.digest function values value span = .error fault ∧
        fault.cause = .keyCollision ∧ fault.span = span := by
    rw [add, Layer.record, hsequential, if_neg Bool.false_ne_true, Layer.override]
    simp only [hexisting, hargs, Bool.false_eq_true, if_false]
    exact ⟨_, rfl, rfl, rfl⟩
  exact ⟨fault, Run.write_of_add_error hadd, hfault⟩

end Writes

/-! ### Stacks -/

/-- The location shows a list of the elements, or no value. -/
def HoldsStack (setting : Setting) (machine : Machine) (function : FunctionId)
    (args : List Value) : Option (List Value) → Prop
  | none => machine.Sees setting function args .undefined
  | some elements => ∃ list, machine.Sees setting function args (.list list) ∧
      machine.heap.Denotes list elements

theorem HoldsStack.widens {stack : Option (List Value)} (hconcrete : setting.symbolic = false)
    (hstored : (setting.spec.function function).isDerived = false)
    (hmachine : machine.Grounded setting) (hargs : machine.heap.Supports args)
    (hstack : machine.HoldsStack setting function args stack) (h : machine.Widens setting next) :
    next.HoldsStack setting function args stack := by
  have hkept {value : Value} (hsees : machine.Sees setting function args value) :
      next.Sees setting function args value := by
    rw [sees_iff hconcrete hstored] at hsees ⊢
    exact (h.visibleValue_eq hmachine hargs).trans hsees
  cases stack with
  | none => exact hkept hstack
  | some elements =>
    obtain ⟨list, hsees, hlist⟩ := hstack
    exact ⟨list, hkept hsees, hlist.extends h.grows⟩

/-- A state in which a stack can be worked on: the innermost layer is sequential, and the arguments
of its location are without floats. That it is grounded holds in the midst of all calls. -/
structure HostsStack (setting : Setting) (args : List Value) (machine : Machine) : Prop where
  grounded : machine.Grounded setting
  sequential : machine.pending.inParallel = false
  supports : machine.heap.Supports args
  floatFree : machine.heap.FloatFree args

/-- The arguments of a statement have been evaluated to a tuple that leads to the location. -/
structure Addressed (setting : Setting) (args values : List Value) (machine next : Machine) : Prop
    extends machine.Widens setting next where
  supported : next.heap.Supports values
  sameArgs : next.heap.sameArgs values args = true

section HostsStack

variable (hhosts : machine.HostsStack setting args)
include hhosts

theorem HostsStack.continues (h : Continues (.plain setting.symbolic) machine next)
    (hbelow : next.pending.below = machine.pending.below) : next.HostsStack setting args where
  grounded := h.upholds
  sequential := (inParallel_congr hbelow).trans hhosts.sequential
  supports := hhosts.supports.extends h.grows
  floatFree := hhosts.floatFree.agrees
    (agrees_of_extends hhosts.grounded.wellFormed h.upholds.wellFormed h.grows) hhosts.supports
    (hhosts.supports.extends h.grows)

theorem HostsStack.widens (h : machine.Widens setting next) : next.HostsStack setting args :=
  hhosts.continues h.toContinues (by rw [h.pending])

variable (h : Addressed setting args values machine next)
include h

theorem Addressed.widens (h' : next.Widens setting last) :
    Addressed setting args values machine last := by
  have hnext := hhosts.widens h.toWidens
  obtain ⟨hagrees, hvalues⟩ := h'.agrees hnext.grounded h.supported
  refine ⟨h.toWidens.trans h', hvalues, ?_⟩
  rw [hagrees.sameArgs_eq h.supported hvalues hnext.supports (hnext.supports.extends h'.grows)]
  exact h.sameArgs

theorem Addressed.sameLocation : next.heap.SameLocation setting.digest values args :=
  (hhosts.widens h.toWidens).floatFree.sameLocation h.sameArgs setting.digest

theorem Addressed.visibleValue_eq :
    next.visibleValue setting function values = machine.visibleValue setting function args := by
  rw [visibleValue_congr (h.sameLocation hhosts),
    h.toWidens.visibleValue_eq hhosts.grounded hhosts.supports]

theorem Addressed.collides_iff :
    next.Collides setting function values ↔ machine.Collides setting function args := by
  rw [collides_congr (h.sameLocation hhosts),
    h.toWidens.collides_iff hhosts.grounded hhosts.supports]

theorem Addressed.collides_nil_iff (target : FunctionId) :
    next.Collides setting target [] ↔ machine.Collides setting target [] :=
  h.toWidens.collides_iff hhosts.grounded (supports_iff.mpr (by simp))

end HostsStack

end Machine

/-- Where a stack lies and where what is popped goes: stored locations of a concrete machine. -/
structure StackPlace (setting : Setting) (function : FunctionId) (args : List Value)
    (target : FunctionId) : Prop where
  concrete : setting.symbolic = false
  stored : (setting.spec.function function).isDerived = false
  target_stored : (setting.spec.function target).isDerived = false
  apart : target = function → args ≠ []

namespace StackPlace

variable {setting : Setting} {function target : FunctionId} {args probe : List Value}
  {machine : Machine} {value : Value} (h : StackPlace setting function args target)
include h

theorem sees_iff : machine.Sees setting function probe value ↔
    machine.visibleValue setting function probe = value :=
  Machine.sees_iff h.concrete h.stored

theorem sees_target_iff : machine.Sees setting target probe value ↔
    machine.visibleValue setting target probe = value :=
  Machine.sees_iff h.concrete h.target_stored

/-- No heap mixes the two locations up, whatever the digest. -/
theorem key_ne (heap : ListHeap) (digest : Digest) :
    (function, heap.argKey digest args) ≠ (target, heap.argKey digest []) := by
  intro heq
  obtain ⟨hfunction, hkey⟩ := Prod.mk.inj heq
  exact h.apart hfunction.symm (List.map_eq_nil_iff.mp hkey)

end StackPlace

/-- A statement on a stack, with the value that it pushes. -/
inductive StackOp where
  | push (value : Value) (source : Expr) (args : List Expr) (span : Span)
  | pop (args : List Expr) (span : Span)

namespace StackOp

def isPop : StackOp → Bool
  | push _ _ _ _ => false
  | pop _ _ => true

def span : StackOp → Span
  | push _ _ _ span | pop _ span => span

def stmt (function target : FunctionId) : StackOp → Stmt
  | push _ source args span => { span, action := .push source function args }
  | pop args span => { span, action := .pop function args target }

/-- What becomes of a stack. Without a value, a push starts with the empty stack and a pop does
nothing; a pop leaves the empty stack empty. -/
def apply : StackOp → Option (List Value) → Option (List Value)
  | push value _ _ _, stack => some (value :: stack.getD [])
  | pop _ _, stack => stack.map List.tail

def applyAll (stack : Option (List Value)) (ops : List StackOp) : Option (List Value) :=
  ops.foldl (fun stack op => op.apply stack) stack

def popped (stack : Option (List Value)) : Value := (stack.getD []).headD .undefined

/-- The expressions of the statement have values: the one that is pushed, and arguments that are
equal to those of the location. -/
def Addresses (setting : Setting) (fuel : Nat) (args : List Value) (machine : Machine) :
    StackOp → Prop
  | push value source exprs span => ∃ middle values next,
      Run.eval setting fuel source { machine with span } = (.ok value, middle) ∧
        Run.evalAll setting fuel exprs middle = (.ok values, next) ∧
        next.heap.sameArgs values args = true
  | pop exprs span => ∃ values next,
      Run.evalAll setting fuel exprs { machine with span } = (.ok values, next) ∧
        next.heap.sameArgs values args = true

/-- A location that the statement writes has the key of another one that is pending. -/
def Collides (setting : Setting) (function : FunctionId) (args : List Value) (target : FunctionId)
    (machine : Machine) (stack : Option (List Value)) : StackOp → Prop
  | push _ _ _ _ => machine.Collides setting function args
  | pop _ _ => machine.Collides setting target [] ∨
      stack.isSome = true ∧ machine.Collides setting function args

def runAll (setting : Setting) (fuel : Nat) (function target : FunctionId) (ops : List StackOp) :
    Run Unit :=
  Run.sequence (Run.exec setting fuel) (ops.map (stmt function target))

/-- After some of the statements a run has reached the next one. -/
structure Reaches (setting : Setting) (fuel : Nat) (function target : FunctionId)
    (ops : List StackOp) (machine : Machine) (before : List StackOp) (op : StackOp)
    (here : Machine) : Prop where
  split : ∃ after, ops = before ++ op :: after
  run : runAll setting fuel function target before machine = (.ok (), here)

/-- What the statement does when its location holds the stack. -/
structure Acts (setting : Setting) (fuel : Nat) (function : FunctionId) (args : List Value)
    (target : FunctionId) (machine : Machine) (stack : Option (List Value)) (op : StackOp) :
    Prop where
  holds : machine.HoldsStack setting function args stack
  succeeds : ¬op.Collides setting function args target machine stack → ∃ next,
    Run.exec setting fuel (op.stmt function target) machine = (.ok (), next) ∧
      next.HoldsStack setting function args (op.apply stack) ∧
      (op.isPop = true → next.Sees setting target [] (popped stack))
  fails : op.Collides setting function args target machine stack → ∃ fault next,
    Run.exec setting fuel (op.stmt function target) machine = (.error (.fault fault), next) ∧
      fault.cause = .keyCollision ∧ fault.span = op.span

end StackOp

namespace Run

open Machine

variable {setting : Setting} {function target : FunctionId} {args values : List Value}
  {machine next : Machine} {stack : Option (List Value)} {value : Value} {source : Expr}
  {exprs : List Expr} {span : Span} {fuel : Nat}

theorem exec_push_eq {middle : Machine}
    (hsource : eval setting fuel source { machine with span } = (.ok value, middle))
    (hexprs : evalAll setting fuel exprs middle = (.ok values, next)) :
    exec setting (fuel + 1) { span, action := .push source function exprs } machine =
      (do
        let current ← read setting fuel function values
        let list ← pushTarget current
        let pushed ← onHeap fun heap => heap.cons value list
        write setting function values (.list pushed) span) next := by
  show (eval setting fuel source >>= _ : Run Unit) { machine with span } = _
  rw [bind_apply, hsource]
  show (evalAll setting fuel exprs >>= _ : Run Unit) middle = _
  rw [bind_apply, hexprs]
  rfl

theorem runAll_cons {op : StackOp}
    (h : exec setting fuel (op.stmt function target) machine = (.ok (), next))
    (rest : List StackOp) :
    StackOp.runAll setting fuel function target (op :: rest) machine =
      StackOp.runAll setting fuel function target rest next := by
  rw [StackOp.runAll, List.map_cons, sequence, bind_apply, h]
  rfl

section Place

variable (hplace : StackPlace setting function args target)
  (hhosts : machine.HostsStack setting args)
include hplace hhosts

/-! ### Pushing -/

theorem exists_pushed (hstack : machine.HoldsStack setting function args stack)
    (haddressed : Addressed setting args values machine next)
    (hvalue : next.heap.Supports [value]) : ∃ pushed ready,
      (do
        let current ← read setting fuel function values
        let list ← pushTarget current
        let pushed ← onHeap fun heap => heap.cons value list
        write setting function values (.list pushed) span : Run Unit) next =
        write setting function values (.list pushed) span ready ∧
      Addressed setting args values machine ready ∧
      ready.heap.Denotes pushed (value :: stack.getD []) := by
  have hnext := (hhosts.widens haddressed.toWidens).grounded
  rw [bind_apply, read_eq_visibleValue hplace.concrete hplace.stored,
    haddressed.visibleValue_eq hhosts]
  cases stack with
  | none =>
    have hseen := hplace.sees_iff.mp hstack
    have hempty := makes_empty hnext.wellFormed
    have hcons := makes_cons hempty.wellFormed (hvalue.extends hempty.grows) hempty.denotes
    rw [hseen]
    have hwiden := widens_of_makes hnext hempty
    exact ⟨_, _, rfl, haddressed.widens hhosts
      (hwiden.trans (widens_of_makes hwiden.upholds hcons)), hcons.denotes⟩
  | some elements =>
    obtain ⟨list, hsees, hlist⟩ := hstack
    have hseen := hplace.sees_iff.mp hsees
    have hcons := makes_cons hnext.wellFormed hvalue (hlist.extends haddressed.grows)
    rw [hseen]
    exact ⟨_, _, rfl, haddressed.widens hhosts (widens_of_makes hnext hcons), hcons.denotes⟩

theorem exists_push (hstack : machine.HoldsStack setting function args stack)
    (haddresses : (StackOp.push value source exprs span).Addresses setting fuel args machine) :
    ∃ values pushed ready,
      exec setting (fuel + 1) { span, action := .push source function exprs } machine =
        write setting function values (.list pushed) span ready ∧
      Addressed setting args values machine ready ∧
      ready.heap.Denotes pushed (value :: stack.getD []) := by
  obtain ⟨middle, values, next, hsource, hexprs, hsame⟩ := haddresses
  have hspan := widens_span hhosts.grounded span
  obtain ⟨hmiddle, hvalue⟩ := widens_of_observes hspan.upholds hplace.concrete
    (keeps_eval fuel source) (onlyObserves_eval fuel source) hsource
  obtain ⟨hnext, hvalues⟩ := widens_of_observes hmiddle.upholds hplace.concrete
    (keeps_evalAll fuel exprs) (onlyObserves_evalAll fuel exprs) hexprs
  rw [exec_push_eq hsource hexprs]
  obtain ⟨pushed, ready, hexec, hready, hpushed⟩ := exists_pushed hplace hhosts hstack
    ⟨(hspan.trans hmiddle).trans hnext, hvalues, hsame⟩ (hvalue.extends hnext.grows)
  exact ⟨values, pushed, ready, hexec, hready, hpushed⟩

/-! ### Popping -/

theorem exists_pop
    (haddresses : (StackOp.pop exprs span).Addresses setting fuel args machine) :
    ∃ values next,
      exec setting (fuel + 1) { span, action := .pop function exprs target } machine =
        (match machine.visibleValue setting function args with
        | .list list => do
          let machine ← get
          let first := machine.heap.peek list
          let rest ← onHeap fun heap => heap.tail list
          write setting target [] first span
          write setting function values (.list rest) span
        | .undefined => write setting target [] .undefined span
        | other => raise (.popFrom other.kind) : Run Unit) next ∧
      Addressed setting args values machine next := by
  obtain ⟨values, next, hexprs, hsame⟩ := haddresses
  have hspan := widens_span hhosts.grounded span
  obtain ⟨hnext, hvalues⟩ := widens_of_observes hspan.upholds hplace.concrete
    (keeps_evalAll fuel exprs) (onlyObserves_evalAll fuel exprs) hexprs
  have haddressed : Addressed setting args values machine next :=
    ⟨hspan.trans hnext, hvalues, hsame⟩
  refine ⟨values, next, ?_, haddressed⟩
  show (evalAll setting fuel exprs >>= _ : Run Unit) { machine with span } = _
  rw [bind_apply, hexprs]
  show (read setting fuel function values >>= _ : Run Unit) next = _
  rw [bind_apply, read_eq_visibleValue hplace.concrete hplace.stored,
    haddressed.visibleValue_eq hhosts]
  rfl

theorem exists_popped {elements : List Value}
    (hstack : machine.HoldsStack setting function args (some elements))
    (haddresses : (StackOp.pop exprs span).Addresses setting fuel args machine) :
    ∃ values rest ready,
      exec setting (fuel + 1) { span, action := .pop function exprs target } machine =
        (do
          write setting target [] (StackOp.popped (some elements)) span
          write setting function values (.list rest) span : Run Unit) ready ∧
      Addressed setting args values machine ready ∧ ready.heap.Denotes rest elements.tail := by
  obtain ⟨values, next, hexec, haddressed⟩ := exists_pop hplace hhosts haddresses
  obtain ⟨list, hsees, hlist⟩ := hstack
  have hlist := hlist.extends haddressed.grows
  have htail := makes_tail haddressed.upholds.wellFormed hlist
  rw [hexec, hplace.sees_iff.mp hsees, StackOp.popped, Option.getD_some,
    ← hlist.peek_eq]
  exact ⟨values, _, _, rfl,
    haddressed.widens hhosts (widens_of_makes haddressed.upholds htail), htail.denotes⟩

theorem exists_popped_of_none (hstack : machine.HoldsStack setting function args none)
    (haddresses : (StackOp.pop exprs span).Addresses setting fuel args machine) :
    ∃ values ready,
      exec setting (fuel + 1) { span, action := .pop function exprs target } machine =
        write setting target [] .undefined span ready ∧
      Addressed setting args values machine ready := by
  obtain ⟨values, next, hexec, haddressed⟩ := exists_pop hplace hhosts haddresses
  rw [hexec, hplace.sees_iff.mp hstack]
  exact ⟨values, next, rfl, haddressed⟩

/-! ### One statement -/

theorem acts_push (hstack : machine.HoldsStack setting function args stack)
    (haddresses : (StackOp.push value source exprs span).Addresses setting fuel args machine) :
    (StackOp.push value source exprs span).Acts setting (fuel + 1) function args target machine
      stack := by
  obtain ⟨values, pushed, ready, hexec, hready, hpushed⟩ :=
    exists_push hplace hhosts hstack haddresses
  have hsequential := (hhosts.widens hready.toWidens).sequential
  refine ⟨hstack, fun hfree => ?_, fun hcollides => ?_⟩
  · obtain ⟨next, hwrite, hwrote⟩ := write_of_not_collides hsequential
      (mt (hready.collides_iff hhosts).mp hfree) (.list pushed) span
    have hseen := hwrote.seen args (hready.sameLocation hhosts) hready.sameArgs
    refine ⟨next, hexec.trans hwrite, ?_, nofun⟩
    exact ⟨pushed, hplace.sees_iff.mpr hseen, hwrote.heap ▸ hpushed⟩
  · obtain ⟨fault, hwrite, hfault⟩ := write_of_collides hsequential
      ((hready.collides_iff hhosts).mpr hcollides) (.list pushed) span
    exact ⟨fault, ready, hexec.trans hwrite, hfault⟩

theorem acts_pop_of_none (hstack : machine.HoldsStack setting function args none)
    (haddresses : (StackOp.pop exprs span).Addresses setting fuel args machine) :
    (StackOp.pop exprs span).Acts setting (fuel + 1) function args target machine none := by
  obtain ⟨values, ready, hexec, hready⟩ := exists_popped_of_none hplace hhosts hstack haddresses
  have hsequential := (hhosts.widens hready.toWidens).sequential
  have htarget := hready.collides_nil_iff hhosts target
  refine ⟨hstack, fun hfree => ?_, fun hcollides => ?_⟩
  · obtain ⟨next, hwrite, hwrote⟩ := write_of_not_collides hsequential
      (mt (fun h => Or.inl (htarget.mp h)) hfree) .undefined span
    have hkept := hwrote.unseen function args (hplace.key_ne ready.heap setting.digest)
    rw [hready.toWidens.visibleValue_eq hhosts.grounded hhosts.supports,
      hplace.sees_iff.mp hstack] at hkept
    exact ⟨next, hexec.trans hwrite, hplace.sees_iff.mpr hkept,
      fun _ => hplace.sees_target_iff.mpr
        (hwrote.seen [] ⟨rfl, fun _ => rfl⟩ rfl)⟩
  · obtain ⟨fault, hwrite, hfault⟩ := write_of_collides hsequential
      (htarget.mpr (hcollides.resolve_right nofun)) .undefined span
    exact ⟨fault, ready, hexec.trans hwrite, hfault⟩

theorem acts_pop_of_some {elements : List Value}
    (hstack : machine.HoldsStack setting function args (some elements))
    (haddresses : (StackOp.pop exprs span).Addresses setting fuel args machine) :
    (StackOp.pop exprs span).Acts setting (fuel + 1) function args target machine
      (some elements) := by
  obtain ⟨values, rest, ready, hexec, hready, hrest⟩ :=
    exists_popped hplace hhosts hstack haddresses
  have hsequential := (hhosts.widens hready.toWidens).sequential
  have hsame := hready.sameLocation hhosts
  have htarget := hready.collides_nil_iff hhosts target
  by_cases hfirst : ready.Collides setting target []
  · -- the first write fails, and the second one is not reached
    obtain ⟨fault, hwrite, hfault⟩ := write_of_collides hsequential hfirst
      (StackOp.popped (some elements)) span
    refine ⟨hstack, fun hfree => absurd (Or.inl (htarget.mp hfirst)) hfree, fun _ =>
      ⟨fault, ready, hexec.trans ?_, hfault⟩⟩
    rw [bind_apply, hwrite]
    rfl
  obtain ⟨middle, hwrite, hwrote⟩ := write_of_not_collides hsequential hfirst
    (StackOp.popped (some elements)) span
  rw [bind_apply, hwrite] at hexec
  have hne : (function, ready.heap.argKey setting.digest values) ≠
      (target, ready.heap.argKey setting.digest []) :=
    hsame.key ▸ hplace.key_ne ready.heap setting.digest
  have hsecond : middle.Collides setting function values ↔ machine.Collides setting function args :=
    (hwrote.collides_iff function values hne).trans (hready.collides_iff hhosts)
  refine ⟨hstack, fun hfree => ?_, fun hcollides => ?_⟩
  · obtain ⟨next, hwrite', hwrote'⟩ := write_of_not_collides hwrote.sequential
      (mt (fun h => Or.inr ⟨rfl, hsecond.mp h⟩) hfree) (.list rest) span
    have hseen := hwrote'.seen args (hwrote.heap ▸ hsame) (hwrote.heap ▸ hready.sameArgs)
    have hpopped := hwrote'.unseen target [] (hwrote.heap ▸ hne.symm)
    rw [hwrote.seen [] ⟨rfl, fun _ => rfl⟩ rfl] at hpopped
    exact ⟨next, hexec.trans hwrite',
      ⟨rest, hplace.sees_iff.mpr hseen,
        (hwrote'.heap.trans hwrote.heap) ▸ hrest⟩,
      fun _ => hplace.sees_target_iff.mpr hpopped⟩
  · obtain ⟨fault, hwrite', hfault⟩ := write_of_collides hwrote.sequential
      (hsecond.mpr (hcollides.resolve_left (mt htarget.mpr hfirst)).2) (.list rest) span
    exact ⟨fault, middle, hexec.trans hwrite', hfault⟩

theorem acts_of_holdsStack (hstack : machine.HoldsStack setting function args stack)
    {op : StackOp} (haddresses : op.Addresses setting fuel args machine) :
    op.Acts setting (fuel + 1) function args target machine stack := by
  cases op with
  | push value source exprs span => exact acts_push hplace hhosts hstack haddresses
  | pop exprs span =>
    cases stack with
    | none => exact acts_pop_of_none hplace hhosts hstack haddresses
    | some elements => exact acts_pop_of_some hplace hhosts hstack haddresses

/-! ### Runs of statements -/

/-- A run over statements on the stack follows the stack, unless a key collides. -/
theorem runAll_follows_stack {ops : List StackOp}
    (hstack : machine.HoldsStack setting function args stack)
    (haddresses : ∀ before op here,
      StackOp.Reaches setting (fuel + 1) function target ops machine before op here →
        op.Addresses setting fuel args here) :
    (∃ next, StackOp.runAll setting (fuel + 1) function target ops machine = (.ok (), next) ∧
      next.HostsStack setting args ∧
      next.HoldsStack setting function args (StackOp.applyAll stack ops)) ∨
    ∃ before op here,
      StackOp.Reaches setting (fuel + 1) function target ops machine before op here ∧
      op.Collides setting function args target here (StackOp.applyAll stack before) ∧
      ∃ fault next, StackOp.runAll setting (fuel + 1) function target ops machine =
          (.error (.fault fault), next) ∧
        fault.cause = .keyCollision ∧ fault.span = op.span := by
  -- the machine and the stack move on with each statement that succeeds
  induction ops generalizing machine stack with
  | nil => exact .inl ⟨machine, rfl, hhosts, hstack⟩
  | cons op rest ih =>
    have hacts := acts_of_holdsStack hplace hhosts hstack
      (haddresses [] op machine ⟨⟨rest, rfl⟩, rfl⟩)
    by_cases hcollides : op.Collides setting function args target machine stack
    · obtain ⟨fault, next, hexec, hfault⟩ := hacts.fails hcollides
      refine .inr ⟨[], op, machine, ⟨⟨rest, rfl⟩, rfl⟩, hcollides, fault, next, ?_, hfault⟩
      rw [StackOp.runAll, List.map_cons, sequence, bind_apply, hexec]
      rfl
    · obtain ⟨middle, hexec, hmiddle, -⟩ := hacts.succeeds hcollides
      have hhosts' := hhosts.continues (continues_exec hexec hhosts.grounded)
        (layered_exec hexec).below
      have hreaches {before : List StackOp} {other : StackOp} {here : Machine}
          (h : StackOp.Reaches setting (fuel + 1) function target rest middle before other here) :
          StackOp.Reaches setting (fuel + 1) function target (op :: rest) machine (op :: before)
            other here := by
        obtain ⟨⟨after, hafter⟩, hrun⟩ := h
        exact ⟨⟨after, congrArg (op :: ·) hafter⟩, (runAll_cons hexec before).trans hrun⟩
      rcases ih hhosts' hmiddle fun before other here h =>
          haddresses (op :: before) other here (hreaches h) with
        ⟨next, hrun, hnext⟩ |
          ⟨before, other, here, hreached, hcollides', fault, next, hrun, hfault⟩
      · exact .inl ⟨next, (runAll_cons hexec rest).trans hrun, hnext⟩
      · exact .inr ⟨op :: before, other, here, hreaches hreached, hcollides', fault, next,
          (runAll_cons hexec rest).trans hrun, hfault⟩

/-- A statement that is reached finds the list that the stack has come to. -/
theorem acts_of_reaches {ops before : List StackOp} {op : StackOp} {here : Machine}
    (hstack : machine.HoldsStack setting function args stack)
    (haddresses : ∀ before op here,
      StackOp.Reaches setting (fuel + 1) function target ops machine before op here →
        op.Addresses setting fuel args here)
    (hreached : StackOp.Reaches setting (fuel + 1) function target ops machine before op here) :
    op.Acts setting (fuel + 1) function args target here (StackOp.applyAll stack before) := by
  obtain ⟨⟨after, rfl⟩, hrun⟩ := hreached
  have haddresses' : ∀ first other middle,
      StackOp.Reaches setting (fuel + 1) function target before machine first other middle →
        other.Addresses setting fuel args middle := by
    rintro first other middle ⟨⟨others, rfl⟩, hfirst⟩
    exact haddresses first other middle
      ⟨⟨others ++ op :: after, by rw [List.append_assoc, List.cons_append]⟩, hfirst⟩
  rcases runAll_follows_stack hplace hhosts hstack haddresses' with
    ⟨next, hnext, hhosts', hstack'⟩ | ⟨_, _, _, _, _, fault, next, hnext, _⟩
  · obtain rfl : next = here := (Prod.mk.inj (hnext.symm.trans hrun)).2
    exact acts_of_holdsStack hplace hhosts' hstack' (haddresses before op next ⟨⟨after, rfl⟩, hrun⟩)
  · cases hnext.symm.trans hrun

end Place

theorem exec_seq_of_sequential (hsequential : machine.pending.inParallel = false) (fuel : Nat)
    (span : Span) (body : List Stmt) :
    exec setting (fuel + 1) { span, action := .seq body } machine =
      sequence (exec setting fuel) body { machine with span } := by
  have hfork : machine.pending.forkSequential = (false, machine.pending) :=
    if_neg (by rw [hsequential]; exact Bool.false_ne_true)
  show inBlock forkSequential _ { machine with span } = _
  rw [inBlock_apply]
  dsimp only
  rw [hfork, bind_apply]
  rcases sequence (exec setting fuel) body { machine with span } with ⟨_ | _, next⟩
  · rfl
  · rfl

/-- **Pushes and pops follow a stack.** In a concrete machine whose innermost layer is sequential,
let a stored location, with arguments in which no float occurs, show a list or no value, and take a
block of statements that push onto it or pop from it into another location, and whose expressions
have values when they are reached. A statement that is reached finds the list that the stack has
come to. It succeeds unless a location that it writes has the key of another one that is pending.
Then the location shows the next list of the stack, and after a pop the other location shows what
was popped. The block does what its statements do one after the other, up to the first one that
collides. -/
theorem seq_follows_stack (setting : Setting) (function target : FunctionId) (args : List Value)
    (machine : Machine) (stack : Option (List Value)) (fuel : Nat) (span : Span)
    (ops : List StackOp) (hplace : StackPlace setting function args target)
    (hhosts : machine.HostsStack setting args)
    (hstack : machine.HoldsStack setting function args stack)
    (haddresses : ∀ before op here,
      StackOp.Reaches setting (fuel + 1) function target ops { machine with span } before op here →
        op.Addresses setting fuel args here) :
    exec setting (fuel + 2) { span, action := .seq (ops.map (StackOp.stmt function target)) }
        machine =
      StackOp.runAll setting (fuel + 1) function target ops { machine with span } ∧
    (∀ before op here,
      StackOp.Reaches setting (fuel + 1) function target ops { machine with span } before op here →
        op.Acts setting (fuel + 1) function args target here (StackOp.applyAll stack before)) ∧
    ((∃ next, StackOp.runAll setting (fuel + 1) function target ops { machine with span } =
          (.ok (), next) ∧
        next.HoldsStack setting function args (StackOp.applyAll stack ops)) ∨
      ∃ before op here,
        StackOp.Reaches setting (fuel + 1) function target ops { machine with span } before op
          here ∧
        op.Collides setting function args target here (StackOp.applyAll stack before) ∧
        ∃ fault next, StackOp.runAll setting (fuel + 1) function target ops { machine with span } =
            (.error (.fault fault), next) ∧
          fault.cause = .keyCollision ∧ fault.span = op.span) := by
  have hspan := widens_span hhosts.grounded span
  have hhosts' := hhosts.widens hspan
  have hstack' := hstack.widens hplace.concrete hplace.stored hhosts.grounded hhosts.supports hspan
  refine ⟨exec_seq_of_sequential hhosts.sequential (fuel + 1) span _, fun before op here hreached =>
    acts_of_reaches hplace hhosts' hstack' haddresses hreached, ?_⟩
  refine (runAll_follows_stack hplace hhosts' hstack' haddresses).imp_left ?_
  rintro ⟨next, hrun, -, hnext⟩
  exact ⟨next, hrun, hnext⟩

def piles : Setting where
  spec :=
    { functions :=
        #[{ name := "program", result := .rule }, { name := "pile" }, { name := "taken" }] }

/-- Two pushes onto `pile(1)`, after a pop of nothing. -/
def twoPushes : List StackOp :=
  [.pop [.int 1] {}, .push (.int 2) (.int 2) [.int 1] {}, .push (.int 3) (.int 3) [.int 1] {}]

theorem seq_follows_stack_twoPushes :
    StackPlace piles ⟨1⟩ [.int 1] ⟨2⟩ ∧ (Machine.new piles).HostsStack piles [.int 1] ∧
      (Machine.new piles).HoldsStack piles ⟨1⟩ [.int 1] none ∧
      ∃ here next,
        StackOp.runAll piles 2 ⟨1⟩ ⟨2⟩ twoPushes (Machine.new piles) = (.ok (), here) ∧
        here.HoldsStack piles ⟨1⟩ [.int 1] (some [.int 3, .int 2]) ∧
        exec piles 2 { action := .pop ⟨1⟩ [.int 1] ⟨2⟩ } here = (.ok (), next) ∧
        next.HoldsStack piles ⟨1⟩ [.int 1] (some [.int 2]) ∧
        next.Sees piles ⟨2⟩ [] (.int 3) := by
  have hplace : StackPlace piles ⟨1⟩ [.int 1] ⟨2⟩ := ⟨rfl, rfl, rfl, nofun⟩
  have hhosts : (Machine.new piles).HostsStack piles [.int 1] :=
    ⟨upholds_new piles (.plain piles.symbolic), rfl, supports_iff.mpr (by simp), by decide⟩
  have hstack : (Machine.new piles).HoldsStack piles ⟨1⟩ [.int 1] none := fun _ => rfl
  obtain ⟨here, next, hrun, hexec⟩ : ∃ here next,
      StackOp.runAll piles 2 ⟨1⟩ ⟨2⟩ twoPushes (Machine.new piles) = (.ok (), here) ∧
        exec piles 2 { action := .pop ⟨1⟩ [.int 1] ⟨2⟩ } here = (.ok (), next) := ⟨_, _, rfl, rfl⟩
  -- literals have their values in every state
  have haddresses : ∀ before op here,
      StackOp.Reaches piles 2 ⟨1⟩ ⟨2⟩ (twoPushes ++ [.pop [.int 1] {}]) (Machine.new piles) before
        op here → op.Addresses piles 1 [.int 1] here := by
    rintro before op here ⟨⟨after, hafter⟩, -⟩
    have hop : op ∈ twoPushes ++ [.pop [.int 1] {}] := by
      rw [hafter]
      exact List.mem_append_right _ List.mem_cons_self
    simp only [twoPushes, List.cons_append, List.nil_append, List.mem_cons, List.not_mem_nil,
      or_false] at hop
    rcases hop with rfl | rfl | rfl | rfl
    · exact ⟨_, _, rfl, rfl⟩
    · exact ⟨_, _, _, rfl, rfl, rfl⟩
    · exact ⟨_, _, _, rfl, rfl, rfl⟩
    · exact ⟨_, _, rfl, rfl⟩
  have hacts := (seq_follows_stack piles ⟨1⟩ ⟨2⟩ [.int 1] (Machine.new piles) none 1 {} _ hplace
    hhosts hstack haddresses).2.1 twoPushes _ here ⟨⟨[], rfl⟩, hrun⟩
  refine ⟨hplace, hhosts, hstack, here, next, hrun, hacts.holds, hexec, ?_⟩
  by_cases hcollides : (StackOp.pop [.int 1] {}).Collides piles ⟨1⟩ [.int 1] ⟨2⟩ here
      (some [.int 3, .int 2])
  · obtain ⟨fault, last, hfails, -⟩ := hacts.fails hcollides
    cases hexec.symm.trans hfails
  · obtain ⟨last, hsucceeds, hlast, hsees⟩ := hacts.succeeds hcollides
    obtain rfl : next = last := (Prod.mk.inj (hexec.symm.trans hsucceeds)).2
    exact ⟨hlast, hsees rfl⟩

end Run

end AbstractStateMachine
