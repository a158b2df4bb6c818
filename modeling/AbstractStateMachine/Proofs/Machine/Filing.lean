import AbstractStateMachine.Proofs.Backend.Evolution
import AbstractStateMachine.Proofs.Backend.Observation
import AbstractStateMachine.Proofs.Machine.Placing

/-!
# Stored locations are filed under their keys

Every location of a machine lies in the bucket of the key that its arguments have in the present list
heap, and the locations of a bucket have different arguments. A read that makes a new location keeps
this, and so does applying updates and reclaiming lists. Main statement: during any calls and after
them, successful or not, the state is a finite map on argument tuples without floats.
-/

namespace AbstractStateMachine

open ListHeap Standard Invariant

namespace Machine

variable {setting : Setting} {machine next last : Machine} {function : FunctionId}
  {args : List Value} {update : Update} {updates : List Update}

structure Filed (setting : Setting) (machine : Machine) : Prop where
  grounded : machine.Grounded setting
  pending : machine.pending.Orderly machine.heap setting.digest
  size : machine.state.tables.size = setting.spec.functions.size
  state : machine.state.Filed machine.heap setting.digest

/-- Until updates are applied, lists and locations are only added. -/
structure Advances (setting : Setting) (machine next : Machine) : Prop where
  filed : next.Filed setting
  grows : machine.heap.Extends next.heap
  gains : machine.state.Gains (setting.Symbolizes 0) next.state

/-- A property of the updates still to be applied and of what is stored that every update keeps. -/
def Placing (setting : Setting) (P : List Update → ListHeap → Interpretation → Prop) : Prop :=
  ∀ ⦃update rest⦄ ⦃machine next : Machine⦄, machine.Filed setting →
    (∀ other ∈ update :: rest, machine.Fits setting other) → Places setting update machine next →
      P (update :: rest) machine.heap machine.state → P rest next.heap next.state

theorem filed_new (setting : Setting) : (Machine.new setting).Filed setting where
  grounded := upholds_new setting _
  pending := UpdateSet.orderly_default
  size := Array.size_replicate
  state := Interpretation.filed_empty _ _ setting.spec

theorem placing_mem_bucket (function : FunctionId) (key : ArgKey) (location : StoredLocation) :
    Placing setting fun updates heap state => location ∈ state.bucket function key ∧
      ∀ update ∈ updates, ¬ update.IsFor heap function location.args := by
  rintro update rest machine next h hfits hplaces ⟨hlocation, hothers⟩
  obtain ⟨hother, hothers⟩ := List.forall_mem_cons.mp hothers
  have hargs := h.grounded.supports_args hlocation
  refine ⟨?_, fun later hlater hfor => hothers later hlater ⟨hfor.function_eq, ?_⟩⟩
  · obtain ⟨copies, stored, -, -, hsame, hstate⟩ := hplaces.stored
    rw [hstate, Interpretation.bucket_set]
    split
    · next hplace =>
        obtain ⟨rfl, rfl, -⟩ := hplace
        refine Bucket.mem_set_of_mem hlocation (Bool.eq_false_iff.mpr fun hequal => ?_)
        exact hother ⟨rfl, sameArgs_symm (hsame _ hargs hequal)⟩
    · exact hlocation
  · have hagrees := agrees_of_extends h.grounded.wellFormed hplaces.grounded.wellFormed hplaces.grows
    have hargs' := (hfits later (List.mem_cons_of_mem _ hlater)).supports_args
    rw [← hagrees.sameArgs_eq hargs' (hargs'.extends hplaces.grows) hargs
      (hargs.extends hplaces.grows)]
    exact hfor.sameArgs

section Filed

variable (h : machine.Filed setting)
include h

/-! ### Until updates are applied -/

/-- The heap may change as long as the stored arguments keep their elements. -/
theorem Filed.agrees (hagrees : machine.heap.Agrees next.heap) (hgrounded : next.Grounded setting)
    (hstate : next.state = machine.state)
    (hpending : next.pending.Orderly next.heap setting.digest) : next.Filed setting where
  grounded := hgrounded
  pending := hpending
  size := hstate ▸ h.size
  state := by
    rw [hstate]
    refine h.state.agrees hagrees fun function key location hlocation => ?_
    have hlater : location ∈ next.state.bucket function key := hstate ▸ hlocation
    exact ⟨h.grounded.supports_args hlocation, hgrounded.supports_args hlater⟩

theorem Filed.advances (hkept : machine.KeepsState setting next) :
    machine.Advances setting next where
  filed := h.agrees (agrees_of_extends h.grounded.wellFormed hkept.grounded.wellFormed hkept.grows)
    hkept.grounded hkept.state hkept.pending
  grows := hkept.grows
  gains := by
    rw [hkept.state]
    exact .refl _ _

theorem Filed.advances_symbolized (hargs : machine.heap.Supports args)
    (hsymbolic : (setting.symbolic && (setting.spec.function function).symbolic) = true)
    (hunstored : machine.state.get? machine.heap function
      (machine.heap.argKey setting.digest args) args = none) :
    machine.Advances setting (machine.symbolized setting function args) := by
  obtain ⟨hmode, hfunction⟩ := Bool.and_eq_true_iff.mp hsymbolic
  have hpath : (machine.symbolized setting function args).recorder.path = machine.recorder.path :=
    Recorder.path_create _ _
  have hsymbol : machine.heap.Supports [.symbol (machine.recorder.lastSymbol + 1)] :=
    supports_iff.mpr (by simp)
  have hgrounded : (machine.symbolized setting function args).Grounded setting :=
    (h.grounded.continues_store hpath (acceptsAll_plain_iff.mpr hargs)
      (acceptsAll_plain_iff.mpr hsymbol _ List.mem_cons_self)).upholds
  have hsize : (machine.symbolized setting function args).state.tables.size =
      setting.spec.functions.size := Array.size_setIfInBounds.trans h.size
  exact ⟨⟨hgrounded, h.pending, hsize, h.state.set rfl⟩, .refl _,
    Interpretation.gains_set hunstored ⟨hmode, hfunction, _, Nat.succ_pos _, rfl⟩⟩

/-! ### Applying updates -/

theorem Filed.of_sameHoldings (hsame : SameHoldings machine next)
    (hbindings : next.bindings = machine.bindings) : next.Filed setting where
  grounded := (hsame.continues h.grounded hbindings).upholds
  pending := by
    rw [hsame.heap, hsame.pending]
    exact h.pending
  size := hsame.state ▸ h.size
  state := by
    rw [hsame.heap, hsame.state]
    exact h.state

theorem Filed.places (hplaces : Places setting update machine next) : next.Filed setting := by
  have hagrees := agrees_of_extends h.grounded.wellFormed hplaces.grounded.wellFormed hplaces.grows
  obtain ⟨args, value, hkey, -, -, hstate⟩ := hplaces.stored
  have hheld := acceptsAll_plain_iff.mp h.grounded.pending
  refine ⟨hplaces.grounded, ?_, ?_, ?_⟩
  · rw [hplaces.pending]
    exact h.pending.agrees hagrees hheld (hheld.extends hplaces.grows)
  · rw [hstate, ← h.size]
    exact Array.size_setIfInBounds
  · rw [hstate]
    refine (h.state.agrees hagrees fun function key location hlocation => ?_).set hkey
    have hargs := h.grounded.supports_args hlocation
    exact ⟨hargs, hargs.extends hplaces.grows⟩

theorem Filed.foldl_applyUpdate {P : List Update → ListHeap → Interpretation → Prop}
    (hstep : Placing setting P) (hP : P updates machine.heap machine.state)
    (hfits : ∀ update ∈ updates, machine.Fits setting update) :
    let last := updates.foldl (applyUpdate setting) machine
    last.Filed setting ∧ P [] last.heap last.state := by
  induction updates generalizing machine with
  | nil => exact ⟨h, hP⟩
  | cons update rest ih =>
    obtain ⟨hfirst, hothers⟩ := List.forall_mem_cons.mp hfits
    have hplaces := places_applyUpdate h.grounded hfirst
    refine ih (h.places hplaces) (hstep h hfits hplaces hP) fun other hother => ?_
    exact (hothers other hother).extends h.grounded hplaces.grounded hplaces.grows

theorem Filed.emptied : Filed setting { machine with pending := {} } where
  grounded := { h.grounded with pending := acceptsAll_nil }
  pending := UpdateSet.orderly_default
  size := h.size
  state := h.state

theorem Filed.fits_of_mem_updates {start : Machine}
    (hstart : SameHoldings { machine with pending := {} } start) :
    ∀ update ∈ machine.pending.updates, start.Fits setting update := by
  intro update hupdate
  have hfits := Machine.fits_of_mem_updates h.grounded h.pending hupdate
  refine ⟨?_, ?_⟩ <;> rw [hstart.heap]
  · exact hfits.supports
  · exact hfits.key

theorem Filed.applyPending {P : List Update → ListHeap → Interpretation → Prop}
    (hstep : Placing setting P) (hP : P machine.pending.updates machine.heap machine.state)
    (endOfStep : Bool) :
    let applied := machine.applyPending setting endOfStep
    applied.Filed setting ∧ P [] applied.heap applied.state := by
  obtain ⟨start, hend, hbindings', hstart, hbindings⟩ :=
    exists_foldl_applyPending setting machine endOfStep
  have hfiled : start.Filed setting := h.emptied.of_sameHoldings hstart hbindings
  rw [← show start.heap = machine.heap from hstart.heap,
    ← show start.state = machine.state from hstart.state] at hP
  obtain ⟨hlast, hP⟩ := hfiled.foldl_applyUpdate hstep hP (h.fits_of_mem_updates hstart)
  dsimp only
  rw [hend.heap, hend.state]
  exact ⟨hlast.of_sameHoldings hend hbindings', hP⟩

theorem Filed.agrees_reclaimLists (hpending : machine.pending = {}) (hlocals : machine.locals = []) :
    machine.heap.Agrees machine.reclaimLists.heap where
  before := h.grounded.wellFormed
  after := (grounded_reclaimLists h.grounded hpending hlocals).wellFormed
  toList_eq list _ hlive := (retains_reclaimLists h.grounded).toList_eq list hlive

theorem Filed.reclaimLists (hpending : machine.pending = {}) (hlocals : machine.locals = []) :
    machine.reclaimLists.Filed setting := by
  refine h.agrees (h.agrees_reclaimLists hpending hlocals)
    (grounded_reclaimLists h.grounded hpending hlocals) rfl ?_
  show machine.pending.Orderly _ _
  rw [hpending]
  exact UpdateSet.orderly_default

theorem Filed.exists_ready {P : List Update → ListHeap → Interpretation → Prop}
    (hstep : Placing setting P) (hP : P machine.pending.updates machine.heap machine.state)
    (hunbound : machine.Unbound) (endOfStep : Bool) :
    ∃ ready : Machine, (backend setting).commit endOfStep machine = ready.reclaimLists ∧
      machine.heap.Extends ready.heap ∧ machine.heap.WithinEpoch ready.heap ∧
      P [] ready.heap ready.state ∧ ready.Filed setting ∧ ready.pending = {} ∧
      ready.locals = [] := by
  obtain ⟨happlied, hP⟩ := h.applyPending hstep hP endOfStep
  have hgrows := (continues_applyPending h.grounded endOfStep).grows
  have hwithin := withinEpoch_applyPending h.grounded endOfStep
  have hpending : (machine.applyPending setting endOfStep).pending = {} :=
    pending_applyPending endOfStep
  have hlocals := (locals_applyPending setting machine endOfStep).trans hunbound
  cases endOfStep with
  | false => exact ⟨_, rfl, hgrows, hwithin, hP, happlied, hpending, hlocals⟩
  | true =>
    have hcounted : SameHoldings (machine.applyPending setting true)
        { machine.applyPending setting true with
          steps := (machine.applyPending setting true).steps + 1 } := ⟨rfl, rfl, rfl, rfl⟩
    exact ⟨_, rfl, hgrows, hwithin, hP, happlied.of_sameHoldings hcounted rfl, hpending, hlocals⟩

theorem Filed.commit (hunbound : machine.Unbound) (endOfStep : Bool) :
    let next := (backend setting).commit endOfStep machine
    next.Filed setting ∧ machine.heap.Agrees next.heap := by
  obtain ⟨ready, hcommit, hgrows, -, -, hready, hpending, hlocals⟩ :=
    h.exists_ready (P := fun _ _ _ => True) (fun _ _ _ _ _ _ _ => id) trivial hunbound endOfStep
  have hagrees := hready.agrees_reclaimLists hpending hlocals
  dsimp only
  rw [hcommit]
  refine ⟨hready.reclaimLists hpending hlocals, h.grounded.wellFormed, hagrees.after, ?_⟩
  intro list hlive hkept
  rw [hagrees.toList_eq list (hgrows.live hlive) hkept]
  exact toList_of_extends h.grounded.wellFormed hgrows hlive

theorem Filed.mem_bucket_commit {key : ArgKey} {location : StoredLocation}
    (hlocation : location ∈ machine.state.bucket function key)
    (hothers : ∀ update ∈ machine.pending.updates,
      ¬ update.IsFor machine.heap function location.args)
    (hunbound : machine.Unbound) (endOfStep : Bool) :
    location ∈ ((backend setting).commit endOfStep machine).state.bucket function key := by
  obtain ⟨ready, hcommit, -, -, ⟨hmem, -⟩, -⟩ := h.exists_ready
    (placing_mem_bucket function key location) ⟨hlocation, hothers⟩ hunbound endOfStep
  rw [hcommit]
  exact hmem

theorem Filed.halt : (machine.halt setting).Filed setting :=
  ⟨(continues_halt h.grounded).upholds, h.pending, h.size, h.state⟩

end Filed

/-! ### Calls -/

theorem evolution_advances (setting : Setting) :
    Evolution setting (Filed setting) (Advances setting) where
  grounded := Filed.grounded
  orderly := Filed.pending
  holds := Advances.filed
  trans h h' := ⟨h'.filed, h.grows.trans h'.grows, h.gains.trans h'.gains fun _ _ => id⟩
  kept h := h.advances
  symbolized h := h.advances_symbolized

theorem callsMaintained_filed (setting : Setting) (base : Machine) :
    CallsMaintained (Run.evolving (fun _ next => next.Filed setting) base) (backend setting)
      Unbound where
  toMaintained := (evolution_advances setting).lasting.maintained base
  resting := keepsResting_backend setting
  ofRule _ _ := supports_iff.mpr (by simp [backend])
  scheduled _ := (evolution_advances setting).lasting.maintains_scheduled
  halt _ _ h := ⟨h.1, h.2.halt⟩
  abandon _ _ h := ⟨h.1, (evolution_advances setting).lasting.leads_abandonStep h.2⟩
  commit _ _ endOfStep h hunbound := by
    obtain ⟨hfiled, -⟩ := h.2.commit hunbound endOfStep
    exact ⟨⟨_, hfiled.grounded.wellFormed⟩, rfl, hfiled⟩

end Machine

/-! ### What is stored -/

namespace Run

open Machine

variable {setting : Setting} {α : Type}

/-- The world is what is stored, with the heap that it is looked up in. -/
def tabling (setting : Setting) : Invariant Machine Value where
  World := HeapWorld × Interpretation
  Later w w' := w.1.Later w'.1 ∧ w.2.Gains (setting.Symbolizes 0) w'.2
  Holds w machine :=
    (evolving (fun _ next => next.Filed setting) (.new setting)).Holds w.1 machine ∧
      machine.state = w.2
  Covers w value := w.1.1.Supports [value]
  later_refl w := ⟨w.1.later_refl, .refl _ _⟩
  later_trans h h' := ⟨HeapWorld.later_trans h.1 h'.1, h.2.trans h'.2 fun _ _ => id⟩
  covers_later hlater hvalue := hvalue.extends hlater.1.grows

theorem tables_of {w : HeapWorld × Interpretation} {run : Run α}
    {post : Machine → HeapWorld → α → Prop} {post' : HeapWorld × Interpretation → α → Prop}
    (h : ∀ base, (evolving (Advances setting) base).Maintains w.1 (post base) run)
    (hpost : ∀ base (w : HeapWorld × Interpretation) result,
      post base w.1 result → post' w result) :
    (tabling setting).Maintains w post' run := by
  rintro machine ⟨⟨hheap, hfiled⟩, hstate⟩
  obtain ⟨w', hlater, ⟨hheap', hadvances⟩, hresult⟩ :=
    h machine machine ⟨hheap, (evolution_advances setting).refl hfiled⟩
  exact ⟨(w', (run machine).2.state), ⟨hlater, hstate ▸ hadvances.gains⟩,
    ⟨⟨hheap', hadvances.filed⟩, rfl⟩, fun result hok =>
      hpost machine _ result (hresult result hok)⟩

theorem maintained_advances (setting : Setting) (base : Machine) :
    Maintained (evolving (Advances setting) base) (backend setting) :=
  (evolution_advances setting).maintained base

theorem maintained_tabling (setting : Setting) :
    Maintained (tabling setting) (backend setting) where
  enterFrame w s params args h hargs :=
    ⟨(callsMaintained_filed setting _).enterFrame w.1 s params args h.1 hargs, h.2⟩
  leaveFrame w w' caller s hcaller h :=
    ⟨(callsMaintained_filed setting _).leaveFrame w.1 w'.1 caller s hcaller.1 h.1, h.2⟩
  readStored w function args hargs := tables_of
    (fun base => (maintained_advances setting base).readStored w.1 function args hargs)
    fun _ _ _ => id
  operate w expr args hread hargs := tables_of
    (fun base => (maintained_advances setting base).operate w.1 expr args hread hargs)
    fun _ _ _ => id
  setSpan w s span h := ⟨(callsMaintained_filed setting _).setSpan w.1 s span h.1, h.2⟩
  bindLocal w s name value h hvalue :=
    ⟨(callsMaintained_filed setting _).bindLocal w.1 s name value h.1 hvalue, h.2⟩
  unbindLocal w s h := ⟨(callsMaintained_filed setting _).unbindLocal w.1 s h.1, h.2⟩
  decide w value hvalue := tables_of
    (fun base => (maintained_advances setting base).decide w.1 value hvalue) fun _ _ _ => id
  elements w value hvalue := tables_of
    (fun base => (maintained_advances setting base).elements w.1 value hvalue) fun _ _ _ => id
  ruleOf w value := tables_of
    (fun base => (maintained_advances setting base).ruleOf w.1 value) fun _ _ _ => id
  print w values := tables_of
    (fun base => (maintained_advances setting base).print w.1 values) fun _ _ _ => id
  pushed w value current hvalue hcurrent := tables_of
    (fun base => (maintained_advances setting base).pushed w.1 value current hvalue hcurrent)
    fun _ _ _ => id
  popped w current hcurrent := tables_of
    (fun base => (maintained_advances setting base).popped w.1 current hcurrent) fun _ _ _ => id
  write w function args value span hargs hvalue := tables_of
    (fun base => (maintained_advances setting base).write w.1 function args value span hargs hvalue)
    fun _ _ _ => id
  enter w parallel := tables_of
    (fun base => (maintained_advances setting base).enter w.1 parallel) fun _ _ _ => id
  leave w forked := tables_of
    (fun base => (maintained_advances setting base).leave w.1 forked) fun _ _ _ => id
  leaveRound w forked := tables_of
    (fun base => (maintained_advances setting base).leaveRound w.1 forked) fun _ _ _ => id

theorem tables_commit {w : HeapWorld × Interpretation} {machine : Machine}
    (h : (tabling setting).Holds w machine) (hunbound : machine.Unbound) (endOfStep : Bool) :
    ∃ w' : HeapWorld × Interpretation,
      w'.1.1 = ((backend setting).commit endOfStep machine).heap ∧
      w'.2 = ((backend setting).commit endOfStep machine).state ∧
      (tabling setting).Holds w' ((backend setting).commit endOfStep machine) := by
  obtain ⟨hfiled, -⟩ := h.1.2.commit hunbound endOfStep
  exact ⟨(⟨_, hfiled.grounded.wellFormed⟩, _), rfl, rfl, ⟨rfl, hfiled⟩, rfl⟩

theorem callsMaintained_tabling (setting : Setting) :
    CallsMaintained (tabling setting) (backend setting) Unbound where
  toMaintained := maintained_tabling setting
  resting := keepsResting_backend setting
  ofRule w := (callsMaintained_filed setting (.new setting)).ofRule w.1
  scheduled _ value := tables_of
    (fun _ => (evolution_advances setting).maintains_scheduled value) fun _ _ _ => id
  halt w s h := ⟨(callsMaintained_filed setting _).halt w.1 s h.1, h.2⟩
  abandon w s h := ⟨(callsMaintained_filed setting _).abandon w.1 s h.1, h.2⟩
  commit _ _ endOfStep h hunbound := by
    obtain ⟨w', -, -, hw'⟩ := tables_commit h hunbound endOfStep
    exact ⟨w', hw'⟩

end Run

def Event.Spares (function : FunctionId) (args : List Value) : Event → Prop
  | .applied machine =>
    ∀ update ∈ machine.pending.updates, ¬ update.IsFor machine.heap function args
  | .read _ _ _ _ | .gave _ _ => True

instance (function : FunctionId) (args : List Value) :
    (event : Event) → Decidable (event.Spares function args)
  | .applied machine => inferInstanceAs (Decidable (∀ update ∈ machine.pending.updates, _))
  | .read _ _ _ _ | .gave _ _ => .isTrue trivial

namespace Machine

theorem filed_afterCalls (setting : Setting) (calls : List Call) :
    (afterCalls setting calls).Filed setting := by
  have hnew := filed_new setting
  have hholds : (Run.evolving (fun _ next => next.Filed setting) (.new setting)).Holds
      ⟨_, hnew.grounded.wellFormed⟩ (.new setting) := ⟨rfl, hnew⟩
  obtain ⟨_, -, hfiled⟩ := (callsMaintained_filed setting _).afterCalls calls hholds rfl
  rw [afterCalls_eq]
  exact hfiled

theorem logInvariant_filed (setting : Setting) :
    LogInvariant setting (Run.evolving (fun _ next => next.Filed setting) (.new setting))
      fun log _ => ∀ event ∈ log, event.machine.Filed setting where
  maintained := callsMaintained_filed setting _
  later _ h := h
  read hmachine _ h _ _ _ _ := List.forall_mem_cons.mpr ⟨hmachine.2, h⟩
  gave hmachine _ h := List.forall_mem_cons.mpr ⟨hmachine.2, h⟩
  commit endOfStep hmachine hunbound h := by
    obtain ⟨hfiled, -⟩ := hmachine.2.commit hunbound endOfStep
    exact ⟨⟨_, hfiled.grounded.wellFormed⟩, ⟨rfl, hfiled⟩,
      List.forall_mem_cons.mpr ⟨hmachine.2, h⟩⟩

/-- **States are finite maps on argument values.** After any calls, successful or not, and whenever
something is read, computed or applied on the way, there is one table for each function, every
location lies in the bucket of its key in the present heap, no two locations of a function have equal
arguments without floats, and storing a value changes what is found for equal arguments and for no
others, whatever keys are shared. -/
theorem isFiniteMap_afterCalls (setting : Setting) (calls : List Call) :
    let watch := Watch.afterCalls setting calls
    watch.machine = afterCalls setting calls ∧
      ∀ machine ∈ watch.machine :: watch.log.map Event.machine,
        machine.state.tables.size = setting.spec.functions.size ∧
          machine.state.IsFiniteMap machine.heap setting.digest := by
  intro watch
  have hnew := filed_new setting
  have hholds : (Run.evolving (fun _ next => next.Filed setting) (.new setting)).Holds
      ⟨_, hnew.grounded.wellFormed⟩ (.new setting) := ⟨rfl, hnew⟩
  obtain ⟨hmachine, _, hlast, hlog⟩ := (logInvariant_filed setting).afterCalls hholds (by simp) calls
  have hall : ∀ machine ∈ watch.machine :: watch.log.map Event.machine, machine.Filed setting :=
    List.forall_mem_cons.mpr ⟨hlast.2, List.forall_mem_map.mpr hlog⟩
  exact ⟨hmachine, fun machine hmem =>
    ⟨(hall machine hmem).size, (hall machine hmem).state.isFiniteMap⟩⟩

def sharedBucket : Setting where
  spec :=
    { functions := #[{ name := "program", result := .rule },
        { name := "s", args := [.str], symbolic := true }] }
  symbolic := true
  digest := fun _ => .word 0

/-- Two locations that are read lie in one bucket. -/
theorem isFiniteMap_afterCalls_sharedBucket :
    let calls : List Call := [.eval 5 (.list [.read ⟨1⟩ [.str "a"], .read ⟨1⟩ [.str "b"]])]
    let machine := (Watch.afterCalls sharedBucket calls).machine
    machine ∈ machine :: (Watch.afterCalls sharedBucket calls).log.map Event.machine ∧
      machine.state.bucket ⟨1⟩ [.word 0] = [⟨[.str "a"], .symbol 1⟩, ⟨[.str "b"], .symbol 2⟩] ∧
      machine.state.tables.size = 2 ∧
      machine.state.IsFiniteMap machine.heap sharedBucket.digest := by
  intro calls machine
  have hfinite := (isFiniteMap_afterCalls sharedBucket calls).2 machine List.mem_cons_self
  exact ⟨List.mem_cons_self, by decide +kernel, hfinite⟩

end Machine

end AbstractStateMachine
