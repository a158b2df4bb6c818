import AbstractStateMachine.Proofs.Machine.Consistency

/-!
# Computations that keep to a standard

`Keeps std needs run gives` says of a computation that, started in a machine that upholds the
standard and in which the values `needs` are accepted, it ends in one, only adds to the heap, leaves
the bindings as they were, and that the values `gives` of its result are accepted. So it is with
whatever expressions and statements do up to the point where lists are reclaimed.
-/

namespace AbstractStateMachine

open Standard Invariant

namespace Run

variable {setting : Setting} {std : Standard setting.symbolic} {α : Type} {needs : List Value}
  {gives : α → List Value} {machine : Machine}

structure Ends (std : Standard setting.symbolic) (machine : Machine) (gives : α → List Value)
    (outcome : Except Stop α × Machine) : Prop
    extends Machine.Continues std machine outcome.2 where
  accepted : ∀ result, outcome.1 = .ok result → std.AcceptsAll outcome.2.heap (gives result)

def Keeps (std : Standard setting.symbolic) (needs : List Value) (run : Run α)
    (gives : α → List Value) : Prop :=
  ∀ machine, machine.Upholds std → std.AcceptsAll machine.heap needs →
    Ends std machine gives (run machine)

def nothing (_ : α) : List Value := []

def single (value : Value) : List Value := [value]

theorem ends_of_governs {w : HeapWorld} {outcome : Except Stop α × Machine}
    (hgrows : machine.heap.Extends w.1) (h : std.discipline.Governs w outcome.2)
    (hbindings : outcome.2.bindings = machine.bindings)
    (hgives : ∀ result, outcome.1 = .ok result → std.AcceptsAll w.1 (gives result)) :
    Ends std machine gives outcome :=
  ⟨Machine.continues_of_governs hgrows h hbindings, by rwa [h.suits.1]⟩

theorem keeps_of_maintains {run : Run α} {post : HeapWorld → α → Prop}
    (hrun : ∀ w : HeapWorld, std.AcceptsAll w.1 needs →
      std.discipline.invariant.Maintains w post run)
    (hbindings : ∀ machine, (run machine).2.bindings = machine.bindings)
    (hgives : ∀ w result, post w result → std.AcceptsAll w.1 (gives result)) :
    Keeps std needs run gives := by
  intro machine hmachine hneeds
  obtain ⟨w, hlater, hnext, hpost⟩ := hrun ⟨_, hmachine.wellFormed⟩ hneeds machine hmachine.governs
  exact ends_of_governs hlater.grows hnext (hbindings machine) fun result hresult =>
    hgives w result (hpost result hresult)

/-! ### Expressions -/

theorem keeps_eval (fuel : Nat) (expr : Expr) : Keeps std [] (eval setting fuel expr) single := by
  refine keeps_of_maintains (fun w _ => ?_)
    (fun machine => (onlyObserves_eval fuel expr machine).toFrames.bindings)
    fun _ _ => acceptsAll_singleton.mpr
  rw [eval_eq]
  exact std.discipline.evalMaintained.eval fuel expr

theorem keeps_evalAll (fuel : Nat) (exprs : List Expr) :
    Keeps std [] (evalAll setting fuel exprs) id := by
  refine keeps_of_maintains (fun w _ => ?_)
    (fun machine => (onlyObserves_evalAll fuel exprs machine).toFrames.bindings) fun _ _ => id
  rw [evalAll_eq]
  exact std.discipline.maintained.evalAll fuel exprs

theorem keeps_read (fuel : Nat) (function : FunctionId) :
    Keeps std [] (read setting fuel function []) single := by
  refine keeps_of_maintains (fun w _ => ?_)
    (fun machine => (onlyObserves_read fuel function [] machine).toFrames.bindings)
    fun _ _ => acceptsAll_singleton.mpr
  rw [read_eq]
  exact std.discipline.maintained.read fuel function

theorem keeps_elements (fuel : Nat) (domain : Expr) :
    Keeps std [] (eval setting fuel domain >>= domainElements) id := by
  have hobserves : OnlyObserves setting (eval setting fuel domain >>= domainElements) :=
    (onlyObserves_eval fuel domain).bind onlyObserves_domainElements
  refine keeps_of_maintains (fun w _ => ?_)
    (fun machine => (hobserves machine).toFrames.bindings) fun _ _ => id
  rw [eval_eq]
  exact (std.discipline.evalMaintained.eval fuel domain).bind fun _ _ _ hvalue =>
    Discipline.allows_elements hvalue

/-! ### Statements -/

theorem keeps_of_keepsLayers {run : Run Unit} (hlayers : KeepsLayers setting run)
    (hrun : ∀ w : HeapWorld, std.AcceptsAll w.1 needs →
      std.discipline.invariant.Maintains w std.discipline.invariant.Anything run) :
    Keeps std needs run nothing :=
  keeps_of_maintains hrun (fun machine => (hlayers machine).frames.bindings) fun _ _ _ =>
    acceptsAll_nil

theorem keeps_exec (fuel : Nat) (stmt : Stmt) :
    Keeps std [] (exec setting fuel stmt) nothing := by
  refine keeps_of_keepsLayers (keepsLayers_exec fuel stmt) fun w _ => ?_
  rw [exec_eq]
  exact maintains_of_alike (std.discipline.maintained.correspondence.exec fuel w stmt trivial)
    fun _ _ _ => trivial

theorem keeps_sequence (fuel : Nat) (stmts : List Stmt) :
    Keeps std [] (sequence (exec setting fuel) stmts) nothing := by
  refine keeps_of_keepsLayers (keepsLayers_sequence (keepsLayers_exec fuel) stmts) fun w _ => ?_
  rw [exec_eq, sequence_eq]
  have hexec := std.discipline.maintained.correspondence.exec fuel
  exact maintains_of_alike (Correspondence.sequence hexec fun _ _ => trivial) fun _ _ _ => trivial

theorem keeps_forEach (fuel : Nat) (name : String) (body : Stmt) (values : List Value) :
    Keeps std values (forEach name (exec setting fuel body) values) nothing := by
  refine keeps_of_keepsLayers (keepsLayers_forEach (keepsLayers_exec fuel body) name values)
    fun w hvalues => ?_
  rw [exec_eq, forEach_eq setting]
  exact maintains_of_alike (std.discipline.maintained.correspondence.forEach
    (fun w => std.discipline.maintained.correspondence.exec fuel w body trivial) name
    (allValues_carried_iff.mpr ⟨rfl, hvalues⟩)) fun _ _ _ => trivial

theorem keeps_callRule (fuel : Nat) (rule : RuleId) :
    Keeps std [] (callRule setting (exec setting fuel) rule []) nothing := by
  refine keeps_of_keepsLayers (keepsLayers_callRule (keepsLayers_exec fuel) rule []) fun w _ => ?_
  rw [callRule_eq, exec_eq]
  exact std.discipline.maintained.callRule fuel rule

theorem keeps_scheduleStart (fuel : Nat) : Keeps std [] (scheduleStart setting fuel) nothing := by
  refine keeps_of_keepsLayers (keepsLayers_scheduleStart fuel) fun w _ => ?_
  rw [scheduleStart_eq]
  exact std.discipline.maintained.scheduleStart (fun _ _ => std.of_isScalar trivial) fuel

end Run

namespace Machine

open Run

variable {setting : Setting} {std : Standard setting.symbolic} {machine : Machine}

theorem ends_flattenValue (hmachine : machine.Upholds std) {value : Value}
    (hvalue : std.Accepts machine.heap value) :
    Ends std machine single
      (.ok (machine.flattenValue value).1, (machine.flattenValue value).2) := by
  obtain ⟨w, hlater, hnext, hflat⟩ := hmachine.governs.flattenValue hvalue
  obtain ⟨_, heq⟩ := exists_flattenValue_eq machine value
  refine ends_of_governs hlater.grows hnext (by rw [heq]; rfl) ?_
  rintro _ ⟨⟩
  exact acceptsAll_singleton.mpr hflat

theorem ends_flattenValues (hmachine : machine.Upholds std) {values : List Value}
    (hvalues : std.AcceptsAll machine.heap values) :
    Ends std machine id
      (.ok (machine.flattenValues values).1, (machine.flattenValues values).2) := by
  obtain ⟨w, hlater, hnext, hflat⟩ := hmachine.governs.flattenValues hvalues
  obtain ⟨_, heq⟩ := exists_flattenValues_eq machine values
  refine ends_of_governs hlater.grows hnext (by rw [heq]; rfl) ?_
  rintro _ ⟨⟩
  exact hflat

end Machine

end AbstractStateMachine
