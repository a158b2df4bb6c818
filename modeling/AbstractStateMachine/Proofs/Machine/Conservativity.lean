import AbstractStateMachine.Proofs.Machine.Isolation

/-!
# Symbolic mode without symbolic functions

If no function is symbolic, a machine does the same in symbolic as in concrete mode. It differs in
its recorder only, which reports the values of locations: no symbol ever comes up, so nothing is
declared, defined or assumed.
-/

namespace AbstractStateMachine

open ListHeap Standard

def TraceEntry.IsState : TraceEntry → Prop
  | .state _ _ _ _ _ => True
  | .declare _ | .condition _ _ _ _ | .definition _ _ _ _ _ => False

namespace Recorder

variable {recorder : Recorder}

structure Quiet (recorder : Recorder) : Prop where
  path : recorder.path = []
  trace : ∀ entry ∈ recorder.trace, entry.IsState

theorem Quiet.reportAt (h : recorder.Quiet) (location : TrackedLocation) (time : Timestep) :
    (recorder.reportAt location time).Quiet := by
  refine ⟨h.path, fun entry hentry => ?_⟩
  rcases Array.mem_push.mp hentry with hold | rfl
  · exact h.trace entry hold
  · trivial

theorem Quiet.foldl {α : Type} {record : Recorder → α → Recorder}
    (hrecord : ∀ recorder entry, recorder.Quiet → (record recorder entry).Quiet)
    (h : recorder.Quiet) (entries : List α) : (entries.foldl record recorder).Quiet := by
  induction entries generalizing recorder with
  | nil => exact h
  | cons entry rest ih => exact ih (hrecord recorder entry h)

theorem Quiet.update (h : recorder.Quiet) (key : LocationKey) (location : TrackedLocation) :
    (recorder.update key location).Quiet :=
  have hreport := h.reportAt location (.at recorder.timestamp)
  ⟨hreport.path, hreport.trace⟩

theorem Quiet.repeatOthers (h : recorder.Quiet) (touched : List LocationKey) :
    (recorder.repeatOthers touched).Quiet := by
  refine Quiet.foldl (fun recorder entry hrecorder => ?_) h _
  dsimp only
  split
  · exact hrecorder
  · exact hrecorder.reportAt _ _

theorem Quiet.finish (h : recorder.Quiet) : recorder.finish.Quiet :=
  Quiet.foldl (fun _ location hrecorder => hrecorder.reportAt location _) h _

end Recorder

namespace Setting

def concrete (setting : Setting) : Setting := { setting with symbolic := false }

def symbolized (setting : Setting) : Setting := { setting with symbolic := true }

def Symbolless (setting : Setting) : Prop :=
  ∀ decl ∈ setting.spec.functions, decl.symbolic = false

theorem Symbolless.function {setting : Setting} (h : setting.Symbolless) (function : FunctionId) :
    (setting.spec.function function).symbolic = false := by
  rcases setting.spec.function_mem_or_eq_default function with hmem | hdefault
  · exact h _ hmem
  · rw [hdefault]
    rfl

end Setting

theorem isSymbolic_eq_false {heap : ListHeap} {value : Value}
    (h : (strict false).Accepts heap value) : value.isSymbolic = false := by
  by_contra hvalue
  cases symbols_of_isSymbolic h (Bool.eq_true_of_not_eq_false hvalue)

/-! ### Computations -/

namespace Run

variable {α : Type} {needs : List Value} {setting : Setting}

/-- Whatever the recorder, the second computation does what the first does, and both leave the
recorder alone. -/
def Mirrors (needs : List Value) (run shadow : Run α) : Prop :=
  ∀ (machine : Machine) (recorder : Recorder), machine.Upholds (strict false) →
    (strict false).AcceptsAll machine.heap needs →
      (run machine).2.recorder = machine.recorder ∧
      shadow (machine.recordedBy recorder) = ((run machine).1, (run machine).2.recordedBy recorder)

theorem mirrors_readStored (hsetting : setting.Symbolless) (function : FunctionId)
    (args : List Value) : Mirrors needs (readStored setting.concrete function args)
      (readStored setting.symbolized function args) := by
  intro machine recorder _ _
  have hknown : (setting.symbolized.symbolic &&
      (setting.symbolized.spec.function function).symbolic) = false := hsetting.function function
  rw [readStored_of_concrete rfl, readStored_apply hknown]
  exact ⟨rfl, rfl⟩

theorem mirrors_builtin (op : Builtin) (args : List Value) :
    Mirrors args (builtin setting.concrete op args) (builtin setting.symbolized op args) := by
  intro machine recorder _ hargs
  have hsymbolic : args.any Value.isSymbolic = false :=
    List.any_eq_false.mpr fun value hvalue =>
      Bool.not_eq_true _ ▸ isSymbolic_eq_false (hargs value hvalue)
  unfold builtin
  rw [hsymbolic]
  simp only [get_bind_apply, Machine.recordedBy]
  cases Operation.builtin machine.heap machine.lease op args with
  | ok result => exact ⟨rfl, rfl⟩
  | error error => exact ⟨rfl, rfl⟩

theorem mirrors_binary (op : BinaryOp) (left right : Value) : Mirrors [left, right]
    (binary setting.concrete op left right) (binary setting.symbolized op left right) := by
  intro machine recorder _ hneeds
  unfold binary
  rw [isSymbolic_eq_false (hneeds left (by simp)), isSymbolic_eq_false (hneeds right (by simp))]
  simp only [Bool.or_self, Bool.false_eq_true, if_false, get_bind_apply, Machine.recordedBy]
  cases Operation.binary machine.heap op left right with
  | ok result => exact ⟨rfl, rfl⟩
  | error error => exact ⟨rfl, rfl⟩

theorem mirrors_negation (value : Value) : Mirrors [value] (negation value) (negation value) := by
  intro machine recorder _ hneeds
  have hvalue := isSymbolic_eq_false (hneeds value List.mem_cons_self)
  cases value with
  | symbol | verdict => cases hvalue
  | _ => exact ⟨rfl, rfl⟩

theorem mirrors_decide (value : Value) :
    Mirrors [value] (decide setting.concrete value) (decide setting.symbolized value) := by
  intro machine recorder _ hneeds
  have hvalue := isSymbolic_eq_false (hneeds value List.mem_cons_self)
  cases value with
  | symbol | verdict => cases hvalue
  | _ => exact ⟨rfl, rfl⟩

theorem mirrors_write (function : FunctionId) (args : List Value) (value : Value) (span : Span) :
    Mirrors needs (write setting.concrete function args value span)
      (write setting.symbolized function args value span) := by
  intro machine recorder _ _
  cases hadd : machine.pending.add machine.heap setting.concrete.digest function args value
      span with
  | ok pending =>
    rw [write_of_add_ok hadd, write_of_add_ok (by exact hadd)]
    exact ⟨rfl, rfl⟩
  | error fault =>
    rw [write_of_add_error hadd, write_of_add_error (by exact hadd)]
    exact ⟨rfl, rfl⟩

theorem mirrors_leave (merge : UpdateSet → ListHeap → Bool → UpdateSet × Option Fault)
    (forked : Bool) : Mirrors needs (leave merge forked) (leave merge forked) := by
  intro machine recorder _ _
  unfold leave
  simp only [get_bind_apply, Machine.recordedBy]
  rcases merge machine.pending machine.heap forked with ⟨pending, _ | fault⟩ <;> exact ⟨rfl, rfl⟩

theorem mirrors_range (low high : Value) : Mirrors needs (range low high) (range low high) := by
  intro machine recorder _ _
  unfold range
  split
  · exact ⟨rfl, rfl⟩
  · split <;> exact ⟨rfl, rfl⟩

theorem mirrors_operate {expr : Expr} (hread : ∀ function args, expr ≠ .read function args)
    (args : List Value) :
    Mirrors args ((Machine.backend setting.concrete).operate expr args)
      ((Machine.backend setting.symbolized).operate expr args) := by
  cases expr with
  | read function args => exact absurd rfl (hread function args)
  | builtin op _ => exact mirrors_builtin op args
  | binary op _ _ =>
    match args with
    | [left, right] => exact mirrors_binary op left right
    | [] | [_] | _ :: _ :: _ :: _ => exact fun _ _ _ _ => ⟨rfl, rfl⟩
  | not _ =>
    match args with
    | [value] => exact mirrors_negation value
    | [] | _ :: _ :: _ => exact fun _ _ _ _ => ⟨rfl, rfl⟩
  | range _ _ =>
    match args with
    | [low, high] => exact mirrors_range low high
    | [] | [_] | _ :: _ :: _ :: _ => exact fun _ _ _ _ => ⟨rfl, rfl⟩
  | _ => exact fun _ _ _ _ => ⟨rfl, rfl⟩

end Run

/-! ### Applying updates -/

namespace Machine

variable {setting : Setting} {machine : Machine} {recorder : Recorder}

theorem flattenValue_recordedBy (value : Value) :
    (machine.recordedBy recorder).flattenValue value =
      ((machine.flattenValue value).1, (machine.flattenValue value).2.recordedBy recorder) := by
  cases value <;> rfl

theorem flattenValues_recordedBy (values : List Value) :
    (machine.recordedBy recorder).flattenValues values =
      ((machine.flattenValues values).1, (machine.flattenValues values).2.recordedBy recorder) := by
  induction values generalizing machine with
  | nil => rfl
  | cons value rest ih =>
    rw [flattenValues, flattenValue_recordedBy]
    dsimp only
    rw [ih]
    rfl

theorem recorder_applyUpdate (update : Update) :
    (machine.applyUpdate setting.concrete update).recorder = machine.recorder :=
  recorder_flatten machine update.value update.args

theorem recorder_foldl_applyUpdate (updates : List Update) :
    (updates.foldl (applyUpdate setting.concrete) machine).recorder = machine.recorder := by
  induction updates generalizing machine with
  | nil => rfl
  | cons update rest ih => exact ih.trans (recorder_applyUpdate update)

theorem exists_applyUpdate_recordedBy (hquiet : recorder.Quiet) (update : Update) :
    ∃ later : Recorder, later.Quiet ∧
      (machine.recordedBy recorder).applyUpdate setting.symbolized update =
        (machine.applyUpdate setting.concrete update).recordedBy later := by
  unfold applyUpdate
  rw [flattenValue_recordedBy]
  dsimp only
  rw [flattenValues_recordedBy]
  by_cases hfunction : (update.function != Specification.program) = true
  · simp only [Setting.symbolized, hfunction, Bool.and_self, if_true]
    exact ⟨_, hquiet.update _ _, rfl⟩
  · simp only [Setting.symbolized, hfunction, Bool.and_false]
    exact ⟨recorder, hquiet, rfl⟩

theorem exists_foldl_applyUpdate_recordedBy (hquiet : recorder.Quiet) (updates : List Update) :
    ∃ later : Recorder, later.Quiet ∧
      updates.foldl (applyUpdate setting.symbolized) (machine.recordedBy recorder) =
        (updates.foldl (applyUpdate setting.concrete) machine).recordedBy later := by
  induction updates generalizing machine recorder with
  | nil => exact ⟨recorder, hquiet, rfl⟩
  | cons update rest ih =>
    obtain ⟨middle, hmiddle, hupdate⟩ := exists_applyUpdate_recordedBy hquiet update
    obtain ⟨later, hlater, hrest⟩ := ih hmiddle
    exact ⟨later, hlater, by rw [List.foldl_cons, List.foldl_cons, hupdate, hrest]⟩

theorem exists_applyPending_recordedBy (hquiet : recorder.Quiet) (endOfStep : Bool) :
    ∃ later : Recorder, later.Quiet ∧
      (machine.recordedBy recorder).applyPending setting.symbolized endOfStep =
        (machine.applyPending setting.concrete endOfStep).recordedBy later := by
  have hconcrete : machine.applyPending setting.concrete endOfStep = _ :=
    applyPending_of_concrete rfl machine endOfStep
  have hfold : ∀ started : Recorder, started.Quiet → ∃ later : Recorder, later.Quiet ∧
      machine.pending.updates.foldl (applyUpdate setting.symbolized)
          ((machine.summarized setting.concrete endOfStep).recordedBy started) =
        (machine.pending.updates.foldl (applyUpdate setting.concrete)
          (machine.summarized setting.concrete endOfStep)).recordedBy later :=
    fun _ hstarted => exists_foldl_applyUpdate_recordedBy hstarted machine.pending.updates
  rw [hconcrete, applyPending_eq]
  cases endOfStep with
  | false => exact hfold recorder hquiet
  | true =>
    obtain ⟨later, hlater, hfold⟩ := hfold recorder.advance ⟨hquiet.path, hquiet.trace⟩
    refine ⟨later.repeatOthers (touched machine.pending.updates), hlater.repeatOthers _, ?_⟩
    exact congrArg (fun applied : Machine => applied.recordedBy
      (applied.recorder.repeatOthers (touched machine.pending.updates))) hfold

theorem recorder_applyPending (endOfStep : Bool) :
    (machine.applyPending setting.concrete endOfStep).recorder = machine.recorder := by
  have hconcrete : machine.applyPending setting.concrete endOfStep = _ :=
    applyPending_of_concrete rfl machine endOfStep
  rw [hconcrete, recorder_foldl_applyUpdate]
  rfl

theorem reclaimLists_recordedBy (hquiet : recorder.Quiet) (hmachine : machine.recorder = {}) :
    (machine.recordedBy recorder).reclaimLists = machine.reclaimLists.recordedBy recorder := by
  have hroots : (machine.recordedBy recorder).roots = machine.roots := by
    unfold roots recordedBy
    rw [hquiet.path, hmachine]
  unfold reclaimLists
  rw [hroots]
  rfl

theorem exists_commit_recordedBy (hquiet : recorder.Quiet) (hmachine : machine.recorder = {})
    (endOfStep : Bool) : ∃ later : Recorder, later.Quiet ∧
      (backend setting.symbolized).commit endOfStep (machine.recordedBy recorder) =
        ((backend setting.concrete).commit endOfStep machine).recordedBy later := by
  obtain ⟨later, hlater, happlied⟩ : ∃ later : Recorder, later.Quiet ∧
      (machine.recordedBy recorder).applyPending setting.symbolized endOfStep =
        (machine.applyPending setting.concrete endOfStep).recordedBy later :=
    exists_applyPending_recordedBy hquiet endOfStep
  have hrecorder : (machine.applyPending setting.concrete endOfStep).recorder = {} :=
    (recorder_applyPending endOfStep).trans hmachine
  refine ⟨later, hlater, ?_⟩
  dsimp only [backend]
  rw [happlied]
  have hreclaim : ∀ ready : Machine, ready.recorder = {} →
      (ready.recordedBy later).reclaimLists = ready.reclaimLists.recordedBy later :=
    fun ready hready => reclaimLists_recordedBy hlater hready
  cases endOfStep with
  | false => exact hreclaim _ hrecorder
  | true =>
    exact hreclaim
      { machine.applyPending setting.concrete true with
        steps := (machine.applyPending setting.concrete true).steps + 1 } hrecorder

/-! ### The two modes -/

def unrecorded (machine : Machine) : Machine := machine.recordedBy {}

theorem unrecorded_recordedBy (h : machine.recorder = {}) :
    (machine.recordedBy recorder).unrecorded = machine := by
  obtain ⟨state, pending, heap, locals⟩ := machine
  cases h
  rfl

end Machine

open Machine

namespace Run

variable {α : Type} {needs : List Value} {setting : Setting}

abbrev soundness (setting : Setting) : Invariant Machine Value :=
  ((strict setting.concrete.symbolic).discipline : Discipline setting.concrete).invariant

variable {w : (soundness setting).World}

def Reports (setting : Setting) (_ : (soundness setting).World) (shadow : Machine) : Prop :=
  shadow.recorder.Quiet

theorem sound (setting : Setting) :
    CallsMaintained (soundness setting) (backend setting.concrete) Unbound where
  toMaintained := (strict setting.concrete.symbolic).discipline.maintained
  resting := keepsResting_backend setting.concrete
  ofRule _ _ := (strict false).of_isScalar trivial
  scheduled _ := Discipline.allows_scheduled
  halt _ _ h := Discipline.Governs.halt h
  abandon _ _ h := Discipline.Governs.abandonStep h
  commit _ _ endOfStep h hunbound := by
    have hcommit : Consistent setting.concrete _ :=
      Consistent.commit (upholds_of_governs h) rfl hunbound endOfStep
    exact ⟨⟨_, hcommit.wellFormed⟩, governs_iff.mpr ⟨rfl, hcommit⟩⟩

theorem Mirrors.follows {run shadow : Run α} (h : Mirrors needs run shadow)
    {post : HeapWorld → α → Prop} (hneeds : (strict false).AcceptsAll w.1 needs) :
    (soundness setting).Follows unrecorded (Reports setting) w post run shadow := by
  intro machine w' result next hholds hquiet heq _ _ _
  obtain ⟨hrecorder, hshadow⟩ := h machine.unrecorded machine.recorder (upholds_of_governs hholds)
    (hholds.suits.1 ▸ hneeds)
  rw [heq] at hrecorder hshadow
  exact ⟨next.recordedBy machine.recorder, hshadow, unrecorded_recordedBy hrecorder, hquiet⟩

theorem companion_modes (hsetting : setting.Symbolless) :
    CallCompanion (soundness setting) unrecorded (Reports setting) (backend setting.concrete)
      (backend setting.symbolized) Unbound where
  spec := rfl
  span _ := rfl
  equal _ := rfl
  text _ := rfl
  recordsNothing _ := rfl
  setSpan _ _ _ hquiet := ⟨rfl, hquiet⟩
  bindLocal _ _ _ _ hquiet := ⟨rfl, hquiet⟩
  unbindLocal _ _ hquiet := ⟨rfl, hquiet⟩
  enterFrame _ _ _ _ hquiet := ⟨rfl, hquiet⟩
  leaveFrame _ _ _ hquiet := ⟨rfl, hquiet⟩
  operates hoperates := by
    cases hoperates with
    | readStored function => exact (mirrors_readStored hsetting function _).follows acceptsAll_nil
    | operate expr hread hargs => exact (mirrors_operate hread _).follows hargs
    | decide hvalue => exact (mirrors_decide _).follows (acceptsAll_singleton.mpr hvalue)
    | @elements value =>
      refine Mirrors.follows ?_ acceptsAll_nil
      cases value <;> exact fun _ _ _ _ => ⟨rfl, rfl⟩
    | ruleOf value =>
      refine Mirrors.follows ?_ acceptsAll_nil
      cases value <;> exact fun _ _ _ _ => ⟨rfl, rfl⟩
    | print | enter => exact Mirrors.follows (fun _ _ _ _ => ⟨rfl, rfl⟩) acceptsAll_nil
    | @pushed _ current =>
      refine Mirrors.follows ?_ acceptsAll_nil
      cases current <;> exact fun _ _ _ _ => ⟨rfl, rfl⟩
    | @popped current =>
      refine Mirrors.follows ?_ acceptsAll_nil
      cases current <;> exact fun _ _ _ _ => ⟨rfl, rfl⟩
    | write function span => exact (mirrors_write function _ _ span).follows acceptsAll_nil
    | leave forked => exact (mirrors_leave UpdateSet.merge forked).follows acceptsAll_nil
    | leaveRound forked => exact (mirrors_leave UpdateSet.mergeRound forked).follows acceptsAll_nil
  ofRule _ := rfl
  halted _ := rfl
  scheduled _ value := by
    refine Mirrors.follows ?_ acceptsAll_nil
    cases value <;> exact fun _ _ _ _ => ⟨rfl, rfl⟩
  halt _ _ hquiet := ⟨rfl, hquiet.finish⟩
  abandon _ _ hquiet := ⟨rfl, hquiet⟩
  commit {w machine} endOfStep hholds hunbound hquiet := by
    obtain ⟨w', hcommit⟩ := (sound setting).commit w machine.unrecorded endOfStep hholds hunbound
    obtain ⟨later, hlater, hshadow⟩ :=
      exists_commit_recordedBy hquiet (show machine.unrecorded.recorder = {} from rfl) endOfStep
    have hrecorder : ((backend setting.concrete).commit endOfStep machine.unrecorded).recorder =
        {} := by
      cases endOfStep <;> exact recorder_applyPending _
    rw [show machine = machine.unrecorded.recordedBy machine.recorder from rfl, hshadow]
    exact ⟨unrecorded_recordedBy hrecorder, w', hcommit, hlater⟩

end Run

open Run Coupling

abbrev modes (setting : Setting) : Coupling Machine Value Machine Value :=
  (soundness setting).carried unrecorded (Reports setting)

theorem eq_of_replies {setting : Setting} {w : (modes setting).World} {reply other : Reply Value}
    (h : (modes setting).Replies w reply other) : other = reply := by
  cases reply with
  | done =>
    cases other with
    | done => rfl
    | stepped | value => cases h
  | stepped more =>
    cases other with
    | stepped => exact congrArg Reply.stepped h.symm
    | done | value => cases h
  | value value =>
    cases other with
    | value => exact congrArg Reply.value h.1
    | done | stepped => cases h

theorem eq_of_answersAlike {setting : Setting} {outcome other : Except Stop (Reply Value) × Machine}
    (h : (modes setting).AnswersAlike Unbound (modes setting).Replies outcome other) :
    other.1 = outcome.1 := by
  cases h with
  | ok _ _ hreplies => rw [eq_of_replies hreplies]
  | error stop _ _ => rfl

namespace Machine

/-- After any calls, whether they failed or not, the machine in symbolic mode is the one in concrete
mode but for its recorder, and the next call gets the same reply. -/
theorem symbolic_mode_conservative (setting : Setting) (hsetting : setting.Symbolless)
    (calls : List Call) :
    let concrete := afterCalls setting.concrete calls
    let symbolic := afterCalls setting.symbolized calls
    symbolic = concrete.recordedBy symbolic.recorder ∧
    symbolic.recorder.path = [] ∧ (∀ entry ∈ symbolic.recorder.trace, entry.IsState) ∧
    (∀ call, (Run.call setting.symbolized call symbolic).1 =
      (Run.call setting.concrete call concrete).1) ∧
    ∀ function args, symbolic.get setting.symbolized function args =
      concrete.get setting.concrete function args := by
  have hmodes := (companion_modes hsetting).callCorrespondence (sound setting)
  have hupholds := upholds_new setting.concrete (strict false)
  have hnew : (modes setting).States ⟨_, hupholds.wellFormed⟩ (.new setting.concrete)
      (.new setting.symbolized) :=
    ⟨rfl, hupholds.governs, rfl, by rintro entry ⟨⟨⟩⟩⟩
  obtain ⟨w, hstates, hunbound⟩ :=
    hmodes.afterCalls (fun call (_ : call ∈ calls) => call.of_all) hnew rfl
  rw [← afterCalls_eq, ← afterCalls_eq] at hstates
  rw [← afterCalls_eq] at hunbound
  generalize afterCalls setting.concrete calls = concrete at hstates hunbound ⊢
  generalize afterCalls setting.symbolized calls = symbolic at hstates ⊢
  have hreplies := fun call : Call => eq_of_answersAlike (hmodes.call call.of_all hstates hunbound)
  obtain ⟨rfl, -, hquiet⟩ := hstates
  refine ⟨rfl, hquiet.path, hquiet.trace, fun call => ?_, fun _ _ => rfl⟩
  rw [Run.call_eq, Run.call_eq]
  exact hreplies call

/-- In every step `main` pushes the length of `xs` onto `xs`. -/
def pushesLength : Setting where
  spec :=
    { functions :=
        #[{ name := "program", result := .rule }, { name := "xs", result := .list .int }]
      rules :=
        #[{ name := "main"
            body := some { action := .push (.builtin .len [.read ⟨1⟩ []]) ⟨1⟩ [] } }]
      start := some ⟨0⟩ }

theorem symbolic_mode_conservative_pushesLength :
    pushesLength.Symbolless ∧
    (Run.call pushesLength.symbolized (.eval 5 (.builtin .peek [.read ⟨1⟩ []]))
      (afterCalls pushesLength.symbolized [.init 5, .step 5, .run 5 3 (some 2)])).1 =
        .ok (.value (.int 2)) ∧
    (afterCalls pushesLength.symbolized [.init 5, .step 5, .run 5 3 (some 2)]).steps = 3 := by
  have hsetting : pushesLength.Symbolless := by simp [Setting.Symbolless, pushesLength]
  obtain ⟨hsame, -, -, hreplies, -⟩ := symbolic_mode_conservative pushesLength hsetting
    [.init 5, .step 5, .run 5 3 (some 2)]
  refine ⟨hsetting, (hreplies _).trans (by decide +kernel), ?_⟩
  exact (congrArg Machine.steps hsame).trans (by decide +kernel)

end Machine

end AbstractStateMachine
