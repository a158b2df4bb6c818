import AbstractStateMachine.Proofs.Machine.Recording
import AbstractStateMachine.Proofs.Symbolic.Entailment

/-!
# What justifies the arm of a case

A branch on a symbol is decided by the path, or the path is extended by what is assumed. A case
compares its value with the labels instead, by equality of values, in which a symbol differs from
every number and from every other symbol, and the path stays as it is. A label that is hit is always
right. `case_justified_iff` says that a symbol or a label of unknown value is passed over rightly
only if the path has settled already that the two differ.
-/

namespace AbstractStateMachine

/-! ### Integers and integer symbols -/

namespace Value

def IsInteger : Value → Prop
  | .int _ | .symbol _ | .verdict _ _ _ _ => True
  | _ => False

theorem exists_meaning {value : Value} (h : value.IsInteger) (assignment : Assignment) :
    ∃ n, value.meaning assignment = some n := by
  cases value <;> first | exact ⟨_, rfl⟩ | cases h

end Value

variable {heap : ListHeap} {value label : Value}

theorem meaning_eq_of_equal (hvalue : value.IsInteger) (hequal : heap.equal value label = true)
    (assignment : Assignment) : label.meaning assignment = value.meaning assignment := by
  have hsymbol : ∀ id, value.symbolId? = some id →
      label.meaning assignment = value.meaning assignment := by
    intro id hid
    have hlabel := (ListHeap.equalWithin_iff_of_symbolId? hid).mp hequal
    rw [Value.meaning_of_symbolId? hid, Value.meaning_of_symbolId? hlabel.symm]
  cases value with
  | int n =>
    have hlabel := (ListHeap.equalWithin_iff_eq (by trivial)).mp hequal
    rw [hlabel]
  | symbol id => exact hsymbol id rfl
  | verdict id => exact hsymbol id rfl
  | _ => cases hvalue

theorem meaning_ne_of_not_equal (hvalue : value.IsInteger) (hlabel : label.IsInteger)
    (hknown : ¬ (value.isSymbolic || label.isSymbolic) = true)
    (hequal : ¬ heap.equal value label = true) (assignment : Assignment) :
    label.meaning assignment ≠ value.meaning assignment := by
  cases value with
  | int n =>
    cases label with
    | int m =>
      intro hmeaning
      have hm : m = n := Int64.toInt_inj.mp (Option.some.inj hmeaning)
      refine hequal ((ListHeap.equalWithin_iff_eq (by trivial)).mpr ?_)
      rw [hm]
    | symbol | verdict => exact absurd rfl hknown
    | _ => cases hlabel
  | symbol | verdict => exact absurd rfl hknown
  | _ => cases hvalue

/-! ### Selecting an arm -/

/-- How an arm is selected: the labels passed over, in order, and the label hit, if there is one. -/
structure Selection where
  passed : List Value
  hit : Option Value
  body : Option Stmt

namespace Selection

/-- Under every assignment that satisfies the path, the value is that of the label that was hit and
differs from those of the labels before it. -/
def Justified (path : List Condition) (value : Value) (selection : Selection) : Prop :=
  ∀ assignment, (∀ cond ∈ path, cond.Holds assignment) →
    (∀ label ∈ selection.hit, label.meaning assignment = value.meaning assignment) ∧
    ∀ label ∈ selection.passed, label.meaning assignment ≠ value.meaning assignment

structure ByEquality (value : Value) (selection : Selection) : Prop where
  hit : ∀ label ∈ selection.hit, ∃ heap : ListHeap, heap.equal value label = true
  passed : ∀ label ∈ selection.passed, ∃ heap : ListHeap, ¬ heap.equal value label = true

end Selection

namespace Run

variable {evalLabel : Expr → Run Value} {default : Option Stmt} {machine next : Machine}

/-- Selects an arm and tells how. -/
def choose (evalLabel : Expr → Run Value) (value : Value) (default : Option Stmt) :
    List (Expr × Stmt) → Run Selection
  | [] => pure ⟨[], none, default⟩
  | (label, body) :: rest => do
    let label ← evalLabel label
    let machine ← get
    if machine.heap.equal value label then pure ⟨[], some label, some body⟩
    else
      let selection ← choose evalLabel value default rest
      pure { selection with passed := label :: selection.passed }

theorem selectArm_eq_choose (evalLabel : Expr → Run Value) (value : Value)
    (default : Option Stmt) (arms : List (Expr × Stmt)) :
    selectArm evalLabel value default arms =
      (do
        let selection ← choose evalLabel value default arms
        pure selection.body) := by
  induction arms with
  | nil => rfl
  | cons arm rest ih =>
    rw [selectArm, choose, bind_assoc]
    refine bind_congr fun label => ?_
    rw [bind_assoc]
    refine bind_congr fun machine => ?_
    split
    · rfl
    · rw [ih, bind_assoc]
      rfl

/-- The arm selected is the one after those whose labels were passed over. -/
theorem byEquality_choose {arms : List (Expr × Stmt)} {selection : Selection}
    (h : choose evalLabel value default arms machine = (.ok selection, next)) :
    selection.ByEquality value ∧
      selection.body = if selection.hit.isSome then (arms[selection.passed.length]?).map (·.2)
        else default := by
  induction arms generalizing machine selection with
  | nil =>
    cases h
    exact ⟨⟨nofun, nofun⟩, rfl⟩
  | cons arm rest ih =>
    obtain ⟨label, middle, -, hrest⟩ := exists_of_bind_eq_ok h
    rw [get_bind_apply] at hrest
    split at hrest
    · next hequal =>
        cases hrest
        refine ⟨⟨?_, nofun⟩, rfl⟩
        rintro _ ⟨⟩
        exact ⟨_, hequal⟩
    · next hequal =>
        obtain ⟨selected, last, hchoose, hselection⟩ := exists_of_bind_eq_ok hrest
        cases hselection
        obtain ⟨hby, hbody⟩ := ih hchoose
        exact ⟨⟨hby.hit, List.forall_mem_cons.mpr ⟨⟨middle.heap, hequal⟩, hby.passed⟩⟩, hbody⟩

theorem path_choose (hlabel : ∀ label machine,
      (evalLabel label machine).2.recorder.path = machine.recorder.path)
    {arms : List (Expr × Stmt)} {selection : Selection}
    (h : choose evalLabel value default arms machine = (.ok selection, next)) :
    next.recorder.path = machine.recorder.path := by
  induction arms generalizing machine selection with
  | nil =>
    cases h
    rfl
  | cons arm rest ih =>
    obtain ⟨label, middle, heval, hrest⟩ := exists_of_bind_eq_ok h
    have hmiddle := hlabel arm.1 machine
    rw [heval] at hmiddle
    rw [get_bind_apply] at hrest
    split at hrest
    · cases hrest
      exact hmiddle
    · obtain ⟨selected, last, hchoose, hselection⟩ := exists_of_bind_eq_ok hrest
      cases hselection
      exact (ih hchoose).trans hmiddle

end Run

theorem Selection.ByEquality.justified_iff {selection : Selection} (h : selection.ByEquality value)
    (hvalue : value.IsInteger) (hpassed : ∀ label ∈ selection.passed, label.IsInteger)
    (path : List Condition) :
    selection.Justified path value ↔ ∀ label ∈ selection.passed,
      (value.isSymbolic || label.isSymbolic) = true → Condition.Entails path ⟨value, .ne, label⟩ := by
  have hholds : ∀ label ∈ selection.passed, ∀ assignment,
      Condition.Holds assignment ⟨value, .ne, label⟩ ↔
        label.meaning assignment ≠ value.meaning assignment := by
    intro label hlabel assignment
    obtain ⟨x, hx⟩ := Value.exists_meaning hvalue assignment
    obtain ⟨y, hy⟩ := Value.exists_meaning (hpassed label hlabel) assignment
    rw [Condition.holds_iff_of_meaning hx hy, hx, hy]
    exact ⟨fun hne heq => hne (Option.some.inj heq).symm, fun hne heq => hne (congrArg some heq.symm)⟩
  constructor
  · intro hjustified label hlabel _ assignment hpath
    exact (hholds label hlabel assignment).mpr ((hjustified assignment hpath).2 label hlabel)
  · intro hentails assignment hpath
    refine ⟨fun label hlabel => ?_, fun label hlabel => ?_⟩
    · obtain ⟨heap, hequal⟩ := h.hit label hlabel
      exact meaning_eq_of_equal hvalue hequal assignment
    · by_cases hsymbolic : (value.isSymbolic || label.isSymbolic) = true
      · exact (hholds label hlabel assignment).mp (hentails label hlabel hsymbolic assignment hpath)
      · obtain ⟨heap, hequal⟩ := h.passed label hlabel
        exact meaning_ne_of_not_equal hvalue (hpassed label hlabel) hsymbolic hequal assignment

namespace Run

/-- **A case is justified by the path exactly if the path had settled it before.** Executing a case
whose value and labels are integers runs the arm after those that were passed over, or the default
if no label was hit, and leaves the path as it was. The selection is justified by the path exactly
if the path entails, for each label passed over, that it differs from the value, unless both are
known numbers. -/
theorem case_justified_iff (setting : Setting) (fuel : Nat) (run : Stmt → Run Unit) (span : Span)
    (scrutinee : Expr) (arms : List (Expr × Stmt)) (default : Option Stmt) (value : Value)
    (selection : Selection) (machine middle next : Machine)
    (hvalue : eval setting fuel scrutinee machine = (.ok value, middle))
    (hchoose : choose (eval setting fuel) value default arms middle = (.ok selection, next))
    (hinteger : value.IsInteger) (hlabels : ∀ label ∈ selection.passed, label.IsInteger) :
    execAction setting fuel run span (.cases scrutinee arms default) machine =
      optionally run selection.body next ∧
    (selection.body = if selection.hit.isSome then (arms[selection.passed.length]?).map (·.2)
      else default) ∧
    next.recorder.path = machine.recorder.path ∧
    (selection.Justified next.recorder.path value ↔ ∀ label ∈ selection.passed,
      (value.isSymbolic || label.isSymbolic) = true →
        Condition.Entails machine.recorder.path ⟨value, .ne, label⟩) := by
  obtain ⟨hequality, hbody⟩ := byEquality_choose hchoose
  have hmiddle := path_eval setting fuel scrutinee machine
  rw [hvalue] at hmiddle
  have hpath : next.recorder.path = machine.recorder.path :=
    (path_choose (fun label machine => path_eval setting fuel label machine) hchoose).trans hmiddle
  refine ⟨?_, hbody, hpath, ?_⟩
  · rw [execAction, bind_apply, hvalue]
    show (selectArm (eval setting fuel) value default arms >>= optionally run) middle = _
    rw [selectArm_eq_choose, bind_assoc, bind_apply, hchoose]
    rfl
  · rw [hpath]
    exact hequality.justified_iff hinteger hlabels machine.recorder.path

/-! ### An unknown value -/

def unknownScrutinee : Setting where
  spec :=
    { functions :=
        #[{ name := "program", result := .rule }, { name := "s", symbolic := true }, { name := "x" }] }
  symbolic := true

def armForFive : List (Expr × Stmt) := [(.int 5, { action := .update ⟨2⟩ [] (.int 1) })]

/-- Asserts `s != 5`. -/
def assertNotFive : Stmt := { action := .assert (.binary .ne (.read ⟨1⟩ []) (.int 5)) }

/-- After `s != 5` has been assumed, `case s of 5: ...` rightly takes the default. -/
theorem case_justified_of_assumption :
    let machine := (exec unknownScrutinee 3 assertNotFive (.new unknownScrutinee)).2
    let middle := (eval unknownScrutinee 3 (.read ⟨1⟩ []) machine).2
    ∃ selection next,
      choose (eval unknownScrutinee 3) (.symbol 1) none armForFive middle =
        (.ok selection, next) ∧
      selection.passed = [.int 5] ∧ selection.Justified next.recorder.path (.symbol 1) := by
  intro machine middle
  have hvalue : eval unknownScrutinee 3 (.read ⟨1⟩ []) machine = (.ok (.symbol 1), middle) :=
    Prod.ext (by decide +kernel) rfl
  have hchoose : choose (eval unknownScrutinee 3) (.symbol 1) none armForFive middle =
      (.ok ⟨[.int 5], none, none⟩,
        (choose (eval unknownScrutinee 3) (.symbol 1) none armForFive middle).2) :=
    Prod.ext rfl rfl
  have hpath : machine.recorder.path = [⟨.symbol 1, .ne, .int 5⟩] := by decide +kernel
  obtain ⟨-, -, -, hjustified⟩ := case_justified_iff unknownScrutinee 3
    (exec unknownScrutinee 3) {} (.read ⟨1⟩ []) armForFive none (.symbol 1) _ machine middle _
    hvalue hchoose trivial (by simp [Value.IsInteger])
  refine ⟨_, _, hchoose, rfl, hjustified.mpr fun label hlabel _ assignment hholds => ?_⟩
  rw [List.mem_singleton.mp hlabel]
  exact hholds _ (hpath ▸ List.mem_cons_self)

/-- Nothing is known about `s`. The case takes the default, and the path does not say that `s` is
not `5`. -/
theorem case_on_symbol_not_justified :
    let middle := (eval unknownScrutinee 3 (.read ⟨1⟩ []) (.new unknownScrutinee)).2
    (eval unknownScrutinee 3 (.read ⟨1⟩ []) (.new unknownScrutinee)).1 = .ok (.symbol 1) ∧
    ∃ selection next,
      choose (eval unknownScrutinee 3) (.symbol 1) none armForFive middle =
        (.ok selection, next) ∧
      selection.hit = none ∧ ¬ selection.Justified next.recorder.path (.symbol 1) := by
  refine ⟨by decide +kernel, _, _, rfl, rfl, fun hjustified => ?_⟩
  have hfive := (hjustified (fun _ => 5) nofun).2 (.int 5) List.mem_cons_self
  exact hfive rfl

end Run

end AbstractStateMachine
