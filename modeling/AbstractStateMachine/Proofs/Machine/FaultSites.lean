import AbstractStateMachine.Proofs.Backend.Outcomes
import AbstractStateMachine.Proofs.Machine.Effects
import AbstractStateMachine.Proofs.Machine.Narration
import AbstractStateMachine.Proofs.UpdateSet.Orderly

/-!
# The statements that faults point at

A machine keeps one span, which every nested statement overwrites and none restores, and a conflict
may show up at the end of a block, long after the writes. Still, a fault that is no conflict points
at the innermost statement being executed, because a statement evaluates nothing after it has run
another one. A conflict points at a statement that made a write, and its second span is that of an
update which was pending for the same location by then.
-/

namespace AbstractStateMachine

open AbstractStateMachine.Computation Narration UpdateSet Run

inductive Nested (spec : Specification) (root : Stmt) : List Stmt → Prop where
  | root : Nested spec root [root]
  | inner {stmt outer : Stmt} {rest : List Stmt} (h : Nested spec root (outer :: rest))
      (hruns : outer.action.Runs spec stmt) : Nested spec root (stmt :: outer :: rest)

structure Writing.MadeBy (spec : Specification) (root : Stmt) (writing : Writing) (stmt : Stmt)
    (outer : List Stmt) : Prop where
  active : writing.active = stmt :: outer
  nested : Nested spec root (stmt :: outer)
  writes : stmt.action.Writes
  span : writing.update.span = stmt.span

/-- What a narrated execution of the root tells about a fault. -/
inductive Narration.Explains (spec : Specification) (root : Stmt) (narration : Narration)
    (fault : Fault) : Prop where
  /-- The innermost statement failed. -/
  | innermost {stmt : Stmt} {outer : List Stmt} (hactive : narration.active = stmt :: outer)
      (hnested : Nested spec root (stmt :: outer)) (hfault : fault.IsOf stmt.span)
  /-- A statement wrote to a location for which another update was pending. -/
  | conflict {writing : Writing} {stmt : Stmt} {outer : List Stmt} {layer : Layer}
      {existing : Update} (hkind : fault.cause.kind = .conflict)
      (hwriting : writing ∈ narration.writings) (hmade : writing.MadeBy spec root stmt outer)
      (hspan : fault.span = stmt.span) (hlayer : layer ∈ writing.pending.layers)
      (hexisting : layer.get? writing.update.location = some existing)
      (hother : fault.other = some existing.span)

/-! ### Updates and the writes they stem from -/

variable {base : Nat} {writings more : List Writing} {layers below : List Layer} {layer : Layer}

/-- Every update stems from a write, made when the layers below were as they are now. -/
structure Layer.TracedTo (writings : List Writing) (below : List Layer) (layer : Layer) :
    Prop where
  indexed : layer.Indexed
  writing : ∀ update ∈ layer.values, ∃ writing ∈ writings,
    writing.update.location = update.location ∧ writing.update.span = update.span ∧
      below <:+ writing.pending.layers

def TracedAbove (base : Nat) (writings : List Writing) : List Layer → Prop
  | [] => True
  | layer :: below =>
    (base < below.length → layer.TracedTo writings below) ∧ TracedAbove base writings below

theorem Layer.TracedTo.mono (h : layer.TracedTo writings below) (hmore : writings ⊆ more) :
    layer.TracedTo more below where
  indexed := h.indexed
  writing update hupdate := by
    obtain ⟨writing, hwriting, htraced⟩ := h.writing update hupdate
    exact ⟨writing, hmore hwriting, htraced⟩

theorem TracedAbove.mono (h : TracedAbove base writings layers) (hmore : writings ⊆ more) :
    TracedAbove base more layers := by
  induction layers with
  | nil => trivial
  | cons layer below ih => exact ⟨fun hdepth => (h.1 hdepth).mono hmore, ih h.2⟩

theorem tracedAbove_of_length_le (h : layers.length ≤ base + 1) :
    TracedAbove base writings layers := by
  induction layers with
  | nil => trivial
  | cons layer below ih =>
    rw [List.length_cons] at h
    exact ⟨fun hdepth => by omega, ih (by omega)⟩

theorem Layer.tracedTo_empty : Layer.TracedTo writings below .empty where
  indexed := indexed_empty
  writing := nofun

theorem Layer.TracedTo.record {heap : ListHeap} {parallel : Bool} {result : Layer}
    {writing : Writing} (h : layer.TracedTo writings below)
    (hbelow : below <:+ writing.pending.layers)
    (hrecord : layer.record heap parallel writing.update = .ok result) :
    result.TracedTo (writing :: writings) below where
  indexed := h.indexed.record hrecord
  writing update hupdate := by
    rcases mem_values_record hrecord hupdate with rfl | hold
    · exact ⟨writing, List.mem_cons_self, rfl, rfl, hbelow⟩
    · exact (h.mono (List.subset_cons_self _ _)).writing update hold

section Merging

variable {heap : ListHeap} {agree : Bool} {parent : Layer}
  (hlayer : layer.TracedTo writings (parent :: below))
include hlayer

theorem Layer.TracedTo.recordAll (hparent : parent.TracedTo writings below) :
    (parent.recordAll heap agree
      (layer.values.map (Update.movedTo below.length))).1.TracedTo writings below where
  indexed := (lasting_indexed heap).recordAll hparent.indexed fun _ _ => trivial
  writing update hupdate := by
    rcases mem_values_recordAll hupdate with hold | hmoved
    · exact hparent.writing update hold
    · obtain ⟨origin, horigin, rfl⟩ := List.mem_map.mp hmoved
      obtain ⟨writing, hwriting, hlocation, hspan, hbelow⟩ := hlayer.writing origin horigin
      exact ⟨writing, hwriting, hlocation, hspan, (List.suffix_cons _ _).trans hbelow⟩

/-- A conflict at the end of a block is one of a write inside of it with what was there before. -/
theorem Layer.TracedTo.conflicts {fault : Fault} (h : (parent.recordAll heap agree
      (layer.values.map (Update.movedTo below.length))).2 = some fault) :
    ∃ writing ∈ writings, parent ∈ writing.pending.layers ∧
      parent.Conflicts writing.update fault := by
  have hnodup : ((layer.values.map (Update.movedTo below.length)).map Update.location).Nodup := by
    rw [List.map_map]
    exact hlayer.indexed.map_location ▸ hlayer.indexed.nodup
  obtain ⟨_, hmoved, cause, existing, hkind, hfound, rfl⟩ := conflicts_of_recordAll hnodup h
  obtain ⟨origin, horigin, rfl⟩ := List.mem_map.mp hmoved
  obtain ⟨writing, hwriting, hlocation, hspan, hbelow⟩ := hlayer.writing origin horigin
  refine ⟨writing, hwriting, hbelow.subset List.mem_cons_self, cause, existing, hkind, ?_, ?_⟩
  · rw [hlocation]
    exact hfound
  · rw [conflict, conflict, hspan]
    rfl

end Merging

/-! ### States of a narrated execution -/

/-- The execution of a statement, started at some depth. -/
structure Story where
  setting : Setting
  root : Stmt
  base : Nat

namespace Story

variable {story : Story} {stmt : Stmt} {active outer : List Stmt} {narration : Narration}
  {machine : Machine} {fault : Fault} {α : Type} {run : Computation Narration Unit}

/-- The execution is inside the active statements. -/
structure Inside (story : Story) (active : List Stmt) (below : List Layer)
    (narration : Narration) : Prop where
  active : narration.active = active
  below : narration.machine.pending.below = below
  made : ∀ writing ∈ narration.writings, ∃ stmt outer,
    writing.MadeBy story.setting.spec story.root stmt outer
  traced : TracedAbove story.base narration.writings narration.machine.pending.layers

structure Begun (story : Story) (stmt : Stmt) (outer : List Stmt) (below : List Layer)
    (narration : Narration) : Prop extends story.Inside (stmt :: outer) below narration where
  span : narration.machine.span = stmt.span

def Explains (story : Story) (fault : Fault) (narration : Narration) : Prop :=
  narration.Explains story.setting.spec story.root fault

/-- A computation that ends with as many layers as it was started with, and whose faults are
explained. -/
def Leads (story : Story) (pre post : List Layer → Narration → Prop)
    (run : Computation Narration α) : Prop :=
  ∀ below, story.base ≤ below.length → Meets story.Explains (pre below) run fun _ => post below

def Evaluates (story : Story) (stmt : Stmt) (outer : List Stmt) (below : List Layer)
    (post : α → Prop) (run : Computation Narration α) : Prop :=
  Meets (fun fault narration => fault.IsOf stmt.span ∧ story.Begun stmt outer below narration)
    (story.Begun stmt outer below) run
    fun result narration => post result ∧ story.Begun stmt outer below narration

theorem Inside.onMachine (h : story.Inside active below narration)
    (hpending : machine.pending = narration.machine.pending) :
    story.Inside active below { narration with machine } :=
  ⟨h.active, hpending ▸ h.below, h.made, hpending ▸ h.traced⟩

theorem Begun.onMachine (h : story.Begun stmt outer below narration)
    (hpending : machine.pending = narration.machine.pending)
    (hspan : machine.span = narration.machine.span) :
    story.Begun stmt outer below { narration with machine } :=
  ⟨h.toInside.onMachine hpending, hspan.trans h.span⟩

theorem Explains.onMachine (h : story.Explains fault narration) :
    story.Explains fault { narration with machine } := by
  cases h with
  | innermost hactive hnested hfault => exact .innermost hactive hnested hfault
  | conflict hkind hwriting hmade hspan hlayer hexisting hother =>
    exact .conflict hkind hwriting hmade hspan hlayer hexisting hother

theorem Inside.explains {writing : Writing} (h : story.Inside active below narration)
    (hwriting : writing ∈ narration.writings) (hlayer : layer ∈ writing.pending.layers)
    (hconflicts : layer.Conflicts writing.update fault) : story.Explains fault narration := by
  obtain ⟨stmt, outer, hmade⟩ := h.made writing hwriting
  obtain ⟨cause, existing, hkind, hfound, rfl⟩ := hconflicts
  exact .conflict hkind hwriting hmade hmade.span hlayer hfound rfl

/-! ### Evaluation -/

theorem evaluates_lift {post : α → Prop} {run : Run α}
    (h : ∀ machine, Observed story.setting post machine (run machine)) :
    story.Evaluates stmt outer below post (lift run) := by
  intro narration hbegun
  have hobserved := h narration.machine
  have hnext := hbegun.onMachine hobserved.pending hobserved.span
  unfold lift within
  rcases hrun : run narration.machine with ⟨(fault | _) | result, machine⟩ <;>
    rw [hrun] at hobserved hnext
  · exact .fault ⟨hbegun.span ▸ hobserved.fault fault rfl, hnext⟩
  · exact .outOfFuel
  · exact .ok ⟨hobserved.result result rfl, hnext⟩

theorem evalClosed_narrating (story : Story) (stmt : Stmt) (outer : List Stmt)
    (below : List Layer) :
    EvalClosed (narrating story.setting) (Fault.IsOf stmt.span)
      (story.Evaluates stmt outer below) where
  pure hresult := meets_pure fun _ hbegun => ⟨hresult, hbegun⟩
  outOfFuel := meets_outOfFuel
  fault hfault := meets_fault fun _ hbegun => ⟨hfault, hbegun⟩
  raise hcause := meets_get fun narration hbegun =>
    meets_fault fun _ hnext => ⟨⟨hbegun.span, rfl, hcause⟩, hnext⟩
  bind hfirst hrest := hfirst.bind fun result narration h => hrest result h.1 narration h.2
  attempt {_ _ run} h := by
    intro narration hbegun
    have hends := h narration hbegun
    unfold Computation.attempt
    generalize run narration = outcome at hends ⊢
    cases hends with
    | ok h => exact .ok h
    | fault h => exact .ok h
    | outOfFuel => exact .outOfFuel
  withFrame params args h narration hbegun :=
    h.restoring (fun _ _ h => ⟨h.1, h.2.onMachine rfl rfl⟩)
      (fun _ _ h => ⟨h.1, h.2.onMachine rfl rfl⟩) _ (hbegun.onMachine rfl rfl)
  readStored function args := evaluates_lift (onlyObserves_readStored function args)
  operate _ args hread := evaluates_lift (onlyObserves_operate hread args)
  equal _ _ _ hrest := meets_get fun _ _ => hrest _

section Own

variable (hnested : Nested story.setting.spec story.root (stmt :: outer))
include hnested

theorem Evaluates.leads {run : Computation Narration α}
    (h : ∀ below, story.Evaluates stmt outer below AnyResult run) :
    story.Leads (story.Begun stmt outer) (story.Begun stmt outer) run :=
  fun below _ => (h below).imp
    (fun _ _ hfault => .innermost hfault.2.active hnested hfault.1) fun _ _ hresult => hresult.2

theorem leads_lift {run : Run α} (h : OnlyObserves story.setting run) :
    story.Leads (story.Begun stmt outer) (story.Begun stmt outer) (lift run) :=
  Evaluates.leads hnested fun _ => evaluates_lift h

theorem leads_write (hwrites : stmt.action.Writes) (function : FunctionId) (args : List Value)
    (value : Value) :
    story.Leads (story.Begun stmt outer) (story.Begun stmt outer)
      (write story.setting function args value stmt.span) := by
  intro below hbase narration hbegun
  let machine := narration.machine
  let writing : Writing := ⟨narration.active, machine.pending,
    { function, args, value, span := stmt.span
      key := machine.heap.argKey story.setting.digest args
      layer := machine.pending.depth }⟩
  have hnoted : story.Begun stmt outer below
      { narration with writings := writing :: narration.writings } :=
    { hbegun with
      made := List.forall_mem_cons.mpr
        ⟨⟨stmt, outer, hbegun.active, hnested, hwrites, rfl⟩, hbegun.made⟩
      traced := hbegun.traced.mono (List.subset_cons_self _ _) }
  show Ends _ _ (lift (write story.setting function args value stmt.span) _)
  unfold lift within
  cases hadd : machine.pending.add machine.heap story.setting.digest function args value
    stmt.span with
  | error fault =>
    rw [write_of_add_error hadd]
    exact .fault (hnoted.explains List.mem_cons_self List.mem_cons_self
      (conflicts_of_add hadd))
  | ok pending =>
    rw [write_of_add_ok hadd]
    obtain ⟨top, hrecord, rfl⟩ := exists_record_of_add hadd
    have htop (hlt : story.base < machine.pending.below.length) :
        top.TracedTo (writing :: narration.writings) machine.pending.below :=
      (hbegun.traced.1 hlt).record (List.suffix_cons _ _) hrecord
    exact .ok { hnoted with traced := ⟨htop, hnoted.traced.2⟩ }

end Own

/-! ### Blocks -/

inductive Encloses (below : List Layer) : Bool → List Layer → Prop where
  | same : Encloses below false below
  | pushed (parent : Layer) : Encloses below true (parent :: below)

def Enclosed (story : Story) (active : List Stmt) (below : List Layer) (forked : Bool)
    (narration : Narration) : Prop :=
  ∃ layers, Encloses below forked layers ∧ story.Inside active layers narration

theorem meets_fork {fork : UpdateSet → Bool × UpdateSet}
    (hfork : ∀ set : UpdateSet, set.Enters (fork set)) :
    Meets story.Explains (story.Inside active below) (lift (onPending fork))
      (story.Enclosed active below) := by
  intro narration hinside
  have henters := hfork narration.machine.pending
  show Ends _ _ (.ok (fork narration.machine.pending).1,
    { narration with
      machine := { narration.machine with pending := (fork narration.machine.pending).2 } })
  generalize fork narration.machine.pending = forked at henters ⊢
  cases henters with
  | same => exact .ok ⟨below, .same, hinside.onMachine rfl⟩
  | pushed =>
    refine .ok ⟨_, .pushed narration.machine.pending.top, hinside.active, ?_, hinside.made, ?_⟩
    · exact congrArg _ hinside.below
    · exact ⟨fun _ => Layer.tracedTo_empty, hinside.traced⟩

theorem meets_enter (parallel : Bool) :
    Meets story.Explains (story.Inside active below) ((narrating story.setting).enter parallel)
      (story.Enclosed active below) := by
  cases parallel with
  | true =>
    show Meets _ _ (lift (onPending forkParallel)) _
    exact meets_fork enters_forkParallel
  | false =>
    show Meets _ _ (lift (onPending forkSequential)) _
    exact meets_fork enters_forkSequential

theorem meets_leave (merge : UpdateSet → ListHeap → Bool → UpdateSet × Option Fault)
    (agree : UpdateSet → Bool) (hsame : ∀ set heap, merge set heap false = (set, none))
    (hmerge : ∀ set heap, merge set heap true = set.mergeTop heap (agree set)) (forked : Bool)
    (hbase : story.base ≤ below.length) :
    Meets story.Explains (story.Enclosed active below forked)
      (lift (leave merge forked)) fun _ => story.Inside active below := by
  rintro narration ⟨layers, hencloses, hinside⟩
  unfold lift within
  cases hencloses with
  | same =>
    rw [leave_of_merge_ok (hsame _ _)]
    exact .ok (hinside.onMachine rfl)
  | pushed parent =>
    have htraced := hinside.traced
    rw [layers, hinside.below] at htraced
    have htop := htraced.1 (Nat.lt_succ_of_le hbase)
    have hmerged := (hmerge narration.machine.pending narration.machine.heap).trans
      (mergeTop_of_below hinside.below)
    dsimp only at hmerged
    generalize hall : parent.recordAll _ _ _ = merged at hmerged
    obtain ⟨top, _ | fault⟩ := merged
    · rw [leave_of_merge_ok hmerged]
      refine .ok ⟨hinside.active, rfl, hinside.made, fun hlt => ?_, htraced.2.2⟩
      exact congrArg Prod.fst hall ▸ htop.recordAll (htraced.2.1 hlt)
    · rw [leave_of_merge_error hmerged]
      obtain ⟨writing, hwriting, hparent, hconflicts⟩ := htop.conflicts (congrArg Prod.snd hall)
      exact .fault (hinside.explains hwriting hparent hconflicts).onMachine

section Within

variable (h : story.Leads (story.Inside active) (story.Inside active) run)
include h

theorem Leads.enclosed (forked : Bool) (hbase : story.base ≤ below.length) :
    Meets story.Explains (story.Enclosed active below forked) run
      fun _ => story.Enclosed active below forked := by
  rintro narration ⟨layers, hencloses, hinside⟩
  have hlayers : story.base ≤ layers.length := by
    cases hencloses with
    | same => exact hbase
    | pushed => exact Nat.le_succ_of_le hbase
  exact (h layers hlayers narration hinside).imp (fun _ _ => id) fun _ _ hnext =>
    ⟨layers, hencloses, hnext⟩

theorem Leads.inBlock (parallel : Bool) :
    story.Leads (story.Inside active) (story.Inside active)
      ((narrating story.setting).inBlock parallel run) :=
  fun _ hbase => (meets_enter parallel).bind fun forked => (h.enclosed forked hbase).bind fun _ =>
    meets_leave merge inParallel (fun _ _ => rfl) (fun _ _ => rfl) forked hbase

theorem Leads.rounds (fuel : Nat) :
    story.Leads (story.Inside active) (story.Inside active)
      ((narrating story.setting).rounds run fuel) := by
  induction fuel with
  | zero => exact fun _ _ => meets_outOfFuel
  | succ fuel ih =>
    intro below hbase
    refine (meets_enter true).bind fun forked => (h.enclosed forked hbase).bind fun _ => ?_
    refine meets_get fun narration _ => ?_
    refine (meets_leave mergeRound (fun _ => false) (fun _ _ => rfl) (fun _ _ => rfl)
      forked hbase).bind fun _ => ?_
    split
    · exact meets_pure fun _ => id
    · exact ih below hbase

theorem Leads.between {enter leave : Machine → Machine}
    (henter : ∀ machine, (enter machine).pending = machine.pending)
    (hleave : ∀ machine, (leave machine).pending = machine.pending)
    (hbase : story.base ≤ below.length) (hinside : story.Inside active below narration) :
    Ends story.Explains (fun _ => story.Inside active below)
      (restoring (onMachine leave) run (narration.onMachine enter)) :=
  (h below hbase).restoring (fun _ _ hexplains => hexplains.onMachine)
    (fun _ next hnext => hnext.onMachine (hleave next.machine)) _
    (hinside.onMachine (henter narration.machine))

end Within

/-! ### Statements -/

theorem execClosed_narrating (hnested : Nested story.setting.spec story.root (stmt :: outer)) :
    ExecClosed (narrating story.setting) (stmt.action.Runs story.setting.spec)
      (fun span => stmt.action.Writes ∧ span = stmt.span)
      (story.Leads (story.Begun stmt outer) (story.Begun stmt outer))
      (story.Leads (story.Inside (stmt :: outer)) (story.Inside (stmt :: outer)))
      (story.Leads (story.Begun stmt outer) (story.Inside (stmt :: outer))) where
  eval fuel expr := Evaluates.leads hnested fun below =>
    (story.evalClosed_narrating stmt outer below).eval fuel expr
  evalAll fuel exprs := Evaluates.leads hnested fun below =>
    (story.evalClosed_narrating stmt outer below).evalAll fuel exprs
  read fuel function args := Evaluates.leads hnested fun below =>
    (story.evalClosed_narrating stmt outer below).read fuel function args
  decide value := leads_lift hnested (onlyObserves_decide value)
  elements value := leads_lift hnested (onlyObserves_domainElements value)
  ruleOf value := leads_lift hnested (onlyObserves_ruleOf value)
  print _ _ _ _ hbegun := .ok (hbegun.onMachine rfl rfl)
  pushed value current := leads_lift hnested (onlyObserves_pushed value current)
  popped current := leads_lift hnested (onlyObserves_popped current)
  write function args value _ hspan := by
    obtain ⟨hwrites, rfl⟩ := hspan
    exact leads_write hnested hwrites function args value
  raise hcause := Evaluates.leads hnested fun below =>
    (story.evalClosed_narrating stmt outer below).raise hcause
  abort value := Evaluates.leads hnested fun below => meets_get fun narration _ =>
    (story.evalClosed_narrating stmt outer below).raise nofun
  own h below hbase := (h below hbase).imp (fun _ _ => id) fun _ _ => Begun.toInside
  continued hfirst hrest below hbase :=
    (hfirst below hbase).bind fun result => hrest result below hbase
  selecting {_ default arms} fuel value hallowed hrun below hbase := by
    have hselects := (story.evalClosed_narrating stmt outer below).selectArm fuel value
      (List.subset_append_left default.toList (arms.map Prod.snd)) (List.subset_append_right _ _)
    refine (hselects.imp (fun _ _ hfault => .innermost hfault.2.active hnested hfault.1)
      fun _ _ => id).bind fun selected narration hnarration => ?_
    cases selected with
    | none => exact .ok hnarration.2.toInside
    | some selected =>
      have hselected := hallowed selected (hnarration.1 selected rfl)
      exact hrun selected hselected below hbase narration hnarration.2.toInside
  nested h below hbase := (h below hbase).of_imp fun _ => Begun.toInside
  done _ _ := meets_pure fun _ => id
  andThen hfirst hrest below hbase := (hfirst below hbase).bind fun _ => hrest below hbase
  withLocal _ _ h _ hbase _ hinside := h.between (fun _ => rfl) (fun _ => rfl) hbase hinside
  withFrame _ _ h _ hbase _ hinside := h.between (fun _ => rfl) (fun _ => rfl) hbase hinside
  inBlock parallel h below hbase := (h.inBlock parallel below hbase).of_imp fun _ => Begun.toInside
  iterate fuel h below hbase :=
    ((h.rounds fuel).inBlock false below hbase).of_imp fun _ => Begun.toInside

theorem leads_narrated (fuel : Nat)
    (hnested : Nested story.setting.spec story.root (stmt :: outer)) :
    story.Leads (story.Inside outer) (story.Inside outer) (narrated story.setting fuel stmt) := by
  induction fuel generalizing stmt outer with
  | zero => exact fun _ _ => meets_outOfFuel
  | succ fuel ih =>
    intro below hbase
    have haction := (execClosed_narrating hnested).execAction
      (fun _ hruns => ih (hnested.inner hruns)) fuel (fun _ => id) fun hwrites => ⟨hwrites, rfl⟩
    have henter (narration : Narration) (h : story.Inside outer below narration) :
        story.Begun stmt outer below (narration.enter stmt) :=
      ⟨⟨congrArg _ h.active, h.below, h.made, h.traced⟩, rfl⟩
    refine (meets_modify henter).bind fun _ => (haction below hbase).bind fun _ => ?_
    exact meets_modify fun narration h =>
      ⟨congrArg List.tail h.active, h.below, h.made, h.traced⟩

end Story

/-- Whenever a statement fails, the narration of its execution explains the fault. -/
theorem exists_explains_of_exec {setting : Setting} {fuel : Nat} {stmt : Stmt}
    {machine next : Machine} {fault : Fault}
    (h : Run.exec setting fuel stmt machine = (.error (.fault fault), next)) :
    ∃ narration, narrated setting fuel stmt { machine } = (.error (.fault fault), narration) ∧
      narration.machine = next ∧ narration.Explains setting.spec stmt fault := by
  obtain ⟨narration, hnarrated, hmachine⟩ := exists_narrated h
  let story : Story := ⟨setting, stmt, machine.pending.below.length⟩
  have hinside : story.Inside [] machine.pending.below { machine } :=
    ⟨rfl, rfl, nofun, tracedAbove_of_length_le (Nat.le_refl _)⟩
  have hends := story.leads_narrated fuel .root _ (Nat.le_refl _) { machine } hinside
  rw [show story.setting = setting from rfl, hnarrated] at hends
  cases hends with
  | fault hexplains => exact ⟨narration, hnarrated, hmachine, hexplains⟩

def twoFunctions : Setting where
  spec := { functions := #[{ name := "program", result := .rule }, { name := "x" },
    { name := "y" }] }

/-- After `x := 1` a block writes `x` once more, and then `y`. -/
def rewritesInBlock : Stmt where
  action := .seq
    [⟨⟨0, 6⟩, .update ⟨1⟩ [] (.int 1)⟩,
      { action := .par [⟨⟨12, 18⟩, .update ⟨1⟩ [] (.int 2)⟩,
        ⟨⟨20, 26⟩, .update ⟨2⟩ [] (.int 3)⟩] }]

/-- The conflict shows up when the block is left, and the statement executed last has no part in
it. -/
theorem exists_explains_rewritesInBlock :
    let fault : Fault := { cause := .disagreement, span := ⟨12, 18⟩, other := some ⟨0, 6⟩ }
    ∃ next, exec twoFunctions 4 rewritesInBlock (.new twoFunctions) =
        (.error (.fault fault), next) ∧ next.span = ⟨20, 26⟩ ∧
      ∃ narration, narrated twoFunctions 4 rewritesInBlock { machine := .new twoFunctions } =
          (.error (.fault fault), narration) ∧
        narration.machine = next ∧
        narration.Explains twoFunctions.spec rewritesInBlock fault := by
  have hends : (exec twoFunctions 4 rewritesInBlock (.new twoFunctions)).1 = .error (.fault
        { cause := .disagreement, span := ⟨12, 18⟩, other := some ⟨0, 6⟩ }) ∧
      (exec twoFunctions 4 rewritesInBlock (.new twoFunctions)).2.span = ⟨20, 26⟩ := by
    decide +kernel
  rcases hexec : exec twoFunctions 4 rewritesInBlock (.new twoFunctions) with ⟨result, next⟩
  rw [hexec] at hends
  obtain ⟨rfl, hspan⟩ := hends
  exact ⟨next, rfl, hspan, exists_explains_of_exec hexec⟩

end AbstractStateMachine
