import AbstractStateMachine.Proofs.Backend.Machines
import AbstractStateMachine.Proofs.ListHeap.Payload

/-!
# Disciplines of values

A discipline says which values may be in use and what the list heap and the recorder must be like
for that. Values come from a few places: they are scalars or lists, new symbols, symbols that are
defined by others and symbols that stand for a comparison. If all of these conform, then everything
in a machine conforms, whatever is executed: its state, its pending updates and its bindings.
-/

namespace AbstractStateMachine

open ListHeap

/-- The ways to make a list of values in use. -/
inductive ListHeap.Builds (heap : ListHeap) : List Value → Handle × ListHeap → Prop where
  | ofList (values : List Value) : Builds heap values (heap.ofList values)
  | cons (value : Value) (list : Handle) : Builds heap [value, .list list] (heap.cons value list)
  | tail (list : Handle) : Builds heap [.list list] (heap.tail list)
  | flatten (list : Handle) : Builds heap [.list list] (heap.flatten list)

theorem ListHeap.AllValues.builds {good : Value → Prop} {heap : ListHeap} {values : List Value}
    {made : Handle × ListHeap} (h : heap.AllValues good) (hvalues : ∀ value ∈ values, good value)
    (hbuilds : heap.Builds values made) : made.2.AllValues good := by
  cases hbuilds with
  | ofList => exact h.ofList hvalues
  | cons value list => exact h.cons (hvalues value List.mem_cons_self) list
  | tail list => exact h.tail list
  | flatten list => exact h.flatten list

/-- Which values and conditions may be in use, and which heaps and recorders go with them. A world
tells what has come up so far. -/
structure Discipline (setting : Setting) where
  World : Type
  Later : World → World → Prop
  Allows : World → Value → Prop
  AllowsCondition : World → Condition → Prop
  Suits : World → ListHeap → Recorder → Prop
  later_refl : ∀ w, Later w w
  later_trans : ∀ {w w' w''}, Later w w' → Later w' w'' → Later w w''
  allows_later : ∀ {w w' value}, Later w w' → Allows w value → Allows w' value
  of_isScalar : ∀ {w value}, IsScalar value → Allows w value
  of_element : ∀ {w heap recorder list}, Suits w heap recorder → Allows w (.list list) →
    ∀ value ∈ heap.toList list, Allows w value
  of_peek : ∀ {w heap recorder list}, Suits w heap recorder → Allows w (.list list) →
    Allows w (heap.peek list)
  of_comparison : ∀ {w op lhs rhs cond}, Allows w lhs → Allows w rhs →
    Condition.ofComparison? op lhs rhs = some cond → AllowsCondition w cond
  of_negation : ∀ {w value cond}, Allows w value → Condition.ofNegation? value = some cond →
    AllowsCondition w cond
  of_verdict : ∀ {w value cond}, Allows w value → Condition.ofVerdict? value = some cond →
    AllowsCondition w cond
  list : ∀ {w heap recorder values made}, Suits w heap recorder →
    (∀ value ∈ values, Allows w value) → heap.Builds values made →
      ∃ w', Later w w' ∧ Suits w' made.2 recorder ∧ Allows w' (.list made.1)
  builtin : ∀ {w heap recorder lease op args result}, Suits w heap recorder →
    (∀ arg ∈ args, Allows w arg) → Operation.builtin heap lease op args = .ok result →
      ∃ w', Later w w' ∧ Suits w' result.2 recorder ∧ Allows w' result.1
  fresh : ∀ {w heap recorder}, Suits w heap recorder →
    (setting.symbolic = true ∨ ∃ value, Allows w value ∧ value.isSymbolic = true) →
      ∃ w', Later w w' ∧ Suits w' heap recorder.fresh.2 ∧ Allows w' (.symbol recorder.fresh.1) ∧
        ∀ cond, AllowsCondition w cond →
          Allows w' (.verdict recorder.fresh.1 cond.lhs cond.op cond.rhs)
  define : ∀ {w heap recorder lhs rhs} (machine : Machine) op, Suits w heap recorder →
    (∃ value, Allows w value ∧ value.isSymbolic = true) → Allows w lhs → Allows w rhs →
      ∃ w', Later w w' ∧
        Suits w' heap
          (recorder.define op (machine.term setting lhs) (machine.term setting rhs)).2 ∧
        Allows w' (.symbol recorder.fresh.1)
  assume : ∀ {w heap recorder cond} (machine : Machine), Suits w heap recorder →
    AllowsCondition w cond → recorder.check cond = .unknown → Suits w heap
      (recorder.assume cond (machine.term setting cond.lhs) (machine.term setting cond.rhs))
  create : ∀ {w heap recorder value} {args : List Value} (machine : Machine) key function,
    Suits w heap recorder → (∀ arg ∈ args, Allows w arg) → Allows w value →
      Suits w heap (recorder.create key
        ⟨function, args.map (machine.term setting), machine.term setting value⟩)
  update : ∀ {w heap recorder value} {args : List Value} (machine : Machine) key function,
    Suits w heap recorder → (∀ arg ∈ args, Allows w arg) → Allows w value →
      Suits w heap (recorder.update key
        ⟨function, args.map (machine.term setting), machine.term setting value⟩)
  advance : ∀ {w heap recorder}, Suits w heap recorder → Suits w heap recorder.advance
  repeatOthers : ∀ {w heap recorder} touched, Suits w heap recorder →
    Suits w heap (recorder.repeatOthers touched)
  finish : ∀ {w heap recorder}, Suits w heap recorder → Suits w heap recorder.finish

namespace Discipline

variable {setting : Setting} (D : Discipline setting)

/-- Everything in the machine conforms. -/
structure Governs (w : D.World) (machine : Machine) : Prop where
  suits : D.Suits w machine.heap machine.recorder
  state : ∀ value ∈ machine.state.values, D.Allows w value
  pending : ∀ value ∈ machine.pending.held, D.Allows w value
  locals : ∀ binding ∈ machine.locals, D.Allows w binding.value

def invariant : Invariant Machine Value where
  World := D.World
  Later := D.Later
  Holds := D.Governs
  Covers := D.Allows
  later_refl := D.later_refl
  later_trans := D.later_trans
  covers_later := D.allows_later

variable {D} {w w' : D.World} {machine : Machine} {args : List Value} {value : Value} {α : Type}

theorem allows_all_later (hlater : D.Later w w') {values : List Value}
    (h : ∀ value ∈ values, D.Allows w value) : ∀ value ∈ values, D.Allows w' value :=
  fun value hvalue => D.allows_later hlater (h value hvalue)

theorem governs_new (hsuits : D.Suits w (Machine.new setting).heap {}) :
    D.Governs w (Machine.new setting) where
  suits := hsuits
  state value hvalue := by
    obtain ⟨table, htable, bucket, hbucket, -⟩ := Interpretation.mem_values_iff.mp hvalue
    rw [(Array.mem_replicate.mp htable).2] at hbucket
    cases hbucket
  pending := nofun
  locals := nofun

/-! ### Machines -/

namespace Governs

variable (h : D.Governs w machine)
include h

theorem later (hlater : D.Later w w') {heap : ListHeap} {recorder : Recorder}
    (hsuits : D.Suits w' heap recorder) :
    D.Governs w' { machine with heap, recorder } where
  suits := hsuits
  state := allows_all_later hlater h.state
  pending := allows_all_later hlater h.pending
  locals binding hbinding := D.allows_later hlater (h.locals binding hbinding)

theorem recorded {recorder : Recorder} (hsuits : D.Suits w machine.heap recorder) :
    D.Governs w { machine with recorder } :=
  h.later (D.later_refl w) hsuits

theorem with_pending {pending : UpdateSet}
    (hpending : ∀ value ∈ pending.held, value ∈ machine.pending.held ∨ D.Allows w value) :
    D.Governs w { machine with pending } :=
  { h with pending := fun value hvalue => (hpending value hvalue).elim (h.pending value) id }

theorem store (hargs : ∀ arg ∈ args, D.Allows w arg) (hvalue : D.Allows w value)
    (function : FunctionId) (key : ArgKey) :
    D.Governs w
      { machine with state := machine.state.set machine.heap function key args value } := by
  refine { h with state := fun stored hstored => ?_ }
  rcases Interpretation.mem_values_set hstored with harg | rfl | hold
  · exact hargs stored harg
  · exact hvalue
  · exact h.state stored hold

theorem rebound {next : Machine} (hrecorder : next.recorder = machine.recorder)
    (hsame : Machine.SameHoldings machine next)
    (hlocals : ∀ binding ∈ next.locals, binding ∈ machine.locals ∨ D.Allows w binding.value) :
    D.Governs w next where
  suits := hrecorder ▸ hsame.heap ▸ h.suits
  state := hsame.state ▸ h.state
  pending := hsame.pending ▸ h.pending
  locals binding hbinding := (hlocals binding hbinding).elim (h.locals binding) id

theorem enterFrame (hargs : ∀ arg ∈ args, D.Allows w arg) (params : List String) :
    D.Governs w ((Machine.backend setting).enterFrame params args machine) := by
  refine h.rebound rfl ⟨rfl, rfl, rfl, rfl⟩ fun binding hbinding => ?_
  rcases List.mem_append.mp hbinding with hnew | hold
  · rw [List.mem_reverse, ← List.map_uncurry_zip_eq_zipWith, List.mem_map] at hnew
    obtain ⟨⟨name, value⟩, hmem, rfl⟩ := hnew
    exact .inr (hargs value (List.of_mem_zip hmem).2)
  · exact .inl hold

theorem bindLocal (hvalue : D.Allows w value) (name : String) :
    D.Governs w ((Machine.backend setting).bindLocal name value machine) := by
  refine h.rebound rfl ⟨rfl, rfl, rfl, rfl⟩ fun binding hbinding => ?_
  rcases List.mem_cons.mp hbinding with rfl | hold
  · exact .inr hvalue
  · exact .inl hold

theorem lookupLocal (name : String) : D.Allows w (machine.lookupLocal name) := by
  unfold Machine.lookupLocal
  cases hfound : machine.visible.find? (·.name == name) with
  | none => exact D.of_isScalar trivial
  | some binding =>
    exact h.locals binding (List.mem_of_mem_take (List.mem_of_find?_eq_some hfound))

theorem halt : D.Governs w (machine.halt setting) := by
  unfold Machine.halt
  split
  · exact ⟨D.finish h.suits, h.state, h.pending, h.locals⟩
  · exact ⟨h.suits, h.state, h.pending, h.locals⟩

theorem abandonStep : D.Governs w machine.abandonStep :=
  ⟨h.suits, h.state, nofun, nofun⟩

/-! ### Applying updates -/

theorem flattenValue (hvalue : D.Allows w value) :
    ∃ w', D.Later w w' ∧ D.Governs w' (machine.flattenValue value).2 ∧
      D.Allows w' (machine.flattenValue value).1 := by
  cases value with
  | list handle =>
    obtain ⟨w', hlater, hsuits, hlist⟩ :=
      D.list h.suits (List.forall_mem_singleton.mpr hvalue) (.flatten handle)
    exact ⟨w', hlater, h.later hlater hsuits, hlist⟩
  | _ => exact ⟨w, D.later_refl w, h, hvalue⟩

theorem flattenValues {values : List Value}
    (hvalues : ∀ value ∈ values, D.Allows w value) :
    ∃ w', D.Later w w' ∧ D.Governs w' (machine.flattenValues values).2 ∧
      ∀ value ∈ (machine.flattenValues values).1, D.Allows w' value := by
  induction values generalizing w machine with
  | nil => exact ⟨w, D.later_refl w, h, nofun⟩
  | cons value rest ih =>
    obtain ⟨hvalue, hrest⟩ := List.forall_mem_cons.mp hvalues
    obtain ⟨w', hlater, hmachine, hflat⟩ := h.flattenValue hvalue
    obtain ⟨w'', hlater', hmachine', hflats⟩ := ih hmachine (allows_all_later hlater hrest)
    exact ⟨w'', D.later_trans hlater hlater', hmachine',
      List.forall_mem_cons.mpr ⟨D.allows_later hlater' hflat, hflats⟩⟩

theorem applyUpdate {update : Update}
    (hupdate : ∀ value ∈ update.values, D.Allows w value) :
    ∃ w', D.Later w w' ∧ D.Governs w' (machine.applyUpdate setting update) := by
  obtain ⟨hargs, hvalue⟩ := List.forall_mem_append.mp hupdate
  obtain ⟨w', hlater, hflat, hvalue⟩ := h.flattenValue (hvalue _ List.mem_cons_self)
  obtain ⟨w'', hlater', hflats, hargs⟩ := hflat.flattenValues (allows_all_later hlater hargs)
  replace hvalue := D.allows_later hlater' hvalue
  refine ⟨w'', D.later_trans hlater hlater', ?_⟩
  unfold Machine.applyUpdate
  dsimp only
  generalize machine.flattenValue update.value = value at hvalue hflats hargs ⊢
  generalize value.2.flattenValues update.args = args at hflats hargs ⊢
  split
  · exact (hflats.recorded (D.update _ _ _ hflats.suits hargs hvalue)).store hargs hvalue
      update.function update.key
  · exact hflats.store hargs hvalue update.function update.key

theorem foldl_applyUpdate {updates : List Update}
    (hupdates : ∀ update ∈ updates, ∀ value ∈ update.values, D.Allows w value) :
    ∃ w', D.Later w w' ∧ D.Governs w' (updates.foldl (Machine.applyUpdate setting) machine) := by
  induction updates generalizing w machine with
  | nil => exact ⟨w, D.later_refl w, h⟩
  | cons update rest ih =>
    obtain ⟨hupdate, hrest⟩ := List.forall_mem_cons.mp hupdates
    obtain ⟨w', hlater, hmachine⟩ := h.applyUpdate hupdate
    obtain ⟨w'', hlater', hlast⟩ :=
      ih hmachine fun other hother => allows_all_later hlater (hrest other hother)
    exact ⟨w'', D.later_trans hlater hlater', hlast⟩

theorem applyPending (endOfStep : Bool) :
    ∃ w', D.Later w w' ∧ D.Governs w' (machine.applyPending setting endOfStep) := by
  have hupdates : ∀ update ∈ machine.pending.updates, ∀ value ∈ update.values, D.Allows w value :=
    fun update hupdate value hvalue =>
      h.pending value (UpdateSet.mem_held_of_mem_updates hupdate hvalue)
  have hstart : D.Governs w (machine.summarized setting endOfStep) :=
    ⟨h.suits, h.state, nofun, h.locals⟩
  rw [Machine.applyPending_eq]
  dsimp only
  split
  · obtain ⟨w', hlater, happlied⟩ :=
      (hstart.recorded (D.advance hstart.suits)).foldl_applyUpdate hupdates
    exact ⟨w', hlater, happlied.recorded (D.repeatOthers _ happlied.suits)⟩
  · exact hstart.foldl_applyUpdate hupdates

theorem commit
    (hreclaim : ∀ w (machine : Machine), D.Suits w machine.heap machine.recorder →
      D.Suits w machine.reclaimLists.heap machine.recorder) (endOfStep : Bool) :
    ∃ w', D.Later w w' ∧ D.Governs w' ((Machine.backend setting).commit endOfStep machine) := by
  obtain ⟨w', hlater, happlied⟩ := h.applyPending endOfStep
  have hreclaimed : D.Governs w' (machine.applyPending setting endOfStep).reclaimLists :=
    ⟨hreclaim w' _ happlied.suits, happlied.state, happlied.pending, happlied.locals⟩
  refine ⟨w', hlater, ?_⟩
  cases endOfStep with
  | false => exact hreclaimed
  | true => exact ⟨hreclaimed.suits, hreclaimed.state, hreclaimed.pending, hreclaimed.locals⟩

end Governs

/-! ### Operations -/

open Run Invariant

def Allowed (w : D.World) (outcome : Except Stop Value × Machine) : Prop :=
  ∃ w', D.Later w w' ∧ D.Governs w' outcome.2 ∧
    ∀ result, outcome.1 = .ok result → D.Allows w' result

theorem Governs.allowed (h : D.Governs w machine) (hvalue : D.Allows w value) :
    Allowed w (.ok value, machine) :=
  ⟨w, D.later_refl w, h, fun _ heq => Except.ok.inj heq ▸ hvalue⟩

theorem Governs.allowed_later (h : D.Governs w machine) {heap : ListHeap} {recorder : Recorder}
    (hmade : ∃ w', D.Later w w' ∧ D.Suits w' heap recorder ∧ D.Allows w' value) :
    Allowed w (.ok value, { machine with heap, recorder }) := by
  obtain ⟨w', hlater, hsuits, hvalue⟩ := hmade
  exact ⟨w', hlater, h.later hlater hsuits, fun _ heq => Except.ok.inj heq ▸ hvalue⟩

theorem allowed_operatesTo (h : D.Governs w machine) (hargs : ∀ arg ∈ args, D.Allows w arg)
    {outcome : Except Stop Value × Machine} (houtcome : OperatesTo setting args machine outcome) :
    Allowed w outcome := by
  have hsymbols : (∃ arg ∈ args, arg.isSymbolic = true) →
      ∃ value, D.Allows w value ∧ value.isSymbolic = true :=
    fun ⟨arg, harg, hsymbolic⟩ => ⟨arg, hargs arg harg, hsymbolic⟩
  have hverdict : ∀ {cond}, D.AllowsCondition w cond → (∃ arg ∈ args, arg.isSymbolic = true) →
      Allowed w (.ok (.verdict machine.recorder.fresh.1 cond.lhs cond.op cond.rhs),
        { machine with recorder := machine.recorder.fresh.2 }) := by
    intro cond hcond hsymbolic
    obtain ⟨w', hlater, hsuits, -, hvalue⟩ := D.fresh h.suits (.inr (hsymbols hsymbolic))
    exact h.allowed_later ⟨w', hlater, hsuits, hvalue cond hcond⟩
  cases houtcome with
  | scalar hscalar => exact h.allowed (D.of_isScalar hscalar)
  | bound name => exact h.allowed (h.lookupLocal name)
  | built hresult => exact h.allowed_later (D.builtin h.suits hargs hresult)
  | @listed values hvalues =>
    refine h.allowed_later (D.list h.suits (fun value hvalue => ?_) (.ofList values))
    exact (hvalues value hvalue).elim (hargs value) D.of_isScalar
  | symbol hsymbolic =>
    obtain ⟨w', hlater, hsuits, hsymbol, -⟩ := D.fresh h.suits (hsymbolic.imp_right hsymbols)
    exact h.allowed_later ⟨w', hlater, hsuits, hsymbol⟩
  | definition op hleft hright hsymbolic =>
    exact h.allowed_later
      (D.define machine op h.suits (hsymbols hsymbolic) (hargs _ hleft) (hargs _ hright))
  | comparison hleft hright hsymbolic hcond =>
    exact hverdict (D.of_comparison (hargs _ hleft) (hargs _ hright) hcond) hsymbolic
  | negation hvalue hsymbolic hcond =>
    exact hverdict (D.of_negation (hargs _ hvalue) hcond) hsymbolic
  | raised => exact ⟨w, D.later_refl w, h, nofun⟩

theorem allowed_readsTo {function : FunctionId} (h : D.Governs w machine)
    (hargs : ∀ arg ∈ args, D.Allows w arg) {outcome : Except Stop Value × Machine}
    (houtcome : ReadsTo setting function args machine outcome) : Allowed w outcome := by
  cases houtcome with
  | pending hlookup => exact h.allowed (h.pending _ (UpdateSet.mem_held_of_lookup hlookup))
  | stored hstored => exact h.allowed (h.state _ (Interpretation.mem_values_of_get? hstored))
  | missing => exact h.allowed (D.of_isScalar trivial)
  | symbolized hsymbolic =>
    obtain ⟨w', hlater, hsuits, hsymbol, -⟩ :=
      D.fresh h.suits (.inl (Bool.and_eq_true_iff.mp hsymbolic).1)
    have hargs' := allows_all_later hlater hargs
    have hcreated := D.create machine (function, machine.heap.argKey setting.digest args)
      (setting.spec.function function).name hsuits hargs' hsymbol
    exact ⟨w', hlater, (h.later hlater hcreated).store hargs' hsymbol function _,
      fun _ heq => Except.ok.inj heq ▸ hsymbol⟩

theorem allows_raise {post : D.World → α → Prop} (cause : Cause) :
    D.invariant.Maintains w post (raise cause) :=
  maintains_get fun _ _ => maintains_throw _

theorem allows_decide (hvalue : D.Allows w value) :
    D.invariant.Maintains w D.invariant.Anything (decide setting value) := by
  intro machine h
  refine ⟨w, D.later_refl w, ?_, fun _ _ => trivial⟩
  have hdecides := decidesTo_decide setting value machine
  generalize decide setting value machine = outcome at hdecides ⊢
  cases hdecides with
  | decided | raised => exact h
  | assumed hcond hcheck =>
    exact h.recorded (D.assume machine h.suits (D.of_verdict hvalue hcond) hcheck)

theorem allows_pending {run : Run α}
    (hrun : ∀ machine, ∃ pending, (run machine).2 = { machine with pending } ∧
      ∀ value ∈ pending.held, value ∈ machine.pending.held ∨ D.Allows w value) :
    D.invariant.Maintains w D.invariant.Anything run := by
  intro machine h
  obtain ⟨pending, heq, hheld⟩ := hrun machine
  exact ⟨w, D.later_refl w, heq ▸ Governs.with_pending h hheld, fun _ _ => trivial⟩

theorem allows_leave {merge : UpdateSet → ListHeap → Bool → UpdateSet × Option Fault}
    (hheld : ∀ set heap forked value, value ∈ (merge set heap forked).1.held → value ∈ set.held)
    (forked : Bool) : D.invariant.Maintains w D.invariant.Anything (leave merge forked) :=
  allows_pending fun machine => ⟨_, snd_leave merge forked machine, fun value hvalue =>
    .inl (hheld machine.pending machine.heap forked value hvalue)⟩

theorem allows_write (function : FunctionId) (hargs : ∀ arg ∈ args, D.Allows w arg)
    (hvalue : D.Allows w value) (span : Span) :
    D.invariant.Maintains w D.invariant.Anything (write setting function args value span) := by
  refine allows_pending fun machine => ?_
  obtain ⟨pending, heq, rfl | hadd⟩ := exists_pending_write setting function args value span machine
  · exact ⟨_, heq, fun _ => .inl⟩
  · refine ⟨pending, heq, fun held hheld => ?_⟩
    rcases UpdateSet.mem_held_add hadd hheld with harg | rfl | hold
    · exact .inr (hargs held harg)
    · exact .inr hvalue
    · exact .inl hold

theorem allows_enter (parallel : Bool) :
    D.invariant.Maintains w D.invariant.Anything ((Machine.backend setting).enter parallel) := by
  refine allows_pending fun machine => ?_
  cases parallel with
  | true => exact ⟨_, rfl, fun _ hvalue => .inl (UpdateSet.mem_held_forkParallel hvalue)⟩
  | false => exact ⟨_, rfl, fun _ hvalue => .inl (UpdateSet.mem_held_forkSequential hvalue)⟩

theorem allows_list {values : List Value} {operation : ListHeap → Handle × ListHeap}
    (hvalues : ∀ value ∈ values, D.Allows w value)
    (hbuilds : ∀ heap : ListHeap, heap.Builds values (operation heap)) :
    D.invariant.Maintains w (fun w list => D.Allows w (.list list)) (onHeap operation) := by
  intro machine h
  obtain ⟨w', hlater, hsuits, hlist⟩ := D.list h.suits hvalues (hbuilds machine.heap)
  exact ⟨w', hlater, Governs.later h hlater hsuits, fun _ heq => Except.ok.inj heq ▸ hlist⟩

theorem allows_elements (hvalue : D.Allows w value) :
    D.invariant.Maintains w D.invariant.CoversAll ((Machine.backend setting).elements value) := by
  cases value with
  | list list => exact maintains_get fun _ h => maintains_pure (D.of_element h.suits hvalue)
  | undefined => exact maintains_pure nofun
  | _ => exact allows_raise _

theorem allows_pushed {current : Value} (hvalue : D.Allows w value)
    (hcurrent : D.Allows w current) :
    D.invariant.Maintains w D.Allows ((Machine.backend setting).pushed value current) := by
  have htarget : D.invariant.Maintains w (fun w list => D.Allows w (.list list))
      (pushTarget current) := by
    cases current with
    | list list => exact maintains_pure hcurrent
    | undefined => exact allows_list (List.forall_mem_nil _) fun heap => .ofList []
    | _ => exact allows_raise _
  refine htarget.bind fun w' list hlater hlist => ?_
  refine (allows_list ?_ fun heap => .cons value list).bind fun _ _ _ => maintains_pure
  exact List.forall_mem_cons.mpr
    ⟨D.allows_later hlater hvalue, List.forall_mem_singleton.mpr hlist⟩

theorem allows_popped {current : Value} (hcurrent : D.Allows w current) :
    D.invariant.Maintains w D.invariant.CoversPopped
      ((Machine.backend setting).popped current) := by
  cases current with
  | list list =>
    refine maintains_get fun machine h => ?_
    refine (allows_list (List.forall_mem_singleton.mpr hcurrent) fun heap => .tail list).bind
      fun w' rest hlater hrest => maintains_pure ?_
    refine ⟨D.allows_later hlater (D.of_peek h.suits hcurrent), ?_⟩
    rintro _ ⟨⟩
    exact hrest
  | undefined => exact maintains_pure ⟨D.of_isScalar trivial, nofun⟩
  | _ => exact allows_raise _

theorem allows_ruleOf (value : Value) :
    D.invariant.Maintains w D.invariant.Anything ((Machine.backend setting).ruleOf value) := by
  cases value with
  | rule rule => exact maintains_pure trivial
  | _ => exact allows_raise _

theorem allows_scheduled (value : Value) :
    D.invariant.Maintains w D.invariant.Anything ((Machine.backend setting).scheduled value) := by
  cases value with
  | rule rule => exact maintains_pure trivial
  | undefined => exact maintains_pure trivial
  | _ => exact allows_raise _

theorem evalMaintained (D : Discipline setting) :
    EvalMaintained D.invariant (Machine.backend setting) where
  enterFrame _ _ params _ h hargs := Governs.enterFrame h hargs params
  leaveFrame _ _ _ _ _ h :=
    Governs.rebound h rfl ⟨rfl, rfl, rfl, rfl⟩ fun _ hbinding =>
      .inl (List.mem_of_mem_drop hbinding)
  readStored _ function args hargs machine h :=
    allowed_readsTo h hargs (readsTo_readStored setting function args machine)
  operate _ _ args hread hargs machine h :=
    allowed_operatesTo h hargs (operatesTo_operate setting hread args machine)

theorem maintained (D : Discipline setting) : Maintained D.invariant (Machine.backend setting) where
  toEvalMaintained := D.evalMaintained
  setSpan _ _ _ h := Governs.rebound h rfl ⟨rfl, rfl, rfl, rfl⟩ fun _ => .inl
  bindLocal _ _ name _ h hvalue := Governs.bindLocal h hvalue name
  unbindLocal _ _ h :=
    Governs.rebound h rfl ⟨rfl, rfl, rfl, rfl⟩ fun _ hbinding =>
      .inl (List.mem_of_mem_tail hbinding)
  decide _ _ hvalue := allows_decide hvalue
  elements _ _ hvalue := allows_elements hvalue
  ruleOf _ := allows_ruleOf
  print _ _ := maintains_modify fun _ h =>
    Governs.rebound h rfl ⟨rfl, rfl, rfl, rfl⟩ fun _ => .inl
  pushed _ _ _ hvalue hcurrent := allows_pushed hvalue hcurrent
  popped _ _ hcurrent := allows_popped hcurrent
  write _ function _ _ span hargs hvalue := allows_write function hargs hvalue span
  enter _ := allows_enter
  leave _ := allows_leave fun _ _ _ _ => UpdateSet.mem_held_merge
  leaveRound _ := allows_leave fun _ _ _ _ => UpdateSet.mem_held_mergeRound

theorem callsMaintained (D : Discipline setting)
    (hreclaim : ∀ w (machine : Machine), D.Suits w machine.heap machine.recorder →
      D.Suits w machine.reclaimLists.heap machine.recorder) :
    CallsMaintained D.invariant (Machine.backend setting) Machine.Unbound where
  toMaintained := D.maintained
  resting := Machine.keepsResting_backend setting
  ofRule _ _ := D.of_isScalar trivial
  scheduled _ := allows_scheduled
  halt _ _ h := Governs.halt h
  abandon _ _ h := Governs.abandonStep h
  commit _ _ endOfStep h _ := by
    obtain ⟨w', -, hcommit⟩ := Governs.commit h hreclaim endOfStep
    exact ⟨w', hcommit⟩

end Discipline

end AbstractStateMachine
