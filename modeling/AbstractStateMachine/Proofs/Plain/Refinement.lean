import AbstractStateMachine.Proofs.Machine.Stores
import AbstractStateMachine.Proofs.Plain.Simulation

/-!
# Independence of how lists are represented

In concrete mode and without floats, a machine with a list heap answers every sequence of calls as
the plain machine does, in which lists are sequences: in-place appends, flattening and reclamation
never show.
-/

namespace AbstractStateMachine

open ListHeap

variable {setting : Setting}

/-! ### Specifications without floats -/

/-- Neither a float literal nor a conversion to a float occurs in the expression. -/
inductive Expr.FloatFree : Expr → Prop where
  | node {expr : Expr} (hliteral : ∀ value, expr ≠ .float value)
      (hconversion : ∀ args, expr ≠ .builtin .asFloat args)
      (hchildren : ∀ child ∈ expr.children, FloatFree child) : FloatFree expr

inductive Stmt.FloatFree : Stmt → Prop where
  | node {stmt : Stmt} (hexprs : ∀ expr ∈ stmt.action.exprs, expr.FloatFree)
      (hbodies : ∀ body ∈ stmt.action.bodies, FloatFree body) : FloatFree stmt

def Call.FloatFree : Call → Prop
  | .exec _ stmt => stmt.FloatFree
  | .eval _ expr => expr.FloatFree
  | .init _ | .step _ | .run _ _ _ => True

namespace Specification

variable {spec : Specification}

structure FloatFree (spec : Specification) : Prop where
  derived : ∀ decl ∈ spec.functions, ∀ params body, decl.kind = .derived params body →
    body.FloatFree
  initializers : ∀ decl ∈ spec.functions, ∀ initializer ∈ decl.initializers,
    initializer.2.FloatFree ∧ ∀ expr ∈ initializer.1, expr.FloatFree
  rules : ∀ decl ∈ spec.rules, ∀ body, decl.body = some body → body.FloatFree

def FloatFree.fragment (h : spec.FloatFree) : Fragment spec where
  exprs := Expr.FloatFree
  stmts := Stmt.FloatFree
  children := fun _ ⟨_, _, hchildren⟩ => hchildren
  exprs_of_stmts := fun _ ⟨hexprs, _⟩ => hexprs
  bodies := fun _ ⟨_, hbodies⟩ => hbodies
  derived id params body hkind := by
    rcases spec.function_mem_or_eq_default id with hmem | hdefault
    · exact h.derived _ hmem params body hkind
    · rw [hdefault] at hkind
      cases hkind
  rules id body hbody := by
    rcases spec.rule_mem_or_eq_default id with hmem | hdefault
    · exact h.rules _ hmem body hbody
    · rw [hdefault] at hbody
      cases hbody
  initializers id := by
    rcases spec.function_mem_or_eq_default id with hmem | hdefault
    · exact h.initializers _ hmem
    · rw [hdefault]
      rintro initializer ⟨⟩

end Specification

/-! ### Expressions -/

namespace Run

open Coupling

variable {setting : Setting} {w : (realization setting).World} {data : List Datum}

theorem alike_readStored (hconcrete : setting.symbolic = false) (function : FunctionId)
    {args : List Value} (hargs : List.Forall₂ w.1.Realizes args data) :
    (realization setting).Alike w (realization setting).Values (readStored setting function args)
      (Plain.Run.readStored setting function data) := by
  intro machine plain h
  have hrepresents := hargs.imp fun _ _ => Realizes.represents
  have hpending := h.pending? w.2 hrepresents function
  have hstored := h.stored? w.2 hrepresents function
  rw [readStored_of_concrete hconcrete]
  refine .ok ((realization setting).later_refl w) h (realizes_getD_undefined ?_)
  generalize machine.pendingValue? setting function args = found at hpending ⊢
  generalize plain.pending? setting function data = found' at hpending ⊢
  cases hpending with
  | none => exact hstored
  | some hvalue => exact .some hvalue

theorem alike_operate (hconcrete : setting.symbolic = false) {expr : Expr} (hfree : expr.FloatFree)
    (hread : ∀ function args, expr ≠ .read function args) {args : List Value}
    (hargs : List.Forall₂ w.1.Realizes args data) :
    (realization setting).Alike w (realization setting).Values
      ((Machine.backend setting).operate expr args) (Plain.Run.operate expr data) := by
  obtain ⟨hliteral, hconversion, -⟩ := hfree
  cases expr with
  | read function args => exact absurd rfl (hread function args)
  | float value => exact absurd rfl (hliteral value)
  | int | bool | str | undefined | rule => exact alike_scalar trivial nofun
  | var name => exact alike_get fun _ _ h => alike_pure (h.lookupLocal name)
  | builtin op children =>
    refine alike_builtin hconcrete ?_ hargs
    rintro rfl
    exact hconversion children rfl
  | list => exact alike_ofList hargs
  | not =>
    match hargs with
    | .cons hvalue .nil => exact alike_negation hvalue
    | .nil | .cons _ (.cons _ _) => exact alike_scalar trivial nofun
  | binary op _ _ =>
    match hargs with
    | .cons hleft (.cons hright .nil) => exact alike_binary hleft hright op
    | .nil | .cons _ .nil | .cons _ (.cons _ (.cons _ _)) => exact alike_scalar trivial nofun
  | range =>
    match hargs with
    | .cons hlow (.cons hhigh .nil) => exact alike_range hlow hhigh
    | .nil | .cons _ .nil | .cons _ (.cons _ (.cons _ _)) => exact alike_scalar trivial nofun

theorem texts_eq {values : List Value} {machine : Machine} {plain : Plain.Machine}
    (h : machine.Realizes setting w.1 plain) (hvalues : List.Forall₂ w.1.Realizes values data) :
    values.map (machine.text setting) = data.map (Datum.text setting.spec) := by
  refine map_eq_map_of_forall₂ (hvalues.imp fun value datum hvalue => ?_)
  rw [Machine.text, h.heap_eq]
  exact hvalue.represents.text_eq w.2 setting.spec

theorem alike_print {values : List Value} (hvalues : List.Forall₂ w.1.Realizes values data) :
    (realization setting).Alike w (realization setting).Same
      ((Machine.backend setting).print values) ((Plain.backend setting).print data) := by
  refine alike_modify fun machine plain h => ?_
  refine { h with output := ?_ }
  dsimp only
  rw [h.output, texts_eq h hvalues]

end Run

/-! ### Applying updates -/

namespace Machine

variable {setting : Setting} {heap : ListHeap} {machine : Machine} {plain : Plain.Machine}

section Applying

variable (hconcrete : setting.symbolic = false)
include hconcrete

theorem Realizes.applyUpdate (h : machine.Realizes setting heap plain) (hheap : heap.WellFormed)
    {update : Update} {image : Plain.Update} (hupdate : update.Realizes heap setting.digest image) :
    ∃ later, later.WellFormed ∧ heap.Extends later ∧
      (machine.applyUpdate setting update).Realizes setting later
        { plain with tables := Plain.store setting.digest plain.tables image } := by
  obtain rfl : machine.heap = heap := h.heap_eq
  obtain ⟨args, value, later, hlater, hgrows, hargs, hvalue, happlied⟩ :=
    exists_applyUpdate hconcrete hheap (hupdate.args.imp fun _ _ => Realizes.represents)
      hupdate.value.represents
  have hfree := floatFree_of_realizes hupdate.args
  have hflats : List.Forall₂ later.Realizes args image.args :=
    forall₂_imp_of_mem hargs fun _ _ datum hdatum hflat => ⟨hflat, hfree datum hdatum⟩
  have hnew : later.Realizes value image.value := ⟨hvalue, hupdate.value.floatFree⟩
  have hgrown := h.grow hheap hgrows
  refine ⟨later, hlater, hgrows, ?_⟩
  rw [happlied]
  refine { hgrown with tables := ?_ }
  dsimp only
  rw [Interpretation.set_eq, Plain.store, hupdate.function, hupdate.key]
  refine hgrown.tables.store (fun location _ hlocation => ?_) (fun _ _ hlocation => ?_) ?_
    update.function _
  · exact (sameArgs_eq_of_represents hlater hlocation.args hargs).symm
  · exact ⟨hlocation.args, hnew⟩
  · exact ⟨hflats, hnew⟩

theorem Realizes.foldl_applyUpdate (h : machine.Realizes setting heap plain)
    (hheap : heap.WellFormed) {updates : List Update} {images : List Plain.Update}
    (hupdates : List.Forall₂ (Update.Realizes heap setting.digest) updates images) :
    ∃ later, later.WellFormed ∧
      (updates.foldl (Machine.applyUpdate setting) machine).Realizes setting later
        { plain with tables := images.foldl (Plain.store setting.digest) plain.tables } := by
  induction updates generalizing machine heap plain images with
  | nil =>
    cases hupdates
    exact ⟨heap, hheap, h⟩
  | cons update rest ih =>
    cases hupdates with
    | cons hupdate hrest =>
      obtain ⟨middle, hmiddle, hgrows, happlied⟩ := h.applyUpdate hconcrete hheap hupdate
      exact ih happlied hmiddle (hrest.imp fun _ _ => Update.Realizes.extends hheap hgrows)

omit hconcrete in
theorem Realizes.updatesText_eq (h : machine.Realizes setting heap plain)
    (hheap : heap.WellFormed) {updates : List Update} {images : List Plain.Update}
    (hupdates : List.Forall₂ (Update.Realizes heap setting.digest) updates images) :
    machine.updatesText setting updates = Plain.updatesText setting.spec images := by
  have htexts : updates.map (machine.updateText setting) =
      images.map (Plain.updateText setting.spec) := by
    refine map_eq_map_of_forall₂ (hupdates.imp fun update image hupdate => ?_)
    unfold Machine.updateText Plain.updateText locationText
    rw [hupdate.function, Machine.text, h.heap_eq,
      hupdate.value.represents.text_eq hheap setting.spec,
      map_eq_map_of_forall₂ (hupdate.args.imp fun _ _ hvalue =>
        hvalue.represents.text_eq hheap setting.spec)]
  unfold Machine.updatesText Plain.updatesText
  rw [htexts]
  cases hupdates <;> rfl

omit hconcrete in
theorem Realizes.reclaimLists (h : machine.Realizes setting heap plain) (hheap : heap.WellFormed)
    (hunbound : machine.locals = []) (hpending : machine.pending = {})
    (hplain : plain.pending = {}) :
    ∃ w, (realization setting).States w machine.reclaimLists plain := by
  obtain rfl : machine.heap = heap := h.heap_eq
  refine ⟨⟨_, wellFormed_beginEpoch (wellFormed_reclaim hheap machine.roots)⟩, ?_⟩
  have hretains : machine.heap.Retains machine.roots machine.reclaimLists.heap :=
    retains_reclaim hheap machine.roots
  have hkept : ∀ value datum, value ∈ machine.state.values → machine.heap.Realizes value datum →
      machine.reclaimLists.heap.Realizes value datum := fun value datum hvalue hrealizes =>
    ⟨hrealizes.represents.retained hheap hretains (List.mem_append_left _ hvalue),
      hrealizes.floatFree⟩
  refine { h with heap_eq := rfl, tables := ?_, pending := ?_, locals := ?_ }
  · refine h.tables.imp_of_mem fun table htable bucket hbucket location hmem image hrelated => ?_
    have hstored : ∀ value, value ∈ location.args ∨ value = location.value →
        value ∈ machine.state.values := fun value hvalue =>
      Interpretation.mem_values_iff.mpr ⟨table, htable, bucket, hbucket, location, hmem, hvalue⟩
    refine ⟨?_, hkept _ _ (hstored _ (.inr rfl)) hrelated.value⟩
    exact forall₂_imp_of_mem hrelated.args fun value hvalue datum _ =>
      hkept value datum (hstored value (.inl hvalue))
  · show Stack.Related _ machine.pending.stack plain.pending
    rw [hpending, hplain]
    exact ⟨OrderedMap.related_empty, .nil⟩
  · have hlocals := h.locals
    show List.Forall₂ _ machine.locals plain.locals
    rw [hunbound] at hlocals ⊢
    rw [List.forall₂_nil_left_iff.mp hlocals]
    exact .nil

theorem Realizes.commit (h : machine.Realizes setting heap plain) (hheap : heap.WellFormed)
    (hunbound : machine.Unbound) (endOfStep : Bool) :
    ∃ w, (realization setting).States w ((backend setting).commit endOfStep machine)
      ((Plain.backend setting).commit endOfStep plain) := by
  have hupdates : List.Forall₂ (Update.Realizes heap setting.digest) machine.pending.updates
    plain.pending.updates := h.pending.updates
  have hdumps : (if setting.dumpUpdates && endOfStep then
        plain.dumps.push (Plain.updatesText setting.spec plain.pending.updates) else plain.dumps) =
      (machine.summarized setting endOfStep).dumps := by
    rw [summarized, h.updatesText_eq hheap hupdates, h.dumps]
  have hstart : (machine.summarized setting endOfStep).Realizes setting heap
      { plain with
        pending := {}
        dumps :=
          if setting.dumpUpdates && endOfStep then
            plain.dumps.push (Plain.updatesText setting.spec plain.pending.updates)
          else plain.dumps } :=
    { h with pending := ⟨OrderedMap.related_empty, .nil⟩, dumps := hdumps }
  obtain ⟨later, hlater, happlied⟩ := hstart.foldl_applyUpdate hconcrete hheap hupdates
  rw [← applyPending_of_concrete hconcrete] at happlied
  have hlocals : (machine.applyPending setting endOfStep).locals = [] :=
    (locals_applyPending setting machine endOfStep).trans hunbound
  have hpending : (machine.applyPending setting endOfStep).pending = {} :=
    pending_applyPending endOfStep
  have hlast : (if endOfStep then
        { machine.applyPending setting endOfStep with
          steps := (machine.applyPending setting endOfStep).steps + 1 }
      else machine.applyPending setting endOfStep).Realizes setting later
      (plain.commit setting endOfStep) := by
    cases endOfStep with
    | false => exact happlied
    | true => exact { happlied with steps := congrArg (· + 1) happlied.steps }
  refine hlast.reclaimLists hlater ?_ ?_ rfl
  · cases endOfStep <;> exact hlocals
  · cases endOfStep <;> exact hpending

end Applying

theorem realizes_new (setting : Setting) :
    (Machine.new setting).Realizes setting (Machine.new setting).heap (.new setting) where
  heap_eq := rfl
  tables := Tables.related_replicate setting.spec.functions.size
  pending := ⟨OrderedMap.related_empty, .nil⟩
  locals := .nil
  frameBase := rfl
  span := rfl
  output := rfl
  dumps := rfl
  steps := rfl
  halted := rfl

theorem realizes_frame (params : List String) {args : List Value} {data : List Datum}
    (hargs : List.Forall₂ heap.Realizes args data) :
    List.Forall₂ (Binding.Realizes heap) (List.zipWith Binding.mk params args)
      (List.zip params data) := by
  induction hargs generalizing params with
  | nil => cases params <;> exact .nil
  | cons hvalue _ ih =>
    cases params with
    | nil => exact .nil
    | cons name rest => exact .cons ⟨rfl, hvalue⟩ (ih rest)

end Machine

open Run Coupling Machine

theorem callCorrespondence_realization (hconcrete : setting.symbolic = false)
    (hspec : setting.spec.FloatFree) :
    CallCorrespondence (realization setting) (Machine.backend setting) (Plain.backend setting)
      hspec.fragment Machine.Unbound where
  spec := rfl
  span _ _ _ h := h.span
  setSpan _ _ _ _ h := { h with span := rfl }
  bindLocal _ _ _ _ _ _ h hvalue := { h with locals := .cons ⟨rfl, hvalue⟩ h.locals }
  unbindLocal w machine plain h := by
    refine { h with locals := ?_ }
    show List.Forall₂ _ machine.locals.tail plain.locals.tail
    rw [← List.drop_one, ← List.drop_one]
    exact List.forall₂_drop 1 h.locals
  enterFrame w machine plain params args data h hargs := by
    refine { h with locals := ?_, frameBase := h.locals.length_eq.symm }
    exact List.rel_append (List.forall₂_reverse_iff.mpr (realizes_frame params hargs)) h.locals
  leaveFrame w w' caller plainCaller machine plain hcaller h := by
    refine { h with locals := ?_, frameBase := hcaller.frameBase }
    show List.Forall₂ _ (machine.locals.drop _) (plain.locals.drop _)
    rw [← h.locals.length_eq, h.frameBase]
    exact List.forall₂_drop _ h.locals
  readStored _ function _ _ hargs := alike_readStored hconcrete function hargs
  operate _ _ _ _ hexpr hread hargs := alike_operate hconcrete hexpr hread hargs
  decide _ _ _ hvalue := alike_decide hvalue
  equal w machine plain _ _ _ _ h hvalue hother := by
    show Datum.equal _ _ = machine.heap.equal _ _
    rw [h.heap_eq]
    exact (hvalue.represents.equal_eq w.2 hother.represents hvalue.floatFree.equal_self).symm
  elements _ _ _ hvalue := alike_domainElements hvalue
  ruleOf _ _ _ hvalue := alike_ruleOf hvalue
  text w machine plain _ _ h hvalue := by
    show Datum.text _ _ = machine.heap.text _ _
    rw [h.heap_eq]
    exact (hvalue.represents.text_eq w.2 setting.spec).symm
  print _ _ _ hvalues := alike_print hvalues
  pushed _ _ _ _ _ hvalue hcurrent := alike_pushed hvalue hcurrent
  popped _ _ _ hcurrent := alike_popped hcurrent
  write _ function _ _ _ _ span hargs hvalue := alike_write hargs hvalue function span
  enter _ parallel := alike_enter parallel
  leave _ forked := alike_leaveBlock forked
  leaveRound _ forked := alike_leaveRound forked
  recordsNothing _ _ _ h := h.pending.top.isEmpty_eq
  resting := Machine.keepsResting_backend setting
  ofRule _ _ := realizes_scalar trivial nofun
  scheduled _ _ _ hvalue := alike_scheduled hvalue
  halted _ _ _ h := h.halted
  halt w machine plain h := by
    refine { h with halted := rfl }
  abandon _ _ _ h :=
    { h with pending := ⟨OrderedMap.related_empty, .nil⟩, locals := .nil, frameBase := rfl }
  commit w _ _ endOfStep h hunbound := h.commit hconcrete w.2 hunbound endOfStep

/-! ### Calls -/

namespace Plain

def Run.call (setting : Setting) : Call → Plain.Run (Reply Datum) := (backend setting).call

def Machine.afterCalls (setting : Setting) (calls : List Call) : Machine :=
  (backend setting).afterCalls (.new setting) calls

end Plain

inductive Reply.Represents (heap : ListHeap) : Reply Value → Reply Datum → Prop where
  | done : Represents heap .done .done
  | stepped (more : Bool) : Represents heap (.stepped more) (.stepped more)
  | value {value : Value} {datum : Datum} (h : heap.Represents value datum) :
      Represents heap (.value value) (.value datum)

theorem represents_of_replies {w : (realization setting).World} {reply : Reply Value}
    {image : Reply Datum} (h : (realization setting).Replies w reply image) :
    reply.Represents w.1 image := by
  cases reply with
  | done =>
    cases image with
    | done => exact .done
    | stepped | value => cases h
  | stepped more =>
    cases image with
    | stepped =>
      cases h
      exact .stepped more
    | done | value => cases h
  | value value =>
    cases image with
    | value => exact .value h.represents
    | done | stepped => cases h

theorem sameOutcome_of_answersAlike {Rests : Machine → Prop}
    {outcome : Except Stop (Reply Value) × Machine}
    {image : Except Stop (Reply Datum) × Plain.Machine}
    (h : (realization setting).AnswersAlike Rests (realization setting).Replies outcome image) :
    SameOutcome (Reply.Represents outcome.2.heap) outcome.1 image.1 := by
  cases h with
  | ok hstates _ hreplies =>
    rw [hstates.heap_eq]
    exact .ok (represents_of_replies hreplies)
  | error stop _ _ => exact .error stop

theorem exists_value_of_sameOutcome {outcome : Except Stop (Reply Value) × Machine} {datum : Datum}
    (h : SameOutcome (Reply.Represents outcome.2.heap) outcome.1 (.ok (.value datum))) :
    ∃ value, outcome.1 = .ok (.value value) ∧ outcome.2.heap.Represents value datum := by
  obtain ⟨reply, machine⟩ := outcome
  cases h with
  | ok hreply =>
    cases hreply with
    | value hvalue => exact ⟨_, rfl, hvalue⟩

/-- After any calls, whether they failed or not, the next call gets the reply that the plain machine
gives, both have printed, summarized and stepped alike, and they store the same values. -/
theorem Machine.lists_behave_as_sequences (setting : Setting) (hconcrete : setting.symbolic = false)
    (hspec : setting.spec.FloatFree) (calls : List Call)
    (hcalls : ∀ call ∈ calls, call.FloatFree) :
    let machine := Machine.afterCalls setting calls
    let plain := Plain.Machine.afterCalls setting calls
    (∀ call, call.FloatFree →
      SameOutcome (Reply.Represents (Run.call setting call machine).2.heap)
        (Run.call setting call machine).1 (Plain.Run.call setting call plain).1) ∧
    plain.output = machine.output ∧ plain.dumps = machine.dumps ∧ plain.steps = machine.steps ∧
    plain.halted = machine.halted ∧
    ∀ function args data, List.Forall₂ machine.heap.Represents args data →
      machine.heap.Represents (machine.get setting function args)
        (plain.get setting function data) := by
  have hcorresponds := callCorrespondence_realization hconcrete hspec
  have hfragment : ∀ call : Call, call.FloatFree → hspec.fragment.calls call := by
    intro call hcall
    cases call <;> exact hcall
  have hnew : (realization setting).States ⟨_, wellFormed_beginEpoch wellFormed_default⟩
      (.new setting) (.new setting) := realizes_new setting
  obtain ⟨w, hstates, hunbound⟩ :=
    hcorresponds.afterCalls (fun call hcall => hfragment call (hcalls call hcall)) hnew rfl
  rw [← afterCalls_eq] at hstates hunbound
  intro machine plain
  refine ⟨fun call hcall => ?_, hstates.output, hstates.dumps, hstates.steps, hstates.halted, ?_⟩
  · rw [Run.call_eq]
    exact sameOutcome_of_answersAlike (hcorresponds.call (hfragment call hcall) hstates hunbound)
  · intro function args data hargs
    have hheap : machine.heap = w.1 := hstates.heap_eq
    rw [hheap] at hargs ⊢
    exact (hstates.get w.2 hargs function).represents

/-- In a step `main` appends to one list in two ways. -/
def Machine.appendsTwice : Setting where
  spec :=
    let xs : Stmt := { action := .update ⟨1⟩ [] (.builtin .app [.var "z", .int 2]) }
    let ys : Stmt := { action := .update ⟨2⟩ [] (.builtin .app [.var "z", .int 3]) }
    { functions :=
        #[{ name := "program", result := .rule }, { name := "xs", result := .list .int },
          { name := "ys", result := .list .int }]
      rules :=
        #[{ name := "main"
            body := some { action := .letIn "z" (.list [.int 1]) { action := .par [xs, ys] } } }]
      start := some ⟨0⟩ }

theorem Machine.floatFree_appendsTwice : appendsTwice.spec.FloatFree := by
  have hvar : (Expr.var "z").FloatFree := .node nofun nofun (by simp [Expr.children])
  have hint : ∀ number, (Expr.int number).FloatFree := fun _ =>
    .node nofun nofun (by simp [Expr.children])
  have hlist : (Expr.list [.int 1]).FloatFree :=
    .node nofun nofun (by simp [Expr.children, hint])
  have happ : ∀ number, (Expr.builtin .app [.var "z", .int number]).FloatFree := fun _ =>
    .node nofun nofun (by simp [Expr.children, hvar, hint])
  have hupdate : ∀ function number, Stmt.FloatFree
      { action := .update function [] (.builtin .app [.var "z", .int number]) } := fun _ _ =>
    .node (by simp [Action.exprs, happ]) (by simp [Action.bodies])
  have hfunctions : ∀ decl ∈ appendsTwice.spec.functions,
      decl.kind = .controlled ∧ decl.initializers = [] := by
    simp only [appendsTwice, List.mem_toArray, List.mem_cons, List.not_mem_nil, or_false]
    rintro decl (rfl | rfl | rfl) <;> exact ⟨rfl, rfl⟩
  refine ⟨fun decl hdecl => ?_, fun decl hdecl => ?_, ?_⟩
  · rw [(hfunctions decl hdecl).1]
    nofun
  · rw [(hfunctions decl hdecl).2]
    nofun
  simp only [appendsTwice, List.mem_toArray, List.mem_singleton, forall_eq, Option.some.injEq,
    forall_eq']
  refine .node (by simp [Action.exprs, hlist]) ?_
  simp only [Action.bodies, List.mem_singleton, forall_eq]
  exact .node (by simp [Action.exprs]) (by simp [Action.bodies, hupdate])

theorem Machine.lists_behave_as_sequences_appendsTwice :
    let outcome := Run.call appendsTwice (.eval 5 (.list [.read ⟨1⟩ [], .read ⟨2⟩ []]))
      (afterCalls appendsTwice [.init 9, .step 9])
    appendsTwice.symbolic = false ∧ appendsTwice.spec.FloatFree ∧
    ∃ value, outcome.1 = .ok (.value value) ∧ outcome.2.heap.Represents value
      (.list [.list [.int 1, .int 2], .list [.int 1, .int 3]]) := by
  have hspec := floatFree_appendsTwice
  have hread : ∀ function, (Expr.read function []).FloatFree := fun _ =>
    .node nofun nofun (by simp [Expr.children])
  obtain ⟨hreplies, -⟩ := lists_behave_as_sequences appendsTwice rfl hspec [.init 9, .step 9]
    (by simp [Call.FloatFree])
  have hreply := hreplies (.eval 5 (.list [.read ⟨1⟩ [], .read ⟨2⟩ []]))
    (.node nofun nofun (by simp [Expr.children, hread]))
  have hplain : (Plain.Run.call appendsTwice (.eval 5 (.list [.read ⟨1⟩ [], .read ⟨2⟩ []]))
    (Plain.Machine.afterCalls appendsTwice [.init 9, .step 9])).1 =
      .ok (.value (.list [.list [.int 1, .int 2], .list [.int 1, .int 3]])) := rfl
  rw [hplain] at hreply
  exact ⟨rfl, hspec, exists_value_of_sameOutcome hreply⟩

end AbstractStateMachine
