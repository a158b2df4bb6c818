import AbstractStateMachine.Proofs.Machine.Computation
import AbstractStateMachine.Proofs.UpdateSet.Blocks

/-!
# Statements that are blocks of writes

A statement that consists of updates, `par` and `seq` spells a block, if its expressions have the
values that are written, no matter what is pending. Main statement: executing it means what
evaluating the block without layers means.
-/

namespace AbstractStateMachine

namespace Machine

def withPending (machine : Machine) (pending : UpdateSet) (span : Span) : Machine :=
  { machine with pending, span }

/-- The expression has the value, no matter what is pending, and evaluating it has no effect. -/
def Yields (setting : Setting) (machine : Machine) (expr : Expr) (value : Value) : Prop :=
  ∀ fuel pending span, Run.eval setting (fuel + 1) expr (machine.withPending pending span) =
    (.ok value, machine.withPending pending span)

theorem yields_int (setting : Setting) (machine : Machine) (value : Int64) :
    Yields setting machine (.int value) (.int value) :=
  fun _ _ _ => rfl

end Machine

namespace Block

open Machine

mutual

/-- The statement writes what the block writes. -/
def Spelled (setting : Setting) (machine : Machine) : Block → Stmt → Prop
  | .write entry, ⟨span, .update function args value⟩ =>
    function = entry.function ∧ span = entry.span ∧
      List.Forall₂ (Yields setting machine) args entry.args ∧
      Yields setting machine value entry.value
  | .par blocks, ⟨_, .par body⟩ => SpelledAll setting machine blocks body
  | .seq blocks, ⟨_, .seq body⟩ => SpelledAll setting machine blocks body
  | _, _ => False

def SpelledAll (setting : Setting) (machine : Machine) : List Block → List Stmt → Prop
  | [], [] => True
  | block :: blocks, stmt :: body =>
    Spelled setting machine block stmt ∧ SpelledAll setting machine blocks body
  | _, _ => False

end

section Spelled

variable {setting : Setting} {machine : Machine} {stmt : Stmt}

theorem spelled_write_iff {entry : Write} : Spelled setting machine (.write entry) stmt ↔
    ∃ args value, stmt = ⟨entry.span, .update entry.function args value⟩ ∧
      List.Forall₂ (Yields setting machine) args entry.args ∧
      Yields setting machine value entry.value := by
  obtain ⟨span, action⟩ := stmt
  cases action <;> simp only [Spelled, Stmt.mk.injEq, Action.update.injEq, reduceCtorEq,
    and_false, false_and, exists_false]
  case update function args value =>
    constructor
    · rintro ⟨rfl, rfl, hargs, hvalue⟩
      exact ⟨args, value, ⟨rfl, rfl, rfl, rfl⟩, hargs, hvalue⟩
    · rintro ⟨_, _, ⟨rfl, rfl, rfl, rfl⟩, hargs, hvalue⟩
      exact ⟨rfl, rfl, hargs, hvalue⟩

theorem spelled_par_iff {blocks : List Block} : Spelled setting machine (.par blocks) stmt ↔
    ∃ span body, stmt = ⟨span, .par body⟩ ∧ SpelledAll setting machine blocks body := by
  obtain ⟨span, action⟩ := stmt
  cases action <;> simp [Spelled]

theorem spelled_seq_iff {blocks : List Block} : Spelled setting machine (.seq blocks) stmt ↔
    ∃ span body, stmt = ⟨span, .seq body⟩ ∧ SpelledAll setting machine blocks body := by
  obtain ⟨span, action⟩ := stmt
  cases action <;> simp [Spelled]

end Spelled

mutual

def height : Block → Nat
  | .write _ => 1
  | .par body => heightAll body + 1
  | .seq body => heightAll body + 1

def heightAll : List Block → Nat
  | [] => 0
  | block :: rest => max (height block) (heightAll rest)

end

end Block

namespace Run

variable {setting : Setting} {machine : Machine} {fuel : Nat}

theorem evalAll_of_yields {exprs : List Expr} {values : List Value}
    (h : List.Forall₂ (Machine.Yields setting machine) exprs values) (pending : UpdateSet)
    (span : Span) : evalAll setting (fuel + 1) exprs (machine.withPending pending span) =
      (.ok values, machine.withPending pending span) := by
  induction h with
  | nil => rfl
  | @cons expr value exprs values hvalue _ ih =>
    rw [evalAll, bind_apply, hvalue]
    show (evalAll setting (fuel + 1) exprs >>= _ : Run (List Value))
      (machine.withPending pending span) = _
    rw [bind_apply, ih]
    rfl

/-- The computation does to what is pending what the operation does, and to nothing else. -/
def Realizes (machine : Machine) (run : Run Unit)
    (operation : UpdateSet → Except Fault UpdateSet) : Prop :=
  ∀ pending span,
    (∀ next, operation pending = .ok next →
      ∃ last, run (machine.withPending pending span) = (.ok (), machine.withPending next last)) ∧
    ∀ fault, operation pending = .error fault →
      (run (machine.withPending pending span)).1 = .error (.fault fault)

section Realizes

variable {run rest : Run Unit} {operation further : UpdateSet → Except Fault UpdateSet}

theorem realizes_pure : Realizes machine (pure ()) .ok :=
  fun _ span => ⟨by rintro _ ⟨⟩; exact ⟨span, rfl⟩, by rintro _ ⟨⟩⟩

theorem Realizes.bind (hrun : Realizes machine run operation)
    (hrest : Realizes machine rest further) :
    Realizes machine (run >>= fun _ => rest) (fun pending => operation pending >>= further) := by
  intro pending span
  obtain ⟨hok, herror⟩ := hrun pending span
  dsimp only
  cases houtcome : operation pending with
  | error fault =>
    refine ⟨by rintro _ ⟨⟩, ?_⟩
    rintro _ ⟨⟩
    rw [bind_apply, herror fault houtcome]
    rfl
  | ok next =>
    obtain ⟨last, hlast⟩ := hok next houtcome
    rw [bind_apply, hlast]
    exact hrest next last

theorem realizes_write (entry : Write) :
    Realizes machine (write setting entry.function entry.args entry.value entry.span)
      (Block.run machine.heap setting.digest (.write entry)) := by
  intro pending span
  refine ⟨fun next hnext => ⟨span, write_of_add_ok hnext⟩, fun fault hfault => ?_⟩
  have hwrite : write setting entry.function entry.args entry.value entry.span
      (machine.withPending pending span) = (.error (.fault fault), _) := write_of_add_error hfault
  rw [hwrite]

theorem realizes_leave (forked : Bool) : Realizes machine (leave UpdateSet.merge forked)
    (fun inner => settle (inner.merge machine.heap forked)) := by
  intro inner span
  dsimp only
  rcases hmerge : inner.merge machine.heap forked with ⟨merged, _ | fault⟩
  · refine ⟨?_, by rintro _ ⟨⟩⟩
    rintro _ ⟨⟩
    exact ⟨span, leave_of_merge_ok hmerge⟩
  · refine ⟨by rintro _ ⟨⟩, ?_⟩
    rintro _ ⟨⟩
    exact congrArg Prod.fst (leave_of_merge_error hmerge)

theorem realizes_inBlock (fork : UpdateSet → Bool × UpdateSet)
    (hrun : Realizes machine run operation) :
    Realizes machine (inBlock fork run) (fun pending => operation (fork pending).2 >>= fun inner =>
      settle (inner.merge machine.heap (fork pending).1)) := by
  intro pending span
  have hfork : inBlock fork run (machine.withPending pending span) =
      (run >>= fun _ => leave UpdateSet.merge (fork pending).1)
        (machine.withPending (fork pending).2 span) := rfl
  rw [hfork]
  exact hrun.bind (realizes_leave (fork pending).1) (fork pending).2 span

theorem Realizes.exec {stmt : Stmt}
    (h : Realizes machine (execAction setting fuel (exec setting fuel) stmt.span stmt.action)
      operation) : Realizes machine (exec setting (fuel + 1) stmt) operation :=
  fun pending _ => h pending stmt.span

end Realizes

theorem realizes_update {entry : Write} {args : List Expr} {value : Expr}
    (hargs : List.Forall₂ (Machine.Yields setting machine) args entry.args)
    (hvalue : Machine.Yields setting machine value entry.value) :
    Realizes machine (execAction setting (fuel + 1) (exec setting (fuel + 1)) entry.span
      (.update entry.function args value))
      (Block.run machine.heap setting.digest (.write entry)) := by
  intro pending span
  have hwrite : execAction setting (fuel + 1) (exec setting (fuel + 1)) entry.span
      (.update entry.function args value) (machine.withPending pending span) =
      write setting entry.function entry.args entry.value entry.span
        (machine.withPending pending span) := by
    rw [execAction, bind_apply, evalAll_of_yields hargs]
    show (eval setting (fuel + 1) value >>= _ : Run Unit) (machine.withPending pending span) = _
    rw [bind_apply, hvalue]
    rfl
  rw [hwrite]
  exact realizes_write entry pending span

open Block in
mutual

theorem realizes_exec : ∀ (block : Block) (fuel : Nat) (stmt : Stmt),
    block.Spelled setting machine stmt → block.height < fuel →
      Realizes machine (exec setting fuel stmt) (block.run machine.heap setting.digest)
  | .write entry, fuel + 2, _, hspelled, _ => by
      obtain ⟨args, value, rfl, hargs, hvalue⟩ := spelled_write_iff.mp hspelled
      exact (realizes_update hargs hvalue).exec
  | .par blocks, fuel + 1, _, hspelled, hfuel => by
      obtain ⟨span, body, rfl, hbody⟩ := spelled_par_iff.mp hspelled
      exact (realizes_inBlock _ (realizes_sequence blocks fuel body hbody
        (Nat.lt_of_succ_lt_succ hfuel))).exec
  | .seq blocks, fuel + 1, _, hspelled, hfuel => by
      obtain ⟨span, body, rfl, hbody⟩ := spelled_seq_iff.mp hspelled
      exact (realizes_inBlock _ (realizes_sequence blocks fuel body hbody
        (Nat.lt_of_succ_lt_succ hfuel))).exec

theorem realizes_sequence : ∀ (blocks : List Block) (fuel : Nat) (body : List Stmt),
    SpelledAll setting machine blocks body → heightAll blocks < fuel →
      Realizes machine (sequence (exec setting fuel) body)
        (runAll machine.heap setting.digest blocks)
  | [], _, [], _, _ => realizes_pure
  | block :: blocks, fuel, stmt :: body, hspelled, hfuel => by
      obtain ⟨hblock, hblocks⟩ := Nat.max_lt.mp hfuel
      exact (realizes_exec block fuel stmt hspelled.1 hblock).bind
        (realizes_sequence blocks fuel body hspelled.2 hblocks)

end

end Run

namespace Block

/-- **Blocks without layers.** On every update set, running a block gives the fault that evaluating
it gives, or leaves the same writes in the innermost layer and all others as they were. So does
executing a statement that spells it, with fuel for its nesting. -/
theorem run_eq_eval (block : Block) :
    (∀ (heap : ListHeap) (digest : Digest) (set : UpdateSet),
      (block.run heap digest set).map (fun next => (next.top.writes, next.below)) =
        (block.eval heap digest set.inParallel set.top.writes).map (·, set.below)) ∧
    ∀ (setting : Setting) (machine : Machine) (stmt : Stmt) (fuel : Nat),
      block.Spelled setting machine stmt → block.height < fuel →
      (∀ map, block.eval machine.heap setting.digest machine.pending.inParallel
          machine.pending.top.writes = .ok map →
        ∃ next, Run.exec setting fuel stmt machine = (.ok (), next) ∧
          next.pending.top.writes = map ∧ next.pending.below = machine.pending.below) ∧
      ∀ fault, block.eval machine.heap setting.digest machine.pending.inParallel
          machine.pending.top.writes = .error fault →
        (Run.exec setting fuel stmt machine).1 = .error (.fault fault) := by
  refine ⟨fun heap digest => agrees_run block, ?_⟩
  intro setting machine stmt fuel hspelled hfuel
  obtain ⟨hok, herror⟩ := Run.realizes_exec block fuel stmt hspelled hfuel machine.pending
    machine.span
  have hagrees : Agrees (block.run machine.heap setting.digest machine.pending) _ _ :=
    agrees_run block machine.pending
  obtain ⟨fault, hrun, heval⟩ | ⟨next, hrun, heval, hbelow⟩ := hagrees.cases
  · rw [heval]
    refine ⟨by rintro _ ⟨⟩, ?_⟩
    rintro _ ⟨⟩
    exact herror fault hrun
  · rw [heval]
    refine ⟨?_, by rintro _ ⟨⟩⟩
    rintro _ ⟨⟩
    obtain ⟨last, hlast⟩ := hok next hrun
    exact ⟨_, hlast, rfl, hbelow⟩

/-- A write to `f(1)` beside a sequential block with another one. -/
def overridden : Block :=
  .par [.write { function := ⟨1⟩, args := [.int 1], value := .int 1 },
    .seq [.write { function := ⟨1⟩, args := [.int 1], value := .int 2 }]]

/-- The sequential block overrides the write beside it, and the parallel block passes this on. -/
theorem run_eq_eval_overridden :
    ∃ next, Run.exec { spec := {} } 4
        { action := .par [{ action := .update ⟨1⟩ [.int 1] (.int 1) },
          { action := .seq [{ action := .update ⟨1⟩ [.int 1] (.int 2) }] }] }
        (.new { spec := {} }) = (.ok (), next) ∧
      next.pending.top.writes =
        ⟨[((⟨1⟩, [.word 1]), { function := ⟨1⟩, args := [.int 1], value := .int 2 })]⟩ ∧
      next.pending.below = [] := by
  refine ((run_eq_eval overridden).2 _ _ _ 4 ?_ (by decide)).1 _ rfl
  have hyields := Machine.yields_int { spec := {} } (.new { spec := {} })
  exact ⟨⟨rfl, rfl, .cons (hyields 1) .nil, hyields 1⟩,
    ⟨⟨rfl, rfl, .cons (hyields 1) .nil, hyields 2⟩, trivial⟩, trivial⟩

end Block

end AbstractStateMachine
