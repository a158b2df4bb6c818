import AbstractStateMachine.Proofs.Machine.Filing

/-!
# Stored lists are sealed

Before an update is stored its lists are made flat, so that each of them sees the whole of a buffer.
When all updates are stored an epoch begins, and from then on the buffer is too old to be appended to
in place. Hence a stored list is never changed, nor is another one put in its place, until an update
of its location is applied. Locations that come into being when they are read have symbols for
values; only their arguments may be lists that are not flat.
-/

namespace AbstractStateMachine

open ListHeap StoredLocation

namespace ListHeap

variable {heap later : ListHeap} {list : Handle} {roots : List Value}

/-- The list sees the whole of its buffer, which was made in an earlier epoch. -/
def Sealed (heap : ListHeap) (list : Handle) : Prop :=
  ∃ buffer epoch, heap.slot? list = some ⟨.base buffer buffer.size, epoch⟩ ∧ epoch < heap.epoch

/-- No list is of a later epoch than the current one. -/
def Dated (heap : ListHeap) : Prop :=
  ∀ list slot, heap.slot? list = some slot → slot.epoch ≤ heap.epoch

theorem WithinEpoch.dated (h : heap.WithinEpoch later) (hdated : heap.Dated) : later.Dated := by
  intro list slot hslot
  rw [h.epoch]
  rcases h.slot?_cases list with heq | ⟨-, node, hnode⟩
  · exact hdated list slot (heq ▸ hslot)
  · rw [hnode] at hslot
    cases hslot
    exact Nat.le_refl _

theorem Sealed.slot?_eq (h : heap.Sealed list) (hwithin : heap.WithinEpoch later) :
    later.slot? list = heap.slot? list := by
  obtain ⟨buffer, epoch, hslot, hold⟩ := h
  rw [hslot]
  exact hwithin.slot?_eq hslot hold

theorem Sealed.within (h : heap.Sealed list) (hwithin : heap.WithinEpoch later) :
    later.Sealed list := by
  obtain ⟨buffer, epoch, hslot, hold⟩ := h
  exact ⟨buffer, epoch, hwithin.slot?_eq hslot hold, hwithin.epoch ▸ hold⟩

theorem Sealed.isFlat (h : heap.Sealed list) : heap.isFlat list = true := by
  obtain ⟨buffer, epoch, hslot, -⟩ := h
  rw [ListHeap.isFlat, node?_eq_some_iff.mpr ⟨epoch, hslot⟩]
  exact beq_iff_eq.mpr rfl

theorem exists_slot?_of_isFlat (h : heap.isFlat list = true) :
    ∃ buffer epoch, heap.slot? list = some ⟨.base buffer buffer.size, epoch⟩ := by
  unfold isFlat at h
  split at h
  · next buffer length hnode =>
      obtain ⟨epoch, hslot⟩ := node?_eq_some_iff.mp hnode
      exact ⟨buffer, epoch, by rw [hslot, beq_iff_eq.mp h]⟩
  · cases h

theorem sealed_beginEpoch_reclaim (hdated : heap.Dated) (hflat : heap.isFlat list = true)
    (hlist : heap.Reaches roots list) : (heap.reclaim roots).beginEpoch.2.Sealed list := by
  obtain ⟨buffer, epoch, hslot⟩ := exists_slot?_of_isFlat hflat
  exact ⟨buffer, epoch, (slot?_reclaim_of_reaches hlist).trans hslot,
    Nat.lt_succ_of_le (hdated list _ hslot)⟩

theorem Dated.beginEpoch_reclaim (hdated : heap.Dated) (roots : List Value) :
    (heap.reclaim roots).beginEpoch.2.Dated := by
  intro list slot hslot
  have hslot : (heap.reclaim roots).slot? list = some slot := hslot
  by_cases hlist : heap.Reaches roots list
  · rw [slot?_reclaim_of_reaches hlist] at hslot
    exact Nat.le_succ_of_le (hdated list slot hslot)
  · rw [slot?_reclaim_of_not_reaches hlist] at hslot
    cases hslot

end ListHeap

/-! ### Stored lists -/

/-- The values of the location that were made flat when they were stored: in symbolic mode the
arguments may be those of a read. -/
def StoredLocation.flattened (symbolic : Bool) (location : StoredLocation) : List Value :=
  if symbolic then [location.value] else location.args ++ [location.value]

theorem StoredLocation.mem_flattened_iff {symbolic : Bool} {location : StoredLocation}
    {value : Value} : value ∈ location.flattened symbolic ↔
      value = location.value ∨ symbolic = false ∧ value ∈ location.args := by
  cases symbolic <;> simp [flattened, or_comm]

namespace Interpretation

variable {setting : Setting} {symbolic : Bool} {state next : Interpretation} {P Q : Handle → Prop}

def AllLists (symbolic : Bool) (P : Handle → Prop) (state : Interpretation) : Prop :=
  ∀ function key, ∀ location ∈ state.bucket function key,
    ∀ list, .list list ∈ location.flattened symbolic → P list

theorem AllLists.gains (h : state.AllLists setting.symbolic P)
    (hgains : state.Gains (setting.Symbolizes 0) next) : next.AllLists setting.symbolic P := by
  intro function key location hlocation list hlist
  obtain ⟨extra, hbucket, hextra⟩ := hgains function key
  rw [hbucket] at hlocation
  rcases List.mem_append.mp hlocation with hold | hnew
  · exact h function key location hold list hlist
  · obtain ⟨hsymbolic, -, id, -, hvalue⟩ := hextra location hnew
    rcases mem_flattened_iff.mp hlist with heq | ⟨hconcrete, -⟩
    · cases heq.trans hvalue
    · cases hsymbolic.symm.trans hconcrete

theorem AllLists.set (h : state.AllLists symbolic P) {heap : ListHeap} {function : FunctionId}
    {key : ArgKey} {args : List Value} {value : Value}
    (hnew : ∀ list, .list list ∈ args ++ [value] → P list) :
    (state.set heap function key args value).AllLists symbolic P := by
  intro other probe location hlocation list hlist
  have hvalue : .list list = value → P list := fun heq =>
    hnew list (List.mem_append_right _ (List.mem_singleton.mpr heq))
  rw [bucket_set] at hlocation
  split at hlocation
  · rcases Bucket.mem_set_cases hlocation with rfl | hold | ⟨old, hold, -, rfl⟩
    · rcases mem_flattened_iff.mp hlist with heq | ⟨-, harg⟩
      · exact hvalue heq
      · exact hnew list (List.mem_append_left _ harg)
    · exact h _ _ location hold list hlist
    · -- The location has kept its arguments.
      rcases mem_flattened_iff.mp hlist with heq | harg
      · exact hvalue heq
      · exact h _ _ old hold list (mem_flattened_iff.mpr (.inr harg))
  · exact h other probe location hlocation list hlist

end Interpretation

/-! ### Commits -/

structure SealsLists (setting : Setting) (heap : ListHeap) (state : Interpretation) : Prop where
  dated : heap.Dated
  lists : state.AllLists setting.symbolic heap.Sealed

/-- The location is there as before, and its lists have not changed. -/
structure StoredLocation.Stays (setting : Setting) (function : FunctionId) (key : ArgKey)
    (before heap : ListHeap) (state : Interpretation) (location : StoredLocation) : Prop where
  mem_bucket : location ∈ state.bucket function key
  slot?_eq : ∀ list, .list list ∈ location.flattened setting.symbolic →
    heap.slot? list = before.slot? list

theorem StoredLocation.Stays.trans {setting : Setting} {function : FunctionId} {key : ArgKey}
    {location : StoredLocation} {before heap later : ListHeap} {state next : Interpretation}
    (h : location.Stays setting function key before heap state)
    (h' : location.Stays setting function key heap later next) :
    location.Stays setting function key before later next :=
  ⟨h'.mem_bucket, fun list hlist => (h'.slot?_eq list hlist).trans (h.slot?_eq list hlist)⟩

namespace Machine

variable {setting : Setting} {machine : Machine} {function : FunctionId} {key : ArgKey}
  {location : StoredLocation} {list : Handle}

theorem mem_values_of_flattened (hlocation : location ∈ machine.state.bucket function key)
    {value : Value} (hvalue : value ∈ location.flattened setting.symbolic) :
    value ∈ machine.state.values := by
  refine Interpretation.mem_values_of_mem_bucket hlocation ?_
  rcases mem_flattened_iff.mp hvalue with heq | ⟨-, harg⟩
  · exact .inr heq
  · exact .inl harg

theorem reaches_of_flattened (hlocation : location ∈ machine.state.bucket function key)
    (hlist : .list list ∈ location.flattened setting.symbolic) :
    machine.heap.Reaches machine.roots list :=
  .root (mem_handles.mpr (List.mem_append_left _ (mem_values_of_flattened hlocation hlist)))

theorem placing_isFlat (setting : Setting) : Placing setting fun _ heap state =>
    state.AllLists setting.symbolic fun list => heap.isFlat list = true := by
  intro update rest machine next h hfits hplaces hflat
  obtain ⟨args, value, -, hnew, -, hstate⟩ := hplaces.stored
  rw [hstate]
  refine Interpretation.AllLists.set (fun function key location hlocation list hlist => ?_) hnew
  have hlive := supports_iff.mp (Standard.acceptsAll_plain_iff.mp h.grounded.state) list
    (mem_values_of_flattened hlocation hlist)
  rw [isFlat_eq_of_slot?_eq (hplaces.slot?_eq list hlive)]
  exact hflat function key location hlocation list hlist

section Commit

variable (h : machine.Filed setting) (hseals : SealsLists setting machine.heap machine.state)
  (hunbound : machine.Unbound) (endOfStep : Bool)
include h hseals hunbound

theorem Filed.sealsLists_commit :
    let next := (backend setting).commit endOfStep machine
    SealsLists setting next.heap next.state := by
  have hflat : machine.state.AllLists setting.symbolic fun list => machine.heap.isFlat list = true :=
    fun _ _ _ hlocation _ hlist => (hseals.lists _ _ _ hlocation _ hlist).isFlat
  obtain ⟨ready, hcommit, -, hwithin, hflat, -⟩ :=
    h.exists_ready (placing_isFlat setting) hflat hunbound endOfStep
  have hdated := hwithin.dated hseals.dated
  dsimp only
  rw [hcommit]
  refine ⟨hdated.beginEpoch_reclaim _, fun function key location hlocation list hlist => ?_⟩
  exact sealed_beginEpoch_reclaim hdated (hflat function key location hlocation list hlist)
    (reaches_of_flattened hlocation hlist)

theorem Filed.stays_commit (hlocation : location ∈ machine.state.bucket function key)
    (hothers : ∀ update ∈ machine.pending.updates,
      ¬ update.IsFor machine.heap function location.args) :
    let next := (backend setting).commit endOfStep machine
    location.Stays setting function key machine.heap next.heap next.state := by
  obtain ⟨ready, hcommit, -, hwithin, ⟨hmem, -⟩, -⟩ := h.exists_ready
    (placing_mem_bucket function key location) ⟨hlocation, hothers⟩ hunbound endOfStep
  dsimp only
  rw [hcommit]
  refine ⟨hmem, fun list hlist => ?_⟩
  calc ready.reclaimLists.heap.slot? list
      = ready.heap.slot? list := slot?_reclaim_of_reaches (reaches_of_flattened hmem hlist)
    _ = machine.heap.slot? list := (hseals.lists _ _ _ hlocation _ hlist).slot?_eq hwithin

end Commit

end Machine

/-! ### Calls -/

section Later

variable {setting : Setting} {w w' : HeapWorld × Interpretation}
  (hlater : (Run.tabling setting).Later w w') (h : SealsLists setting w.1.1 w.2)
include hlater h

theorem SealsLists.later : SealsLists setting w'.1.1 w'.2 where
  dated := hlater.1.within.dated h.dated
  lists _ _ _ hlocation _ hlist :=
    (h.lists.gains hlater.2 _ _ _ hlocation _ hlist).within hlater.1.within

theorem SealsLists.stays {function : FunctionId} {key : ArgKey} {location : StoredLocation}
    (hlocation : location ∈ w.2.bucket function key) :
    location.Stays setting function key w.1.1 w'.1.1 w'.2 where
  mem_bucket := by
    obtain ⟨extra, hbucket, -⟩ := hlater.2 function key
    rw [hbucket]
    exact List.mem_append_left _ hlocation
  slot?_eq list hlist := (h.lists _ _ _ hlocation list hlist).slot?_eq hlater.1.within

end Later

/-- Stored lists are sealed, and every location that was observed is there as it was, unless an
update of it has been applied since. -/
structure Conserved (setting : Setting) (log : List Event) (heap : ListHeap)
    (state : Interpretation) : Prop extends SealsLists setting heap state where
  wellFormed : heap.WellFormed
  stays : ∀ since event before, log = since ++ event :: before →
    ∀ function key, ∀ location ∈ event.machine.state.bucket function key,
      (∀ other ∈ since ++ [event], other.Spares function location.args) →
        location.Stays setting function key event.machine.heap heap state

/-- It has been so at every moment that was observed. -/
structure AlwaysConserved (setting : Setting) (log : List Event) (w : HeapWorld × Interpretation) :
    Prop where
  present : Conserved setting log w.1.1 w.2
  past : ∀ since event before, log = since ++ event :: before →
    Conserved setting before event.machine.heap event.machine.state

namespace AlwaysConserved

variable {setting : Setting} {log : List Event} {w w' : HeapWorld × Interpretation}
  (h : AlwaysConserved setting log w)
include h

theorem later (hlater : (Run.tabling setting).Later w w') : AlwaysConserved setting log w' where
  present :=
    { toSealsLists := h.present.toSealsLists.later hlater
      wellFormed := w'.1.2
      stays := fun since event before hlog function key location hlocation hspares =>
        have hstays := h.present.stays since event before hlog function key location hlocation hspares
        hstays.trans (h.present.toSealsLists.stays hlater hstays.mem_bucket) }
  past := h.past

theorem cons (event : Event) (hheap : event.machine.heap = w.1.1)
    (hstate : event.machine.state = w.2)
    (hseals : SealsLists setting w'.1.1 w'.2)
    (hstays : ∀ function key, ∀ location ∈ w.2.bucket function key,
      event.Spares function location.args →
        location.Stays setting function key w.1.1 w'.1.1 w'.2) :
    AlwaysConserved setting (event :: log) w' where
  present := by
    refine ⟨hseals, w'.1.2, fun since other before hlog function key location hlocation hspares => ?_⟩
    rcases List.cons_eq_append_iff.mp hlog with ⟨rfl, heq⟩ | ⟨rest, rfl, hrest⟩
    · cases heq
      rw [hheap]
      exact hstays _ _ _ (hstate ▸ hlocation) (hspares _ List.mem_cons_self)
    · obtain ⟨hspares, hbefore⟩ := List.forall_mem_cons.mp hspares
      have hold := h.present.stays _ _ _ hrest function key location hlocation hbefore
      exact hold.trans (hstays _ _ _ hold.mem_bucket hspares)
  past since other before hlog := by
    rcases List.cons_eq_append_iff.mp hlog with ⟨rfl, heq⟩ | ⟨rest, rfl, hrest⟩
    · cases heq
      rw [hheap, hstate]
      exact h.present
    · exact h.past _ _ _ hrest

theorem cons_later (event : Event) (hmachine : (Run.tabling setting).Holds w event.machine)
    (hlater : (Run.tabling setting).Later w w') : AlwaysConserved setting (event :: log) w' :=
  h.cons event hmachine.1.1 hmachine.2 (h.present.toSealsLists.later hlater) fun _ _ _ hlocation _ =>
    h.present.toSealsLists.stays hlater hlocation

end AlwaysConserved

theorem logInvariant_alwaysConserved (setting : Setting) :
    LogInvariant setting (Run.tabling setting) (AlwaysConserved setting) where
  maintained := Run.callsMaintained_tabling setting
  later hlater h := h.later hlater
  read hmachine _ h _ hlater _ _ := h.cons_later (.read _ _ _ _) hmachine hlater
  gave hmachine _ h := h.cons_later (.gave _ _) hmachine ((Run.tabling setting).later_refl _)
  commit endOfStep hmachine hunbound h := by
    obtain ⟨w', hheap, hstate, hw'⟩ := Run.tables_commit hmachine hunbound endOfStep
    obtain ⟨⟨hmheap, hfiled⟩, hmstate⟩ := hmachine
    have hseals := h.present.toSealsLists
    rw [← hmheap, ← hmstate] at hseals
    refine ⟨w', hw', h.cons (.applied _) hmheap hmstate ?_ ?_⟩
    · rw [hheap, hstate]
      exact hfiled.sealsLists_commit hseals hunbound endOfStep
    · intro function key location hlocation hspares
      rw [hheap, hstate, ← hmheap]
      exact hfiled.stays_commit hseals hunbound endOfStep (hmstate ▸ hlocation) hspares

/-- A moment that the observer has been at: now, or an entry of the log with what was known then. -/
def Watch.Passed (watch moment : Watch) : Prop :=
  moment = watch ∨ ∃ since event, watch.log = since ++ event :: moment.log ∧
    moment.machine = event.machine

/-- A list that is left alone: no append changes its buffer, and making it flat gives it back. -/
structure Machine.LeavesAlone (machine : Machine) (list : Handle) : Prop where
  isSealed : machine.heap.Sealed list
  slot?_append : ∀ lease other value, machine.heap.Live other → machine.heap.Supports [value] →
    (machine.heap.append lease other value).2.slot? list = machine.heap.slot? list
  flatten_eq : machine.heap.flatten list = (list, machine.heap)

theorem Machine.leavesAlone {machine : Machine} {list : Handle} (hheap : machine.heap.WellFormed)
    (h : machine.heap.Sealed list) : machine.LeavesAlone list where
  isSealed := h
  slot?_append lease _ _ hother hvalue :=
    h.slot?_eq (makes_append hheap lease hvalue (hheap.denotes_toList hother)).within
  flatten_eq := if_pos h.isFlat

theorem sealsLists_new (setting : Setting) :
    SealsLists setting (Machine.new setting).heap (Machine.new setting).state where
  dated _ _ hslot := by cases hslot
  lists function key location hlocation := by
    have hempty : (Machine.new setting).state.bucket function key = [] :=
      Interpretation.bucket_empty setting.spec function key
    rw [hempty] at hlocation
    cases hlocation

/-- **Stored lists are flat and never change.** Observe any calls, successful or not. At every moment
each list that is stored as a value, and in concrete mode each one that is stored as an argument,
sees the whole of its buffer, which is of an earlier epoch; no append changes the buffer, and making
the list flat gives back the same list. A location that was stored at an earlier moment is still
stored with the same lists, and these are as they were, unless an update of it was applied since. -/
theorem storedLists_sealed_afterCalls (setting : Setting) (calls : List Call) :
    let watch := Watch.afterCalls setting calls
    watch.machine = Machine.afterCalls setting calls ∧
      ∀ moment, watch.Passed moment →
        moment.machine.state.AllLists setting.symbolic moment.machine.LeavesAlone ∧
        ∀ since event before, moment.log = since ++ event :: before →
          ∀ function key, ∀ location ∈ event.machine.state.bucket function key,
            (∀ other ∈ since ++ [event], other.Spares function location.args) →
              location.Stays setting function key event.machine.heap moment.machine.heap
                moment.machine.state := by
  intro watch
  have hnew := Machine.filed_new setting
  have hstart : AlwaysConserved setting [] (⟨_, hnew.grounded.wellFormed⟩, _) :=
    ⟨⟨sealsLists_new setting, hnew.grounded.wellFormed, by simp⟩, by simp⟩
  obtain ⟨hmachine, w, ⟨⟨hheap, -⟩, hstate⟩, hconserved⟩ :=
    (logInvariant_alwaysConserved setting).afterCalls ⟨⟨rfl, hnew⟩, rfl⟩ hstart calls
  refine ⟨hmachine, fun moment hpassed => ?_⟩
  have hmoment : Conserved setting moment.log moment.machine.heap moment.machine.state := by
    rcases hpassed with rfl | ⟨since, event, hlog, heq⟩
    · rw [hheap, hstate]
      exact hconserved.present
    · rw [heq]
      exact hconserved.past since event moment.log hlog
  exact ⟨fun _ _ _ hlocation _ hlist => Machine.leavesAlone hmoment.wellFormed
    (hmoment.lists _ _ _ hlocation _ hlist), hmoment.stays⟩

/-- The rule does nothing, so a step applies what was executed before it. -/
def idleRule : Setting where
  spec :=
    { functions := #[{ name := "program", result := .rule },
        { name := "kept", result := .list .int }, { name := "grown", result := .list .int }]
      rules := #[{ name := "main", body := some { action := .skip } }]
      start := some ⟨0⟩ }

/-- A list is stored in one step and appended to before the next one, which stores the longer list.
When it was read for that it was the list that it still is. -/
theorem storedLists_sealed_afterCalls_idleRule :
    let keep : Stmt := { action := .update ⟨1⟩ [] (.list [.int 1, .int 2]) }
    let grow : Stmt := { action := .update ⟨2⟩ [] (.builtin .app [.read ⟨1⟩ [], .int 3]) }
    let watch := Watch.afterCalls idleRule
      [.init 9, .exec 9 keep, .step 9, .exec 9 grow, .step 9]
    watch.machine.state.bucket ⟨2⟩ [] = [⟨[], .list ⟨1⟩⟩] ∧
      watch.machine.heap.toList ⟨1⟩ = [.int 1, .int 2, .int 3] ∧
      ∃ since event before, watch.log = since ++ event :: before ∧
        event.machine.state.bucket ⟨1⟩ [] = [⟨[], .list ⟨0⟩⟩] ∧
        (∀ other ∈ since ++ [event], other.Spares ⟨1⟩ []) ∧
        Stays idleRule ⟨1⟩ [] event.machine.heap watch.machine.heap
          watch.machine.state ⟨[], .list ⟨0⟩⟩ := by
  intro keep grow watch
  let event := watch.log.get ⟨4, by decide +kernel⟩
  have hlog : watch.log = watch.log.take 4 ++ event :: watch.log.drop 5 := by simp [event]
  have hbucket : event.machine.state.bucket ⟨1⟩ [] = [⟨[], .list ⟨0⟩⟩] := by decide +kernel
  have hspares : ∀ other ∈ watch.log.take 4 ++ [event], other.Spares ⟨1⟩ [] := by decide +kernel
  refine ⟨by decide +kernel, by decide +kernel, _, event, _, hlog, hbucket, hspares, ?_⟩
  exact ((storedLists_sealed_afterCalls idleRule _).2 watch (.inl rfl)).2 _ _ _ hlog _ _ _
    (hbucket ▸ List.mem_singleton.mpr rfl) hspares

end AbstractStateMachine
