import AbstractStateMachine.Proofs.OrderedMap
import AbstractStateMachine.Symbolic.Recorder
import Mathlib.Data.List.Range

/-!
# Reports of tracked locations

A trace reports the values of locations at timesteps. A recorder is up to date with a location if it
has reported it once for every timestep from some first one up to the present, there with the value
on record, or not at all if it does not track it. Locations that come into being and new timesteps
keep it so, provided that no other location is written like this one.
-/

namespace AbstractStateMachine

open OrderedMap

/-- What a report is about: a location as the trace writes it. -/
structure Subject where
  function : String
  args : List Term
  deriving DecidableEq, Repr

def TrackedLocation.subject (location : TrackedLocation) : Subject :=
  ⟨location.function, location.args⟩

def TraceEntry.report? (subject : Subject) (time : Timestep) : TraceEntry → Option Term
  | .state _ function reported args value =>
    if (⟨function, args⟩ : Subject) = subject ∧ reported = time then some value else none
  | _ => none

namespace Recorder

def reports (recorder : Recorder) (subject : Subject) (time : Timestep) : List Term :=
  recorder.trace.toList.filterMap (TraceEntry.report? subject time)

variable {recorder next : Recorder} {key other : LocationKey} {location : TrackedLocation}
  {subject : Subject} {time : Timestep} {value : Term} {last : Nat} {touched : List LocationKey}

/-! ### What the operations report -/

theorem reports_push (recorder : Recorder) (entry : TraceEntry) (subject : Subject)
    (time : Timestep) :
    reports { recorder with trace := recorder.trace.push entry } subject time =
      recorder.reports subject time ++ (entry.report? subject time).toList := by
  unfold reports
  rw [Array.toList_push, List.filterMap_append]
  cases hreport : entry.report? subject time <;> simp [hreport]

theorem reports_assert (recorder : Recorder) (entry : Nat → TraceEntry) (subject : Subject)
    (time : Timestep) :
    (recorder.assert entry).reports subject time = recorder.reports subject time ++
      ((entry (recorder.lastAssertion + 1)).report? subject time).toList :=
  reports_push { recorder with lastAssertion := recorder.lastAssertion + 1 } _ subject time

theorem reports_fresh : recorder.fresh.2.reports subject time = recorder.reports subject time :=
  (reports_push { recorder with lastSymbol := recorder.lastSymbol + 1 } _ subject time).trans
    (List.append_nil _)

theorem reports_define (op : DefinitionOp) (lhs rhs : Term) :
    (recorder.define op lhs rhs).2.reports subject time = recorder.reports subject time :=
  (reports_assert recorder.fresh.2 _ subject time).trans ((List.append_nil _).trans reports_fresh)

theorem reports_assume (cond : Condition) (lhs rhs : Term) :
    (recorder.assume cond lhs rhs).reports subject time = recorder.reports subject time :=
  (reports_assert recorder (fun id => .condition id lhs cond.op rhs) subject time).trans
    (List.append_nil _)

theorem reports_reportAt (recorder : Recorder) (location : TrackedLocation)
    (reported : Timestep) :
    (recorder.reportAt location reported).reports subject time = recorder.reports subject time ++
      if location.subject = subject ∧ reported = time then [location.value] else [] := by
  rw [reportAt, reports_assert, TraceEntry.report?]
  refine congrArg _ ?_
  unfold TrackedLocation.subject
  split <;> rfl

theorem reports_update : (recorder.update key location).reports subject time =
    recorder.reports subject time ++
      if location.subject = subject ∧ .at recorder.timestamp = time then [location.value]
      else [] :=
  reports_reportAt recorder location (.at recorder.timestamp)

theorem reports_foldl_range (count : Nat) (recorder : Recorder) :
    ((List.range count).foldl (fun recorder time => recorder.reportAt location (.at time))
      recorder).reports subject time = recorder.reports subject time ++
        if location.subject = subject ∧ ∃ past < count, .at past = time then [location.value]
        else [] := by
  induction count with
  | zero => simp
  | succ count ih =>
    rw [List.range_succ, List.foldl_append, List.foldl_cons, List.foldl_nil, reports_reportAt, ih,
      List.append_assoc]
    refine congrArg _ ?_
    by_cases hsubject : location.subject = subject
    · by_cases htime : .at count = time
      · subst htime
        simp [hsubject]
      · have hpast : (∃ past < count + 1, .at past = time) ↔ ∃ past < count, .at past = time := by
          refine ⟨fun ⟨past, hpast, hat⟩ => ⟨past, ?_, hat⟩, fun ⟨past, hpast, hat⟩ =>
            ⟨past, Nat.lt_succ_of_lt hpast, hat⟩⟩
          exact Nat.lt_of_le_of_ne (Nat.lt_succ_iff.mp hpast) fun heq => htime (heq ▸ hat)
        simp only [hsubject, htime, hpast, and_false, if_false, List.append_nil]
    · simp [hsubject]

theorem reports_create : (recorder.create key location).reports subject time =
    recorder.reports subject time ++
      if location.subject = subject ∧ ∃ past < recorder.timestamp + 1, .at past = time then
        [location.value]
      else [] :=
  reports_foldl_range (recorder.timestamp + 1) recorder

theorem reports_repeatOthers (touched : List LocationKey) :
    (recorder.repeatOthers touched).reports subject time = recorder.reports subject time ++
      if .at recorder.timestamp = time then
        (recorder.tracked.entries.filter fun entry =>
          entry.1 ∉ touched ∧ entry.2.subject = subject).map (·.2.value)
      else [] := by
  unfold repeatOthers
  generalize recorder.tracked.entries = entries
  induction entries generalizing recorder with
  | nil => simp
  | cons entry rest ih =>
    obtain ⟨key, location⟩ := entry
    rw [List.foldl_cons]
    by_cases htouched : key ∈ touched
    · simp only [if_pos htouched, ih]
      simp [htouched]
    · have htimestamp : (recorder.reportAt location (.at recorder.timestamp)).timestamp =
          recorder.timestamp := rfl
      simp only [if_neg htouched, ih, reports_reportAt, htimestamp, List.append_assoc]
      refine congrArg _ ?_
      by_cases hsubject : location.subject = subject <;>
        by_cases htime : .at recorder.timestamp = time <;> simp [hsubject, htime, htouched]

theorem reports_finish : recorder.finish.reports subject time = recorder.reports subject time ++
    if .final = time then
      (recorder.tracked.entries.filter fun entry => entry.2.subject = subject).map (·.2.value)
    else [] := by
  unfold finish values
  generalize recorder.tracked.entries = entries
  induction entries generalizing recorder with
  | nil => simp
  | cons entry rest ih =>
    rw [List.map_cons, List.foldl_cons, ih, reports_reportAt, List.append_assoc]
    refine congrArg _ ?_
    by_cases hsubject : entry.2.subject = subject <;> by_cases htime : .final = time <;>
      simp [hsubject, htime]

/-! ### What the operations track -/

structure SameTracks (recorder next : Recorder) : Prop where
  tracked : next.tracked = recorder.tracked
  timestamp : next.timestamp = recorder.timestamp

theorem sameTracks_foldl {α : Type} (record : Recorder → α → Recorder)
    (hrecord : ∀ recorder entry, SameTracks recorder (record recorder entry)) (entries : List α) :
    SameTracks recorder (entries.foldl record recorder) := by
  induction entries generalizing recorder with
  | nil => exact ⟨rfl, rfl⟩
  | cons entry rest ih =>
    exact ⟨ih.tracked.trans (hrecord recorder entry).tracked,
      ih.timestamp.trans (hrecord recorder entry).timestamp⟩

theorem tracked_create : (recorder.create key location).tracked =
    recorder.tracked.insert key location :=
  congrArg (·.insert key location) (sameTracks_foldl
    (fun recorder time => recorder.reportAt location (.at time)) (fun _ _ => ⟨rfl, rfl⟩)
    (List.range (recorder.timestamp + 1))).tracked

theorem timestamp_create : (recorder.create key location).timestamp = recorder.timestamp :=
  (sameTracks_foldl
    (fun recorder time => recorder.reportAt location (.at time)) (fun _ _ => ⟨rfl, rfl⟩)
    (List.range (recorder.timestamp + 1))).timestamp

theorem sameTracks_repeatOthers (recorder : Recorder) (touched : List LocationKey) :
    SameTracks recorder (recorder.repeatOthers touched) := by
  refine sameTracks_foldl _ (fun recorder entry => ?_) recorder.tracked.entries
  dsimp only
  split <;> exact ⟨rfl, rfl⟩

theorem sameTracks_finish : SameTracks recorder recorder.finish :=
  sameTracks_foldl (fun recorder location => recorder.reportAt location .final)
    (fun _ _ => ⟨rfl, rfl⟩) recorder.tracked.values

/-! ### One report for each timestep -/

/-- There is one report for each timestep from some first one up to `last`, none for any other, and
the one for `last` has the value. -/
def ReportedUntil (recorder : Recorder) (subject : Subject) (last : Nat) (value : Term) : Prop :=
  ∃ first ≤ last,
    (∀ time, (recorder.reports subject (.at time)).length =
      if first ≤ time ∧ time ≤ last then 1 else 0) ∧
    recorder.reports subject (.at last) = [value]

theorem ReportedUntil.congr (h : recorder.ReportedUntil subject last value)
    (hreports : ∀ time, next.reports subject (.at time) = recorder.reports subject (.at time)) :
    next.ReportedUntil subject last value := by
  unfold ReportedUntil
  simp only [hreports]
  exact h

theorem ReportedUntil.length_le_one (h : recorder.ReportedUntil subject last value) (time : Nat) :
    (recorder.reports subject (.at time)).length ≤ 1 := by
  obtain ⟨first, -, hlength, -⟩ := h
  rw [hlength]
  split <;> omega

theorem reportedUntil_of_first
    (hreports : ∀ time, next.reports subject (.at time) = if time = last then [value] else []) :
    next.ReportedUntil subject last value := by
  refine ⟨last, Nat.le_refl last, fun time => ?_, by rw [hreports, if_pos rfl]⟩
  rw [hreports]
  by_cases htime : time = last
  · simp [htime]
  · rw [if_neg htime, if_neg (by omega)]
    rfl

theorem ReportedUntil.extend {old : Term} (h : recorder.ReportedUntil subject last old)
    (hreports : ∀ time, next.reports subject (.at time) =
      recorder.reports subject (.at time) ++ if time = last + 1 then [value] else []) :
    next.ReportedUntil subject (last + 1) value := by
  obtain ⟨first, hfirst, hlength, -⟩ := h
  have hnone : recorder.reports subject (.at (last + 1)) = [] := by
    rw [← List.length_eq_zero_iff, hlength, if_neg (by omega)]
  refine ⟨first, by omega, fun time => ?_, by rw [hreports, hnone, if_pos rfl]; rfl⟩
  rw [hreports, List.length_append, hlength]
  by_cases htime : time = last + 1
  · rw [if_pos htime, if_neg (by omega), if_pos (by omega)]
    rfl
  · rw [if_neg htime, List.length_nil, Nat.add_zero]
    congr 1
    exact propext ⟨fun h => ⟨h.1, by omega⟩, fun h => ⟨h.1, by omega⟩⟩

/-- What is tracked under `key`, and nothing else that is tracked, is written like `subject`. -/
def Owns (recorder : Recorder) (key : LocationKey) (subject : Subject) : Prop :=
  ∀ other location, recorder.tracked.get? other = some location →
    (location.subject = subject ↔ other = key)

/-- The location under `key` is reported up to the timestep `last`. -/
structure UpToDate (recorder : Recorder) (key : LocationKey) (subject : Subject) (last : Nat) :
    Prop where
  untracked : recorder.tracked.get? key = none → ∀ time, recorder.reports subject (.at time) = []
  tracked : ∀ location, recorder.tracked.get? key = some location →
    recorder.ReportedUntil subject last location.value

theorem UpToDate.congr (h : recorder.UpToDate key subject last)
    (htracked : next.tracked.get? key = recorder.tracked.get? key)
    (hreports : ∀ time, next.reports subject (.at time) = recorder.reports subject (.at time)) :
    next.UpToDate key subject last where
  untracked hnone time := (hreports time).trans (h.untracked (htracked ▸ hnone) time)
  tracked location hlocation := (h.tracked location (htracked ▸ hlocation)).congr hreports

theorem UpToDate.track_other (h : recorder.UpToDate key subject last) (hother : other ≠ key)
    (htracked : next.tracked = recorder.tracked.insert other location)
    (hreports : ∀ time, next.reports subject (.at time) = recorder.reports subject (.at time)) :
    next.UpToDate key subject last := by
  refine h.congr ?_ hreports
  rw [htracked, get?_insert_of_ne _ _ (Ne.symm hother)]

theorem upToDate_track_self (htracked : next.tracked = recorder.tracked.insert key location)
    (hreported : next.ReportedUntil subject last location.value) :
    next.UpToDate key subject last where
  untracked hnone := by
    rw [htracked, get?_insert_self] at hnone
    cases hnone
  tracked found hfound := by
    rw [htracked, get?_insert_self] at hfound
    cases hfound
    exact hreported

theorem UpToDate.create (h : recorder.UpToDate key subject recorder.timestamp)
    (hnew : other = key → recorder.tracked.get? key = none)
    (hsubject : location.subject = subject ↔ other = key) :
    (recorder.create other location).UpToDate key subject recorder.timestamp := by
  by_cases hother : other = key
  · subst hother
    refine upToDate_track_self tracked_create ⟨0, Nat.zero_le _, fun time => ?_, ?_⟩ <;>
      rw [reports_create, h.untracked (hnew rfl)]
    · simp only [hsubject.mpr rfl, Timestep.at.injEq, true_and, exists_eq_right, Nat.lt_succ_iff]
      by_cases htime : time ≤ recorder.timestamp <;> simp [htime]
    · simp [hsubject.mpr rfl]
  · refine h.track_other hother tracked_create fun time => ?_
    rw [reports_create, if_neg fun hwritten => hother (hsubject.mp hwritten.1), List.append_nil]

theorem UpToDate.update_other (h : recorder.UpToDate key subject last) (hother : other ≠ key)
    (hsubject : location.subject ≠ subject) :
    (recorder.update other location).UpToDate key subject last := by
  refine h.track_other hother rfl fun time => ?_
  rw [reports_update, if_neg fun hwritten => hsubject hwritten.1, List.append_nil]

/-- An update is the one report for the timestep, if the location is new or this is the next
timestep for it. -/
theorem UpToDate.update_self (h : recorder.UpToDate key subject last)
    (hsubject : location.subject = subject)
    (hdue : recorder.tracked.get? key = none ∨ recorder.timestamp = last + 1) :
    (recorder.update key location).UpToDate key subject recorder.timestamp := by
  refine upToDate_track_self rfl ?_
  have hreports : ∀ time, (recorder.update key location).reports subject (.at time) =
      recorder.reports subject (.at time) ++
        if time = recorder.timestamp then [location.value] else [] := by
    intro time
    rw [reports_update]
    simp only [hsubject, true_and, Timestep.at.injEq, eq_comm]
  cases hfound : recorder.tracked.get? key with
  | none =>
    refine reportedUntil_of_first fun time => ?_
    rw [hreports, h.untracked hfound, List.nil_append]
  | some old =>
    have hnext : recorder.timestamp = last + 1 := hdue.resolve_left (by simp [hfound])
    rw [hnext] at hreports ⊢
    exact (h.tracked old hfound).extend hreports

theorem map_filter_tracked (hnodup : recorder.tracked.keys.Nodup)
    (howns : recorder.Owns key subject) (htouched : key ∉ touched) :
    (recorder.tracked.entries.filter fun entry =>
      entry.1 ∉ touched ∧ entry.2.subject = subject).map (·.2.value) =
        ((recorder.tracked.get? key).map TrackedLocation.value).toList := by
  rw [filter_entries_eq key hnodup]
  · cases recorder.tracked.get? key <;> rfl
  · intro entry hentry
    rw [decide_eq_true_iff, howns _ _ (get?_of_mem_entries hnodup hentry)]
    exact ⟨And.right, fun heq => ⟨heq ▸ htouched, heq⟩⟩

/-- At the end of a step the locations that it did not touch are reported. -/
theorem UpToDate.repeatOthers_untouched (h : recorder.UpToDate key subject last)
    (hnodup : recorder.tracked.keys.Nodup) (howns : recorder.Owns key subject)
    (htouched : key ∉ touched) (hnext : recorder.timestamp = last + 1) :
    (recorder.repeatOthers touched).UpToDate key subject (last + 1) := by
  have htracked := (sameTracks_repeatOthers recorder touched).tracked
  have hreports : ∀ time, (recorder.repeatOthers touched).reports subject (.at time) =
      recorder.reports subject (.at time) ++ if time = last + 1 then
        ((recorder.tracked.get? key).map TrackedLocation.value).toList else [] := by
    intro time
    rw [reports_repeatOthers, map_filter_tracked hnodup howns htouched, hnext]
    simp only [Timestep.at.injEq, eq_comm]
  constructor
  · intro hnone time
    rw [htracked] at hnone
    rw [hreports, hnone, h.untracked hnone]
    exact ite_self _
  · intro location hlocation
    rw [htracked] at hlocation
    refine (h.tracked location hlocation).extend fun time => ?_
    rw [hreports, hlocation]
    rfl

theorem UpToDate.repeatOthers_touched (h : recorder.UpToDate key subject last)
    (hnodup : recorder.tracked.keys.Nodup) (howns : recorder.Owns key subject)
    (htouched : key ∈ touched) : (recorder.repeatOthers touched).UpToDate key subject last := by
  refine h.congr (by rw [(sameTracks_repeatOthers recorder touched).tracked]) fun time => ?_
  have hnone : (recorder.tracked.entries.filter fun entry =>
      entry.1 ∉ touched ∧ entry.2.subject = subject) = [] := by
    refine List.filter_eq_nil_iff.mpr fun entry hentry hselected => ?_
    obtain ⟨hother, hsubject⟩ := of_decide_eq_true hselected
    have hkey := (howns _ _ (get?_of_mem_entries hnodup hentry)).mp hsubject
    exact hother (hkey ▸ htouched)
  rw [reports_repeatOthers, hnone]
  simp

theorem reports_finish_final (hnodup : recorder.tracked.keys.Nodup)
    (howns : recorder.Owns key subject) :
    recorder.finish.reports subject .final = recorder.reports subject .final ++
      ((recorder.tracked.get? key).map TrackedLocation.value).toList := by
  have hvalues := map_filter_tracked hnodup howns (List.not_mem_nil (a := key))
  simp only [List.not_mem_nil, not_false_eq_true, true_and] at hvalues
  rw [reports_finish, if_pos rfl, hvalues]

end Recorder

end AbstractStateMachine
