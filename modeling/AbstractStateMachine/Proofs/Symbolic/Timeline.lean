import AbstractStateMachine.Proofs.Symbolic.Reports

/-!
# The timeline of a recorder

A recorder is first given the initial values of some locations. Then locations come into being,
symbols are made, defined and constrained, and steps end with updates. A ledger of what is reported
tells which value a location has at each timestep. For every sequence of calls the trace has exactly
these values, once each, provided that locations with different keys are written differently.
-/

namespace AbstractStateMachine

open OrderedMap

/-- A value that a location has from some timestep on, until the next report. -/
structure Report where
  key : LocationKey
  location : TrackedLocation
  since : Nat

/-- What the recorder is told, in this order, and the present timestep. -/
structure Ledger where
  now : Nat := 0
  reports : List Report := []

namespace Recorder

inductive Call where
  | create (key : LocationKey) (location : TrackedLocation)
  | fresh
  | define (op : DefinitionOp) (lhs rhs : Term)
  | assume (cond : Condition) (lhs rhs : Term)
  | endStep (updates : List (LocationKey × TrackedLocation))

def updateAll (recorder : Recorder) (updates : List (LocationKey × TrackedLocation)) : Recorder :=
  updates.foldl (fun recorder (key, location) => recorder.update key location) recorder

def perform (recorder : Recorder) : Call → Recorder
  | .create key location => recorder.create key location
  | .fresh => recorder.fresh.2
  | .define op lhs rhs => (recorder.define op lhs rhs).2
  | .assume cond lhs rhs => recorder.assume cond lhs rhs
  | .endStep updates => (recorder.advance.updateAll updates).repeatOthers (updates.map (·.1))

/-- The recorder after the initial values of some locations, and the calls that follow. -/
def after (initial : List (LocationKey × TrackedLocation)) (calls : List Call) : Recorder :=
  calls.foldl perform (({} : Recorder).updateAll initial)

end Recorder

namespace Ledger

def add (ledger : Ledger) (since : Nat) (updates : List (LocationKey × TrackedLocation)) :
    Ledger :=
  { ledger with reports := ledger.reports ++ updates.map fun (key, location) =>
      { key, location, since } }

/-- A location that comes into being has had its value from the beginning. -/
def note (ledger : Ledger) : Recorder.Call → Ledger
  | .create key location => ledger.add 0 [(key, location)]
  | .endStep updates => { ledger.add (ledger.now + 1) updates with now := ledger.now + 1 }
  | .fresh | .define _ _ _ | .assume _ _ _ => ledger

def initially (updates : List (LocationKey × TrackedLocation)) : Ledger :=
  ({} : Ledger).add 0 updates

def after (initial : List (LocationKey × TrackedLocation)) (calls : List Recorder.Call) : Ledger :=
  calls.foldl note (initially initial)

/-- The last report of a location that is about the timestep. -/
def locationAt? (ledger : Ledger) (key : LocationKey) (time : Nat) : Option TrackedLocation :=
  (ledger.reports.filter fun report => report.key = key ∧ report.since ≤ time).getLast?.map
    Report.location

/-- Only new locations come into being, and no location is updated twice in a step. -/
def Permits (ledger : Ledger) : Recorder.Call → Prop
  | .create key _ => ∀ report ∈ ledger.reports, report.key ≠ key
  | .endStep updates => (updates.map (·.1)).Nodup
  | .fresh | .define _ _ _ | .assume _ _ _ => True

def PermitsAll (ledger : Ledger) : List Recorder.Call → Prop
  | [] => True
  | call :: rest => ledger.Permits call ∧ (ledger.note call).PermitsAll rest

instance (ledger : Ledger) : DecidablePred ledger.Permits
  | .create key _ => inferInstanceAs (Decidable (∀ report ∈ ledger.reports, report.key ≠ key))
  | .endStep updates => inferInstanceAs (Decidable (updates.map (·.1)).Nodup)
  | .fresh | .define _ _ _ | .assume _ _ _ => .isTrue trivial

instance decidablePermitsAll : ∀ (ledger : Ledger) (calls : List Recorder.Call),
    Decidable (ledger.PermitsAll calls)
  | _, [] => .isTrue trivial
  | ledger, call :: rest =>
    have := decidablePermitsAll (ledger.note call) rest
    inferInstanceAs (Decidable (ledger.Permits call ∧ (ledger.note call).PermitsAll rest))

/-- Locations that are written like `subject` have the key. -/
def Denotes (ledger : Ledger) (subject : Subject) (key : LocationKey) : Prop :=
  ∀ report ∈ ledger.reports, report.location.subject = subject → report.key = key

/-- Locations with different keys are written differently. -/
def ToldApart (ledger : Ledger) : Prop :=
  ∀ report ∈ ledger.reports, ledger.Denotes report.location.subject report.key

instance (ledger : Ledger) : Decidable ledger.ToldApart :=
  inferInstanceAs (Decidable (∀ report ∈ ledger.reports, ∀ other ∈ ledger.reports,
    other.location.subject = report.location.subject → other.key = report.key))

/-- Whichever way the location is written, this is the one entry for the timestep. -/
structure Once (ledger : Ledger) (key : LocationKey) (recorder : Recorder) (time : Timestep)
    (location : TrackedLocation) : Prop where
  entry : recorder.reports location.subject time = [location.value]
  alone : ∀ report ∈ ledger.reports, report.key = key →
    report.location.subject ≠ location.subject → recorder.reports report.location.subject time = []

end Ledger

/-! ### Values of the locations that are written like a subject -/

def valuesAs (subject : Subject) (location? : Option TrackedLocation) : List Term :=
  ((location?.filter (·.subject = subject)).map TrackedLocation.value).toList

section ValuesAs

variable {subject : Subject} {key : LocationKey} {updates : List (LocationKey × TrackedLocation)}

@[simp]
theorem valuesAs_none : valuesAs subject none = [] := rfl

theorem valuesAs_some (location : TrackedLocation) : valuesAs subject (some location) =
    if location.subject = subject then [location.value] else [] := by
  unfold valuesAs
  rw [Option.filter_some]
  by_cases hsubject : location.subject = subject <;> simp [hsubject]

theorem map_filter_entries {map : OrderedMap LocationKey TrackedLocation}
    (hnodup : map.keys.Nodup)
    (hkey : ∀ entry ∈ map.entries, entry.2.subject = subject → entry.1 = key) :
    (map.entries.filter fun entry => entry.2.subject = subject).map (·.2.value) =
      valuesAs subject (map.get? key) := by
  have hfilter : (map.entries.filter fun entry => entry.2.subject = subject) =
      (map.entries.filter fun entry => entry.1 = key).filter
        fun entry => entry.2.subject = subject := by
    rw [List.filter_filter]
    refine List.filter_congr fun entry hentry => ?_
    by_cases hsubject : entry.2.subject = subject
    · simp [hsubject, hkey entry hentry hsubject]
    · simp [hsubject]
  rw [hfilter, filter_entries_eq key hnodup fun entry _ => decide_eq_true_iff]
  cases map.get? key with
  | none => rfl
  | some location =>
    rw [valuesAs_some]
    by_cases hsubject : location.subject = subject <;> simp [hsubject]

theorem map_filter_untouched {map : OrderedMap LocationKey TrackedLocation}
    (hnodup : map.keys.Nodup)
    (hkey : ∀ entry ∈ map.entries, entry.2.subject = subject → entry.1 = key)
    (touched : List LocationKey) :
    (map.entries.filter fun entry =>
      entry.1 ∉ touched ∧ entry.2.subject = subject).map (·.2.value) =
        if key ∈ touched then [] else valuesAs subject (map.get? key) := by
  by_cases htouched : key ∈ touched
  · rw [if_pos htouched, List.filter_eq_nil_iff.mpr]
    · rfl
    · intro entry hentry hselected
      obtain ⟨huntouched, hsubject⟩ := of_decide_eq_true hselected
      exact huntouched (hkey entry hentry hsubject ▸ htouched)
  · rw [if_neg htouched, ← map_filter_entries hnodup hkey]
    congr 1
    refine List.filter_congr fun entry hentry => ?_
    by_cases hsubject : entry.2.subject = subject
    · simp [hsubject, hkey entry hentry hsubject, htouched]
    · simp [hsubject]

end ValuesAs

namespace Ledger

variable {ledger : Ledger} {key : LocationKey} {subject : Subject} {time since : Nat}
  {updates : List (LocationKey × TrackedLocation)}

/-! ### The last report -/

theorem locationAt?_eq_some {location : TrackedLocation}
    (h : ledger.locationAt? key time = some location) :
    ∃ report ∈ ledger.reports, report.key = key ∧ report.location = location := by
  obtain ⟨report, hlast, rfl⟩ := Option.map_eq_some_iff.mp h
  obtain ⟨hmem, hselected⟩ := List.mem_filter.mp (List.mem_of_getLast? hlast)
  exact ⟨report, hmem, (of_decide_eq_true hselected).1, rfl⟩

theorem exists_locationAt? {report : Report} (hmem : report ∈ ledger.reports)
    (hsince : report.since ≤ time) :
    ∃ location, ledger.locationAt? report.key time = some location := by
  have hselected : report ∈ ledger.reports.filter fun other =>
      other.key = report.key ∧ other.since ≤ time :=
    List.mem_filter.mpr ⟨hmem, decide_eq_true ⟨rfl, hsince⟩⟩
  refine ⟨(List.getLast _ (List.ne_nil_of_mem hselected)).location, ?_⟩
  rw [locationAt?, List.getLast?_eq_some_getLast (List.ne_nil_of_mem hselected)]
  rfl

theorem locationAt?_eq_none
    (h : ∀ report ∈ ledger.reports, report.key = key → time < report.since) :
    ledger.locationAt? key time = none := by
  rw [locationAt?, List.filter_eq_nil_iff.mpr]
  · rfl
  · intro report hmem hselected
    obtain ⟨hkey, hsince⟩ := of_decide_eq_true hselected
    exact Nat.not_le.mpr (h report hmem hkey) hsince

theorem locationAt?_of_le (hsince : ∀ report ∈ ledger.reports, report.since ≤ ledger.now)
    (htime : ledger.now ≤ time) :
    ledger.locationAt? key time = ledger.locationAt? key ledger.now := by
  unfold locationAt?
  congr 2
  refine List.filter_congr fun report hmem => ?_
  have hnow := hsince report hmem
  simp [hnow, Nat.le_trans hnow htime]

/-- Updates replace what was reported before, from their timestep on. -/
theorem locationAt?_add (hnodup : (updates.map (·.1)).Nodup) :
    (ledger.add since updates).locationAt? key time =
      if since ≤ time then (get? ⟨updates⟩ key).or (ledger.locationAt? key time)
      else ledger.locationAt? key time := by
  let map : OrderedMap LocationKey TrackedLocation := ⟨updates⟩
  unfold locationAt? add
  rw [List.filter_append, List.getLast?_append, List.filter_map, List.getLast?_map]
  by_cases hsince : since ≤ time
  · have hselected := filter_entries_eq key (hnodup : map.keys.Nodup)
      fun entry _ => show ((fun report : Report => decide
        (report.key = key ∧ report.since ≤ time)) ∘ fun (key, location) =>
          { key, location, since }) entry = true ↔ _ by simp [hsince]
    rw [hselected, if_pos hsince]
    cases get? ⟨updates⟩ key <;> rfl
  · rw [if_neg hsince, List.filter_eq_nil_iff.mpr]
    · rfl
    · simp [hsince]

theorem locationAt?_create (created : LocationKey) (location : TrackedLocation) :
    (ledger.add 0 [(created, location)]).locationAt? key time =
      if key = created then some location else ledger.locationAt? key time := by
  have hnodup : ([(created, location)].map (·.1)).Nodup := List.nodup_singleton created
  rw [locationAt?_add hnodup, if_pos (Nat.zero_le time), get?_cons]
  by_cases hkey : key = created
  · rw [if_pos hkey, if_pos hkey]
    rfl
  · rw [if_neg hkey, if_neg hkey]
    rfl

theorem Denotes.of_add (h : (ledger.add since updates).Denotes subject key) :
    ledger.Denotes subject key :=
  fun report hmem => h report (List.mem_append_left _ hmem)

theorem Denotes.of_mem_updates (h : (ledger.add since updates).Denotes subject key)
    {entry : LocationKey × TrackedLocation} (hentry : entry ∈ updates)
    (hsubject : entry.2.subject = subject) : entry.1 = key :=
  h ⟨entry.1, entry.2, since⟩
    (List.mem_append_right _ (List.mem_map.mpr ⟨entry, hentry, rfl⟩)) hsubject

end Ledger

namespace Recorder

variable {recorder : Recorder} {ledger : Ledger} {key : LocationKey} {subject : Subject}
  {updates : List (LocationKey × TrackedLocation)}

/-! ### Several updates -/

theorem timestamp_updateAll (recorder : Recorder)
    (updates : List (LocationKey × TrackedLocation)) :
    (recorder.updateAll updates).timestamp = recorder.timestamp := by
  unfold updateAll
  induction updates generalizing recorder with
  | nil => rfl
  | cons entry rest ih => exact ih (recorder.update entry.1 entry.2)

theorem nodup_updateAll (recorder : Recorder) (updates : List (LocationKey × TrackedLocation))
    (hnodup : recorder.tracked.keys.Nodup) :
    (recorder.updateAll updates).tracked.keys.Nodup := by
  unfold updateAll
  induction updates generalizing recorder with
  | nil => exact hnodup
  | cons entry rest ih =>
    exact ih (recorder.update entry.1 entry.2) (nodup_keys_insert hnodup)

theorem get?_updateAll (hupdates : (updates.map (·.1)).Nodup) (recorder : Recorder) :
    (recorder.updateAll updates).tracked.get? key =
      (get? ⟨updates⟩ key).or (recorder.tracked.get? key) := by
  unfold updateAll
  induction updates generalizing recorder with
  | nil => rfl
  | cons entry rest ih =>
    obtain ⟨known, location⟩ := entry
    obtain ⟨hnew, hrest⟩ := List.nodup_cons.mp hupdates
    rw [List.foldl_cons, ih hrest, get?_cons]
    show (get? ⟨rest⟩ key).or ((recorder.tracked.insert known location).get? key) = _
    rw [get?_insert]
    by_cases hkey : key = known
    · have hnone : get? ⟨rest⟩ key = none :=
        get?_eq_none_iff.mpr (hkey ▸ hnew)
      rw [if_pos hkey, if_pos hkey, hnone]
      rfl
    · rw [if_neg hkey, if_neg hkey]

theorem reports_updateAll (recorder : Recorder) (updates : List (LocationKey × TrackedLocation))
    (subject : Subject) (time : Timestep) :
    (recorder.updateAll updates).reports subject time = recorder.reports subject time ++
      if .at recorder.timestamp = time then
        (updates.filter fun entry => entry.2.subject = subject).map (·.2.value)
      else [] := by
  unfold updateAll
  induction updates generalizing recorder with
  | nil => simp
  | cons entry rest ih =>
    have htimestamp : (recorder.update entry.1 entry.2).timestamp = recorder.timestamp := rfl
    rw [List.foldl_cons, ih, reports_update, htimestamp, List.append_assoc]
    refine congrArg _ ?_
    by_cases hsubject : entry.2.subject = subject <;>
      by_cases htime : .at recorder.timestamp = time <;> simp [hsubject, htime]

/-! ### Agreement of trace and ledger -/

structure Agrees (ledger : Ledger) (recorder : Recorder) : Prop where
  timestamp : recorder.timestamp = ledger.now
  since : ∀ report ∈ ledger.reports, report.since ≤ ledger.now
  nodup : recorder.tracked.keys.Nodup
  tracked : ∀ key, recorder.tracked.get? key = ledger.locationAt? key ledger.now
  reports : ∀ key subject, ledger.Denotes subject key → ∀ time,
    recorder.reports subject (.at time) =
      if time ≤ ledger.now then valuesAs subject (ledger.locationAt? key time) else []
  final : ∀ subject, recorder.reports subject .final = []

variable (h : Agrees ledger recorder)
include h

theorem Agrees.of_sameTracks {next : Recorder} (hsame : SameTracks recorder next)
    (hreports : ∀ subject time, next.reports subject time = recorder.reports subject time) :
    Agrees ledger next where
  timestamp := hsame.timestamp.trans h.timestamp
  since := h.since
  nodup := hsame.tracked ▸ h.nodup
  tracked key := hsame.tracked ▸ h.tracked key
  reports key subject hkey time := (hreports subject _).trans (h.reports key subject hkey time)
  final subject := (hreports subject _).trans (h.final subject)

theorem Agrees.key_of_tracked (hkey : ledger.Denotes subject key)
    {entry : LocationKey × TrackedLocation} (hentry : entry ∈ recorder.tracked.entries)
    (hsubject : entry.2.subject = subject) : entry.1 = key := by
  have hfound := get?_of_mem_entries h.nodup hentry
  rw [h.tracked] at hfound
  obtain ⟨report, hmem, hreport, hlocation⟩ := Ledger.locationAt?_eq_some hfound
  exact hreport.symm.trans (hkey report hmem (hlocation ▸ hsubject))

theorem Agrees.reports_create {created : LocationKey} {location : TrackedLocation}
    (hnew : ∀ report ∈ ledger.reports, report.key ≠ created)
    (hdenotes : (ledger.add 0 [(created, location)]).Denotes subject key) (time : Nat) :
    (recorder.create created location).reports subject (.at time) =
      if time ≤ ledger.now then
        valuesAs subject (if key = created then some location else ledger.locationAt? key time)
      else [] := by
  have hcreated : location.subject = subject → created = key :=
    fun hsubject => hdenotes.of_mem_updates List.mem_cons_self hsubject
  rw [Recorder.reports_create, h.reports key subject hdenotes.of_add, h.timestamp]
  by_cases htime : time ≤ ledger.now
  · have hpast : ∃ past < ledger.now + 1, Timestep.at past = .at time :=
      ⟨time, Nat.lt_succ_of_le htime, rfl⟩
    rw [if_pos htime, if_pos htime]
    by_cases hkey : key = created
    · subst hkey
      have hnone : ledger.locationAt? key time = none :=
        Ledger.locationAt?_eq_none fun report hmem hreport => absurd hreport (hnew report hmem)
      rw [if_pos rfl, hnone, valuesAs_some]
      simp only [hpast, and_true, valuesAs_none, List.nil_append]
    · rw [if_neg hkey, if_neg fun hwritten => hkey (hcreated hwritten.1).symm, List.append_nil]
  · have hpast : ¬ ∃ past < ledger.now + 1, Timestep.at past = .at time := by
      rintro ⟨past, hlt, heq⟩
      cases heq
      omega
    rw [if_neg htime, if_neg htime, if_neg fun hwritten => hpast hwritten.2]
    rfl

theorem Agrees.create {location : TrackedLocation}
    (hnew : ∀ report ∈ ledger.reports, report.key ≠ key) :
    Agrees (ledger.add 0 [(key, location)]) (recorder.create key location) where
  timestamp := by
    rw [timestamp_create]
    exact h.timestamp
  since report hmem := by
    rcases List.mem_append.mp hmem with hmem | hmem
    · exact h.since report hmem
    · rw [List.mem_singleton.mp hmem]
      exact Nat.zero_le _
  nodup := by
    rw [tracked_create]
    exact nodup_keys_insert h.nodup
  tracked other := by
    rw [tracked_create, get?_insert, Ledger.locationAt?_create, h.tracked]
    rfl
  reports other subject hdenotes time := by
    rw [h.reports_create hnew hdenotes, Ledger.locationAt?_create]
    rfl
  final subject := by
    rw [Recorder.reports_create, h.final, if_neg]
    · rfl
    · rintro ⟨-, past, -, ⟨⟩⟩

omit h in
theorem agrees_start (hnodup : (updates.map (·.1)).Nodup) :
    Agrees (.initially updates) (({} : Recorder).updateAll updates) where
  timestamp := timestamp_updateAll {} updates
  since report hmem := by
    obtain ⟨entry, -, rfl⟩ := List.mem_map.mp hmem
    exact Nat.le_refl 0
  nodup := nodup_updateAll {} updates .nil
  tracked key := by
    rw [get?_updateAll hnodup, Ledger.initially, Ledger.locationAt?_add hnodup]
    rfl
  reports key subject hdenotes time := by
    have hvalues : (updates.filter fun entry => entry.2.subject = subject).map (·.2.value) =
        valuesAs subject (get? ⟨updates⟩ key) :=
      map_filter_entries hnodup fun _ hentry => hdenotes.of_mem_updates hentry
    rw [reports_updateAll, hvalues, Ledger.initially, Ledger.locationAt?_add hnodup,
      if_pos (Nat.zero_le time)]
    show [] ++ (if Timestep.at 0 = .at time then _ else []) =
      if time ≤ 0 then valuesAs subject (Option.or _ none) else []
    rw [List.nil_append, Option.or_none]
    by_cases htime : time = 0
    · rw [if_pos (by rw [htime]), if_pos (Nat.le_of_eq htime)]
    · rw [if_neg fun heq => htime (Timestep.at.inj heq).symm, if_neg fun hle => htime (by omega)]
  final subject := by
    rw [reports_updateAll]
    rfl

/-- The timestep of a step that ends has one value for each tracked location: that of its update,
or else the one from before. -/
theorem Agrees.reports_endStep (hnodup : (updates.map (·.1)).Nodup)
    (hdenotes : (ledger.add (ledger.now + 1) updates).Denotes subject key) (time : Nat) :
    ((recorder.advance.updateAll updates).repeatOthers (updates.map (·.1))).reports subject
      (.at time) = recorder.reports subject (.at time) ++
        if time = ledger.now + 1 then
          valuesAs subject ((get? ⟨updates⟩ key).or (ledger.locationAt? key ledger.now))
        else [] := by
  have hget (other : LocationKey) : (recorder.advance.updateAll updates).tracked.get? other =
      (get? ⟨updates⟩ other).or (ledger.locationAt? other ledger.now) := by
    rw [get?_updateAll hnodup, ← h.tracked]
    rfl
  have htimestamp : (recorder.advance.updateAll updates).timestamp = ledger.now + 1 := by
    rw [timestamp_updateAll, ← h.timestamp]
    rfl
  have hadvanced : recorder.advance.timestamp = ledger.now + 1 := by
    rw [← h.timestamp]
    rfl
  have htracked := nodup_updateAll recorder.advance updates h.nodup
  have hupdated : (updates.filter fun entry => entry.2.subject = subject).map (·.2.value) =
      valuesAs subject (get? ⟨updates⟩ key) :=
    map_filter_entries hnodup fun _ hentry => hdenotes.of_mem_updates hentry
  have hkey : ∀ entry ∈ (recorder.advance.updateAll updates).tracked.entries,
      entry.2.subject = subject → entry.1 = key := by
    intro entry hentry hsubject
    have hfound := get?_of_mem_entries htracked hentry
    rw [hget, ← h.tracked] at hfound
    rcases Option.or_eq_some_iff.mp hfound with hupdate | ⟨-, hold⟩
    · exact hdenotes.of_mem_updates (mem_entries_of_get? hupdate) hsubject
    · exact h.key_of_tracked hdenotes.of_add (mem_entries_of_get? hold) hsubject
  rw [reports_repeatOthers, reports_updateAll, map_filter_untouched htracked hkey, hget, hupdated,
    htimestamp, hadvanced, List.append_assoc]
  refine congrArg _ ?_
  by_cases htime : time = ledger.now + 1
  · rw [if_pos (by rw [htime]), if_pos (by rw [htime]), if_pos htime]
    cases hupdate : get? ⟨updates⟩ key with
    | none =>
      have huntouched : key ∉ updates.map (·.1) := get?_eq_none_iff.mp hupdate
      rw [if_neg huntouched]
      rfl
    | some location =>
      have htouched : key ∈ updates.map (·.1) :=
        List.mem_map_of_mem (mem_entries_of_get? hupdate)
      rw [if_pos htouched, List.append_nil]
      rfl
  · have hother : ¬ Timestep.at (ledger.now + 1) = .at time :=
      fun heq => htime (Timestep.at.inj heq).symm
    rw [if_neg hother, if_neg hother, if_neg htime]
    rfl

theorem Agrees.endStep (hnodup : (updates.map (·.1)).Nodup) :
    Agrees (ledger.note (.endStep updates)) (recorder.perform (.endStep updates)) := by
  have hsame := sameTracks_repeatOthers (recorder.advance.updateAll updates) (updates.map (·.1))
  have hlocation (key : LocationKey) (time : Nat) :
      (ledger.note (.endStep updates)).locationAt? key time = if ledger.now + 1 ≤ time then
        (get? ⟨updates⟩ key).or (ledger.locationAt? key time)
      else ledger.locationAt? key time :=
    Ledger.locationAt?_add hnodup
  constructor
  case timestamp =>
    rw [perform, hsame.timestamp, timestamp_updateAll]
    exact congrArg Nat.succ h.timestamp
  case since =>
    intro report hmem
    rcases List.mem_append.mp hmem with hmem | hmem
    · exact Nat.le_succ_of_le (h.since report hmem)
    · obtain ⟨entry, -, rfl⟩ := List.mem_map.mp hmem
      exact Nat.le_refl _
  case nodup =>
    rw [perform, hsame.tracked]
    exact nodup_updateAll recorder.advance updates h.nodup
  case tracked =>
    intro key
    rw [perform, hsame.tracked, get?_updateAll hnodup, hlocation]
    show _ = if ledger.now + 1 ≤ ledger.now + 1 then
      (get? ⟨updates⟩ key).or (ledger.locationAt? key (ledger.now + 1)) else _
    rw [if_pos (Nat.le_refl _), Ledger.locationAt?_of_le h.since (Nat.le_succ _), ← h.tracked]
    rfl
  case reports =>
    intro key subject hdenotes time
    rw [perform, h.reports_endStep hnodup hdenotes, h.reports key subject hdenotes.of_add,
      hlocation]
    show _ = if time ≤ ledger.now + 1 then _ else []
    rcases Nat.lt_trichotomy time (ledger.now + 1) with hpast | rfl | hfuture
    · rw [if_pos (by omega), if_neg (by omega), if_pos (by omega), if_neg (by omega),
        List.append_nil]
    · rw [if_neg (by omega), if_pos rfl, if_pos (Nat.le_refl _), if_pos (Nat.le_refl _),
        Ledger.locationAt?_of_le h.since (Nat.le_succ _)]
      rfl
    · rw [if_neg (by omega), if_neg (by omega), if_neg (by omega)]
      rfl
  case final =>
    intro subject
    rw [perform, reports_repeatOthers, reports_updateAll]
    show recorder.reports subject .final ++ [] ++ [] = []
    rw [h.final]
    rfl

theorem Agrees.perform {call : Call} (hcall : ledger.Permits call) :
    Agrees (ledger.note call) (recorder.perform call) := by
  cases call with
  | create key location => exact h.create hcall
  | endStep updates => exact h.endStep hcall
  | fresh => exact h.of_sameTracks ⟨rfl, rfl⟩ fun _ _ => reports_fresh
  | define op lhs rhs => exact h.of_sameTracks ⟨rfl, rfl⟩ fun _ _ => reports_define op lhs rhs
  | assume cond lhs rhs => exact h.of_sameTracks ⟨rfl, rfl⟩ fun _ _ => reports_assume cond lhs rhs

theorem Agrees.performAll {calls : List Call} (hcalls : ledger.PermitsAll calls) :
    Agrees (calls.foldl Ledger.note ledger) (calls.foldl Recorder.perform recorder) := by
  induction calls generalizing ledger recorder with
  | nil => exact h
  | cons call rest ih => exact ih (h.perform hcalls.1) hcalls.2

/-! ### The end -/

omit h in
theorem size_finish (recorder : Recorder) :
    recorder.finish.trace.size = recorder.trace.size + recorder.tracked.size := by
  unfold finish values size
  generalize recorder.tracked.entries = entries
  induction entries generalizing recorder with
  | nil => rfl
  | cons entry rest ih =>
    have hsize : (recorder.reportAt entry.2 .final).trace.size = recorder.trace.size + 1 :=
      Array.size_push _
    rw [List.map_cons, List.foldl_cons, ih, hsize, List.length_cons]
    omega

theorem Agrees.reports_finish (hdenotes : ledger.Denotes subject key) :
    recorder.finish.reports subject .final =
      valuesAs subject (ledger.locationAt? key ledger.now) := by
  have hkey : ∀ entry ∈ recorder.tracked.entries, entry.2.subject = subject → entry.1 = key :=
    fun _ hentry => h.key_of_tracked hdenotes hentry
  rw [Recorder.reports_finish, if_pos rfl, map_filter_entries h.nodup hkey, h.final, h.tracked]
  rfl

theorem Agrees.tracked_ne_none_iff :
    recorder.tracked.get? key ≠ none ↔ ∃ report ∈ ledger.reports, report.key = key := by
  rw [h.tracked]
  constructor
  · intro hsome
    obtain ⟨location, hlocation⟩ := Option.ne_none_iff_exists'.mp hsome
    obtain ⟨report, hmem, hkey, -⟩ := Ledger.locationAt?_eq_some hlocation
    exact ⟨report, hmem, hkey⟩
  · rintro ⟨report, hmem, rfl⟩
    obtain ⟨location, hlocation⟩ := Ledger.exists_locationAt? hmem (h.since report hmem)
    rw [hlocation]
    exact Option.some_ne_none location

end Recorder

namespace Ledger

variable {ledger : Ledger} {recorder : Recorder} {key : LocationKey} {location : TrackedLocation}

theorem ToldApart.once (h : ledger.ToldApart) {time : Timestep} {moment : Nat}
    (hlocation : ledger.locationAt? key moment = some location)
    (hreports : ∀ subject, ledger.Denotes subject key →
      recorder.reports subject time = valuesAs subject (some location)) :
    ledger.Once key recorder time location := by
  obtain ⟨report, hmem, rfl, rfl⟩ := locationAt?_eq_some hlocation
  constructor
  · rw [hreports _ (h report hmem), valuesAs_some, if_pos rfl]
  · intro other hother hkey hsubject
    have hdenotes := h other hother
    rw [hkey] at hdenotes
    rw [hreports _ hdenotes, valuesAs_some, if_neg (Ne.symm hsubject)]

end Ledger

namespace Recorder

/-- After any calls that follow the pattern, every location that was reported is tracked, and the
trace has one entry of it for each timestep from its first report up to the present, with the value
reported last; there is no other entry of it. In the end there is one more entry for each tracked
location, with its last value. -/
theorem reported_once_per_timestep (initial : List (LocationKey × TrackedLocation))
    (calls : List Call) (hinitial : (initial.map (·.1)).Nodup)
    (hcalls : (Ledger.initially initial).PermitsAll calls)
    (happart : (Ledger.after initial calls).ToldApart) :
    let ledger := Ledger.after initial calls
    let recorder := Recorder.after initial calls
    recorder.timestamp = ledger.now ∧
      (∀ key, recorder.tracked.get? key ≠ none ↔ ∃ report ∈ ledger.reports, report.key = key) ∧
      (∀ report ∈ ledger.reports, ∀ time, report.since ≤ time → time ≤ ledger.now →
        ∃ location, ledger.locationAt? report.key time = some location ∧
          ledger.Once report.key recorder (.at time) location) ∧
      (∀ report ∈ ledger.reports, ∀ time, ledger.now < time ∨
        (∀ other ∈ ledger.reports, other.key = report.key → time < other.since) →
          recorder.reports report.location.subject (.at time) = []) ∧
      (∀ key location, recorder.tracked.get? key = some location →
        ledger.locationAt? key ledger.now = some location ∧
          ledger.Once key recorder.finish .final location) ∧
      (∀ subject, recorder.reports subject .final = [] ∧
        ∀ time, recorder.finish.reports subject (.at time) = recorder.reports subject (.at time)) ∧
      recorder.finish.trace.size = recorder.trace.size + recorder.tracked.size := by
  intro ledger recorder
  have h : Agrees ledger recorder := (agrees_start hinitial).performAll hcalls
  refine ⟨h.timestamp, fun key => h.tracked_ne_none_iff, ?_, ?_, ?_, ?_, size_finish recorder⟩
  · intro report hmem time hsince htime
    obtain ⟨location, hlocation⟩ := Ledger.exists_locationAt? hmem hsince
    refine ⟨location, hlocation, happart.once hlocation fun subject hdenotes => ?_⟩
    rw [h.reports _ subject hdenotes, if_pos htime, hlocation]
  · intro report hmem time habsent
    rw [h.reports report.key _ (happart report hmem)]
    by_cases htime : time ≤ ledger.now
    · have hbefore := habsent.resolve_left (Nat.not_lt.mpr htime)
      rw [if_pos htime, Ledger.locationAt?_eq_none hbefore]
      rfl
    · exact if_neg htime
  · intro key location hlocation
    rw [h.tracked] at hlocation
    refine ⟨hlocation, happart.once hlocation fun subject hdenotes => ?_⟩
    rw [h.reports_finish hdenotes, hlocation]
  · intro subject
    refine ⟨h.final subject, fun time => ?_⟩
    rw [Recorder.reports_finish, if_neg (by simp), List.append_nil]

/-- `y` comes into being after a first step and is updated by the second one; `x` stays as it is. -/
theorem reported_once_per_timestep_backfilled :
    let x : LocationKey := (⟨1⟩, [])
    let y : LocationKey := (⟨2⟩, [])
    let initial := [(x, ⟨"x", [], .int 1⟩)]
    let calls := [.endStep [], .fresh, .create y ⟨"y", [], .symbol 1⟩,
      .endStep [(y, ⟨"y", [], .int 7⟩)]]
    (initial.map (·.1)).Nodup ∧ (Ledger.initially initial).PermitsAll calls ∧
      (Ledger.after initial calls).ToldApart ∧
      (Recorder.after initial calls).reports ⟨"y", []⟩ (.at 0) = [.symbol 1] ∧
      (Recorder.after initial calls).reports ⟨"y", []⟩ (.at 2) = [.int 7] ∧
      (Recorder.after initial calls).reports ⟨"x", []⟩ (.at 2) = [.int 1] ∧
      (Recorder.after initial calls).finish.reports ⟨"y", []⟩ .final = [.int 7] := by
  intro x y initial calls
  have hinitial : (initial.map (·.1)).Nodup := List.nodup_singleton x
  have hcalls : (Ledger.initially initial).PermitsAll calls := by decide
  have happart : (Ledger.after initial calls).ToldApart := by decide
  obtain ⟨-, -, honce, -, hfinal, -⟩ :=
    reported_once_per_timestep initial calls hinitial hcalls happart
  have hcreated : ⟨y, ⟨"y", [], .symbol 1⟩, 0⟩ ∈ (Ledger.after initial calls).reports := by
    simp [Ledger.after, Ledger.note, Ledger.add, calls]
  have hgiven : ⟨x, ⟨"x", [], .int 1⟩, 0⟩ ∈ (Ledger.after initial calls).reports :=
    List.mem_cons_self
  refine ⟨hinitial, hcalls, happart, ?_, ?_, ?_, ?_⟩
  · obtain ⟨location, hlocation, hentry⟩ := honce _ hcreated 0 (Nat.le_refl 0) (by decide)
    cases hlocation
    exact hentry.entry
  · obtain ⟨location, hlocation, hentry⟩ := honce _ hcreated 2 (by decide) (by decide)
    cases hlocation
    exact hentry.entry
  · obtain ⟨location, hlocation, hentry⟩ := honce _ hgiven 2 (by decide) (by decide)
    cases hlocation
    exact hentry.entry
  · exact (hfinal y ⟨"y", [], .int 7⟩ (by decide)).2.entry

end Recorder

end AbstractStateMachine
