import AbstractStateMachine.Proofs.Machine.Grounding
import AbstractStateMachine.Proofs.Renaming.Basic

/-!
# What updates store

In concrete mode an update stores flat copies of its arguments and of its value. What is found under
arguments after updates for different locations have been applied is the value of the update for
their location, or what was found before if there is none.
-/

namespace AbstractStateMachine

open ListHeap Interpretation

/-! ### Values that represent data -/

namespace ListHeap

variable {heap later : ListHeap} {args probe : List Value} {data : List Datum}

theorem exists_represents_of_sound (hheap : heap.WellFormed) {value : Value}
    (h : heap.Sound false value) : ∃ datum, heap.Represents value datum := by
  obtain ⟨datum, hdatum, -⟩ := (renames_self hheap).exists_represents (renames_of_sound h)
  exact ⟨datum, hdatum⟩

theorem exists_represents_of_allSound (hheap : heap.WellFormed) (h : heap.AllSound false args) :
    ∃ data, List.Forall₂ heap.Represents args data := by
  induction args with
  | nil => exact ⟨[], .nil⟩
  | cons value rest ih =>
    obtain ⟨datum, hdatum⟩ := exists_represents_of_sound hheap (h value List.mem_cons_self)
    obtain ⟨data, hdata⟩ := ih fun other hother => h other (List.mem_cons_of_mem _ hother)
    exact ⟨datum :: data, .cons hdatum hdata⟩

theorem represents_extends (hheap : heap.WellFormed) (hgrows : heap.Extends later)
    (h : List.Forall₂ heap.Represents args data) : List.Forall₂ later.Represents args data :=
  h.imp fun _ _ => Represents.extends hheap hgrows

theorem sameArgs_eq_of_self (hheap : heap.WellFormed) {images : List Datum}
    (hargs : List.Forall₂ heap.Represents args data)
    (hprobe : List.Forall₂ heap.Represents probe images)
    (hself : ∀ image ∈ images, image.equal image = true) :
    heap.sameArgs args probe = allPairs Datum.equal images data := by
  rw [← sameArgs_eq_allPairs hheap hprobe hargs hself]
  exact Bool.eq_iff_iff.mpr ⟨sameArgs_symm, sameArgs_symm⟩

end ListHeap

/-! ### Buckets in a heap that has grown -/

theorem Bucket.set_eq_of_agrees {heap later : ListHeap} (h : heap.Agrees later) {bucket : Bucket}
    {args : List Value} {value : Value} (hargs : heap.Supports args) (hargs' : later.Supports args)
    (hbucket : ∀ location ∈ bucket, heap.Supports location.args ∧ later.Supports location.args) :
    Bucket.set later args value bucket = Bucket.set heap args value bucket := by
  induction bucket with
  | nil => rfl
  | cons location rest ih =>
    obtain ⟨⟨hlocation, hlocation'⟩, hrest⟩ := List.forall_mem_cons.mp hbucket
    rw [Bucket.set, Bucket.set, ih hrest, h.sameArgs_eq hlocation hlocation' hargs hargs']

namespace Interpretation

variable {state : Interpretation} {heap : ListHeap} {function : FunctionId} {key : ArgKey}

theorem size_set (args : List Value) (value : Value) :
    (state.set heap function key args value).tables.size = state.tables.size :=
  Array.size_setIfInBounds

end Interpretation

namespace Machine

variable {setting : Setting} {machine : Machine}

/-! ### Flat copies -/

theorem exists_flattenValue {value : Value} {datum : Datum} (hheap : machine.heap.WellFormed)
    (h : machine.heap.Represents value datum) :
    ∃ flat later, machine.flattenValue value = (flat, { machine with heap := later }) ∧
      later.WellFormed ∧ machine.heap.Extends later ∧ later.Represents flat datum := by
  cases h with
  | @list list data hlive helements =>
    have hmakes := makes_flatten hheap (hheap.denotes_toList hlive)
    exact ⟨_, _, rfl, hmakes.wellFormed, hmakes.grows, represents_of_makes hheap hmakes helements⟩
  | scalar hscalar =>
    refine ⟨value, machine.heap, ?_, hheap, .refl _, .scalar hscalar⟩
    cases value with
    | list => exact hscalar.elim
    | _ => rfl

theorem exists_flattenValues {values : List Value} {data : List Datum}
    (hheap : machine.heap.WellFormed) (h : List.Forall₂ machine.heap.Represents values data) :
    ∃ flat later, machine.flattenValues values = (flat, { machine with heap := later }) ∧
      later.WellFormed ∧ machine.heap.Extends later ∧ List.Forall₂ later.Represents flat data := by
  induction values generalizing machine data with
  | nil =>
    cases h
    exact ⟨[], machine.heap, rfl, hheap, .refl _, .nil⟩
  | cons value rest ih =>
    cases h with
    | cons hvalue hrest =>
      obtain ⟨flat, middle, hflat, hmiddle, hgrows, hvalue⟩ := exists_flattenValue hheap hvalue
      have hrest' : List.Forall₂ { machine with heap := middle }.heap.Represents rest _ :=
        represents_extends hheap hgrows hrest
      obtain ⟨flats, later, hflats, hlater, hgrows', hrest'⟩ := ih hmiddle hrest'
      refine ⟨flat :: flats, later, ?_, hlater, hgrows.trans hgrows', ?_⟩
      · rw [flattenValues, hflat]
        dsimp only
        rw [hflats]
      · exact .cons (hvalue.extends hmiddle hgrows') hrest'

section Applying

variable (hconcrete : setting.symbolic = false)
include hconcrete

theorem exists_applyUpdate (hheap : machine.heap.WellFormed) {update : Update} {data : List Datum}
    {datum : Datum} (hargs : List.Forall₂ machine.heap.Represents update.args data)
    (hvalue : machine.heap.Represents update.value datum) :
    ∃ args value later, later.WellFormed ∧ machine.heap.Extends later ∧
      List.Forall₂ later.Represents args data ∧ later.Represents value datum ∧
      machine.applyUpdate setting update =
        { machine with
          heap := later
          state := machine.state.set later update.function update.key args value } := by
  obtain ⟨value, middle, hflat, hmiddle, hgrows, hvalue⟩ := exists_flattenValue hheap hvalue
  have hargs : List.Forall₂ { machine with heap := middle }.heap.Represents update.args data :=
    represents_extends hheap hgrows hargs
  obtain ⟨args, later, hflats, hlater, hgrows', hargs⟩ := exists_flattenValues hmiddle hargs
  refine ⟨args, value, later, hlater, hgrows.trans hgrows', hargs,
    hvalue.extends hmiddle hgrows', ?_⟩
  unfold applyUpdate
  rw [hflat]
  dsimp only
  rw [hflats, hconcrete]
  rfl

end Applying

end Machine

/-! ### Looking up what is stored -/

/-- The update is for the location that is looked up, among functions of the given number. -/
structure Update.Hits (heap : ListHeap) (size : Nat) (function : FunctionId) (key : ArgKey)
    (probe : List Value) (update : Update) : Prop where
  location : update.location = (function, key)
  index_lt : function.index < size
  args : heap.sameArgs update.args probe = true

namespace Machine

section Lookup

variable {setting : Setting} {machine : Machine} {heap : ListHeap} {function : FunctionId}
  {key : ArgKey} {probe : List Value} {data : List Datum} {update : Update} {updates : List Update}
  (hconcrete : setting.symbolic = false) (hmachine : machine.Consistent setting)
include hconcrete hmachine

theorem exists_represents (hupdate : (Standard.strict setting.symbolic).AcceptsAll machine.heap
      update.values) :
    ∃ images datum, List.Forall₂ machine.heap.Represents update.args images ∧
      machine.heap.Represents update.value datum := by
  rw [hconcrete] at hupdate
  obtain ⟨hargs, hvalue⟩ := Standard.acceptsAll_append.mp hupdate
  obtain ⟨images, himages⟩ := exists_represents_of_allSound hmachine.wellFormed hargs
  obtain ⟨datum, hdatum⟩ := exists_represents_of_sound hmachine.wellFormed
    (hvalue update.value List.mem_cons_self)
  exact ⟨images, datum, himages, hdatum⟩

omit hconcrete in
theorem Consistent.continues_cons (hupdates : ∀ other ∈ update :: updates,
      (Standard.strict setting.symbolic).AcceptsAll machine.heap other.values) :
    Continues (.strict setting.symbolic) machine (machine.applyUpdate setting update) ∧
      (∀ other ∈ updates, (Standard.strict setting.symbolic).AcceptsAll
        (machine.applyUpdate setting update).heap other.values) ∧
      Continues (.strict setting.symbolic) (machine.applyUpdate setting update)
        (updates.foldl (applyUpdate setting) (machine.applyUpdate setting update)) := by
  obtain ⟨hupdate, hrest⟩ := List.forall_mem_cons.mp hupdates
  have hnext : Continues _ machine (machine.applyUpdate setting update) :=
    continues_applyUpdate hmachine hupdate
  have hrest' := fun other hother => (hrest other hother).extends hmachine.wellFormed hnext.grows
  exact ⟨hnext, hrest', continues_foldl_applyUpdate hnext.upholds hrest'⟩

theorem size_applyUpdate
    (hupdate : (Standard.strict setting.symbolic).AcceptsAll machine.heap update.values) :
    (machine.applyUpdate setting update).state.tables.size = machine.state.tables.size := by
  obtain ⟨images, datum, himages, hdatum⟩ := exists_represents hconcrete hmachine hupdate
  obtain ⟨args, value, later, -, -, -, -, happlied⟩ :=
    exists_applyUpdate hconcrete hmachine.wellFormed himages hdatum
  rw [happlied]
  exact size_set args value

theorem supports_of_mem_bucket {location : StoredLocation}
    (hlocation : location ∈ machine.state.bucket function key) :
    machine.heap.Supports location.args := by
  have hstate := hmachine.state
  rw [hconcrete] at hstate
  obtain ⟨_, hstored⟩ := exists_represents_of_allSound hmachine.wellFormed fun value hvalue =>
    hstate value (mem_values_of_mem_bucket hlocation (.inl hvalue))
  exact supports_of_represents hstored

variable (hheap : heap.WellFormed) (hprobe : List.Forall₂ heap.Represents probe data)
  (hself : ∀ datum ∈ data, datum.equal datum = true)
include hheap hprobe hself

theorem get?_applyUpdate
    (hupdate : (Standard.strict setting.symbolic).AcceptsAll machine.heap update.values)
    (hgrows : (machine.applyUpdate setting update).heap.Extends heap) :
    (update.Hits heap machine.state.tables.size function key probe → ∃ value,
      (machine.applyUpdate setting update).state.get? heap function key probe = some value ∧
      ∀ datum, machine.heap.Represents update.value datum → heap.Represents value datum) ∧
    (¬ update.Hits heap machine.state.tables.size function key probe →
      (machine.applyUpdate setting update).state.get? heap function key probe =
        machine.state.get? heap function key probe) := by
  obtain ⟨images, datum, himages, hdatum⟩ := exists_represents hconcrete hmachine hupdate
  obtain ⟨args, value, later, hlater, hextends, hflats, hflat, happlied⟩ :=
    exists_applyUpdate hconcrete hmachine.wellFormed himages hdatum
  rw [happlied] at hgrows ⊢
  have hgrows : later.Extends heap := hgrows
  have hflats' := represents_extends hlater hgrows hflats
  have hall := represents_extends hmachine.wellFormed (hextends.trans hgrows) himages
  have hsame : heap.sameArgs args probe = heap.sameArgs update.args probe := by
    rw [sameArgs_eq_of_self hheap hflats' hprobe hself, sameArgs_eq_of_self hheap hall hprobe hself]
  have hset : Bucket.set later args value (machine.state.bucket update.function update.key) =
      Bucket.set heap args value (machine.state.bucket update.function update.key) := by
    refine (Bucket.set_eq_of_agrees (agrees_of_extends hlater hheap hgrows)
      (supports_of_represents hflats) (supports_of_represents hflats') ?_).symm
    intro location hlocation
    have hsupports := supports_of_mem_bucket hconcrete hmachine hlocation
    exact ⟨hsupports.extends hextends, hsupports.extends (hextends.trans hgrows)⟩
  constructor
  · rintro ⟨hlocation, hlt, hhit⟩
    cases hlocation
    refine ⟨value, ?_, ?_⟩
    · rw [get?_eq_get?_bucket, bucket_set, if_pos ⟨rfl, rfl, hlt⟩,
        hset, Bucket.get?_set, hsame, if_pos hhit]
    · intro datum' hdatum'
      rw [hdatum.unique hdatum']
      exact hflat.extends hlater hgrows
  · intro hmiss
    rw [get?_eq_get?_bucket, get?_eq_get?_bucket,
      bucket_set]
    split
    · next hplace =>
        obtain ⟨rfl, rfl, hlt⟩ := hplace
        rw [hset, Bucket.get?_set, hsame, if_neg fun hhit => hmiss ⟨rfl, hlt, hhit⟩]
    · rfl

theorem get?_foldl_applyUpdate_of_misses
    (hupdates : ∀ update ∈ updates,
      (Standard.strict setting.symbolic).AcceptsAll machine.heap update.values)
    (hgrows : (updates.foldl (applyUpdate setting) machine).heap.Extends heap)
    (hmisses : ∀ update ∈ updates,
      ¬ update.Hits heap machine.state.tables.size function key probe) :
    (updates.foldl (applyUpdate setting) machine).state.get? heap function key probe =
      machine.state.get? heap function key probe := by
  induction updates generalizing machine with
  | nil => rfl
  | cons update rest ih =>
    obtain ⟨hmiss, hmisses⟩ := List.forall_mem_cons.mp hmisses
    obtain ⟨hnext, hrest, hlast⟩ := hmachine.continues_cons hupdates
    have hupdate := hupdates update List.mem_cons_self
    rw [List.foldl_cons, ih hnext.upholds hrest hgrows
      (size_applyUpdate hconcrete hmachine hupdate ▸ hmisses)]
    exact (get?_applyUpdate hconcrete hmachine hheap hprobe hself hupdate
      (hlast.grows.trans hgrows)).2 hmiss

theorem exists_get?_foldl_applyUpdate
    (hupdates : ∀ update ∈ updates,
      (Standard.strict setting.symbolic).AcceptsAll machine.heap update.values)
    (hnodup : (updates.map Update.location).Nodup)
    (hgrows : (updates.foldl (applyUpdate setting) machine).heap.Extends heap)
    (hupdate : update ∈ updates)
    (hhit : update.Hits heap machine.state.tables.size function key probe) :
    ∃ value, (updates.foldl (applyUpdate setting) machine).state.get? heap function key probe =
        some value ∧
      ∀ datum, machine.heap.Represents update.value datum → heap.Represents value datum := by
  induction updates generalizing machine with
  | nil => cases hupdate
  | cons first rest ih =>
    obtain ⟨hnotmem, hnodup⟩ := List.nodup_cons.mp hnodup
    obtain ⟨hnext, hrest, hlast⟩ := hmachine.continues_cons hupdates
    have hfirst := hupdates first List.mem_cons_self
    rcases List.mem_cons.mp hupdate with rfl | hmem
    · have hmisses : ∀ other ∈ rest, ¬ other.Hits heap
          (machine.applyUpdate setting update).state.tables.size function key probe := by
        intro other hother hhit'
        refine hnotmem (List.mem_map.mpr ⟨other, hother, ?_⟩)
        rw [hhit'.location, hhit.location]
      rw [List.foldl_cons, get?_foldl_applyUpdate_of_misses hconcrete hnext.upholds hheap hprobe
        hself hrest hgrows hmisses]
      exact (get?_applyUpdate hconcrete hmachine hheap hprobe hself hfirst
        (hlast.grows.trans hgrows)).1 hhit
    · obtain ⟨value, hvalue, hrepresents⟩ := ih hnext.upholds hrest hnodup hgrows hmem
        (size_applyUpdate hconcrete hmachine hfirst ▸ hhit)
      exact ⟨value, hvalue, fun datum hdatum =>
        hrepresents datum (hdatum.extends hmachine.wellFormed hnext.grows)⟩

end Lookup

end Machine

end AbstractStateMachine
