import AbstractStateMachine.Proofs.Machine.Discipline

/-!
# Machines that uphold a standard

A machine upholds a standard if its heap is well-formed and the standard accepts every value that a
computation can get hold of. This is a discipline: the worlds are list heaps, and lists are only
added to them as long as nothing is reclaimed. New symbols come up in symbolic machines only.
-/

namespace AbstractStateMachine

open ListHeap Standard

variable {symbolic : Bool} {std : Standard symbolic} {heap grown : ListHeap}

namespace Condition

variable {cond : Condition} {value : Value}

def AcceptedBy {symbolic : Bool} (std : Standard symbolic) (heap : ListHeap)
    (cond : Condition) : Prop :=
  std.AcceptsOperand heap cond.lhs ∧ std.AcceptsOperand heap cond.rhs

theorem AcceptedBy.extends (h : cond.AcceptedBy std heap) (hheap : heap.WellFormed)
    (hgrows : heap.Extends grown) : cond.AcceptedBy std grown :=
  h.imp (std.operand_extends hheap hgrows) (std.operand_extends hheap hgrows)

theorem operand_of_isScalar (hscalar : IsScalar value) : std.AcceptsOperand heap value :=
  std.operand_of_accepts (std.of_isScalar hscalar)

theorem AcceptedBy.normalize (h : cond.AcceptedBy std heap) :
    cond.normalize.AcceptedBy std heap := by
  unfold Condition.normalize
  split
  · exact h
  · split
    · exact ⟨h.2, h.1⟩
    · exact ⟨h.2, h.1⟩
    · exact ⟨h.2, operand_of_isScalar trivial⟩
    · exact ⟨h.2, operand_of_isScalar trivial⟩
    · exact h

section Comparison

variable {lhs rhs : Value} (hlhs : std.AcceptsOperand heap lhs)
  (hrhs : std.AcceptsOperand heap rhs)
include hlhs hrhs

theorem acceptedBy_less : (less lhs rhs).AcceptedBy std heap := by
  unfold less
  split
  · exact ⟨hlhs, operand_of_isScalar trivial⟩
  · exact ⟨hrhs, hlhs⟩

theorem acceptedBy_greaterEq : (greaterEq lhs rhs).AcceptedBy std heap := by
  unfold greaterEq
  split
  · exact ⟨hlhs, operand_of_isScalar trivial⟩
  · exact ⟨hrhs, hlhs⟩

theorem acceptedBy_of_ofComparison? {op : BinaryOp} (h : ofComparison? op lhs rhs = some cond) :
    cond.AcceptedBy std heap := by
  have hplain : ∀ op, AcceptedBy std heap ⟨lhs, op, rhs⟩ := fun _ => ⟨hlhs, hrhs⟩
  unfold ofComparison? at h
  split at h <;> cases h
  · exact (hplain _).normalize
  · exact (hplain _).normalize
  · exact (hplain _).normalize
  · exact (hplain _).normalize
  · exact (acceptedBy_less hlhs hrhs).normalize
  · exact (acceptedBy_greaterEq hlhs hrhs).normalize

end Comparison

theorem acceptedBy_of_ofVerdict? (hvalue : std.Accepts heap value)
    (h : ofVerdict? value = some cond) : cond.AcceptedBy std heap := by
  unfold ofVerdict? at h
  split at h <;> cases h
  · exact ⟨std.operand_of_accepts hvalue, operand_of_isScalar trivial⟩
  · exact (std.verdict_iff.mp hvalue).2

theorem acceptedBy_of_ofNegation? (hvalue : std.Accepts heap value)
    (h : ofNegation? value = some cond) : cond.AcceptedBy std heap := by
  unfold ofNegation? at h
  split at h <;> cases h
  · exact ⟨std.operand_of_accepts hvalue, operand_of_isScalar trivial⟩
  · exact (std.verdict_iff.mp hvalue).2

end Condition

/-! ### Standards as disciplines -/

abbrev HeapWorld := { heap : ListHeap // heap.WellFormed }

structure HeapWorld.Later (heap later : HeapWorld) : Prop where
  grows : heap.1.Extends later.1
  within : heap.1.WithinEpoch later.1

theorem HeapWorld.later_refl (heap : HeapWorld) : heap.Later heap := ⟨.refl _, .refl _⟩

theorem HeapWorld.later_trans {heap later last : HeapWorld} (h : heap.Later later)
    (h' : later.Later last) : heap.Later last :=
  ⟨h.grows.trans h'.grows, h.within.trans h'.within⟩

namespace Standard

theorem exists_makes_of_builds (hheap : heap.WellFormed) {values : List Value}
    {made : Handle × ListHeap} (hvalues : std.AcceptsAll heap values)
    (hbuilds : heap.Builds values made) :
    ∃ elements, heap.Makes made elements ∧ std.AcceptsAll heap elements := by
  cases hbuilds with
  | ofList => exact ⟨values, makes_ofList hheap (hvalues.supports hheap), hvalues⟩
  | cons value list =>
    obtain ⟨hvalue, hlist⟩ := acceptsAll_cons.mp hvalues
    obtain ⟨hlive, helements⟩ := (std.list_iff hheap).mp (acceptsAll_singleton.mp hlist)
    exact ⟨_, makes_cons hheap (supports_of_accepts hheap hvalue) (hheap.denotes_toList hlive),
      acceptsAll_cons.mpr ⟨hvalue, helements⟩⟩
  | tail list =>
    obtain ⟨hlive, helements⟩ := (std.list_iff hheap).mp (acceptsAll_singleton.mp hvalues)
    exact ⟨_, makes_tail hheap (hheap.denotes_toList hlive),
      AcceptsAll.mono helements fun _ => List.mem_of_mem_tail⟩
  | flatten list =>
    obtain ⟨hlive, helements⟩ := (std.list_iff hheap).mp (acceptsAll_singleton.mp hvalues)
    exact ⟨_, makes_flatten hheap (hheap.denotes_toList hlive), helements⟩

/-- The path of a recorder has accepted operands, and the heap is the one that is the world. -/
def Suits (std : Standard symbolic) (w : HeapWorld) (heap : ListHeap) (recorder : Recorder) :
    Prop :=
  heap = w.1 ∧ ∀ cond ∈ recorder.path, cond.AcceptedBy std w.1

theorem Suits.later {w w' : HeapWorld} {recorder : Recorder} (h : std.Suits w heap recorder)
    (hlater : w.Later w') : std.Suits w' w'.1 recorder :=
  ⟨rfl, fun cond hcond => (h.2 cond hcond).extends w.2 hlater.grows⟩

theorem Suits.recorded {w : HeapWorld} {recorder recorder' : Recorder}
    (h : std.Suits w heap recorder) (hpath : recorder'.path = recorder.path) :
    std.Suits w heap recorder' :=
  ⟨h.1, hpath ▸ h.2⟩

theorem symbols_of_mayRaise (std : Standard symbolic)
    (h : symbolic = true ∨ ∃ value, std.Accepts heap value ∧ value.isSymbolic = true) :
    std.symbols := by
  rcases h with hsymbolic | ⟨value, hvalue, hsymbolic⟩
  · exact std.symbols_of_symbolic hsymbolic
  · exact symbols_of_isSymbolic hvalue hsymbolic

def discipline {setting : Setting} (std : Standard setting.symbolic) : Discipline setting where
  World := HeapWorld
  Later := HeapWorld.Later
  Allows w := std.Accepts w.1
  AllowsCondition w := Condition.AcceptedBy std w.1
  Suits := std.Suits
  later_refl := HeapWorld.later_refl
  later_trans := HeapWorld.later_trans
  allows_later {w _ _} hlater h := std.accepts_extends w.2 hlater.grows h
  of_isScalar := std.of_isScalar
  of_element {w _ _ _} h hlist := h.1 ▸ ((std.list_iff w.2).mp hlist).2
  of_peek {w _ _ _} h hlist := h.1 ▸ Operation.accepts_peek w.2 hlist
  of_comparison hlhs hrhs := Condition.acceptedBy_of_ofComparison? (std.operand_of_accepts hlhs)
    (std.operand_of_accepts hrhs)
  of_negation := Condition.acceptedBy_of_ofNegation?
  of_verdict := Condition.acceptedBy_of_ofVerdict?
  list {w heap recorder values made} h hvalues hbuilds := by
    rw [h.1] at hbuilds
    obtain ⟨elements, hmakes, helements⟩ := exists_makes_of_builds w.2 hvalues hbuilds
    have hlater : w.Later ⟨made.2, hmakes.wellFormed⟩ := ⟨hmakes.grows, hmakes.within⟩
    exact ⟨_, hlater, h.later hlater, accepts_of_makes w.2 hmakes helements⟩
  builtin {w heap recorder lease op args result} h hargs hresult := by
    rw [h.1] at hresult
    have hgives := Operation.gives_of_builtin w.2 hargs hresult
    have hlater : w.Later ⟨result.2, hgives.wellFormed⟩ := ⟨hgives.grows, hgives.within⟩
    exact ⟨_, hlater, h.later hlater, hgives.accepted⟩
  fresh {w _ _} h hsymbolic :=
    have hsymbols := std.symbols_of_mayRaise hsymbolic
    ⟨w, w.later_refl, h, std.symbol_iff.mpr hsymbols, fun _ hcond =>
      std.verdict_iff.mpr ⟨hsymbols, hcond⟩⟩
  define {w _ _ _ _} _ _ h hsymbolic _ _ :=
    ⟨w, w.later_refl, h, std.symbol_iff.mpr (std.symbols_of_mayRaise (.inr hsymbolic))⟩
  assume _ h hcond _ :=
    ⟨h.1, List.forall_mem_append.mpr ⟨h.2, List.forall_mem_singleton.mpr hcond⟩⟩
  create _ _ _ h _ _ := h.recorded (Recorder.path_create _ _)
  update _ _ _ h _ _ := h
  advance h := h
  repeatOthers _ h := h.recorded (Recorder.path_repeatOthers _)
  finish h := h.recorded Recorder.path_finish

end Standard

namespace Machine

structure Upholds {symbolic : Bool} (std : Standard symbolic) (machine : Machine) : Prop where
  wellFormed : machine.heap.WellFormed
  state : std.AcceptsAll machine.heap machine.state.values
  pending : std.AcceptsAll machine.heap machine.pending.held
  locals : ∀ binding ∈ machine.locals, std.Accepts machine.heap binding.value
  path : ∀ cond ∈ machine.recorder.path, cond.AcceptedBy std machine.heap

/-- What becomes of a machine when nothing is reclaimed. -/
structure Continues (std : Standard symbolic) (machine next : Machine) : Prop where
  upholds : next.Upholds std
  grows : machine.heap.Extends next.heap
  bindings : next.bindings = machine.bindings

variable {machine next : Machine}

theorem Upholds.with_heap (h : machine.Upholds std) (hgrown : grown.WellFormed)
    (hgrows : machine.heap.Extends grown) :
    ({ machine with heap := grown } : Machine).Upholds std where
  wellFormed := hgrown
  state := h.state.extends h.wellFormed hgrows
  pending := h.pending.extends h.wellFormed hgrows
  locals binding hbinding := std.accepts_extends h.wellFormed hgrows (h.locals binding hbinding)
  path cond hcond := (h.path cond hcond).extends h.wellFormed hgrows

theorem Upholds.continues (h : machine.Upholds std) : Continues std machine machine :=
  ⟨h, .refl _, rfl⟩

theorem Continues.trans {last : Machine} (h : Continues std machine next)
    (h' : Continues std next last) : Continues std machine last :=
  ⟨h'.upholds, h.grows.trans h'.grows, h'.bindings.trans h.bindings⟩

theorem Upholds.rebound (h : machine.Upholds std) (hsame : SameHoldings machine next)
    (hlocals : ∀ binding ∈ next.locals, binding ∈ machine.locals) : next.Upholds std where
  wellFormed := hsame.heap ▸ h.wellFormed
  state := by
    rw [hsame.heap, hsame.state]
    exact h.state
  pending := by
    rw [hsame.heap, hsame.pending]
    exact h.pending
  locals binding hbinding := by
    rw [hsame.heap]
    exact h.locals binding (hlocals binding hbinding)
  path := by
    rw [hsame.heap, hsame.path]
    exact h.path

theorem SameHoldings.continues (h : SameHoldings machine next) (hmachine : machine.Upholds std)
    (hbindings : next.bindings = machine.bindings) : Continues std machine next := by
  have hlocals : next.locals = machine.locals := congrArg Prod.fst hbindings
  refine ⟨hmachine.rebound h fun _ hbinding => hlocals ▸ hbinding, ?_, hbindings⟩
  rw [h.heap]
  exact .refl _

theorem Upholds.continues_pending (h : machine.Upholds std) {pending : UpdateSet}
    (hheld : ∀ value ∈ pending.held, value ∈ machine.pending.held) :
    Continues std machine { machine with pending } :=
  ⟨{ h with pending := h.pending.mono hheld }, .refl _, rfl⟩

theorem Upholds.continues_store (h : machine.Upholds std) {recorder : Recorder}
    (hpath : recorder.path = machine.recorder.path) {function : FunctionId} {key : ArgKey}
    {args : List Value} {value : Value} (hargs : std.AcceptsAll machine.heap args)
    (hvalue : std.Accepts machine.heap value) :
    Continues std machine
      { machine with
        recorder
        state := machine.state.set machine.heap function key args value } := by
  refine ⟨{ h with state := fun stored hstored => ?_, path := hpath ▸ h.path }, .refl _, rfl⟩
  rcases Interpretation.mem_values_set hstored with harg | rfl | hold
  · exact hargs stored harg
  · exact hvalue
  · exact h.state stored hold

/-! ### Machines that are governed by a standard -/

variable {setting : Setting} {std : Standard setting.symbolic} {args : List Value} {value : Value}

theorem Upholds.governs (h : machine.Upholds std) :
    std.discipline.Governs ⟨machine.heap, h.wellFormed⟩ machine :=
  ⟨⟨rfl, h.path⟩, h.state, h.pending, h.locals⟩

theorem upholds_of_governs {w : HeapWorld} (h : std.discipline.Governs w machine) :
    machine.Upholds std := by
  obtain ⟨heap, hheap⟩ := w
  obtain ⟨⟨rfl, hpath⟩, hstate, hpending, hlocals⟩ := h
  exact ⟨hheap, hstate, hpending, hlocals, hpath⟩

theorem governs_iff {w : HeapWorld} :
    std.discipline.Governs w machine ↔ machine.heap = w.1 ∧ machine.Upholds std := by
  obtain ⟨heap, hheap⟩ := w
  constructor
  · exact fun h => ⟨h.suits.1, upholds_of_governs h⟩
  · rintro ⟨rfl, h⟩
    exact h.governs

theorem continues_of_governs {w : HeapWorld} (hgrows : machine.heap.Extends w.1)
    (h : std.discipline.Governs w next) (hbindings : next.bindings = machine.bindings) :
    Continues std machine next :=
  ⟨upholds_of_governs h, by rwa [h.suits.1], hbindings⟩

section Operations

variable (h : machine.Upholds std)
include h

theorem Upholds.setSpan (span : Span) : ((backend setting).setSpan span machine).Upholds std :=
  h.rebound ⟨rfl, rfl, rfl, rfl⟩ fun _ => id

theorem Upholds.bindLocal (hvalue : std.Accepts machine.heap value) (name : String) :
    ((backend setting).bindLocal name value machine).Upholds std :=
  upholds_of_governs (h.governs.bindLocal hvalue name)

theorem Upholds.unbindLocal : ((backend setting).unbindLocal machine).Upholds std :=
  h.rebound ⟨rfl, rfl, rfl, rfl⟩ fun _ => List.mem_of_mem_tail

theorem Upholds.enterFrame (hargs : std.AcceptsAll machine.heap args) (params : List String) :
    ((backend setting).enterFrame params args machine).Upholds std :=
  upholds_of_governs (h.governs.enterFrame hargs params)

theorem Upholds.leaveFrame (caller : Machine) :
    ((backend setting).leaveFrame caller machine).Upholds std :=
  h.rebound ⟨rfl, rfl, rfl, rfl⟩ fun _ => List.mem_of_mem_drop

theorem Upholds.abandon : ((backend setting).abandon machine).Upholds std :=
  upholds_of_governs h.governs.abandonStep

theorem continues_halt : Continues std machine (machine.halt setting) :=
  continues_of_governs (.refl _) h.governs.halt rfl

/-! ### Applying updates -/

theorem continues_applyUpdate {update : Update}
    (hupdate : std.AcceptsAll machine.heap update.values) :
    Continues std machine (machine.applyUpdate setting update) := by
  obtain ⟨w, hlater, hnext⟩ := h.governs.applyUpdate hupdate
  obtain ⟨_, _, _, heq⟩ := exists_applyUpdate_eq setting machine update
  exact continues_of_governs hlater.grows hnext (by rw [heq]; rfl)

theorem continues_foldl_applyUpdate {updates : List Update}
    (hupdates : ∀ update ∈ updates, std.AcceptsAll machine.heap update.values) :
    Continues std machine (updates.foldl (applyUpdate setting) machine) := by
  obtain ⟨w, hlater, hnext⟩ := h.governs.foldl_applyUpdate hupdates
  obtain ⟨_, _, _, heq⟩ := exists_foldl_applyUpdate_eq setting machine updates
  exact continues_of_governs hlater.grows hnext (by rw [heq]; rfl)

theorem continues_applyPending (endOfStep : Bool) :
    Continues std machine (machine.applyPending setting endOfStep) := by
  obtain ⟨w, hlater, hnext⟩ := h.governs.applyPending endOfStep
  exact continues_of_governs hlater.grows hnext (bindings_applyPending endOfStep)

theorem withinEpoch_applyPending (endOfStep : Bool) :
    machine.heap.WithinEpoch (machine.applyPending setting endOfStep).heap := by
  obtain ⟨w, hlater, hnext⟩ := h.governs.applyPending endOfStep
  rw [hnext.suits.1]
  exact hlater.within

end Operations

end Machine

end AbstractStateMachine
