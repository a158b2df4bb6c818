import AbstractStateMachine.Proofs.ListHeap.Containment

/-!
# Standards for values

A standard says which values computations may handle in a heap, and which may be operands of the
comparisons that symbols stand for. The strict one asks that a value is sound throughout. The plain
one asks that a list is allocated and does not look at operands, of which reclamation may take the
lists away; whatever happens, a machine meets it.
-/

namespace AbstractStateMachine

open ListHeap

structure Standard (symbolic : Bool) where
  Accepts : ListHeap → Value → Prop
  AcceptsOperand : ListHeap → Value → Prop
  /-- Whether symbols may come up. -/
  symbols : Prop
  symbols_of_symbolic : symbolic = true → symbols
  of_isScalar : ∀ {heap value}, IsScalar value → Accepts heap value
  symbol_iff : ∀ {heap id}, Accepts heap (.symbol id) ↔ symbols
  verdict_iff : ∀ {heap id lhs op rhs}, Accepts heap (.verdict id lhs op rhs) ↔
    symbols ∧ AcceptsOperand heap lhs ∧ AcceptsOperand heap rhs
  list_iff : ∀ {heap list}, heap.WellFormed →
    (Accepts heap (.list list) ↔
      heap.Live list ∧ ∀ element ∈ heap.toList list, Accepts heap element)
  operand_of_accepts : ∀ {heap value}, Accepts heap value → AcceptsOperand heap value
  accepts_extends : ∀ {heap later value}, heap.WellFormed → heap.Extends later →
    Accepts heap value → Accepts later value
  operand_extends : ∀ {heap later value}, heap.WellFormed → heap.Extends later →
    AcceptsOperand heap value → AcceptsOperand later value

namespace Standard

def strict (symbolic : Bool) : Standard symbolic where
  Accepts heap := heap.Sound symbolic
  AcceptsOperand heap := heap.Sound symbolic
  symbols := symbolic = true
  symbols_of_symbolic := id
  of_isScalar := sound_of_isScalar
  symbol_iff := sound_symbol_iff
  verdict_iff := sound_verdict_iff
  list_iff _ := sound_list_iff
  operand_of_accepts := id
  accepts_extends hheap hgrows h := h.extends hheap hgrows
  operand_extends hheap hgrows h := h.extends hheap hgrows

def plain (symbolic : Bool) : Standard symbolic where
  Accepts heap value := heap.Supports [value]
  AcceptsOperand _ _ := True
  symbols := True
  symbols_of_symbolic _ := trivial
  of_isScalar {_ value} hscalar := supports_iff.mpr fun list hlist => by
    cases List.mem_singleton.mp hlist
    exact hscalar.elim
  symbol_iff := iff_of_true (supports_iff.mpr (by simp)) trivial
  verdict_iff := iff_of_true (supports_iff.mpr (by simp)) ⟨trivial, trivial, trivial⟩
  list_iff {heap list} hheap := by
    have hlive : heap.Supports [.list list] ↔ heap.Live list := by simp [supports_iff]
    refine hlive.trans (iff_self_and.mpr fun hlist element helement => ?_)
    exact (supports_of_denotes hheap (hheap.denotes_toList hlist)).of_mem helement
  operand_of_accepts _ := trivial
  accepts_extends _ hgrows h := h.extends hgrows
  operand_extends _ _ _ := trivial

variable {symbolic : Bool} {std : Standard symbolic} {heap later : ListHeap} {values : List Value}
  {value : Value}

def AcceptsAll (std : Standard symbolic) (heap : ListHeap) (values : List Value) : Prop :=
  ∀ value ∈ values, std.Accepts heap value

theorem AcceptsAll.mono {more : List Value} (h : std.AcceptsAll heap more)
    (hsub : ∀ value ∈ values, value ∈ more) : std.AcceptsAll heap values :=
  fun value hvalue => h value (hsub value hvalue)

theorem acceptsAll_append {more : List Value} :
    std.AcceptsAll heap (values ++ more) ↔
      std.AcceptsAll heap values ∧ std.AcceptsAll heap more :=
  List.forall_mem_append

theorem acceptsAll_cons :
    std.AcceptsAll heap (value :: values) ↔
      std.Accepts heap value ∧ std.AcceptsAll heap values :=
  List.forall_mem_cons

theorem acceptsAll_nil : std.AcceptsAll heap [] :=
  fun _ hvalue => absurd hvalue List.not_mem_nil

theorem acceptsAll_singleton : std.AcceptsAll heap [value] ↔ std.Accepts heap value :=
  List.forall_mem_singleton

theorem accepts_undefined : std.Accepts heap .undefined := std.of_isScalar trivial

theorem symbols_of_isSymbolic (h : std.Accepts heap value) (hvalue : value.isSymbolic = true) :
    std.symbols := by
  cases value with
  | symbol id => exact std.symbol_iff.mp h
  | verdict => exact (std.verdict_iff.mp h).1
  | _ => simp [Value.isSymbolic, Value.kind] at hvalue

section WellFormed

variable (hheap : heap.WellFormed)
include hheap

theorem AcceptsAll.supports {values : List Value} (h : std.AcceptsAll heap values) :
    heap.Supports values :=
  supports_iff.mpr fun _ hlist => ((std.list_iff hheap).mp (h _ hlist)).1

theorem supports_of_accepts {value : Value} (h : std.Accepts heap value) :
    heap.Supports [value] :=
  (acceptsAll_singleton.mpr h).supports hheap

theorem AcceptsAll.extends {values : List Value} (h : std.AcceptsAll heap values)
    (hgrows : heap.Extends later) : std.AcceptsAll later values :=
  fun value hvalue => std.accepts_extends hheap hgrows (h value hvalue)

theorem accepts_of_makes {result : Handle × ListHeap} {elements : List Value}
    (hmakes : heap.Makes result elements) (helements : std.AcceptsAll heap elements) :
    std.Accepts result.2 (.list result.1) := by
  rw [std.list_iff hmakes.wellFormed, hmakes.denotes.toList_eq]
  exact ⟨hmakes.denotes.live, helements.extends hheap hmakes.grows⟩

end WellFormed

theorem acceptsAll_plain_iff : (plain symbolic).AcceptsAll heap values ↔ heap.Supports values :=
  ⟨fun h => supports_iff.mpr fun list hlist => supports_iff.mp (h _ hlist) list List.mem_cons_self,
    fun h _ hvalue => h.of_mem hvalue⟩

end Standard

end AbstractStateMachine
