import AbstractStateMachine.Operation
import AbstractStateMachine.Proofs.ListHeap.Standard

/-!
# Results of operators and builtins

Operators on known values give scalars. A builtin that handles no list gives a scalar, too, and sees
of a list that it is one. Others give an element of an operand or a new list of accepted values, so
a standard accepts the result of a builtin if it accepts the operands.
-/

namespace AbstractStateMachine.Operation

open ListHeap Standard

variable {symbolic : Bool} {std : Standard symbolic} {heap later : ListHeap} {lease : Lease}
  {left right value : Value} {op : BinaryOp}

theorem isScalar_of_integerArithmetic {x y : Int64} (h : integerArithmetic op x y = some value) :
    IsScalar value := by
  cases op <;> simp only [integerArithmetic, Option.some.injEq, reduceCtorEq] at h <;> subst h
  case div | mod => split <;> trivial
  all_goals trivial

theorem isScalar_of_floatArithmetic {x y : Binary64} (h : floatArithmetic op x y = some value) :
    IsScalar value := by
  cases op <;> simp only [floatArithmetic, Option.some.injEq, reduceCtorEq] at h <;> subst h <;>
    trivial

theorem isScalar_of_arithmetic (h : arithmetic op left right = .ok value) : IsScalar value := by
  unfold arithmetic at h
  dsimp only at h
  split at h
  · next result hresult =>
      cases h
      split at hresult
      · exact isScalar_of_integerArithmetic hresult
      · exact isScalar_of_floatArithmetic hresult
      · split at hresult <;> cases hresult
        trivial
      · cases hresult
  · cases h

theorem isScalar_of_ordering (h : ordering op left right = .ok value) : IsScalar value := by
  unfold ordering at h
  split at h
  · cases h
  · cases h
    trivial
  · split at h <;> cases h <;> trivial

theorem isScalar_ofTruth (truth : Option Bool) : IsScalar (ofTruth truth) := by
  cases truth <;> trivial

theorem isScalar_of_logic (h : logic op left right = .ok value) : IsScalar value := by
  unfold logic at h
  split at h
  · split at h <;> cases h <;> exact isScalar_ofTruth _
  · cases h

theorem isScalar_of_binary (h : binary heap op left right = .ok value) : IsScalar value := by
  unfold binary at h
  split at h
  · cases h
    trivial
  · cases h
    trivial
  case h_3 | h_4 | h_5 => exact isScalar_of_logic h
  case h_6 | h_7 | h_8 | h_9 | h_10 =>
    split at h
    · cases h
      trivial
    · exact isScalar_of_arithmetic h
  all_goals
    split at h
    · cases h
      trivial
    · exact isScalar_of_ordering h

theorem isScalar_of_not {operand : Value} (h : not operand = .ok value) : IsScalar value := by
  unfold not at h
  split at h <;> cases h <;> trivial

theorem isScalar_optionalInt (number : Option Int64) : IsScalar (optionalInt number) := by
  cases number <;> trivial

theorem isScalar_optionalFloat (number : Option Binary64) : IsScalar (optionalFloat number) := by
  cases number <;> trivial

theorem isScalar_of_conversion {op : Builtin} {operand : Value}
    (h : conversion op operand = some value) : IsScalar value := by
  unfold conversion at h
  split at h
  case h_4 =>
    split at h <;> cases h
    · exact isScalar_optionalInt _
    · exact isScalar_optionalFloat _
  case h_5 => cases h
  all_goals split at h <;> cases h <;> trivial

theorem asFloat_of_conversion {op : Builtin} {operand : Value} {number : Binary64}
    (h : conversion op operand = some (.float number)) : op = .asFloat := by
  unfold conversion at h
  split at h
  case h_4 =>
    split at h
    · cases hnumber : Integer.ofText? (Text.trim _) <;> rw [hnumber] at h <;> cases h
    · rfl
    · cases h
  case h_5 => cases h
  all_goals split at h <;> cases h <;> rfl

/-! ### Builtins -/

/-- The value with a placeholder for a list. -/
def outline : Value → Value
  | .list _ => .list ⟨0⟩
  | value => value

/-- The builtin looks into a list among its operands, or makes a new one from it. -/
inductive HandlesList : Builtin → List Value → Prop where
  | nth (list : Handle) (position : Int64) : HandlesList .nth [.list list, .int position]
  | cons (value : Value) (list : Handle) : HandlesList .cons [value, .list list]
  | app (list : Handle) (value : Value) : HandlesList .app [.list list, value]
  | tail (list : Handle) : HandlesList .tail [.list list]
  | len (list : Handle) : HandlesList .len [.list list]
  | peek (list : Handle) : HandlesList .peek [.list list]

/-- What can be computed without lists. -/
structure Computes (heap : ListHeap) (op : Builtin) (args : List Value)
    (result : Value × ListHeap) : Prop where
  scalar : IsScalar result.1
  heap : result.2 = heap
  float : ∀ number, result.1 = .float number → op = .asFloat ∨ ∃ x, .float x ∈ args

section HandlesList

variable {op : Builtin} {args : List Value} {operand : Value} {result : Value × ListHeap}

theorem computes_of_builtinPair (hlists : ¬ HandlesList op [left, right])
    (h : builtinPair heap lease op left right = .ok result) :
    Computes heap op [left, right] result := by
  have hundefined : Computes heap op [left, right] (.undefined, heap) := ⟨trivial, rfl, nofun⟩
  unfold builtinPair at h
  split at h <;> cases h
  · next base power =>
      refine ⟨isScalar_optionalInt _, rfl, fun number hfloat => ?_⟩
      cases hpower : Integer.pow? base power <;> rw [hpower] at hfloat <;> cases hfloat
  · exact ⟨trivial, rfl, fun _ _ => .inr ⟨_, List.mem_cons_self⟩⟩
  · exact hundefined
  · exact hundefined
  · exact absurd (.nth _ _) hlists
  · exact hundefined
  · exact hundefined
  · exact absurd (.cons _ _) hlists
  · exact hundefined
  · exact absurd (.app _ _) hlists
  · exact hundefined

theorem computes_of_builtinSingle (hlists : ¬ HandlesList op [operand])
    (h : builtinSingle heap op operand = .ok result) : Computes heap op [operand] result := by
  unfold builtinSingle at h
  split at h
  · cases h
    exact ⟨trivial, rfl, nofun⟩
  split at h
  · cases h
    exact ⟨trivial, rfl, nofun⟩
  split at h
  · exact absurd (.tail _) hlists
  · exact absurd (.len _) hlists
  · exact absurd (.peek _) hlists
  · split at h <;> cases h
    next value hvalue =>
      refine ⟨isScalar_of_conversion hvalue, rfl, ?_⟩
      rintro number rfl
      exact .inl (asFloat_of_conversion hvalue)

theorem computes_of_builtin (hlists : ¬ HandlesList op args)
    (h : builtin heap lease op args = .ok result) : Computes heap op args result := by
  unfold builtin at h
  split at h
  · split at h
    · exact computes_of_builtinPair hlists h
    · exact computes_of_builtinSingle hlists h
    · cases h
  · cases h

theorem builtinPair_outline (hop : op.arity = 2) (hlists : ¬ HandlesList op [left, right]) :
    builtinPair heap lease op left right =
      (builtinPair {} default op (outline left) (outline right)).map
        fun result => (result.1, heap) := by
  cases op with
  | pow => cases left <;> cases right <;> rfl
  | nth =>
    cases left with
    | list list =>
      cases right with
      | int position => exact absurd (.nth list position) hlists
      | _ => rfl
    | _ => cases right <;> rfl
  | cons =>
    cases right with
    | list list => exact absurd (.cons left list) hlists
    | _ => cases left <;> rfl
  | app =>
    cases left with
    | list list => exact absurd (.app list right) hlists
    | _ => cases right <;> rfl
  | _ => cases hop

theorem builtinSingle_outline (hlists : ¬ HandlesList op [operand]) :
    builtinSingle heap op operand =
      (builtinSingle {} op (outline operand)).map fun result => (result.1, heap) := by
  cases operand with
  | list list =>
    cases op with
    | tail => exact absurd (.tail list) hlists
    | len => exact absurd (.len list) hlists
    | peek => exact absurd (.peek list) hlists
    | _ => rfl
  | _ => cases op <;> rfl

theorem handlesList_map_outline : HandlesList op (args.map outline) ↔ HandlesList op args := by
  constructor
  · intro h
    match args with
    | [] => cases h
    | [operand] => cases operand <;> cases h <;> constructor
    | [left, right] => cases left <;> cases right <;> cases h <;> constructor
    | first :: second :: _ :: _ =>
      rw [List.map_cons, List.map_cons] at h
      generalize outline first = first at h
      generalize outline second = second at h
      cases h
  · intro h
    cases h <;> constructor

/-- A builtin that handles no list sees nothing of a list but that it is one. -/
theorem builtin_outline (hlists : ¬ HandlesList op args) :
    builtin heap lease op args =
      (builtin {} default op (args.map outline)).map fun result => (result.1, heap) := by
  unfold builtin
  rw [List.length_map]
  split
  · next harity =>
      match args with
      | [] => rfl
      | [operand] => exact builtinSingle_outline hlists
      | [left, right] => exact builtinPair_outline harity.symm hlists
      | _ :: _ :: _ :: _ => rfl
  · rfl

end HandlesList

/-- The result of a builtin is accepted in the heap that it leaves behind. -/
structure Gives (std : Standard symbolic) (heap : ListHeap) (result : Value × ListHeap) :
    Prop where
  wellFormed : result.2.WellFormed
  grows : heap.Extends result.2
  within : heap.WithinEpoch result.2
  accepted : std.Accepts result.2 result.1

section Builtins

variable {result : Value × ListHeap} (hheap : heap.WellFormed) {op : Builtin}
include hheap

theorem gives_unchanged (hvalue : std.Accepts heap value) :
    Gives std heap (value, heap) :=
  ⟨hheap, .refl heap, .refl heap, hvalue⟩

theorem gives_listValue {made : Handle × ListHeap} {elements : List Value}
    (hmakes : heap.Makes made elements) (helements : std.AcceptsAll heap elements) :
    Gives std heap (listValue made) :=
  ⟨hmakes.wellFormed, hmakes.grows, hmakes.within, accepts_of_makes hheap hmakes helements⟩

theorem accepts_nth {list : Handle} (hlist : std.Accepts heap (.list list)) (position : Int64) :
    std.Accepts heap (heap.nth list position) := by
  obtain ⟨hlive, helements⟩ := (std.list_iff hheap).mp hlist
  rw [(hheap.denotes_toList hlive).nth_eq]
  split
  · next hposition =>
      have hlt : position.toInt.toNat - 1 < (heap.toList list).length := by omega
      rw [List.getD_eq_getElem?_getD, List.getElem?_eq_getElem hlt, Option.getD_some]
      exact helements _ (List.getElem_mem hlt)
  · exact accepts_undefined

theorem accepts_peek {list : Handle} (hlist : std.Accepts heap (.list list)) :
    std.Accepts heap (heap.peek list) := by
  obtain ⟨hlive, helements⟩ := (std.list_iff hheap).mp hlist
  rw [(hheap.denotes_toList hlive).peek_eq]
  cases hlist : heap.toList list with
  | nil => exact accepts_undefined
  | cons first rest => exact helements first (by rw [hlist]; exact List.mem_cons_self)

theorem gives_of_handlesList {args : List Value} (hlists : HandlesList op args)
    (hargs : std.AcceptsAll heap args) (h : builtin heap lease op args = .ok result) :
    Gives std heap result := by
  have helements : ∀ list, .list list ∈ args → heap.Denotes list (heap.toList list) ∧
      std.AcceptsAll heap (heap.toList list) := by
    intro list hlist
    obtain ⟨hlive, helements⟩ := (std.list_iff hheap).mp (hargs _ hlist)
    exact ⟨hheap.denotes_toList hlive, helements⟩
  cases hlists with
  | nth list position =>
    cases h
    exact gives_unchanged hheap (accepts_nth hheap (hargs _ (by simp)) position)
  | cons value list =>
    cases h
    obtain ⟨hdenotes, helements⟩ := helements list (by simp)
    have hvalue : std.Accepts heap value := hargs _ (by simp)
    exact gives_listValue hheap (makes_cons hheap (supports_of_accepts hheap hvalue) hdenotes)
      (acceptsAll_cons.mpr ⟨hvalue, helements⟩)
  | app list value =>
    cases h
    obtain ⟨hdenotes, helements⟩ := helements list (by simp)
    have hvalue : std.Accepts heap value := hargs _ (by simp)
    exact gives_listValue hheap
      (makes_append hheap lease (supports_of_accepts hheap hvalue) hdenotes)
      (acceptsAll_append.mpr ⟨helements, acceptsAll_cons.mpr ⟨hvalue, acceptsAll_nil⟩⟩)
  | tail list =>
    cases h
    obtain ⟨hdenotes, helements⟩ := helements list (by simp)
    exact gives_listValue hheap (makes_tail hheap hdenotes)
      (AcceptsAll.mono helements fun _ => List.mem_of_mem_tail)
  | len list =>
    cases h
    exact gives_unchanged hheap (std.of_isScalar trivial)
  | peek list =>
    cases h
    exact gives_unchanged hheap (accepts_peek hheap (hargs _ (by simp)))

theorem gives_of_builtin {args : List Value} (hargs : std.AcceptsAll heap args)
    (h : builtin heap lease op args = .ok result) : Gives std heap result := by
  by_cases hlists : HandlesList op args
  · exact gives_of_handlesList hheap hlists hargs h
  · obtain ⟨hscalar, rfl, -⟩ := computes_of_builtin hlists h
    exact gives_unchanged hheap (std.of_isScalar hscalar)

end Builtins

end AbstractStateMachine.Operation
