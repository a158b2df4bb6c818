import AbstractStateMachine.Proofs.Value.Content

/-!
# Equality as a partial equivalence

Updates that meet are compared with the first one only, and a location is found through any tuple
that is equal to its own. Both make sense as equality is symmetric and transitive, whatever nodes
represent the lists. It is not an equivalence, as a NaN differs from itself, but without one a value
is equal to each value with the same content, and so to itself.
-/

namespace AbstractStateMachine

structure IsPartialEquivalence {α : Type} (related : α → α → Bool) (regular : α → Prop) : Prop where
  symm : ∀ x y, related x y = related y x
  trans : ∀ x y z, related x y = true → related y z = true → related x z = true
  refl : ∀ x, regular x → related x x = true

theorem IsPartialEquivalence.allPairs {α : Type} {related : α → α → Bool} {regular : α → Prop}
    (h : IsPartialEquivalence related regular) :
    IsPartialEquivalence (allPairs related) fun xs => ∀ x ∈ xs, regular x where
  symm xs ys := by
    have hsymm (x y : α) (hrelated : related x y = true) : related y x = true :=
      h.symm x y ▸ hrelated
    rw [Bool.eq_iff_iff]
    exact ⟨allPairs_symm hsymm xs ys, allPairs_symm hsymm ys xs⟩
  trans := allPairs_trans h.trans
  refl _ hxs := allPairs_refl fun x hx => h.refl x (hxs x hx)

namespace Content

theorem hasNaN_leaf_iff {value : Value} :
    (leaf value).HasNaN ↔ ∃ number, value = .float number ∧ number.isNaN = true := by
  constructor
  · rintro ⟨hnan⟩
    exact ⟨_, rfl, hnan⟩
  · rintro ⟨number, rfl, hnan⟩
    exact .leaf hnan

theorem hasNaN_list_iff {contents : List Content} :
    (list contents).HasNaN ↔ ∃ content ∈ contents, content.HasNaN := by
  constructor
  · rintro (_ | ⟨hmem, hnan⟩)
    exact ⟨_, hmem, hnan⟩
  · rintro ⟨content, hmem, hnan⟩
    exact .list hmem hnan

end Content

namespace ListHeap

/-- The value is allocated and no NaN occurs in it, however deep. -/
def NaNFree (heap : ListHeap) (value : Value) : Prop :=
  ∃ content, heap.HasContent value content ∧ ¬ content.HasNaN

variable {heap : ListHeap} {x y : Value}

theorem equal_of_hasContent (hheap : heap.WellFormed) {content : Content}
    (hx : heap.HasContent x content) (hy : heap.HasContent y content) (hnan : ¬ content.HasNaN) :
    heap.equal x y = true :=
  equal_of_agrees hheap hx hy (agrees_self hnan)

theorem isPartialEquivalence_equal (hheap : heap.WellFormed) :
    IsPartialEquivalence heap.equal heap.NaNFree where
  symm := heap.equal_comm
  trans _ _ _ := equal_trans
  refl _ hfree := by
    obtain ⟨content, hx, hnan⟩ := hfree
    exact equal_of_hasContent hheap hx hx hnan

/-- **Equality is a partial equivalence.** Whatever operations on allocated lists have led to a
heap, comparing two allocated values comes to an end. Equality is symmetric and transitive, on all
values and on all tuples of them. A value without a NaN in it is equal to itself, and to any other
with the same content, and so is a tuple of such values. -/
theorem equal_isPartialEquivalence (heap : ListHeap) (hheap : heap.Attainable) :
    (∀ x y, heap.Supports [x] → heap.Supports [y] → heap.compare x y = pure (heap.equal x y)) ∧
    IsPartialEquivalence heap.equal heap.NaNFree ∧
    IsPartialEquivalence heap.sameArgs (fun xs => ∀ x ∈ xs, heap.NaNFree x) ∧
    ∀ x y content, heap.HasContent x content → heap.HasContent y content → ¬ content.HasNaN →
      heap.equal x y = true := by
  have hequal := isPartialEquivalence_equal hheap.wellFormed
  exact ⟨fun x y => compare_eq_equal hheap.wellFormed, hequal, hequal.allPairs,
    fun x y content => equal_of_hasContent hheap.wellFormed⟩

/-- The lists 1 and 2 both hold `1` and `2.5`, the first as a head and the second in one buffer; the
lists 3 and 4 hold one of them each. -/
def wrappedShapes : ListHeap :=
  let heap := (Op.perform {} (.ofList [.float ⟨0x4004000000000000⟩])).2
  let heap := (Op.perform heap (.cons (.int 1) ⟨0⟩)).2
  let heap := (Op.perform heap (.ofList [.int 1, .float ⟨0x4004000000000000⟩])).2
  let heap := (Op.perform heap (.ofList [.list ⟨1⟩])).2
  (Op.perform heap (.ofList [.list ⟨2⟩])).2

theorem attainable_wrappedShapes : wrappedShapes.Attainable := by
  refine .step (.step (.step (.step (.step .start (.ofList _) ?_) (.cons _ _) ?_) (.ofList _) ?_)
    (.ofList _) ?_) (.ofList _) ?_
  · exact fun _ hlist => nomatch hlist
  · rintro list (_ | ⟨_, ⟨⟩⟩)
    rfl
  · exact fun _ hlist => nomatch hlist
  · rintro list (_ | ⟨_, ⟨⟩⟩)
    rfl
  · rintro list (_ | ⟨_, ⟨⟩⟩)
    rfl

theorem equal_isPartialEquivalence_wrappedShapes :
    wrappedShapes.Attainable ∧ wrappedShapes.NaNFree (.list ⟨3⟩) ∧
      wrappedShapes.equal (.list ⟨3⟩) (.list ⟨3⟩) = true ∧
      wrappedShapes.equal (.list ⟨3⟩) (.list ⟨4⟩) = true ∧
      wrappedShapes.equal (.list ⟨4⟩) (.list ⟨3⟩) = true := by
  let content : Content :=
    .list [.list [.leaf (.int 1), .leaf (.float ⟨0x4004000000000000⟩)]]
  have hfirst : wrappedShapes.HasContent (.list ⟨3⟩) content :=
    .list rfl (.cons (.list rfl (.cons (.leaf rfl) (.cons (.leaf rfl) .nil))) .nil)
  have hsecond : wrappedShapes.HasContent (.list ⟨4⟩) content :=
    .list rfl (.cons (.list rfl (.cons (.leaf rfl) (.cons (.leaf rfl) .nil))) .nil)
  have hnan : ¬ content.HasNaN := by
    simp only [content, Content.hasNaN_list_iff, Content.hasNaN_leaf_iff, List.mem_cons,
      List.not_mem_nil, or_false, exists_eq_or_imp, exists_eq_left, reduceCtorEq, false_and,
      exists_false, false_or, Value.float.injEq, exists_eq_left']
    decide
  obtain ⟨-, hequal, -, hcopies⟩ :=
    equal_isPartialEquivalence wrappedShapes attainable_wrappedShapes
  have hshapes := hcopies _ _ content hfirst hsecond hnan
  exact ⟨attainable_wrappedShapes, ⟨content, hfirst, hnan⟩, hequal.refl _ ⟨content, hfirst, hnan⟩,
    hshapes, hequal.symm _ _ ▸ hshapes⟩

end ListHeap

end AbstractStateMachine
