import AbstractStateMachine.Machine.Exec
import AbstractStateMachine.Proofs.ListHeap.Termination
import AbstractStateMachine.Proofs.Renaming.Basic

/-!
# Equality and the contents of lists

The content of a value is what is left of it when lists are nothing but sequences of contents.
Equality should be a matter of contents. But a list is equal to itself at once, without a look at
its elements, while a copy of it differs from it if it holds a NaN. So between contents that agree
and contents that differ there are those that pass if their lists are shared. Contents without a
NaN are not among them.
-/

namespace AbstractStateMachine

inductive Content where
  | leaf (value : Value)
  | list (elements : List Content)

/-- What is compared of a value that is no list. A symbol is compared by its number. -/
def Value.leaf? : Value → Option Value
  | .list _ => none
  | .verdict id _ _ _ => some (.symbol id)
  | value => some value

def Value.equalLeaf (x y : Value) : Bool := ListHeap.equal {} x y

namespace Content

theorem induction {motive : Content → Prop} (leaf : ∀ value, motive (.leaf value))
    (list : ∀ elements, (∀ element ∈ elements, motive element) → motive (.list elements)) :
    ∀ content, motive content
  | .leaf value => leaf value
  | .list elements => list elements fun element _ => induction leaf list element

/-- Contents that are equal: lists if their elements are, one by one. -/
inductive Agrees : Content → Content → Prop where
  | leaf {x y : Value} (h : x.equalLeaf y = true) : Agrees (.leaf x) (.leaf y)
  | list {xs ys : List Content} (h : List.Forall₂ Agrees xs ys) : Agrees (.list xs) (.list ys)

/-- Contents that can be equal: the same list may stand on both sides, whatever is in it. -/
inductive Passes : Content → Content → Prop where
  | leaf {x y : Value} (h : x.equalLeaf y = true) : Passes (.leaf x) (.leaf y)
  | same (xs : List Content) : Passes (.list xs) (.list xs)
  | list {xs ys : List Content} (h : List.Forall₂ Passes xs ys) : Passes (.list xs) (.list ys)

inductive HasNaN : Content → Prop where
  | leaf {x : Binary64} (h : x.isNaN = true) : HasNaN (.leaf (.float x))
  | list {xs : List Content} {content : Content} (hmem : content ∈ xs) (h : content.HasNaN) :
      HasNaN (.list xs)

/-- Whether values with these contents are equal is the same for all of them. -/
def Decisive (first second : Content) : Prop := first.Passes second → first.Agrees second

end Content

namespace ListHeap

inductive HasContent (heap : ListHeap) : Value → Content → Prop where
  | leaf {value leaf : Value} (h : value.leaf? = some leaf) : HasContent heap value (.leaf leaf)
  | list {list : Handle} {contents : List Content} (hlive : heap.Live list)
      (helements : List.Forall₂ (HasContent heap) (heap.toList list) contents) :
      HasContent heap (.list list) (.list contents)

variable {heap later base : ListHeap} {a b value x y : Value} {content first second : Content}
  {contents : List Content} {values : List Value}

/-! ### Leaves -/

theorem equalWithin_of_leaf? {depth : Nat} (ha : a.leaf? = some x) :
    heap.equalWithin depth a b = heap.equalWithin depth x b := by
  cases a with
  | list => cases ha
  | verdict id lhs op rhs =>
    cases ha
    rw [Bool.eq_iff_iff, equalWithin_iff_of_symbolId? rfl, equalWithin_iff_of_symbolId? rfl]
  | _ =>
    cases ha
    rfl

theorem equal_comm (heap : ListHeap) (a b : Value) : heap.equal a b = heap.equal b a :=
  Bool.eq_iff_iff.mpr ⟨equal_symm, equal_symm⟩

theorem not_list_of_leaf? (ha : a.leaf? = some x) (list : Handle) : x ≠ .list list := by
  rintro rfl
  cases a <;> cases ha

theorem equal_eq_equalLeaf (ha : a.leaf? = some x) (hb : b.leaf? = some y) :
    heap.equal a b = x.equalLeaf y := by
  calc heap.equal a b = heap.equal x b := equalWithin_of_leaf? ha
    _ = heap.equal b x := equal_comm heap x b
    _ = heap.equal y x := equalWithin_of_leaf? hb
    _ = heap.equal x y := equal_comm heap y x
    _ = x.equalLeaf y := equalWithin_eq_of_not_list (not_list_of_leaf? ha)

theorem equal_list_eq_false (ha : a.leaf? = some x) (list : Handle) :
    heap.equal (.list list) a = false := by
  rw [equal_comm, ← Bool.not_eq_true]
  intro hequal
  obtain ⟨other, heq, -⟩ := equalWithin_list_iff.mp (equal_symm hequal)
  cases heq
  cases ha

/-! ### Contents -/

theorem hasContent_leaf_iff : heap.HasContent value (.leaf x) ↔ value.leaf? = some x := by
  constructor
  · rintro ⟨hleaf⟩
    exact hleaf
  · exact .leaf

theorem hasContent_list_iff : heap.HasContent value (.list contents) ↔
    ∃ list, value = .list list ∧ heap.Live list ∧
      List.Forall₂ heap.HasContent (heap.toList list) contents := by
  constructor
  · rintro (_ | ⟨hlive, helements⟩)
    exact ⟨_, rfl, hlive, helements⟩
  · rintro ⟨list, rfl, hlive, helements⟩
    exact .list hlive helements

theorem HasContent.unique (h : heap.HasContent value content) {other : Content}
    (h' : heap.HasContent value other) : other = content := by
  induction content using Content.induction generalizing value other with
  | leaf x =>
    rw [hasContent_leaf_iff] at h
    cases h' with
    | leaf h' => rw [Option.some.inj (h'.symm.trans h)]
    | list => cases h
  | list contents ih =>
    obtain ⟨list, rfl, -, helements⟩ := hasContent_list_iff.mp h
    cases h' with
    | leaf h' => cases h'
    | list _ helements' =>
      have hsame : List.Forall₂ (fun value content => ∀ other, heap.HasContent value other →
          other = content) (heap.toList list) contents :=
        forall₂_imp_of_mem helements fun _ _ content hcontent h _ => ih content hcontent h
      have heq := forall₂_comp helements'.flip hsame fun other _ _ h' h => h other h'
      rw [List.forall₂_eq_eq_eq] at heq
      rw [heq]

theorem HasContent.extends (hheap : heap.WellFormed) (hgrows : heap.Extends later)
    (h : heap.HasContent value content) : later.HasContent value content := by
  induction content using Content.induction generalizing value with
  | leaf x => exact .leaf (hasContent_leaf_iff.mp h)
  | list contents ih =>
    obtain ⟨list, rfl, hlive, helements⟩ := hasContent_list_iff.mp h
    refine .list (hgrows.live hlive) ?_
    rw [toList_of_extends hheap hgrows hlive]
    exact forall₂_imp_of_mem helements fun value _ content hcontent => ih content hcontent

theorem HasContent.supports (h : heap.HasContent value content) : heap.Supports [value] := by
  refine supports_iff.mpr fun list hlist => ?_
  cases List.mem_singleton.mp hlist
  cases h with
  | leaf h => cases h
  | list hlive _ => exact hlive

theorem supports_of_hasContent (h : List.Forall₂ heap.HasContent values contents) :
    heap.Supports values := by
  refine supports_iff.mpr fun list hlist => ?_
  obtain ⟨content, -, hcontent⟩ := exists_mem_of_forall₂ h hlist
  exact supports_iff.mp hcontent.supports list List.mem_cons_self

theorem hasContent_of_makes (hheap : heap.WellFormed) {result : Handle × ListHeap}
    {elements : List Value} (hmakes : heap.Makes result elements)
    (helements : List.Forall₂ heap.HasContent elements contents) :
    result.2.HasContent (.list result.1) (.list contents) := by
  refine .list hmakes.denotes.live ?_
  rw [hmakes.denotes.toList_eq]
  exact helements.imp fun _ _ => HasContent.extends hheap hmakes.grows

/-- Lists nest finitely, so all that is allocated has a content. -/
theorem exists_hasContent (hheap : heap.WellFormed) (hvalue : heap.Supports [value]) :
    ∃ content, heap.HasContent value content := by
  obtain ⟨rank, hrank⟩ := hheap.nested
  have hlists : ∀ bound list, rank list < bound → heap.Live list →
      ∃ content, heap.HasContent (.list list) content := by
    intro bound
    induction bound with
    | zero => exact fun list hlt => absurd hlt (Nat.not_lt_zero _)
    | succ bound ih =>
      intro list hlt hlive
      have hdenotes := hheap.denotes_toList hlive
      have helements : ∀ element ∈ heap.toList list, ∃ content,
          heap.HasContent element content := by
        intro element helement
        cases element with
        | list inner =>
          have hsupports := supports_of_denotes hheap hdenotes
          refine ih inner ?_ (supports_iff.mp hsupports inner helement)
          have hlower := hrank list _ hdenotes inner helement
          omega
        | _ => exact ⟨_, .leaf rfl⟩
      obtain ⟨contents, hcontents⟩ := exists_forall₂ helements
      exact ⟨_, .list hlive hcontents⟩
  cases value with
  | list list =>
    exact hlists _ list (Nat.lt_succ_self _) (supports_iff.mp hvalue list List.mem_cons_self)
  | _ => exact ⟨_, .leaf rfl⟩

/-! ### Equality and contents -/

section Bounds

variable (hheap : heap.WellFormed)
include hheap

theorem equal_of_agrees (ha : heap.HasContent a first) (hb : heap.HasContent b second)
    (h : first.Agrees second) : heap.equal a b = true := by
  induction first using Content.induction generalizing a b second with
  | leaf x =>
    cases h with
    | leaf h =>
      rw [equal_eq_equalLeaf (hasContent_leaf_iff.mp ha) (hasContent_leaf_iff.mp hb)]
      exact h
  | list xs ih =>
    cases h with
    | @list _ ys h =>
      obtain ⟨l, rfl, hl, hxs⟩ := hasContent_list_iff.mp ha
      obtain ⟨m, rfl, hm, hys⟩ := hasContent_list_iff.mp hb
      have hequal : List.Forall₂ (fun x y => ∀ a b, heap.HasContent a x →
          heap.HasContent b y → heap.equal a b = true) xs ys :=
        forall₂_imp_of_mem h fun x hx _ _ hagrees a b ha hb => ih x hx ha hb hagrees
      refine (equal_list_iff hheap hl hm).mpr (.inr (allPairs_iff_forall₂.mpr ?_))
      exact forall₂_comp (forall₂_comp hxs hequal fun a x y ha h b => h a b ha) hys.flip
        fun a y b h hb => h b hb

theorem passes_of_equal (ha : heap.HasContent a first) (hb : heap.HasContent b second)
    (h : heap.equal a b = true) : first.Passes second := by
  induction first using Content.induction generalizing a b second with
  | leaf x =>
    cases hb with
    | leaf hb =>
      rw [equal_eq_equalLeaf (hasContent_leaf_iff.mp ha) hb] at h
      exact .leaf h
    | @list m =>
      rw [equal_comm, equal_list_eq_false (hasContent_leaf_iff.mp ha)] at h
      cases h
  | list xs ih =>
    obtain ⟨l, rfl, hl, hxs⟩ := hasContent_list_iff.mp ha
    cases hb with
    | leaf hb =>
      rw [equal_list_eq_false hb] at h
      cases h
    | @list m ys hm hys =>
      rcases (equal_list_iff hheap hl hm).mp h with rfl | hpairs
      · cases HasContent.unique ha (.list hm hys)
        exact .same xs
      · have hpasses : List.Forall₂ (fun a x => ∀ b y, heap.HasContent b y →
            heap.equal a b = true → x.Passes y) (heap.toList l) xs :=
          forall₂_imp_of_mem hxs fun a _ x hx ha b y hb h => ih x hx ha hb h
        have hmixed := forall₂_comp hpasses.flip (allPairs_iff_forall₂.mp hpairs)
          fun x a b hpasses h y hb => hpasses b y hb h
        exact .list (forall₂_comp hmixed hys fun x b y h hb => h y hb)

end Bounds

/-! ### Sharing and copying -/

theorem Attainable.ofList (hheap : heap.Attainable) (hvalues : heap.Supports values) :
    (heap.ofList values).2.Attainable :=
  .step hheap (.ofList values) hvalues

/-- A value can be made of the content, and this can be put off until more lists are there. -/
def Makeable (heap : ListHeap) (R : ListHeap → Value → Value → Content → Prop) (a : Value)
    (content : Content) : Prop :=
  ∀ {middle : ListHeap}, middle.Attainable → heap.Extends middle →
    ∃ later value, later.Attainable ∧ middle.Extends later ∧ R later a value content

theorem exists_all {R : ListHeap → Value → Value → Content → Prop} (hheap : heap.Attainable)
    {items : List Value} (h : List.Forall₂ (heap.Makeable R) items contents)
    (hstays : ∀ {heap later : ListHeap} {a value content}, heap.WellFormed → later.WellFormed →
      heap.Extends later → R heap a value content → R later a value content) :
    ∃ later values, later.Attainable ∧ heap.Extends later ∧
      List.Forall₂ (fun a value => ∃ content, R later a value content) items values ∧
      List.Forall₂ (fun value content => ∃ a, R later a value content) values contents := by
  induction h with
  | nil => exact ⟨heap, [], hheap, .refl heap, .nil, .nil⟩
  | cons hitem _ ih =>
    obtain ⟨middle, values, hmiddle, hgrows, hvalues, hcontents⟩ := ih
    obtain ⟨later, value, hlater, hgrows', hvalue⟩ := hitem hmiddle hgrows
    have hstays' {a value content} (h : R middle a value content) : R later a value content :=
      hstays hmiddle.wellFormed hlater.wellFormed hgrows' h
    refine ⟨later, value :: values, hlater, hgrows.trans hgrows', .cons ⟨_, hvalue⟩ ?_,
      .cons ⟨_, hvalue⟩ ?_⟩
    · exact hvalues.imp fun _ _ => .imp fun _ => hstays'
    · exact hcontents.imp fun _ _ => .imp fun _ => hstays'

structure Detached (base heap : ListHeap) (value : Value) (content : Content) : Prop where
  grows : base.Extends heap
  holds : heap.HasContent value content
  agrees : ∀ a first, base.HasContent a first → heap.equal a value = true → first.Agrees content

theorem Detached.extends (hbase : base.WellFormed) (hheap : heap.WellFormed)
    (hlater : later.WellFormed) (hgrows : heap.Extends later)
    (h : base.Detached heap value content) : base.Detached later value content := by
  refine ⟨h.grows.trans hgrows, h.holds.extends hheap hgrows, fun a first ha hequal => ?_⟩
  have ha' := (ha.extends hbase h.grows).supports
  rw [(agrees_of_extends hheap hlater hgrows).equal_eq ha' (ha'.extends hgrows)
    h.holds.supports (h.holds.supports.extends hgrows)] at hequal
  exact h.agrees a first ha hequal

theorem detached_ofList (hbase : base.WellFormed) (hheap : heap.WellFormed)
    (hgrows : base.Extends heap) (hvalues : List.Forall₂ (base.Detached heap) values contents) :
    base.Detached (heap.ofList values).2 (.list (heap.ofList values).1) (.list contents) := by
  have hcontents := hvalues.imp fun _ _ => Detached.holds
  have hmakes := makes_ofList hheap (supports_of_hasContent hcontents)
  refine ⟨hgrows.trans hmakes.grows, hasContent_of_makes hheap hmakes hcontents, ?_⟩
  intro a first ha hequal
  cases ha with
  | leaf ha =>
    rw [equal_comm, equal_list_eq_false ha] at hequal
    cases hequal
  | @list l xs hl hxs =>
    have hlive : heap.Live l := hgrows.live hl
    rcases (equal_list_iff hmakes.wellFormed (hmakes.grows.live hlive) hmakes.denotes.live).mp
      hequal with rfl | hpairs
    · exact absurd hlive (not_live_alloc hheap _)
    · rw [toList_of_extends hbase (hgrows.trans hmakes.grows) hl, hmakes.denotes.toList_eq,
        allPairs_iff_forall₂] at hpairs
      have hlater := hvalues.imp fun _ _ => Detached.extends hbase hheap hmakes.wellFormed
        hmakes.grows
      have hmixed := forall₂_comp hpairs hlater fun a value content hequal h =>
        fun first ha => h.agrees a first ha hequal
      exact .list (forall₂_comp hxs.flip hmixed fun first a content ha h => h first ha)

theorem exists_detached (hbase : base.WellFormed) (hheap : heap.Attainable)
    (hgrows : base.Extends heap) (h : heap.HasContent value content) :
    ∃ later copy, later.Attainable ∧ heap.Extends later ∧ base.Detached later copy content := by
  induction content using Content.induction generalizing heap value with
  | leaf y =>
    refine ⟨heap, value, hheap, .refl heap, hgrows, h, fun a first ha hequal => ?_⟩
    cases passes_of_equal hheap.wellFormed (ha.extends hbase hgrows) h hequal with
    | leaf h => exact .leaf h
  | list contents ih =>
    obtain ⟨list, rfl, -, helements⟩ := hasContent_list_iff.mp h
    have hitems : List.Forall₂ (heap.Makeable fun later _ => base.Detached later)
        (heap.toList list) contents := by
      refine forall₂_imp_of_mem helements fun element _ content hcontent helement => ?_
      intro middle hmiddle hgrows'
      exact ih content hcontent hmiddle (hgrows.trans hgrows')
        (helement.extends hheap.wellFormed hgrows')
    obtain ⟨later, copies, hlater, hgrows', -, hcopies⟩ :=
      exists_all hheap hitems (Detached.extends hbase)
    have hdetached := hcopies.imp fun _ _ ⟨_, h⟩ => h
    have hsupports := supports_of_hasContent (hdetached.imp fun _ _ => Detached.holds)
    have hmakes := makes_ofList hlater.wellFormed hsupports
    exact ⟨_, _, hlater.ofList hsupports, hgrows'.trans hmakes.grows,
      detached_ofList hbase hlater.wellFormed (hgrows.trans hgrows') hdetached⟩

/-- Two values are equal, of which the second has the content. -/
structure Paired (heap : ListHeap) (a value : Value) (content : Content) : Prop where
  supports : heap.Supports [a]
  holds : heap.HasContent value content
  equal : heap.equal a value = true

theorem Paired.extends (hheap : heap.WellFormed) (hlater : later.WellFormed)
    (hgrows : heap.Extends later) (h : heap.Paired a value content) :
    later.Paired a value content := by
  refine ⟨h.supports.extends hgrows, h.holds.extends hheap hgrows, ?_⟩
  rw [(agrees_of_extends hheap hlater hgrows).equal_eq h.supports (h.supports.extends hgrows)
    h.holds.supports (h.holds.supports.extends hgrows)]
  exact h.equal

/-- What can be equal is equal if lists are shared. -/
theorem exists_paired (hheap : heap.Attainable) (ha : heap.HasContent a first)
    (hb : heap.HasContent b second) (h : first.Passes second) :
    ∃ later other, later.Attainable ∧ heap.Extends later ∧ later.Paired a other second := by
  induction first using Content.induction generalizing heap a b second with
  | leaf x =>
    cases h with
    | leaf h =>
      refine ⟨heap, b, hheap, .refl heap, ha.supports, hb, ?_⟩
      rw [equal_eq_equalLeaf (hasContent_leaf_iff.mp ha) (hasContent_leaf_iff.mp hb)]
      exact h
  | list xs ih =>
    obtain ⟨l, rfl, hl, hxs⟩ := hasContent_list_iff.mp ha
    cases h with
    | same =>
      exact ⟨heap, .list l, hheap, .refl heap, ha.supports, ha,
        (equal_list_iff hheap.wellFormed hl hl).mpr (.inl rfl)⟩
    | @list _ ys hpasses =>
      obtain ⟨m, rfl, -, hys⟩ := hasContent_list_iff.mp hb
      have hitems : List.Forall₂ (heap.Makeable Paired) (heap.toList l) ys := by
        have hfirst := forall₂_imp_of_mem hxs fun a _ x hx ha => And.intro hx ha
        have hsecond := forall₂_imp_of_mem hpasses fun x _ y hy h =>
          And.intro (exists_mem_of_forall₂ hys.flip hy) h
        refine forall₂_comp hfirst hsecond ?_
        rintro a x y ⟨hx, ha⟩ ⟨⟨b, -, hb⟩, h⟩ middle hmiddle hgrows
        exact ih x hx hmiddle (ha.extends hheap.wellFormed hgrows)
          (hb.extends hheap.wellFormed hgrows) h
      obtain ⟨later, others, hlater, hgrows, hequal, hcontents⟩ :=
        exists_all hheap hitems Paired.extends
      have hholds := hcontents.imp fun _ _ ⟨_, h⟩ => Paired.holds h
      have hsupports := supports_of_hasContent hholds
      have hmakes := makes_ofList hlater.wellFormed hsupports
      have hgrows' := hgrows.trans hmakes.grows
      refine ⟨_, _, hlater.ofList hsupports, hgrows', ha.supports.extends hgrows',
        hasContent_of_makes hlater.wellFormed hmakes hholds, ?_⟩
      refine (equal_list_iff hmakes.wellFormed (hgrows'.live hl) hmakes.denotes.live).mpr ?_
      rw [toList_of_extends hheap.wellFormed hgrows' hl, hmakes.denotes.toList_eq,
        allPairs_iff_forall₂]
      refine .inr (hequal.imp fun _ _ ⟨_, h⟩ => ?_)
      exact (Paired.extends hlater.wellFormed hmakes.wellFormed hmakes.grows h).equal

/-! ### Contents that are decisive -/

theorem equalLeaf_self (h : ∀ number, value = .float number → number.isNaN = false) :
    value.equalLeaf value = true := by
  cases value with
  | float number =>
    show number.equal number = true
    rw [Binary64.equal, h number rfl, beq_self_eq_true]
    rfl
  | list list =>
    show (list == list || _) = true
    rw [beq_self_eq_true, Bool.true_or]
  | undefined => rfl
  | _ => exact beq_self_eq_true _

theorem agrees_self (h : ¬ content.HasNaN) : content.Agrees content := by
  induction content using Content.induction with
  | leaf x =>
    refine .leaf (equalLeaf_self ?_)
    rintro number rfl
    exact Bool.not_eq_true _ ▸ fun hnan => h (.leaf hnan)
  | list xs ih =>
    exact .list (List.forall₂_same.mpr fun x hx => ih x hx fun hnan => h (.list hx hnan))

/-- Only a NaN makes a difference to lists that are shared. -/
theorem decisive_of_not_hasNaN (h : ¬ first.HasNaN ∨ ¬ second.HasNaN) :
    first.Decisive second := by
  intro hpasses
  induction first using Content.induction generalizing second with
  | leaf x =>
    cases hpasses with
    | leaf hequal => exact .leaf hequal
  | list xs ih =>
    cases hpasses with
    | same => exact agrees_self (h.elim id id)
    | @list _ ys hpasses =>
      refine .list (forall₂_imp_of_mem hpasses fun x hx y hy hpasses => ?_)
      exact ih x hx (h.imp (mt (.list hx)) (mt (.list hy))) hpasses

theorem equal_iff_agrees (hheap : heap.WellFormed) (ha : heap.HasContent a first)
    (hb : heap.HasContent b second) (h : first.Decisive second) :
    heap.equal a b = true ↔ first.Agrees second :=
  ⟨fun hequal => h (passes_of_equal hheap ha hb hequal), equal_of_agrees hheap ha hb⟩

theorem equal_eq_of_decisive (hheap : heap.WellFormed) (hlater : later.WellFormed)
    {a' b' : Value} (ha : heap.HasContent a first) (hb : heap.HasContent b second)
    (ha' : later.HasContent a' first) (hb' : later.HasContent b' second)
    (h : first.Decisive second) : later.equal a' b' = heap.equal a b := by
  rw [Bool.eq_iff_iff, equal_iff_agrees hlater ha' hb' h, equal_iff_agrees hheap ha hb h]

/-- Contents are decisive if and only if it does not matter what lists represent them. -/
theorem decisive_iff (hheap : heap.Attainable) (ha : heap.HasContent a first)
    (hb : heap.HasContent b second) :
    first.Decisive second ↔ ∀ (later : ListHeap) (a' b' : Value), later.Attainable →
      later.HasContent a' first → later.HasContent b' second →
        later.equal a' b' = heap.equal a b := by
  constructor
  · intro h later a' b' hlater ha' hb'
    exact equal_eq_of_decisive hheap.wellFormed hlater.wellFormed ha hb ha' hb' h
  · intro h hpasses
    obtain ⟨shared, other, hshared, hgrows, hpaired⟩ := exists_paired hheap ha hb hpasses
    obtain ⟨apart, copy, hapart, hgrows', hdetached⟩ :=
      exists_detached hheap.wellFormed hheap (.refl heap) hb
    have hequal : heap.equal a b = true := by
      rw [← h shared a other hshared (ha.extends hheap.wellFormed hgrows) hpaired.holds]
      exact hpaired.equal
    refine hdetached.agrees a first ha ?_
    rw [h apart a copy hapart (ha.extends hheap.wellFormed hgrows') hdetached.holds]
    exact hequal

/-! ### What is decided by equality -/

/-- The values have the same content, which is decisive in comparisons with another. -/
def StandsFor (heap later : ListHeap) (first : Content) (b b' : Value) : Prop :=
  ∃ second, heap.HasContent b second ∧ later.HasContent b' second ∧ first.Decisive second

/-- Comparisons with a value, the arm that it selects and whether it conflicts with another update
are the same for the value that takes its place. -/
structure SameOutcomes (heap later : ListHeap) (a a' : Value) (first : Content) : Prop where
  comparison : ∀ b b', StandsFor heap later first b b' → ∀ op, op = .eq ∨ op = .ne →
    Operation.binary later op a' b' = Operation.binary heap op a b
  selection : ∀ (labels labels' : Expr → Value) (default : Option Stmt) (arms : List (Expr × Stmt)),
    (∀ arm ∈ arms, StandsFor heap later first (labels arm.1) (labels' arm.1)) →
    ∀ machine machine' : Machine, machine.heap = heap → machine'.heap = later →
      (Run.selectArm (fun label => pure (labels' label)) a' default arms machine').1 =
        (Run.selectArm (fun label => pure (labels label)) a default arms machine).1
  conflict : ∀ (layer layer' : Layer) (existing existing' update update' : Update),
    layer.get? (update.function, update.key) = some existing →
    layer'.get? (update'.function, update'.key) = some existing' →
    existing.value = a → existing'.value = a' →
    StandsFor heap later first update.value update'.value →
      (layer'.join later update').isOk = (layer.join heap update).isOk

theorem sameOutcomes (hheap : heap.WellFormed) (hlater : later.WellFormed) {a' : Value}
    (ha : heap.HasContent a first) (ha' : later.HasContent a' first) :
    SameOutcomes heap later a a' first := by
  have hequal {b b' : Value} (h : StandsFor heap later first b b') :
      later.equal a' b' = heap.equal a b := by
    obtain ⟨second, hb, hb', hdecisive⟩ := h
    exact equal_eq_of_decisive hheap hlater ha hb ha' hb' hdecisive
  refine ⟨fun b b' h op hop => ?_, fun labels labels' default arms harms => ?_, ?_⟩
  · rcases hop with rfl | rfl <;> simp only [Operation.binary, hequal h]
  · intro machine machine' hmachine hmachine'
    induction arms with
    | nil => rfl
    | cons arm rest ih =>
      obtain ⟨harm, hrest⟩ := List.forall_mem_cons.mp harms
      show ((if machine'.heap.equal a' (labels' arm.1) then pure (some arm.2) else _ :
          Run (Option Stmt)) machine').1 =
        ((if machine.heap.equal a (labels arm.1) then pure (some arm.2) else _ :
          Run (Option Stmt)) machine).1
      rw [hmachine, hmachine', hequal harm]
      split
      · rfl
      · exact ih hrest
  · intro layer layer' existing existing' update update' hfound hfound' hvalue hvalue' h
    subst hvalue hvalue'
    unfold Layer.join
    simp only [hfound, hfound', hequal h]
    split <;> rfl

theorem hasContent_copy (hheap : heap.Attainable) {list : Handle} (hlive : heap.Live list)
    {copy : Handle × ListHeap}
    (hcopy : copy = heap.ofList (heap.toList list) ∨ copy = heap.flatten list) :
    copy.2.Attainable ∧
      (∀ value content, heap.HasContent value content → copy.2.HasContent value content) ∧
      ∀ content, heap.HasContent (.list list) content →
        copy.2.HasContent (.list copy.1) content := by
  have hdenotes := hheap.wellFormed.denotes_toList hlive
  have hsupports := supports_of_denotes hheap.wellFormed hdenotes
  have hmakes : copy.2.Attainable ∧ heap.Makes copy (heap.toList list) := by
    rcases hcopy with rfl | rfl
    · exact ⟨hheap.ofList hsupports, makes_ofList hheap.wellFormed hsupports⟩
    · refine ⟨.step hheap (.flatten list) fun other hother => ?_,
        makes_flatten hheap.wellFormed hdenotes⟩
      cases List.mem_singleton.mp hother
      exact hlive
  refine ⟨hmakes.1, fun value content => HasContent.extends hheap.wellFormed hmakes.2.grows, ?_⟩
  intro content hcontent
  cases hcontent with
  | leaf h => cases h
  | list _ helements => exact hasContent_of_makes hheap.wellFormed hmakes.2 helements

/-- **Equality and contents.** Allocated values have contents. Whether values with two contents are
equal is the same for all lists that represent them if and only if the contents are decisive, that
is unless they pass when lists are shared and do not agree; and contents are decisive if one of them
has no NaN. A copy of a list has its content. So if the contents are decisive, a comparison, the
selection of an arm and the check for a conflict come out the same for a value with the same
content. -/
theorem equal_settled_by_content_iff {heap : ListHeap} (hheap : heap.Attainable) :
    (∀ a b, heap.Supports [a] → heap.Supports [b] →
      ∃ first second, heap.HasContent a first ∧ heap.HasContent b second ∧
        (first.Decisive second ↔ ∀ (later : ListHeap) (a' b' : Value), later.Attainable →
          later.HasContent a' first → later.HasContent b' second →
            later.equal a' b' = heap.equal a b) ∧
        (¬ first.HasNaN ∨ ¬ second.HasNaN → first.Decisive second)) ∧
    (∀ list, heap.Live list → ∀ copy,
      copy = heap.ofList (heap.toList list) ∨ copy = heap.flatten list →
        copy.2.Attainable ∧
        (∀ value content, heap.HasContent value content → copy.2.HasContent value content) ∧
        ∀ content, heap.HasContent (.list list) content →
          copy.2.HasContent (.list copy.1) content) ∧
    ∀ later : ListHeap, later.Attainable → ∀ a a' first, heap.HasContent a first →
      later.HasContent a' first → SameOutcomes heap later a a' first := by
  refine ⟨fun a b ha hb => ?_, fun list hlive copy => hasContent_copy hheap hlive,
    fun later hlater a a' first => sameOutcomes hheap.wellFormed hlater.wellFormed⟩
  obtain ⟨first, hfirst⟩ := exists_hasContent hheap.wellFormed ha
  obtain ⟨second, hsecond⟩ := exists_hasContent hheap.wellFormed hb
  exact ⟨first, second, hfirst, hsecond, decisive_iff hheap hfirst hsecond, decisive_of_not_hasNaN⟩

def twins (element : Value) : ListHeap := (ofList (ofList {} [element]).2 [element]).2

theorem attainable_twins {element : Value} (helement : ∀ list, element ≠ .list list) :
    (twins element).Attainable := by
  have hsupports (heap : ListHeap) : heap.Supports [element] :=
    supports_iff.mpr fun list hlist => absurd (List.mem_singleton.mp hlist).symm (helement list)
  exact (Attainable.ofList .start (hsupports _)).ofList (hsupports _)

theorem equal_settled_by_content_iff_twins :
    let heap := twins (.float ⟨0x3ff8000000000000⟩)
    let content : Content := .list [.leaf (.float ⟨0x3ff8000000000000⟩)]
    heap.Attainable ∧ heap.HasContent (.list ⟨0⟩) content ∧ ¬ content.HasNaN ∧
      heap.equal (.list ⟨1⟩) (.list ⟨0⟩) = heap.equal (.list ⟨0⟩) (.list ⟨0⟩) := by
  intro heap content
  have hheap : heap.Attainable := attainable_twins nofun
  have hfirst : heap.HasContent (.list ⟨0⟩) content := .list rfl (.cons (.leaf rfl) .nil)
  have hcopy : heap.HasContent (.list ⟨1⟩) content := .list rfl (.cons (.leaf rfl) .nil)
  have hnan : ¬ content.HasNaN := by
    intro hnan
    change Content.HasNaN (.list _) at hnan
    cases hnan with
    | list hmem hnan =>
      cases List.mem_singleton.mp hmem
      cases hnan with
      | leaf hnan => exact absurd hnan (by decide)
  obtain ⟨first, second, ha, hb, hiff, hdecisive⟩ := (equal_settled_by_content_iff hheap).1
    (.list ⟨0⟩) (.list ⟨0⟩) hfirst.supports hfirst.supports
  cases hfirst.unique ha
  cases hfirst.unique hb
  exact ⟨hheap, hfirst, hnan, hiff.mp (hdecisive (.inl hnan)) heap _ _ hheap hcopy hfirst⟩

/-- A list that holds a NaN is equal to itself, and a copy of it is not. -/
theorem copy_of_nan_differs :
    let heap := twins (.float (.nan false))
    let content : Content := .list [.leaf (.float (.nan false))]
    heap.Attainable ∧ heap.HasContent (.list ⟨0⟩) content ∧ heap.HasContent (.list ⟨1⟩) content ∧
      heap.equal (.list ⟨0⟩) (.list ⟨0⟩) = true ∧ heap.equal (.list ⟨1⟩) (.list ⟨0⟩) = false := by
  intro heap content
  exact ⟨attainable_twins nofun, .list rfl (.cons (.leaf rfl) .nil),
    .list rfl (.cons (.leaf rfl) .nil), by decide, by decide⟩

end ListHeap

end AbstractStateMachine
