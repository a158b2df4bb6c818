import AbstractStateMachine.Proofs.Plain.Representation

/-!
# Heaps up to the names of lists

Which handle a list gets depends on what was allocated before it. A renaming pairs lists of two
heaps that have paired elements, one to one, so that equality, keys and texts of values are the same
on both sides. Whatever an operation makes of paired lists can be paired, too.
-/

namespace AbstractStateMachine

open ListHeap

/-- The values are the same, except that lists go by different names. -/
inductive Value.Renames (names : Handle → Handle → Prop) : Value → Value → Prop where
  | scalar {value : Value} (h : IsScalar value) : Renames names value value
  | list {list other : Handle} (h : names list other) : Renames names (.list list) (.list other)

theorem Value.Renames.imp {names wider : Handle → Handle → Prop} {value other : Value}
    (h : value.Renames names other) (himp : ∀ x y, names x y → wider x y) :
    value.Renames wider other := by
  cases h with
  | scalar hscalar => exact .scalar hscalar
  | list hlist => exact .list (himp _ _ hlist)

namespace ListHeap

def rest? (heap : ListHeap) (list : Handle) : Option Handle :=
  match heap.node? list with
  | some (.head _ rest) => some rest
  | _ => none

/-- Tails share their handles, so lists are paired together with what is behind their heads. -/
structure Renames (names : Handle → Handle → Prop) (heap image : ListHeap) : Prop where
  wellFormed : heap.WellFormed
  wellFormed_image : image.WellFormed
  live : ∀ {list other}, names list other → heap.Live list ∧ image.Live other
  elements : ∀ {list other}, names list other →
    List.Forall₂ (Value.Renames names) (heap.toList list) (image.toList other)
  rest : ∀ {list other}, names list other → Option.Rel names (heap.rest? list) (image.rest? other)
  eq_iff : ∀ {x x' y y'}, names x x' → names y y' → (x = y ↔ x' = y')

section Heaps

variable {heap later image : ListHeap} {names : Handle → Handle → Prop}

theorem rest?_of_extends (hgrows : heap.Extends later) {list : Handle} (hlive : heap.Live list) :
    later.rest? list = heap.rest? list := by
  obtain ⟨node, hnode⟩ := live_iff_exists_node.mp hlive
  obtain ⟨grown, hgrown, hgrows⟩ := hgrows list node hnode
  unfold rest?
  rw [hnode, hgrown]
  cases hgrows <;> rfl

theorem rest?_alloc (hheap : heap.WellFormed) {node : Node} (hnode : ∀ value rest,
    node ≠ .head value rest) : (heap.alloc node).2.rest? (heap.alloc node).1 = none := by
  unfold rest?
  rw [node?_alloc hheap, if_pos rfl]
  cases node with
  | head value rest => exact absurd rfl (hnode value rest)
  | _ => rfl

theorem rest?_ofList (hheap : heap.WellFormed) (values : List Value) :
    (heap.ofList values).2.rest? (heap.ofList values).1 = none :=
  rest?_alloc hheap nofun

theorem rest?_cons (hheap : heap.WellFormed) (value : Value) (list : Handle) :
    (heap.cons value list).2.rest? (heap.cons value list).1 = some list := by
  unfold cons rest?
  rw [node?_alloc hheap, if_pos rfl]

theorem tail_of_rest? {list rest : Handle} (h : heap.rest? list = some rest) :
    heap.tail list = (rest, heap) := by
  unfold rest? at h
  unfold tail
  split at h
  · next hnode =>
      cases h
      rw [hnode]
  · cases h

theorem new_tail (hheap : heap.WellFormed) {list : Handle} (hlive : heap.Live list)
    (h : heap.rest? list = none) : ¬ heap.Live (heap.tail list).1 ∧
      (heap.tail list).2.rest? (heap.tail list).1 = none := by
  obtain ⟨node, hnode⟩ := live_iff_exists_node.mp hlive
  unfold rest? at h
  unfold tail
  rw [hnode] at h ⊢
  cases node with
  | head => cases h
  | _ => exact ⟨not_live_alloc hheap _, rest?_alloc hheap nofun⟩

theorem new_append (hheap : heap.WellFormed) {value : Value} (hvalue : heap.Supports [value])
    (list : Handle) (lease : Lease) : ¬ heap.Live (heap.append lease list value).1 ∧
      (heap.append lease list value).2.rest? (heap.append lease list value).1 = none := by
  unfold append
  split
  · next base buffer length start stop hgrowable =>
      obtain ⟨-, hslot, -⟩ := growable?_eq_some hgrowable
      dsimp only
      generalize hgrown : ({ heap with
        slots := heap.slots.setIfInBounds base.index
          (some ⟨.base (buffer.push value) length, lease.epoch⟩) } : ListHeap) = grown
      have hwell := wellFormed_grown hheap hslot hgrown.symm hvalue
      exact ⟨mt (extends_grown hslot hgrown.symm).live (not_live_alloc hwell _),
        rest?_alloc hwell nofun⟩
  · exact ⟨not_live_alloc hheap _, rest?_alloc hheap nofun⟩

/-- Two lists that are allocated are equal if they are the same or have equal elements. -/
theorem equal_list_iff (hheap : heap.WellFormed) {x y : Handle} (hx : heap.Live x)
    (hy : heap.Live y) : heap.equal (.list x) (.list y) = true ↔
      x = y ∨ allPairs heap.equal (heap.toList x) (heap.toList y) = true := by
  obtain ⟨depth, hmatch, hkept⟩ := exists_keptWithin_self hheap
  have hwithin : ∀ {list}, heap.Live list →
      KeptWithin heap.Live depth (heap.slots.size + 1) (.list list) :=
    fun hlive => hkept _ (supports_iff.mpr fun inner hinner => by
      cases List.mem_singleton.mp hinner
      exact hlive)
  have hinner : ∀ {list}, heap.Live list → ∀ element ∈ heap.toList list,
      KeptWithin heap.Live depth (heap.slots.size + 1) element := fun hlive element helement =>
    hkept element ((supports_of_denotes hheap (hheap.denotes_toList hlive)).of_mem helement)
  show heap.sameList (heap.slots.size + 1) x y = true ↔ _
  rw [sameList_succ_iff, allPairs_congr _ _ fun a ha b hb => ?_]
  exact hmatch.equalWithin_eq (hinner hx a ha) (hmatch.keptWithin_of_mem (hwithin hx) ha)
    (hinner hy b hb) (hmatch.keptWithin_of_mem (hwithin hy) hb)

/-- The lists of a heap under their own names, as far as they hold no symbols. -/
def SameName (heap : ListHeap) (list other : Handle) : Prop :=
  list = other ∧ heap.Sound false (.list list)

theorem renames_of_sound {value : Value} (h : heap.Sound false value) :
    value.Renames heap.SameName value := by
  cases value with
  | list list => exact .list ⟨rfl, h⟩
  | symbol id => exact absurd (sound_symbol_iff.mp h) Bool.false_ne_true
  | verdict => exact absurd (sound_verdict_iff.mp h).1 Bool.false_ne_true
  | _ => exact .scalar trivial

section Supports

variable (h : heap.Renames names image) {values others : List Value}
  (hvalues : List.Forall₂ (Value.Renames names) values others)
include h hvalues

theorem supports_of_renames : heap.Supports values := by
  refine supports_iff.mpr fun list hlist => ?_
  obtain ⟨_, -, hrenames⟩ := exists_mem_of_forall₂ hvalues hlist
  cases hrenames with
  | scalar hscalar => exact hscalar.elim
  | list hpaired => exact (h.live hpaired).1

theorem supports_of_renames_right : image.Supports others := by
  refine supports_iff.mpr fun list hlist => ?_
  obtain ⟨_, -, hrenames⟩ := exists_mem_of_forall₂ hvalues.flip hlist
  generalize hother : Value.list list = other at hrenames
  cases hrenames with
  | scalar hscalar =>
    cases hother
    exact hscalar.elim
  | list hpaired =>
    cases hother
    exact (h.live hpaired).2

end Supports

end Heaps

/-! ### What renamings leave alone -/

namespace Renames

variable {heap image : ListHeap} {names : Handle → Handle → Prop} (h : heap.Renames names image)
include h

theorem exists_represents {value other : Value} (hvalue : value.Renames names other) :
    ∃ datum, heap.Represents value datum ∧ image.Represents other datum := by
  obtain ⟨rank, hrank⟩ := h.wellFormed.nested
  have hlist : ∀ bound list other, rank list < bound → names list other →
      ∃ datum, heap.Represents (.list list) datum ∧ image.Represents (.list other) datum := by
    intro bound
    induction bound with
    | zero => exact fun _ _ hlt => absurd hlt (Nat.not_lt_zero _)
    | succ bound ih =>
      intro list other hlt hpaired
      obtain ⟨hlive, hlive'⟩ := h.live hpaired
      obtain ⟨data, hdata, hdata'⟩ : ∃ data,
          List.Forall₂ heap.Represents (heap.toList list) data ∧
            List.Forall₂ image.Represents (image.toList other) data := by
        refine exists_forall₂_of_mem (h.elements hpaired) fun element helement _ hrenames => ?_
        cases hrenames with
        | scalar hscalar => exact ⟨_, .scalar hscalar, .scalar hscalar⟩
        | @list inner inner' hinner =>
          have hdown := hrank list _ (h.wellFormed.denotes_toList hlive) inner helement
          exact ih inner inner' (by omega) hinner
      exact ⟨.list data, .list hlive hdata, .list hlive' hdata'⟩
  cases hvalue with
  | scalar hscalar => exact ⟨_, .scalar hscalar, .scalar hscalar⟩
  | @list list other hpaired => exact hlist _ list other (Nat.lt_succ_self _) hpaired

theorem exists_represents_all {values others : List Value}
    (hvalues : List.Forall₂ (Value.Renames names) values others) :
    ∃ data, List.Forall₂ heap.Represents values data ∧
      List.Forall₂ image.Represents others data :=
  exists_forall₂_of_mem hvalues fun _ _ _ => h.exists_represents

theorem text_eq {value other : Value} (hvalue : value.Renames names other)
    (spec : Specification) : image.text spec other = heap.text spec value := by
  obtain ⟨datum, hdatum, hdatum'⟩ := h.exists_represents hvalue
  rw [hdatum.text_eq h.wellFormed, hdatum'.text_eq h.wellFormed_image]

theorem argKey_eq {args others : List Value}
    (hargs : List.Forall₂ (Value.Renames names) args others) (digest : Digest) :
    image.argKey digest others = heap.argKey digest args := by
  obtain ⟨data, hdata, hdata'⟩ := h.exists_represents_all hargs
  rw [argKey_eq_of_represents h.wellFormed hdata,
    argKey_eq_of_represents h.wellFormed_image hdata']

theorem equal_eq_of_isScalar {x y y' : Value} (hx : IsScalar x) (hy : y.Renames names y') :
    image.equal x y' = heap.equal x y := by
  obtain ⟨datum, hdatum, hdatum'⟩ := h.exists_represents hy
  exact (equalWithin_of_isScalar hx hdatum' _).trans (equalWithin_of_isScalar hx hdatum _).symm

theorem equal_eq {x x' y y' : Value} (hx : x.Renames names x') (hy : y.Renames names y') :
    image.equal x' y' = heap.equal x y := by
  have hcomm : ∀ (heap : ListHeap) (x y : Value), heap.equal x y = heap.equal y x :=
    fun _ _ _ => Bool.eq_iff_iff.mpr ⟨equal_symm, equal_symm⟩
  obtain ⟨datum, hdatum, -⟩ := h.exists_represents hx
  induction datum using Datum.induction generalizing x x' y y' with
  | scalar datum hscalar =>
    cases hx with
    | scalar hx => exact h.equal_eq_of_isScalar hx hy
    | list =>
      cases hdatum with
      | scalar hlist => exact hlist.elim
      | list => exact absurd rfl (hscalar _)
  | list data ih =>
    obtain ⟨x, rfl, -, helements⟩ := represents_list_iff.mp hdatum
    cases hy with
    | scalar hy =>
      rw [hcomm image, hcomm heap]
      exact h.equal_eq_of_isScalar hy hx
    | @list y y' hy =>
      cases hx with
      | scalar hlist => exact hlist.elim
      | @list _ x' hx =>
        have hpairs : allPairs heap.equal (heap.toList x) (heap.toList y) =
            allPairs image.equal (image.toList x') (image.toList y') := by
          refine allPairs_eq_of_forall₂ (h.elements hx) (h.elements hy) ?_
          intro a ha a' _ haa b _ b' _ hbb
          obtain ⟨datum, hmem, hrepresents⟩ := exists_mem_of_forall₂ helements ha
          exact (ih datum hmem haa hbb hrepresents).symm
        rw [Bool.eq_iff_iff, equal_list_iff h.wellFormed_image (h.live hx).2 (h.live hy).2,
          equal_list_iff h.wellFormed (h.live hx).1 (h.live hy).1, hpairs, h.eq_iff hx hy]

theorem sameArgs_eq {xs xs' ys ys' : List Value}
    (hxs : List.Forall₂ (Value.Renames names) xs xs')
    (hys : List.Forall₂ (Value.Renames names) ys ys') :
    image.sameArgs xs' ys' = heap.sameArgs xs ys :=
  (allPairs_eq_of_forall₂ hxs hys fun _ _ _ _ hx _ _ _ _ hy => (h.equal_eq hx hy).symm).symm

end Renames

/-! ### Renamings made from others -/

theorem renames_self {heap : ListHeap} (hheap : heap.WellFormed) :
    heap.Renames heap.SameName heap where
  wellFormed := hheap
  wellFormed_image := hheap
  live := by
    rintro list _ ⟨rfl, hsound⟩
    exact ⟨(sound_list_iff.mp hsound).1, (sound_list_iff.mp hsound).1⟩
  elements := by
    rintro list _ ⟨rfl, hsound⟩
    refine List.forall₂_same.mpr fun element helement => ?_
    exact renames_of_sound ((sound_list_iff.mp hsound).2 element helement)
  rest := by
    rintro list _ ⟨rfl, hsound⟩
    obtain ⟨hlive, helements⟩ := sound_list_iff.mp hsound
    obtain ⟨node, hnode, hreads⟩ := hheap.denotes_toList hlive
    unfold rest?
    rw [hnode]
    generalize heap.toList list = elements at helements hreads
    cases hreads with
    | @head value rest _ elements hrest hreads =>
      have hdenotes : heap.Denotes rest elements := ⟨_, hrest, hreads⟩
      refine .some ⟨rfl, sound_list_iff.mpr ⟨hdenotes.live, ?_⟩⟩
      rw [hdenotes.toList_eq]
      exact fun element helement => helements element (List.mem_cons_of_mem _ helement)
    | _ => exact .none
  eq_iff := by
    rintro x _ y _ ⟨rfl, -⟩ ⟨rfl, -⟩
    exact Iff.rfl

theorem rel_imp {α β : Type} {R S : α → β → Prop} {a : Option α} {b : Option β}
    (h : Option.Rel R a b) (himp : ∀ a b, R a b → S a b) : Option.Rel S a b := by
  cases h with
  | none => exact .none
  | some h => exact .some (himp _ _ h)

section Combining

variable {heap later middle image grown : ListHeap} {names others : Handle → Handle → Prop}

theorem Renames.extends (h : heap.Renames names image) (hlater : later.WellFormed)
    (hgrown : grown.WellFormed) (hgrows : heap.Extends later) (hgrows' : image.Extends grown) :
    later.Renames names grown where
  wellFormed := hlater
  wellFormed_image := hgrown
  live hpaired := ⟨hgrows.live (h.live hpaired).1, hgrows'.live (h.live hpaired).2⟩
  elements hpaired := by
    rw [toList_of_extends h.wellFormed hgrows (h.live hpaired).1,
      toList_of_extends h.wellFormed_image hgrows' (h.live hpaired).2]
    exact h.elements hpaired
  rest hpaired := by
    rw [rest?_of_extends hgrows (h.live hpaired).1, rest?_of_extends hgrows' (h.live hpaired).2]
    exact h.rest hpaired
  eq_iff := h.eq_iff

theorem Renames.union (h : heap.Renames names image) (h' : heap.Renames others image)
    (hcross : ∀ {x x' y y'}, names x x' → others y y' → (x = y ↔ x' = y')) :
    heap.Renames (fun list other => names list other ∨ others list other) image where
  wellFormed := h.wellFormed
  wellFormed_image := h.wellFormed_image
  live hpaired := hpaired.elim h.live h'.live
  elements hpaired := hpaired.elim
    (fun hpaired => (h.elements hpaired).imp fun _ _ hvalue => hvalue.imp fun _ _ => Or.inl)
    (fun hpaired => (h'.elements hpaired).imp fun _ _ hvalue => hvalue.imp fun _ _ => Or.inr)
  rest hpaired := hpaired.elim
    (fun hpaired => rel_imp (h.rest hpaired) fun _ _ => Or.inl)
    (fun hpaired => rel_imp (h'.rest hpaired) fun _ _ => Or.inr)
  eq_iff := by
    rintro x x' y y' (hx | hx) (hy | hy)
    · exact h.eq_iff hx hy
    · exact hcross hx hy
    · rw [eq_comm, hcross hy hx, eq_comm]
    · exact h'.eq_iff hx hy

theorem renames_comp {value between other : Value} (h : value.Renames names between)
    (h' : between.Renames others other) : value.Renames (Relation.Comp names others) other := by
  cases h with
  | scalar hscalar =>
    cases h' with
    | scalar => exact .scalar hscalar
    | list => exact hscalar.elim
  | list hlist =>
    cases h' with
    | scalar hscalar => exact hscalar.elim
    | list hlist' => exact .list ⟨_, hlist, hlist'⟩

theorem Renames.comp (h : heap.Renames names middle) (h' : middle.Renames others image) :
    heap.Renames (Relation.Comp names others) image where
  wellFormed := h.wellFormed
  wellFormed_image := h'.wellFormed_image
  live := by
    rintro list other ⟨between, hfirst, hsecond⟩
    exact ⟨(h.live hfirst).1, (h'.live hsecond).2⟩
  elements := by
    rintro list other ⟨between, hfirst, hsecond⟩
    exact forall₂_comp (h.elements hfirst) (h'.elements hsecond) fun _ _ _ => renames_comp
  rest := by
    rintro list other ⟨between, hfirst, hsecond⟩
    have hrest := h.rest hfirst
    have hrest' := h'.rest hsecond
    generalize heap.rest? list = a at hrest ⊢
    generalize middle.rest? between = b at hrest hrest'
    generalize image.rest? other = c at hrest' ⊢
    cases hrest with
    | none =>
      cases hrest'
      exact .none
    | some hfirst =>
      cases hrest' with
      | some hsecond => exact .some ⟨_, hfirst, hsecond⟩
  eq_iff := by
    rintro x x' y y' ⟨u, hxu, hux⟩ ⟨v, hyv, hvy⟩
    rw [h.eq_iff hxu hyv, h'.eq_iff hux hvy]

end Combining

end ListHeap

/-! ### Growing renamings -/

/-- Two heaps whose lists are paired. -/
structure Pairing where
  heap : ListHeap
  image : ListHeap
  names : Handle → Handle → Prop
  renames : heap.Renames names image

namespace Pairing

/-- The heaps have grown, and only new lists were paired. -/
structure Later (pairing later : Pairing) : Prop where
  heap : pairing.heap.Extends later.heap
  image : pairing.image.Extends later.image
  names : ∀ list other, pairing.names list other → later.names list other
  fresh : ∀ list other, later.names list other → pairing.names list other ∨
    ¬ pairing.heap.Live list ∧ ¬ pairing.image.Live other

theorem later_refl (pairing : Pairing) : pairing.Later pairing :=
  ⟨.refl _, .refl _, fun _ _ => id, fun _ _ => Or.inl⟩

theorem later_trans {pairing later last : Pairing} (h : pairing.Later later)
    (h' : later.Later last) : pairing.Later last where
  heap := h.heap.trans h'.heap
  image := h.image.trans h'.image
  names list other hpaired := h'.names list other (h.names list other hpaired)
  fresh list other hpaired := by
    rcases h'.fresh list other hpaired with hpaired | ⟨hnew, hnew'⟩
    · exact h.fresh list other hpaired
    · exact .inr ⟨mt h.heap.live hnew, mt h.image.live hnew'⟩

theorem Later.renames {pairing later : Pairing} {value other : Value} (h : pairing.Later later)
    (hvalue : value.Renames pairing.names other) : value.Renames later.names other :=
  hvalue.imp h.names

variable (pairing : Pairing)

/-- The two lists that were made can be paired. -/
def Pairs (made made' : Handle × ListHeap) : Prop :=
  ∃ later : Pairing, pairing.Later later ∧ later.heap = made.2 ∧ later.image = made'.2 ∧
    later.names made.1 made'.1

variable {pairing}

theorem pairs_of_makes {made made' : Handle × ListHeap} {elements elements' : List Value}
    (hmakes : pairing.heap.Makes made elements) (hmakes' : pairing.image.Makes made' elements')
    (helements : List.Forall₂ (Value.Renames pairing.names) elements elements')
    (hnew : ¬ pairing.heap.Live made.1) (hnew' : ¬ pairing.image.Live made'.1)
    (hrest : Option.Rel pairing.names (made.2.rest? made.1) (made'.2.rest? made'.1)) :
    pairing.Pairs made made' := by
  have hgrown := pairing.renames.extends hmakes.wellFormed hmakes'.wellFormed hmakes.grows
    hmakes'.grows
  have hrenames : made.2.Renames (fun list other => pairing.names list other ∨
      list = made.1 ∧ other = made'.1) made'.2 := by
    refine ⟨hgrown.wellFormed, hgrown.wellFormed_image, ?_, ?_, ?_, ?_⟩
    · rintro list other (hpaired | ⟨rfl, rfl⟩)
      · exact hgrown.live hpaired
      · exact ⟨hmakes.denotes.live, hmakes'.denotes.live⟩
    · rintro list other (hpaired | ⟨rfl, rfl⟩)
      · exact (hgrown.elements hpaired).imp fun _ _ hvalue => hvalue.imp fun _ _ => Or.inl
      · rw [hmakes.denotes.toList_eq, hmakes'.denotes.toList_eq]
        exact helements.imp fun _ _ hvalue => hvalue.imp fun _ _ => Or.inl
    · rintro list other (hpaired | ⟨rfl, rfl⟩)
      · exact rel_imp (hgrown.rest hpaired) fun _ _ => Or.inl
      · exact rel_imp hrest fun _ _ => Or.inl
    · rintro x x' y y' (hx | ⟨rfl, rfl⟩) (hy | ⟨rfl, rfl⟩)
      · exact hgrown.eq_iff hx hy
      · have hlive := pairing.renames.live hx
        exact iff_of_false (fun heq => hnew (heq ▸ hlive.1)) fun heq => hnew' (heq ▸ hlive.2)
      · have hlive := pairing.renames.live hy
        exact iff_of_false (fun heq => hnew (heq ▸ hlive.1)) fun heq => hnew' (heq ▸ hlive.2)
      · exact iff_of_true rfl rfl
  refine ⟨⟨_, _, _, hrenames⟩, ⟨hmakes.grows, hmakes'.grows, fun _ _ => Or.inl, ?_⟩, rfl, rfl,
    .inr ⟨rfl, rfl⟩⟩
  rintro list other (hpaired | ⟨rfl, rfl⟩)
  · exact .inl hpaired
  · exact .inr ⟨hnew, hnew'⟩

/-! ### Operations on lists -/

section Operations

variable {values others : List Value} {value other : Value} {list list' : Handle}

theorem pairs_ofList (hvalues : List.Forall₂ (Value.Renames pairing.names) values others) :
    pairing.Pairs (pairing.heap.ofList values) (pairing.image.ofList others) := by
  have hrenames := pairing.renames
  refine pairs_of_makes (makes_ofList hrenames.wellFormed (supports_of_renames hrenames hvalues))
    (makes_ofList hrenames.wellFormed_image (supports_of_renames_right hrenames hvalues)) hvalues
    (not_live_alloc hrenames.wellFormed _) (not_live_alloc hrenames.wellFormed_image _) ?_
  rw [rest?_ofList hrenames.wellFormed, rest?_ofList hrenames.wellFormed_image]
  exact .none

variable (hlist : pairing.names list list')
include hlist

theorem exists_elements : ∃ elements elements', pairing.heap.Denotes list elements ∧
    pairing.image.Denotes list' elements' ∧
    List.Forall₂ (Value.Renames pairing.names) elements elements' := by
  obtain ⟨hlive, hlive'⟩ := pairing.renames.live hlist
  exact ⟨_, _, pairing.renames.wellFormed.denotes_toList hlive,
    pairing.renames.wellFormed_image.denotes_toList hlive', pairing.renames.elements hlist⟩

theorem pairs_tail : pairing.Pairs (pairing.heap.tail list) (pairing.image.tail list') := by
  have hrenames := pairing.renames
  have hrest := hrenames.rest hlist
  obtain ⟨elements, elements', hdenotes, hdenotes', helements⟩ := exists_elements hlist
  cases hfound : pairing.heap.rest? list with
  | some rest =>
    cases hfound' : pairing.image.rest? list' with
    | none =>
      rw [hfound, hfound'] at hrest
      cases hrest
    | some rest' =>
      rw [hfound, hfound'] at hrest
      cases hrest with
      | some hrest =>
        rw [tail_of_rest? hfound, tail_of_rest? hfound']
        exact ⟨pairing, later_refl pairing, rfl, rfl, hrest⟩
  | none =>
    cases hfound' : pairing.image.rest? list' with
    | some rest' =>
      rw [hfound, hfound'] at hrest
      cases hrest
    | none =>
      obtain ⟨hnew, hnone⟩ := new_tail hrenames.wellFormed hdenotes.live hfound
      obtain ⟨hnew', hnone'⟩ := new_tail hrenames.wellFormed_image hdenotes'.live hfound'
      refine pairs_of_makes (makes_tail hrenames.wellFormed hdenotes)
        (makes_tail hrenames.wellFormed_image hdenotes') ?_ hnew hnew' ?_
      · cases helements with
        | nil => exact .nil
        | cons _ hrest => exact hrest
      · rw [hnone, hnone']
        exact .none

variable (hvalue : value.Renames pairing.names other)
include hvalue

theorem pairs_cons :
    pairing.Pairs (pairing.heap.cons value list) (pairing.image.cons other list') := by
  have hrenames := pairing.renames
  obtain ⟨elements, elements', hdenotes, hdenotes', helements⟩ := exists_elements hlist
  have hsupports := supports_of_renames hrenames (.cons hvalue .nil)
  have hsupports' := supports_of_renames_right hrenames (.cons hvalue .nil)
  refine pairs_of_makes (makes_cons hrenames.wellFormed hsupports hdenotes)
    (makes_cons hrenames.wellFormed_image hsupports' hdenotes') (.cons hvalue helements)
    (not_live_alloc hrenames.wellFormed _) (not_live_alloc hrenames.wellFormed_image _) ?_
  rw [rest?_cons hrenames.wellFormed, rest?_cons hrenames.wellFormed_image]
  exact .some hlist

theorem pairs_append (lease lease' : Lease) :
    pairing.Pairs (pairing.heap.append lease list value)
      (pairing.image.append lease' list' other) := by
  have hrenames := pairing.renames
  obtain ⟨elements, elements', hdenotes, hdenotes', helements⟩ := exists_elements hlist
  have hsupports := supports_of_renames hrenames (.cons hvalue .nil)
  have hsupports' := supports_of_renames_right hrenames (.cons hvalue .nil)
  obtain ⟨hnew, hnone⟩ := new_append hrenames.wellFormed hsupports list lease
  obtain ⟨hnew', hnone'⟩ := new_append hrenames.wellFormed_image hsupports' list' lease'
  refine pairs_of_makes (makes_append hrenames.wellFormed lease hsupports hdenotes)
    (makes_append hrenames.wellFormed_image lease' hsupports' hdenotes')
    (List.rel_append helements (.cons hvalue .nil)) hnew hnew' ?_
  rw [hnone, hnone']
  exact .none

end Operations

end Pairing

end AbstractStateMachine
