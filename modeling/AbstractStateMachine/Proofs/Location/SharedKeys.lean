import AbstractStateMachine.Proofs.Location.Buckets
import AbstractStateMachine.Proofs.UpdateSet.Layers

/-!
# Equal arguments and their keys

A location can be addressed by any tuple that is equal to the one it was written under, provided
that the two have the same key. Walking through equal values meets the same tokens, except that one
walk may meet a positive zero where the other meets a negative one: the two zeros are equal, and
their bit patterns differ. Main statement: under every digest equal tuples find each other's
locations, exactly if the zeros in them have the same signs.
-/

namespace AbstractStateMachine

namespace Binary64

variable {x y : Binary64}

theorem magnitudeBits_eq_of_ordinal_eq (h : x.ordinal = y.ordinal) :
    x.magnitudeBits = y.magnitudeBits := by
  unfold ordinal at h
  split at h <;> split at h <;> omega

theorem bits_eq_iff :
    x.bits = y.bits ↔ x.isNegative = y.isNegative ∧ x.magnitudeBits = y.magnitudeBits := by
  constructor
  · intro h
    simp [isNegative, magnitudeBits, h]
  · rintro ⟨hsign, hmagnitude⟩
    have hx := x.bits.toNat_lt
    have hy := y.bits.toNat_lt
    simp only [isNegative, decide_eq_decide, UInt64.le_iff_toNat_le] at hsign
    have hbit : signBit.toNat = signWeight := by decide
    rw [hbit] at hsign
    simp only [magnitudeBits, signWeight] at hsign hmagnitude
    exact UInt64.toNat_inj.mp (by omega)

theorem bits_eq_of_equal (h : x.equal y = true) :
    x.bits = y.bits ∨ x.isZero = true ∧ y.isZero = true := by
  simp only [equal, Bool.and_eq_true, beq_iff_eq] at h
  have hmagnitude := magnitudeBits_eq_of_ordinal_eq h.2
  by_cases hzero : x.magnitudeBits = 0
  · exact Or.inr ⟨by simpa [isZero] using hzero, by simpa [isZero, ← hmagnitude] using hzero⟩
  · refine Or.inl (bits_eq_iff.mpr ⟨?_, hmagnitude⟩)
    have hordinal := h.2
    rw [ordinal, ordinal, hmagnitude] at hordinal
    cases hx : x.isNegative <;> cases hy : y.isNegative <;>
      simp only [hx, hy, if_true, if_false, Bool.false_eq_true, reduceCtorEq] at hordinal ⊢ <;>
      omega

end Binary64

namespace Token

def zeroSign? : Token → Option Bool
  | .float bits => if Binary64.isZero ⟨bits⟩ then some (Binary64.isNegative ⟨bits⟩) else none
  | _ => none

def Alike (token other : Token) : Prop :=
  token = other ∨ ∃ sign sign', token.zeroSign? = some sign ∧ other.zeroSign? = some sign'

theorem eq_of_zeroSign? {token other : Token} {sign : Bool} (h : token.zeroSign? = some sign)
    (h' : other.zeroSign? = some sign) : token = other := by
  have hfloat : ∀ token : Token, token.zeroSign? = some sign → ∃ bits, token = .float bits ∧
      Binary64.isZero ⟨bits⟩ = true ∧ Binary64.isNegative ⟨bits⟩ = sign := by
    intro token htoken
    cases token with
    | float bits =>
      simp only [zeroSign?, Option.ite_none_right_eq_some, Option.some.injEq] at htoken
      exact ⟨bits, rfl, htoken⟩
    | _ => cases htoken
  obtain ⟨bits, rfl, hzero, hsign⟩ := hfloat token h
  obtain ⟨bits', rfl, hzero', hsign'⟩ := hfloat other h'
  have hbits : bits = bits' := Binary64.bits_eq_iff (x := ⟨bits⟩) (y := ⟨bits'⟩) |>.mpr
    ⟨hsign.trans hsign'.symm, by simp_all [Binary64.isZero]⟩
  rw [hbits]

/-- Sequences that differ at most in the signs of zeros are the same exactly if the signs are. -/
theorem eq_iff_filterMap_zeroSign? {tokens others : List Token}
    (h : List.Forall₂ Alike tokens others) :
    tokens = others ↔ tokens.filterMap zeroSign? = others.filterMap zeroSign? := by
  induction h with
  | nil => simp
  | @cons token other rest rest' halike _ ih =>
    refine ⟨fun heq => by rw [heq], fun heq => ?_⟩
    rcases halike with rfl | ⟨sign, sign', hsign, hsign'⟩
    · rw [List.filterMap_cons, List.filterMap_cons] at heq
      rw [ih.mpr]
      cases hsign : token.zeroSign? with
      | none => simpa [hsign] using heq
      | some sign => simpa [hsign] using heq
    · rw [List.filterMap_cons_some hsign, List.filterMap_cons_some hsign',
        List.cons.injEq] at heq
      rw [eq_of_zeroSign? hsign (heq.1 ▸ hsign'), ih.mpr heq.2]

end Token

namespace ListHeap

variable {heap : ListHeap} {x y : Value} {xs ys : List Value}

theorem forall₂_flatMap_of_allPairs {α β : Type} {related : α → α → Bool} {R : β → β → Prop}
    {f : α → List β} (h : ∀ x y, related x y = true → List.Forall₂ R (f x) (f y)) (xs ys : List α)
    (hpairs : allPairs related xs ys = true) :
    List.Forall₂ R (xs.flatMap f) (ys.flatMap f) :=
  List.rel_flatMap (allPairs_iff_forall₂.mp hpairs) fun x y => h x y

theorem tokensWithin_of_symbolId? {id : Nat} (hx : x.symbolId? = some id) (depth : Nat) :
    heap.tokensWithin depth x = [.symbol id] := by
  cases x <;> first | cases hx; done | (cases hx; cases depth <;> rfl)

theorem alike_refl (tokens : List Token) : List.Forall₂ Token.Alike tokens tokens :=
  List.forall₂_same.mpr fun _ _ => Or.inl rfl

theorem alike_of_sameList {depth : Nat}
    (hlist : ∀ x y, heap.sameList depth x y = true → List.Forall₂ Token.Alike
      (heap.tokensWithin depth (.list x)) (heap.tokensWithin depth (.list y)))
    (h : heap.equalWithin depth x y = true) :
    List.Forall₂ Token.Alike (heap.tokensWithin depth x) (heap.tokensWithin depth y) := by
  have hsymbol : ∀ id, x.symbolId? = some id → List.Forall₂ Token.Alike
      (heap.tokensWithin depth x) (heap.tokensWithin depth y) := by
    intro id hid
    have hy := (equalWithin_iff_of_symbolId? hid).mp h
    rw [tokensWithin_of_symbolId? hid, tokensWithin_of_symbolId? hy.symm]
    exact alike_refl _
  cases x with
  | float x =>
    obtain ⟨z, rfl, hz⟩ := equalWithin_float_iff.mp h
    have htokens : ∀ z : Binary64, heap.tokensWithin depth (.float z) = [.float z.bits] := by
      intro z
      cases depth <;> rfl
    rw [htokens, htokens]
    refine .cons ?_ .nil
    rcases Binary64.bits_eq_of_equal hz with hbits | ⟨hzero, hzero'⟩
    · exact Or.inl (congrArg Token.float hbits)
    · exact Or.inr ⟨_, _, if_pos hzero, if_pos hzero'⟩
  | list x =>
    obtain ⟨z, rfl, hz⟩ := equalWithin_list_iff.mp h
    exact hlist x z hz
  | symbol id => exact hsymbol id rfl
  | verdict id => exact hsymbol id rfl
  | _ =>
    obtain rfl := (equalWithin_iff_eq (by trivial)).mp h
    exact alike_refl _

/-- Equality and the walk that collects tokens go through lists in the same way. -/
theorem alike_of_equalWithin (depth : Nat) (h : heap.equalWithin depth x y = true) :
    List.Forall₂ Token.Alike (heap.tokensWithin depth x) (heap.tokensWithin depth y) := by
  induction depth generalizing x y with
  | zero =>
    refine alike_of_sameList (fun x y hsame => ?_) h
    rw [sameList_zero_iff.mp hsame]
    exact alike_refl _
  | succ depth ih =>
    refine alike_of_sameList (fun x y hsame => ?_) h
    rcases sameList_succ_iff.mp hsame with rfl | hpairs
    · exact alike_refl _
    · exact .cons (Or.inl rfl) (forall₂_flatMap_of_allPairs (fun x y => @ih x y) _ _ hpairs)

/-- The signs of the zeros in a value, in the order in which a walk meets them. -/
def zeroSigns (heap : ListHeap) (value : Value) : List Bool :=
  (heap.tokens value).filterMap Token.zeroSign?

theorem tokens_eq_iff_zeroSigns (h : heap.equal x y = true) :
    heap.tokens x = heap.tokens y ↔ heap.zeroSigns x = heap.zeroSigns y :=
  Token.eq_iff_filterMap_zeroSign? (alike_of_equalWithin _ h)

theorem keyPart_of_not_isDiscrete (digest : Digest) (hx : ¬ IsDiscrete x) :
    heap.keyPart digest x = digest (heap.tokens x) := by
  cases x <;> first | rfl | exact absurd trivial hx

theorem keyPart_eq_iff_zeroSigns (h : heap.equal x y = true) :
    (∀ digest, heap.keyPart digest x = heap.keyPart digest y) ↔
      heap.zeroSigns x = heap.zeroSigns y := by
  by_cases hx : IsDiscrete x
  · obtain rfl := (equalWithin_iff_eq hx).mp h
    exact iff_of_true (fun _ => rfl) rfl
  · have hy : ¬ IsDiscrete y := fun hy => hx ((equalWithin_iff_eq hy).mp (equal_symm h) ▸ hy)
    simp only [keyPart_of_not_isDiscrete _ hx, keyPart_of_not_isDiscrete _ hy]
    rw [← tokens_eq_iff_zeroSigns h]
    exact ⟨fun hkeys => KeyPart.tokens.inj (hkeys .tokens), fun htokens digest => by rw [htokens]⟩

theorem argKey_eq_iff_zeroSigns (h : heap.sameArgs xs ys = true) :
    (∀ digest, heap.argKey digest xs = heap.argKey digest ys) ↔
      xs.map heap.zeroSigns = ys.map heap.zeroSigns := by
  rw [sameArgs, allPairs_iff_forall₂] at h
  induction h with
  | nil => exact iff_of_true (fun _ => rfl) rfl
  | cons hequal _ ih =>
    simp only [argKey, List.map_cons, List.cons.injEq, forall_and]
    exact and_congr (keyPart_eq_iff_zeroSigns hequal) ih

end ListHeap

namespace Interpretation

variable {state : Interpretation} {heap : ListHeap} {function : FunctionId} {key : ArgKey}
  {xs ys : List Value} {value : Value}

theorem get?_set_of_sameArgs (hfunction : function.index < state.tables.size)
    (h : heap.sameArgs xs ys = true) :
    (state.set heap function key xs value).get? heap function key ys = some value := by
  rw [get?_eq_get?_bucket, bucket_set, if_pos ⟨rfl, rfl, hfunction⟩, Bucket.get?_set, if_pos h]

end Interpretation

namespace ListHeap

variable {heap : ListHeap} {digest : Digest} {xs ys : List Value}

/-- What is written to the location of one tuple, in the state or in a sequential layer, is found
there through the other tuple. -/
structure FoundThrough (heap : ListHeap) (digest : Digest) (xs ys : List Value) : Prop where
  argKey_eq : heap.argKey digest xs = heap.argKey digest ys
  stored : ∀ (state : Interpretation) (function : FunctionId) (value : Value),
    function.index < state.tables.size →
      (state.set heap function (heap.argKey digest xs) xs value).get? heap function
        (heap.argKey digest ys) ys = some value
  pending : ∀ (set next : UpdateSet) (function : FunctionId) (value : Value) (span : Span),
    set.inParallel = false → set.add heap digest function xs value span = .ok next →
      next.lookup heap function (heap.argKey digest ys) ys = some value

theorem foundThrough_of_argKey_eq (h : heap.sameArgs xs ys = true)
    (hkey : heap.argKey digest xs = heap.argKey digest ys) : heap.FoundThrough digest xs ys where
  argKey_eq := hkey
  stored state function value hfunction := by
    rw [← hkey]
    exact Interpretation.get?_set_of_sameArgs hfunction h
  pending set next function value span hsequential hadd := by
    rw [← hkey]
    exact UpdateSet.lookup_add_of_sameArgs hsequential hadd h

/-- Equal tuples find what was written through the other one, whatever the digest, exactly if the
zeros in them have the same signs. -/
theorem foundThrough_iff_zeroSigns (h : heap.sameArgs xs ys = true) :
    (∀ digest, heap.FoundThrough digest xs ys) ↔
      xs.map heap.zeroSigns = ys.map heap.zeroSigns := by
  rw [← argKey_eq_iff_zeroSigns h]
  exact ⟨fun hfound digest => (hfound digest).argKey_eq,
    fun hkeys digest => foundThrough_of_argKey_eq h (hkeys digest)⟩

/-- The lists 0 and 2 have the same elements, a zero and 7; the second is the zero in front of the
list 1. -/
def consedZero : ListHeap :=
  let heap := (ListHeap.ofList {} [.float (.zero true), .int 7]).2
  let heap := (heap.ofList [.int 7]).2
  (heap.cons (.float (.zero true)) ⟨1⟩).2

theorem foundThrough_consedZero :
    consedZero.sameArgs [.list ⟨0⟩, .undefined] [.list ⟨2⟩, .undefined] = true ∧
      ∀ digest, consedZero.FoundThrough digest [.list ⟨0⟩, .undefined] [.list ⟨2⟩, .undefined] :=
  ⟨by decide +kernel, (foundThrough_iff_zeroSigns (by decide +kernel)).mpr (by decide +kernel)⟩

/-- The two zeros are equal as arguments, yet a digest that tells token sequences apart gives them
different keys, and what is stored at one is not found through the other. -/
theorem not_foundThrough_negative_zero :
    ¬ ∀ (digest : Digest) (xs ys : List Value), ListHeap.sameArgs {} xs ys = true →
      ListHeap.FoundThrough {} digest xs ys := by
  intro hfound
  have hzeros := hfound .tokens [.float (.zero false)] [.float (.zero true)] (by decide +kernel)
  have hstored := hzeros.stored ⟨#[.empty]⟩ ⟨0⟩ (.int 1) (by decide)
  exact absurd hstored (by decide +kernel)

end ListHeap

end AbstractStateMachine
