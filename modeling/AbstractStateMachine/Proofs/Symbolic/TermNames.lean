import AbstractStateMachine.Proofs.Symbolic.ScriptMeaning

/-!
# Which terms scripts tell apart

Terms become numerals, negated numerals and symbols of a script. Texts share one name space with
symbols, truth values and `undef`, and quoting drops their bars, so a text may become the same
expression as another term. `same_iff_eq_or_shadows` says exactly which terms do, and which names
are written as symbols at all.
-/

namespace AbstractStateMachine

def Term.name? : Term → Option String
  | .int _ => none
  | .bool true => some "true"
  | .bool false => some "false"
  | .symbol id => some (symbolName id)
  | .undefined => some "undef"
  | .text content => some (Script.bare content)

/-- A text is written like another term. -/
def Term.Shadows (first second : Term) : Prop :=
  ∃ content, first = .text content ∧ second.name? = some (Script.bare content)

namespace Script

variable {text name : String} {t u : Term} {c : Char}

/-- A simple symbol in quotes is the same symbol without them. -/
def unquoted (text : String) : String :=
  if isSimpleSymbol (bare text) ∧ text.toList = '|' :: (bare text).toList ++ ['|'] then bare text
  else text

/-- Expressions that differ in nothing but quotes. -/
inductive Same : SExpr → SExpr → Prop
  | atom {text other : String} (h : unquoted text = unquoted other) :
    Same (.atom text) (.atom other)
  | nil : Same (.list []) (.list [])
  | cons {item other : SExpr} {rest others : List SExpr} (hitem : Same item other)
    (hrest : Same (.list rest) (.list others)) :
    Same (.list (item :: rest)) (.list (other :: others))

/-- A simple symbol, or a quoted one without bars and backslashes inside. -/
def IsSymbolToken (text : String) : Prop :=
  isSimpleSymbol text = true ∨
    ∃ body : List Char, text.toList = '|' :: body ++ ['|'] ∧ '|' ∉ body ∧ '\\' ∉ body

/-! ### Quotes -/

theorem bare_bare (name : String) : bare (bare name) = bare name := by
  refine bare_eq_self fun c hc => ?_
  rw [bare, String.toList_ofList] at hc
  exact bne_iff_ne.mp (List.mem_filter.mp hc).2

theorem unquoted_eq_self (h : bare text = text) : unquoted text = text := by
  unfold unquoted
  split
  · exact h
  · rfl

theorem bare_toString (n : Nat) : bare (toString n) = toString n := by
  refine bare_eq_self fun c hc => ?_
  rintro rfl
  have hdigits := (Bool.and_eq_true_iff.mp (isNumeral_toString n)).2
  exact absurd (List.all_eq_true.mp hdigits '|' hc) (by decide)

theorem toList_identifier (h : isSimpleSymbol name = false) :
    (identifier name).toList = '|' :: (bare name).toList ++ ['|'] := by
  rw [identifier, h, bare, String.toList_ofList]
  exact String.toList_ofList

theorem bar_notMem_bare (name : String) : '|' ∉ (bare name).toList := by
  rw [bare, String.toList_ofList, List.mem_filter]
  rintro ⟨-, hbar⟩
  cases hbar

theorem unquoted_identifier (name : String) :
    unquoted (identifier name) = identifier (bare name) := by
  cases hsimple : isSimpleSymbol name with
  | true =>
    have hbare := bare_eq_self_of_isSimpleSymbol hsimple
    have hwritten : identifier name = name := if_pos hsimple
    rw [hwritten, unquoted_eq_self hbare, hbare, hwritten]
  | false =>
    have hquoted := toList_identifier hsimple
    rw [unquoted, bare_identifier]
    cases hbare : isSimpleSymbol (bare name) with
    | true => rw [if_pos ⟨rfl, hquoted⟩, identifier, if_pos hbare]
    | false =>
      rw [if_neg nofun]
      apply String.toList_inj.mp
      rw [hquoted, toList_identifier hbare, bare_bare]

theorem identifier_inj {other : String} (hname : bare name = name) (hother : bare other = other) :
    identifier name = identifier other ↔ name = other := by
  constructor
  · intro h
    rw [← hname, ← hother, ← bare_identifier name, ← bare_identifier other, h]
  · intro h
    rw [h]

/-! ### Terms -/

theorem bare_of_name? (h : t.name? = some name) : bare name = name := by
  cases t with
  | int value => cases h
  | bool value => cases value <;> cases h <;> decide
  | symbol id =>
    cases h
    exact bare_symbolName id
  | undefined =>
    cases h
    decide
  | text content =>
    cases h
    exact bare_bare content

theorem exists_term_eq_atom (h : t.name? = some name) :
    ∃ text, term t = .atom text ∧ unquoted text = identifier name := by
  cases t with
  | int value => cases h
  | bool value => cases value <;> cases h <;> exact ⟨_, rfl, by decide⟩
  | symbol id =>
    cases h
    refine ⟨_, rfl, ?_⟩
    rw [unquoted_eq_self (bare_symbolName id), identifier, if_pos (isSimpleSymbol_symbolName id)]
  | undefined =>
    cases h
    exact ⟨_, rfl, by decide⟩
  | text content =>
    cases h
    exact ⟨_, rfl, unquoted_identifier content⟩

theorem same_atom_iff {other : String} :
    Same (.atom text) (.atom other) ↔ unquoted text = unquoted other := by
  constructor
  · rintro ⟨h⟩
    exact h
  · exact .atom

theorem same_numeral_iff {n m : Nat} : Same (.numeral n) (.numeral m) ↔ n = m := by
  rw [SExpr.numeral, SExpr.numeral, same_atom_iff, unquoted_eq_self (bare_toString n),
    unquoted_eq_self (bare_toString m)]
  constructor
  · intro h
    have hread := congrArg numeral? h
    rw [numeral?_toString, numeral?_toString] at hread
    exact Option.some.inj hread
  · intro h
    rw [h]

theorem same_apply_iff {head : String} {arg other : SExpr} :
    Same (.apply head [arg]) (.apply head [other]) ↔ Same arg other := by
  constructor
  · rintro (_ | _ | ⟨-, _ | _ | ⟨harg, -⟩⟩)
    exact harg
  · intro harg
    exact .cons (.atom rfl) (.cons harg .nil)

theorem not_same_apply_numeral {head : String} {args : List SExpr} {n : Nat} :
    ¬Same (.apply head args) (.numeral n) := by
  rintro ⟨⟩

theorem Same.symm {expr other : SExpr} (h : Same expr other) : Same other expr := by
  induction h with
  | atom htext => exact .atom htext.symm
  | nil => exact .nil
  | cons _ _ hitem hrest => exact .cons hitem hrest

theorem term_int (x : Int64) :
    term (.int x) =
      if x.toInt < 0 then .apply "-" [.numeral x.toInt.natAbs] else .numeral x.toInt.natAbs := by
  simp only [term, Int64.lt_iff_toInt_lt, Int64.toInt_zero]

theorem same_int_iff {x y : Int64} : Same (term (.int x)) (term (.int y)) ↔ x = y := by
  rw [term_int, term_int, ← Int64.toInt_inj]
  split
  · split
    · rw [same_apply_iff, same_numeral_iff]
      omega
    · exact iff_of_false not_same_apply_numeral (by omega)
  · split
    · exact iff_of_false (fun h => not_same_apply_numeral h.symm) (by omega)
    · rw [same_numeral_iff]
      omega

theorem not_same_int_atom {x : Int64} (h : unquoted text = identifier name) :
    ¬Same (term (.int x)) (.atom text) := by
  rw [term]
  split
  · rintro ⟨⟩
  · rw [SExpr.numeral, same_atom_iff, unquoted_eq_self (bare_toString _), h]
    intro heq
    have hnumeral := isNumeral_toString x.toInt.natAbs
    rw [heq, isNumeral_identifier] at hnumeral
    cases hnumeral

theorem exists_eq_int (h : t.name? = none) : ∃ x, t = .int x := by
  cases t with
  | int value => exact ⟨value, rfl⟩
  | bool value => cases value <;> cases h
  | symbol id => cases h
  | undefined => cases h
  | text content => cases h

theorem same_term_iff :
    Same (term t) (term u) ↔ t = u ∨ ∃ name, t.name? = some name ∧ u.name? = some name := by
  cases ht : t.name? with
  | none =>
    obtain ⟨x, rfl⟩ := exists_eq_int ht
    simp only [reduceCtorEq, false_and, exists_false, or_false]
    cases hu : u.name? with
    | none =>
      obtain ⟨y, rfl⟩ := exists_eq_int hu
      rw [same_int_iff, Term.int.injEq]
    | some name =>
      obtain ⟨text, hterm, htext⟩ := exists_term_eq_atom hu
      rw [hterm]
      refine iff_of_false (not_same_int_atom htext) ?_
      rintro rfl
      cases hu
  | some name =>
    obtain ⟨text, hterm, htext⟩ := exists_term_eq_atom ht
    cases hu : u.name? with
    | none =>
      obtain ⟨y, rfl⟩ := exists_eq_int hu
      rw [hterm]
      refine iff_of_false (fun h => not_same_int_atom htext h.symm) ?_
      rintro (rfl | ⟨_, _, hnone⟩)
      · cases ht
      · cases hnone
    | some other =>
      obtain ⟨otherText, hother, hotherText⟩ := exists_term_eq_atom hu
      rw [hterm, hother, same_atom_iff, htext, hotherText,
        identifier_inj (bare_of_name? ht) (bare_of_name? hu)]
      constructor
      · rintro rfl
        exact .inr ⟨name, rfl, rfl⟩
      · rintro (rfl | ⟨_, hname, hother⟩)
        · exact Option.some.inj (ht.symm.trans hu)
        · exact Option.some.inj (hname.trans hother.symm)

def words : List Term := [.bool true, .bool false, .undefined]

theorem eq_of_mem_words : ∀ t ∈ words, ∀ u ∈ words, t.name? = u.name? → t = u := by decide

theorem name?_ne_symbolName (ht : t ∈ words) (id : Nat) : t.name? ≠ some (symbolName id) := by
  have hstart : ∀ t ∈ words, ∀ name ∈ t.name?, name.toList.take 3 ≠ ['s', 'y', 'm'] := by decide
  intro hname
  exact symbolName_ne (hstart t ht _ hname) rfl

/-- Texts apart, terms with the same name are the same. -/
theorem eq_or_shadows (ht : t.name? = some name) (hu : u.name? = some name) :
    t = u ∨ t.Shadows u ∨ u.Shadows t := by
  have hcases (v : Term) (hv : v.name? = some name) :
      (∃ content, v = .text content) ∨ v ∈ words ∨ ∃ id, v = .symbol id := by
    cases v with
    | int x => cases hv
    | bool b => cases b <;> exact .inr (.inl (by decide))
    | symbol id => exact .inr (.inr ⟨id, rfl⟩)
    | undefined => exact .inr (.inl (by decide))
    | text content => exact .inl ⟨content, rfl⟩
  rcases hcases t ht with ⟨content, rfl⟩ | htword | ⟨id, rfl⟩
  · cases ht
    exact .inr (.inl ⟨content, rfl, hu⟩)
  · rcases hcases u hu with ⟨content, rfl⟩ | huword | ⟨other, rfl⟩
    · cases hu
      exact .inr (.inr ⟨content, rfl, ht⟩)
    · exact .inl (eq_of_mem_words t htword u huword (ht.trans hu.symm))
    · exact absurd (ht.trans hu.symm) (name?_ne_symbolName htword other)
  · rcases hcases u hu with ⟨content, rfl⟩ | huword | ⟨other, rfl⟩
    · cases hu
      exact .inr (.inr ⟨content, rfl, ht⟩)
    · exact absurd (hu.trans ht.symm) (name?_ne_symbolName huword id)
    · exact .inl (congrArg Term.symbol (symbolName_inj.mp (Option.some.inj (ht.trans hu.symm))))

theorem name?_of_shadows (h : t.Shadows u) : ∃ name, t.name? = some name ∧ u.name? = some name := by
  obtain ⟨content, rfl, hu⟩ := h
  exact ⟨bare content, rfl, hu⟩

/-! ### Symbols -/

theorem isSymbolChar_of_isSimpleSymbol (h : isSimpleSymbol name = true) (hc : c ∈ name.toList) :
    isSymbolChar c = true := by
  unfold isSimpleSymbol at h
  split at h
  · cases h
  · next first rest hname =>
      rw [hname] at hc
      exact List.all_eq_true.mp (Bool.and_eq_true_iff.mp h).2 c hc

theorem toNat_of_isAlphanum (h : c.isAlphanum = true) :
    48 ≤ c.toNat ∧ c.toNat ≤ 57 ∨ 65 ≤ c.toNat ∧ c.toNat ≤ 90 ∨ 97 ≤ c.toNat ∧ c.toNat ≤ 122 := by
  rcases Bool.or_eq_true_iff.mp h with halpha | hdigit
  · rcases Bool.or_eq_true_iff.mp halpha with hupper | hlower
    · exact .inr (.inl (of_decide_eq_true hupper))
    · obtain ⟨hlow, hhigh⟩ := Bool.and_eq_true_iff.mp hlower
      exact .inr (.inr ⟨of_decide_eq_true hlow, of_decide_eq_true hhigh⟩)
  · obtain ⟨hlow, hhigh⟩ := Bool.and_eq_true_iff.mp hdigit
    exact .inl ⟨of_decide_eq_true hlow, of_decide_eq_true hhigh⟩

theorem isQuotable_of_isSymbolChar (h : isSymbolChar c = true) : isQuotable c = true := by
  rcases Bool.or_eq_true_iff.mp h with halphanum | hmark
  · have hrange := toNat_of_isAlphanum halphanum
    have hprintable : 32 ≤ c.toNat ∧ c.toNat ≠ 127 := by omega
    have hbar : c ≠ '|' := by
      rintro rfl
      cases halphanum
    have hbackslash : c ≠ '\\' := by
      rintro rfl
      cases halphanum
    simp [isQuotable, hprintable, hbar, hbackslash]
  · have hmarks : "~!@$%^&*_-+=<>.?/".toList.all isQuotable = true := by decide
    exact List.all_eq_true.mp hmarks c (List.contains_iff_mem.mp hmark)

theorem isSymbolToken_identifier_iff : IsSymbolToken (identifier name) ↔ '\\' ∉ name.toList := by
  cases hsimple : isSimpleSymbol name with
  | true =>
    have hwritten : identifier name = name := if_pos hsimple
    rw [hwritten]
    refine iff_of_true (.inl hsimple) fun hmem => ?_
    exact absurd (isSymbolChar_of_isSimpleSymbol hsimple hmem) (by decide)
  | false =>
    have hquoted := toList_identifier hsimple
    have hbackslash : '\\' ∈ (bare name).toList ↔ '\\' ∈ name.toList := by
      rw [bare, String.toList_ofList, List.mem_filter]
      exact and_iff_left rfl
    rw [← hbackslash]
    constructor
    · rintro (hsymbol | ⟨body, hbody, -, hescaped⟩)
      · have hbar : '|' ∈ (identifier name).toList := by
          rw [hquoted]
          exact List.mem_cons_self
        exact absurd (isSymbolChar_of_isSimpleSymbol hsymbol hbar) (by decide)
      · rw [hquoted] at hbody
        have heq := List.append_cancel_right (List.cons.inj hbody).2
        rwa [heq]
    · intro hescaped
      exact .inr ⟨_, hquoted, bar_notMem_bare name, hescaped⟩

theorem isSome_symbol?_identifier_iff :
    (symbol? (identifier name)).isSome = true ↔
      name ∉ reservedWords ∧ ∀ c ∈ name.toList, c ≠ '|' → isQuotable c = true := by
  have hread : (symbol? (identifier name)).isSome = isWritable name := by
    rw [symbol?_identifier]
    cases isWritable name <;> rfl
  have hsimple : ∀ word ∈ reservedWords, isSimpleSymbol word = true := by decide +kernel
  rw [hread, isWritable]
  split
  · next h =>
      rw [decide_eq_true_iff]
      exact (and_iff_left fun c hc _ =>
        isQuotable_of_isSymbolChar (isSymbolChar_of_isSimpleSymbol h hc)).symm
  · next h =>
      rw [List.all_eq_true]
      simp only [List.mem_filter, bne_iff_ne, and_imp]
      exact (and_iff_right fun hreserved => h (hsimple name hreserved)).symm

/-- Terms are told apart unless one of them is a text that, without its bars, is the name of the
other one. A name is one token unless it has a backslash, and that token is a symbol unless the name
is a reserved word or has a character that no quoted symbol may have. -/
theorem same_iff_eq_or_shadows (t u : Term) (name : String) :
    (Same (term t) (term u) ↔ t = u ∨ t.Shadows u ∨ u.Shadows t) ∧
      (IsSymbolToken (identifier name) ↔ '\\' ∉ name.toList) ∧
      ((symbol? (identifier name)).isSome = true ↔
        name ∉ reservedWords ∧ ∀ c ∈ name.toList, c ≠ '|' → isQuotable c = true) := by
  refine ⟨?_, isSymbolToken_identifier_iff, isSome_symbol?_identifier_iff⟩
  rw [same_term_iff]
  constructor
  · rintro (rfl | ⟨name, ht, hu⟩)
    · exact .inl rfl
    · exact eq_or_shadows ht hu
  · rintro (rfl | hshadows | hshadows)
    · exact .inl rfl
    · exact .inr (name?_of_shadows hshadows)
    · obtain ⟨name, hu, ht⟩ := name?_of_shadows hshadows
      exact .inr ⟨name, ht, hu⟩

/-- A text may be the name of a symbol. -/
theorem same_symbol_text :
    Same (term (.symbol 1)) (term (.text "sym1")) ∧ Term.symbol 1 ≠ .text "sym1" :=
  ⟨.atom (by decide), by decide⟩

end Script

end AbstractStateMachine
