import AbstractStateMachine.Proofs.Symbolic.Scoping
import AbstractStateMachine.Symbolic.Script

/-!
# Scopes of exported scripts

A script is well scoped if each name in an assertion refers to one thing: to a symbol of the theory
of integers, or to one declaration before all assertions, with as many arguments as it has
parameters. Symbols, traced functions and the end of time are declared, but `undef` and the texts of
other values are not, and names may clash. `wellScoped_iff_exportable` says exactly which traces are
exported to scripts that are well scoped.
-/

namespace AbstractStateMachine

open TraceEntry OrderedMap

namespace Script

/-! ### Reading scripts -/

def bare (text : String) : String := String.ofList (text.toList.filter (· != '|'))

def isNumeral (text : String) : Bool := !text.toList.isEmpty && text.toList.all Char.isDigit

/-- The symbols of the core theory and of the theory of integers. -/
def theorySymbols : List String :=
  ["true", "false", "not", "=>", "and", "or", "xor", "=", "distinct", "ite", "-", "+", "*", "div",
    "mod", "abs", "<=", "<", ">=", ">"]

mutual

/-- The names in a formula, with the numbers of arguments that they are given. -/
def uses : SExpr → List (String × Nat)
  | .atom text => if isNumeral text then [] else [(bare text, 0)]
  | .list [] => []
  | .list (.atom head :: args) => (bare head, args.length) :: usesOfAll args
  | .list (.list items :: args) => uses (.list items) ++ usesOfAll args

def usesOfAll : List SExpr → List (String × Nat)
  | [] => []
  | item :: rest => uses item ++ usesOfAll rest

end

def declaration? : SExpr → Option (String × Nat)
  | .list [.atom "declare-const", .atom name, _] => some (bare name, 0)
  | .list [.atom "declare-fun", .atom name, .list params, _] => some (bare name, params.length)
  | _ => none

def assertion? : SExpr → Option SExpr
  | .list [.atom "assert", formula] => some formula
  | _ => none

/-- A name has one meaning: that of the theory, or that of one declaration. -/
def Refers (declared : List (String × Nat)) (use : String × Nat) : Prop :=
  if use.1 ∈ theorySymbols then ∀ declaration ∈ declared, declaration.1 ≠ use.1
  else declared.filter (·.1 = use.1) = [use]

instance (declared : List (String × Nat)) (use : String × Nat) : Decidable (Refers declared use) :=
  inferInstanceAs (Decidable (if use.1 ∈ theorySymbols then
    ∀ declaration ∈ declared, declaration.1 ≠ use.1
    else declared.filter (·.1 = use.1) = [use]))

structure WellScoped (commands : List SExpr) : Prop where
  ordered : ∀ command ∈ commands.dropWhile fun command => (declaration? command).isSome,
    (assertion? command).isSome
  refers : ∀ formula ∈ commands.filterMap assertion?, ∀ use ∈ uses formula,
    Refers (commands.filterMap declaration?) use

theorem usesOfAll_eq (items : List SExpr) : usesOfAll items = items.flatMap uses := by
  induction items with
  | nil => rw [usesOfAll, List.flatMap_nil]
  | cons item rest ih => rw [usesOfAll, List.flatMap_cons, ih]

theorem uses_apply (head : String) (args : List SExpr) :
    uses (.apply head args) = (bare head, args.length) :: args.flatMap uses := by
  rw [SExpr.apply, uses, usesOfAll_eq]

/-! ### Atoms -/

theorem bare_eq_self {text : String} (h : ∀ c ∈ text.toList, c ≠ '|') : bare text = text := by
  rw [bare, List.filter_eq_self.mpr, String.ofList_toList]
  intro c hc
  exact bne_iff_ne.mpr (h c hc)

theorem bare_identifier (name : String) : bare (identifier name) = bare name := by
  unfold identifier
  split
  · rfl
  · unfold bare
    rw [String.toList_ofList]
    simp

theorem isNumeral_identifier (name : String) : isNumeral (identifier name) = false := by
  unfold identifier
  split
  · next hsimple =>
      unfold isSimpleSymbol at hsimple
      split at hsimple
      · cases hsimple
      · next first rest hname =>
          have hfirst := (Bool.and_eq_true_iff.mp hsimple).1
          rw [Bool.not_eq_true_eq_eq_false] at hfirst
          rw [isNumeral, hname, List.all_cons, hfirst]
          rfl
  · rw [isNumeral, String.toList_ofList]
    rfl

theorem isNumeral_toString (n : Nat) : isNumeral (toString n) = true := by
  rw [Nat.toString_eq_ofList_toDigits, isNumeral, String.toList_ofList]
  have hdigits : (Nat.toDigits 10 n).all Char.isDigit = true :=
    List.all_eq_true.mpr fun c hc => Nat.isDigit_of_mem_toDigits (by decide) (by decide) hc
  rw [hdigits, Bool.and_true]
  cases hempty : Nat.toDigits 10 n with
  | cons => rfl
  | nil =>
    have hrepr : n.repr = "" := by rw [Nat.repr_eq_ofList_toDigits, hempty]
    exact absurd hrepr Nat.repr_ne_empty

theorem toList_symbolName (id : Nat) :
    (symbolName id).toList = 's' :: 'y' :: 'm' :: (toString id).toList := by
  rw [symbolName, String.toList_append]
  rfl

theorem symbolName_inj {id other : Nat} : symbolName id = symbolName other ↔ id = other := by
  constructor
  · intro h
    have hlists := congrArg String.toList h
    rw [toList_symbolName, toList_symbolName, Nat.toString_eq_ofList_toDigits,
      Nat.toString_eq_ofList_toDigits, String.toList_ofList, String.toList_ofList] at hlists
    simp only [List.cons.injEq, true_and] at hlists
    calc
      id = Nat.ofDigitChars 10 (Nat.toDigits 10 id) 0 := Nat.ofDigitChars_ten_toDigits.symm
      _ = Nat.ofDigitChars 10 (Nat.toDigits 10 other) 0 := by rw [hlists]
      _ = other := Nat.ofDigitChars_ten_toDigits
  · intro h
    rw [h]

theorem symbolName_ne {id : Nat} {name : String} (h : name.toList.take 3 ≠ ['s', 'y', 'm']) :
    symbolName id ≠ name := by
  rintro rfl
  rw [toList_symbolName] at h
  exact h rfl

theorem bare_symbolName (id : Nat) : bare (symbolName id) = symbolName id := by
  refine bare_eq_self fun c hc => ?_
  rintro rfl
  have hdigits := (Bool.and_eq_true_iff.mp (isNumeral_toString id)).2
  rw [toList_symbolName] at hc
  simp only [List.mem_cons, Char.reduceEq, false_or] at hc
  exact absurd (List.all_eq_true.mp hdigits '|' hc) (by decide)

theorem isNumeral_symbolName (id : Nat) : isNumeral (symbolName id) = false := by
  rw [isNumeral, toList_symbolName]
  rfl

end Script

open Script

/-! ### Names in entries -/

def Term.uses : Term → List (String × Nat)
  | .int value => if value < 0 then [("-", 1)] else []
  | .bool true => [("true", 0)]
  | .bool false => [("false", 0)]
  | .symbol id => [(symbolName id, 0)]
  | .undefined => [("undef", 0)]
  | .text content => [(bare content, 0)]

namespace TraceEntry

def operands : TraceEntry → List Term
  | .declare _ => []
  | .state _ _ _ args value => args ++ [value]
  | .condition _ lhs _ rhs | .definition _ _ _ lhs rhs => [lhs, rhs]

def names : TraceEntry → List (String × Nat)
  | .state _ function .final args _ => [(bare function, args.length + 1), ("final", 0)]
  | .state _ function (.at _) args _ => [(bare function, args.length + 1)]
  | .definition _ symbol _ _ _ => [(symbolName symbol, 0)]
  | .declare _ | .condition _ _ _ _ => []

def isAssertion : TraceEntry → Bool
  | .declare _ => false
  | .state _ _ _ _ _ | .condition _ _ _ _ | .definition _ _ _ _ _ => true

/-- The function that is reported, with its number of arguments. -/
def reported? : TraceEntry → Option (String × Nat)
  | .state _ function _ args _ => some (function, args.length)
  | _ => none

theorem mem_symbols_of_mem_operands {entry : TraceEntry} {id : Nat}
    (h : Term.symbol id ∈ entry.operands) : id ∈ entry.symbols := by
  have hself : id ∈ (Term.symbol id).symbols := List.mem_singleton.mpr rfl
  cases entry with
  | declare symbol => cases h
  | state number function time args value =>
    rcases List.mem_append.mp h with harg | hvalue
    · exact List.mem_append_left _ (List.mem_flatMap.mpr ⟨_, harg, hself⟩)
    · exact List.mem_append_right _ (List.mem_singleton.mp hvalue ▸ hself)
  | condition number lhs op rhs =>
    rcases List.mem_cons.mp h with rfl | hrhs
    · exact List.mem_append_left _ hself
    · exact List.mem_append_right _ (List.mem_singleton.mp hrhs ▸ hself)
  | definition number symbol op lhs rhs =>
    refine List.mem_cons_of_mem _ ?_
    rcases List.mem_cons.mp h with rfl | hrhs
    · exact List.mem_append_left _ hself
    · exact List.mem_append_right _ (List.mem_singleton.mp hrhs ▸ hself)

end TraceEntry

namespace Script

variable {trace : List TraceEntry} {entry : TraceEntry} {name : String} {command : SExpr}
  {use constant : String × Nat}

theorem uses_atom_of_not_isNumeral {text : String} (h : isNumeral text = false) :
    uses (.atom text) = [(bare text, 0)] := by
  rw [uses, h]
  rfl

theorem uses_numeral (n : Nat) : uses (.numeral n) = [] := by
  rw [SExpr.numeral, uses, isNumeral_toString]
  rfl

theorem uses_term (operand : Term) : uses (term operand) = operand.uses := by
  cases operand with
  | int value =>
    rw [term, Term.uses]
    split
    · rw [uses_apply, List.flatMap_cons, uses_numeral]
      rfl
    · exact uses_numeral _
  | bool value => cases value <;> exact uses_atom_of_not_isNumeral (by decide)
  | symbol id =>
    rw [term, uses_atom_of_not_isNumeral (isNumeral_symbolName id), bare_symbolName, Term.uses]
  | undefined => exact uses_atom_of_not_isNumeral (by decide)
  | text content =>
    rw [term, uses_atom_of_not_isNumeral (isNumeral_identifier content), bare_identifier,
      Term.uses]

theorem flatMap_uses_term (operands : List Term) :
    (operands.map term).flatMap uses = operands.flatMap Term.uses := by
  rw [List.flatMap_map]
  exact congrArg (fun f => operands.flatMap f) (funext uses_term)

theorem uses_apply_pair (head : String) (lhs rhs : SExpr) :
    uses (.apply head [lhs, rhs]) = (bare head, 2) :: (uses lhs ++ uses rhs) := by
  rw [uses_apply, List.flatMap_cons, List.flatMap_singleton]
  rfl

theorem uses_timestep (time : Timestep) :
    uses (timestep time) = if time = .final then [("final", 0)] else [] := by
  cases time with
  | «at» time => exact uses_numeral time
  | final => exact uses_atom_of_not_isNumeral (by decide)

theorem exists_uses_comparison (op : Comparison) (lhs rhs : SExpr) :
    ∃ theory : List (String × Nat), (∀ use ∈ theory, use.1 ∈ theorySymbols) ∧
      uses (comparison op lhs rhs) = theory ++ (uses lhs ++ uses rhs) := by
  cases op with
  | eq => exact ⟨[("=", 2)], by decide, uses_apply_pair "=" lhs rhs⟩
  | le => exact ⟨[("<=", 2)], by decide, uses_apply_pair "<=" lhs rhs⟩
  | gt => exact ⟨[(">", 2)], by decide, uses_apply_pair ">" lhs rhs⟩
  | ne =>
    refine ⟨[("not", 1), ("=", 2)], by decide, ?_⟩
    rw [comparison, uses_apply, List.flatMap_singleton, SExpr.equation, uses_apply_pair]
    rfl

/-- Beside symbols of the theory, an assertion mentions the names of its entry and those in its
operands. -/
theorem exists_uses_formula {formula : SExpr} (h : formula? entry = some formula) :
    ∃ theory : List (String × Nat), (∀ use ∈ theory, use.1 ∈ theorySymbols) ∧
      (uses formula).Perm (theory ++ (entry.names ++ entry.operands.flatMap Term.uses)) := by
  cases entry with
  | declare symbol => cases h
  | state number function time args value =>
    cases h
    refine ⟨[("=", 2)], by decide, List.Perm.of_eq ?_⟩
    rw [SExpr.equation, uses_apply_pair, uses_apply, List.flatMap_cons, uses_timestep,
      flatMap_uses_term, uses_term, bare_identifier, List.length_cons, List.length_map,
      operands, List.flatMap_append, List.flatMap_singleton]
    cases time with
    | «at» time => simp [names, bare]
    | final => simp [names, bare]
  | condition number lhs op rhs =>
    cases h
    obtain ⟨theory, htheory, huses⟩ := exists_uses_comparison op (term lhs) (term rhs)
    refine ⟨theory, htheory, List.Perm.of_eq ?_⟩
    rw [huses, uses_term, uses_term, operands, List.flatMap_cons,
      List.flatMap_singleton]
    rfl
  | definition number symbol op lhs rhs =>
    cases h
    refine ⟨[("=", 2), (operator op, 2)], ?_, ?_⟩
    · cases op <;> decide
    · rw [SExpr.equation, uses_apply_pair, uses_apply_pair, uses_term, uses_term,
        uses_atom_of_not_isNumeral (isNumeral_symbolName symbol), bare_symbolName,
        operands, List.flatMap_cons, List.flatMap_singleton]
      have hoperator : bare (operator op) = operator op := by cases op <;> decide
      rw [hoperator]
      exact .cons _ (.swap _ _ _)

/-! ### Declarations -/

def constants (trace : List TraceEntry) : List (String × Nat) :=
  (trace.filterMap declared?).map (fun id => (symbolName id, 0)) ++
    if usesFinal trace then [("final", 0)] else []

def declaredFunction (function : String × Nat) : String × Nat := (bare function.1, function.2 + 1)

def declared (trace : List TraceEntry) : List (String × Nat) :=
  constants trace ++ (functions trace).entries.map declaredFunction

theorem declaration?_declareConst (h : bare name = name) :
    declaration? (declareConst name) = some (name, 0) :=
  congrArg (fun name => some (name, 0)) h

theorem declaration?_declareFun (name : String) (arity : Nat) :
    declaration? (declareFun name arity) = some (declaredFunction (name, arity)) := by
  show some (bare (identifier name), (List.replicate (arity + 1) SExpr.intSort).length) = _
  rw [bare_identifier, List.length_replicate]
  rfl

theorem filterMap_declaration?_declarations (trace : List TraceEntry) :
    (declarations trace).filterMap declaration? = declared trace := by
  rw [declarations, declared, constants, List.filterMap_append, List.filterMap_append]
  refine congrArg₂ _ (congrArg₂ _ ?symbols ?final) ?functions
  case symbols =>
    rw [List.filterMap_filterMap, List.map_filterMap]
    refine List.filterMap_congr fun entry _ => ?_
    cases entry with
    | declare symbol => exact declaration?_declareConst (bare_symbolName symbol)
    | _ => rfl
  case final =>
    split
    · exact congrArg (fun found => Option.toList found) (declaration?_declareConst (by decide))
    · rfl
  case functions =>
    rw [List.filterMap_map, ← List.filterMap_eq_map]
    exact List.filterMap_congr fun entry _ => declaration?_declareFun entry.1 entry.2

theorem declaration?_of_mem_declarations (h : command ∈ declarations trace) :
    (declaration? command).isSome = true := by
  rcases List.mem_append.mp h with hconstant | hfunction
  · rcases List.mem_append.mp hconstant with hsymbol | hfinal
    · obtain ⟨entry, -, hentry⟩ := List.mem_filterMap.mp hsymbol
      split at hentry
      · cases hentry
        rfl
      · cases hentry
    · split at hfinal
      · rw [List.mem_singleton.mp hfinal]
        rfl
      · cases hfinal
  · obtain ⟨entry, -, rfl⟩ := List.mem_map.mp hfunction
    rfl

theorem assertion?_of_declaration? (h : (declaration? command).isSome = true) :
    assertion? command = none := by
  unfold declaration? at h
  split at h
  · rfl
  · rfl
  · cases h

theorem filterMap_assertion?_assertions (trace : List TraceEntry) :
    (assertions trace).filterMap assertion? = trace.filterMap formula? := by
  rw [assertions, List.filterMap_filterMap]
  refine List.filterMap_congr fun entry _ => ?_
  cases formula? entry <;> rfl

theorem assertion?_of_mem_assertions (h : command ∈ assertions trace) :
    (assertion? command).isSome = true ∧ declaration? command = none := by
  obtain ⟨entry, -, hentry⟩ := List.mem_filterMap.mp h
  obtain ⟨formula, -, rfl⟩ := Option.map_eq_some_iff.mp hentry
  exact ⟨rfl, rfl⟩

theorem filterMap_assertion?_ofTrace (trace : List TraceEntry) :
    (ofTrace trace).filterMap assertion? = trace.filterMap formula? := by
  rw [ofTrace, List.filterMap_append, filterMap_assertion?_assertions,
    List.filterMap_eq_nil_iff.mpr, List.nil_append]
  intro command hcommand
  exact assertion?_of_declaration? (declaration?_of_mem_declarations hcommand)

theorem filterMap_declaration?_ofTrace (trace : List TraceEntry) :
    (ofTrace trace).filterMap declaration? = declared trace := by
  have hnone : (assertions trace).filterMap declaration? = [] :=
    List.filterMap_eq_nil_iff.mpr fun command hcommand => (assertion?_of_mem_assertions hcommand).2
  rw [ofTrace, List.filterMap_append, filterMap_declaration?_declarations, hnone, List.append_nil]

theorem ordered_ofTrace (trace : List TraceEntry) :
    ∀ command ∈ (ofTrace trace).dropWhile fun command => (declaration? command).isSome,
      (assertion? command).isSome := by
  intro command hcommand
  rw [ofTrace, List.dropWhile_append_of_pos fun command => declaration?_of_mem_declarations]
    at hcommand
  exact (assertion?_of_mem_assertions ((List.dropWhile_sublist _).mem hcommand)).1

/-! ### Traced functions -/

theorem functions_append (trace : List TraceEntry) (entry : TraceEntry) :
    functions (trace ++ [entry]) =
      match entry.reported? with
      | none => functions trace
      | some (function, arity) =>
        if (functions trace).contains function then functions trace
        else (functions trace).insert function arity := by
  rw [functions, List.foldl_append]
  cases entry <;> rfl

structure Collects (arities : OrderedMap String Nat) (reports : List (String × Nat)) : Prop where
  nodup : arities.keys.Nodup
  reported : ∀ function ∈ arities.entries, function ∈ reports
  complete : ∀ function ∈ reports, function.1 ∈ arities.keys

theorem Collects.add {arities : OrderedMap String Nat} {reports : List (String × Nat)}
    (h : Collects arities reports) (function : String) (arity : Nat) :
    Collects (if arities.contains function then arities else arities.insert function arity)
      (reports ++ [(function, arity)]) := by
  split
  · next hknown =>
      refine ⟨h.nodup, fun entry hentry => List.mem_append_left _ (h.reported entry hentry), ?_⟩
      refine List.forall_mem_append.mpr ⟨h.complete, List.forall_mem_singleton.mpr ?_⟩
      by_contra hnew
      rw [contains, get?_eq_none_iff.mpr hnew] at hknown
      cases hknown
  · next hnew =>
      refine ⟨nodup_keys_insert h.nodup, fun entry hentry => ?_, fun entry hentry => ?_⟩
      · rw [entries_insert_of_get?_eq_none (Option.not_isSome_iff_eq_none.mp hnew)]
          at hentry
        exact List.mem_append.mpr ((List.mem_append.mp hentry).imp_left (h.reported entry))
      · rw [mem_keys_insert]
        rcases List.mem_append.mp hentry with hold | hself
        · exact .inr (h.complete entry hold)
        · exact .inl (congrArg Prod.fst (List.mem_singleton.mp hself))

theorem collects_functions (trace : List TraceEntry) :
    Collects (functions trace) (trace.filterMap reported?) := by
  induction trace using List.reverseRecOn with
  | nil => exact ⟨.nil, nofun, nofun⟩
  | append_singleton trace entry ih =>
    rw [functions_append, List.filterMap_append]
    cases hentry : entry.reported? with
    | none =>
      rw [List.filterMap_cons_none hentry, List.filterMap_nil, List.append_nil]
      exact ih
    | some function =>
      rw [List.filterMap_cons_some hentry, List.filterMap_nil]
      exact ih.add function.1 function.2

/-! ### Exportable traces -/

theorem mem_of_refers {declared : List (String × Nat)} (h : Refers declared use) :
    use.1 ∈ theorySymbols ∨ use ∈ declared := by
  unfold Refers at h
  split at h
  · next htheory => exact .inl htheory
  · have hmem : use ∈ declared.filter (·.1 = use.1) := h ▸ List.mem_singleton.mpr rfl
    exact .inr (List.mem_filter.mp hmem).1

theorem refers_of_mem {declared : List (String × Nat)} (hnodup : (declared.map (·.1)).Nodup)
    (hproper : ∀ declaration ∈ declared, declaration.1 ∉ theorySymbols)
    (h : use.1 ∈ theorySymbols ∨ use ∈ declared) : Refers declared use := by
  unfold Refers
  split
  · next htheory => exact fun declaration hmem heq => hproper declaration hmem (heq ▸ htheory)
  · next htheory =>
      have hget : get? ⟨declared⟩ use.1 = some use.2 :=
        get?_of_mem_entries hnodup (h.resolve_left htheory)
      calc
        declared.filter (·.1 = use.1)
        _ = ((get? ⟨declared⟩ use.1).map fun arity => (use.1, arity)).toList :=
          filter_entries_eq use.1 hnodup fun _ _ => decide_eq_true_iff
        _ = [use] := by rw [hget]; rfl

theorem mem_constants_iff :
    constant ∈ constants trace ↔
      (∃ id, declare id ∈ trace ∧ constant = (symbolName id, 0)) ∨
        usesFinal trace = true ∧ constant = ("final", 0) := by
  rw [constants, List.mem_append, List.mem_map]
  refine or_congr (exists_congr fun id => and_congr ?_ eq_comm) ?_
  · simp only [List.mem_filterMap, declared?_eq_some_iff, exists_eq_right]
  · split
    · next hfinal => simp only [hfinal, List.mem_singleton, true_and]
    · next hfinal => exact iff_of_false List.not_mem_nil fun hmem => hfinal hmem.1

theorem snd_of_mem_constants (h : constant ∈ constants trace) : constant.2 = 0 := by
  rcases mem_constants_iff.mp h with ⟨id, -, rfl⟩ | ⟨-, rfl⟩
  · rfl
  · rfl

theorem fst_ne_of_mem_constants (h : constant ∈ constants trace)
    (hsymbol : name.toList.take 3 ≠ ['s', 'y', 'm']) (hfinal : name ≠ "final") :
    constant.1 ≠ name := by
  rcases mem_constants_iff.mp h with ⟨id, -, rfl⟩ | ⟨-, rfl⟩
  · exact symbolName_ne hsymbol
  · exact hfinal.symm

theorem constants_not_mem_theorySymbols (h : constant ∈ constants trace) :
    constant.1 ∉ theorySymbols := by
  have htheory : ∀ name ∈ theorySymbols, name.toList.take 3 ≠ ['s', 'y', 'm'] ∧ name ≠ "final" := by
    decide
  intro hmem
  exact fst_ne_of_mem_constants h (htheory _ hmem).1 (htheory _ hmem).2 rfl

theorem nodup_constants (h : (trace.filterMap declared?).Nodup) :
    ((constants trace).map (·.1)).Nodup := by
  rw [constants, List.map_append, List.map_map]
  refine List.nodup_append.mpr ⟨h.map fun id other hname => symbolName_inj.mp hname, ?_, ?_⟩
  · split
    · exact List.nodup_singleton _
    · exact .nil
  · intro name hname other hother
    obtain ⟨id, -, rfl⟩ := List.mem_map.mp hname
    split at hother
    · rw [List.mem_singleton.mp hother]
      exact symbolName_ne (by decide)
    · cases hother

/-- Every value in an assertion has a name or is a number, and no two things share a name. -/
structure Exportable (trace : List TraceEntry) : Prop where
  defined : ∀ entry ∈ trace, Term.undefined ∉ entry.operands
  texts : ∀ entry ∈ trace, ∀ content : String, Term.text content ∈ entry.operands →
    bare content ∈ theorySymbols ∨ (bare content, 0) ∈ constants trace
  names : ∀ function ∈ trace.filterMap reported?, bare function.1 ∉ theorySymbols ∧
    (bare function.1, 0) ∉ constants trace
  apart : ∀ function ∈ trace.filterMap reported?,
    ∀ other ∈ trace.filterMap reported?, bare function.1 = bare other.1 →
      function = other

theorem Exportable.nodup_declared (h : Exportable trace)
    (hsymbols : (trace.filterMap declared?).Nodup) :
    ((declared trace).map (·.1)).Nodup := by
  have hcollects := collects_functions trace
  rw [declared, List.map_append, List.map_map]
  refine List.nodup_append.mpr ⟨nodup_constants hsymbols, ?_, ?_⟩
  · refine List.Nodup.map_on ?_ hcollects.nodup.of_map
    intro function hfunction other hother hname
    exact h.apart function (hcollects.reported function hfunction) other
      (hcollects.reported other hother) hname
  · rintro name hname other hother rfl
    obtain ⟨constant, hconstant, rfl⟩ := List.mem_map.mp hname
    obtain ⟨function, hfunction, hsame⟩ := List.mem_map.mp hother
    have hconstant' : (bare function.1, 0) ∈ constants trace := by
      have heq : constant = (bare function.1, 0) :=
        Prod.ext hsame.symm (snd_of_mem_constants hconstant)
      exact heq ▸ hconstant
    exact (h.names function (hcollects.reported function hfunction)).2 hconstant'

theorem Exportable.not_mem_theorySymbols (h : Exportable trace) :
    ∀ declaration ∈ declared trace, declaration.1 ∉ theorySymbols := by
  refine List.forall_mem_append.mpr ⟨fun _ => constants_not_mem_theorySymbols, ?_⟩
  intro declaration hdeclaration
  obtain ⟨function, hfunction, rfl⟩ := List.mem_map.mp hdeclaration
  exact (h.names function ((collects_functions trace).reported function hfunction)).1

theorem Exportable.mem_functions (h : Exportable trace) {function : String × Nat}
    (hfunction : function ∈ trace.filterMap reported?) :
    function ∈ (functions trace).entries := by
  have hcollects := collects_functions trace
  obtain ⟨known, hknown, hname⟩ := List.mem_map.mp (hcollects.complete function hfunction)
  have hsame := h.apart known (hcollects.reported known hknown) function hfunction
    (congrArg bare hname)
  exact hsame ▸ hknown

theorem Exportable.names_declared (h : Exportable trace)
    (hscope : ∀ entry ∈ trace, ∀ id ∈ entry.symbols, declare id ∈ trace)
    (hentry : entry ∈ trace) (huse : use ∈ entry.names) : use ∈ declared trace := by
  cases entry with
  | declare symbol => cases huse
  | condition number lhs op rhs => cases huse
  | definition number symbol op lhs rhs =>
    rw [List.mem_singleton.mp huse]
    have hsymbol := hscope _ hentry symbol List.mem_cons_self
    exact List.mem_append_left _ (mem_constants_iff.mpr (.inl ⟨symbol, hsymbol, rfl⟩))
  | state number function time args value =>
    have hfunction : (function, args.length) ∈ (functions trace).entries :=
      h.mem_functions (List.mem_filterMap.mpr ⟨_, hentry, rfl⟩)
    have hdeclared : (bare function, args.length + 1) ∈ declared trace :=
      List.mem_append_right _ (List.mem_map.mpr ⟨_, hfunction, rfl⟩)
    cases time with
    | «at» time => exact List.mem_singleton.mp huse ▸ hdeclared
    | final =>
      rcases List.mem_cons.mp huse with rfl | hfinal
      · exact hdeclared
      · have hused : usesFinal trace = true := List.any_eq_true.mpr ⟨_, hentry, rfl⟩
        rw [List.mem_singleton.mp hfinal]
        exact List.mem_append_left _ (mem_constants_iff.mpr (.inr ⟨hused, rfl⟩))

theorem Exportable.operand_declared (h : Exportable trace)
    (hscope : ∀ entry ∈ trace, ∀ id ∈ entry.symbols, declare id ∈ trace)
    (hentry : entry ∈ trace) {operand : Term} (hoperand : operand ∈ entry.operands)
    (huse : use ∈ operand.uses) : use.1 ∈ theorySymbols ∨ use ∈ declared trace := by
  cases operand with
  | int value =>
    rw [Term.uses] at huse
    split at huse
    · exact .inl (List.mem_singleton.mp huse ▸ by decide)
    · cases huse
  | bool value =>
    refine .inl ?_
    cases value <;> exact List.mem_singleton.mp huse ▸ by decide
  | symbol id =>
    have hid := hscope entry hentry id (mem_symbols_of_mem_operands hoperand)
    rw [List.mem_singleton.mp huse]
    exact .inr (List.mem_append_left _ (mem_constants_iff.mpr (.inl ⟨id, hid, rfl⟩)))
  | undefined => exact absurd hoperand (h.defined entry hentry)
  | text content =>
    rw [List.mem_singleton.mp huse]
    exact (h.texts entry hentry content hoperand).imp_right (List.mem_append_left _)

theorem Exportable.wellScoped (h : Exportable trace)
    (hsymbols : (trace.filterMap declared?).Nodup)
    (hscope : ∀ entry ∈ trace, ∀ id ∈ entry.symbols, declare id ∈ trace) :
    WellScoped (ofTrace trace) where
  ordered := ordered_ofTrace trace
  refers formula hformula use huse := by
    rw [filterMap_assertion?_ofTrace] at hformula
    rw [filterMap_declaration?_ofTrace]
    obtain ⟨entry, hentry, hformula⟩ := List.mem_filterMap.mp hformula
    obtain ⟨theory, htheory, hperm⟩ := exists_uses_formula hformula
    refine refers_of_mem (h.nodup_declared hsymbols) h.not_mem_theorySymbols ?_
    rcases List.mem_append.mp (hperm.mem_iff.mp huse) with hlogic | hown
    · exact .inl (htheory use hlogic)
    · rcases List.mem_append.mp hown with hname | hoperand
      · exact .inr (h.names_declared hscope hentry hname)
      · obtain ⟨operand, hoperand, huse⟩ := List.mem_flatMap.mp hoperand
        exact h.operand_declared hscope hentry hoperand huse

theorem mem_constants_of_mem_declared (h : (name, 0) ∈ declared trace) :
    (name, 0) ∈ constants trace := by
  rcases List.mem_append.mp h with hconstant | hfunction
  · exact hconstant
  · obtain ⟨function, -, heq⟩ := List.mem_map.mp hfunction
    exact absurd (Prod.mk.inj heq).2 (Nat.succ_ne_zero _)

theorem eq_of_filter_declared {declaration function other : String × Nat}
    (h : (declared trace).filter (·.1 = name) = [declaration])
    (hfunction : function ∈ (functions trace).entries) (hother : other ∈ (functions trace).entries)
    (hname : bare function.1 = name) (hname' : bare other.1 = name) : function = other := by
  rw [declared, List.filter_append, List.filter_map] at h
  have hmem : function ∈ (functions trace).entries.filter
      ((fun declaration => decide (declaration.1 = name)) ∘ declaredFunction) :=
    List.mem_filter.mpr ⟨hfunction, decide_eq_true hname⟩
  have hmem' : other ∈ (functions trace).entries.filter
      ((fun declaration => decide (declaration.1 = name)) ∘ declaredFunction) :=
    List.mem_filter.mpr ⟨hother, decide_eq_true hname'⟩
  rcases List.append_eq_singleton_iff.mp h with ⟨-, hone⟩ | ⟨-, hnone⟩
  · obtain ⟨known, hknown, -⟩ := List.map_eq_singleton_iff.mp hone
    rw [hknown] at hmem hmem'
    exact (List.mem_singleton.mp hmem).trans (List.mem_singleton.mp hmem').symm
  · rw [List.map_eq_nil_iff.mp hnone] at hmem
    cases hmem

namespace WellScoped

theorem refers_of_mem (h : WellScoped (ofTrace trace)) (hentry : entry ∈ trace)
    (huse : use ∈ entry.names ++ entry.operands.flatMap Term.uses) :
    Refers (declared trace) use := by
  rw [← filterMap_declaration?_ofTrace]
  cases hformula : formula? entry with
  | none =>
    cases entry with
    | declare symbol => cases huse
    | _ => cases hformula
  | some formula =>
    obtain ⟨theory, -, hperm⟩ := exists_uses_formula hformula
    refine h.refers formula ?_ use (hperm.mem_iff.mpr (List.mem_append_right _ huse))
    rw [filterMap_assertion?_ofTrace]
    exact List.mem_filterMap.mpr ⟨entry, hentry, hformula⟩

theorem refers_of_operand (h : WellScoped (ofTrace trace)) (hentry : entry ∈ trace) {operand : Term}
    (hoperand : operand ∈ entry.operands) (huse : (name, 0) ∈ operand.uses) :
    name ∈ theorySymbols ∨ (name, 0) ∈ constants trace := by
  have hrefers := h.refers_of_mem hentry
    (List.mem_append_right _ (List.mem_flatMap.mpr ⟨operand, hoperand, huse⟩))
  exact (mem_of_refers hrefers).imp_right mem_constants_of_mem_declared

theorem refers_of_reported (h : WellScoped (ofTrace trace)) {function : String × Nat}
    (hfunction : function ∈ trace.filterMap reported?) :
    Refers (declared trace) (declaredFunction function) := by
  obtain ⟨entry, hentry, hreported⟩ := List.mem_filterMap.mp hfunction
  refine h.refers_of_mem hentry (List.mem_append_left _ ?_)
  cases entry with
  | state number name time args value =>
    cases hreported
    cases time <;> exact List.mem_cons_self
  | _ => cases hreported

/-- A reported function has a name of its own, and this name has one declaration. -/
theorem filter_declared_eq (h : WellScoped (ofTrace trace)) {function : String × Nat}
    (hfunction : function ∈ trace.filterMap reported?) :
    bare function.1 ∉ theorySymbols ∧
      (declared trace).filter (·.1 = bare function.1) = [declaredFunction function] := by
  have hrefers := h.refers_of_reported hfunction
  unfold Refers at hrefers
  split at hrefers
  · next htheory =>
      -- A symbol of the theory is not declared, but this function is.
      obtain ⟨known, hknown, hname⟩ :=
        List.mem_map.mp ((collects_functions trace).complete function hfunction)
      exact absurd (congrArg bare hname) (hrefers (declaredFunction known)
        (List.mem_append_right _ (List.mem_map_of_mem hknown)))
  · next htheory => exact ⟨htheory, hrefers⟩

theorem exportable (h : WellScoped (ofTrace trace)) : Exportable trace where
  defined entry hentry hoperand := by
    rcases h.refers_of_operand hentry hoperand (List.mem_singleton.mpr rfl) with htheory | hconstant
    · exact absurd htheory (by decide)
    · exact fst_ne_of_mem_constants hconstant (by decide) (by decide) rfl
  texts entry hentry content hoperand :=
    h.refers_of_operand hentry hoperand (List.mem_singleton.mpr rfl)
  names function hfunction := by
    obtain ⟨htheory, hfilter⟩ := h.filter_declared_eq hfunction
    refine ⟨htheory, fun hconstant => ?_⟩
    have hmem : (bare function.1, 0) ∈ (declared trace).filter (·.1 = bare function.1) :=
      List.mem_filter.mpr ⟨List.mem_append_left _ hconstant, decide_eq_true rfl⟩
    rw [hfilter] at hmem
    exact absurd (Prod.mk.inj (List.mem_singleton.mp hmem)).2 (Nat.succ_ne_zero _).symm
  apart function hfunction other hother hname := by
    obtain ⟨-, hfilter⟩ := h.filter_declared_eq hfunction
    obtain ⟨-, hfilter'⟩ := h.filter_declared_eq hother
    have harity : declaredFunction function = declaredFunction other := by
      rw [hname, hfilter'] at hfilter
      exact (List.singleton_inj.mp hfilter).symm
    have hcollects := collects_functions trace
    obtain ⟨known, hknown, hfst⟩ := List.mem_map.mp (hcollects.complete function hfunction)
    obtain ⟨known', hknown', hfst'⟩ := List.mem_map.mp (hcollects.complete other hother)
    have hsame : known = known' := eq_of_filter_declared hfilter hknown hknown'
      (congrArg bare hfst) ((congrArg bare hfst').trans hname.symm)
    refine Prod.ext ?_ (Nat.succ.inj (Prod.mk.inj harity).2)
    calc
      function.1 = known.1 := hfst.symm
      _ = known'.1 := congrArg Prod.fst hsame
      _ = other.1 := hfst'

end WellScoped

theorem isSome_formula? (entry : TraceEntry) : (formula? entry).isSome = entry.isAssertion := by
  cases entry <;> rfl

theorem length_assertions (trace : List TraceEntry) :
    ((ofTrace trace).filterMap assertion?).length = trace.countP isAssertion := by
  rw [filterMap_assertion?_ofTrace, List.length_filterMap_eq_countP]
  exact congrArg (fun select => trace.countP select) (funext isSome_formula?)

end Script

namespace Recorder.Scoped

variable {n : Nat} {recorder : Recorder}

theorem nodup_declared (h : recorder.Scoped n) :
    (recorder.trace.toList.filterMap declared?).Nodup := by
  rw [h.declared]
  exact List.nodup_range'

theorem declare_mem_of_mem_symbols (h : recorder.Scoped n) :
    ∀ entry ∈ recorder.trace.toList, ∀ id ∈ entry.symbols,
      declare id ∈ recorder.trace.toList := by
  intro entry hentry id hid
  obtain ⟨index, hindex⟩ := List.mem_iff_getElem?.mp hentry
  rw [Array.getElem?_toList] at hindex
  obtain ⟨earlier, -, hearlier⟩ := h.inScope index entry hindex id hid
  rw [← Array.getElem?_toList] at hearlier
  exact List.mem_of_getElem? hearlier

end Recorder.Scoped

namespace Machine

/-- **A script is well scoped if and only if its trace is exportable.** After any calls, successful
or not, each name in the assertions of the script has one meaning and the arguments of its one
declaration, which stands before all assertions, exactly if no operand is `undef`, each text names a
constant or a symbol of the theory, and each traced function has a name of its own and is always
given as many arguments. There is always one assertion per assertion of the trace. -/
theorem wellScoped_iff_exportable (setting : Setting) (calls : List Call) :
    let trace := (afterCalls setting calls).recorder.trace.toList
    (WellScoped (Script.ofTrace trace) ↔ Exportable trace) ∧
      ((Script.ofTrace trace).filterMap assertion?).length =
        trace.countP isAssertion := by
  intro trace
  obtain ⟨n, hscoped⟩ := (Run.callsMaintained_scoping setting).afterCalls calls
    (scoped_new setting) rfl
  rw [← afterCalls_eq] at hscoped
  have hrecorder : (afterCalls setting calls).recorder.Scoped n := hscoped.suits.trace
  refine ⟨⟨WellScoped.exportable, fun hexportable => ?_⟩, length_assertions trace⟩
  exact hexportable.wellScoped hrecorder.nodup_declared hrecorder.declare_mem_of_mem_symbols

/-- The rule takes the value of `x` away and ends the run. -/
def forgetting : Setting where
  symbolic := true
  spec :=
    { functions := #[{ name := "program", result := .rule }, { name := "x" }]
      rules := #[{ name := "main", body := some { action := .par [
        { action := .update ⟨1⟩ [] .undefined }, { action := .update ⟨0⟩ [] .undefined }] } }]
      start := some ⟨0⟩ }

/-- The script asserts `undef` as the value of `x` but declares `x` only. -/
theorem not_wellScoped_forgetting :
    let trace := (afterCalls forgetting [.init 5, .step 5]).recorder.trace.toList
    Script.lines trace = ["(declare-fun x (Int) Int)", "(assert (= (x 1) undef))"] ∧
      ¬ WellScoped (Script.ofTrace trace) := by
  intro trace
  have htrace : trace = [.state 1 "x" (.at 1) [] .undefined] := by
    decide +kernel
  rw [htrace]
  refine ⟨by decide +kernel, fun hwell => ?_⟩
  exact hwell.exportable.defined _ List.mem_cons_self (List.mem_singleton.mpr rfl)

end Machine

end AbstractStateMachine
