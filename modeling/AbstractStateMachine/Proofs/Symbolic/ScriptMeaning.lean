import AbstractStateMachine.Proofs.Symbolic.Definitions
import AbstractStateMachine.Proofs.Symbolic.ScriptScope

/-!
# What exported scripts mean

A model of a script gives functions of integers to the names that the script declares. The symbols
of the core theory and of the theory of integers have a fixed meaning, division by zero apart. An
interpretation of a trace gives the same things to symbols, to traced functions and to the end of
time. `faithful_iff_wellNamed` says for which traces of integers each assertion of the script is
true in a model of an interpretation exactly if its entry holds there. A script writes the names of
traced functions as they are, so it needs names that are free and that quoting leaves apart.
-/

namespace AbstractStateMachine

open TraceEntry

/-! ### What traces say -/

structure TraceModel where
  symbol : Assignment
  /-- The values of a function at a timestep, which is the first argument. -/
  function : String → List Int → Int
  /-- The timestep at the end of a run. -/
  final : Int
  byZero : ZeroDivision

namespace TraceModel

def time (model : TraceModel) : Timestep → Int
  | .at time => time
  | .final => model.final

def constant (n : Int) : TraceModel where
  symbol _ := 0
  function _ _ := n
  final := 0
  byZero := ⟨fun _ => 0, fun _ => 0⟩

def meanings (model : TraceModel) (terms : List Term) : Option (List Int) :=
  terms.mapM (Term.meaning model.symbol)

end TraceModel

def Term.isInteger : Term → Bool
  | .int _ | .symbol _ => true
  | .bool _ | .undefined | .text _ => false

/-- What an entry says about an interpretation. A declaration says nothing. -/
def TraceEntry.Holds (model : TraceModel) : TraceEntry → Prop
  | .declare _ => True
  | .state _ function time args value =>
    ∃ ns n, model.meanings args = some ns ∧ value.meaning model.symbol = some n ∧
      model.function function (model.time time :: ns) = n
  | .condition _ lhs op rhs =>
    ∃ x y, lhs.meaning model.symbol = some x ∧ rhs.meaning model.symbol = some y ∧ op.Relates x y
  | .definition _ symbol op lhs rhs =>
    ∃ x y, lhs.meaning model.symbol = some x ∧ rhs.meaning model.symbol = some y ∧
      op.Gives model.byZero x y (model.symbol symbol)

theorem Term.exists_meaning {operand : Term} (assignment : Assignment)
    (h : operand.isInteger = true) : ∃ n, operand.meaning assignment = some n := by
  cases operand with
  | int value => exact ⟨_, rfl⟩
  | symbol id => exact ⟨_, rfl⟩
  | bool value => cases h
  | undefined => cases h
  | text content => cases h

namespace TraceModel

variable (model : TraceModel)

theorem meanings_cons (operand : Term) (rest : List Term) :
    model.meanings (operand :: rest) = do
      return (← operand.meaning model.symbol) :: (← model.meanings rest) :=
  List.mapM_cons

theorem exists_meanings {operands : List Term}
    (h : ∀ operand ∈ operands, operand.isInteger = true) :
    ∃ ns, model.meanings operands = some ns ∧ ns.length = operands.length := by
  induction operands with
  | nil => exact ⟨[], rfl, rfl⟩
  | cons operand rest ih =>
    obtain ⟨n, hn⟩ := Term.exists_meaning model.symbol (h operand List.mem_cons_self)
    obtain ⟨ns, hns, hlength⟩ := ih fun other hother => h other (List.mem_cons_of_mem _ hother)
    refine ⟨n :: ns, ?_, congrArg (· + 1) hlength⟩
    rw [meanings_cons, hn, hns]
    rfl

end TraceModel

/-! ### The theory of integers -/

namespace Script

variable {trace : List TraceEntry}

inductive TheoryValue where
  | int (n : Int)
  | bool (b : Bool)
  deriving DecidableEq, Repr

namespace TheoryValue

def int? : TheoryValue → Option Int
  | int n => some n
  | bool _ => none

def bool? : TheoryValue → Option Bool
  | bool b => some b
  | int _ => none

end TheoryValue

/-- Functions of integers. Beyond two arguments they associate to the left. -/
def arithmetic? (byZero : ZeroDivision) : String → List Int → Option Int
  | "-", [x] => some (-x)
  | "abs", [x] => some x.natAbs
  | "mod", [x, y] => some (byZero.mod x y)
  | "+", x :: y :: rest => some ((y :: rest).foldl (· + ·) x)
  | "-", x :: y :: rest => some ((y :: rest).foldl (· - ·) x)
  | "*", x :: y :: rest => some ((y :: rest).foldl (· * ·) x)
  | "div", x :: y :: rest => some ((y :: rest).foldl byZero.div x)
  | _, _ => none

/-- Relations of integers. Beyond two arguments they hold from each to the next. -/
def relation? : String → List Int → Option Bool
  | "=", x :: y :: rest => some (decide ((x :: y :: rest).IsChain (· = ·)))
  | "distinct", x :: y :: rest => some (decide ((x :: y :: rest).Pairwise (· ≠ ·)))
  | "<=", x :: y :: rest => some (decide ((x :: y :: rest).IsChain (· ≤ ·)))
  | "<", x :: y :: rest => some (decide ((x :: y :: rest).IsChain (· < ·)))
  | ">=", x :: y :: rest => some (decide ((x :: y :: rest).IsChain (· ≥ ·)))
  | ">", x :: y :: rest => some (decide ((x :: y :: rest).IsChain (· > ·)))
  | _, _ => none

/-- The last truth value follows from the others. -/
def follows : List Bool → Bool
  | [] => true
  | [conclusion] => conclusion
  | premise :: rest => !premise || follows rest

def connective? : String → List Bool → Option Bool
  | "true", [] => some true
  | "false", [] => some false
  | "not", [p] => some !p
  | "ite", [p, q, r] => some (if p then q else r)
  | "=>", p :: q :: rest => some (follows (p :: q :: rest))
  | "and", p :: q :: rest => some ((q :: rest).foldl and p)
  | "or", p :: q :: rest => some ((q :: rest).foldl or p)
  | "xor", p :: q :: rest => some ((q :: rest).foldl xor p)
  | "=", p :: q :: rest => some (decide ((p :: q :: rest).IsChain (· = ·)))
  | "distinct", p :: q :: rest => some (decide ((p :: q :: rest).Pairwise (· ≠ ·)))
  | _, _ => none

/-- The meaning of a symbol of the theory, on arguments of the sorts that it takes. -/
def theory? (byZero : ZeroDivision) : String → List TheoryValue → Option TheoryValue
  | "ite", [.bool p, .int x, .int y] => some (.int (if p then x else y))
  | name, args =>
    ((args.mapM TheoryValue.int?).bind (arithmetic? byZero name)).map .int <|>
      ((args.mapM TheoryValue.int?).bind (relation? name)).map .bool <|>
      ((args.mapM TheoryValue.bool?).bind (connective? name)).map .bool

@[simp]
theorem theory?_neg (byZero : ZeroDivision) (x : Int) :
    theory? byZero "-" [.int x] = some (.int (-x)) := rfl

@[simp]
theorem theory?_not (byZero : ZeroDivision) (p : Bool) :
    theory? byZero "not" [.bool p] = some (.bool !p) := rfl

@[simp]
theorem theory?_eq (byZero : ZeroDivision) (x y : Int) :
    theory? byZero "=" [.int x, .int y] = some (.bool (decide (x = y))) := by
  show some (TheoryValue.bool (decide ([x, y].IsChain (· = ·)))) = _
  simp

@[simp]
theorem theory?_le (byZero : ZeroDivision) (x y : Int) :
    theory? byZero "<=" [.int x, .int y] = some (.bool (decide (x ≤ y))) := by
  show some (TheoryValue.bool (decide ([x, y].IsChain (· ≤ ·)))) = _
  simp

@[simp]
theorem theory?_gt (byZero : ZeroDivision) (x y : Int) :
    theory? byZero ">" [.int x, .int y] = some (.bool (decide (x > y))) := by
  show some (TheoryValue.bool (decide ([x, y].IsChain (· > ·)))) = _
  simp

theorem theory?_operator (byZero : ZeroDivision) (op : DefinitionOp) (x y : Int) :
    theory? byZero (operator op) [.int x, .int y] = some (.int (op.meaning byZero x y)) := by
  cases op <;> rfl

/-! ### Tokens -/

/-- The words of the language itself, which are symbols only if they are quoted. -/
def reservedWords : List String :=
  ["!", "_", "as", "BINARY", "DECIMAL", "exists", "HEXADECIMAL", "forall", "let", "match",
    "NUMERAL", "par", "STRING", "assert", "check-sat", "check-sat-assuming", "declare-const",
    "declare-datatype", "declare-datatypes", "declare-fun", "declare-sort", "define-fun",
    "define-fun-rec", "define-funs-rec", "define-sort", "echo", "exit", "get-assertions",
    "get-assignment", "get-info", "get-model", "get-option", "get-proof", "get-unsat-assumptions",
    "get-unsat-core", "get-value", "pop", "push", "reset", "reset-assertions", "set-info",
    "set-logic", "set-option"]

/-- Between bars stand printable characters and blanks, but no bar and no backslash. -/
def isQuotable (c : Char) : Bool :=
  (32 ≤ c.toNat && c.toNat != 127 || c == '\t' || c == '\n' || c == '\r') && c != '|' && c != '\\'

/-- The integer that a numeral writes. Only zero starts with the digit zero. -/
def numeral? (text : String) : Option Nat :=
  let n := Nat.ofDigitChars 10 text.toList 0
  if toString n = text then some n else none

/-- The name that a token stands for, if it is a symbol. -/
def symbol? (text : String) : Option String :=
  if isSimpleSymbol text then
    if text ∈ reservedWords then none else some text
  else
    match text.toList with
    | '|' :: rest =>
      if rest.getLast? = some '|' ∧ rest.dropLast.all isQuotable then
        some (String.ofList rest.dropLast)
      else none
    | _ => none

def isWritable (name : String) : Bool :=
  if isSimpleSymbol name then name ∉ reservedWords
  else (name.toList.filter (· != '|')).all isQuotable

/-- A name is written as a symbol that the theory leaves free. -/
def isFree (name : String) : Bool := isWritable name && bare name ∉ theorySymbols

theorem isSymbolChar_bar : isSymbolChar '|' = false := by decide

theorem bare_eq_self_of_isSimpleSymbol {name : String} (h : isSimpleSymbol name = true) :
    bare name = name := by
  refine bare_eq_self fun c hc => ?_
  rintro rfl
  unfold isSimpleSymbol at h
  split at h
  · cases h
  · next first rest hname =>
      rw [hname] at hc
      have hchar := List.all_eq_true.mp (Bool.and_eq_true_iff.mp h).2 '|' hc
      rw [isSymbolChar_bar] at hchar
      cases hchar

theorem symbol?_identifier (name : String) :
    symbol? (identifier name) = if isWritable name then some (bare name) else none := by
  unfold identifier isWritable
  split
  · next hsimple =>
      rw [symbol?, if_pos hsimple, bare_eq_self_of_isSimpleSymbol hsimple]
      by_cases hreserved : name ∈ reservedWords
      · simp [hreserved]
      · simp [hreserved]
  · next hsimple =>
      have hquoted : isSimpleSymbol
          (String.ofList ('|' :: name.toList.filter (· != '|') ++ ['|'])) = false := by
        rw [isSimpleSymbol, String.toList_ofList]
        simp only [List.cons_append, List.all_cons, isSymbolChar_bar, Bool.false_and,
          Bool.and_false]
      rw [symbol?, hquoted, String.toList_ofList]
      simp [bare]

theorem numeral?_toString (n : Nat) : numeral? (toString n) = some n := by
  have hread : Nat.ofDigitChars 10 (toString n).toList 0 = n := by
    rw [Nat.toString_eq_ofList_toDigits, String.toList_ofList]
    exact Nat.ofDigitChars_ten_toDigits
  rw [numeral?, hread]
  exact if_pos rfl

theorem numeral?_eq_none {text : String} (h : isNumeral text = false) : numeral? text = none := by
  refine if_neg fun hwritten => ?_
  rw [← hwritten, isNumeral_toString] at h
  cases h

theorem isSimpleSymbol_symbolName (id : Nat) : isSimpleSymbol (symbolName id) = true := by
  have hdigits := (Bool.and_eq_true_iff.mp (isNumeral_toString id)).2
  have hchars : (toString id).toList.all isSymbolChar = true := by
    refine List.all_eq_true.mpr fun c hc => ?_
    have hdigit : c.isDigit = true := List.all_eq_true.mp hdigits c hc
    rw [isSymbolChar, Char.isAlphanum, hdigit, Bool.or_true, Bool.true_or]
  rw [isSimpleSymbol, toList_symbolName]
  simp only [List.all_cons, hchars]
  decide

theorem symbol?_symbolName (id : Nat) : symbol? (symbolName id) = some (symbolName id) := by
  rw [symbol?, if_pos (isSimpleSymbol_symbolName id), if_neg]
  intro hreserved
  have hstart : ∀ word ∈ reservedWords, word.toList.take 3 ≠ ['s', 'y', 'm'] := by decide
  exact symbolName_ne (hstart _ hreserved) rfl

theorem symbol?_theorySymbol : ∀ name ∈ theorySymbols, symbol? name = some name := by decide

/-! ### Models of scripts -/

/-- Functions of integers for names. A name is interpreted for each number of arguments on its own,
and whether or not it is declared: a script that declares a name twice or not at all has models
here, and what it declares is the subject of `WellScoped`. -/
structure Model where
  value : String → List Int → Int
  byZero : ZeroDivision

namespace Model

/-- Symbols of the theory keep their meaning, and other names take and give integers. -/
def result? (model : Model) (name : String) (args : List TheoryValue) : Option TheoryValue :=
  if name ∈ theorySymbols then theory? model.byZero name args
  else (args.mapM TheoryValue.int?).map fun ns => .int (model.value name ns)

mutual

/-- The value of an expression, if it is a term of the theory of integers. -/
def eval (model : Model) : SExpr → Option TheoryValue
  | .atom text =>
    match numeral? text with
    | some n => some (.int n)
    | none => do model.result? (← symbol? text) []
  | .list (.atom head :: args) =>
    if args.isEmpty then none else do model.result? (← symbol? head) (← model.evalAll args)
  | .list _ => none

def evalAll (model : Model) : List SExpr → Option (List TheoryValue)
  | [] => some []
  | item :: rest => do
    return (← model.eval item) :: (← model.evalAll rest)

end

def Satisfies (model : Model) (formula : SExpr) : Prop := model.eval formula = some (.bool true)

/-- A model of a script gives to its names what an interpretation gives to what they write. -/
structure Renders (model : Model) (trace : List TraceEntry) (intended : TraceModel) : Prop where
  symbol : ∀ id, model.value (symbolName id) [] = intended.symbol id
  final : model.value "final" [] = intended.final
  function : ∀ name arity, (name, arity) ∈ trace.filterMap reported? →
    ∀ ns : List Int, ns.length = arity + 1 → model.value (bare name) ns = intended.function name ns
  byZero : model.byZero = intended.byZero

variable {model : Model} {name : String} {values : List TheoryValue} {lhs rhs arg : SExpr}
  {args : List SExpr}

theorem result?_of_mem (h : name ∈ theorySymbols) (args : List TheoryValue) :
    model.result? name args = theory? model.byZero name args := if_pos h

theorem result?_of_not_mem (h : name ∉ theorySymbols) (ns : List Int) :
    model.result? name (ns.map .int) = some (.int (model.value name ns)) := by
  have hints : (ns.map TheoryValue.int).mapM TheoryValue.int? = some ns := by
    induction ns with
    | nil => rfl
    | cons n rest ih => rw [List.map_cons, List.mapM_cons, ih]; rfl
  rw [result?, if_neg h, hints]
  rfl

theorem eval_numeral (n : Nat) : model.eval (.numeral n) = some (.int n) := by
  rw [SExpr.numeral, eval, numeral?_toString]

theorem eval_constant {text : String} (hnumeral : isNumeral text = false)
    (hsymbol : symbol? text = some text) (hfree : text ∉ theorySymbols) :
    model.eval (.atom text) = some (.int (model.value text [])) := by
  rw [eval, numeral?_eq_none hnumeral, hsymbol]
  exact result?_of_not_mem hfree []

theorem evalAll_cons {item : SExpr} {rest : List SExpr} {value : TheoryValue}
    (hitem : model.eval item = some value) (hrest : model.evalAll rest = some values) :
    model.evalAll (item :: rest) = some (value :: values) := by
  rw [evalAll, hitem, hrest]
  rfl

theorem evalAll_pair {x y : TheoryValue} (hlhs : model.eval lhs = some x)
    (hrhs : model.eval rhs = some y) : model.evalAll [lhs, rhs] = some [x, y] :=
  evalAll_cons hlhs (evalAll_cons hrhs rfl)

theorem eval_apply {head : String} (h : model.evalAll (arg :: args) = some values) :
    model.eval (.apply head (arg :: args)) =
      (symbol? head).bind fun name => model.result? name values := by
  rw [SExpr.apply, eval, h]
  rfl

theorem eval_theory {head : String} (hhead : head ∈ theorySymbols)
    (h : model.evalAll (arg :: args) = some values) :
    model.eval (.apply head (arg :: args)) = theory? model.byZero head values := by
  rw [eval_apply h, symbol?_theorySymbol head hhead]
  exact result?_of_mem hhead values

/-! ### Formulas -/

theorem satisfies_equation_iff {x y : Int} (hlhs : model.eval lhs = some (.int x))
    (hrhs : model.eval rhs = some (.int y)) : model.Satisfies (.equation lhs rhs) ↔ x = y := by
  rw [Satisfies, SExpr.equation, eval_theory (by decide) (evalAll_pair hlhs hrhs), theory?_eq]
  simp

theorem satisfies_comparison_iff (op : Comparison) {x y : Int}
    (hlhs : model.eval lhs = some (.int x)) (hrhs : model.eval rhs = some (.int y)) :
    model.Satisfies (comparison op lhs rhs) ↔ op.Relates x y := by
  have hpair := evalAll_pair hlhs hrhs
  cases op with
  | eq => exact satisfies_equation_iff hlhs hrhs
  | ne =>
    have hequation : model.eval (.equation lhs rhs) = some (.bool (decide (x = y))) := by
      rw [SExpr.equation, eval_theory (by decide) hpair, theory?_eq]
    rw [Satisfies, comparison, eval_theory (by decide) (evalAll_cons hequation rfl), theory?_not]
    simp [Comparison.Relates]
  | le =>
    rw [Satisfies, comparison, eval_theory (by decide) hpair, theory?_le]
    simp [Comparison.Relates]
  | gt =>
    rw [Satisfies, comparison, eval_theory (by decide) hpair, theory?_gt]
    simp [Comparison.Relates]

section Renders

variable {trace : List TraceEntry} {intended : TraceModel} {ns : List Int}

theorem Renders.eval_symbol (h : model.Renders trace intended) (id : Nat) :
    model.eval (.atom (symbolName id)) = some (.int (intended.symbol id)) := by
  have hfree : ∀ name ∈ theorySymbols, name.toList.take 3 ≠ ['s', 'y', 'm'] := by decide
  rw [eval_constant (isNumeral_symbolName id) (symbol?_symbolName id)
    (fun hmem => symbolName_ne (hfree _ hmem) rfl), h.symbol]

theorem Renders.eval_timestep (h : model.Renders trace intended) (time : Timestep) :
    model.eval (timestep time) = some (.int (intended.time time)) := by
  cases time with
  | «at» time => exact eval_numeral time
  | final => rw [timestep, eval_constant (by decide) (by decide) (by decide), h.final]; rfl

theorem Renders.eval_term (h : model.Renders trace intended) {operand : Term} {n : Int}
    (hn : operand.meaning intended.symbol = some n) :
    model.eval (term operand) = some (.int n) := by
  cases operand with
  | int value =>
    cases hn
    rw [term]
    split
    · next hnegative =>
        have hsign : value.toInt < 0 := Int64.lt_iff_toInt_lt.mp hnegative
        rw [eval_theory (by decide) (evalAll_cons (eval_numeral _) rfl), theory?_neg]
        congr 2
        omega
    · next hnonnegative =>
        have hsign : ¬value.toInt < 0 := fun h => hnonnegative (Int64.lt_iff_toInt_lt.mpr h)
        rw [eval_numeral]
        congr 2
        omega
  | symbol id =>
    cases hn
    exact h.eval_symbol id
  | bool value => cases hn
  | undefined => cases hn
  | text content => cases hn

theorem Renders.evalAll_terms (h : model.Renders trace intended) {operands : List Term}
    (hns : intended.meanings operands = some ns) :
    model.evalAll (operands.map term) = some (ns.map .int) := by
  induction operands generalizing ns with
  | nil =>
    cases hns
    rfl
  | cons operand rest ih =>
    rw [intended.meanings_cons] at hns
    obtain ⟨n, hn, hns⟩ := Option.bind_eq_some_iff.mp hns
    obtain ⟨others, hothers, hns⟩ := Option.bind_eq_some_iff.mp hns
    cases hns
    exact evalAll_cons (h.eval_term hn) (ih hothers)

theorem Renders.evalAll_arguments (h : model.Renders trace intended) (time : Timestep)
    {args : List Term} (hns : intended.meanings args = some ns) :
    model.evalAll (timestep time :: args.map term) =
      some ((intended.time time :: ns).map .int) :=
  evalAll_cons (h.eval_timestep time) (h.evalAll_terms hns)

theorem eval_apply_identifier {name : String} (hfree : isFree name = true) {arg : SExpr}
    {args : List SExpr} (h : model.evalAll (arg :: args) = some (ns.map .int)) :
    model.eval (.apply (identifier name) (arg :: args)) =
      some (.int (model.value (bare name) ns)) := by
  obtain ⟨hwritable, hunreserved⟩ := Bool.and_eq_true_iff.mp hfree
  rw [eval_apply h, symbol?_identifier, if_pos hwritable]
  exact result?_of_not_mem (of_decide_eq_true hunreserved) ns

/-- **One entry.** A formula is true in a model exactly if its entry holds, if the name of the
function that it reports is free. -/
theorem Renders.satisfies_iff_holds (h : model.Renders trace intended) {entry : TraceEntry}
    (hentry : entry ∈ trace) (hterms : ∀ operand ∈ entry.operands, operand.isInteger = true)
    (hfree : ∀ function ∈ entry.reported?, isFree function.1 = true) {formula : SExpr}
    (hformula : formula? entry = some formula) :
    model.Satisfies formula ↔ entry.Holds intended := by
  cases entry with
  | declare symbol => cases hformula
  | state number function time args value =>
    cases hformula
    obtain ⟨ns, hns, hlength⟩ := intended.exists_meanings fun operand hoperand =>
      hterms operand (List.mem_append_left _ hoperand)
    obtain ⟨n, hn⟩ := Term.exists_meaning intended.symbol
      (hterms value (List.mem_append_right _ (List.mem_singleton.mpr rfl)))
    have hvalue := h.function function args.length
      (List.mem_filterMap.mpr ⟨_, hentry, rfl⟩) (intended.time time :: ns)
      (congrArg (· + 1) hlength)
    have happlied := eval_apply_identifier (hfree _ rfl) (h.evalAll_arguments time hns)
    rw [satisfies_equation_iff happlied (h.eval_term hn), hvalue]
    simp [Holds, hns, hn, eq_comm]
  | condition number lhs op rhs =>
    cases hformula
    obtain ⟨x, hx⟩ := Term.exists_meaning intended.symbol (hterms lhs List.mem_cons_self)
    obtain ⟨y, hy⟩ := Term.exists_meaning intended.symbol
      (hterms rhs (List.mem_cons_of_mem _ List.mem_cons_self))
    rw [satisfies_comparison_iff op (h.eval_term hx) (h.eval_term hy)]
    simp [Holds, hx, hy]
  | definition number symbol op lhs rhs =>
    cases hformula
    obtain ⟨x, hx⟩ := Term.exists_meaning intended.symbol (hterms lhs List.mem_cons_self)
    obtain ⟨y, hy⟩ := Term.exists_meaning intended.symbol
      (hterms rhs (List.mem_cons_of_mem _ List.mem_cons_self))
    have hoperator : operator op ∈ theorySymbols := by cases op <;> decide
    have heval : model.eval (.apply (operator op) [term lhs, term rhs]) =
        some (.int (op.meaning intended.byZero x y)) := by
      rw [eval_theory hoperator (evalAll_pair (h.eval_term hx) (h.eval_term hy)), h.byZero,
        theory?_operator]
    rw [satisfies_equation_iff (h.eval_symbol symbol) heval, ← op.gives_iff]
    simp [Holds, hx, hy]

end Renders

/-! ### Names that scripts need -/

theorem eval_apply_of_not_isFree {other : Model} (hfree : isFree name = false)
    (hbyZero : model.byZero = other.byZero) (h : model.evalAll (arg :: args) = some values)
    (hother : other.evalAll (arg :: args) = some values) :
    model.eval (.apply (identifier name) (arg :: args)) =
      other.eval (.apply (identifier name) (arg :: args)) := by
  rw [eval_apply h, eval_apply hother, symbol?_identifier]
  split
  · next hwritable =>
      rw [isFree, hwritable, Bool.true_and] at hfree
      have hmem : bare name ∈ theorySymbols := not_not.mp (of_decide_eq_false hfree)
      show model.result? _ _ = other.result? _ _
      rw [result?_of_mem hmem, result?_of_mem hmem, hbyZero]
  · rfl

theorem satisfies_equation_congr {other : Model} (hbyZero : model.byZero = other.byZero)
    (hlhs : model.eval lhs = other.eval lhs) (hrhs : model.eval rhs = other.eval rhs) :
    model.Satisfies (.equation lhs rhs) ↔ other.Satisfies (.equation lhs rhs) := by
  have hmem : "=" ∈ theorySymbols := by decide
  have heval : model.eval (.equation lhs rhs) = other.eval (.equation lhs rhs) := by
    simp only [SExpr.equation, SExpr.apply, eval, evalAll, hlhs, hrhs, result?_of_mem hmem,
      symbol?_theorySymbol "=" hmem, hbyZero, Option.bind_eq_bind, Option.bind_some]
  rw [Satisfies, Satisfies, heval]

/-- What an interpretation gives to the names of a trace. Constants are the names without
arguments, and a name that writes two functions of one number of arguments takes the first. -/
def rendering (trace : List TraceEntry) (intended : TraceModel) : Model where
  value name
    | [] =>
      let id := Nat.ofDigitChars 10 (name.toList.drop 3) 0
      if name = symbolName id then intended.symbol id else intended.final
    | n :: ns =>
      match (trace.filterMap reported?).find? fun function =>
        bare function.1 = name ∧ function.2 = ns.length with
      | some function => intended.function function.1 (n :: ns)
      | none => 0
  byZero := intended.byZero

end Model

/-- The functions that a trace reports have names that are written as symbols, that are no symbols
of the theory, and that are written apart if they take the same number of arguments. Functions that
share a name but not the number of arguments may stay, since models tell them apart; `Exportable`
excludes them, as a script declares a name once. -/
structure WellNamed (trace : List TraceEntry) : Prop where
  free : ∀ function ∈ trace.filterMap reported?, isFree function.1 = true
  apart : ∀ function ∈ trace.filterMap reported?,
    ∀ other ∈ trace.filterMap reported?,
      function.2 = other.2 → bare function.1 = bare other.1 → function.1 = other.1

/-- Each interpretation has a model in which each formula says what its entry says. -/
def Faithful (trace : List TraceEntry) : Prop :=
  ∀ intended, ∃ model : Model, model.Renders trace intended ∧
    ∀ entry ∈ trace, ∀ formula ∈ formula? entry,
      (model.Satisfies formula ↔ entry.Holds intended)

theorem WellNamed.renders_rendering (h : WellNamed trace) (intended : TraceModel) :
    (Model.rendering trace intended).Renders trace intended where
  symbol id := by
    have hread : Nat.ofDigitChars 10 ((symbolName id).toList.drop 3) 0 = id := by
      rw [toList_symbolName, Nat.toString_eq_ofList_toDigits, String.toList_ofList]
      exact Nat.ofDigitChars_ten_toDigits
    simp only [Model.rendering, hread, if_true]
  final := by
    simp only [Model.rendering]
    exact if_neg (symbolName_ne (by decide)).symm
  function name arity hreported ns hlength := by
    cases ns with
    | nil => cases hlength
    | cons n rest =>
      have harity : arity = rest.length := (Nat.succ.inj hlength).symm
      cases hfound : (trace.filterMap reported?).find? fun function =>
          bare function.1 = bare name ∧ function.2 = rest.length with
      | none =>
        have hdiffers := List.find?_eq_none.mp hfound _ hreported
        simp [harity] at hdiffers
      | some function =>
        have hsame : bare function.1 = bare name ∧ function.2 = rest.length := by
          simpa using List.find?_some hfound
        have hname : function.1 = name := h.apart function (List.mem_of_find?_eq_some hfound) _
          hreported (hsame.2.trans harity.symm) hsame.1
        simp only [Model.rendering, hfound, hname]
  byZero := rfl

/-- Without a free name, two interpretations that give different values to a function have the same
assertions in their models. -/
theorem Faithful.free (h : Faithful trace)
    (hterms : ∀ entry ∈ trace, ∀ operand ∈ entry.operands, operand.isInteger = true)
    {function : String × Nat} (hreported : function ∈ trace.filterMap reported?) :
    isFree function.1 = true := by
  obtain ⟨entry, hentry, hfunction⟩ := List.mem_filterMap.mp hreported
  cases entry with
  | state number name time args value =>
    cases hfunction
    by_contra hfree
    have hargs : ∀ operand ∈ args, operand.isInteger = true := fun operand hoperand =>
      hterms _ hentry operand (List.mem_append_left _ hoperand)
    obtain ⟨ns, hns, -⟩ := (TraceModel.constant 0).exists_meanings hargs
    obtain ⟨n, hn⟩ := Term.exists_meaning (TraceModel.constant 0).symbol
      (hterms _ hentry value (List.mem_append_right _ (List.mem_singleton.mpr rfl)))
    obtain ⟨model, hmodel, hholds⟩ := h (.constant n)
    obtain ⟨other, hother, hfails⟩ := h (.constant (n + 1))
    have hbyZero : model.byZero = other.byZero := hmodel.byZero.trans hother.byZero.symm
    have hsame := Model.satisfies_equation_congr hbyZero
      (Model.eval_apply_of_not_isFree (Bool.eq_false_iff.mpr hfree) hbyZero
        (hmodel.evalAll_arguments time hns) (hother.evalAll_arguments time hns))
      ((hmodel.eval_term hn).trans (hother.eval_term hn).symm)
    have htrue := (hholds _ hentry _ rfl).mpr ⟨ns, n, hns, hn, rfl⟩
    obtain ⟨_, m, -, hm, hvalue⟩ := (hfails _ hentry _ rfl).mp (hsame.mp htrue)
    have hnm : n = m := Option.some.inj (hn.symm.trans hm)
    rw [← hnm] at hvalue
    exact absurd hvalue (by simp [TraceModel.constant])
  | declare symbol => cases hfunction
  | condition number lhs op rhs => cases hfunction
  | definition number symbol op lhs rhs => cases hfunction

theorem Faithful.apart (h : Faithful trace) {function other : String × Nat}
    (hfunction : function ∈ trace.filterMap reported?)
    (hother : other ∈ trace.filterMap reported?) (harity : function.2 = other.2)
    (hname : bare function.1 = bare other.1) : function.1 = other.1 := by
  by_contra hne
  obtain ⟨model, hmodel, -⟩ := h
    { TraceModel.constant 0 with function := fun name _ => if name = function.1 then 1 else 0 }
  have hone := hmodel.function function.1 function.2 hfunction (List.replicate (function.2 + 1) 0)
    List.length_replicate
  have hzero := hmodel.function other.1 other.2 hother (List.replicate (function.2 + 1) 0)
    (by rw [List.length_replicate, harity])
  rw [hname, hzero] at hone
  simp [Ne.symm hne] at hone

theorem WellNamed.satisfies_iff_holds (h : WellNamed trace)
    (hterms : ∀ entry ∈ trace, ∀ operand ∈ entry.operands, operand.isInteger = true)
    {intended : TraceModel} {model : Model} (hmodel : model.Renders trace intended)
    {entry : TraceEntry} (hentry : entry ∈ trace) {formula : SExpr}
    (hformula : formula? entry = some formula) : model.Satisfies formula ↔ entry.Holds intended :=
  hmodel.satisfies_iff_holds hentry (hterms entry hentry)
    (fun function hfunction => h.free function (List.mem_filterMap.mpr ⟨entry, hentry, hfunction⟩))
    hformula

theorem holds_of_formula?_eq_none {entry : TraceEntry} (h : formula? entry = none)
    (intended : TraceModel) : entry.Holds intended := by
  cases entry with
  | declare symbol => trivial
  | state number function time args value => cases h
  | condition number lhs op rhs => cases h
  | definition number symbol op lhs rhs => cases h

theorem WellNamed.satisfies_all_iff (h : WellNamed trace)
    (hterms : ∀ entry ∈ trace, ∀ operand ∈ entry.operands, operand.isInteger = true)
    {intended : TraceModel} {model : Model} (hmodel : model.Renders trace intended) :
    (∀ formula ∈ trace.filterMap formula?, model.Satisfies formula) ↔
      ∀ entry ∈ trace, entry.Holds intended := by
  constructor
  · intro hall entry hentry
    cases hformula : formula? entry with
    | none => exact holds_of_formula?_eq_none hformula intended
    | some formula =>
      exact (h.satisfies_iff_holds hterms hmodel hentry hformula).mp
        (hall formula (List.mem_filterMap.mpr ⟨entry, hentry, hformula⟩))
  · intro hall formula hmem
    obtain ⟨entry, hentry, hformula⟩ := List.mem_filterMap.mp hmem
    exact (h.satisfies_iff_holds hterms hmodel hentry hformula).mpr (hall entry hentry)

/-- **Assertions say what entries say if the names allow it.** The script of a trace of integers has
the formulas of its entries as its assertions, in their order. Each interpretation of the trace has
a model in which each formula is true exactly if its entry holds, if and only if the names of the
traced functions are symbols, none of the theory, and written apart. Then the assertions are true
together, in each model of an interpretation, exactly if all entries hold. -/
theorem faithful_iff_wellNamed (trace : List TraceEntry)
    (hterms : ∀ entry ∈ trace, ∀ operand ∈ entry.operands, operand.isInteger = true) :
    (ofTrace trace).filterMap assertion? = trace.filterMap formula? ∧
      (Faithful trace ↔ WellNamed trace) ∧
      (WellNamed trace → ∀ intended : TraceModel,
        (∃ model : Model, model.Renders trace intended) ∧
        ∀ model : Model, model.Renders trace intended →
          ((∀ formula ∈ (ofTrace trace).filterMap assertion?, model.Satisfies formula) ↔
            ∀ entry ∈ trace, entry.Holds intended)) := by
  refine ⟨filterMap_assertion?_ofTrace trace, ⟨fun h => ⟨?_, ?_⟩, fun h intended => ?_⟩, ?_⟩
  · exact fun function hfunction => h.free hterms hfunction
  · exact fun function hfunction other hother => h.apart hfunction hother
  · exact ⟨_, h.renders_rendering intended, fun entry hentry formula hformula =>
      h.satisfies_iff_holds hterms (h.renders_rendering intended) hentry hformula⟩
  · intro h intended
    rw [filterMap_assertion?_ofTrace]
    exact ⟨⟨_, h.renders_rendering intended⟩, fun model hmodel => h.satisfies_all_iff hterms hmodel⟩

/-- Two functions at two timesteps, the least integer, and a quotient by a negative integer. -/
def quotientTrace : List TraceEntry :=
  [.declare 0, .state 1 "height" (.at 3) [.symbol 0, .int Int64.minValue] (.int (-5)),
    .condition 2 (.symbol 0) .ne (.int Int64.minValue), .declare 1,
    .definition 3 1 .quotient (.symbol 0) (.int (-2)), .state 4 "let it" .final [] (.symbol 1)]

theorem faithful_quotientTrace :
    (∀ entry ∈ quotientTrace, ∀ operand ∈ entry.operands, operand.isInteger = true) ∧
      WellNamed quotientTrace ∧ Faithful quotientTrace := by
  have hterms : ∀ entry ∈ quotientTrace, ∀ operand ∈ entry.operands,
      operand.isInteger = true := by decide
  have hnamed : WellNamed quotientTrace := ⟨by decide, by decide⟩
  exact ⟨hterms, hnamed, (faithful_iff_wellNamed quotientTrace hterms).2.1.mpr hnamed⟩

/-- A function that has the name of integer division, with the value five at timestep seven. -/
def divisionTrace : List TraceEntry := [.state 1 "div" (.at 7) [.int 2] (.int 5)]

/-- The assertion is about the quotient of seven by two, so it is false in all models, even for an
interpretation in which the entry holds. -/
theorem not_satisfies_divisionTrace :
    (∀ entry ∈ divisionTrace, entry.Holds (.constant 5)) ∧
      ∀ model : Model,
        ¬∀ formula ∈ (ofTrace divisionTrace).filterMap assertion?, model.Satisfies formula := by
  constructor
  · intro entry hentry
    cases List.mem_singleton.mp hentry
    exact ⟨[2], 5, rfl, rfl, rfl⟩
  · intro model hall
    have htrue := hall (.equation (.apply "div" [.numeral 7, .numeral 2]) (.numeral 5))
      (List.mem_singleton.mpr rfl)
    have hquotient : model.eval (.apply "div" [.numeral 7, .numeral 2]) = some (.int 3) :=
      Model.eval_theory (by decide)
        (Model.evalAll_pair (Model.eval_numeral 7) (Model.eval_numeral 2))
    exact absurd ((Model.satisfies_equation_iff hquotient (Model.eval_numeral 5)).mp htrue)
      (by decide)

end Script

end AbstractStateMachine
