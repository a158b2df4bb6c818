import AbstractStateMachine.Machine.Eval
import AbstractStateMachine.Proofs.Value.Equality

/-!
# Plain values

A datum is a value in which a list is nothing but the sequence of its elements. Equality, tokens,
texts and operations are those of values; scalars are handled by the operations on values, which
see the kind of a list and nothing else of it.
-/

namespace AbstractStateMachine

inductive Datum where
  | int (value : Int64)
  | float (value : Binary64)
  | bool (value : Bool)
  | str (value : String)
  | undefined
  | rule (id : RuleId)
  | list (elements : List Datum)

namespace Datum

theorem induction {motive : Datum → Prop} (scalar : ∀ datum, (∀ elements, datum ≠ .list elements) →
    motive datum) (list : ∀ elements, (∀ element ∈ elements, motive element) →
    motive (.list elements)) : ∀ datum, motive datum
  | .int _ => scalar _ nofun
  | .float _ => scalar _ nofun
  | .bool _ => scalar _ nofun
  | .str _ => scalar _ nofun
  | .undefined => scalar _ nofun
  | .rule _ => scalar _ nofun
  | .list elements => list elements fun element _ => induction scalar list element

/-- The datum as a value, with a placeholder for a list. -/
def outline : Datum → Value
  | .int value => .int value
  | .float value => .float value
  | .bool value => .bool value
  | .str value => .str value
  | .undefined => .undefined
  | .rule id => .rule id
  | .list _ => .list ⟨0⟩

def ofScalar : Value → Datum
  | .int value => .int value
  | .float value => .float value
  | .bool value => .bool value
  | .str value => .str value
  | .rule id => .rule id
  | .undefined | .symbol _ | .verdict _ _ _ _ | .list _ => .undefined

def kind (datum : Datum) : Kind := datum.outline.kind

mutual

def equal : Datum → Datum → Bool
  | .int x, .int y => x == y
  | .float x, .float y => x.equal y
  | .bool x, .bool y => x == y
  | .str x, .str y => x == y
  | .undefined, .undefined => true
  | .rule x, .rule y => x == y
  | .list xs, .list ys => equalAll xs ys
  | _, _ => false

def equalAll : List Datum → List Datum → Bool
  | [], [] => true
  | x :: xs, y :: ys => x.equal y && equalAll xs ys
  | _, _ => false

end

mutual

def tokens : Datum → List Token
  | .int value => [.int value]
  | .float value => [.float value.bits]
  | .bool value => [.bool value]
  | .str value => [.str value]
  | .undefined => [.undefined]
  | .rule id => [.rule id]
  | .list elements => .list :: tokensAll elements

def tokensAll : List Datum → List Token
  | [] => []
  | element :: rest => element.tokens ++ tokensAll rest

end

mutual

def text (spec : Specification) : Datum → String
  | .int value => toString value.toInt
  | .float value => value.text
  | .bool true => "true"
  | .bool false => "false"
  | .str value => value
  | .undefined => "undef"
  | .rule id => "@" ++ (spec.rule id).name
  | .list elements => "[" ++ ", ".intercalate (texts spec elements) ++ "]"

def texts (spec : Specification) : List Datum → List String
  | [] => []
  | element :: rest => element.text spec :: texts spec rest

end

def keyPart (digest : Digest) : Datum → KeyPart
  | .int value => .word value.toUInt64
  | .undefined => .word undefWord
  | other => digest other.tokens

def argKey (digest : Digest) (args : List Datum) : ArgKey := args.map (keyPart digest)

theorem equalAll_eq (xs ys : List Datum) : equalAll xs ys = allPairs equal xs ys := by
  induction xs generalizing ys with
  | nil => cases ys <;> rfl
  | cons x xs ih =>
    cases ys with
    | nil => rfl
    | cons y ys => rw [equalAll, allPairs, ih]

theorem tokensAll_eq (elements : List Datum) : tokensAll elements = elements.flatMap tokens := by
  induction elements with
  | nil => rfl
  | cons element rest ih => rw [tokensAll, ih, List.flatMap_cons]

theorem texts_eq (spec : Specification) (elements : List Datum) :
    texts spec elements = elements.map (text spec) := by
  induction elements with
  | nil => rfl
  | cons element rest ih => rw [texts, ih, List.map_cons]

/-! ### Operations -/

abbrev Outcome := Except OperandError Datum

def binary (op : BinaryOp) (left right : Datum) : Outcome :=
  match op with
  | .eq => .ok (.bool (left.equal right))
  | .ne => .ok (.bool (!left.equal right))
  | op => (Operation.binary {} op left.outline right.outline).map ofScalar

def not (operand : Datum) : Outcome := (Operation.not operand.outline).map ofScalar

def nth (elements : List Datum) (position : Int64) : Datum :=
  if 1 ≤ position.toInt ∧ position.toInt ≤ elements.length then
    elements.getD (position.toInt.toNat - 1) .undefined
  else .undefined

def builtinPair (op : Builtin) (left right : Datum) : Outcome :=
  match op, left, right with
  | .nth, .list elements, .int position => .ok (nth elements position)
  | .cons, value, .list elements => .ok (.list (value :: elements))
  | .app, .list elements, value => .ok (.list (elements ++ [value]))
  | op, left, right =>
    (Operation.builtinPair {} default op left.outline right.outline).map fun result =>
      ofScalar result.1

def builtinSingle (op : Builtin) (operand : Datum) : Outcome :=
  match op, operand with
  | .tail, .list elements => .ok (.list elements.tail)
  | .len, .list elements => .ok (.int (Int64.ofNat elements.length))
  | .peek, .list elements => .ok (elements.headD .undefined)
  | op, operand =>
    (Operation.builtinSingle {} op operand.outline).map fun result => ofScalar result.1

def builtin (op : Builtin) (args : List Datum) : Outcome :=
  if args.length = op.arity then
    match args with
    | [left, right] => builtinPair op left right
    | [operand] => builtinSingle op operand
    | _ => .error (.builtinArity op args.length)
  else .error (.builtinArity op args.length)

/-! ### Data without floats -/

inductive FloatFree : Datum → Prop where
  | scalar {datum : Datum} (hfloat : ∀ value, datum ≠ .float value)
      (hlist : ∀ elements, datum ≠ .list elements) : FloatFree datum
  | list {elements : List Datum} (helements : ∀ element ∈ elements, FloatFree element) :
      FloatFree (.list elements)

theorem floatFree_list_iff {elements : List Datum} :
    FloatFree (.list elements) ↔ ∀ element ∈ elements, element.FloatFree := by
  constructor
  · intro h
    cases h with
    | scalar _ hlist => exact absurd rfl (hlist elements)
    | list helements => exact helements
  · exact .list

theorem equal_self_of_mem {elements : List Datum}
    (h : Datum.equal (.list elements) (.list elements) = true) :
    ∀ element ∈ elements, element.equal element = true := by
  rw [equal, equalAll_eq] at h
  induction elements with
  | nil => exact nofun
  | cons element rest ih =>
    rw [allPairs, Bool.and_eq_true] at h
    exact List.forall_mem_cons.mpr ⟨h.1, ih h.2⟩

theorem FloatFree.equal_self {datum : Datum} (h : datum.FloatFree) : datum.equal datum = true := by
  induction h with
  | @scalar datum hfloat hlist =>
    cases datum with
    | float value => exact absurd rfl (hfloat value)
    | list elements => exact absurd rfl (hlist elements)
    | undefined => rfl
    | _ => exact beq_self_eq_true _
  | list _ ih =>
    rw [equal, equalAll_eq]
    exact allPairs_refl ih

end Datum

end AbstractStateMachine
