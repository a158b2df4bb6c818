import AbstractStateMachine.Fault
import AbstractStateMachine.Text.Width

/-!
Diagnostics with the lines of the source they point at. Labels underline a part of a line; the
message of the last label follows it, the others hang below their labels.
-/

namespace AbstractStateMachine

namespace Snippet

/-- A line of the source with the byte offsets of its start and of the next line. -/
structure Line where
  start : Nat
  stop : Nat
  chars : List Char

def byteSize (chars : List Char) : Nat :=
  chars.foldr (fun c total => c.utf8Size + total) 0

/-- Splits the source after every line feed; `line` holds the characters of the current line, latest
first. -/
def splitLines (start : Nat) (line : List Char) : List Char → List Line
  | [] => [⟨start, start + byteSize line, line.reverse⟩]
  | c :: rest =>
    if c = '\n' then
      let stop := start + byteSize (c :: line)
      ⟨start, stop, (c :: line).reverse⟩ :: splitLines stop [] rest
    else splitLines start (c :: line) rest

def lines (source : String) : List Line := splitLines 0 [] source.toList

/-- The line that a byte belongs to, counted from zero. Bytes behind the source belong to its last
line. -/
def lineIndex (lines : List Line) (byte : Nat) : Nat :=
  (lines.takeWhile (·.start ≤ byte)).length - 1

/-- The number of characters that end between two bytes of a line. -/
def charsBefore (byte : Nat) : Nat → List Char → Nat
  | _, [] => 0
  | offset, c :: rest =>
    if offset + c.utf8Size ≤ byte then charsBefore byte (offset + c.utf8Size) rest + 1 else 0

/-- The column of a byte, counted from one. -/
def column (line : Line) (byte : Nat) : Nat := charsBefore byte line.start line.chars + 1

/-- An underlined part of a line, in bytes from the start of the line. -/
structure Label where
  primary : Bool
  start : Nat
  stop : Nat
  message : String

def overlaps (start₁ stop₁ start₂ stop₂ : Nat) : Bool := max start₁ start₂ < min stop₁ stop₂

/-- An empty span is underlined by one mark; a span ends with its line. -/
def label (lines : List Line) (primary : Bool) (span : Span) (message : String) : Nat × Label :=
  let index := lineIndex lines span.start
  let line := lines.getD index ⟨0, 0, []⟩
  let stop := if lineIndex lines span.stop = index then span.stop else line.stop
  let start := span.start - line.start
  (index, { primary, start, stop := max (stop - line.start) (start + 1), message })

/-- A character with its place in the line and the columns it takes. -/
structure Cell where
  offset : Nat
  size : Nat
  width : Nat
  char : Char

def tabWidth : Nat := 4

def cellsFrom (offset column : Nat) : List Char → List Cell
  | [] => []
  | c :: rest =>
    let width := if c = '\t' then tabWidth - column % tabWidth else Text.columns c
    ⟨offset, c.utf8Size, width, c⟩ :: cellsFrom (offset + c.utf8Size) (column + width) rest

def cells (chars : List Char) : List Cell := cellsFrom 0 0 chars

/-- The text of a line without its end. -/
def content (line : Line) : List Char :=
  (line.chars.reverse.dropWhile fun c => c.toNat == 10 || c.toNat == 13 || c.toNat == 0).reverse

def blanks (count : Nat) : List Char := List.replicate count ' '

def sourceText (cells : List Cell) : List Char :=
  cells.flatMap fun cell => if cell.char = '\t' then blanks cell.width else [cell.char]

/-- The mark under a cell; a primary label covers a secondary one. -/
def mark? (labels : List Label) (cell : Cell) : Option Char :=
  let here := labels.filter fun label =>
    overlaps label.start label.stop cell.offset (cell.offset + cell.size)
  if here.any (·.primary) then some '^' else if here.isEmpty then none else some '-'

def lastStop (labels : List Label) : Nat := (labels.map (·.stop)).foldl max 0

def lastStart (labels : List Label) : Nat := (labels.map (·.start)).foldl max 0

/-- The marks under a line, with one more place at its end. -/
def underline (labels : List Label) (cells : List Cell) (size : Nat) : List Char :=
  let behind : Cell := ⟨size, 1, 1, ' '⟩
  (cells ++ [behind]).flatMap fun cell =>
    match mark? labels cell with
    | some mark => List.replicate cell.width mark
    | none => if cell.offset < lastStop labels then blanks cell.width else []

/-- The last label that reaches furthest to the right. -/
def furthest (labels : List Label) : Option Nat :=
  labels.zipIdx.foldl
    (fun found (label, index) => if label.stop = lastStop labels then some index else found) none

/-- The label whose message stands behind the marks: the furthest one, if it has a message and no
other label overlaps it. -/
def trailing? (labels : List Label) : Option Nat :=
  (furthest labels).filter fun index =>
    match labels[index]? with
    | none => false
    | some label =>
      !label.message.isEmpty &&
        labels.zipIdx.all fun (other, position) =>
          position = index || !overlaps label.start label.stop other.start other.stop

def hanging (labels : List Label) : List Label :=
  (labels.zipIdx.filter fun (label, index) =>
    !label.message.isEmpty && trailing? labels != some index).map (·.1)

/-- Lines from hanging messages up to their marks. -/
def pointers (labels : List Label) (cells : List Cell) : List Char :=
  cells.flatMap fun cell =>
    let points := (hanging labels).any fun label =>
      cell.offset ≤ label.start && label.start < cell.offset + cell.size
    let bar := if points then ['│'] else []
    let pad := if points then cell.width - 1 else cell.width
    bar ++ if cell.offset ≤ lastStart labels then blanks pad else []

/-- Labels in the order of their places; of two at one place the later given comes first. -/
def insertLabel (label : Label) : List Label → List Label
  | [] => [label]
  | known :: rest =>
    if known.start < label.start || (known.start == label.start && known.stop < label.stop) then
      known :: insertLabel label rest
    else label :: known :: rest

def gutter (width : Nat) : String := String.ofList (blanks width) ++ " "

def numbered (width number : Nat) : String :=
  let digits := toString number
  String.ofList (blanks (width - digits.length)) ++ digits ++ " "

def sourceLine (width : Nat) (number : Nat) (line : Line) : String :=
  numbered width number ++ "│ " ++ String.ofList (sourceText (cells (content line)))

def labelledLine (width number : Nat) (line : Line) (labels : List Label) : List String :=
  let chars := content line
  let cells := cells chars
  let margin := gutter width ++ "│ "
  let behind :=
    match (trailing? labels).bind (labels[·]?) with
    | some label => " " ++ label.message
    | none => ""
  let marks := margin ++ String.ofList (underline labels cells (byteSize chars)) ++ behind
  let below := (hanging labels).reverse.map fun label =>
    margin ++ String.ofList (pointers labels (cells.takeWhile (·.offset < label.start))) ++
      label.message
  let hangers :=
    if below.isEmpty then []
    else (margin ++ String.ofList (pointers labels cells)) :: below
  [sourceLine width number line, marks] ++ hangers

/-- What stands between two labelled lines: nothing, the line between them, or a gap. -/
def between (width : Nat) (lines : List Line) (index next : Nat) : List String :=
  if next = index + 1 then []
  else if next = index + 2 then
    [sourceLine width (index + 2) (lines.getD (index + 1) ⟨0, 0, []⟩)]
  else [gutter width ++ "·"]

def body (width : Nat) (lines : List Line) : List (Nat × List Label) → List String
  | [] => []
  | (index, labels) :: rest =>
    let here := labelledLine width (index + 1) (lines.getD index ⟨0, 0, []⟩) labels
    match rest with
    | [] => here
    | (next, _) :: _ => here ++ between width lines index next ++ body width lines rest

/-- Groups two placed labels by line, from the top of the source down. -/
def grouped (first : Nat × Label) (second : Option (Nat × Label)) : List (Nat × List Label) :=
  match second with
  | none => [(first.1, [first.2])]
  | some second =>
    if first.1 = second.1 then [(first.1, insertLabel second.2 [first.2])]
    else if first.1 < second.1 then [(first.1, [first.2]), (second.1, [second.2])]
    else [(second.1, [second.2]), (first.1, [first.2])]

end Snippet

open Snippet in
/-- The diagnostic with the source it points at; `name` is the name of the source. -/
def Diagnostic.render (diagnostic : Diagnostic) (name source : String) : String :=
  let lines := lines source
  let primary := label lines true diagnostic.span diagnostic.detail
  let secondary := diagnostic.other.map fun span => label lines false span "first update here"
  let groups := grouped primary secondary
  let width := (groups.map fun group => (toString (group.1 + 1)).length).foldl max 0
  let place := lines.getD primary.1 ⟨0, 0, []⟩
  let locus :=
    name ++ ":" ++ toString (primary.1 + 1) ++ ":" ++ toString (column place diagnostic.span.start)
  let header :=
    ["error: " ++ diagnostic.kind.label, gutter width ++ "┌─ " ++ locus, gutter width ++ "│"]
  "\n".intercalate (header ++ body width lines groups ++ ["", ""])

end AbstractStateMachine
