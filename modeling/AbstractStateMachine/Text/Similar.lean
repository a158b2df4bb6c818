/-!
Names similar to a misspelled one. A candidate has to contain the wanted name as a subsequence; its
score rewards matches at the start of words and in runs, and charges for gaps.

Scores are worked out on a sheet with two lines of cells, which the wanted characters use in turn.
A line is not cleared between them: the scan for a character starts at the first place it can have,
and takes up the cell before that place as it was left. Nor is the sheet cleared between candidates,
apart from its upper line and one cell of the lower one.
-/

namespace AbstractStateMachine.Text

inductive CharClass where
  | bracket | mark | digit | upper | other
  deriving DecidableEq

def isPunctuation (c : Char) : Bool :=
  0x21 ≤ c.toNat && c.toNat ≤ 0x7e && !c.isAlphanum

/-- Blanks, slashes, bars and the null character stand with the brackets. -/
def CharClass.of (c : Char) : CharClass :=
  if c.toNat ∈ [0, 0x20, 0x2f, 0x5c, 0x7c, 0x28, 0x29, 0x5b, 0x5d, 0x7b, 0x7d] then .bracket
  else if isPunctuation c then .mark
  else if c.isDigit then .digit
  else if c.isUpper then .upper
  else .other

/-- What a match is worth at a place, by the character before it. -/
def placeBonus (before : Option Char) (c : Char) : Int :=
  match before.map CharClass.of with
  | none => 16
  | some .bracket => 8
  | some .mark => 7
  | some .digit | some .other => if CharClass.of c = .upper then 6 else 0
  | some .upper => 0

def withBonuses : Option Char → List Char → List (Char × Int)
  | _, [] => []
  | before, c :: cs => (c, placeBonus before c) :: withBonuses (some c) cs

/-- The least a match is worth right after another one. -/
def runBonus : Int := 4

def matchScore? (exactCase : Bool) (c wanted : Char) : Option Int :=
  if c = wanted then some 16
  else if !exactCase && c.toLower = wanted.toLower then some 14
  else none

/-- The places of the wanted characters when each is taken as early as it can be, counted from
`place`. -/
def firstPlaces? (exactCase : Bool) : Nat → List Char → List Char → Option (List Nat)
  | _, [], _ => some []
  | _, _ :: _, [] => none
  | place, wanted :: rest, c :: cs =>
    if (matchScore? exactCase c wanted).isSome then
      (firstPlaces? exactCase (place + 1) rest cs).map (place :: ·)
    else firstPlaces? exactCase (place + 1) (wanted :: rest) cs

/-- The score of an alignment that does not exist. -/
def lowestScore : Int := -32768

structure Cell where
  /-- Best score with the wanted character matched right before this cell. -/
  matched : Int := lowestScore
  /-- Best score with the wanted character matched earlier and the gap since then charged. -/
  skipped : Int := lowestScore
  /-- What a match was worth as part of a run. -/
  bonus : Int := 0
  deriving Inhabited

/-- Two lines of `width` cells, one after the other. -/
structure Sheet where
  width : Nat
  cells : Array Cell

namespace Sheet

def position (sheet : Sheet) (line column : Nat) : Nat := line % 2 * sheet.width + column

def get (sheet : Sheet) (line column : Nat) : Cell :=
  sheet.cells.getD (sheet.position line column) {}

def put (sheet : Sheet) (line column : Nat) (cell : Cell) : Sheet :=
  { sheet with cells := sheet.cells.setIfInBounds (sheet.position line column) cell }

/-- A sheet of the given width made of used cells, and of new ones where these do not suffice. -/
def ofCells (cells : Array Cell) (width : Nat) : Sheet :=
  { width, cells := cells.extract 0 (2 * width) ++ Array.replicate (2 * width - cells.size) {} }

/-- The sheet before the first wanted character: what is left out before its match costs nothing. -/
def start (sheet : Sheet) (firstPlace : Nat) : Sheet :=
  (List.range sheet.width).foldl (fun sheet column => sheet.put 0 column { skipped := 0 })
    (sheet.put 1 firstPlace {})

/-- Fills in the cell after one character of the candidate. A match in a run leaves its worth in the
cell before it. -/
def scanPlace (exactCase : Bool) (wanted : Char) (line : Nat) (sheet : Sheet)
    (place : (Char × Int) × Nat) : Sheet :=
  let ((c, bonus), column) := place
  let left := sheet.get line column
  let diagonal := sheet.get (line + 1) column
  let skipped := max (left.matched - 4) (left.skipped - 1)
  match matchScore? exactCase c wanted with
  | none => sheet.put line (column + 1) { skipped }
  | some score =>
    let inRun := max left.bonus (max bonus runBonus)
    let matched := max (diagonal.matched + inRun) (diagonal.skipped + bonus) + score
    let here := sheet.get line (column + 1)
    (sheet.put line column { left with bonus := inRun }).put line (column + 1)
      { here with matched, skipped }

def scanLine (exactCase : Bool) (text : List (Char × Int)) (sheet : Sheet)
    (wanted : (Char × Nat) × Nat) : Sheet :=
  let ((c, firstPlace), line) := wanted
  (text.zipIdx.drop firstPlace).foldl (scanPlace exactCase c (line + 1)) sheet

def best (sheet : Sheet) (line column : Nat) : Int :=
  (List.range' column (sheet.width - column)).foldl
    (fun score column => max score (sheet.get line column).matched) lowestScore

end Sheet

/-- The score of a candidate, worked out on used cells, and the cells as it leaves them. -/
def similarity? (wanted candidate : String) (cells : Array Cell) : Option (Int × Array Cell) :=
  let pattern := wanted.toList
  let exactCase := pattern.any Char.isUpper
  (firstPlaces? exactCase 0 pattern candidate.toList).map fun places =>
    match places.head?, places.getLast? with
    | some first, some last =>
      let text := withBonuses none candidate.toList
      let sheet := (Sheet.ofCells cells (text.length + 1)).start first
      let filled := (pattern.zip places).zipIdx.foldl (Sheet.scanLine exactCase text) sheet
      (filled.best pattern.length last, filled.cells)
    | _, _ => (0, cells)

def scoredCandidates (wanted : String) : Array Cell → List String → List (String × Int)
  | _, [] => []
  | cells, candidate :: rest =>
    match similarity? wanted candidate cells with
    | none => scoredCandidates wanted cells rest
    | some (score, cells) => (candidate, score) :: scoredCandidates wanted cells rest

/-- The three most similar candidates, best first, equals in their given order. -/
def suggestions (wanted : String) (candidates : List String) : List String :=
  let scored := scoredCandidates wanted #[] candidates
  ((scored.mergeSort fun x y => y.2 ≤ x.2).take 3).map (·.1)

end AbstractStateMachine.Text
