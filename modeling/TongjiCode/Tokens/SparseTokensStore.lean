import TongjiCode.Tokens.SparseMultilineTokens

/-!
# Store of sparse tokens

The class `SparseTokensStore` of `sparseTokensStore.ts`: the semantic tokens of a document as a list of pieces.  Of
`addSparseTokens` there is the lookup of the tokens of a line; `AddSparseTokens` has the mixing of their styles into those of
the line.
-/

namespace TongjiCode.Tokens

def Range.plusRange (a b : Range) : Range :=
  { startLineNumber := if b.startLineNumber < a.startLineNumber then b.startLineNumber else a.startLineNumber
    startColumn :=
      if b.startLineNumber < a.startLineNumber then b.startColumn
      else if b.startLineNumber = a.startLineNumber then min b.startColumn a.startColumn
      else a.startColumn
    endLineNumber := if b.endLineNumber > a.endLineNumber then b.endLineNumber else a.endLineNumber
    endColumn :=
      if b.endLineNumber > a.endLineNumber then b.endColumn
      else if b.endLineNumber = a.endLineNumber then max b.endColumn a.endColumn
      else a.endColumn }

structure SparseTokensStore where
  pieces : List SparseMultilineTokens := []
  isComplete : Bool := false

namespace SparseTokensStore

def set (_ : SparseTokensStore) (pieces : Option (List SparseMultilineTokens)) (isComplete : Bool) : SparseTokensStore :=
  { pieces := pieces.getD [], isComplete }

/-- The range of `setPartial` with those of the first and the last piece, `none` if one of these is empty. -/
def partialRange (range : Range) (pieces : List SparseMultilineTokens) : Option Range :=
  match pieces.head?, pieces.getLast? with
  | some first, some last =>
    match first.getRange, last.getRange with
    | some firstRange, some lastRange => some ((range.plusRange firstRange).plusRange lastRange)
    | _, _ => none
  | _, _ => some range

/-- The loop of `setPartial`.  `done` is what comes before the index `i` in the pieces. -/
def setPartialLoop (range : Range) (done : List SparseMultilineTokens) (insertPosition : Option Nat) :
    List SparseMultilineTokens → List SparseMultilineTokens × Option Nat
  | [] => (done, insertPosition)
  | piece :: pieces =>
    if piece.endLineNumber < range.startLineNumber then
      -- this piece is before the range
      setPartialLoop range (done ++ [piece]) insertPosition pieces
    else if piece.startLineNumber > range.endLineNumber then
      -- this piece is after the range
      (done ++ piece :: pieces, some (insertPosition.getD done.length))
    else
      -- this piece might intersect with the range
      let piece := piece.removeTokens range
      if piece.isEmpty then setPartialLoop range done insertPosition pieces
      else if piece.endLineNumber < range.startLineNumber then
        setPartialLoop range (done ++ [piece]) insertPosition pieces
      else if piece.startLineNumber > range.endLineNumber then
        setPartialLoop range (done ++ [piece]) (some (insertPosition.getD done.length)) pieces
      else
        -- after removal, this piece contains the range
        let (a, b) := piece.split range
        if a.isEmpty then
          setPartialLoop range (done ++ [piece]) (some (insertPosition.getD done.length)) pieces
        else if b.isEmpty then setPartialLoop range (done ++ [piece]) insertPosition pieces
        else setPartialLoop range (done ++ [a, b]) (some (insertPosition.getD (done.length + 1))) pieces

def setPartial (s : SparseTokensStore) (range : Range) (pieces : List SparseMultilineTokens) :
    Range × SparseTokensStore :=
  match partialRange range pieces with
  | none => (range, s)
  | some range =>
    let (done, insertPosition) := setPartialLoop range [] none s.pieces
    let index := insertPosition.getD done.length
    (range, { s with pieces := if pieces.length > 0 then done.take index ++ pieces ++ done.drop index else done })

/-- `acceptEdit`, `none` where it throws. -/
def acceptEdit (s : SparseTokensStore) (range : Range) (text : Inserted) : Option SparseTokensStore :=
  (s.pieces.mapM fun (piece : SparseMultilineTokens) => piece.acceptEdit range text).map fun pieces => { s with pieces }

def firstPieceBack (pieces : List SparseMultilineTokens) (lineNumber : Int) (low : Nat) : Nat → Nat
  | 0 => 0
  | mid + 1 =>
    match pieces[mid]? with
    | none => mid + 1
    | some piece =>
      if mid + 1 > low ∧ piece.startLineNumber ≤ lineNumber ∧ lineNumber ≤ piece.endLineNumber then
        firstPieceBack pieces lineNumber low mid
      else mid + 1

/-- The binary search of `_findFirstPieceWithLine`, `high` excluded. -/
def findFirstPieceLoop (pieces : List SparseMultilineTokens) (lineNumber : Int) (low high : Nat) : Nat :=
  if _h : low + 1 < high then
    let mid := low + (high - 1 - low) / 2
    match pieces[mid]? with
    | none => low
    | some piece =>
      if piece.endLineNumber < lineNumber then findFirstPieceLoop pieces lineNumber (mid + 1) high
      else if piece.startLineNumber > lineNumber then findFirstPieceLoop pieces lineNumber low mid
      else firstPieceBack pieces lineNumber low mid
  else low
termination_by high - low

def findFirstPieceWithLine (pieces : List SparseMultilineTokens) (lineNumber : Int) : Nat :=
  findFirstPieceLoop pieces lineNumber 0 pieces.length

/-- The tokens that `addSparseTokens` uses for a line that is not empty. -/
def sparseLineTokens (s : SparseTokensStore) (lineNumber : Int) : Option (List Token) :=
  match s.pieces[findFirstPieceWithLine s.pieces lineNumber]? with
  | none => none
  | some piece => piece.getLineTokens lineNumber

end SparseTokensStore

end TongjiCode.Tokens
