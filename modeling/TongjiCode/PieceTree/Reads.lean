import TongjiCode.PieceTree.Base

/-!
# Piece tree: reading

The functions that read positions, lines and ranges.  Some of them fill the search cache or remember the
last line; they return the new state with the value.
-/

namespace TongjiCode.PieceTree

open JsString

/-- `s.substring(a, b)`: the ends are brought into the string and exchanged if they are in the wrong order. -/
def substringBetween (s : JsString) (a b : Int) : JsString := s.substring (min a b).toNat (max a b).toNat

structure Position where
  lineNumber : Nat
  column : Nat
  deriving Repr, DecidableEq

structure Range where
  startLineNumber : Nat
  startColumn : Nat
  endLineNumber : Nat
  endColumn : Nat
  deriving Repr, DecidableEq

/-! ## Lines of a piece -/

/-- The length of the piece up to the end of its line `index`. -/
def getAccumulatedValue (buffers : List StringBuffer) (piece : Piece) (index : Int) : Int :=
  if index < 0 then 0
  else
    let lineStarts := (bufferAt buffers piece.bufferIndex).lineStarts
    let start : Int := lineStarts.getD piece.start.line 0
    let expectedLineStartIndex := piece.start.line + index.toNat + 1
    if expectedLineStartIndex > piece.stop.line then
      lineStarts.getD piece.stop.line 0 + piece.stop.column - start - piece.start.column
    else lineStarts.getD expectedLineStartIndex 0 - start - piece.start.column

/-- The line of a piece and the column in it, for an offset in the piece. -/
def getIndexOf (buffers : List StringBuffer) (piece : Piece) (accumulatedValue : Nat) : Nat × Nat :=
  let b := bufferAt buffers piece.bufferIndex
  let pos := positionInBuffer b piece accumulatedValue
  let lineCnt := pos.line - piece.start.line
  if offsetInBuffer b piece.stop - offsetInBuffer b piece.start = accumulatedValue then
    -- the end of the piece may stand between `\r` and `\n`
    let realLineCnt := getLineFeedCnt b piece.start pos
    if realLineCnt ≠ lineCnt then (realLineCnt, 0) else (lineCnt, pos.column)
  else (lineCnt, pos.column)

/-! ## Offsets and positions -/

def getOffsetAtLoop (buffers : List StringBuffer) : Tree TreeNode → Int → Int → Int → Int
  | .nil, _, _, leftLen => leftLen
  | .node _ l v r, lineNumber, column, leftLen =>
    if l ≠ .nil ∧ v.lfLeft + 1 ≥ lineNumber then getOffsetAtLoop buffers l lineNumber column leftLen
    else if v.lfLeft + v.piece.lineFeedCnt + 1 ≥ lineNumber then
      leftLen + v.sizeLeft + (getAccumulatedValue buffers v.piece (lineNumber - v.lfLeft - 2) + column - 1)
    else
      getOffsetAtLoop buffers r (lineNumber - (v.lfLeft + v.piece.lineFeedCnt)) column
        (leftLen + (v.sizeLeft + v.piece.length))

/-- The loop of `getPositionAt`; `none` where the tree is empty. -/
def getPositionAtLoop (T : Tree TreeNode) (buffers : List StringBuffer) (originalOffset : Nat) :
    Tree TreeNode → Int → Int → Option (Int × Int)
  | .nil, _, _ => none
  | .node _ l v r, offset, lfCnt =>
    if v.sizeLeft ≠ 0 ∧ v.sizeLeft ≥ offset then getPositionAtLoop T buffers originalOffset l offset lfCnt
    else if v.sizeLeft + v.piece.length ≥ offset then
      let out := getIndexOf buffers v.piece (offset - v.sizeLeft).toNat
      let lfCnt := lfCnt + (v.lfLeft + out.1)
      if out.1 = 0 then
        let lineStartOffset := getOffsetAtLoop buffers T (lfCnt + 1) 1 0
        some (lfCnt + 1, originalOffset - lineStartOffset + 1)
      else some (lfCnt + 1, out.2 + 1)
    else
      let offset := offset - (v.sizeLeft + v.piece.length)
      let lfCnt := lfCnt + (v.lfLeft + v.piece.lineFeedCnt)
      if r = .nil then
        let lineStartOffset := getOffsetAtLoop buffers T (lfCnt + 1) 1 0
        some (lfCnt + 1, originalOffset - offset - lineStartOffset + 1)
      else getPositionAtLoop T buffers originalOffset r offset lfCnt

/-- The start of a node: the sizes of all that lies to the left on the way up. -/
def offsetOfNode (root : Tree TreeNode) (id : Nat) : Int :=
  match find root id with
  | none => 0
  | some z => z.path.foldl (fun pos frame =>
      match frame with
      | .left _ _ _ => pos
      | .right _ _ v => pos + (v.sizeLeft + v.piece.length)) z.val.sizeLeft

/-- Where the first loop of `nodeAt2` ends. -/
inductive LineSearch where
  | found (pos : NodePosition)
  /-- The node in which the line begins; the column is in a later one. -/
  | behind (node : Nat) (column : Int)
  | missing
  deriving Repr, DecidableEq

def nodeAt2Loop (buffers : List StringBuffer) (column : Int) : Tree TreeNode → Int → Int → LineSearch
  | .nil, _, _ => .missing
  | .node _ l v r, lineNumber, nodeStartOffset =>
    if l ≠ .nil ∧ v.lfLeft ≥ lineNumber - 1 then nodeAt2Loop buffers column l lineNumber nodeStartOffset
    else if v.lfLeft + v.piece.lineFeedCnt > lineNumber - 1 then
      let prevAccumulatedValue := getAccumulatedValue buffers v.piece (lineNumber - v.lfLeft - 2)
      let accumulatedValue := getAccumulatedValue buffers v.piece (lineNumber - v.lfLeft - 1)
      .found ⟨v.id, (min (prevAccumulatedValue + column - 1) accumulatedValue).toNat,
        (nodeStartOffset + v.sizeLeft).toNat⟩
    else if v.lfLeft + v.piece.lineFeedCnt = lineNumber - 1 then
      let prevAccumulatedValue := getAccumulatedValue buffers v.piece (lineNumber - v.lfLeft - 2)
      if prevAccumulatedValue + column - 1 ≤ v.piece.length then
        .found ⟨v.id, (prevAccumulatedValue + column - 1).toNat, nodeStartOffset.toNat⟩
      else .behind v.id (column - (v.piece.length - prevAccumulatedValue))
    else
      nodeAt2Loop buffers column r (lineNumber - (v.lfLeft + v.piece.lineFeedCnt))
        (nodeStartOffset + (v.sizeLeft + v.piece.length))

namespace PieceTreeBase

variable (T : PieceTreeBase)

def getOffsetAt (lineNumber column : Nat) : Int := getOffsetAtLoop T.buffers T.root lineNumber column 0

def getPositionAt (offset : Nat) : Int × Int :=
  (getPositionAtLoop T.root T.buffers offset T.root offset 0).getD (1, 1)

/-- The second loop of `nodeAt2`; `fuel` bounds the number of nodes. -/
def nodeAt2Next : Nat → Option Nat → Int → Option NodePosition
  | 0, _, _ => none
  | _, none, _ => none
  | fuel + 1, some node, column =>
    let piece := T.pieceOf node
    if piece.lineFeedCnt > 0 then
      let accumulatedValue := getAccumulatedValue T.buffers piece 0
      some ⟨node, (min (column - 1) accumulatedValue).toNat, (offsetOfNode T.root node).toNat⟩
    else if piece.length ≥ column - 1 then some ⟨node, (column - 1).toNat, (offsetOfNode T.root node).toNat⟩
    else nodeAt2Next fuel (PieceTree.next T.root node) (column - piece.length)

def nodeAt2 (lineNumber column : Nat) : Option NodePosition :=
  match nodeAt2Loop T.buffers column T.root lineNumber 0 with
  | .found pos => some pos
  | .behind node column => T.nodeAt2Next T.root.toList.length (PieceTree.next T.root node) column
  | .missing => none

/-- The loop of `getValueInRange2` from the second node on. -/
def valueUpTo (endPosition : NodePosition) : Nat → Option Nat → JsString → JsString
  | 0, _, ret => ret
  | _, none, ret => ret
  | fuel + 1, some node, ret =>
    let piece := T.pieceOf node
    let buffer := (T.bufferOf piece).buffer
    let startOffset := offsetInBuffer (T.bufferOf piece) piece.start
    if node = endPosition.node then ret ++ buffer.substring startOffset (startOffset + endPosition.remainder)
    else valueUpTo endPosition fuel (PieceTree.next T.root node)
      (ret ++ buffer.substring startOffset (startOffset + piece.length))

def getValueInRange2 (startPosition endPosition : NodePosition) : JsString :=
  let piece := T.pieceOf startPosition.node
  let buffer := (T.bufferOf piece).buffer
  let startOffset : Nat := offsetInBuffer (T.bufferOf piece) piece.start
  if startPosition.node = endPosition.node then
    substringBetween buffer (startOffset + startPosition.remainder : Nat) (startOffset + endPosition.remainder : Nat)
  else
    let ret := buffer.substring (startOffset + startPosition.remainder) (startOffset + piece.length)
    T.valueUpTo endPosition T.root.toList.length (PieceTree.next T.root startPosition.node) ret

/-- `getValueInRange`; `none` where the source throws, as no node is found. -/
def getValueInRange (range : Range) (eol : Option EndOfLine) : Option JsString :=
  if range.startLineNumber = range.endLineNumber ∧ range.startColumn = range.endColumn then some []
  else
    match T.nodeAt2 range.startLineNumber range.startColumn, T.nodeAt2 range.endLineNumber range.endColumn with
    | some startPosition, some endPosition =>
      let value := T.getValueInRange2 startPosition endPosition
      match eol with
      | none => some value
      | some eol => if eol ≠ T.eol ∨ ¬ T.eolNormalized then some (replaceEol eol.text value) else some value
    | _, _ => none

/-! ## Lines -/

/-- The loop of `getLineRawContent` that looks for the end of the line in later nodes. -/
def restOfLine (endOffset : Nat) : Nat → Option Nat → JsString → JsString
  | 0, _, ret => ret
  | _, none, ret => ret
  | fuel + 1, some node, ret =>
    let piece := T.pieceOf node
    let buffer := (T.bufferOf piece).buffer
    let startOffset := offsetInBuffer (T.bufferOf piece) piece.start
    if piece.lineFeedCnt > 0 then
      ret ++ substringBetween buffer startOffset (startOffset + getAccumulatedValue T.buffers piece 0 - endOffset)
    else restOfLine endOffset fuel (PieceTree.next T.root node)
      (ret ++ buffer.substring startOffset (startOffset + piece.length))

/-- Where the search for the start of a line ends: at a whole line, with a new entry for the cache, or at
its first part. -/
inductive LineStart where
  | whole (value : JsString) (entry : CacheEntry)
  | part (node : Nat) (value : JsString)
  | missing
  deriving Repr, DecidableEq

def lineStartLoop (buffers : List StringBuffer) (originalLineNumber : Int) (endOffset : Nat) :
    Tree TreeNode → Int → Int → LineStart
  | .nil, _, _ => .missing
  | .node _ l v r, lineNumber, nodeStartOffset =>
    let b := bufferAt buffers v.piece.bufferIndex
    let startOffset : Int := offsetInBuffer b v.piece.start
    if l ≠ .nil ∧ v.lfLeft ≥ lineNumber - 1 then
      lineStartLoop buffers originalLineNumber endOffset l lineNumber nodeStartOffset
    else if v.lfLeft + v.piece.lineFeedCnt > lineNumber - 1 then
      let prevAccumulatedValue := getAccumulatedValue buffers v.piece (lineNumber - v.lfLeft - 2)
      let accumulatedValue := getAccumulatedValue buffers v.piece (lineNumber - v.lfLeft - 1)
      .whole (substringBetween b.buffer (startOffset + prevAccumulatedValue) (startOffset + accumulatedValue - endOffset))
        ⟨v.id, (nodeStartOffset + v.sizeLeft).toNat, some (originalLineNumber - (lineNumber - 1 - v.lfLeft)).toNat⟩
    else if v.lfLeft + v.piece.lineFeedCnt = lineNumber - 1 then
      let prevAccumulatedValue := getAccumulatedValue buffers v.piece (lineNumber - v.lfLeft - 2)
      .part v.id (substringBetween b.buffer (startOffset + prevAccumulatedValue) (startOffset + v.piece.length))
    else
      lineStartLoop buffers originalLineNumber endOffset r (lineNumber - (v.lfLeft + v.piece.lineFeedCnt))
        (nodeStartOffset + (v.sizeLeft + v.piece.length))

/-- `_searchCache.get2`; a line number 0 counts as missing. -/
def cacheGet2 (lineNumber : Nat) : Option (Nat × Nat) :=
  match T.searchCache with
  | some ⟨node, _, some nodeStartLineNumber⟩ =>
    if nodeStartLineNumber ≠ 0 ∧ nodeStartLineNumber < lineNumber ∧
        nodeStartLineNumber + (T.pieceOf node).lineFeedCnt ≥ lineNumber then some (node, nodeStartLineNumber) else none
  | _ => none

def getLineRawContent (lineNumber : Nat) (endOffset : Nat) : PieceTreeBase × JsString :=
  let rest := fun node ret => T.restOfLine endOffset T.root.toList.length (PieceTree.next T.root node) ret
  match T.cacheGet2 lineNumber with
  | some (node, nodeStartLineNumber) =>
    let piece := T.pieceOf node
    let b := T.bufferOf piece
    let prevAccumulatedValue := getAccumulatedValue T.buffers piece (lineNumber - nodeStartLineNumber - 1)
    let startOffset : Int := offsetInBuffer b piece.start
    if nodeStartLineNumber + piece.lineFeedCnt = lineNumber then
      (T, rest node (substringBetween b.buffer (startOffset + prevAccumulatedValue) (startOffset + piece.length)))
    else
      let accumulatedValue := getAccumulatedValue T.buffers piece (lineNumber - nodeStartLineNumber)
      (T, substringBetween b.buffer (startOffset + prevAccumulatedValue) (startOffset + accumulatedValue - endOffset))
  | none =>
    match lineStartLoop T.buffers lineNumber endOffset T.root lineNumber 0 with
    | .whole value entry => ({ T with searchCache := some entry }, value)
    | .part node value => (T, rest node value)
    | .missing => (T, [])

/-- `str.replace(/(\r\n|\r|\n)$/, '')` -/
def trimEol (str : JsString) : JsString :=
  if str.getLast? = some lineFeed then
    if str.dropLast.getLast? = some carriageReturn then str.dropLast.dropLast else str.dropLast
  else if str.getLast? = some carriageReturn then str.dropLast
  else str

def getLineContent (lineNumber : Nat) : PieceTreeBase × JsString :=
  if T.lastVisitedLine.1 = lineNumber then (T, T.lastVisitedLine.2)
  else
    let (T', value) :=
      if lineNumber = T.lineCnt then T.getLineRawContent lineNumber 0
      else if T.eolNormalized then T.getLineRawContent lineNumber T.eol.text.length
      else ((T.getLineRawContent lineNumber 0).1, trimEol (T.getLineRawContent lineNumber 0).2)
    ({ T' with lastVisitedLine := (lineNumber, value) }, value)

/-- What `getLinesContent` has collected; the next line takes the place `linesLength`. -/
structure LinesState where
  lines : List JsString := []
  linesLength : Nat := 0
  currentLine : JsString := []
  danglingCR : Bool := false
  deriving Repr, DecidableEq

/-- `lines[linesLength++] = line` -/
def LinesState.push (s : LinesState) (line : JsString) : LinesState :=
  { s with
    lines := s.lines.take s.linesLength ++ line :: s.lines.drop (s.linesLength + 1)
    linesLength := s.linesLength + 1 }

/-- A line of a buffer from `start` on, without its break. -/
def bufferLine (buffer : JsString) (start : Nat) (stop : Int) : JsString :=
  if T.eolNormalized then substringBetween buffer start (stop - T.eol.text.length)
  else trimEol (substringBetween buffer start stop)

/-- The lines of a piece that has breaks, the line before being `s.currentLine`. -/
def linesOfBreaks (s : LinesState) (piece : Piece) (pieceStartOffset : Nat) : LinesState :=
  let buffer := (T.bufferOf piece).buffer
  let lineStarts := (T.bufferOf piece).lineStarts
  let pieceStartLine := piece.start.line
  let pieceEndLine := piece.stop.line
  let firstStop : Int := lineStarts.getD (pieceStartLine + 1) 0
  let first := if T.eolNormalized then
      substringBetween buffer pieceStartOffset (max pieceStartOffset (firstStop - T.eol.text.length))
    else trimEol (substringBetween buffer pieceStartOffset firstStop)
  let s := { s with currentLine := s.currentLine ++ first }
  let s := s.push s.currentLine
  let s := (List.range' (pieceStartLine + 1) (pieceEndLine - (pieceStartLine + 1))).foldl (fun s line =>
    let currentLine := T.bufferLine buffer (lineStarts.getD line 0) (lineStarts.getD (line + 1) 0)
    { s.push currentLine with currentLine }) s
  let lastStart := lineStarts.getD pieceEndLine 0
  if !T.eolNormalized && buffer[lastStart + piece.stop.column - 1]? = some carriageReturn then
    -- a last line that ended with the `\r` is pushed again with the next piece
    if piece.stop.column = 0 then { s with linesLength := s.linesLength - 1, danglingCR := true }
    else { s with currentLine := buffer.substring lastStart (lastStart + (piece.stop.column - 1)), danglingCR := true }
  else { s with currentLine := buffer.substring lastStart (lastStart + piece.stop.column) }

/-- What `getLinesContent` does with a node. -/
def linesOfPiece (s : LinesState) (piece : Piece) : LinesState :=
  if piece.length = 0 then s
  else
    let buffer := (T.bufferOf piece).buffer
    let start := offsetInBuffer (T.bufferOf piece) piece.start
    -- the `\n` counts as part of the piece before
    let skip : Bool := s.danglingCR && buffer[start]? = some lineFeed
    let pieceStartOffset := if skip then start + 1 else start
    let pieceLength := if skip then piece.length - 1 else piece.length
    let s := if s.danglingCR then { s.push s.currentLine with currentLine := [], danglingCR := false } else s
    if pieceLength = 0 then s
    else if piece.start.line = piece.stop.line then
      if !T.eolNormalized && buffer[pieceStartOffset + pieceLength - 1]? = some carriageReturn then
        { s with
          currentLine := s.currentLine ++ buffer.substring pieceStartOffset (pieceStartOffset + (pieceLength - 1))
          danglingCR := true }
      else
        { s with currentLine := s.currentLine ++ buffer.substring pieceStartOffset (pieceStartOffset + pieceLength) }
    else T.linesOfBreaks s piece pieceStartOffset

def getLinesContent : List JsString :=
  let s := T.root.toList.foldl (fun s node => T.linesOfPiece s node.piece) ({} : LinesState)
  let s := if s.danglingCR then { s.push s.currentLine with currentLine := [] } else s
  (s.push s.currentLine).lines

/-- `_getCharCode`; `none` where no unit follows: the source throws at the `SENTINEL`. -/
def charCodeAt (nodePos : NodePosition) : Option UInt16 :=
  let piece := T.pieceOf nodePos.node
  if nodePos.remainder = piece.length then
    match PieceTree.next T.root nodePos.node with
    | none => none
    | some node =>
      let piece := T.pieceOf node
      (T.bufferOf piece).buffer[offsetInBuffer (T.bufferOf piece) piece.start]?
  else (T.bufferOf piece).buffer[offsetInBuffer (T.bufferOf piece) piece.start + nodePos.remainder]?

def getCharCode (offset : Nat) : PieceTreeBase × Option UInt16 :=
  let (T, nodePos) := T.nodeAt offset
  (T, nodePos.bind T.charCodeAt)

def getLineCharCode (lineNumber index : Nat) : Option UInt16 := (T.nodeAt2 lineNumber (index + 1)).bind T.charCodeAt

/-- The callback of `equal`, over the nodes that are left; `none` where it throws.  The search cache of `other` changes. -/
def equalLoop : List TreeNode → Nat → PieceTreeBase → Option (PieceTreeBase × Bool)
  | [], _, other => some (other, true)
  | node :: nodes, offset, other =>
    let str := content T.buffers node.piece
    let (other, startPosition) := other.nodeAt offset
    let (other, endPosition) := other.nodeAt (offset + str.length)
    match startPosition, endPosition with
    | some startPosition, some endPosition =>
      if str = other.getValueInRange2 startPosition endPosition then equalLoop nodes (offset + str.length) other
      else some (other, false)
    | _, _ => none

def equal (other : PieceTreeBase) : Option (PieceTreeBase × Bool) :=
  if T.length ≠ other.length ∨ T.lineCnt ≠ other.lineCnt then some (other, false) else T.equalLoop T.root.toList 0 other

end PieceTreeBase

end TongjiCode.PieceTree
