import TongjiCode.PieceTree.Buffers
import TongjiCode.PieceTree.Nodes

/-!
# Piece tree: insertion and deletion of text

The text is the concatenation of pieces of buffers.  Buffer 0 is the change buffer, to which inserted text
is appended; the other ones are never changed.  Where pieces meet, no `\r` may stand in front of a `\n`, or
the break would be counted twice: every operation moves such pairs into one piece.

A state holds the tree, the buffers and the search cache (at most one entry).  A node that has left the
tree is not found any more; the source sees this by its parent being null.
-/

namespace TongjiCode.PieceTree

open JsString

/-! ## State -/

inductive EndOfLine where
  | lf
  | crlf
  deriving Repr, DecidableEq

def EndOfLine.text : EndOfLine → JsString
  | .lf => [lineFeed]
  | .crlf => [carriageReturn, lineFeed]

structure CacheEntry where
  node : Nat
  nodeStartOffset : Nat
  nodeStartLineNumber : Option Nat := none
  deriving Repr, DecidableEq

structure PieceTreeBase where
  root : Tree TreeNode := .nil
  buffers : List StringBuffer := [⟨[], [0]⟩]
  lineCnt : Nat := 1
  length : Nat := 0
  eol : EndOfLine
  eolNormalized : Bool
  lastChangeBufferPos : BufferCursor := ⟨0, 0⟩
  searchCache : Option CacheEntry := none
  lastVisitedLine : Nat × JsString := (0, [])
  nextId : Nat := 0
  deriving Repr, DecidableEq

def averageBufferSize : Nat := 65535

def bufferAt (buffers : List StringBuffer) (i : Nat) : StringBuffer := buffers.getD i ⟨[], [0]⟩

def emptyPiece : Piece := ⟨0, ⟨0, 0⟩, ⟨0, 0⟩, 0, 0⟩

def content (buffers : List StringBuffer) (p : Piece) : JsString :=
  let b := bufferAt buffers p.bufferIndex
  b.buffer.substring (offsetInBuffer b p.start) (offsetInBuffer b p.stop)

/-- What `iterate` collects with `getNodeContent`; it visits the `SENTINEL`s too. -/
def nodeContents (buffers : List StringBuffer) : Tree TreeNode → List JsString
  | .nil => [[]]
  | .node _ l v r => nodeContents buffers l ++ content buffers v.piece :: nodeContents buffers r

namespace PieceTreeBase

variable (T : PieceTreeBase)

def bufferOf (p : Piece) : StringBuffer := bufferAt T.buffers p.bufferIndex

def pieceOf (node : Nat) : Piece := (PieceTree.pieceOf T.root node).getD emptyPiece

def getLinesRawContent : JsString := (nodeContents T.buffers T.root).flatten

/-! ## The search cache -/

/-- `_searchCache.validate` -/
def validate (offset : Nat) : PieceTreeBase :=
  match T.searchCache with
  | none => T
  | some entry =>
    if find T.root entry.node = none ∨ entry.nodeStartOffset ≥ offset then { T with searchCache := none } else T

def cacheGet (offset : Nat) : Option CacheEntry :=
  T.searchCache.filter fun entry =>
    entry.nodeStartOffset ≤ offset && entry.nodeStartOffset + (T.pieceOf entry.node).length ≥ offset

def nodeAt (offset : Nat) : PieceTreeBase × Option NodePosition :=
  match T.cacheGet offset with
  | some entry => (T, some ⟨entry.node, offset - entry.nodeStartOffset, entry.nodeStartOffset⟩)
  | none =>
    match nodeAtLoop T.root offset 0 with
    | some pos => ({ T with searchCache := some ⟨pos.node, pos.nodeStartOffset, none⟩ }, some pos)
    | none => (T, none)

def computeBufferMetadata : PieceTreeBase :=
  { T with lineCnt := (1 + calculateLF T.root).toNat, length := (calculateSize T.root).toNat }.validate
    (calculateSize T.root).toNat

/-! ## `\r` and `\n` at the ends of pieces -/

def shouldCheckCRLF : Bool := !(T.eolNormalized && T.eol = .lf)

def nodeCharCodeAt (p : Piece) (offset : Nat) : Option UInt16 :=
  if p.lineFeedCnt < 1 then none
  else (T.bufferOf p).buffer[offsetInBuffer (T.bufferOf p) p.start + offset]?

/-- `startWithLF` for a node; the `SENTINEL` is `none`. -/
def startWithLF (node : Option Nat) : Bool :=
  match node with
  | none => false
  | some node =>
    let p := T.pieceOf node
    if p.lineFeedCnt = 0 then false
    else
      let lineStarts := (T.bufferOf p).lineStarts
      let line := p.start.line
      let startOffset := lineStarts.getD line 0 + p.start.column
      if line = lineStarts.length - 1 then false
      else if lineStarts.getD (line + 1) 0 > startOffset + 1 then false
      else (T.bufferOf p).buffer[startOffset]? = some lineFeed

def endWithCR (node : Option Nat) : Bool :=
  match node with
  | none => false
  | some node =>
    let p := T.pieceOf node
    if p.lineFeedCnt = 0 then false else T.nodeCharCodeAt p (p.length - 1) = some carriageReturn

/-! ## Changes of nodes -/

/-- `rbInsertRight`, which returns the new node. -/
def rbInsertRight (node : Option Nat) (p : Piece) : PieceTreeBase × Nat :=
  ({ T with root := insertRight T.root node { id := T.nextId, piece := p }, nextId := T.nextId + 1 }, T.nextId)

def rbInsertLeft (node : Option Nat) (p : Piece) : PieceTreeBase × Nat :=
  ({ T with root := insertLeft T.root node { id := T.nextId, piece := p }, nextId := T.nextId + 1 }, T.nextId)

def rbDelete (node : Nat) : PieceTreeBase := { T with root := deleteNode T.root node }

def deleteNodes (nodes : List Nat) : PieceTreeBase := { T with root := PieceTree.deleteNodes T.root nodes }

/-- A new piece of a node, with the change of its size and line feeds. -/
def replacePiece (node : Nat) (p : Piece) (sizeDelta lfDelta : Int) : PieceTreeBase :=
  { T with root := changePiece T.root node p (sizeDelta, lfDelta) }

def deleteNodeTail (node : Nat) (pos : BufferCursor) : PieceTreeBase :=
  let piece := T.pieceOf node
  let b := T.bufferOf piece
  let originalEndOffset := offsetInBuffer b piece.stop
  let newEndOffset := offsetInBuffer b pos
  let newLineFeedCnt := getLineFeedCnt b piece.start pos
  let lfDelta : Int := newLineFeedCnt - piece.lineFeedCnt
  let sizeDelta : Int := newEndOffset - originalEndOffset
  let newLength := (piece.length + sizeDelta).toNat
  T.replacePiece node { piece with stop := pos, lineFeedCnt := newLineFeedCnt, length := newLength } sizeDelta lfDelta

def deleteNodeHead (node : Nat) (pos : BufferCursor) : PieceTreeBase :=
  let piece := T.pieceOf node
  let b := T.bufferOf piece
  let originalStartOffset := offsetInBuffer b piece.start
  let newLineFeedCnt := getLineFeedCnt b pos piece.stop
  let newStartOffset := offsetInBuffer b pos
  let lfDelta : Int := newLineFeedCnt - piece.lineFeedCnt
  let sizeDelta : Int := originalStartOffset - newStartOffset
  let newLength := (piece.length + sizeDelta).toNat
  T.replacePiece node { piece with start := pos, lineFeedCnt := newLineFeedCnt, length := newLength } sizeDelta lfDelta

/-- The piece without its final `\r`. -/
def dropCR (piece : Piece) : Piece :=
  let lineStarts := (T.bufferOf piece).lineStarts
  let newEnd : BufferCursor :=
    if piece.stop.column = 0 then
      -- the last line ends with `\r`, not `\r\n`
      ⟨piece.stop.line - 1, lineStarts.getD piece.stop.line 0 - lineStarts.getD (piece.stop.line - 1) 0 - 1⟩
    else ⟨piece.stop.line, piece.stop.column - 1⟩
  { piece with stop := newEnd, lineFeedCnt := piece.lineFeedCnt - 1, length := piece.length - 1 }

/-- The piece without its leading `\n`. -/
def dropLF (piece : Piece) : Piece :=
  let newStart : BufferCursor := ⟨piece.start.line + 1, 0⟩
  { piece with
    start := newStart
    lineFeedCnt := getLineFeedCnt (T.bufferOf piece) newStart piece.stop
    length := piece.length - 1 }

/-! ## New pieces -/

def wholePiece (bufferIndex : Nat) (text : JsString) : Piece :=
  let lineStarts := createLineStartsFast text
  ⟨bufferIndex, ⟨0, 0⟩, ⟨lineStarts.length - 1, text.length - lineStarts.getD (lineStarts.length - 1) 0⟩,
    lineStarts.length - 1, text.length⟩

/-- The length of the next chunk of a large text: a final `\r` or high surrogate is kept back. -/
def splitLength (text : JsString) : Nat :=
  let lastChar := text.getD (averageBufferSize - 1) 0
  if lastChar = carriageReturn ∨ (0xD800 ≤ lastChar ∧ lastChar ≤ 0xDBFF) then averageBufferSize - 1
  else averageBufferSize

theorem splitLength_pos (text : JsString) : 0 < splitLength text ∧ splitLength text ≤ averageBufferSize := by
  unfold splitLength averageBufferSize
  dsimp only
  split <;> omega

/-- The chunks a large text is split into. -/
def splitText (text : JsString) : List JsString :=
  if text.length > averageBufferSize then
    text.take (splitLength text) :: splitText (text.drop (splitLength text))
  else [text]
termination_by text.length
decreasing_by
  have := splitLength_pos text
  rw [List.length_drop]
  omega

def createLargePieces (text : JsString) : PieceTreeBase × List Piece :=
  let chunks := splitText text
  ({ T with buffers := T.buffers ++ chunks.map fun chunk => ⟨chunk, createLineStartsFast chunk⟩ },
    chunks.zipIdx.map fun chunk => wholePiece (T.buffers.length + chunk.2) chunk.1)

def appendToBuffer (text : JsString) (lineStarts : List Nat) : List StringBuffer :=
  let b := bufferAt T.buffers 0
  T.buffers.set 0 ⟨b.buffer ++ text, b.lineStarts ++ lineStarts⟩

def createNewPieces (text : JsString) : PieceTreeBase × List Piece :=
  if text.length > averageBufferSize then T.createLargePieces text
  else
    let b := bufferAt T.buffers 0
    let startOffset := b.buffer.length
    let lineStarts := (createLineStartsFast text).drop 1
    -- a `\n` must not come behind the last `\r` of the buffer, so `_` goes between them
    let separate : Bool := b.lineStarts.getD (b.lineStarts.length - 1) 0 = startOffset && startOffset ≠ 0 &&
      text.head? = some lineFeed && b.buffer.getLast? = some carriageReturn
    let start : BufferCursor := if separate then { T.lastChangeBufferPos with column := T.lastChangeBufferPos.column + 1 }
      else T.lastChangeBufferPos
    let startOffset' := if separate then startOffset + 1 else startOffset
    let buffers := if separate then T.appendToBuffer (0x5F :: text) (lineStarts.map (· + (startOffset + 1)))
      else T.appendToBuffer text (lineStarts.map (· + startOffset))
    let b' := bufferAt buffers 0
    let endOffset := b'.buffer.length
    let endIndex := b'.lineStarts.length - 1
    let endPos : BufferCursor := ⟨endIndex, endOffset - b'.lineStarts.getD endIndex 0⟩
    ({ T with buffers, lastChangeBufferPos := endPos },
      [⟨0, start, endPos, getLineFeedCnt b' start endPos, endOffset - startOffset'⟩])

/-- A loop of `rbInsertRight`, each node behind the one before; the last new node is returned. -/
def insertPiecesRight (T : PieceTreeBase) (node : Option Nat) : List Piece → PieceTreeBase × Option Nat
  | [] => (T, node)
  | p :: pieces =>
    let (T, newNode) := T.rbInsertRight node p
    insertPiecesRight T (some newNode) pieces

/-- A loop of `rbInsertLeft`, over the pieces from the last to the first. -/
def insertPiecesLeft (T : PieceTreeBase) (node : Option Nat) : List Piece → PieceTreeBase × Option Nat
  | [] => (T, node)
  | p :: pieces =>
    let (T, newNode) := T.rbInsertLeft node p
    insertPiecesLeft T (some newNode) pieces

/-! ## Repair of `\r` and `\n` -/

def fixCRLF (prev next : Nat) : PieceTreeBase :=
  let prevPiece := T.dropCR (T.pieceOf prev)
  let T := T.replacePiece prev prevPiece (-1) (-1)
  let nextPiece := T.dropLF (T.pieceOf next)
  let T := T.replacePiece next nextPiece (-1) (-1)
  let (T, pieces) := T.createNewPieces [carriageReturn, lineFeed]
  let (T, _) := T.insertPiecesRight (some prev) (pieces.take 1)
  let T := if prevPiece.length = 0 then T.rbDelete prev else T
  if nextPiece.length = 0 then T.rbDelete next else T

def validateCRLFWithPrevNode (nextNode : Option Nat) : PieceTreeBase :=
  match nextNode with
  | none => T
  | some next =>
    if T.shouldCheckCRLF && T.startWithLF (some next) then
      match PieceTree.prev T.root next with
      | none => T
      | some prev => if T.endWithCR (some prev) then T.fixCRLF prev next else T
    else T

def validateCRLFWithNextNode (node : Option Nat) : PieceTreeBase :=
  match node with
  | none => T
  | some prev =>
    if T.shouldCheckCRLF && T.endWithCR (some prev) then
      match PieceTree.next T.root prev with
      | none => T
      | some next => if T.startWithLF (some next) then T.fixCRLF prev next else T
    else T

/-- Take a `\n` from the next node, for a value that ends with `\r`. -/
def adjustCarriageReturnFromNext (value : JsString) (node : Nat) : PieceTreeBase × Bool :=
  if T.shouldCheckCRLF && value.getLast? = some carriageReturn then
    match PieceTree.next T.root node with
    | none => (T, false)
    | some nextNode =>
      if T.startWithLF (some nextNode) then
        let piece := T.pieceOf nextNode
        if piece.length = 1 then (T.rbDelete nextNode, true)
        else (T.replacePiece nextNode (T.dropLF piece) (-1) (-1), true)
      else (T, false)
  else (T, false)

/-! ## Insertion -/

def insertContentToNodeLeft (value : JsString) (node : Nat) : PieceTreeBase :=
  let moveLF : Bool := T.shouldCheckCRLF && value.getLast? = some carriageReturn && T.startWithLF (some node)
  let piece := T.dropLF (T.pieceOf node)
  let T := if moveLF then T.replacePiece node piece (-1) (-1) else T
  let value := if moveLF then value ++ [lineFeed] else value
  let (T, newPieces) := T.createNewPieces value
  let (T, newNode) := T.insertPiecesLeft (some node) newPieces.reverse
  let T := T.validateCRLFWithPrevNode newNode
  if moveLF ∧ piece.length = 0 then T.rbDelete node else T

def insertContentToNodeRight (value : JsString) (node : Nat) : PieceTreeBase :=
  let (T, moved) := T.adjustCarriageReturnFromNext value node
  let value := if moved then value ++ [lineFeed] else value
  let (T, newPieces) := T.createNewPieces value
  let newNode := T.nextId
  let (T, _) := T.insertPiecesRight (some node) newPieces
  T.validateCRLFWithPrevNode (some newNode)

/-- The branch of `insert` for a position inside a node. -/
def insertContentIntoNode (value : JsString) (node remainder : Nat) : PieceTreeBase :=
  let piece := T.pieceOf node
  let b := T.bufferOf piece
  let insertPosInBuffer := positionInBuffer b piece remainder
  let newRightPiece : Piece := { piece with
    start := insertPosInBuffer
    lineFeedCnt := getLineFeedCnt b insertPosInBuffer piece.stop
    length := offsetInBuffer b piece.stop - offsetInBuffer b insertPosInBuffer }
  let moveLF : Bool := T.shouldCheckCRLF && value.getLast? = some carriageReturn &&
    T.nodeCharCodeAt piece remainder = some lineFeed
  let newRightPiece := if moveLF then T.dropLF newRightPiece else newRightPiece
  let value := if moveLF then value ++ [lineFeed] else value
  -- the node is used again for the content before the insertion point
  let moveCR : Bool := T.shouldCheckCRLF && value.head? = some lineFeed &&
    T.nodeCharCodeAt piece (remainder - 1) = some carriageReturn
  let T := if moveCR then T.deleteNodeTail node (positionInBuffer b piece (remainder - 1))
    else T.deleteNodeTail node insertPosInBuffer
  let value := if moveCR then carriageReturn :: value else value
  let empty : Bool := moveCR && (T.pieceOf node).length = 0
  let (T, newPieces) := T.createNewPieces value
  let (T, _) := if newRightPiece.length > 0 then T.insertPiecesRight (some node) [newRightPiece] else (T, none)
  let (T, _) := T.insertPiecesRight (some node) newPieces
  if empty then T.rbDelete node else T

def appendToNode (node : Nat) (value : JsString) : PieceTreeBase :=
  let (T, moved) := T.adjustCarriageReturnFromNext value node
  let value := if moved then value ++ [lineFeed] else value
  let hitCRLF : Bool := T.shouldCheckCRLF && value.head? = some lineFeed && T.endWithCR (some node)
  let b := bufferAt T.buffers 0
  let startOffset := b.buffer.length
  let lineStarts := ((createLineStartsFast value).map (· + startOffset)).drop 1
  let b' : StringBuffer := ⟨b.buffer ++ value, (if hitCRLF then b.lineStarts.dropLast else b.lineStarts) ++ lineStarts⟩
  let endIndex := b'.lineStarts.length - 1
  let newEnd : BufferCursor := ⟨endIndex, b'.buffer.length - b'.lineStarts.getD endIndex 0⟩
  let piece := T.pieceOf node
  let newLineFeedCnt := getLineFeedCnt b' piece.start newEnd
  let newPiece := { piece with stop := newEnd, lineFeedCnt := newLineFeedCnt, length := piece.length + value.length }
  let T := { T with buffers := T.buffers.set 0 b', lastChangeBufferPos := newEnd }
  T.replacePiece node newPiece value.length (newLineFeedCnt - piece.lineFeedCnt)

/-- `insert`; `none` where the source throws, as no node is found. -/
def insert (offset : Nat) (value : JsString) (eolNormalized : Bool) : Option PieceTreeBase :=
  let T := { T with eolNormalized := T.eolNormalized && eolNormalized, lastVisitedLine := (0, []) }
  if T.root ≠ .nil then
    match T.nodeAt offset with
    | (_, none) => none
    | (T, some ⟨node, remainder, nodeStartOffset⟩) =>
      let piece := T.pieceOf node
      if piece.bufferIndex = 0 ∧ piece.stop = T.lastChangeBufferPos ∧ nodeStartOffset + piece.length = offset ∧
          value.length < averageBufferSize then
        some (T.appendToNode node value).computeBufferMetadata
      else if nodeStartOffset = offset then
        some ((T.insertContentToNodeLeft value node).validate offset).computeBufferMetadata
      else if nodeStartOffset + piece.length > offset then
        some (T.insertContentIntoNode value node remainder).computeBufferMetadata
      else some (T.insertContentToNodeRight value node).computeBufferMetadata
  else
    let (T, pieces) := T.createNewPieces value
    let (T, node) := T.insertPiecesLeft none (pieces.take 1)
    some (T.insertPiecesRight node (pieces.drop 1)).1.computeBufferMetadata

/-! ## Deletion -/

def shrinkNode (node : Nat) (start stop : BufferCursor) : PieceTreeBase :=
  let piece := T.pieceOf node
  let b := T.bufferOf piece
  let newLineFeedCnt := getLineFeedCnt b piece.start start
  let newLength := offsetInBuffer b start - offsetInBuffer b piece.start
  let T := T.replacePiece node { piece with stop := start, lineFeedCnt := newLineFeedCnt, length := newLength }
    (newLength - piece.length) (newLineFeedCnt - piece.lineFeedCnt)
  let newPiece : Piece := { piece with
    start := stop
    lineFeedCnt := getLineFeedCnt b stop piece.stop
    length := offsetInBuffer b piece.stop - offsetInBuffer b stop }
  let (T, newNode) := T.rbInsertRight (some node) newPiece
  T.validateCRLFWithPrevNode (some newNode)

/-- The nodes from one up to another, in order; `fuel` bounds the number of nodes. -/
def nodesUpTo (root : Tree TreeNode) (endNode : Nat) : Nat → Option Nat → List Nat
  | 0, _ => []
  | _, none => []
  | fuel + 1, some node => if node = endNode then [] else node :: nodesUpTo root endNode fuel (PieceTree.next root node)

/-- The branch of `delete` for a range that ends in another node. -/
def deleteAcrossNodes (offset : Nat) (startNode endNode : Nat) (startRemainder endRemainder : Nat) : PieceTreeBase :=
  let startPiece := T.pieceOf startNode
  let T := T.deleteNodeTail startNode (positionInBuffer (T.bufferOf startPiece) startPiece startRemainder)
  let T := T.validate offset
  let startEmpty : Bool := (T.pieceOf startNode).length = 0
  let endPiece := T.pieceOf endNode
  let T := T.deleteNodeHead endNode (positionInBuffer (T.bufferOf endPiece) endPiece endRemainder)
  let endEmpty : Bool := (T.pieceOf endNode).length = 0
  let between := nodesUpTo T.root endNode T.root.toList.length (PieceTree.next T.root startNode)
  let nodesToDel := (if startEmpty then [startNode] else []) ++ (if endEmpty then [endNode] else []) ++ between
  let prev := if startEmpty then PieceTree.prev T.root startNode else some startNode
  (T.deleteNodes nodesToDel).validateCRLFWithNextNode prev

/-- `delete`; `none` where the source throws, as no node is found. -/
def delete (offset cnt : Nat) : Option PieceTreeBase :=
  let T := { T with lastVisitedLine := (0, []) }
  if cnt = 0 ∨ T.root = .nil then some T
  else
    match T.nodeAt offset with
    | (_, none) => none
    | (T, some startPosition) =>
      match T.nodeAt (offset + cnt) with
      | (_, none) => none
      | (T, some endPosition) =>
        let startNode := startPosition.node
        let piece := T.pieceOf startNode
        let b := T.bufferOf piece
        if startNode = endPosition.node then
          let startSplitPosInBuffer := positionInBuffer b piece startPosition.remainder
          let endSplitPosInBuffer := positionInBuffer b piece endPosition.remainder
          if startPosition.nodeStartOffset = offset then
            if cnt = piece.length then
              let next := PieceTree.next T.root startNode
              some ((T.rbDelete startNode).validateCRLFWithPrevNode next).computeBufferMetadata
            else
              let T := (T.deleteNodeHead startNode endSplitPosInBuffer).validate offset
              some (T.validateCRLFWithPrevNode (some startNode)).computeBufferMetadata
          else if startPosition.nodeStartOffset + piece.length = offset + cnt then
            let T := T.deleteNodeTail startNode startSplitPosInBuffer
            some (T.validateCRLFWithNextNode (some startNode)).computeBufferMetadata
          else some (T.shrinkNode startNode startSplitPosInBuffer endSplitPosInBuffer).computeBufferMetadata
        else
          some (T.deleteAcrossNodes offset startNode endPosition.node startPosition.remainder
            endPosition.remainder).computeBufferMetadata

/-! ## Creation -/

/-- The pieces of the chunks of an initial text; an empty chunk has none. -/
def chunkPieces (chunks : List StringBuffer) : List Piece :=
  (chunks.zipIdx.filter fun chunk => 0 < chunk.1.buffer.length).map fun chunk =>
    let lineStarts := chunk.1.lineStarts
    ⟨chunk.2 + 1, ⟨0, 0⟩, ⟨lineStarts.length - 1, chunk.1.buffer.length - lineStarts.getD (lineStarts.length - 1) 0⟩,
      lineStarts.length - 1, chunk.1.buffer.length⟩

def create (chunks : List StringBuffer) (eol : EndOfLine) (eolNormalized : Bool) : PieceTreeBase :=
  let buffers := ⟨[], [0]⟩ :: chunks.filter fun chunk => 0 < chunk.buffer.length
  let T : PieceTreeBase := { eol, eolNormalized, buffers }
  (T.insertPiecesRight none (chunkPieces chunks)).1.computeBufferMetadata

/-- The loop of `normalizeEOL` over the contents of the nodes. -/
def normalizeChunks (eol : JsString) (tempChunk : JsString) : List JsString → List JsString
  | [] => if tempChunk.length > 0 then [replaceEol eol tempChunk] else []
  | str :: rest =>
    let min := averageBufferSize - averageBufferSize / 3
    let max := min * 2
    if tempChunk.length ≤ min ∨ tempChunk.length + str.length < max then normalizeChunks eol (tempChunk ++ str) rest
    else replaceEol eol tempChunk :: normalizeChunks eol str rest

def normalizeEOL (eol : EndOfLine) : PieceTreeBase :=
  let chunks := normalizeChunks eol.text [] (nodeContents T.buffers T.root)
  create (chunks.map fun text => ⟨text, createLineStartsFast text⟩) eol true

def setEOL (newEOL : EndOfLine) : PieceTreeBase := T.normalizeEOL newEOL

end PieceTreeBase

end TongjiCode.PieceTree
