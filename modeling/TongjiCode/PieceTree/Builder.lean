import TongjiCode.PieceTree.TextBuffer

/-!
# Loading a text from chunks

The builder keeps back a final `\r` or high surrogate of a chunk until the next chunk comes.  Such a unit is
lost when the next chunk is again nothing but such a unit, and doubled when it is the whole text; and as long
as no chunk is stored, every chunk may lose a byte order mark, not only the first one.  Apart from these
cases the loaded text does not depend on the chunks (`loads_iff`).
-/

namespace TongjiCode.PieceTree

open JsString

/-! ## Line starts with counts -/

structure LineStarts where
  lineStarts : List Nat
  cr : Nat := 0
  lf : Nat := 0
  crlf : Nat := 0
  isBasicASCII : Bool := true
  deriving Repr, DecidableEq

/-- The loop of `createLineStarts`, from the index `i` on. -/
def countLineStarts (i : Nat) : JsString → LineStarts
  | [] => { lineStarts := [] }
  | [c] =>
    if c = carriageReturn then { lineStarts := [i + 1], cr := 1 }
    else if c = lineFeed then { lineStarts := [i + 1], lf := 1 }
    else { lineStarts := [], isBasicASCII := c = 9 || (32 ≤ c && c ≤ 126) }
  | c :: d :: t =>
    if c = carriageReturn ∧ d = lineFeed then
      let rest := countLineStarts (i + 2) t
      { rest with lineStarts := (i + 2) :: rest.lineStarts, crlf := rest.crlf + 1 }
    else if c = carriageReturn then
      let rest := countLineStarts (i + 1) (d :: t)
      { rest with lineStarts := (i + 1) :: rest.lineStarts, cr := rest.cr + 1 }
    else if c = lineFeed then
      let rest := countLineStarts (i + 1) (d :: t)
      { rest with lineStarts := (i + 1) :: rest.lineStarts, lf := rest.lf + 1 }
    else
      let rest := countLineStarts (i + 1) (d :: t)
      { rest with isBasicASCII := (c = 9 || (32 ≤ c && c ≤ 126)) && rest.isBasicASCII }

def createLineStarts (str : JsString) : LineStarts :=
  let rest := countLineStarts 0 str
  { rest with lineStarts := 0 :: rest.lineStarts }

/-! ## The factory -/

structure PieceTreeTextBufferFactory where
  chunks : List StringBuffer
  bom : JsString
  cr : Nat
  lf : Nat
  crlf : Nat
  containsRTL : Bool
  containsUnusualLineTerminators : Bool
  isBasicASCII : Bool
  normalizeEOL : Bool
  deriving Repr, DecidableEq

/-- The line break of a text with these counts; `\r` counts for `\r\n`. -/
def getEOL (defaultEOL : EndOfLine) (cr lf crlf : Nat) : EndOfLine :=
  let totalEOLCount := cr + lf + crlf
  let totalCRCount := cr + crlf
  if totalEOLCount = 0 then defaultEOL
  else if totalCRCount * 2 > totalEOLCount then .crlf
  else .lf

def PieceTreeTextBufferFactory.create (factory : PieceTreeTextBufferFactory) (defaultEOL : EndOfLine) :
    PieceTreeTextBuffer :=
  let eol := getEOL defaultEOL factory.cr factory.lf factory.crlf
  let mixed : Bool := (eol = .crlf && (factory.cr > 0 || factory.lf > 0)) || (eol = .lf && (factory.cr > 0 || factory.crlf > 0))
  let chunks := if factory.normalizeEOL && mixed then
      factory.chunks.map fun chunk => ⟨replaceEol eol.text chunk.buffer, createLineStartsFast (replaceEol eol.text chunk.buffer)⟩
    else factory.chunks
  { pieceTree := PieceTreeBase.create chunks eol factory.normalizeEOL
    bom := factory.bom
    mightContainRTL := factory.containsRTL
    mightContainUnusualLineTerminators := factory.containsUnusualLineTerminators
    mightContainNonBasicASCII := !factory.isBasicASCII }

/-! ## The builder -/

structure PieceTreeTextBufferBuilder where
  chunks : List StringBuffer := []
  bom : JsString := []
  hasPreviousChar : Bool := false
  previousChar : UInt16 := 0
  cr : Nat := 0
  lf : Nat := 0
  crlf : Nat := 0
  containsRTL : Bool := false
  containsUnusualLineTerminators : Bool := false
  isBasicASCII : Bool := true
  deriving Repr, DecidableEq

/-- A unit that may belong to the first one of the next chunk. -/
def keptBack (c : UInt16) : Bool := c = carriageReturn || (0xD800 ≤ c && c ≤ 0xDBFF)

namespace PieceTreeTextBufferBuilder

variable (b : PieceTreeTextBufferBuilder)

def acceptChunk2 (chunk : JsString) : PieceTreeTextBufferBuilder :=
  let lineStarts := createLineStarts chunk
  { b with
    chunks := b.chunks ++ [⟨chunk, lineStarts.lineStarts⟩]
    cr := b.cr + lineStarts.cr
    lf := b.lf + lineStarts.lf
    crlf := b.crlf + lineStarts.crlf
    isBasicASCII := b.isBasicASCII && lineStarts.isBasicASCII
    containsRTL := b.containsRTL || (!lineStarts.isBasicASCII && JsString.containsRTL chunk)
    containsUnusualLineTerminators :=
      b.containsUnusualLineTerminators || (!lineStarts.isBasicASCII && JsString.containsUnusualLineTerminators chunk) }

def acceptChunk1 (chunk : JsString) (allowEmptyStrings : Bool) : PieceTreeTextBufferBuilder :=
  if allowEmptyStrings = false ∧ chunk = [] then b
  else if b.hasPreviousChar then b.acceptChunk2 (b.previousChar :: chunk)
  else b.acceptChunk2 chunk

/-- The part of `acceptChunk` behind the byte order mark.  Of an empty rest the last unit is `NaN`, which is
not kept back. -/
def acceptRest (chunk : JsString) : PieceTreeTextBufferBuilder :=
  match chunk.getLast? with
  | none => { b.acceptChunk1 chunk false with hasPreviousChar := false, previousChar := 0 }
  | some lastChar =>
    if keptBack lastChar then
      { b.acceptChunk1 chunk.dropLast false with hasPreviousChar := true, previousChar := lastChar }
    else { b.acceptChunk1 chunk false with hasPreviousChar := false, previousChar := lastChar }

def acceptChunk (chunk : JsString) : PieceTreeTextBufferBuilder :=
  if chunk = [] then b
  else if b.chunks = [] ∧ startsWithUTF8BOM chunk then { b with bom := [utf8Bom] }.acceptRest (chunk.drop 1)
  else b.acceptRest chunk

/-- The second half of `_finish`: the last chunk gets the unit that is kept back. -/
def finishLast : PieceTreeTextBufferBuilder :=
  if b.hasPreviousChar then
    match b.chunks.getLast? with
    | none => b
    | some lastChunk =>
      let text := lastChunk.buffer ++ [b.previousChar]
      { b with
        hasPreviousChar := false
        chunks := b.chunks.dropLast ++ [⟨text, createLineStartsFast text⟩]
        cr := if b.previousChar = carriageReturn then b.cr + 1 else b.cr }
  else b

def finishChunks : PieceTreeTextBufferBuilder := (if b.chunks = [] then b.acceptChunk1 [] true else b).finishLast

def finish (normalizeEOL : Bool) : PieceTreeTextBufferFactory :=
  let b := b.finishChunks
  ⟨b.chunks, b.bom, b.cr, b.lf, b.crlf, b.containsRTL, b.containsUnusualLineTerminators, b.isBasicASCII, normalizeEOL⟩

end PieceTreeTextBufferBuilder

/-- All chunks are fed to a new builder. -/
def load (chunks : List JsString) (normalizeEOL : Bool) (defaultEOL : EndOfLine) : PieceTreeTextBuffer :=
  ((chunks.foldl PieceTreeTextBufferBuilder.acceptChunk {}).finish normalizeEOL).create defaultEOL

end TongjiCode.PieceTree
