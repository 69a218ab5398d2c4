import TongjiCode.Base.LineBreaks

/-!
# Sparse tokens over lines

The classes `SparseMultilineTokens` and `SparseMultilineTokensStorage` of `sparseMultilineTokens.ts`: the semantic tokens
of a few lines, with their lines relative to a start line, and how they change with edits of the text.

The tokens of a storage are a list, its first `_tokenCount` entries.  The numbers in it are never negative.
-/

namespace TongjiCode.Tokens

/-- `IRange`. -/
structure Range where
  startLineNumber : Int
  startColumn : Int
  endLineNumber : Int
  endColumn : Int
deriving DecidableEq, Repr

/-- What `acceptEdit` gets to know of the text that is inserted. -/
structure Inserted where
  eolCount : Int
  firstLineLength : Int
  lastLineLength : Int
  firstCharCode : Nat
deriving DecidableEq, Repr

structure Token where
  deltaLine : Int
  startCharacter : Int
  endCharacter : Int
  metadata : Nat
deriving DecidableEq, Repr

/-! ## `countEOL` -/

/-- The loop of `countEOL` from the index `i` on.  The second and third number are `firstLineLength` and
`lastLineStart`. -/
def countEolLoop (i : Nat) (eolCount firstLineLength lastLineStart : Nat) : JsString → Nat × Nat × Nat
  | [] => (eolCount, firstLineLength, lastLineStart)
  | [c] =>
    if c = JsString.carriageReturn ∨ c = JsString.lineFeed then
      (eolCount + 1, if eolCount = 0 then i else firstLineLength, i + 1)
    else (eolCount, firstLineLength, lastLineStart)
  | c :: d :: t =>
    if c = JsString.carriageReturn ∧ d = JsString.lineFeed then
      countEolLoop (i + 2) (eolCount + 1) (if eolCount = 0 then i else firstLineLength) (i + 2) t
    else if c = JsString.carriageReturn ∨ c = JsString.lineFeed then
      countEolLoop (i + 1) (eolCount + 1) (if eolCount = 0 then i else firstLineLength) (i + 1) (d :: t)
    else countEolLoop (i + 1) eolCount firstLineLength lastLineStart (d :: t)

def countEOL (text : JsString) : Nat × Nat × Nat :=
  let (eolCount, firstLineLength, lastLineStart) := countEolLoop 0 0 0 0 text
  (eolCount, if eolCount = 0 then text.length else firstLineLength, text.length - lastLineStart)

def Inserted.ofText (text : JsString) : Inserted :=
  let (eolCount, firstLineLength, lastLineLength) := countEOL text
  { eolCount, firstLineLength, lastLineLength, firstCharCode := (text.head?.map UInt16.toNat).getD 0 }

/-! ## `SparseMultilineTokensStorage` -/

namespace Storage

def getMaxDeltaLine (tokens : List Token) : Int :=
  match tokens.getLast? with
  | none => -1
  | some token => token.deltaLine

def getRange (tokens : List Token) : Option Range :=
  match tokens.head?, tokens.getLast? with
  | some first, some last =>
    some
      { startLineNumber := 0
        startColumn := first.startCharacter + 1
        endLineNumber := last.deltaLine
        endColumn := last.endCharacter + 1 }
  | _, _ => none

/-- `_getDeltaLine(i) === deltaLine`. -/
def isOnLine (tokens : List Token) (deltaLine : Int) (i : Nat) : Bool :=
  (tokens[i]?.map Token.deltaLine) == some deltaLine

/-- The first token of the line, from `min` down. -/
def lineStart (tokens : List Token) (deltaLine : Int) (low : Nat) : Nat → Nat
  | 0 => 0
  | min + 1 =>
    if min + 1 > low && isOnLine tokens deltaLine min then lineStart tokens deltaLine low min else min + 1

/-- The last token of the line, from `max` up to `count` tokens further. -/
def lineEnd (tokens : List Token) (deltaLine : Int) (max : Nat) : Nat → Nat
  | 0 => max
  | count + 1 => if isOnLine tokens deltaLine (max + 1) then lineEnd tokens deltaLine (max + 1) count else max

/-- The binary search of `getLineTokens`, `high` excluded. -/
def getLineTokensLoop (tokens : List Token) (deltaLine : Int) (low high : Nat) : Option (List Token) :=
  if _h : low + 1 < high then
    let mid := low + (high - 1 - low) / 2
    match tokens[mid]? with
    | none => none
    | some token =>
      if token.deltaLine < deltaLine then getLineTokensLoop tokens deltaLine (mid + 1) high
      else if token.deltaLine > deltaLine then getLineTokensLoop tokens deltaLine low mid
      else
        let min := lineStart tokens deltaLine low mid
        let max := lineEnd tokens deltaLine mid (high - 1 - mid)
        some ((tokens.take (max + 1)).drop min)
  else
    match tokens[low]? with
    | none => none
    | some token => if token.deltaLine = deltaLine then some [token] else none
termination_by high - low

def getLineTokens (tokens : List Token) (deltaLine : Int) : Option (List Token) :=
  getLineTokensLoop tokens deltaLine 0 tokens.length

def isTouching (startDeltaLine startChar endDeltaLine endChar : Int) (token : Token) : Bool :=
  (token.deltaLine > startDeltaLine || (token.deltaLine = startDeltaLine && token.endCharacter ≥ startChar)) &&
    (token.deltaLine < endDeltaLine || (token.deltaLine = endDeltaLine && token.startCharacter ≤ endChar))

/-- The loop of `removeTokens`.  `firstDeltaLine` is the line of the first token that is kept, if there was one. -/
def removeLoop (startDeltaLine startChar endDeltaLine endChar : Int) (hasDeletedTokens : Bool)
    (firstDeltaLine : Option Int) : List Token → List Token × Int
  | [] => ([], firstDeltaLine.getD 0)
  | token :: tokens =>
    if isTouching startDeltaLine startChar endDeltaLine endChar token then
      removeLoop startDeltaLine startChar endDeltaLine endChar true firstDeltaLine tokens
    else
      let firstDeltaLine := firstDeltaLine.getD token.deltaLine
      -- a token stays as it is until one is deleted
      let kept := if hasDeletedTokens then { token with deltaLine := token.deltaLine - firstDeltaLine } else token
      let (rest, delta) :=
        removeLoop startDeltaLine startChar endDeltaLine endChar hasDeletedTokens (some firstDeltaLine) tokens
      (kept :: rest, delta)

/-- `removeTokens`: the tokens that are left and the line of the first one. -/
def removeTokens (tokens : List Token) (startDeltaLine startChar endDeltaLine endChar : Int) : List Token × Int :=
  removeLoop startDeltaLine startChar endDeltaLine endChar false none tokens

/-- The loop of `split`.  `bFirstDeltaLine` is the line of the first token after the range, if there was one. -/
def splitLoop (startDeltaLine startChar endDeltaLine endChar : Int) (aTokens bTokens : List Token)
    (bFirstDeltaLine : Option Int) : List Token → List Token × List Token × Int
  | [] => (aTokens, bTokens, bFirstDeltaLine.getD 0)
  | token :: tokens =>
    let isAtOrAfterStart :=
      token.deltaLine > startDeltaLine || (token.deltaLine = startDeltaLine && token.endCharacter ≥ startChar)
    if isTouching startDeltaLine startChar endDeltaLine endChar token then
      splitLoop startDeltaLine startChar endDeltaLine endChar aTokens bTokens bFirstDeltaLine tokens
    else
      match if isAtOrAfterStart then some (bFirstDeltaLine.getD token.deltaLine) else bFirstDeltaLine with
      | none => splitLoop startDeltaLine startChar endDeltaLine endChar (aTokens ++ [token]) bTokens none tokens
      | some first =>
        splitLoop startDeltaLine startChar endDeltaLine endChar aTokens
          (bTokens ++ [{ token with deltaLine := token.deltaLine - first }]) (some first) tokens

/-- `split`: the tokens before the range, those after it, and the line of the first one of these. -/
def split (tokens : List Token) (startDeltaLine startChar endDeltaLine endChar : Int) : List Token × List Token × Int :=
  splitLoop startDeltaLine startChar endDeltaLine endChar [] [] none tokens

/-- The loop of `acceptDeleteRange`; `none` where it throws.  The tokens are rewritten in place: `slots` is the array from
`newTokenCount` on, which still holds what it held before. -/
def deleteLoop (horizontalShift startDeltaLine startCharacter endDeltaLine endCharacter : Int) :
    List Token → List Token → Bool → Option (List Token)
  | _, [], _ => some []
  | [], _ :: _, _ => some []
  | slot :: slots, token :: tokens, hasDeletedTokens =>
    let write (token : Token) : Option (List Token) :=
      (deleteLoop horizontalShift startDeltaLine startCharacter endDeltaLine endCharacter slots tokens
        hasDeletedTokens).map (token :: ·)
    let drop : Option (List Token) :=
      deleteLoop horizontalShift startDeltaLine startCharacter endDeltaLine endCharacter (slot :: slots) tokens true
    let deletedLineCount := endDeltaLine - startDeltaLine
    if token.deltaLine < startDeltaLine ∨ token.deltaLine = startDeltaLine ∧ token.endCharacter ≤ startCharacter then
      -- 1a. the token is completely before the deletion range
      write slot
    else if token.deltaLine = startDeltaLine ∧ token.startCharacter < startCharacter then
      -- 1b, 1c, 1d: the token survives, but it needs to shrink
      if token.deltaLine = endDeltaLine ∧ token.endCharacter > endCharacter then
        write { token with endCharacter := token.endCharacter - (endCharacter - startCharacter) }
      else write { token with endCharacter := startCharacter }
    else if token.deltaLine = startDeltaLine ∧ token.startCharacter = startCharacter then
      -- 2a, 2b, 2c
      if token.deltaLine = endDeltaLine ∧ token.endCharacter > endCharacter then
        write { token with endCharacter := token.endCharacter - (endCharacter - startCharacter) }
      else drop
    else if token.deltaLine < endDeltaLine ∨ token.deltaLine = endDeltaLine ∧ token.startCharacter < endCharacter then
      -- 3a, 3b, 3c
      if token.deltaLine = endDeltaLine ∧ token.endCharacter > endCharacter then
        write { token with
          deltaLine := startDeltaLine
          startCharacter := startCharacter
          endCharacter := startCharacter + (token.endCharacter - endCharacter) }
      else drop
    else if token.deltaLine > endDeltaLine then
      -- 4. (partial) the token starts after the deletion range, on a line below
      if deletedLineCount = 0 ∧ hasDeletedTokens = false then
        -- early stop
        some (slot :: slots)
      else write { token with deltaLine := token.deltaLine - deletedLineCount }
    else if token.deltaLine = endDeltaLine ∧ token.startCharacter ≥ endCharacter then
      -- 4. (continued) the token starts after the deletion range, on the last line where a deletion occurs
      let shift := if horizontalShift ≠ 0 ∧ token.deltaLine = 0 then horizontalShift else 0
      write { token with
        deltaLine := token.deltaLine - deletedLineCount
        startCharacter := token.startCharacter + shift - (endCharacter - startCharacter)
        endCharacter := token.endCharacter + shift - (endCharacter - startCharacter) }
    else none

def acceptDeleteRange (tokens : List Token)
    (horizontalShift startDeltaLine startCharacter endDeltaLine endCharacter : Int) : Option (List Token) :=
  deleteLoop horizontalShift startDeltaLine startCharacter endDeltaLine endCharacter tokens tokens false

def isInsertingPreciselyOneWordCharacter (text : Inserted) : Bool :=
  text.eolCount = 0 && text.firstLineLength = 1 &&
    ((48 ≤ text.firstCharCode && text.firstCharCode ≤ 57) || (65 ≤ text.firstCharCode && text.firstCharCode ≤ 90) ||
      (97 ≤ text.firstCharCode && text.firstCharCode ≤ 122))

/-- One turn of the loop of `acceptInsertText`. -/
def insertToken (deltaLine character : Int) (text : Inserted) (token : Token) : Token :=
  if token.deltaLine < deltaLine ∨ token.deltaLine = deltaLine ∧ token.endCharacter < character then
    -- 1. the token is completely before the insertion point
    token
  else if token.deltaLine = deltaLine ∧ token.endCharacter = character then
    -- 2. the token ends precisely at the insertion point
    if isInsertingPreciselyOneWordCharacter text then { token with endCharacter := token.endCharacter + 1 } else token
  else if token.deltaLine = deltaLine ∧ token.startCharacter < character ∧ character < token.endCharacter then
    -- 3. the token contains the insertion point
    if text.eolCount = 0 then { token with endCharacter := token.endCharacter + text.firstLineLength }
    else { token with endCharacter := character }
  else if (token.deltaLine = deltaLine ∧ token.startCharacter = character) ∧
      isInsertingPreciselyOneWordCharacter text then
    -- 4. the token starts precisely at the insertion point and grows
    token
  else if token.deltaLine = deltaLine then
    -- 5. the token moves and keeps its size
    if text.eolCount = 0 then
      { token with
        deltaLine := token.deltaLine + text.eolCount
        startCharacter := token.startCharacter + text.firstLineLength
        endCharacter := token.endCharacter + text.firstLineLength }
    else
      { token with
        deltaLine := token.deltaLine + text.eolCount
        startCharacter := text.lastLineLength + (token.startCharacter - character)
        endCharacter :=
          text.lastLineLength + (token.startCharacter - character) + (token.endCharacter - token.startCharacter) }
  else { token with deltaLine := token.deltaLine + text.eolCount }

def acceptInsertText (tokens : List Token) (deltaLine character : Int) (text : Inserted) : List Token :=
  tokens.map (insertToken deltaLine character text)

end Storage

/-! ## `SparseMultilineTokens` -/

structure SparseMultilineTokens where
  startLineNumber : Int
  endLineNumber : Int
  tokens : List Token
deriving DecidableEq, Repr

namespace SparseMultilineTokens

open Storage

def create (startLineNumber : Int) (tokens : List Token) : SparseMultilineTokens :=
  { startLineNumber, endLineNumber := startLineNumber + getMaxDeltaLine tokens, tokens }

def updateEndLineNumber (s : SparseMultilineTokens) : SparseMultilineTokens :=
  { s with endLineNumber := s.startLineNumber + getMaxDeltaLine s.tokens }

def isEmpty (s : SparseMultilineTokens) : Bool := s.tokens.isEmpty

def getLineTokens (s : SparseMultilineTokens) (lineNumber : Int) : Option (List Token) :=
  if s.startLineNumber ≤ lineNumber ∧ lineNumber ≤ s.endLineNumber then
    Storage.getLineTokens s.tokens (lineNumber - s.startLineNumber)
  else none

def getRange (s : SparseMultilineTokens) : Option Range :=
  (Storage.getRange s.tokens).map fun deltaRange =>
    { deltaRange with
      startLineNumber := s.startLineNumber + deltaRange.startLineNumber
      endLineNumber := s.startLineNumber + deltaRange.endLineNumber }

def removeTokens (s : SparseMultilineTokens) (range : Range) : SparseMultilineTokens :=
  let startLineIndex := range.startLineNumber - s.startLineNumber
  let endLineIndex := range.endLineNumber - s.startLineNumber
  let (tokens, firstDeltaLine) :=
    Storage.removeTokens s.tokens startLineIndex (range.startColumn - 1) endLineIndex (range.endColumn - 1)
  { s with startLineNumber := s.startLineNumber + firstDeltaLine, tokens }.updateEndLineNumber

def split (s : SparseMultilineTokens) (range : Range) : SparseMultilineTokens × SparseMultilineTokens :=
  let startLineIndex := range.startLineNumber - s.startLineNumber
  let endLineIndex := range.endLineNumber - s.startLineNumber
  let (a, b, bDeltaLine) :=
    Storage.split s.tokens startLineIndex (range.startColumn - 1) endLineIndex (range.endColumn - 1)
  (create s.startLineNumber a, create (s.startLineNumber + bDeltaLine) b)

/-- `_acceptDeleteRange`, `none` where it throws. -/
def acceptDeleteRange (s : SparseMultilineTokens) (range : Range) : Option SparseMultilineTokens :=
  if range.startLineNumber = range.endLineNumber ∧ range.startColumn = range.endColumn then some s
  else
    let firstLineIndex := range.startLineNumber - s.startLineNumber
    let lastLineIndex := range.endLineNumber - s.startLineNumber
    if lastLineIndex < 0 then
      -- entirely before this block
      some { s with startLineNumber := s.startLineNumber - (lastLineIndex - firstLineIndex) }
    else
      let tokenMaxDeltaLine := getMaxDeltaLine s.tokens
      if firstLineIndex ≥ tokenMaxDeltaLine + 1 then some s
      else if firstLineIndex < 0 ∧ lastLineIndex ≥ tokenMaxDeltaLine + 1 then
        -- this deletion completely encompasses this block
        some { s with startLineNumber := 0, tokens := [] }
      else if firstLineIndex < 0 then
        (Storage.acceptDeleteRange s.tokens (range.startColumn - 1) 0 0 lastLineIndex (range.endColumn - 1)).map
          fun tokens => { s with startLineNumber := s.startLineNumber - -firstLineIndex, tokens }
      else
        (Storage.acceptDeleteRange s.tokens 0 firstLineIndex (range.startColumn - 1) lastLineIndex
          (range.endColumn - 1)).map fun tokens => { s with tokens }

def acceptInsertText (s : SparseMultilineTokens) (lineNumber column : Int) (text : Inserted) : SparseMultilineTokens :=
  if text.eolCount = 0 ∧ text.firstLineLength = 0 then s
  else
    let lineIndex := lineNumber - s.startLineNumber
    if lineIndex < 0 then { s with startLineNumber := s.startLineNumber + text.eolCount }
    else if lineIndex ≥ getMaxDeltaLine s.tokens + 1 then s
    else { s with tokens := Storage.acceptInsertText s.tokens lineIndex (column - 1) text }

def acceptEdit (s : SparseMultilineTokens) (range : Range) (text : Inserted) : Option SparseMultilineTokens :=
  (s.acceptDeleteRange range).map fun s =>
    (s.acceptInsertText range.startLineNumber range.startColumn text).updateEndLineNumber

def applyEdit (s : SparseMultilineTokens) (range : Range) (text : JsString) : Option SparseMultilineTokens :=
  s.acceptEdit range (Inserted.ofText text)

end SparseMultilineTokens

end TongjiCode.Tokens
