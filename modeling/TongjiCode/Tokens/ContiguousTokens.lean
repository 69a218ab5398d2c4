import TongjiCode.Base.Int32
import TongjiCode.Tokens.SparseMultilineTokens

/-!
# Tokens of lines

The class `ContiguousTokensEditing` of `contiguousTokensEditing.ts` and the class `ContiguousTokensStore` of
`contiguousTokensStore.ts`: one array of tokens for each line, from the first line on, and how these change with edits of
the text.  A token is the offset where it ends and its metadata.

The arrays are written in place in the source.  No two lines share one, so each is a value here.  An array without tokens
is never stored as long as the offsets are right; what the source would read outside of it is read as zero.
-/

namespace TongjiCode.Tokens

/-- A token: `tokens[i << 1]` and `tokens[(i << 1) + 1]`. -/
structure LineToken where
  endOffset : Nat
  metadata : Nat
deriving DecidableEq, Repr

/-- What is stored for a line. -/
inductive StoredTokens where
  | null
  | emptyLineTokens
  | tokens (tokens : List LineToken)
deriving DecidableEq, Repr

namespace LineTokens

def endOffset (tokens : List LineToken) (i : Nat) : Nat := ((tokens[i]?).map LineToken.endOffset).getD 0

/-- `tokens[tokens.length - 2]`. -/
def lastEndOffset (tokens : List LineToken) : Nat := ((tokens.getLast?).map LineToken.endOffset).getD 0

def findIndexLoop (tokens : List LineToken) (desiredIndex : Nat) (low high : Nat) : Nat :=
  if _h : low < high then
    let mid := low + (high - low) / 2
    let endOffset := endOffset tokens mid
    if endOffset = desiredIndex then mid + 1
    else if endOffset < desiredIndex then findIndexLoop tokens desiredIndex (mid + 1) high
    else findIndexLoop tokens desiredIndex low mid
  else low
termination_by high - low

def findIndexInTokensArray (tokens : List LineToken) (desiredIndex : Nat) : Nat :=
  if tokens.length ≤ 1 then 0 else findIndexLoop tokens desiredIndex 0 (tokens.length - 1)

def metadataAt (tokens : List LineToken) (offset : Nat) : Option Nat :=
  (tokens[findIndexInTokensArray tokens offset]?).map LineToken.metadata

end LineTokens

/-! ## `ContiguousTokensEditing` -/

namespace ContiguousTokensEditing

open LineTokens

/-- The loop of `delete` over the tokens after the first one that is touched. -/
def deleteLoop (delta : Int) (lastEnd : Int) : List LineToken → List LineToken
  | [] => []
  | token :: tokens =>
    let tokenEndOffset := (token.endOffset : Int) - delta
    if tokenEndOffset > lastEnd then
      { token with endOffset := toUint32 tokenEndOffset } :: deleteLoop delta tokenEndOffset tokens
    else deleteLoop delta lastEnd tokens

def delete (lineTokens : StoredTokens) (fromChIndex toChIndex : Nat) : StoredTokens :=
  match lineTokens with
  | .null => .null
  | .emptyLineTokens => .emptyLineTokens
  | .tokens tokens =>
    if fromChIndex = toChIndex then lineTokens
    else if fromChIndex = 0 ∧ lastEndOffset tokens = toChIndex then
      -- special case: deleting everything
      .emptyLineTokens
    else
      let fromTokenIndex := findIndexInTokensArray tokens fromChIndex
      let fromTokenStartOffset := if fromTokenIndex > 0 then endOffset tokens (fromTokenIndex - 1) else 0
      let fromTokenEndOffset := endOffset tokens fromTokenIndex
      let delta := (toChIndex : Int) - fromChIndex
      if toChIndex < fromTokenEndOffset then
        -- the delete range is inside a single token
        .tokens (tokens.take fromTokenIndex ++ (tokens.drop fromTokenIndex).map fun token =>
          { token with endOffset := toUint32 ((token.endOffset : Int) - delta) })
      else if fromTokenStartOffset ≠ fromChIndex then
        .tokens (tokens.take fromTokenIndex ++ ((tokens.drop fromTokenIndex).take 1).map (fun token =>
          { token with endOffset := fromChIndex }) ++ deleteLoop delta fromChIndex (tokens.drop (fromTokenIndex + 1)))
      else
        .tokens (tokens.take fromTokenIndex ++ deleteLoop delta fromTokenStartOffset (tokens.drop (fromTokenIndex + 1)))

def deleteBeginning (lineTokens : StoredTokens) (toChIndex : Nat) : StoredTokens :=
  match lineTokens with
  | .null => .null
  | .emptyLineTokens => .emptyLineTokens
  | .tokens tokens => delete (.tokens tokens) 0 toChIndex

def deleteEnding (lineTokens : StoredTokens) (fromChIndex : Nat) : StoredTokens :=
  match lineTokens with
  | .null => .null
  | .emptyLineTokens => .emptyLineTokens
  | .tokens tokens => delete (.tokens tokens) fromChIndex (lastEndOffset tokens)

def append (lineTokens otherTokens : StoredTokens) : StoredTokens :=
  match otherTokens, lineTokens with
  | .emptyLineTokens, _ => lineTokens
  | _, .emptyLineTokens => otherTokens
  | _, .null => .null
  -- cannot determine combined line length...
  | .null, .tokens _ => .null
  | .tokens otherTokens, .tokens myTokens =>
    .tokens (myTokens ++ otherTokens.map fun token =>
      { token with endOffset := toUint32 ((token.endOffset + lastEndOffset myTokens : Nat)) })

def insert (lineTokens : StoredTokens) (chIndex textLength : Nat) : StoredTokens :=
  match lineTokens with
  | .null => .null
  | .emptyLineTokens => .emptyLineTokens
  | .tokens tokens =>
    let fromTokenIndex := findIndexInTokensArray tokens chIndex
    let fromTokenIndex :=
      if fromTokenIndex > 0 ∧ endOffset tokens (fromTokenIndex - 1) = chIndex then fromTokenIndex - 1 else fromTokenIndex
    .tokens (tokens.take fromTokenIndex ++ (tokens.drop fromTokenIndex).map fun token =>
      { token with endOffset := toUint32 ((token.endOffset + textLength : Nat)) })

end ContiguousTokensEditing

/-! ## `ContiguousTokensStore` -/

/-- A range of a document, with lines and columns from one on. -/
structure LineRange where
  startLineNumber : Nat
  startColumn : Nat
  endLineNumber : Nat
  endColumn : Nat
deriving DecidableEq, Repr

/-- The range lies in the lines of a document. -/
structure LineRange.Valid {α : Type} (doc : List (List α)) (range : LineRange) : Prop where
  startLineNumber : 1 ≤ range.startLineNumber
  startColumn : 1 ≤ range.startColumn
  endColumn : 1 ≤ range.endColumn
  ordered : range.startLineNumber < range.endLineNumber ∨
    range.startLineNumber = range.endLineNumber ∧ range.startColumn ≤ range.endColumn
  endLineNumber : range.endLineNumber ≤ doc.length
  startInLine : range.startColumn - 1 ≤ (doc.getD (range.startLineNumber - 1) []).length
  endInLine : range.endColumn - 1 ≤ (doc.getD (range.endLineNumber - 1) []).length

def getLanguageId (metadata : Nat) : Nat := metadata &&& 0b11111111

/-- `getDefaultMetadata`: no token type, no font style, the default colors, balanced brackets. -/
def getDefaultMetadata (topLevelLanguageId : Nat) : Nat :=
  toUint32 (topLevelLanguageId ||| (0 <<< 8) ||| (0 <<< 11) ||| (1 <<< 15) ||| (2 <<< 24) ||| 0b10000000000 : Nat)

/-- `_massageTokens`.  A missing array of tokens is treated as one without tokens. -/
def massageTokens (topLevelLanguageId lineTextLength : Nat) (tokens : List LineToken) : StoredTokens :=
  let hasDifferentLanguageId :=
    match tokens with
    | [] => false
    | token :: _ => getLanguageId token.metadata ≠ topLevelLanguageId
  if lineTextLength = 0 ∧ hasDifferentLanguageId = false then .emptyLineTokens
  else if tokens = [] then
    .tokens [{ endOffset := toUint32 lineTextLength, metadata := getDefaultMetadata topLevelLanguageId }]
  else
    -- ensure the last token covers the end of the text
    .tokens (tokens.dropLast ++ tokens.getLast?.toList.map fun token =>
      { token with endOffset := toUint32 lineTextLength })

/-- The first `_len` entries of `_lineTokens`. -/
abbrev ContiguousTokensStore := List StoredTokens

namespace ContiguousTokensStore

open ContiguousTokensEditing

def ensureLine (s : ContiguousTokensStore) (lineIndex : Nat) : ContiguousTokensStore :=
  s ++ List.replicate (lineIndex + 1 - s.length) .null

def deleteLines (s : ContiguousTokensStore) (start deleteCount : Nat) : ContiguousTokensStore :=
  let deleteCount := if start + deleteCount > s.length then s.length - start else deleteCount
  s.take start ++ s.drop (start + deleteCount)

def insertLines (s : ContiguousTokensStore) (insertIndex insertCount : Nat) : ContiguousTokensStore :=
  s.take insertIndex ++ List.replicate insertCount .null ++ s.drop insertIndex

/-- `setTokens`, without the comparison with the former tokens. -/
def setTokens (s : ContiguousTokensStore) (topLevelLanguageId lineIndex lineTextLength : Nat) (tokens : List LineToken) :
    ContiguousTokensStore :=
  (s.ensureLine lineIndex).set lineIndex (massageTokens topLevelLanguageId lineTextLength tokens)

def entry (s : ContiguousTokensStore) (lineIndex : Nat) : StoredTokens := s[lineIndex]?.getD .null

def acceptDeleteRange (s : ContiguousTokensStore) (range : LineRange) : ContiguousTokensStore :=
  let firstLineIndex := range.startLineNumber - 1
  if firstLineIndex ≥ s.length then s
  else if range.startLineNumber = range.endLineNumber then
    if range.startColumn = range.endColumn then s
    else s.set firstLineIndex (delete (s.entry firstLineIndex) (range.startColumn - 1) (range.endColumn - 1))
  else
    let firstLineTokens := deleteEnding (s.entry firstLineIndex) (range.startColumn - 1)
    let lastLineIndex := range.endLineNumber - 1
    let lastLineTokens :=
      if lastLineIndex < s.length then deleteBeginning (s.entry lastLineIndex) (range.endColumn - 1) else .null
    -- take remaining text on last line and append it to remaining text on first line
    let s := s.set firstLineIndex (append firstLineTokens lastLineTokens)
    -- delete middle lines
    deleteLines s range.startLineNumber (range.endLineNumber - range.startLineNumber)

def acceptInsertText (s : ContiguousTokensStore) (lineNumber column eolCount firstLineLength : Nat) :
    ContiguousTokensStore :=
  if eolCount = 0 ∧ firstLineLength = 0 then s
  else
    let lineIndex := lineNumber - 1
    if lineIndex ≥ s.length then s
    else if eolCount = 0 then
      -- inserting text on one line
      s.set lineIndex (insert (s.entry lineIndex) (column - 1) firstLineLength)
    else
      let s := s.set lineIndex (insert (deleteEnding (s.entry lineIndex) (column - 1)) (column - 1) firstLineLength)
      insertLines s lineNumber eolCount

def acceptEdit (s : ContiguousTokensStore) (range : LineRange) (eolCount firstLineLength : Nat) : ContiguousTokensStore :=
  (s.acceptDeleteRange range).acceptInsertText range.startLineNumber range.startColumn eolCount firstLineLength

end ContiguousTokensStore

end TongjiCode.Tokens
