import TongjiCode.Base.Int32
import TongjiCode.Tokens.SparseMultilineTokens

/-!
# Semantic tokens of a provider

The function `toMultilineTokens2` of `semanticTokensProviderStyling.ts`: the delta-encoded tokens of a provider are cut into
areas, each of which becomes a piece of the store.  The styling is a parameter; the warnings it logs are left out.
-/

namespace TongjiCode.Tokens

/-- Five numbers of the array of a provider. -/
structure SemanticToken where
  deltaLine : Nat
  deltaCharacter : Nat
  length : Nat
  tokenTypeIndex : Nat
  tokenModifierSet : Nat
deriving DecidableEq, Repr

/-- `styling.getMetadata` for the language in question. -/
abbrev Styling := Nat → Nat → Nat

def noStyling : Nat := 0b01111111111111111111111111111111

/-! ## Areas -/

def tokensPerArea (tokenCount : Nat) : Nat := max ((tokenCount + 1023) / 1024) 400

/-- `srcData[5 * i] === 0` -/
def isOnLineOfPrevious (data : List SemanticToken) (i : Nat) : Bool := (data[i]?.map SemanticToken.deltaLine) == some 0

/-- The loop that lowers `smallTokenEndIndex`. -/
def smallTokenEnd (data : List SemanticToken) (tokenStartIndex : Nat) : Nat → Nat
  | 0 => 0
  | i + 1 =>
    if i > tokenStartIndex && isOnLineOfPrevious data (i + 1) then smallTokenEnd data tokenStartIndex i else i + 1

/-- The loop that raises `bigTokenEndIndex`, for `turns` turns at most. -/
def bigTokenEnd (data : List SemanticToken) (i : Nat) : Nat → Nat
  | 0 => i
  | turns + 1 =>
    if i + 1 < data.length && isOnLineOfPrevious data i then bigTokenEnd data (i + 1) turns else i

def tokenEnd (data : List SemanticToken) (tokenStartIndex : Nat) : Nat :=
  let tokenEndIndex := min (tokenStartIndex + tokensPerArea data.length) data.length
  if tokenEndIndex < data.length then
    let small := smallTokenEnd data tokenStartIndex tokenEndIndex
    if small - 1 = tokenStartIndex then
      -- there are so many tokens on this line that our area would be empty, we must now go right
      bigTokenEnd data tokenEndIndex data.length
    else small
  else tokenEndIndex

/-! ## Decoding -/

/-- The variables of the inner loop. -/
structure Decoder where
  lastLineNumber : Int
  lastStartCharacter : Int
  areaLine : Int := 0
  prevLineNumber : Int := 0
  prevEndCharacter : Int := 0
  destData : List Token := []

def Decoder.next (styling : Styling) (d : Decoder) (token : SemanticToken) : Decoder :=
  let lineNumber := toInt32 (d.lastLineNumber + token.deltaLine)
  let startCharacter :=
    if token.deltaLine = 0 then toInt32 (d.lastStartCharacter + token.deltaCharacter) else token.deltaCharacter
  let endCharacter := toInt32 (startCharacter + token.length)
  let d' := { d with lastLineNumber := lineNumber, lastStartCharacter := startCharacter }
  if endCharacter ≤ startCharacter then d'
  else if d.prevLineNumber = lineNumber ∧ d.prevEndCharacter > startCharacter then d'
  else
    let metadata := styling token.tokenTypeIndex token.tokenModifierSet
    if metadata ≠ noStyling then
      let areaLine := if d.areaLine = 0 then lineNumber else d.areaLine
      { d' with
        areaLine
        destData := d.destData ++ [{ deltaLine := lineNumber - areaLine, startCharacter, endCharacter, metadata }]
        prevLineNumber := lineNumber
        prevEndCharacter := endCharacter }
    else d'

/-- The inner loop over the tokens of an area. -/
def decodeArea (styling : Styling) (lastLineNumber lastStartCharacter : Int) (tokens : List SemanticToken) : Decoder :=
  tokens.foldl (Decoder.next styling) { lastLineNumber, lastStartCharacter }

/-- The outer loop.  Each area has a token, so as many turns as there are tokens are enough. -/
def toMultilineTokensLoop (styling : Styling) (data : List SemanticToken) (tokenIndex : Nat)
    (lastLineNumber lastStartCharacter : Int) : Nat → List SparseMultilineTokens
  | 0 => []
  | turns + 1 =>
    if tokenIndex < data.length then
      let tokenEndIndex := tokenEnd data tokenIndex
      let d := decodeArea styling lastLineNumber lastStartCharacter ((data.take tokenEndIndex).drop tokenIndex)
      SparseMultilineTokens.create d.areaLine d.destData ::
        toMultilineTokensLoop styling data tokenEndIndex d.lastLineNumber d.lastStartCharacter turns
    else []

def toMultilineTokens2 (styling : Styling) (data : List SemanticToken) : List SparseMultilineTokens :=
  toMultilineTokensLoop styling data 0 1 0 data.length

end TongjiCode.Tokens
