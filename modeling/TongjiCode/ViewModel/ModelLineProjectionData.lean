import TongjiCode.Base.JsString

/-!
# Projection of a wrapped line

The class `ModelLineProjectionData` of `modelLineProjectionData.ts`: where a line of the model, with texts injected into it, is
broken into output lines.  There are offsets into the line (*input*), offsets into the line with the injected texts, and output
positions: an output line and an offset in it, behind the indent of all but the first one.

`injectionOffsets` and `injectionOptions` are of one length and stand here as one list; `breakOffsetsVisibleColumn` is read by
none of these functions.
-/

namespace TongjiCode.ViewModel.Projections

inductive PositionAffinity where
  | left
  | right
  | none
  | leftOfInjectedText
  | rightOfInjectedText
  deriving Repr, DecidableEq

inductive InjectedTextCursorStops where
  | both
  | right
  | left
  | none
  deriving Repr, DecidableEq

/-- An entry of `injectionOffsets` with the one of `injectionOptions`. -/
structure Injection where
  offset : Nat
  content : JsString
  cursorStops : Option InjectedTextCursorStops
  deriving Repr, DecidableEq

def hasRightCursorStop (cursorStop : Option InjectedTextCursorStops) : Bool :=
  match cursorStop with
  | .none => true
  | some cursorStop => cursorStop = .right ∨ cursorStop = .both

def hasLeftCursorStop (cursorStop : Option InjectedTextCursorStops) : Bool :=
  match cursorStop with
  | .none => true
  | some cursorStop => cursorStop = .left ∨ cursorStop = .both

structure OutputPosition where
  outputLineIndex : Nat
  outputOffset : Nat
  deriving Repr, DecidableEq

/-- What `getInjectedTextAtOffset` returns. -/
structure InjectedTextAt where
  injectedTextIndex : Nat
  offsetInInputWithInjections : Nat
  length : Nat
  deriving Repr, DecidableEq

structure ModelLineProjectionData where
  injections : Option (List Injection)
  breakOffsets : List Nat
  wrappedTextIndentLength : Nat

namespace ModelLineProjectionData

/-- `breakOffsets[i]`. -/
def breakOffset (d : ModelLineProjectionData) (i : Nat) : Nat := (d.breakOffsets[i]?).getD 0

/-- `i > 0 ? this.breakOffsets[i - 1] : 0`. -/
def startOffset (d : ModelLineProjectionData) (i : Nat) : Nat := if i > 0 then d.breakOffset (i - 1) else 0

def getOutputLineCount (d : ModelLineProjectionData) : Nat := d.breakOffsets.length

def getMinOutputOffset (d : ModelLineProjectionData) (outputLineIndex : Nat) : Nat :=
  if outputLineIndex > 0 then d.wrappedTextIndentLength else 0

def getLineLength (d : ModelLineProjectionData) (outputLineIndex : Nat) : Nat :=
  let lineLength := d.breakOffset outputLineIndex - d.startOffset outputLineIndex
  if outputLineIndex > 0 then lineLength + d.wrappedTextIndentLength else lineLength

def getMaxOutputOffset (d : ModelLineProjectionData) (outputLineIndex : Nat) : Nat := d.getLineLength outputLineIndex

/-! ## Input offsets -/

def inputOffsetLoop : List Injection → Nat → Nat
  | [], offsetInInput => offsetInInput
  | injection :: injections, offsetInInput =>
    if offsetInInput > injection.offset then
      if offsetInInput < injection.offset + injection.content.length then
        -- `inputOffset` is within injected text
        inputOffsetLoop injections injection.offset
      else inputOffsetLoop injections (offsetInInput - injection.content.length)
    else offsetInInput

def translateToInputOffset (d : ModelLineProjectionData) (outputLineIndex outputOffset : Nat) : Nat :=
  let outputOffset := if outputLineIndex > 0 then outputOffset - d.wrappedTextIndentLength else outputOffset
  let offsetInInputWithInjection :=
    if outputLineIndex = 0 then outputOffset else d.breakOffset (outputLineIndex - 1) + outputOffset
  match d.injections with
  | none => offsetInInputWithInjection
  | some injections => inputOffsetLoop injections offsetInInputWithInjection

/-! ## Output positions -/

def outputOffsetLoop (inputOffset : Nat) (affinity : PositionAffinity) : List Injection → Nat → Nat
  | [], inputOffsetInInputWithInjection => inputOffsetInInputWithInjection
  | injection :: injections, inputOffsetInInputWithInjection =>
    if inputOffset < injection.offset then inputOffsetInInputWithInjection
    else if affinity ≠ .right ∧ inputOffset = injection.offset then inputOffsetInInputWithInjection
    else outputOffsetLoop inputOffset affinity injections (inputOffsetInInputWithInjection + injection.content.length)

/-- The binary search of `offsetInInputWithInjectionsToOutputPosition`, `high` excluded; `mid` and `midStart`. -/
def findLineLoop (d : ModelLineProjectionData) (offsetInInputWithInjections : Nat) (affinity : PositionAffinity)
    (low high mid midStart : Nat) : Nat × Nat :=
  if _h : low < high then
    let mid := low + (high - 1 - low) / 2
    let midStop := d.breakOffset mid
    let midStart := d.startOffset mid
    if affinity = .left then
      if offsetInInputWithInjections ≤ midStart then findLineLoop d offsetInInputWithInjections affinity low mid mid midStart
      else if offsetInInputWithInjections > midStop then
        findLineLoop d offsetInInputWithInjections affinity (mid + 1) high mid midStart
      else (mid, midStart)
    else if offsetInInputWithInjections < midStart then
      findLineLoop d offsetInInputWithInjections affinity low mid mid midStart
    else if offsetInInputWithInjections ≥ midStop then
      findLineLoop d offsetInInputWithInjections affinity (mid + 1) high mid midStart
    else (mid, midStart)
  else (mid, midStart)
termination_by high - low

def offsetInInputWithInjectionsToOutputPosition (d : ModelLineProjectionData) (offsetInInputWithInjections : Nat)
    (affinity : PositionAffinity) : OutputPosition :=
  let (mid, midStart) := d.findLineLoop offsetInInputWithInjections affinity 0 d.breakOffsets.length 0 0
  let outputOffset := offsetInInputWithInjections - midStart
  ⟨mid, if mid > 0 then outputOffset + d.wrappedTextIndentLength else outputOffset⟩

def translateToOutputPosition (d : ModelLineProjectionData) (inputOffset : Nat) (affinity : PositionAffinity := .none) :
    OutputPosition :=
  let inputOffsetInInputWithInjection :=
    match d.injections with
    | none => inputOffset
    | some injections => outputOffsetLoop inputOffset affinity injections inputOffset
  d.offsetInInputWithInjectionsToOutputPosition inputOffsetInInputWithInjection affinity

def outputPositionToOffsetInInputWithInjections (d : ModelLineProjectionData) (outputLineIndex outputOffset : Nat) : Nat :=
  let outputOffset := if outputLineIndex > 0 then outputOffset - d.wrappedTextIndentLength else outputOffset
  d.startOffset outputLineIndex + outputOffset

/-! ## Normalization -/

/-- The loop of `getInjectedTextAtOffset` from the index `i` on. -/
def injectedTextLoop (offsetInInputWithInjections : Nat) : List Injection → Nat → Nat → Option InjectedTextAt
  | [], _, _ => none
  | injection :: injections, i, totalInjectedTextLengthBefore =>
    let length := injection.content.length
    let injectedTextStartOffsetInInputWithInjections := injection.offset + totalInjectedTextLengthBefore
    let injectedTextEndOffsetInInputWithInjections := injection.offset + totalInjectedTextLengthBefore + length
    -- all later injected texts have an even larger offset
    if injectedTextStartOffsetInInputWithInjections > offsetInInputWithInjections then none
    else if offsetInInputWithInjections ≤ injectedTextEndOffsetInInputWithInjections then
      some ⟨i, injectedTextStartOffsetInInputWithInjections, length⟩
    else injectedTextLoop offsetInInputWithInjections injections (i + 1) (totalInjectedTextLengthBefore + length)

def getInjectedTextAtOffset (d : ModelLineProjectionData) (offsetInInputWithInjections : Nat) : Option InjectedTextAt :=
  match d.injections with
  | none => none
  | some injections => injectedTextLoop offsetInInputWithInjections injections 0 0

/-- The injected texts before an index, the last one first, in the search for a cursor stop. -/
def cursorStopLoop (offset : Nat) : List Injection → Nat → Nat
  | [], result => result
  | injection :: previous, result =>
    if injection.offset = offset then
      if hasRightCursorStop injection.cursorStops then result
      else
        let result := result - injection.content.length
        if hasLeftCursorStop injection.cursorStops then result else cursorStopLoop offset previous result
    else result

/-- The loops over the injected texts that touch an index, from it on: `move` adds or takes away the length of a text. -/
def endLoop (move : Nat → Nat → Nat) (offset : Nat) : List Injection → Nat → Nat
  | [], result => result
  | injection :: next, result =>
    if injection.offset = offset then endLoop move offset next (move result injection.content.length) else result

/-- The injected texts behind an index that touch it. -/
def rightEndLoop : Nat → List Injection → Nat → Nat := endLoop (· + ·)

/-- The injected texts before an index that touch it, the last one first. -/
def leftEndLoop : Nat → List Injection → Nat → Nat := endLoop (· - ·)

def normalizeOffsetInInputWithInjectionsAroundInjections (d : ModelLineProjectionData) (offsetInInputWithInjections : Nat)
    (affinity : PositionAffinity) : Nat :=
  match d.getInjectedTextAtOffset offsetInInputWithInjections with
  | none => offsetInInputWithInjections
  | some ⟨index, start, length⟩ =>
    let injections := d.injections.getD []
    match injections[index]? with
    | none => offsetInInputWithInjections
    | some injection =>
      match affinity with
      | .none =>
        if offsetInInputWithInjections = start + length ∧ hasRightCursorStop injection.cursorStops then start + length
        else if hasLeftCursorStop injection.cursorStops then start
        else cursorStopLoop injection.offset (injections.take index).reverse start
      | .right | .rightOfInjectedText => rightEndLoop injection.offset (injections.drop (index + 1)) (start + length)
      | .left | .leftOfInjectedText => leftEndLoop injection.offset (injections.take index).reverse start

/-- The end of `normalizeOutputPosition`: the other side of a break. -/
def normalizeAtBreak (d : ModelLineProjectionData) (outputLineIndex outputOffset : Nat) (affinity : PositionAffinity) :
    OutputPosition :=
  match affinity with
  | .left =>
    if outputLineIndex > 0 ∧ outputOffset = d.getMinOutputOffset outputLineIndex then
      ⟨outputLineIndex - 1, d.getMaxOutputOffset (outputLineIndex - 1)⟩
    else ⟨outputLineIndex, outputOffset⟩
  | .right =>
    if outputLineIndex + 1 < d.getOutputLineCount ∧ outputOffset = d.getMaxOutputOffset outputLineIndex then
      ⟨outputLineIndex + 1, d.getMinOutputOffset (outputLineIndex + 1)⟩
    else ⟨outputLineIndex, outputOffset⟩
  | _ => ⟨outputLineIndex, outputOffset⟩

def normalizeOutputPosition (d : ModelLineProjectionData) (outputLineIndex outputOffset : Nat) (affinity : PositionAffinity) :
    OutputPosition :=
  let offsetInInputWithInjections := d.outputPositionToOffsetInInputWithInjections outputLineIndex outputOffset
  let normalizedOffsetInUnwrappedLine :=
    d.normalizeOffsetInInputWithInjectionsAroundInjections offsetInInputWithInjections affinity
  if d.injections.isSome ∧ normalizedOffsetInUnwrappedLine ≠ offsetInInputWithInjections then
    -- injected text caused a change
    d.offsetInInputWithInjectionsToOutputPosition normalizedOffsetInUnwrappedLine affinity
  else d.normalizeAtBreak outputLineIndex outputOffset affinity

end ModelLineProjectionData

end TongjiCode.ViewModel.Projections
