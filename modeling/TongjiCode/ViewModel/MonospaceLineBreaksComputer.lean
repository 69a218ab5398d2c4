import TongjiCode.Base.Utf16
import TongjiCode.ViewModel.ModelLineProjectionData

/-!
# Line breaks in a monospace font

`createLineBreaks` of `monospaceLineBreaksComputer.ts` with what it calls, and `applyInjectedText` of `textModelEvents.ts`.
Widths are whole columns and the tab size is positive.  A wrapping column of -1 is none.
-/

namespace TongjiCode.ViewModel.Wrapping

open TongjiCode.Utf16
open TongjiCode.ViewModel.Projections (InjectedTextCursorStops Injection ModelLineProjectionData)

/-! ## Characters -/

/-- `isHighSurrogate` of `strings.ts`. -/
def isHighSurrogate (charCode : UInt16) : Bool := 0xD800 ≤ charCode.toNat && charCode.toNat ≤ 0xDBFF

/-- `isFullWidthCharacter` of `strings.ts`. -/
def isFullWidthCharacter (charCode : UInt16) : Bool :=
  (charCode.toNat ≥ 0x2E80 && charCode.toNat ≤ 0xD7AF) || (charCode.toNat ≥ 0xF900 && charCode.toNat ≤ 0xFAFF) ||
    (charCode.toNat ≥ 0xFF01 && charCode.toNat ≤ 0xFF5E)

inductive CharacterClass where
  | none
  | breakBefore
  | breakAfter
  | breakIdeographic
  deriving Repr, DecidableEq

/-- `WrappingCharacterClassifier`: the characters it was made from. -/
structure WrappingCharacterClassifier where
  breakBefore : JsString
  breakAfter : JsString

/-- `get`.  What was set last, for `breakAfter`, counts. -/
def WrappingCharacterClassifier.get (classifier : WrappingCharacterClassifier) (charCode : UInt16) : CharacterClass :=
  let code := charCode.toNat
  let ideographic := (code ≥ 0x3040 && code ≤ 0x30FF) || (code ≥ 0x3400 && code ≤ 0x4DBF) || (code ≥ 0x4E00 && code ≤ 0x9FFF)
  if code ≥ 256 && ideographic then .breakIdeographic
  else if charCode ∈ classifier.breakAfter then .breakAfter
  else if charCode ∈ classifier.breakBefore then .breakBefore
  else .none

/-- What does not change while a line is broken. -/
structure WrappingOptions where
  classifier : WrappingCharacterClassifier
  tabSize : Nat
  columnsForFullWidthChar : Nat
  isKeepAll : Bool

def tabCharacterWidth (visibleColumn tabSize : Nat) : Nat := tabSize - visibleColumn % tabSize

def computeCharWidth (o : WrappingOptions) (charCode : UInt16) (visibleColumn : Nat) : Nat :=
  if charCode = 9 then o.tabSize - visibleColumn % o.tabSize
  else if isFullWidthCharacter charCode then o.columnsForFullWidthChar
  else if charCode < 32 then o.columnsForFullWidthChar
  else 1

def canBreak (prevCharCodeClass : CharacterClass) (charCode : UInt16) (charCodeClass : CharacterClass) (isKeepAll : Bool) :
    Bool :=
  charCode ≠ 32 &&
    ((prevCharCodeClass = .breakAfter && charCodeClass ≠ .breakAfter) ||
     (prevCharCodeClass ≠ .breakBefore && charCodeClass = .breakBefore) ||
     (!isKeepAll && prevCharCodeClass = .breakIdeographic && charCodeClass ≠ .breakAfter) ||
     (!isKeepAll && charCodeClass = .breakIdeographic && prevCharCodeClass ≠ .breakBefore))

/-! ## The indent of wrapped lines -/

inductive WrappingIndent where
  | none
  | same
  | indent
  | deepIndent
  deriving Repr, DecidableEq

/-- `firstNonWhitespaceIndex` of `strings.ts`; `none` stands for -1. -/
def firstNonWhitespaceIndex (str : JsString) : Option Nat := str.findIdx? fun chCode => chCode ≠ 32 && chCode ≠ 9

def numberOfAdditionalTabs : WrappingIndent → Nat
  | .deepIndent => 2
  | .indent => 1
  | _ => 0

def computeWrappedTextIndentLength (o : WrappingOptions) (lineText : JsString) (firstLineBreakColumn : Int)
    (wrappingIndent : WrappingIndent) : Nat :=
  if wrappingIndent = .none then 0
  else
    match firstNonWhitespaceIndex lineText with
    | none => 0
    | some index =>
      let existing := (lineText.take index).foldl
        (fun length charCode => length + if charCode = 9 then tabCharacterWidth length o.tabSize else 1) 0
      let length := Nat.repeat (fun length => length + tabCharacterWidth length o.tabSize)
        (numberOfAdditionalTabs wrappingIndent) existing
      -- Force sticking to beginning of line if no character would fit except for the indentation
      if (length + o.columnsForFullWidthChar : Int) > firstLineBreakColumn then 0 else length

/-! ## Injected texts -/

/-- `LineInjectedText`, with the text and the cursor stops of its options. -/
structure LineInjectedText where
  column : Nat
  content : JsString
  cursorStops : Option InjectedTextCursorStops
  deriving Repr, DecidableEq

/-- The loop of `applyInjectedText`.  `substring` swaps its arguments where they are out of order. -/
def injectTexts (lineText : JsString) : Nat → List LineInjectedText → JsString
  | lastOriginalOffset, [] => lineText.drop lastOriginalOffset
  | lastOriginalOffset, injectedText :: injectedTexts =>
    let offset := injectedText.column - 1
    lineText.substring (min lastOriginalOffset offset) (max lastOriginalOffset offset) ++ injectedText.content ++
      injectTexts lineText offset injectedTexts

/-- No injected texts are an empty list of them, and both stand for `null`. -/
def applyInjectedText (lineText : JsString) (injectedTexts : List LineInjectedText) : JsString :=
  injectTexts lineText 0 injectedTexts

def injections (injectedTexts : List LineInjectedText) : Option (List Injection) :=
  if injectedTexts.isEmpty then none
  else some (injectedTexts.map fun t => { offset := t.column - 1, content := t.content, cursorStops := t.cursorStops })

/-! ## Breaking a line -/

/-- The variables of the loop of `createLineBreaks`. -/
structure Breaking where
  breakingOffsets : List Nat
  breakingOffsetsVisibleColumn : List Nat
  breakOffset : Nat
  breakOffsetVisibleColumn : Nat
  breakingColumn : Int
  prevCharCodeClass : CharacterClass
  visibleColumn : Nat

namespace Breaking

/-- The variables before the loop. -/
def start (o : WrappingOptions) (firstLineBreakColumn : Int) (lineText : JsString) : Breaking :=
  let first := lineText.headD 0
  let breaking : Breaking :=
    { breakingOffsets := []
      breakingOffsetsVisibleColumn := []
      breakOffset := 0
      breakOffsetVisibleColumn := 0
      breakingColumn := firstLineBreakColumn
      prevCharCodeClass := o.classifier.get first
      visibleColumn := computeCharWidth o first 0 }
  if isHighSurrogate first then
    -- A surrogate pair must always be considered as a single unit, so it is never to be broken
    { breaking with
      visibleColumn := breaking.visibleColumn + 1
      prevCharCodeClass := o.classifier.get ((lineText[1]?).getD 0) }
  else breaking

def charCodeClass (o : WrappingOptions) (charCode : UInt16) : CharacterClass :=
  if isHighSurrogate charCode then .none else o.classifier.get charCode

def charWidth (o : WrappingOptions) (charCode : UInt16) (visibleColumn : Nat) : Nat :=
  if isHighSurrogate charCode then 2 else computeCharWidth o charCode visibleColumn

/-- A break before the character is remembered where there can be one. -/
def remember (o : WrappingOptions) (breaking : Breaking) (charStartOffset : Nat) (charCode : UInt16) : Breaking :=
  if canBreak breaking.prevCharCodeClass charCode (charCodeClass o charCode) o.isKeepAll then
    { breaking with breakOffset := charStartOffset, breakOffsetVisibleColumn := breaking.visibleColumn }
  else breaking

/-- The line is broken at the remembered offset. -/
def breakLine (breaking : Breaking) (wrappedLineBreakColumn : Int) : Breaking :=
  { breaking with
    breakingOffsets := breaking.breakingOffsets ++ [breaking.breakOffset]
    breakingOffsetsVisibleColumn := breaking.breakingOffsetsVisibleColumn ++ [breaking.breakOffsetVisibleColumn]
    breakingColumn := breaking.breakOffsetVisibleColumn + wrappedLineBreakColumn
    breakOffset := 0 }

/-- The character of this width is added, before or behind a break. -/
def add (breaking : Breaking) (wrappedLineBreakColumn : Int) (charStartOffset charWidth : Nat) : Breaking :=
  let visibleColumn := breaking.visibleColumn + charWidth
  if visibleColumn > breaking.breakingColumn then
    if breaking.breakOffset = 0 ∨ (visibleColumn - breaking.breakOffsetVisibleColumn : Int) > wrappedLineBreakColumn then
      -- Cannot break at `breakOffset`, must break at `i`
      { breaking with
        visibleColumn
        breakOffset := charStartOffset
        breakOffsetVisibleColumn := visibleColumn - charWidth }.breakLine wrappedLineBreakColumn
    else { breaking with visibleColumn }.breakLine wrappedLineBreakColumn
  else { breaking with visibleColumn }

def turn (o : WrappingOptions) (wrappedLineBreakColumn : Int) (breaking : Breaking) (charStartOffset : Nat)
    (charCode : UInt16) : Breaking :=
  { (breaking.remember o charStartOffset charCode).add wrappedLineBreakColumn charStartOffset
      (charWidth o charCode breaking.visibleColumn) with
    prevCharCodeClass := charCodeClass o charCode }

/-- The loop, from the offset at which the rest of the text starts. -/
def loop (o : WrappingOptions) (wrappedLineBreakColumn : Int) : Breaking → Nat → JsString → Breaking
  | breaking, _, [] => breaking
  | breaking, i, [charCode] => breaking.turn o wrappedLineBreakColumn i charCode
  | breaking, i, charCode :: next :: rest =>
    if isHighSurrogate charCode then loop o wrappedLineBreakColumn (breaking.turn o wrappedLineBreakColumn i charCode) (i + 2) rest
    else loop o wrappedLineBreakColumn (breaking.turn o wrappedLineBreakColumn i charCode) (i + 1) (next :: rest)

@[simp] theorem loop_nil (o : WrappingOptions) (wrappedLineBreakColumn : Int) (breaking : Breaking) (i : Nat) :
    loop o wrappedLineBreakColumn breaking i [] = breaking := by
  rw [loop]

end Breaking

/-- `ModelLineProjectionData` with the visible columns of its breaks. -/
structure LineBreaks extends ModelLineProjectionData where
  breakOffsetsVisibleColumn : List Nat

/-- The offset at which the loop starts, behind the first character. -/
def startOffset (lineText : JsString) : Nat := if isHighSurrogate (lineText.headD 0) then 2 else 1

/-- The projection of a text that is not broken. -/
def unbroken (lineText : JsString) (injectedTexts : List LineInjectedText) : Option LineBreaks :=
  (injections injectedTexts).map fun injections =>
    -- an invalid `breakOffsetsVisibleColumn` is never used because there is injected text
    { injections := some injections
      breakOffsets := [lineText.length]
      breakOffsetsVisibleColumn := []
      wrappedTextIndentLength := 0 }

def createLineBreaks (o : WrappingOptions) (lineText : JsString) (injectedTexts : List LineInjectedText)
    (firstLineBreakColumn : Int) (wrappingIndent : WrappingIndent) : Option LineBreaks :=
  let lineText := applyInjectedText lineText injectedTexts
  if firstLineBreakColumn = -1 ∨ lineText.length ≤ 1 then unbroken lineText injectedTexts
  else
    let wrappedTextIndentLength := computeWrappedTextIndentLength o lineText firstLineBreakColumn wrappingIndent
    let wrappedLineBreakColumn := firstLineBreakColumn - wrappedTextIndentLength
    let breaking := Breaking.loop o wrappedLineBreakColumn (.start o firstLineBreakColumn lineText) (startOffset lineText)
      (lineText.drop (startOffset lineText))
    if breaking.breakingOffsets.isEmpty && injectedTexts.isEmpty then none
    else
      some
        { injections := injections injectedTexts
          breakOffsets := breaking.breakingOffsets ++ [lineText.length]
          breakOffsetsVisibleColumn := breaking.breakingOffsetsVisibleColumn ++ [breaking.visibleColumn]
          wrappedTextIndentLength }

end TongjiCode.ViewModel.Wrapping
