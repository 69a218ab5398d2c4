import Mathlib.Algebra.Order.Ring.Int
import Mathlib.Data.List.Sort

/-!
# Line ranges and their mappings

`LineRange` of `lineRange.ts`, and `LineRangeMapping`, `DocumentLineRangeMap` and `MappingAlignment` of `mapping.ts`.  A call
that throws gives none.
-/

namespace TongjiCode.MergeEditor

/-- A range of lines.  The constructor throws for a negative line count. -/
structure LineRange where
  startLineNumber : Int
  lineCount : Nat
deriving DecidableEq, Repr

namespace LineRange

/-- `new LineRange(startLineNumber, lineCount)` -/
def new (startLineNumber lineCount : Int) : Option LineRange :=
  if lineCount < 0 then none else some ⟨startLineNumber, lineCount.toNat⟩

def endLineNumberExclusive (r : LineRange) : Int := r.startLineNumber + r.lineCount

def join (r other : LineRange) : Option LineRange :=
  new (min r.startLineNumber other.startLineNumber)
    (max r.endLineNumberExclusive other.endLineNumberExclusive - r.startLineNumber)

def touches (r other : LineRange) : Bool :=
  r.endLineNumberExclusive ≥ other.startLineNumber && other.endLineNumberExclusive ≥ r.startLineNumber

def isAfter (r range : LineRange) : Bool := r.startLineNumber ≥ range.endLineNumberExclusive

def isBefore (r range : LineRange) : Bool := range.startLineNumber ≥ r.endLineNumberExclusive

def delta (r : LineRange) (lineDelta : Int) : LineRange := ⟨r.startLineNumber + lineDelta, r.lineCount⟩

def containsRange (r range : LineRange) : Bool :=
  r.startLineNumber ≤ range.startLineNumber && range.endLineNumberExclusive ≤ r.endLineNumberExclusive

end LineRange

structure LineRangeMapping where
  inputRange : LineRange
  outputRange : LineRange
deriving DecidableEq, Repr

namespace LineRangeMapping

def extendInputRange (m : LineRangeMapping) (extendedInputRange : LineRange) : Option LineRangeMapping :=
  if !extendedInputRange.containsRange m.inputRange then none
  else
    let startDelta := extendedInputRange.startLineNumber - m.inputRange.startLineNumber
    let endDelta := extendedInputRange.endLineNumberExclusive - m.inputRange.endLineNumberExclusive
    (LineRange.new (m.outputRange.startLineNumber + startDelta) (m.outputRange.lineCount - startDelta + endDelta)).map
      fun outputRange => ⟨extendedInputRange, outputRange⟩

def join (m other : LineRangeMapping) : Option LineRangeMapping :=
  match m.inputRange.join other.inputRange, m.outputRange.join other.outputRange with
  | some inputRange, some outputRange => some ⟨inputRange, outputRange⟩
  | _, _ => none

/-- The static `join` of at least one mapping, which joins them from the left. -/
def joinAll (first : LineRangeMapping) (rest : List LineRangeMapping) : Option LineRangeMapping :=
  rest.foldlM join first

def resultingDeltaFromOriginalToModified (m : LineRangeMapping) : Int :=
  m.outputRange.endLineNumberExclusive - m.inputRange.endLineNumberExclusive

def addOutputLineDelta (m : LineRangeMapping) (delta : Int) : LineRangeMapping :=
  ⟨m.inputRange, m.outputRange.delta delta⟩

end LineRangeMapping

/-! ## Alignments -/

structure MappingAlignment (T : Type) where
  inputRange : LineRange
  output1Range : LineRange
  output1LineMappings : List T
  output2Range : LineRange
  output2LineMappings : List T
deriving DecidableEq, Repr

namespace MappingAlignment

/-- A mapping with its source. -/
inductive CombinedDiff (T : Type) where
  | first (diff : T)
  | second (diff : T)
deriving DecidableEq, Repr

def CombinedDiff.diff {T : Type} : CombinedDiff T → T
  | first diff => diff
  | second diff => diff

/-- The variables of `compute` for one of the two sources. -/
structure Side (T : Type) where
  currentDiffs : List T := []
  deltaFromBaseToInput : Int := 0
deriving DecidableEq, Repr

variable {T : Type} (mapping : T → LineRangeMapping)

/-- The output range of a side in `pushAndReset`. -/
def Side.outputRange (side : Side T) (inputRange : LineRange) : Option LineRange := do
  let mapping ←
    match side.currentDiffs with
    | [] => some ⟨inputRange, inputRange.delta side.deltaFromBaseToInput⟩
    | first :: rest => (mapping first).joinAll (rest.map mapping)
  let extended ← mapping.extendInputRange inputRange
  return extended.outputRange

def Side.push (side : Side T) (diff : T) : Side T :=
  ⟨side.currentDiffs ++ [diff], (mapping diff).resultingDeltaFromOriginalToModified⟩

def Side.reset (side : Side T) : Side T := { side with currentDiffs := [] }

/-- The alignment of `pushAndReset`. -/
def pushed (side1 side2 : Side T) (inputRange : LineRange) : Option (MappingAlignment T) := do
  let output1Range ← side1.outputRange mapping inputRange
  let output2Range ← side2.outputRange mapping inputRange
  return ⟨inputRange, output1Range, side1.currentDiffs, output2Range, side2.currentDiffs⟩

/-- The loop of `compute`, which gives the alignments that it adds. -/
def computeLoop (side1 side2 : Side T) (currentInputRange : Option LineRange) :
    List (CombinedDiff T) → Option (List (MappingAlignment T))
  | [] =>
    match currentInputRange with
    | none => some []
    | some inputRange => (pushed mapping side1 side2 inputRange).map ([·])
  | diff :: combinedDiffs => do
    let range := (mapping diff.diff).inputRange
    let add (side1 side2 : Side T) (currentInputRange : LineRange) : Option (List (MappingAlignment T)) :=
      match diff with
      | .first diff => computeLoop (side1.push mapping diff) side2 (some currentInputRange) combinedDiffs
      | .second diff => computeLoop side1 (side2.push mapping diff) (some currentInputRange) combinedDiffs
    match currentInputRange with
    | none => add side1 side2 range
    | some inputRange =>
      if inputRange.touches range then
        let joined ← inputRange.join range
        add side1 side2 joined
      else
        let alignment ← pushed mapping side1 side2 inputRange
        let alignments ← add side1.reset side2.reset range
        return alignment :: alignments

/-- The mappings of both sources, sorted by their start. -/
def combine (fromInputToOutput1 fromInputToOutput2 : List T) : List (CombinedDiff T) :=
  (fromInputToOutput1.map CombinedDiff.first ++ fromInputToOutput2.map CombinedDiff.second).insertionSort
    fun a b => (mapping a.diff).inputRange.startLineNumber ≤ (mapping b.diff).inputRange.startLineNumber

def compute (fromInputToOutput1 fromInputToOutput2 : List T) : Option (List (MappingAlignment T)) :=
  computeLoop mapping {} {} none (combine mapping fromInputToOutput1 fromInputToOutput2)

end MappingAlignment

/-! ## Documents -/

/-- The assertion of the constructor of `DocumentLineRangeMap`. -/
def checkAdjacentItems : List LineRangeMapping → Bool
  | m1 :: m2 :: rest =>
    (m1.inputRange.isBefore m2.inputRange && m1.outputRange.isBefore m2.outputRange &&
      m2.inputRange.startLineNumber - m1.inputRange.endLineNumberExclusive ==
        m2.outputRange.startLineNumber - m1.outputRange.endLineNumberExclusive) && checkAdjacentItems (m2 :: rest)
  | _ => true

/-- `DocumentLineRangeMap.betweenOutputs`, with the mappings and whether the assertion of the constructor holds. -/
def betweenOutputs {T : Type} (mapping : T → LineRangeMapping) (inputToOutput1 inputToOutput2 : List T) :
    Option (List LineRangeMapping × Bool) :=
  (MappingAlignment.compute mapping inputToOutput1 inputToOutput2).map fun alignments =>
    let mappings := alignments.map fun m => ⟨m.output1Range, m.output2Range⟩
    (mappings, checkAdjacentItems mappings)

end TongjiCode.MergeEditor
