import TongjiCode.Tokens.SparseMultilineTokens

/-!
# Lines of a document

What an edit does to the lines of a document, and where a character after the edit goes (`moved`).  `countEOL` gives the
number of lines of the inserted text and the lengths of the first and the last one, which is all `moved` needs.
-/

open List

namespace TongjiCode.Tokens

/-! ## Lines of a text -/

def consHead (c : UInt16) : List JsString → List JsString
  | [] => [[c]]
  | line :: lines => (c :: line) :: lines

/-- The lines of a text, without their line breaks. -/
def splitLines : JsString → List JsString
  | [] => [[]]
  | [c] => if c = JsString.carriageReturn ∨ c = JsString.lineFeed then [[], []] else [[c]]
  | c :: d :: t =>
    if c = JsString.carriageReturn ∧ d = JsString.lineFeed then [] :: splitLines t
    else if c = JsString.carriageReturn ∨ c = JsString.lineFeed then [] :: splitLines (d :: t)
    else consHead c (splitLines (d :: t))

attribute [local simp] splitLines

def headLength (lines : List JsString) : Nat := (lines.headD []).length

def lastLength (lines : List JsString) : Nat := (lines.getLastD []).length

variable {c : UInt16} {lines : List JsString}

theorem consHead_length (h : lines ≠ []) :
    (consHead c lines).length = lines.length := by
  cases lines with
  | nil => exact absurd rfl h
  | cons line lines => rfl

theorem lastLength_cons {line : JsString} (h : lines ≠ []) :
    lastLength (line :: lines) = lastLength lines := by
  unfold lastLength
  cases lines with
  | nil => exact absurd rfl h
  | cons line' lines => simp

variable (text : JsString)

theorem splitLines_ne_nil : splitLines text ≠ [] := by
  induction text using splitLines.induct with
  | case1 => simp
  | case2 c h => simp [h]
  | case3 c h => simp [h]
  | case4 c d t h ih => simp [h]
  | case5 c d t h h' ih => simp [h, h']
  | case6 c d t h h' ih =>
    simp only [splitLines, h, h', if_false]
    cases hlines : splitLines (d :: t) with
    | nil => exact absurd hlines ih
    | cons line lines => simp [consHead]

theorem lastLength_consHead (h : lines ≠ []) :
    lastLength (consHead c lines) = if lines.length = 1 then lastLength lines + 1 else lastLength lines := by
  match lines with
  | [] => exact absurd rfl h
  | [line] => simp [consHead, lastLength]
  | line :: line' :: lines =>
    rw [if_neg (by simp)]
    show lastLength ((c :: line) :: line' :: lines) = _
    rw [lastLength_cons (cons_ne_nil line' lines), lastLength_cons (cons_ne_nil line' lines)]

theorem headLength_consHead (h : lines ≠ []) :
    headLength (consHead c lines) = headLength lines + 1 := by
  cases lines with
  | nil => exact absurd rfl h
  | cons line lines => simp [consHead, headLength]

theorem lastLength_le : lastLength (splitLines text) ≤ text.length := by
  induction text using splitLines.induct with
  | case1 => simp [lastLength]
  | case2 c h => simp [h, lastLength]
  | case3 c h => simp [h, lastLength]
  | case4 c d t h ih =>
    simp only [splitLines, h, and_self, if_true]
    rw [lastLength_cons (splitLines_ne_nil t)]
    simp only [length_cons]
    omega
  | case5 c d t h h' ih =>
    simp only [splitLines, h, h', if_true, if_false]
    rw [lastLength_cons (splitLines_ne_nil _)]
    simp only [length_cons] at ih ⊢
    omega
  | case6 c d t h h' ih =>
    simp only [splitLines, h, h', if_false]
    rw [lastLength_consHead (splitLines_ne_nil _)]
    simp only [length_cons] at ih ⊢
    split <;> omega

theorem headLength_le : headLength (splitLines text) ≤ text.length := by
  induction text using splitLines.induct with
  | case1 => simp [headLength]
  | case2 c h => simp [h, headLength]
  | case3 c h => simp [h, headLength]
  | case4 c d t h ih => simp [h, headLength]
  | case5 c d t h h' ih => simp [h, h', headLength]
  | case6 c d t h h' ih =>
    simp only [splitLines, h, h', if_false]
    rw [headLength_consHead (splitLines_ne_nil _)]
    simp only [length_cons] at ih ⊢
    omega

theorem lastLength_of_one {text : JsString} (h : (splitLines text).length = 1) :
    lastLength (splitLines text) = headLength (splitLines text) := by
  match hlines : splitLines text with
  | [] => simp [hlines] at h
  | [line] => simp [headLength, lastLength]
  | _ :: _ :: _ => simp [hlines] at h

theorem headLength_of_one : (splitLines text).length = 1 →
    headLength (splitLines text) = text.length := by
  induction text using splitLines.induct with
  | case1 => simp [headLength]
  | case2 c h => simp [h]
  | case3 c h => simp [h, headLength]
  | case4 c d t h ih =>
    intro hone
    simp [h, splitLines_ne_nil] at hone
  | case5 c d t h h' ih =>
    intro hone
    simp [h, h', splitLines_ne_nil] at hone
  | case6 c d t h h' ih =>
    intro hone
    simp only [splitLines, h, h', if_false] at hone ⊢
    rw [consHead_length (splitLines_ne_nil _)] at hone
    rw [headLength_consHead (splitLines_ne_nil _), ih hone]
    simp

theorem countEolLoop_eq : ∀ i eolCount firstLineLength lastLineStart,
    countEolLoop i eolCount firstLineLength lastLineStart text =
      (eolCount + ((splitLines text).length - 1),
        if (splitLines text).length = 1 then firstLineLength
        else if eolCount = 0 then i + headLength (splitLines text) else firstLineLength,
        if (splitLines text).length = 1 then lastLineStart else i + text.length - lastLength (splitLines text)) := by
  induction text using splitLines.induct with
  | case1 =>
    intro i eolCount firstLineLength lastLineStart
    simp [countEolLoop, splitLines]
  | case2 c h =>
    intro i eolCount firstLineLength lastLineStart
    simp [countEolLoop, splitLines, h, headLength, lastLength]
  | case3 c h =>
    intro i eolCount firstLineLength lastLineStart
    simp [countEolLoop, splitLines, h]
  | case4 c d t h ih =>
    intro i eolCount firstLineLength lastLineStart
    have hpos : 0 < (splitLines t).length := length_pos_iff.mpr (splitLines_ne_nil t)
    simp only [countEolLoop, splitLines, h, and_self, if_true, ih, lastLength_cons (splitLines_ne_nil t),
      length_cons]
    have hhead : headLength ([] :: splitLines t) = 0 := rfl
    rw [hhead]
    have hone : ¬(splitLines t).length + 1 = 1 := by omega
    have hsucc : ¬eolCount + 1 = 0 := by omega
    simp only [hone, hsucc, if_false, Prod.mk.injEq]
    refine ⟨by omega, by split <;> simp, ?_⟩
    split
    · next heq =>
      rw [lastLength_of_one heq, headLength_of_one t heq]
      omega
    · omega
  | case5 c d t h h' ih =>
    intro i eolCount firstLineLength lastLineStart
    have hpos : 0 < (splitLines (d :: t)).length := length_pos_iff.mpr (splitLines_ne_nil _)
    simp only [countEolLoop, splitLines, h, h', if_true, if_false, ih, lastLength_cons (splitLines_ne_nil (d :: t)),
      length_cons]
    have hhead : headLength ([] :: splitLines (d :: t)) = 0 := rfl
    rw [hhead]
    have hone : ¬(splitLines (d :: t)).length + 1 = 1 := by omega
    have hsucc : ¬eolCount + 1 = 0 := by omega
    simp only [hone, hsucc, if_false, Prod.mk.injEq]
    refine ⟨by omega, by split <;> simp, ?_⟩
    split
    · next heq =>
      have hwhole := headLength_of_one _ heq
      rw [lastLength_of_one heq, hwhole]
      simp only [length_cons]
      omega
    · omega
  | case6 c d t h h' ih =>
    intro i eolCount firstLineLength lastLineStart
    simp only [countEolLoop, splitLines, h, h', if_false, ih, consHead_length (splitLines_ne_nil (d :: t)),
      headLength_consHead (splitLines_ne_nil (d :: t)), lastLength_consHead (splitLines_ne_nil (d :: t)),
      length_cons, Prod.mk.injEq, true_and]
    refine ⟨?_, ?_⟩
    · split
      · rfl
      · split <;> omega
    · split
      · rfl
      · omega

theorem countEOL_eq :
    countEOL text =
      ((splitLines text).length - 1, headLength (splitLines text), lastLength (splitLines text)) := by
  have hpos : 0 < (splitLines text).length := length_pos_iff.mpr (splitLines_ne_nil text)
  have hlast := lastLength_le text
  unfold countEOL
  rw [countEolLoop_eq]
  simp only [Nat.zero_add, if_true, Prod.mk.injEq, true_and]
  by_cases hone : (splitLines text).length = 1
  · have hwhole := headLength_of_one text hone
    rw [if_pos hone, if_pos (by omega), if_pos hone, lastLength_of_one hone, hwhole]
    simp
  · rw [if_neg hone, if_neg (by omega), if_neg hone]
    omega

/-! ## Edits of a document -/

/-- The lines with a text before the first one and a text after the last one. -/
def surround (first last : JsString) : List JsString → List JsString
  | [] => [first ++ last]
  | [line] => [first ++ line ++ last]
  | line :: lines => (first ++ line) :: surround [] last lines

@[simp] theorem surround_nil (first last : JsString) : surround first last [] = [first ++ last] := by
  rw [surround]

/-- The document with a range replaced by a text.  Lines count from one, characters from zero. -/
def editLines (doc : List JsString) (startLine startCharacter endLine endCharacter : Nat) (text : JsString) :
    List JsString :=
  doc.take (startLine - 1) ++
    surround ((doc.getD (startLine - 1) []).take startCharacter) ((doc.getD (endLine - 1) []).drop endCharacter)
      (splitLines text) ++
    doc.drop endLine

end TongjiCode.Tokens
