import TongjiCode.MergeEditor.Mapping
import TongjiCode.Tokens.Lines

/-!
# Line edits

`LineRangeEdit` of `editing.ts`: an edit of whole lines becomes an edit of a range, in one of three shapes.
-/

open List

namespace TongjiCode.MergeEditor

open JsString Tokens

structure LineRangeEdit where
  range : LineRange
  newLines : List JsString
deriving DecidableEq, Repr

/-- An edit operation of the text model.  A column that is none is `Number.MAX_SAFE_INTEGER`, which the text model takes for the
end of the line. -/
structure EditOperation where
  startLineNumber : Int
  startColumn : Option Nat
  endLineNumber : Int
  endColumn : Option Nat
  text : JsString
deriving DecidableEq, Repr

def LineRangeEdit.toEdits (e : LineRangeEdit) (modelLineCount : Int) : EditOperation :=
  if e.range.endLineNumberExclusive ≤ modelLineCount then
    ⟨e.range.startLineNumber, some 1, e.range.endLineNumberExclusive, some 1, (e.newLines.map (· ++ [lineFeed])).flatten⟩
  else if e.range.startLineNumber = 1 then ⟨1, some 1, modelLineCount, none, [lineFeed].intercalate e.newLines⟩
  else
    ⟨e.range.startLineNumber - 1, none, modelLineCount, none, (e.newLines.map ([lineFeed] ++ ·)).flatten⟩

/-- How many characters of a line are in front of a column. -/
def character (lines : List JsString) (lineNumber : Int) : Option Nat → Nat
  | some column => column - 1
  | none => (lines.getD (lineNumber.toNat - 1) []).length

/-- `pushEditOperations` of one edit of a range of the document. -/
def pushEditOperations (lines : List JsString) (edit : EditOperation) : List JsString :=
  editLines lines edit.startLineNumber.toNat (character lines edit.startLineNumber edit.startColumn)
    edit.endLineNumber.toNat (character lines edit.endLineNumber edit.endColumn) edit.text

/-! ## Lines without line breaks -/

def IsLine (line : JsString) : Prop := ∀ c ∈ line, c ≠ carriageReturn ∧ c ≠ lineFeed

instance : DecidablePred IsLine := decidableBAll fun c => c ≠ carriageReturn ∧ c ≠ lineFeed

variable {line : JsString}

theorem splitLines_line (h : IsLine line) : splitLines line = [line] := by
  induction line with
  | nil => rfl
  | cons c line ih =>
    obtain ⟨hcr, hlf⟩ := h c mem_cons_self
    have hrest := ih fun c' hc' => h c' (mem_cons_of_mem _ hc')
    cases line with
    | nil => simp [splitLines, hcr, hlf]
    | cons d line =>
      simp only [splitLines, hcr, hlf, false_and, or_self, if_false]
      rw [hrest]
      rfl

theorem splitLines_break (h : IsLine line) (text : JsString) :
    splitLines (line ++ lineFeed :: text) = line :: splitLines text := by
  induction line with
  | nil =>
    have hne : lineFeed ≠ carriageReturn := by decide
    cases text with
    | nil => simp [splitLines]
    | cons d text => simp [splitLines, hne]
  | cons c line ih =>
    obtain ⟨hcr, hlf⟩ := h c mem_cons_self
    have hrest := ih fun c' hc' => h c' (mem_cons_of_mem _ hc')
    obtain ⟨d, tail, htail⟩ : ∃ d tail, line ++ lineFeed :: text = d :: tail := by
      cases line with
      | nil => exact ⟨_, _, rfl⟩
      | cons d line => exact ⟨_, _, rfl⟩
    rw [cons_append, htail]
    simp only [splitLines, hcr, hlf, false_and, or_self, if_false]
    rw [← htail, hrest]
    rfl

variable {newLines : List JsString}

theorem splitLines_behind (hline : IsLine line) (h : ∀ line ∈ newLines, IsLine line) :
    splitLines (line ++ (newLines.map ([lineFeed] ++ ·)).flatten) = line :: newLines := by
  induction newLines generalizing line with
  | nil =>
    rw [map_nil, flatten_nil, append_nil]
    exact splitLines_line hline
  | cons next newLines ih =>
    rw [map_cons, flatten_cons, append_assoc, singleton_append, splitLines_break hline,
      ih (h next mem_cons_self) fun line hmem => h line (mem_cons_of_mem _ hmem)]

theorem splitLines_before (h : ∀ line ∈ newLines, IsLine line) :
    splitLines (newLines.map (· ++ [lineFeed])).flatten = newLines ++ [[]] := by
  induction newLines with
  | nil => rfl
  | cons line newLines ih =>
    rw [map_cons, flatten_cons, append_assoc, singleton_append, splitLines_break (h line mem_cons_self),
      ih fun line hmem => h line (mem_cons_of_mem _ hmem)]
    rfl

theorem splitLines_join (h : ∀ other ∈ line :: newLines, IsLine other) :
    splitLines ([lineFeed].intercalate (line :: newLines)) = line :: newLines := by
  have hjoin : [lineFeed].intercalate (line :: newLines) = line ++ (newLines.map ([lineFeed] ++ ·)).flatten := by
    induction newLines generalizing line with
    | nil => simp [intercalate]
    | cons next newLines ih =>
      rw [intercalate_cons_cons, ih fun other hmem => h other (mem_cons_of_mem _ hmem)]
      simp
  rw [hjoin]
  exact splitLines_behind (h line mem_cons_self) fun other hmem => h other (mem_cons_of_mem _ hmem)

/-! ## What an edit does -/

theorem surround_behind (last : JsString) (newLines : List JsString) :
    surround [] last (newLines ++ [[]]) = newLines ++ [last] := by
  induction newLines with
  | nil => simp [surround]
  | cons line newLines ih =>
    have hstep : surround [] last (line :: (newLines ++ [[]])) = line :: surround [] last (newLines ++ [[]]) := by
      cases newLines with
      | nil => simp [surround]
      | cons next newLines => simp [surround]
    rw [cons_append, hstep, ih]
    rfl

theorem surround_nil (h : newLines ≠ []) : surround [] [] newLines = newLines := by
  induction newLines with
  | nil => exact absurd rfl h
  | cons line newLines ih =>
    cases newLines with
    | nil => simp [surround]
    | cons next newLines =>
      show ([] ++ line) :: surround [] [] (next :: newLines) = _
      rw [ih (cons_ne_nil _ _), nil_append]

theorem surround_before (first : JsString) (newLines : List JsString) :
    surround first [] ([] :: newLines) = first :: newLines := by
  cases newLines with
  | nil => simp [surround]
  | cons next newLines =>
    show (first ++ []) :: surround [] [] (next :: newLines) = _
    rw [surround_nil (cons_ne_nil _ _), append_nil]

theorem pushEditOperations_eq {lines : List JsString} {e : LineRangeEdit} (hstart : 1 ≤ e.range.startLineNumber)
    (hend : e.range.endLineNumberExclusive ≤ lines.length + 1) (hnew : ∀ line ∈ e.newLines, IsLine line)
    (hresult : lines.take (e.range.startLineNumber - 1).toNat ++ e.newLines ++
      lines.drop (e.range.endLineNumberExclusive - 1).toNat ≠ []) :
    pushEditOperations lines (e.toEdits lines.length) =
      lines.take (e.range.startLineNumber - 1).toNat ++ e.newLines ++
        lines.drop (e.range.endLineNumberExclusive - 1).toNat := by
  have hle : e.range.startLineNumber ≤ e.range.endLineNumberExclusive := by
    unfold LineRange.endLineNumberExclusive
    omega
  unfold LineRangeEdit.toEdits
  split
  · next hinside =>
    unfold pushEditOperations editLines character
    have hlt : e.range.endLineNumberExclusive.toNat - 1 < lines.length := by omega
    have hstartNat : e.range.startLineNumber.toNat - 1 = (e.range.startLineNumber - 1).toNat := by omega
    have hendNat : (e.range.endLineNumberExclusive - 1).toNat = e.range.endLineNumberExclusive.toNat - 1 := by omega
    have hsucc : e.range.endLineNumberExclusive.toNat = e.range.endLineNumberExclusive.toNat - 1 + 1 := by omega
    rw [splitLines_before hnew, take_zero, drop_zero, surround_behind, hstartNat, hendNat,
      drop_eq_getElem_cons hlt, getD_eq_getElem?_getD, getElem?_eq_getElem hlt, ← hsucc]
    simp
  · next houtside =>
    have hlast : (e.range.endLineNumberExclusive - 1).toNat = lines.length := by omega
    rw [hlast, drop_length, append_nil] at hresult ⊢
    split
    · next hone =>
      rw [hone] at hresult ⊢
      have hempty : ((1 : Int) - 1).toNat = 0 := rfl
      rw [hempty, take_zero, nil_append] at hresult ⊢
      obtain ⟨line, newLines, hcons⟩ := exists_cons_of_ne_nil hresult
      unfold pushEditOperations editLines character
      rw [hcons] at hnew ⊢
      rw [splitLines_join hnew, take_zero, drop_length, surround_nil (cons_ne_nil _ _), Int.toNat_natCast,
        drop_length, append_nil]
      rfl
    · next hmany =>
      unfold pushEditOperations editLines character
      obtain ⟨k, hk⟩ : ∃ k, (e.range.startLineNumber - 1).toNat = k + 1 := ⟨(e.range.startLineNumber - 1).toNat - 1, by omega⟩
      have hlt : k < lines.length := by omega
      have htake : lines.take (k + 1) = lines.take k ++ [lines[k]] := by
        rw [take_add_one, getElem?_eq_getElem hlt]
        rfl
      have hsplit : splitLines (e.newLines.map ([lineFeed] ++ ·)).flatten = [] :: e.newLines :=
        @splitLines_behind [] e.newLines (fun _ hmem => nomatch hmem) hnew
      rw [hsplit, take_length, drop_length, surround_before, Int.toNat_natCast, drop_length, append_nil, hk,
        Nat.add_sub_cancel, htake, getD_eq_getElem?_getD, getElem?_eq_getElem hlt, append_assoc]
      rfl

end TongjiCode.MergeEditor
