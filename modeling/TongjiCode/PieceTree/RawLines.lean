import TongjiCode.PieceTree.LineStarts
import TongjiCode.PieceTree.Create
import TongjiCode.Tokens.Lines

/-!
# Piece tree: lines of a text

`rawLine text k` is the line `k` with its break, cut out of the text; `splitLines` gives the lines without
breaks.  A text is read unit by unit, a unit being a break or another code unit (`unit_induction`), and cutting
it where no `\r\n` is cut glues its lines together (`splitLines_append`).
-/

open List

namespace TongjiCode.PieceTree

open JsString Tokens

/-! ## Units -/

inductive IsBreak : JsString → Prop where
  | crlf : IsBreak [carriageReturn, lineFeed]
  | single {c : UInt16} (h : c = carriageReturn ∨ c = lineFeed) : IsBreak [c]

/-- A text is empty, or a break or another unit in front of a shorter text. -/
theorem unit_induction {P : JsString → Prop} (nil : P [])
    (eol : ∀ u t, IsBreak u → ¬ Junction u t → P t → P (u ++ t))
    (other : ∀ c t, ¬ (c = carriageReturn ∨ c = lineFeed) → P t → P (c :: t)) : ∀ t, P t := by
  intro t
  have hsingle : ∀ c d t, (c = carriageReturn ∨ c = lineFeed) → ¬ (c = carriageReturn ∧ d = lineFeed) →
      ¬ Junction [c] (d :: t) := by
    rintro c d t - h ⟨hcr, hlf⟩
    exact h ⟨Option.some.inj hcr, Option.some.inj hlf⟩
  induction t using eolCount.induct with
  | case1 => exact nil
  | case2 c h => exact eol [c] [] (.single h) (not_junction_nil_right _) nil
  | case3 c h => exact other c [] h nil
  | case4 c d t h ih =>
    obtain ⟨rfl, rfl⟩ := h
    refine eol [carriageReturn, lineFeed] t .crlf ?_ ih
    rintro ⟨hlast, -⟩
    exact absurd hlast (by decide)
  | case5 c d t h h' ih => exact eol [c] (d :: t) (.single h') (hsingle c d t h' h) ih
  | case6 c d t h h' ih => exact other c (d :: t) h' ih

theorem IsBreak.eolCount {u : JsString} (h : IsBreak u) : eolCount u = 1 := by
  cases h with
  | crlf => rfl
  | single h => rw [JsString.eolCount, if_pos h]

theorem IsBreak.replaceEol {u : JsString} (h : IsBreak u) (eol : JsString) : replaceEol eol u = eol := by
  cases h with
  | crlf => rw [JsString.replaceEol, if_pos ⟨rfl, rfl⟩, JsString.replaceEol, append_nil]
  | single hc => rw [JsString.replaceEol, if_pos hc]

theorem IsBreak.length {u : JsString} (h : IsBreak u) : 1 ≤ u.length ∧ u.length ≤ 2 := by
  cases h <;> exact ⟨by simp, by simp⟩

theorem not_junction_other {c : UInt16} (h : ¬ (c = carriageReturn ∨ c = lineFeed)) (t : JsString) : ¬ Junction [c] t := by
  rintro ⟨hcr, -⟩
  exact h (.inl (Option.some.inj hcr))

/-! ## Lines without breaks -/

theorem splitLines_break {u t : JsString} (h : IsBreak u) (hjoin : ¬ Junction u t) :
    splitLines (u ++ t) = [] :: splitLines t := by
  cases h with
  | crlf => rw [cons_append, singleton_append, splitLines, if_pos ⟨rfl, rfl⟩]
  | @single c h =>
    rw [singleton_append]
    cases t with
    | nil => simp only [splitLines, if_pos h]
    | cons d t =>
      have hcut : ¬ (c = carriageReturn ∧ d = lineFeed) := by
        rintro ⟨rfl, rfl⟩
        exact hjoin ⟨rfl, rfl⟩
      rw [splitLines, if_neg hcut, if_pos h]

theorem splitLines_other {c : UInt16} (h : ¬ (c = carriageReturn ∨ c = lineFeed)) (t : JsString) :
    splitLines (c :: t) = consHead c (splitLines t) := by
  cases t with
  | nil => simp only [splitLines, if_neg h, consHead]
  | cons d t =>
    have hcut : ¬ (c = carriageReturn ∧ d = lineFeed) := fun hc => h (.inl hc.1)
    rw [splitLines, if_neg hcut, if_neg h]

/-- Two lists of lines of which the last line of the first and the first line of the second are one line. -/
def glue : List JsString → List JsString → List JsString
  | [], ys => ys
  | [x], [] => [x]
  | [x], y :: ys => (x ++ y) :: ys
  | x :: x' :: xs, ys => x :: glue (x' :: xs) ys

theorem glue_cons {x : JsString} {xs : List JsString} (h : xs ≠ []) (ys : List JsString) :
    glue (x :: xs) ys = x :: glue xs ys := by
  cases xs with
  | nil => exact (h rfl).elim
  | cons x' xs => rfl

theorem glue_consHead (c : UInt16) {xs : List JsString} (h : xs ≠ []) (ys : List JsString) :
    glue (consHead c xs) ys = consHead c (glue xs ys) := by
  match xs, ys with
  | [], _ => exact (h rfl).elim
  | [x], [] => rfl
  | [x], y :: ys => rfl
  | x :: x' :: xs, ys => rfl

theorem glue_concat (xs : List JsString) (x y : JsString) (ys : List JsString) :
    glue (xs ++ [x]) (y :: ys) = xs ++ (x ++ y) :: ys := by
  induction xs with
  | nil => rfl
  | cons x' xs ih => rw [cons_append, glue_cons (by simp), ih, cons_append]

theorem splitLines_append {a b : JsString} (h : ¬ Junction a b) :
    splitLines (a ++ b) = glue (splitLines a) (splitLines b) := by
  induction a using unit_induction with
  | nil =>
    cases hb : splitLines b with
    | nil => exact (splitLines_ne_nil b hb).elim
    | cons y ys =>
      rw [nil_append, hb]
      rfl
  | eol u t hu hjoin ih =>
    have hjoin' : ¬ Junction u (t ++ b) := by
      cases t with
      | nil => rwa [nil_append, ← append_nil u]
      | cons c t => exact hjoin
    have ht : ¬ Junction t b := not_junction_right h
    rw [append_assoc, splitLines_break hu hjoin', ih ht, splitLines_break hu hjoin, glue_cons (splitLines_ne_nil t)]
  | other c t hc ih =>
    have ht : ¬ Junction t b := not_junction_right (x := [c]) h
    rw [cons_append, splitLines_other hc, ih ht, splitLines_other hc, glue_consHead c (splitLines_ne_nil t)]

theorem splitLines_length (text : JsString) : (splitLines text).length = eolCount text + 1 := by
  induction text using unit_induction with
  | nil => rfl
  | eol u t hu hjoin ih => rw [splitLines_break hu hjoin, length_cons, ih, eolCount_append hjoin, hu.eolCount]; omega
  | other c t hc ih => rw [splitLines_other hc, consHead_length (splitLines_ne_nil t), ih, eolCount_other hc]

theorem splitLines_replaceEol (eol : EndOfLine) (text : JsString) : splitLines (replaceEol eol.text text) = splitLines text := by
  have hbreak : IsBreak eol.text := by
    cases eol with
    | lf => exact .single (.inr rfl)
    | crlf => exact .crlf
  have hjoin : ∀ t, ¬ Junction eol.text t := by
    rintro t ⟨hlast, -⟩
    cases eol with
    | lf => exact absurd hlast (by decide)
    | crlf => exact absurd hlast (by decide)
  induction text using unit_induction with
  | nil => rfl
  | eol u t hu hglue ih =>
    rw [replaceEol_append hglue, hu.replaceEol, splitLines_break hbreak (hjoin _), ih, splitLines_break hu hglue]
  | other c t hc ih => rw [replaceEol_cons hc, splitLines_other hc, ih, splitLines_other hc]

/-! ## Lines with their breaks -/

def rawLine (text : JsString) (k : Nat) : JsString := text.substring (lineStartAt text k) (lineStartAt text (k + 1))

section RawLine

variable {a b u t text : JsString} {k : Nat} {c : UInt16}

theorem rawLine_append_left (h : ¬ Junction a b) (hk : k < eolCount a) : rawLine (a ++ b) k = rawLine a k := by
  rw [rawLine, lineStartAt_append_left h (by omega), lineStartAt_append_left h hk,
    substring_left _ _ (lineStartAt_le_length a _)]
  rfl

theorem rawLine_last (text : JsString) : rawLine text (eolCount text) = text.drop (lineStartAt text (eolCount text)) := by
  rw [rawLine, lineStartAt_of_lt (Nat.lt_succ_self _), JsString.substring, take_length]

/-- The line that the first part begins and the second part ends. -/
theorem rawLine_append_middle (h : ¬ Junction a b) :
    rawLine (a ++ b) (eolCount a) = rawLine a (eolCount a) ++ rawLine b 0 := by
  have hnext : lineStartAt (a ++ b) (eolCount a + 1) = a.length + lineStartAt b 1 := by
    rw [lineStartAt_append_right h (show eolCount a < eolCount a + 1 by omega), Nat.add_sub_cancel_left]
  rw [rawLine, hnext, lineStartAt_append_left h (Nat.le_refl _), JsString.substring, take_length_add_append,
    drop_append_of_le_length (lineStartAt_le_length a _), rawLine_last]
  rfl

theorem rawLine_append_right (h : ¬ Junction a b) (hk : eolCount a < k) :
    rawLine (a ++ b) k = rawLine b (k - eolCount a) := by
  rw [rawLine, lineStartAt_append_right h hk, lineStartAt_append_right h (by omega), JsString.substring,
    take_length_add_append, drop_length_add_append, show k + 1 - eolCount a = k - eolCount a + 1 by omega]
  rfl

theorem rawLine_break_zero (hu : IsBreak u) (h : ¬ Junction u t) : rawLine (u ++ t) 0 = u := by
  have hstart : rawLine u 0 = u := by
    cases hu with
    | crlf => decide
    | @single c hc => simp [rawLine, lineStartAt, createLineStartsFast, createLineStartsLoop, hc, JsString.substring]
  rw [rawLine_append_left h (by rw [hu.eolCount]; omega), hstart]

theorem rawLine_break_succ (hu : IsBreak u) (h : ¬ Junction u t) (k : Nat) : rawLine (u ++ t) (k + 1) = rawLine t k := by
  have hcnt := hu.eolCount
  cases k with
  | zero =>
    have hlast : rawLine u (eolCount u) = [] := by
      cases hu with
      | crlf => decide
      | @single c hc => simp [rawLine, lineStartAt, createLineStartsFast, createLineStartsLoop, hc, JsString.substring, hcnt]
    have := rawLine_append_middle h
    rwa [hlast, nil_append, hcnt] at this
  | succ k => rw [rawLine_append_right h (by omega), hcnt, Nat.add_sub_cancel]

theorem rawLine_other_zero (hc : ¬ (c = carriageReturn ∨ c = lineFeed)) (t : JsString) :
    rawLine (c :: t) 0 = c :: rawLine t 0 := by
  have hjoin := not_junction_other hc t
  have hcnt : eolCount [c] = 0 := eolCount_other hc []
  have := rawLine_append_middle hjoin
  rw [hcnt] at this
  rw [← singleton_append, this, ← hcnt, rawLine_last, hcnt]
  rfl

theorem rawLine_other_succ (hc : ¬ (c = carriageReturn ∨ c = lineFeed)) (t : JsString) (k : Nat) :
    rawLine (c :: t) (k + 1) = rawLine t (k + 1) := by
  have hjoin := not_junction_other hc t
  have hcnt : eolCount [c] = 0 := eolCount_other hc []
  have := rawLine_append_right (k := k + 1) hjoin (by omega)
  rw [hcnt] at this
  exact this

theorem trimEol_break (hu : IsBreak u) : PieceTreeBase.trimEol u = [] := by
  cases hu with
  | crlf => decide
  | single hc => rcases hc with rfl | rfl <;> decide

theorem trimEol_other (hc : ¬ (c = carriageReturn ∨ c = lineFeed)) (t : JsString) :
    PieceTreeBase.trimEol (c :: t) = c :: PieceTreeBase.trimEol t := by
  rw [not_or] at hc
  cases t with
  | nil =>
    have hlf : ¬ ([c].getLast? = some lineFeed) := fun h => hc.2 (Option.some.inj h)
    have hcr : ¬ ([c].getLast? = some carriageReturn) := fun h => hc.1 (Option.some.inj h)
    rw [PieceTreeBase.trimEol, if_neg hlf, if_neg hcr]
    rfl
  | cons d t =>
    have hdrop : (c :: (d :: t).dropLast).getLast? = some carriageReturn ↔ (d :: t).dropLast.getLast? = some carriageReturn := by
      cases (d :: t).dropLast with
      | nil => simp [hc.1]
      | cons e l => rw [getLast?_cons_cons]
    have hne : (d :: t).dropLast.getLast? = some carriageReturn → (d :: t).dropLast ≠ [] := by
      intro h hnil
      rw [hnil] at h
      cases h
    simp only [PieceTreeBase.trimEol, getLast?_cons_cons, dropLast_cons_of_ne_nil (cons_ne_nil d t), hdrop]
    split
    · split
      · next h => rw [dropLast_cons_of_ne_nil (hne h)]
      · rfl
    · split <;> rfl

theorem splitLines_getElem? (text : JsString) : ∀ k, (splitLines text)[k]? =
    if k ≤ eolCount text then some (PieceTreeBase.trimEol (rawLine text k)) else none := by
  induction text using unit_induction with
  | nil =>
    intro k
    cases k with
    | zero => rfl
    | succ k => rfl
  | eol u t hu hjoin ih =>
    intro k
    have hcnt : eolCount (u ++ t) = eolCount t + 1 := by
      rw [eolCount_append hjoin, hu.eolCount]
      omega
    rw [splitLines_break hu hjoin, hcnt]
    cases k with
    | zero => rw [rawLine_break_zero hu hjoin, trimEol_break hu, if_pos (Nat.zero_le _), getElem?_cons_zero]
    | succ k => simp only [getElem?_cons_succ, ih, rawLine_break_succ hu hjoin, Nat.add_le_add_iff_right]
  | other c t hc ih =>
    intro k
    rw [splitLines_other hc, eolCount_other hc]
    cases hlines : splitLines t with
    | nil => exact (splitLines_ne_nil t hlines).elim
    | cons line lines =>
      have hk := ih k
      rw [hlines] at hk
      cases k with
      | zero =>
        rw [if_pos (Nat.zero_le _), getElem?_cons_zero, Option.some.injEq] at hk
        rw [rawLine_other_zero hc, trimEol_other hc, if_pos (Nat.zero_le _), ← hk]
        rfl
      | succ k =>
        rw [rawLine_other_succ hc, ← hk]
        rfl

theorem splitLines_getD (hk : k ≤ eolCount text) :
    (splitLines text).getD k [] = PieceTreeBase.trimEol (rawLine text k) := by
  rw [getD_eq_getElem?_getD, splitLines_getElem?, if_pos hk]
  rfl

end RawLine

/-! ## Texts with one kind of break -/

section UsesOnly

variable {eol : EndOfLine} {a b t text : JsString} {k : Nat}

theorem replaceEol_length (eol : EndOfLine) (text : JsString) :
    (eol = .lf → (replaceEol eol.text text).length ≤ text.length) ∧
      (eol = .crlf → text.length ≤ (replaceEol eol.text text).length) := by
  induction text using unit_induction with
  | nil => exact ⟨fun _ => Nat.le_refl _, fun _ => Nat.le_refl _⟩
  | eol u t hu hjoin ih =>
    rw [replaceEol_append hjoin, hu.replaceEol, length_append, length_append]
    have hlen := hu.length
    constructor
    · rintro rfl
      have := ih.1 rfl
      show 1 + _ ≤ _
      omega
    · rintro rfl
      have := ih.2 rfl
      show _ ≤ 2 + _
      omega
  | other c t hc ih =>
    rw [replaceEol_cons hc, length_cons, length_cons]
    exact ⟨fun h => by have := ih.1 h; omega, fun h => by have := ih.2 h; omega⟩

theorem UsesOnly.parts (h : UsesOnly eol (a ++ b)) (hjoin : ¬ Junction a b) : UsesOnly eol a ∧ UsesOnly eol b := by
  rw [UsesOnly, replaceEol_append hjoin] at h
  have hsum := congrArg List.length h
  rw [length_append, length_append] at hsum
  obtain ⟨hlfa, hcrlfa⟩ := replaceEol_length eol a
  obtain ⟨hlfb, hcrlfb⟩ := replaceEol_length eol b
  have hlen : (replaceEol eol.text a).length = a.length := by
    cases eol with
    | lf =>
      have := hlfa rfl
      have := hlfb rfl
      omega
    | crlf =>
      have := hcrlfa rfl
      have := hcrlfb rfl
      omega
  exact append_inj h hlen

theorem UsesOnly.line_eq (h : UsesOnly eol text) (hk : k < eolCount text) :
    rawLine text k = PieceTreeBase.trimEol (rawLine text k) ++ eol.text := by
  induction text using unit_induction generalizing k with
  | nil => exact (Nat.not_lt_zero _ hk).elim
  | eol u t hu hjoin ih =>
    obtain ⟨hunit, hrest⟩ := h.parts hjoin
    cases k with
    | zero =>
      rw [rawLine_break_zero hu hjoin, trimEol_break hu, nil_append, ← hu.replaceEol eol.text]
      exact hunit.symm
    | succ k =>
      rw [eolCount_append hjoin, hu.eolCount] at hk
      rw [rawLine_break_succ hu hjoin]
      exact ih hrest (by omega)
  | other c t hc ih =>
    have hrest : UsesOnly eol t := by
      rw [UsesOnly, replaceEol_cons hc] at h
      exact (List.cons.inj h).2
    rw [eolCount_other hc] at hk
    cases k with
    | zero =>
      rw [rawLine_other_zero hc, trimEol_other hc, cons_append, ← ih hrest hk]
    | succ k =>
      rw [rawLine_other_succ hc]
      exact ih hrest hk

end UsesOnly

end TongjiCode.PieceTree
