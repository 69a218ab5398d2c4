import Mathlib.Data.List.Forall2
import TongjiCode.Lib.Lists
import TongjiCode.Tokens.Lines
import TongjiCode.Tokens.Painting

/-!
# Documents with stamps

A document in which each character remembers the metadata that it got when the tokens of its line were last set.  What is
stored for a line fits the line if the metadata of the characters are those of their stamps.
-/

open List

namespace TongjiCode.Tokens

/-- A character, and the metadata from when the tokens of its line were set if it was there. -/
structure Character where
  unit : UInt16
  stamp : Option Nat
deriving DecidableEq, Repr

abbrev Line := List Character

def fresh (text : JsString) : Line := text.map fun unit => { unit, stamp := none }

/-- The lines with something before the first one and something after the last one. -/
def surroundLines (first last : Line) : List Line → List Line
  | [] => [first ++ last]
  | [line] => [first ++ line ++ last]
  | line :: lines => (first ++ line) :: surroundLines [] last lines

def editStamped (doc : List Line) (range : LineRange) (text : JsString) : List Line :=
  doc.take (range.startLineNumber - 1) ++
    surroundLines ((doc.getD (range.startLineNumber - 1) []).take (range.startColumn - 1))
      ((doc.getD (range.endLineNumber - 1) []).drop (range.endColumn - 1)) ((splitLines text).map fresh) ++
    doc.drop range.endLineNumber

/-! ## What is stored for a line -/

/-- The metadata are those of the stamps. -/
def Agrees (line : Line) (expected : List Nat) : Prop :=
  List.Forall₂ (fun c metadata => ∀ stamp, c.stamp = some stamp → stamp = metadata) line expected

def StoredTokens.Fits (line : Line) : StoredTokens → Prop
  | .null => True
  | .emptyLineTokens => ∀ c ∈ line, c.stamp = none
  | .tokens lineTokens => ∃ expected, ContiguousTokensEditing.Painted lineTokens expected ∧ Agrees line expected

section Fits

open ContiguousTokensEditing LineTokens

variable {line line' : Line} {stored stored' : StoredTokens} {expected : List Nat}

theorem Agrees.length (h : Agrees line expected) : List.length line = expected.length := h.length_eq

theorem agrees_fresh (n : JsString) (metadata : Nat) : Agrees (fresh n) (List.replicate n.length metadata) := by
  induction n with
  | nil => exact .nil
  | cons unit n ih =>
    refine .cons ?_ ih
    intro stamp hstamp
    cases hstamp

section

variable (h : stored.Fits line)
include h

theorem fits_delete {fromChIndex toChIndex : Nat} (hle : fromChIndex ≤ toChIndex) (hto : toChIndex ≤ line.length)
    (hbound : line.length < 2 ^ 32) :
    (delete stored fromChIndex toChIndex).Fits (line.take fromChIndex ++ line.drop toChIndex) := by
  cases stored with
  | null => trivial
  | emptyLineTokens =>
    intro c hc
    rcases mem_append.mp hc with hc | hc
    · exact h c (mem_of_mem_take hc)
    · exact h c (mem_of_mem_drop hc)
  | tokens tokens =>
    obtain ⟨expected, hpainted, hagrees⟩ := h
    have hlength := hagrees.length
    rcases Nat.lt_or_eq_of_le hle with hlt | rfl
    · rcases delete_spec hpainted hlt (by omega) (by omega) with ⟨rfl, rfl, heq⟩ | ⟨tokens', heq, hpainted'⟩
      · rw [heq, ← hlength, take_zero, drop_length]
        intro c hc
        cases hc
      · rw [heq]
        exact ⟨_, hpainted', rel_append (forall₂_take _ hagrees) (forall₂_drop _ hagrees)⟩
    · rw [take_append_drop]
      unfold delete
      dsimp only
      rw [if_pos rfl]
      exact ⟨expected, hpainted, hagrees⟩

theorem fits_deleteEnding {fromChIndex : Nat} (hfrom : fromChIndex ≤ line.length) (hbound : line.length < 2 ^ 32) :
    (deleteEnding stored fromChIndex).Fits (line.take fromChIndex) := by
  cases stored with
  | null => trivial
  | emptyLineTokens => exact fun c hc => h c (mem_of_mem_take hc)
  | tokens tokens =>
    have hdelete := fits_delete h hfrom (Nat.le_refl _) hbound
    obtain ⟨expected, hpainted, hagrees⟩ := h
    have hlast : lastEndOffset tokens = line.length := by
      rw [lastEndOffset_eq hpainted.ne_nil 0, ← length_colors_zero hpainted.increasing, hpainted.colors, hagrees.length]
    rw [drop_length, append_nil] at hdelete
    unfold deleteEnding
    dsimp only
    rw [hlast]
    exact hdelete

theorem fits_deleteBeginning {toChIndex : Nat} (hto : toChIndex ≤ line.length) (hbound : line.length < 2 ^ 32) :
    (deleteBeginning stored toChIndex).Fits (line.drop toChIndex) := by
  have hdelete := fits_delete h (Nat.zero_le _) hto hbound
  cases stored with
  | null => trivial
  | emptyLineTokens => exact fun c hc => h c (mem_of_mem_drop hc)
  | tokens tokens => exact hdelete

omit h in
/-- Two lines can be joined: a line with text has tokens, and no empty token comes between them. -/
def JoinsCleanly (first last : Line) : StoredTokens → StoredTokens → Prop
  | .emptyLineTokens, .tokens _ => first = []
  | .tokens _, .emptyLineTokens => last = []
  | .tokens _, .tokens tokens => StartsAt 1 tokens
  | _, _ => True

theorem fits_append (h' : stored'.Fits line') (hclean : JoinsCleanly line line' stored stored')
    (hbound : line.length + line'.length < 2 ^ 32) : (append stored stored').Fits (line ++ line') := by
  cases stored' with
  | null =>
    cases stored with
    | null => trivial
    | emptyLineTokens => trivial
    | tokens tokens => trivial
  | emptyLineTokens =>
    cases stored with
    | null => trivial
    | emptyLineTokens => exact fun c hc => (mem_append.mp hc).elim (h c) (h' c)
    | tokens tokens =>
      have hnil : line' = [] := hclean
      rw [hnil, append_nil]
      exact h
  | tokens otherTokens =>
    cases stored with
    | null => trivial
    | emptyLineTokens =>
      have hnil : line = [] := hclean
      rw [hnil]
      exact h'
    | tokens tokens =>
      obtain ⟨expected, hpainted, hagrees⟩ := h
      obtain ⟨expected', hpainted', hagrees'⟩ := h'
      rw [hagrees.length, hagrees'.length] at hbound
      obtain ⟨tokens', heq, hpainted''⟩ := append_spec hpainted hpainted' hclean hbound
      rw [heq]
      exact ⟨_, hpainted'', rel_append hagrees hagrees'⟩

theorem fits_insert {chIndex : Nat} {text : JsString} (hle : chIndex ≤ line.length)
    (hbound : line.length + text.length < 2 ^ 32) :
    (insert stored chIndex text.length).Fits (line.take chIndex ++ fresh text ++ line.drop chIndex) := by
  cases stored with
  | null => trivial
  | emptyLineTokens =>
    intro c hc
    rcases mem_append.mp hc with hc | hc
    · rcases mem_append.mp hc with hc | hc
      · exact h c (mem_of_mem_take hc)
      · obtain ⟨unit, -, rfl⟩ := mem_map.mp hc
        rfl
    · exact h c (mem_of_mem_drop hc)
  | tokens tokens =>
    obtain ⟨expected, hpainted, hagrees⟩ := h
    rw [hagrees.length] at hle hbound
    obtain ⟨tokens', metadata, heq, hpainted'⟩ := insert_spec hpainted hle hbound
    rw [heq]
    refine ⟨_, hpainted', ?_⟩
    exact rel_append (rel_append (forall₂_take _ hagrees) (agrees_fresh text metadata))
      (forall₂_drop _ hagrees)

end

end Fits

end TongjiCode.Tokens
