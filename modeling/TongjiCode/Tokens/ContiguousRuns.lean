import TongjiCode.Tokens.StampedLines

/-!
# Runs of the store of line tokens

Tokens are set and the document is edited, one step after the other.  What is stored fits the lines as long as each edit
over several lines joins its first and its last line cleanly.
-/

open List

namespace TongjiCode.Tokens

def Short (doc : List Line) : Prop := ∀ line ∈ doc, line.length < 2 ^ 31

abbrev FitsLines (s : ContiguousTokensStore) (doc : List Line) : Prop := Covers (fun stored line => stored.Fits line) s doc

/-- The first and the last line of an edit over several lines are joined cleanly. -/
def EditsCleanly (s : ContiguousTokensStore) (doc : List Line) (range : LineRange) : Prop :=
  range.startLineNumber < range.endLineNumber →
    JoinsCleanly ((doc.getD (range.startLineNumber - 1) []).take (range.startColumn - 1))
      ((doc.getD (range.endLineNumber - 1) []).drop (range.endColumn - 1))
      (ContiguousTokensEditing.deleteEnding (s.entry (range.startLineNumber - 1)) (range.startColumn - 1))
      (ContiguousTokensEditing.deleteBeginning (s.entry (range.endLineNumber - 1)) (range.endColumn - 1))

section Steps

open ContiguousTokensEditing ContiguousTokensStore

variable {s : ContiguousTokensStore} {doc : List Line} {range : LineRange}

theorem short_getD (h : Short doc) (i : Nat) : (doc.getD i []).length < 2 ^ 31 := by
  rw [getD_eq_getElem?_getD]
  cases hline : doc[i]? with
  | none => decide
  | some line => exact h line (mem_of_getElem? hline)

theorem fits_entry (h : FitsLines s doc) (i : Nat) : (s.entry i).Fits (doc.getD i []) := by
  unfold entry
  cases hstored : s[i]? with
  | none => trivial
  | some stored =>
    obtain ⟨line, hline, hfits⟩ := h.getElem? hstored
    rw [getD_eq_getElem?_getD, hline]
    exact hfits

variable {i : Nat}

theorem set_eq (s : ContiguousTokensStore) (hi : i < s.length) (stored : StoredTokens) :
    s.set i stored = s.take i ++ ([stored] ++ s.drop (i + 1)) := by
  rw [set_eq_take_append_cons_drop, if_pos hi]
  rfl

theorem set_entry (s : ContiguousTokensStore) (hi : i < s.length) : s.set i (s.entry i) = s := by
  unfold entry
  rw [getElem?_eq_getElem hi]
  exact set_getElem_self hi

theorem delete_self (stored : StoredTokens) (chIndex : Nat) : delete stored chIndex chIndex = stored := by
  cases stored with
  | null => rfl
  | emptyLineTokens => rfl
  | tokens tokens =>
    exact if_pos rfl

theorem deleteLines_set (s : ContiguousTokensStore) (hi : i < s.length) (stored : StoredTokens) (deleteCount : Nat) :
    deleteLines (s.set i stored) (i + 1) deleteCount = s.take i ++ ([stored] ++ s.drop (i + 1 + deleteCount)) := by
  have htake : (s.set i stored).take (i + 1) = s.take i ++ [stored] := by
    rw [set_eq s hi, ← append_assoc, take_append_of_le_length (by
      rw [length_append, length_take, length_singleton]
      omega), take_of_length_le (by
      rw [length_append, length_take, length_singleton]
      omega)]
  have hdrop : ∀ n, (s.set i stored).drop (i + 1 + n) = s.drop (i + 1 + n) := fun n => drop_set_of_lt (by omega)
  unfold deleteLines
  dsimp only
  rw [htake, hdrop, length_set, append_assoc]
  congr 2
  split
  · rw [drop_eq_nil_of_le (by omega), drop_eq_nil_of_le (by omega)]
  · rfl

def deleteStamped (doc : List Line) (range : LineRange) : List Line :=
  doc.take (range.startLineNumber - 1) ++
    ([(doc.getD (range.startLineNumber - 1) []).take (range.startColumn - 1) ++
      (doc.getD (range.endLineNumber - 1) []).drop (range.endColumn - 1)] ++ doc.drop range.endLineNumber)

theorem acceptDeleteRange_fits (h : FitsLines s doc) (hvalid : range.Valid doc) (hshort : Short doc)
    (hclean : EditsCleanly s doc range) : FitsLines (s.acceptDeleteRange range) (deleteStamped doc range) := by
  have hone := hvalid.startLineNumber
  have hordered := hvalid.ordered
  have hfirst := short_getD hshort (range.startLineNumber - 1)
  have hlast := short_getD hshort (range.endLineNumber - 1)
  unfold acceptDeleteRange
  dsimp only
  by_cases hlen : range.startLineNumber - 1 ≥ s.length
  · rw [if_pos hlen]
    exact h.take_append hlen _
  rw [if_neg hlen]
  have hlen' : range.startLineNumber - 1 < s.length := Nat.lt_of_not_le hlen
  by_cases hsame : range.startLineNumber = range.endLineNumber
  · rw [if_pos hsame]
    have hend := hvalid.endInLine
    rw [← hsame] at hend hlast
    have hfits := fits_delete (fits_entry h (range.startLineNumber - 1)) (by omega : range.startColumn - 1 ≤ range.endColumn - 1)
      hend (by omega)
    unfold deleteStamped
    rw [← hsame]
    have hset := h.replace (Nat.le_of_lt hlen') range.startLineNumber (.cons hfits (.nil [])) rfl
    have hstart : range.startLineNumber - 1 + 1 = range.startLineNumber := by omega
    by_cases hempty : range.startColumn = range.endColumn
    · rw [if_pos hempty]
      rw [hempty, delete_self] at hset
      rw [hempty, ← set_entry s hlen', set_eq s hlen', hstart]
      exact hset
    · rw [if_neg hempty, set_eq s hlen', hstart]
      exact hset
  · rw [if_neg hsame]
    have hlt : range.startLineNumber < range.endLineNumber := by omega
    have hbeginning : (if range.endLineNumber - 1 < s.length then
        deleteBeginning (s.entry (range.endLineNumber - 1)) (range.endColumn - 1) else .null) =
        deleteBeginning (s.entry (range.endLineNumber - 1)) (range.endColumn - 1) := by
      split
      · rfl
      · next hbelow =>
        unfold entry
        rw [getElem?_eq_none (by omega)]
        rfl
    have hfits := fits_append
      (fits_deleteEnding (fits_entry h (range.startLineNumber - 1)) hvalid.startInLine (by omega))
      (fits_deleteBeginning (fits_entry h (range.endLineNumber - 1)) hvalid.endInLine (by omega)) (hclean hlt) (by
        rw [length_take, length_drop]
        omega)
    have hstart : range.startLineNumber - 1 + 1 = range.startLineNumber := by omega
    have hend : range.startLineNumber + (range.endLineNumber - range.startLineNumber) = range.endLineNumber := by omega
    have hdelete := deleteLines_set s hlen' (append (deleteEnding (s.entry (range.startLineNumber - 1)) (range.startColumn - 1))
      (deleteBeginning (s.entry (range.endLineNumber - 1)) (range.endColumn - 1)))
      (range.endLineNumber - range.startLineNumber)
    rw [hstart, hend] at hdelete
    rw [hbeginning, hdelete]
    exact h.replace (Nat.le_of_lt hlen') range.endLineNumber (.cons hfits (.nil [])) rfl

/-! ### Insertions -/

def insertStamped (doc : List Line) (lineNumber column : Nat) (text : JsString) : List Line :=
  doc.take (lineNumber - 1) ++
    (surroundLines ((doc.getD (lineNumber - 1) []).take (column - 1)) ((doc.getD (lineNumber - 1) []).drop (column - 1))
      ((splitLines text).map fresh) ++ doc.drop lineNumber)

theorem length_fresh (text : JsString) : (fresh text).length = text.length := length_map _

theorem surroundLines_length (first last : Line) (lines : List Line) (hne : lines ≠ []) :
    (surroundLines first last lines).length = lines.length := by
  induction lines generalizing first with
  | nil => exact absurd rfl hne
  | cons line lines ih =>
    cases lines with
    | nil => rfl
    | cons line' lines => exact congrArg Nat.succ (ih [] (cons_ne_nil _ _))

theorem covers_null {n : Nat} {lines : List Line} (h : n ≤ lines.length) :
    FitsLines (List.replicate n StoredTokens.null) lines := by
  induction n generalizing lines with
  | zero => exact .nil _
  | succ n ih =>
    cases lines with
    | nil => exact absurd h (Nat.not_succ_le_zero _)
    | cons line lines => exact .cons trivial (ih (Nat.le_of_succ_le_succ h))

theorem insertLines_set (s : ContiguousTokensStore) (hi : i < s.length) (stored : StoredTokens) (insertCount : Nat) :
    insertLines (s.set i stored) (i + 1) insertCount =
      s.take i ++ (stored :: List.replicate insertCount .null ++ s.drop (i + 1)) := by
  have htake : (s.set i stored).take (i + 1) = s.take i ++ [stored] := by
    rw [take_set, take_succ_eq_append_getElem hi, set_append_right _ _ (by rw [length_take]; omega),
      length_take, Nat.min_eq_left (Nat.le_of_lt hi), Nat.sub_self]
    rfl
  unfold insertLines
  rw [htake, drop_set_of_lt (by omega)]
  simp only [append_assoc, cons_append, nil_append]

theorem acceptInsertText_fits {lineNumber column : Nat} {text : JsString} (h : FitsLines s doc) (hone : 1 ≤ lineNumber)
    (hcolumn : column - 1 ≤ (doc.getD (lineNumber - 1) []).length)
    (hbound : (doc.getD (lineNumber - 1) []).length < 2 ^ 32) (hshort : Short (insertStamped doc lineNumber column text)) :
    FitsLines (s.acceptInsertText lineNumber column (countEOL text).1 (countEOL text).2.1)
      (insertStamped doc lineNumber column text) := by
  have hstart : lineNumber - 1 + 1 = lineNumber := by omega
  rw [countEOL_eq]
  unfold acceptInsertText
  have hfits := fits_entry h (lineNumber - 1)
  unfold insertStamped at hshort ⊢
  generalize doc.getD (lineNumber - 1) [] = line at hfits hcolumn hbound hshort ⊢
  cases hlines : splitLines text with
  | nil => exact absurd hlines (splitLines_ne_nil text)
  | cons first rest =>
    rw [hlines] at hshort
    have hmem : ∀ line' ∈ surroundLines (line.take (column - 1)) (line.drop (column - 1)) ((first :: rest).map fresh),
        line'.length < 2 ^ 31 := fun line' hline' => hshort line' (mem_append_right _ (mem_append_left _ hline'))
    have htake : (line.take (column - 1)).length = column - 1 := by
      rw [length_take]
      omega
    have heol : (first :: rest).length - 1 = rest.length := rfl
    have hhead : headLength (first :: rest) = first.length := rfl
    rw [heol, hhead]
    by_cases hbelow : lineNumber - 1 ≥ s.length
    · -- no tokens here yet
      rw [if_pos hbelow, ite_self]
      exact h.take_append hbelow _
    have hlt : lineNumber - 1 < s.length := Nat.lt_of_not_le hbelow
    rw [if_neg hbelow]
    cases rest with
    | nil =>
      -- inserting text on one line
      have hinsert := hmem _ mem_cons_self
      rw [length_append, length_append, length_fresh, length_drop, htake] at hinsert
      have hfits' := @fits_insert line _ hfits _ first hcolumn (by omega)
      have hset := h.replace (Nat.le_of_lt hlt) lineNumber (.cons hfits' (.nil [])) rfl
      by_cases hempty : first = []
      · rw [if_pos ⟨rfl, congrArg List.length hempty⟩]
        have hsame := h.replace (Nat.le_of_lt hlt) lineNumber (.cons hfits (.nil [])) rfl
        have hs := set_entry s hlt
        rw [set_eq s hlt, hstart] at hs
        rw [hs] at hsame
        rw [hempty]
        show FitsLines s (_ ++ ([line.take (column - 1) ++ [] ++ line.drop (column - 1)] ++ _))
        rw [append_nil, take_append_drop]
        exact hsame
      · rw [if_neg (fun hboth => hempty (eq_nil_of_length_eq_zero hboth.2)), if_pos (show List.length [] = 0 from rfl),
          set_eq s hlt, hstart]
        exact hset
    | cons second rest =>
      have hset := insertLines_set s hlt (insert (deleteEnding (s.entry (lineNumber - 1)) (column - 1)) (column - 1) first.length)
        (second :: rest).length
      rw [hstart] at hset
      rw [hset]
      have hinsert := hmem _ mem_cons_self
      rw [length_append, length_fresh, htake] at hinsert
      have hfits' := @fits_insert _ _ (fits_deleteEnding hfits hcolumn hbound) (column - 1) first (by omega) (by omega)
      rw [take_of_length_le (by omega), drop_eq_nil_of_le (by omega), append_nil] at hfits'
      have hlength := surroundLines_length [] (line.drop (column - 1)) ((second :: rest).map fresh) (cons_ne_nil _ _)
      rw [length_map] at hlength
      exact h.replace (Nat.le_of_lt hlt) lineNumber (.cons hfits' (covers_null (by omega))) (by
        rw [length_cons, length_replicate, ← hlength]
        rfl)

theorem deleteStamped_getD (hvalid : range.Valid doc) :
    (deleteStamped doc range).getD (range.startLineNumber - 1) [] =
      (doc.getD (range.startLineNumber - 1) []).take (range.startColumn - 1) ++
        (doc.getD (range.endLineNumber - 1) []).drop (range.endColumn - 1) := by
  have hordered := hvalid.ordered
  have hdoc := hvalid.endLineNumber
  have hlen : (doc.take (range.startLineNumber - 1)).length = range.startLineNumber - 1 := by
    rw [length_take]
    omega
  unfold deleteStamped
  rw [getD_eq_getElem?_getD, getElem?_append_right (Nat.le_of_eq hlen), hlen, Nat.sub_self]
  rfl

theorem editStamped_eq (hvalid : range.Valid doc) (text : JsString) :
    editStamped doc range text =
      insertStamped (deleteStamped doc range) range.startLineNumber range.startColumn text := by
  have hone := hvalid.startLineNumber
  have hordered := hvalid.ordered
  have hdoc := hvalid.endLineNumber
  have hstart := hvalid.startInLine
  have hlen : (doc.take (range.startLineNumber - 1)).length = range.startLineNumber - 1 := by
    rw [length_take]
    omega
  have hcolumn : ((doc.getD (range.startLineNumber - 1) []).take (range.startColumn - 1)).length = range.startColumn - 1 := by
    rw [length_take]
    omega
  have htake : (deleteStamped doc range).take (range.startLineNumber - 1) = doc.take (range.startLineNumber - 1) :=
    take_left' hlen
  have hdrop : (deleteStamped doc range).drop range.startLineNumber = doc.drop range.endLineNumber := by
    unfold deleteStamped
    rw [← append_assoc]
    refine drop_left' ?_
    rw [length_append, hlen, length_singleton]
    omega
  unfold insertStamped editStamped
  rw [deleteStamped_getD hvalid, htake, hdrop, take_left' hcolumn, drop_left' hcolumn, append_assoc]

theorem acceptEdit_fits {text : JsString} (h : FitsLines s doc) (hvalid : range.Valid doc) (hshort : Short doc)
    (hclean : EditsCleanly s doc range) (hshort' : Short (editStamped doc range text)) :
    FitsLines (s.acceptEdit range (countEOL text).1 (countEOL text).2.1) (editStamped doc range text) := by
  have hone := hvalid.startLineNumber
  have hstart := hvalid.startInLine
  have hline := deleteStamped_getD hvalid
  have hfirst := short_getD hshort (range.startLineNumber - 1)
  have hlast := short_getD hshort (range.endLineNumber - 1)
  rw [editStamped_eq hvalid] at hshort' ⊢
  refine acceptInsertText_fits (acceptDeleteRange_fits h hvalid hshort hclean) hone ?_ ?_ hshort'
  · rw [hline, length_append, length_take]
    omega
  · rw [hline, length_append, length_take, length_drop]
    omega

/-! ### Setting tokens -/

/-- What is stored tells the metadata of a character. -/
def StoredTokens.metadataAt (offset : Nat) : StoredTokens → Option Nat
  | .tokens lineTokens => LineTokens.metadataAt lineTokens offset
  | _ => none

def stampLine (line : Line) (stored : StoredTokens) : Line :=
  line.mapIdx fun offset c => { c with stamp := stored.metadataAt offset }

/-- Tokens for a line: none at all, or with increasing offsets up to the end of the line. -/
def CoverLine (tokens : List LineToken) (lineTextLength : Nat) : Prop :=
  tokens = [] ∨ Increasing tokens ∧ LineTokens.lastEndOffset tokens = lineTextLength

variable {tokens : List LineToken}

theorem stampLine_fits {expected : List Nat} {line : Line} (h : Painted tokens expected)
    (hlength : expected.length = line.length) :
    (StoredTokens.tokens tokens).Fits (stampLine line (.tokens tokens)) := by
  refine ⟨expected, h, forall₂_iff_get.mpr ⟨?_, fun i hi hi' stamp hstamp => ?_⟩⟩
  · unfold stampLine
    rw [length_mapIdx, hlength]
  · unfold stampLine at hstamp
    rw [get_eq_getElem, getElem_mapIdx] at hstamp
    have hsome : LineTokens.metadataAt tokens i = some stamp := hstamp
    rw [metadataAt_eq h hi', getElem?_eq_getElem hi'] at hsome
    exact (Option.some.inj hsome).symm

theorem massageTokens_fits {line : Line} (topLevelLanguageId : Nat) (hcover : CoverLine tokens line.length)
    (hbound : line.length < 2 ^ 32) :
    (massageTokens topLevelLanguageId line.length tokens).Fits
      (stampLine line (massageTokens topLevelLanguageId line.length tokens)) := by
  unfold massageTokens
  dsimp only
  split_ifs with hempty hne
  · rw [eq_nil_of_length_eq_zero hempty.1]
    intro c hc
    cases hc
  · refine stampLine_fits ⟨cons_ne_nil _ _, pairwise_singleton _ _, rfl⟩ ?_
    rw [toUint32_eq hbound]
    show (List.replicate (line.length - 0) _ ++ []).length = line.length
    rw [append_nil, length_replicate, Nat.sub_zero]
  · obtain ⟨hincreasing, hlast⟩ := hcover.resolve_left hne
    have hsame : tokens.dropLast ++ tokens.getLast?.toList.map (fun token =>
        { token with endOffset := toUint32 line.length }) = tokens := by
      rcases eq_nil_or_concat tokens with hnil | ⟨front, token, rfl⟩
      · exact absurd hnil hne
      · rw [lastEndOffset_eq hne 0, concat_eq_append, lastEnd_concat] at hlast
        rw [concat_eq_append, dropLast_concat, getLast?_concat, toUint32_eq hbound, ← hlast]
        rfl
    rw [hsame]
    refine stampLine_fits ⟨hne, hincreasing, rfl⟩ ?_
    rw [length_colors_zero hincreasing, ← lastEndOffset_eq hne 0, hlast]

theorem fits_ensureLine (h : FitsLines s doc) {lineIndex : Nat} (hline : lineIndex < doc.length) :
    FitsLines (s.ensureLine lineIndex) doc := by
  have hle := h.length_le
  have hn : s.length + (lineIndex + 1 - s.length) ≤ doc.length := by omega
  unfold ensureLine
  generalize lineIndex + 1 - s.length = n at hn ⊢
  clear hle hline
  induction h with
  | nil doc => exact covers_null (by simpa using hn)
  | cons hab _ ih =>
    refine .cons hab (ih ?_)
    rw [length_cons, length_cons] at hn
    omega

theorem setTokens_fits (h : FitsLines s doc) (hshort : Short doc) (topLevelLanguageId : Nat) {lineIndex : Nat}
    (hline : lineIndex < doc.length) (hcover : CoverLine tokens (doc.getD lineIndex []).length) :
    FitsLines (s.setTokens topLevelLanguageId lineIndex (doc.getD lineIndex []).length tokens)
      (doc.set lineIndex (stampLine (doc.getD lineIndex [])
        (massageTokens topLevelLanguageId (doc.getD lineIndex []).length tokens))) := by
  have hensure := fits_ensureLine h hline
  have hlength : lineIndex < (s.ensureLine lineIndex).length := by
    unfold ensureLine
    rw [length_append, length_replicate]
    omega
  have hfits := massageTokens_fits topLevelLanguageId hcover (Nat.lt_trans (short_getD hshort lineIndex) (by decide))
  unfold setTokens
  rw [set_eq _ hlength, set_eq_take_append_cons_drop, if_pos hline]
  exact hensure.replace (Nat.le_of_lt hlength) (lineIndex + 1) (.cons hfits (.nil [])) rfl

end Steps

/-! ## Runs -/

inductive TokenOp where
  | setTokens (topLevelLanguageId lineIndex : Nat) (tokens : List LineToken)
  | acceptEdit (range : LineRange) (text : JsString)

/-- The document and the tokens of its lines. -/
structure TokenizedDocument where
  doc : List Line
  store : ContiguousTokensStore

namespace TokenizedDocument

def ofLines (lines : List JsString) : TokenizedDocument := { doc := lines.map fresh, store := [] }

def step (x : TokenizedDocument) : TokenOp → TokenizedDocument
  | .setTokens topLevelLanguageId lineIndex tokens =>
    let line := x.doc.getD lineIndex []
    { doc := x.doc.set lineIndex (stampLine line (massageTokens topLevelLanguageId line.length tokens))
      store := x.store.setTokens topLevelLanguageId lineIndex line.length tokens }
  | .acceptEdit range text =>
    { doc := editStamped x.doc range text
      store := x.store.acceptEdit range (countEOL text).1 (countEOL text).2.1 }

def run (x : TokenizedDocument) (ops : List TokenOp) : TokenizedDocument := ops.foldl step x

/-- A call for a line or a range of the document. -/
def Allows (x : TokenizedDocument) : TokenOp → Prop
  | .setTokens _ lineIndex tokens => lineIndex < x.doc.length ∧ CoverLine tokens (x.doc.getD lineIndex []).length
  | .acceptEdit range _ => range.Valid x.doc

/-- Edits join lines cleanly and leave no line of 2 ^ 31 characters. -/
def Careful (x : TokenizedDocument) : TokenOp → Prop
  | .setTokens _ _ _ => True
  | .acceptEdit range text => EditsCleanly x.store x.doc range ∧ Short (editStamped x.doc range text)

/-- All steps of the run are calls of this kind. -/
def Along (P : TokenizedDocument → TokenOp → Prop) (x : TokenizedDocument) : List TokenOp → Prop
  | [] => True
  | op :: ops => P x op ∧ Along P (x.step op) ops

/-- The tokens of each line follow its text. -/
structure Follows (x : TokenizedDocument) : Prop where
  length : x.store.length ≤ x.doc.length
  offsets : ∀ (lineIndex : Nat) tokens, x.store[lineIndex]? = some (.tokens tokens) →
    Increasing tokens ∧ LineTokens.lastEndOffset tokens = (x.doc.getD lineIndex []).length
  metadata : ∀ (lineIndex : Nat) stored, x.store[lineIndex]? = some stored → stored ≠ .null →
    ∀ (offset : Nat) c stamp, (x.doc.getD lineIndex [])[offset]? = some c → c.stamp = some stamp →
      stored.metadataAt offset = some stamp

theorem step_fits {x : TokenizedDocument} (h : FitsLines x.store x.doc) (hshort : Short x.doc) {op : TokenOp}
    (hallows : x.Allows op) (hcareful : x.Careful op) : FitsLines (x.step op).store (x.step op).doc ∧ Short (x.step op).doc := by
  cases op with
  | setTokens topLevelLanguageId lineIndex tokens =>
    refine ⟨setTokens_fits h hshort topLevelLanguageId hallows.1 hallows.2, fun line hline => ?_⟩
    rcases mem_or_eq_of_mem_set hline with hline | rfl
    · exact hshort line hline
    · unfold stampLine
      rw [length_mapIdx]
      exact short_getD hshort lineIndex
  | acceptEdit range text => exact ⟨acceptEdit_fits h hallows hshort hcareful.1 hcareful.2, hcareful.2⟩

theorem run_fits (ops : List TokenOp) : ∀ {x : TokenizedDocument}, FitsLines x.store x.doc → Short x.doc →
    x.Along Allows ops → x.Along Careful ops → FitsLines (x.run ops).store (x.run ops).doc := by
  induction ops with
  | nil => exact fun h _ _ _ => h
  | cons op ops ih =>
    intro x h hshort hallows hcareful
    obtain ⟨hstep, hshort'⟩ := step_fits h hshort hallows.1 hcareful.1
    exact ih hstep hshort' hallows.2 hcareful.2

theorem follows_of_fits {x : TokenizedDocument} (h : FitsLines x.store x.doc) : x.Follows where
  length := h.length_le
  offsets := by
    intro lineIndex tokens hstored
    obtain ⟨line, hline, expected, hpainted, hagrees⟩ := h.getElem? hstored
    refine ⟨hpainted.increasing, ?_⟩
    rw [lastEndOffset_eq hpainted.ne_nil 0, ← length_colors_zero hpainted.increasing, hpainted.colors, ← hagrees.length,
      getD_eq_getElem?_getD, hline]
    rfl
  metadata := by
    intro lineIndex stored hstored hnull offset c stamp hc hstamp
    obtain ⟨line, hline, hfits⟩ := h.getElem? hstored
    rw [getD_eq_getElem?_getD, hline, Option.getD_some] at hc
    cases stored with
    | null => exact absurd rfl hnull
    | emptyLineTokens =>
      rw [hfits c (mem_of_getElem? hc)] at hstamp
      cases hstamp
    | tokens tokens =>
      obtain ⟨expected, hpainted, hagrees⟩ := hfits
      obtain ⟨hlt, rfl⟩ := List.getElem?_eq_some_iff.mp hc
      have hlt' : offset < expected.length := by
        rw [← hagrees.length]
        exact hlt
      have hagree := (forall₂_iff_get.mp hagrees).2 offset hlt hlt' stamp hstamp
      show LineTokens.metadataAt tokens offset = some stamp
      rw [ContiguousTokensEditing.metadataAt_eq hpainted hlt', getElem?_eq_getElem hlt', hagree]
      rfl

end TokenizedDocument

/-- Whatever tokens are set and whatever edits are made, the tokens follow the text, as long as the edits join lines
cleanly. -/
theorem tokens_follow_edits (lines : List JsString) (ops : List TokenOp) (hshort : ∀ line ∈ lines, line.length < 2 ^ 31)
    (hallows : (TokenizedDocument.ofLines lines).Along TokenizedDocument.Allows ops)
    (hcareful : (TokenizedDocument.ofLines lines).Along TokenizedDocument.Careful ops) :
    ((TokenizedDocument.ofLines lines).run ops).Follows := by
  have hshort' : Short (TokenizedDocument.ofLines lines).doc := by
    intro line hline
    obtain ⟨text, htext, rfl⟩ := mem_map.mp hline
    rw [length_fresh]
    exact hshort text htext
  exact TokenizedDocument.follows_of_fits (TokenizedDocument.run_fits ops (.nil _) hshort' hallows hcareful)

/-- A line loses its second character and is joined with the next line. -/
theorem tokens_follow_a_deletion :
    let x := TokenizedDocument.ofLines [[97, 98], [99]]
    let ops : List TokenOp := [.setTokens 1 0 [⟨2, 5⟩], .setTokens 1 1 [⟨1, 7⟩],
      .acceptEdit { startLineNumber := 1, startColumn := 2, endLineNumber := 2, endColumn := 1 } []]
    (x.run ops).Follows ∧ (x.run ops).doc = [[⟨97, some 5⟩, ⟨99, some 7⟩]] := by
  intro x ops
  have hdoc : (x.run ops).doc = [[⟨97, some 5⟩, ⟨99, some 7⟩]] := by decide
  refine ⟨tokens_follow_edits [[97, 98], [99]] ops ?_ ?_ ?_, hdoc⟩
  · intro line hline
    have hle : ∀ line ∈ ([[97, 98], [99]] : List JsString), line.length ≤ 2 := by decide
    exact Nat.lt_of_le_of_lt (hle line hline) (by decide)
  · refine ⟨⟨by decide, .inr ⟨pairwise_singleton _ _, by decide⟩⟩,
      ⟨by decide, .inr ⟨pairwise_singleton _ _, by decide⟩⟩, ?_, trivial⟩
    exact ⟨by decide, by decide, by decide, .inl (by decide), by decide, by decide, by decide⟩
  · have hjoins : StartsAt 1 [⟨1, 7⟩] := fun token htoken => by rw [mem_singleton.mp htoken]
    refine ⟨trivial, trivial, ⟨fun _ => hjoins, fun line hline => ?_⟩, trivial⟩
    have hmem : line ∈ (x.run ops).doc := hline
    rw [hdoc, mem_singleton] at hmem
    rw [hmem]
    decide

/-- Text is typed into an empty line, which is then joined with the next one. -/
theorem tokens_lose_typed_text :
    let x := TokenizedDocument.ofLines [[], [97, 98]]
    let ops : List TokenOp := [.setTokens 1 0 [], .setTokens 1 1 [⟨2, 5⟩],
      .acceptEdit { startLineNumber := 1, startColumn := 1, endLineNumber := 1, endColumn := 1 } [120],
      .acceptEdit { startLineNumber := 1, startColumn := 2, endLineNumber := 2, endColumn := 1 } []]
    x.Along TokenizedDocument.Allows ops ∧ ¬(x.run ops).Follows := by
  intro x ops
  refine ⟨⟨⟨by decide, .inl rfl⟩, ⟨by decide, .inr ⟨pairwise_singleton _ _, by decide⟩⟩, ?_, ?_, trivial⟩, fun h => ?_⟩
  · exact ⟨by decide, by decide, by decide, .inr ⟨rfl, by decide⟩, by decide, by decide, by decide⟩
  · exact ⟨by decide, by decide, by decide, .inl (by decide), by decide, by decide, by decide⟩
  · have hoffsets := (h.offsets 0 [⟨2, 5⟩] (by decide)).2
    revert hoffsets
    decide

end TongjiCode.Tokens
