import TongjiCode.MergeEditor.TextModelDiffs

/-!
# Diffs stay true

A part of the document is replaced, the diffs in front of it stay and those behind it move: the diffs still describe the
document.
-/

open List

namespace TongjiCode.MergeEditor

/-! ## Chains -/

variable {m : LineRangeMapping} {stop : Int}

section Chains

variable {pos pos' delta : Int} {ms ms' : List LineRangeMapping}

section

variable (h : ChainFrom pos delta ms)
include h

theorem ChainFrom.output_le (hm : m ∈ ms) :
    pos + delta ≤ m.outputRange.startLineNumber := by
  induction ms generalizing pos delta with
  | nil => cases hm
  | cons first ms ih =>
    obtain ⟨hstart, hout, hrest⟩ := h
    rcases mem_cons.mp hm with rfl | hm
    · omega
    · have := ih hrest hm
      have := first.outputRange.start_le_end
      have : first.resultingDeltaFromOriginalToModified =
        first.outputRange.endLineNumberExclusive - first.inputRange.endLineNumberExclusive := rfl
      omega

theorem ChainFrom.pairwise_apart :
    ms.Pairwise fun a b => a.inputRange.endLineNumberExclusive < b.inputRange.startLineNumber ∧
      a.outputRange.endLineNumberExclusive < b.outputRange.startLineNumber := by
  induction ms generalizing pos delta with
  | nil => exact List.Pairwise.nil
  | cons m ms ih =>
    obtain ⟨-, -, hrest⟩ := h
    refine pairwise_cons.mpr ⟨fun m' hm' => ?_, ih hrest⟩
    have := hrest.start_le hm'
    have := hrest.output_le hm'
    have : m.resultingDeltaFromOriginalToModified =
      m.outputRange.endLineNumberExclusive - m.inputRange.endLineNumberExclusive := rfl
    exact ⟨by omega, by omega⟩

theorem ChainFrom.append (h' : ChainFrom pos' (deltaAfter delta ms) ms')
    (hstart : ∀ m' ∈ ms', pos ≤ m'.inputRange.startLineNumber)
    (hapart : ∀ m ∈ ms, ∀ m' ∈ ms', m.inputRange.endLineNumberExclusive < m'.inputRange.startLineNumber) :
    ChainFrom pos delta (ms ++ ms') := by
  induction ms generalizing pos delta with
  | nil => exact h'.mono hstart
  | cons m ms ih =>
    refine ⟨h.1, h.2.1, ih h.2.2 h' (fun m' hm' => ?_) fun first hfirst => hapart first (mem_cons_of_mem _ hfirst)⟩
    have := hapart m mem_cons_self m' hm'
    omega

omit h in
theorem ChainFrom.delta_eq (h : ChainFrom pos delta (m :: ms)) :
    m.resultingDeltaFromOriginalToModified = delta + (m.outputRange.lineCount - m.inputRange.lineCount) := by
  obtain ⟨-, hout, -⟩ := h
  unfold LineRangeMapping.resultingDeltaFromOriginalToModified LineRange.endLineNumberExclusive
  omega

theorem ChainFrom.shift (k : Int) :
    ChainFrom pos (delta + k) (ms.map (·.addOutputLineDelta k)) := by
  induction ms generalizing pos delta with
  | nil => trivial
  | cons m ms ih =>
    obtain ⟨hstart, hout, hrest⟩ := h
    have hdelta : (m.addOutputLineDelta k).resultingDeltaFromOriginalToModified = m.resultingDeltaFromOriginalToModified + k := by
      unfold LineRangeMapping.resultingDeltaFromOriginalToModified LineRangeMapping.addOutputLineDelta LineRange.delta
        LineRange.endLineNumberExclusive
      dsimp only
      omega
    refine ⟨hstart, ?_, ?_⟩
    · show m.outputRange.startLineNumber + k = m.inputRange.startLineNumber + (delta + k)
      omega
    · rw [hdelta]
      exact ih hrest

/-- How far the output is ahead at the line `stop` behind the mappings. -/
theorem ChainFrom.output_after (hle : pos ≤ stop) (hstop : ∀ m ∈ ms, m.inputRange.endLineNumberExclusive < stop) :
    pos + delta ≤ stop + deltaAfter delta ms ∧ (ms ≠ [] → pos + delta < stop + deltaAfter delta ms) ∧
      ∀ m ∈ ms, m.outputRange.endLineNumberExclusive ≤ stop + deltaAfter delta ms := by
  induction ms generalizing pos delta with
  | nil => exact ⟨by show pos + delta ≤ stop + delta; omega, fun hne => absurd rfl hne, fun _ hm => nomatch hm⟩
  | cons m ms ih =>
    obtain ⟨hstart, hout, hrest⟩ := h
    have hm := hstop m mem_cons_self
    have houtput := m.outputRange.start_le_end
    have hdelta : m.resultingDeltaFromOriginalToModified =
      m.outputRange.endLineNumberExclusive - m.inputRange.endLineNumberExclusive := rfl
    obtain ⟨hih, -, hends⟩ := ih hrest (by omega) fun m' hm' => hstop m' (mem_cons_of_mem _ hm')
    have hsame : deltaAfter delta (m :: ms) = deltaAfter m.resultingDeltaFromOriginalToModified ms := rfl
    refine ⟨by omega, fun _ => by omega, fun m' hm' => ?_⟩
    rcases mem_cons.mp hm' with rfl | hm'
    · omega
    · exact hends m' hm'

end

theorem ChainFrom.valid (h : ChainFrom pos 0 ms) : Valid ms := by
  refine ⟨fun m hm => ?_, ?_⟩
  · cases ms with
    | nil => cases hm
    | cons first ms =>
      cases hm
      have := h.2.1
      omega
  · have hchain : ∀ (ms : List LineRangeMapping) (pos delta : Int), ChainFrom pos delta ms → ms.IsChain fun m1 m2 =>
        m1.inputRange.endLineNumberExclusive < m2.inputRange.startLineNumber ∧
          m2.outputRange.startLineNumber - m1.outputRange.endLineNumberExclusive =
            m2.inputRange.startLineNumber - m1.inputRange.endLineNumberExclusive := by
      intro ms
      induction ms with
      | nil => exact fun _ _ _ => List.IsChain.nil
      | cons m ms ih =>
        intro pos delta h
        have hrest := ih _ _ h.2.2
        cases ms with
        | nil => exact List.IsChain.singleton m
        | cons next ms =>
          obtain ⟨-, -, hstart, hout, -⟩ := h
          have : m.resultingDeltaFromOriginalToModified =
            m.outputRange.endLineNumberExclusive - m.inputRange.endLineNumberExclusive := rfl
          exact isChain_cons_cons.mpr ⟨⟨by omega, by omega⟩, hrest⟩
    exact hchain ms pos 0 h

end Chains

/-! ## Replacing a part of the document -/

variable {pre ms' : List LineRangeMapping}

section Splicing

variable {α : Type} {base doc doc' : List α} {pos delta : Int}

variable {a b : Int}

theorem slice_eq_drop_take (lines : List α) (ha : 1 ≤ a) :
    slice lines a b = (lines.take (b - 1).toNat).drop (a - 1).toNat := by
  unfold slice
  rw [drop_take]
  congr 1
  omega

variable {ms : List LineRangeMapping}

section

variable (h : Matches base doc pos delta (pre ++ ms)) (hchain : ChainFrom pos delta pre) (hpos : 1 ≤ pos)
variable (hdelta : 1 ≤ pos + delta)
include h hchain hpos hdelta

/-- The mappings in front of the line `stop` see only the document in front of it. -/
theorem Matches.head (hle : pos ≤ stop) (hinside : ∀ m ∈ pre, m.inputRange.endLineNumberExclusive < stop)
    (hms : ∀ m ∈ ms, stop ≤ m.inputRange.startLineNumber) (hms' : ∀ m ∈ ms', stop ≤ m.inputRange.startLineNumber)
    (hstop : stop ≤ base.length + 1)
    (hsame : ∀ a b, 1 ≤ a → b ≤ stop + deltaAfter delta pre → slice doc' a b = slice doc a b) :
    replaceFrom base doc' pos (pre ++ ms') =
      slice doc (pos + delta) (stop + deltaAfter delta pre) ++ replaceFrom base doc' stop ms' := by
  induction pre generalizing pos delta with
  | nil =>
    rw [nil_append, replaceFrom_split hpos hle hms', (h.advance hpos hdelta hle hms hstop).1]
    rfl
  | cons m pre ih =>
    have hmOutEnd := (hchain.output_after hle hinside).2.2 m mem_cons_self
    have hmEnd := hinside m mem_cons_self
    have hmInput := m.inputRange.start_le_end
    have hmOutput := m.outputRange.start_le_end
    obtain ⟨hgap, hat, hpositive⟩ := h.step ⟨hchain.1, hchain.2.1, trivial⟩ hpos hdelta
      (hchain.later (by omega) hms) (by omega)
    have hstart := hchain.1
    have hout := hchain.2.1
    have hih := ih hat hchain.tail (by omega) hpositive (by omega) (fun m' hm' => hinside m' (mem_cons_of_mem _ hm')) hsame
    have hdeltaAfter : deltaAfter delta (m :: pre) = deltaAfter m.resultingDeltaFromOriginalToModified pre := rfl
    have hend : m.inputRange.endLineNumberExclusive + m.resultingDeltaFromOriginalToModified =
        m.outputRange.endLineNumberExclusive := by
      unfold LineRangeMapping.resultingDeltaFromOriginalToModified
      omega
    show slice base pos m.inputRange.startLineNumber ++ (slice doc' m.outputRange.startLineNumber
      m.outputRange.endLineNumberExclusive ++ replaceFrom base doc' m.inputRange.endLineNumberExclusive (pre ++ ms')) = _
    rw [hih, hgap, hdeltaAfter, hsame _ _ (by omega) hmOutEnd, hend, ← append_assoc,
      slice_append hdelta (by omega) (by omega), ← append_assoc, slice_append hdelta (by omega) (by omega)]

theorem Matches.stop_le (hlength : pos + delta ≤ doc.length + 1) (hle : pos ≤ stop)
    (hinside : ∀ m ∈ pre, m.inputRange.endLineNumberExclusive < stop)
    (hout : ∀ m ∈ pre, m.outputRange.endLineNumberExclusive ≤ doc.length + 1)
    (hms : ∀ m ∈ ms, stop ≤ m.inputRange.startLineNumber) (hstop : stop ≤ base.length + 1) :
    stop + deltaAfter delta pre ≤ doc.length + 1 := by
  induction pre generalizing pos delta with
  | nil =>
    have hgap := congrArg List.length (h.advance hpos hdelta hle hms hstop).1
    rw [length_slice hpos hle hstop] at hgap
    unfold slice at hgap
    rw [length_take, length_drop] at hgap
    show stop + delta ≤ doc.length + 1
    omega
  | cons m pre ih =>
    have hmEnd := hinside m mem_cons_self
    have hmInput := m.inputRange.start_le_end
    obtain ⟨-, hat, hpositive⟩ := h.step ⟨hchain.1, hchain.2.1, trivial⟩ hpos hdelta
      (hchain.later (by omega) hms) (by omega)
    have hstart := hchain.1
    refine ih hat hchain.tail (by omega) hpositive ?_ (by omega) (fun m' hm' => hinside m' (mem_cons_of_mem _ hm'))
      fun m' hm' => hout m' (mem_cons_of_mem _ hm')
    have := hout m mem_cons_self
    show m.inputRange.endLineNumberExclusive +
      (m.outputRange.endLineNumberExclusive - m.inputRange.endLineNumberExclusive) ≤ _
    omega

end

/-- The mappings behind a place see only the document behind it. -/
theorem replaceFrom_shift {start k : Int} (hstart : ∀ m ∈ ms, start ≤ m.outputRange.startLineNumber)
    (hsame : ∀ a b, start ≤ a → slice doc' (a + k) (b + k) = slice doc a b) :
    replaceFrom base doc' pos (ms.map (·.addOutputLineDelta k)) = replaceFrom base doc pos ms := by
  induction ms generalizing pos with
  | nil => rfl
  | cons m ms ih =>
    have hend : (m.outputRange.delta k).endLineNumberExclusive = m.outputRange.endLineNumberExclusive + k := by
      unfold LineRange.endLineNumberExclusive LineRange.delta
      dsimp only
      omega
    show slice base pos m.inputRange.startLineNumber ++ (slice doc' (m.outputRange.startLineNumber + k)
      (m.outputRange.delta k).endLineNumberExclusive ++ replaceFrom base doc' m.inputRange.endLineNumberExclusive _) = _
    rw [hend, hsame _ _ (hstart m mem_cons_self), ih fun m' hm' => hstart m' (mem_cons_of_mem _ hm')]
    rfl

/-- The document with the lines between two line numbers replaced. -/
def spliced (doc : List α) (start stop : Int) (mid : List α) : List α :=
  doc.take (start - 1).toNat ++ mid ++ doc.drop (stop - 1).toNat

variable {start stop : Int} {mid : List α}

section

variable (hstart : 1 ≤ start) (hle : start ≤ stop) (hstop : stop ≤ doc.length + 1)
include hstart hle hstop

theorem length_spliced :
    ((spliced doc start stop mid).length : Int) = doc.length + (mid.length - (stop - start)) := by
  unfold spliced
  rw [length_append, length_append, length_take, length_drop]
  omega

omit hstart hle hstop in
theorem slice_spliced_front (hstop : start ≤ doc.length + 1) (ha : 1 ≤ a) (hb : b ≤ start) :
    slice (spliced doc start stop mid) a b = slice doc a b := by
  have htake : (spliced doc start stop mid).take (b - 1).toNat = doc.take (b - 1).toNat := by
    unfold spliced
    rw [append_assoc, take_append_of_le_length (by rw [length_take]; omega), take_take]
    congr 1
    omega
  rw [slice_eq_drop_take _ ha, slice_eq_drop_take _ ha, htake]

theorem drop_spliced (ha : stop ≤ a) :
    (spliced doc start stop mid).drop (a + (mid.length - (stop - start)) - 1).toNat = doc.drop (a - 1).toNat := by
  unfold spliced
  have hlength : (doc.take (start - 1).toNat ++ mid).length = (start - 1).toNat + mid.length := by
    rw [length_append, length_take]
    omega
  have hcount : (a + (mid.length - (stop - start)) - 1).toNat =
      (doc.take (start - 1).toNat ++ mid).length + ((a - 1).toNat - (stop - 1).toNat) := by
    omega
  rw [hcount, drop_length_add_append, drop_drop]
  congr 1
  omega

theorem slice_spliced_behind (ha : stop ≤ a) :
    slice (spliced doc start stop mid) (a + (mid.length - (stop - start))) (b + (mid.length - (stop - start))) =
      slice doc a b := by
  unfold slice
  rw [drop_spliced hstart hle hstop ha]
  congr 1
  omega

end

theorem slice_spliced_mid (hstop : start ≤ doc.length + 1) :
    slice (spliced doc start stop mid) start (start + mid.length) = mid := by
  unfold slice spliced
  have hlength : (doc.take (start - 1).toNat).length = (start - 1).toNat := by
    rw [length_take]
    omega
  have hcount : (start + mid.length - start).toNat = mid.length := by omega
  rw [append_assoc, drop_append_of_le_length (by omega), drop_eq_nil_of_le (by omega), nil_append, hcount,
    take_left]

end Splicing

/-! ## Diffs that are up to date -/

namespace TextModelDiffs

/-- The diffs describe the document. -/
structure UpToDate (s : TextModelDiffs) : Prop where
  baseLine : ∀ line ∈ s.baseLines, IsLine line
  line : ∀ line ∈ s.lines, IsLine line
  base : s.baseLines ≠ []
  nonempty : s.lines ≠ []
  valid : Valid s.diffs
  describes : Describes s.baseLines s.lines s.diffs

variable {edit : LineRangeEdit}

section Replacing

variable {s : TextModelDiffs}

theorem UpToDate.chain (h : s.UpToDate) : ChainFrom 1 0 s.diffs :=
  h.valid.chainFrom fun m hm => (h.describes.1 m hm).1

theorem UpToDate.agrees (h : s.UpToDate) : Matches s.baseLines s.lines 1 0 s.diffs := h.describes.2

/-- A place in front of which there are the diffs `pre` and behind which there are the diffs `post`: from the line `start` to
the line `stop` the base is the document from `start + deltaAfter 0 pre` to `docStop` or a diff. -/
structure Place (s : TextModelDiffs) (pre post : List LineRangeMapping) (start stop docStop : Int) : Prop where
  pos : 1 ≤ start
  le : start ≤ stop
  length : stop ≤ s.baseLines.length + 1
  inside : ∀ m ∈ pre, m.inputRange.endLineNumberExclusive < start
  behind : ∀ m ∈ post, stop < m.inputRange.startLineNumber
  docPos : 1 ≤ start + deltaAfter 0 pre
  docLe : start + deltaAfter 0 pre ≤ docStop
  docLength : docStop ≤ s.lines.length + 1
  chain : ChainFrom 1 0 pre
  chainPost : ChainFrom (stop + 1) (docStop - stop) post
  agrees : Matches s.baseLines s.lines stop (docStop - stop) post
  /-- What the base in front of the place becomes. -/
  head : ∀ doc' ms', (∀ m ∈ ms', start ≤ m.inputRange.startLineNumber) →
    (∀ a b, 1 ≤ a → b ≤ start + deltaAfter 0 pre → slice doc' a b = slice s.lines a b) →
    replaceFrom s.baseLines doc' 1 (pre ++ ms') =
      slice s.lines 1 (start + deltaAfter 0 pre) ++ replaceFrom s.baseLines doc' start ms'

variable {post : List LineRangeMapping}

theorem UpToDate.place_diff (h : s.UpToDate) {d : LineRangeMapping} (hdiffs : s.diffs = pre ++ d :: post) :
    s.Place pre post d.inputRange.startLineNumber d.inputRange.endLineNumberExclusive d.outputRange.endLineNumberExclusive ∧
      d.outputRange.startLineNumber = d.inputRange.startLineNumber + deltaAfter 0 pre := by
  have hchain := h.chain
  have hmatches := h.agrees
  have hin := h.describes.1
  rw [hdiffs] at hchain hmatches hin
  obtain ⟨-, hpost, hapart⟩ := pairwise_append.mp hchain.pairwise_apart
  have hbehind := (pairwise_cons.mp hpost).1
  obtain ⟨hdPos, hdEnd, hdOut⟩ := hin d (mem_append_right _ mem_cons_self)
  have hinput := d.inputRange.start_le_end
  have houtput := d.outputRange.start_le_end
  have hinside : ∀ m ∈ pre, m.inputRange.endLineNumberExclusive < d.inputRange.startLineNumber :=
    fun m hm => (hapart m hm d mem_cons_self).1
  have hrest : ∀ m ∈ d :: post, d.inputRange.startLineNumber ≤ m.inputRange.startLineNumber := by
    intro m hm
    rcases mem_cons.mp hm with rfl | hm
    · exact Int.le_refl _
    · have := (hbehind m hm).1
      omega
  obtain ⟨hat, hpositive⟩ := hmatches.group hchain.left (by decide) (by decide) hdPos
    (fun m hm => Int.le_of_lt (hinside m hm)) hrest (by omega)
  obtain ⟨-, hout, hchainPost⟩ := hchain.of_append
  refine ⟨⟨hdPos, hinput, hdEnd, hinside, fun m hm => (hbehind m hm).1, hpositive, by omega, hdOut, hchain.left, hchainPost,
    hat.pass hout (by omega), fun doc' ms' hms' hsame => ?_⟩, hout⟩
  exact hmatches.head hchain.left (by decide) (by decide) hdPos hinside hrest hms' (by omega) hsame

theorem UpToDate.place_gap (h : s.UpToDate) (hdiffs : s.diffs = pre ++ post) {range : LineRange}
    (hpos : 1 ≤ range.startLineNumber) (hend : range.endLineNumberExclusive ≤ s.baseLines.length + 1)
    (hinside : ∀ m ∈ pre, m.inputRange.endLineNumberExclusive < range.startLineNumber)
    (hbehind : ∀ m ∈ post, range.endLineNumberExclusive < m.inputRange.startLineNumber) :
    s.Place pre post range.startLineNumber range.endLineNumberExclusive (range.endLineNumberExclusive + deltaAfter 0 pre) := by
  have hchain := h.chain
  have hmatches := h.agrees
  have hin := h.describes.1
  rw [hdiffs] at hchain hmatches hin
  have hrange := range.start_le_end
  have hrest : ∀ m ∈ post, range.startLineNumber ≤ m.inputRange.startLineNumber := fun m hm => by
    have := hbehind m hm
    omega
  have hrest' : ∀ m ∈ post, range.endLineNumberExclusive ≤ m.inputRange.startLineNumber := fun m hm =>
    Int.le_of_lt (hbehind m hm)
  have hinside' : ∀ m ∈ pre, m.inputRange.endLineNumberExclusive < range.endLineNumberExclusive := fun m hm => by
    have := hinside m hm
    omega
  obtain ⟨-, hpositive⟩ := hmatches.group hchain.left (by decide) (by decide) hpos
    (fun m hm => Int.le_of_lt (hinside m hm)) hrest (by omega)
  obtain ⟨hat, -⟩ := hmatches.group hchain.left (by decide) (by decide) (by omega)
    (fun m hm => Int.le_of_lt (hinside' m hm)) hrest' hend
  have hlength := hmatches.stop_le hchain.left (by decide) (by decide) (by omega) (by omega) hinside'
    (fun m hm => (hin m (mem_append_left _ hm)).2.2) hrest' hend
  have hdelta : range.endLineNumberExclusive + deltaAfter 0 pre - range.endLineNumberExclusive = deltaAfter 0 pre := by omega
  refine ⟨hpos, hrange, hend, hinside, hbehind, hpositive, by omega, hlength, hchain.left, ?_, ?_, fun doc' ms' hms' hsame => ?_⟩
  · rw [hdelta]
    exact hchain.of_append.mono fun m hm => hbehind m hm
  · rw [hdelta]
    exact hat
  · exact hmatches.head hchain.left (by decide) (by decide) hpos hinside hrest hms' (by omega) hsame

variable {pre post : List LineRangeMapping} {start stop docStop : Int} {mid : List JsString}

section

variable (h : s.Place pre post start stop docStop)
include h

theorem Place.behind_eq :
    replaceFrom s.baseLines (spliced s.lines (start + deltaAfter 0 pre) docStop mid) stop
        (post.map (·.addOutputLineDelta (mid.length - (docStop - (start + deltaAfter 0 pre))))) =
      s.lines.drop (docStop - 1).toNat := by
  have hagrees := h.agrees
  unfold Matches at hagrees
  have hsame : stop + (docStop - stop) - 1 = docStop - 1 := by omega
  rw [hsame] at hagrees
  rw [← hagrees]
  refine replaceFrom_shift (fun m hm => ?_) fun a b ha => slice_spliced_behind h.docPos h.docLe h.docLength ha
  have := h.chainPost.output_le hm
  omega

/-- Diffs that give the new lines of the place describe the new document. -/
theorem Place.describes (hms' : ∀ m ∈ ms', start ≤ m.inputRange.startLineNumber)
    (heq : replaceFrom s.baseLines (spliced s.lines (start + deltaAfter 0 pre) docStop mid) start ms' = mid ++ s.lines.drop (docStop - 1).toNat) :
    replaceLines s.baseLines (spliced s.lines (start + deltaAfter 0 pre) docStop mid) (pre ++ ms') =
      spliced s.lines (start + deltaAfter 0 pre) docStop mid := by
  have hdocLe := h.docLe
  have hdocLength := h.docLength
  unfold replaceLines
  rw [h.head _ ms' hms' fun a b ha hb => slice_spliced_front (by omega) ha hb, heq]
  unfold spliced slice
  have hfirst : ((1 : Int) - 1).toNat = 0 := rfl
  rw [hfirst, drop_zero, append_assoc]

/-- Diffs in front of the place and moved diffs behind it are about lines of the new document. -/
theorem Place.bounds (hpre : ∀ m ∈ pre, m ∈ s.diffs) (hpost : ∀ m ∈ post, m ∈ s.diffs) (hs : s.UpToDate)
    (hm : m ∈ pre ∨ m ∈ post.map (·.addOutputLineDelta (mid.length - (docStop - (start + deltaAfter 0 pre))))) :
    1 ≤ m.inputRange.startLineNumber ∧ m.inputRange.endLineNumberExclusive ≤ s.baseLines.length + 1 ∧
      m.outputRange.endLineNumberExclusive ≤ (spliced s.lines (start + deltaAfter 0 pre) docStop mid).length + 1 := by
  have hlength := @length_spliced _ s.lines _ _ mid h.docPos h.docLe h.docLength
  have hdocLength := h.docLength
  rcases hm with hm | hm
  · obtain ⟨hstart, hend, -⟩ := hs.describes.1 m (hpre m hm)
    have := (h.chain.output_after h.pos h.inside).2.2 m hm
    exact ⟨hstart, hend, by omega⟩
  · obtain ⟨m, hmem, rfl⟩ := mem_map.mp hm
    obtain ⟨hstart, hend, hout⟩ := hs.describes.1 m (hpost m hmem)
    refine ⟨hstart, hend, ?_⟩
    have hmoved : (m.addOutputLineDelta (mid.length - (docStop - (start + deltaAfter 0 pre)))).outputRange.endLineNumberExclusive =
        m.outputRange.endLineNumberExclusive + (mid.length - (docStop - (start + deltaAfter 0 pre))) := by
      unfold LineRangeMapping.addOutputLineDelta LineRange.delta LineRange.endLineNumberExclusive
      dsimp only
      omega
    omega

end

theorem isLine_spliced {start stop : Int} (hlines : ∀ line ∈ s.lines, IsLine line) (hmid : ∀ line ∈ mid, IsLine line) :
    ∀ line ∈ spliced s.lines start stop mid, IsLine line := by
  intro line hline
  unfold spliced at hline
  rw [mem_append, mem_append] at hline
  rcases hline with (hline | hline) | hline
  · exact hlines line (mem_of_mem_take hline)
  · exact hmid line hline
  · exact hlines line (mem_of_mem_drop hline)

/-- If nothing is left at the place, the document still has a line of the base. -/
theorem Place.nonempty (h : s.Place pre post start stop docStop) (hs : s.UpToDate) (hempty : mid = [] → start = stop) :
    spliced s.lines (start + deltaAfter 0 pre) docStop mid ≠ [] := by
  intro hnil
  unfold spliced at hnil
  rw [append_eq_nil_iff, append_eq_nil_iff] at hnil
  obtain ⟨⟨htake, hmid⟩, hdrop⟩ := hnil
  have hlength := length_pos_iff.mpr hs.nonempty
  have hbase := length_pos_iff.mpr hs.base
  have hfirst : start + deltaAfter 0 pre = 1 := by
    have := congrArg List.length htake
    rw [length_take, length_nil] at this
    have := h.docPos
    omega
  -- there is an unchanged line in front of the place if there is a diff in front of it
  have hpre : pre = [] := by
    by_contra hne
    have := (h.chain.output_after h.pos h.inside).2.1 hne
    omega
  subst hpre
  have hstart : start = 1 := by
    have : deltaAfter 0 ([] : List LineRangeMapping) = 0 := rfl
    omega
  have hagrees := h.agrees
  unfold Matches at hagrees
  have hsame : stop + (docStop - stop) - 1 = docStop - 1 := by omega
  rw [hsame, hdrop, ← hempty hmid, hstart] at hagrees
  cases post with
  | nil => exact hs.base hagrees
  | cons m post =>
    have hbehind := h.behind m mem_cons_self
    have hgap := congrArg List.length (append_eq_nil_iff.mp hagrees).1
    unfold slice at hgap
    rw [length_take, length_drop, length_nil] at hgap
    have := hempty hmid
    omega

theorem UpToDate.remove (h : s.UpToDate) {d : LineRangeMapping} (hdiffs : s.diffs = pre ++ d :: post) :
    (⟨s.baseLines, spliced s.lines d.outputRange.startLineNumber d.outputRange.endLineNumberExclusive
        (slice s.baseLines d.inputRange.startLineNumber d.inputRange.endLineNumberExclusive),
      pre ++ post.map (·.addOutputLineDelta (d.inputRange.lineCount - d.outputRange.lineCount))⟩ : TextModelDiffs).UpToDate := by
  obtain ⟨hplace, hout⟩ := h.place_diff hdiffs
  have hlength : (slice s.baseLines d.inputRange.startLineNumber d.inputRange.endLineNumberExclusive).length =
      d.inputRange.lineCount := by
    rw [length_slice hplace.pos hplace.le hplace.length]
    unfold LineRange.endLineNumberExclusive
    omega
  have hk : (d.inputRange.lineCount : Int) - d.outputRange.lineCount =
      (slice s.baseLines d.inputRange.startLineNumber d.inputRange.endLineNumberExclusive).length -
        (d.outputRange.endLineNumberExclusive - (d.inputRange.startLineNumber + deltaAfter 0 pre)) := by
    rw [hlength, ← hout]
    unfold LineRange.endLineNumberExclusive
    omega
  have hshifted : ∀ m ∈ post.map (·.addOutputLineDelta ((slice s.baseLines d.inputRange.startLineNumber
      d.inputRange.endLineNumberExclusive).length - (d.outputRange.endLineNumberExclusive -
        (d.inputRange.startLineNumber + deltaAfter 0 pre)))), d.inputRange.endLineNumberExclusive < m.inputRange.startLineNumber := by
    intro m hm
    obtain ⟨m, hmem, rfl⟩ := mem_map.mp hm
    exact hplace.behind m hmem
  have hinput := hplace.le
  rw [hk, hout]
  refine ⟨h.baseLine, isLine_spliced h.line ?_, h.base, ?_, ?_, ?_, ?_⟩
  · intro line hline
    exact h.baseLine line (mem_of_mem_drop (mem_of_mem_take hline))
  · refine hplace.nonempty h fun hempty => ?_
    rw [hempty] at hlength
    have : d.inputRange.lineCount = 0 := hlength.symm
    unfold LineRange.endLineNumberExclusive
    omega
  · have hchain := hplace.chainPost.shift ((slice s.baseLines d.inputRange.startLineNumber
      d.inputRange.endLineNumberExclusive).length - (d.outputRange.endLineNumberExclusive -
        (d.inputRange.startLineNumber + deltaAfter 0 pre)))
    have hdelta : d.outputRange.endLineNumberExclusive - d.inputRange.endLineNumberExclusive +
        ((slice s.baseLines d.inputRange.startLineNumber d.inputRange.endLineNumberExclusive).length -
          (d.outputRange.endLineNumberExclusive - (d.inputRange.startLineNumber + deltaAfter 0 pre))) = deltaAfter 0 pre := by
      rw [hlength]
      unfold LineRange.endLineNumberExclusive
      omega
    rw [hdelta] at hchain
    have hpos := hplace.pos
    refine (hplace.chain.append hchain (fun m hm => ?_) fun m hm m' hm' => ?_).valid
    · have := hshifted m hm
      omega
    · have := hplace.inside m hm
      have := hshifted m' hm'
      omega
  · intro m hm
    refine hplace.bounds ?_ ?_ h (mem_append.mp hm)
    · rw [hdiffs]
      exact fun m hm => mem_append_left _ hm
    · rw [hdiffs]
      exact fun m hm => mem_append_right _ (mem_cons_of_mem _ hm)
  · refine hplace.describes (fun m hm => ?_) ?_
    · have := hshifted m hm
      omega
    · rw [replaceFrom_split hplace.pos hinput fun m hm => Int.le_of_lt (hshifted m hm), hplace.behind_eq]

theorem UpToDate.insert (h : s.UpToDate) (hdiffs : s.diffs = pre ++ post) (hpos : 1 ≤ edit.range.startLineNumber)
    (hend : edit.range.endLineNumberExclusive ≤ s.baseLines.length + 1)
    (hinside : ∀ m ∈ pre, m.inputRange.endLineNumberExclusive < edit.range.startLineNumber)
    (hbehind : ∀ m ∈ post, edit.range.endLineNumberExclusive < m.inputRange.startLineNumber)
    (hnew : ∀ line ∈ edit.newLines, IsLine line)
    (hresult : spliced s.lines (edit.range.startLineNumber + deltaAfter 0 pre) (edit.range.endLineNumberExclusive + deltaAfter 0 pre) edit.newLines ≠ []) :
    (⟨s.baseLines, spliced s.lines (edit.range.startLineNumber + deltaAfter 0 pre)
        (edit.range.endLineNumberExclusive + deltaAfter 0 pre) edit.newLines,
      pre ++ (editMapping edit).addOutputLineDelta (deltaAfter 0 pre) ::
        post.map (·.addOutputLineDelta (edit.newLines.length - edit.range.lineCount))⟩ : TextModelDiffs).UpToDate := by
  have hplace := h.place_gap hdiffs hpos hend hinside hbehind
  have hrange : edit.range.endLineNumberExclusive = edit.range.startLineNumber + edit.range.lineCount := rfl
  have hk : (edit.newLines.length : Int) - edit.range.lineCount =
      edit.newLines.length - (edit.range.endLineNumberExclusive + deltaAfter 0 pre -
        (edit.range.startLineNumber + deltaAfter 0 pre)) := by omega
  have houtEnd : ((editMapping edit).addOutputLineDelta (deltaAfter 0 pre)).outputRange.endLineNumberExclusive =
      edit.range.startLineNumber + deltaAfter 0 pre + edit.newLines.length := rfl
  have hshifted : ∀ m ∈ post.map (·.addOutputLineDelta ((edit.newLines.length : Int) - edit.range.lineCount)),
      edit.range.endLineNumberExclusive < m.inputRange.startLineNumber := by
    intro m hm
    obtain ⟨m, hmem, rfl⟩ := mem_map.mp hm
    exact hbehind m hmem
  have hstart : ∀ m ∈ (editMapping edit).addOutputLineDelta (deltaAfter 0 pre) ::
      post.map (·.addOutputLineDelta ((edit.newLines.length : Int) - edit.range.lineCount)),
      edit.range.startLineNumber ≤ m.inputRange.startLineNumber := by
    intro m hm
    rcases mem_cons.mp hm with rfl | hm
    · exact Int.le_refl _
    · have := hshifted m hm
      omega
  refine ⟨h.baseLine, isLine_spliced h.line hnew, h.base, hresult, ?_, ?_, ?_⟩
  · have hchain : ChainFrom edit.range.startLineNumber (deltaAfter 0 pre)
        ((editMapping edit).addOutputLineDelta (deltaAfter 0 pre) ::
          post.map (·.addOutputLineDelta ((edit.newLines.length : Int) - edit.range.lineCount))) := by
      refine ⟨Int.le_refl _, rfl, ?_⟩
      have hpost := hplace.chainPost.shift ((edit.newLines.length : Int) - edit.range.lineCount)
      have hdelta : ((editMapping edit).addOutputLineDelta (deltaAfter 0 pre)).resultingDeltaFromOriginalToModified =
          edit.range.endLineNumberExclusive + deltaAfter 0 pre - edit.range.endLineNumberExclusive +
            (edit.newLines.length - edit.range.lineCount) := by
        show ((editMapping edit).addOutputLineDelta (deltaAfter 0 pre)).outputRange.endLineNumberExclusive -
          edit.range.endLineNumberExclusive = _
        omega
      rw [hdelta]
      exact hpost
    refine (hplace.chain.append hchain (fun m hm => ?_) fun m hm m' hm' => ?_).valid
    · exact Int.le_trans hpos (hstart m hm)
    · exact Int.lt_of_lt_of_le (hinside m hm) (hstart m' hm')
  · intro m hm
    dsimp only at hm ⊢
    rw [mem_append, mem_cons] at hm
    have hlength := @length_spliced _ s.lines _ _ edit.newLines hplace.docPos hplace.docLe hplace.docLength
    have hdocLength := hplace.docLength
    rcases hm with hm | rfl | hm
    · refine hplace.bounds ?_ ?_ h (.inl hm)
      · rw [hdiffs]
        exact fun m hm => mem_append_left _ hm
      · rw [hdiffs]
        exact fun m hm => mem_append_right _ hm
    · exact ⟨hpos, hend, by omega⟩
    · rw [hk] at hm
      refine hplace.bounds ?_ ?_ h (.inr hm)
      · rw [hdiffs]
        exact fun m hm => mem_append_left _ hm
      · rw [hdiffs]
        exact fun m hm => mem_append_right _ hm
  · refine hplace.describes hstart ?_
    have hempty : slice s.baseLines edit.range.startLineNumber edit.range.startLineNumber = [] := by
      unfold slice
      rw [Int.sub_self]
      rfl
    show slice s.baseLines edit.range.startLineNumber edit.range.startLineNumber ++ (slice _ (edit.range.startLineNumber +
      deltaAfter 0 pre) ((editMapping edit).addOutputLineDelta (deltaAfter 0 pre)).outputRange.endLineNumberExclusive ++
        replaceFrom s.baseLines _ edit.range.endLineNumberExclusive _) = _
    have hdocLength := hplace.docLength
    rw [hempty, nil_append, houtEnd, slice_spliced_mid (by omega), hk, hplace.behind_eq]

end Replacing

/-! ## Calls -/

section Calls

variable {s : TextModelDiffs}

variable {diffs : List LineRangeMapping}

theorem applyLoop_after {delta : Int} (h : ∀ m ∈ diffs, edit.range.endLineNumberExclusive < m.inputRange.startLineNumber) :
    applyLoop edit true delta diffs =
      some (diffs.map (·.addOutputLineDelta (edit.newLines.length - edit.range.lineCount)), delta) := by
  induction diffs with
  | nil => rfl
  | cons diff diffs ih =>
    have hdiff := h diff mem_cons_self
    have htouches : diff.inputRange.touches edit.range = false := by
      unfold LineRange.touches
      simp only [Bool.and_eq_false_iff, decide_eq_false_iff_not]
      omega
    have hafter : diff.inputRange.isAfter edit.range = true := by
      unfold LineRange.isAfter
      simp only [decide_eq_true_eq]
      omega
    unfold applyLoop
    rw [htouches, hafter, if_neg (by decide), if_pos rfl, ih fun m hm => h m (mem_cons_of_mem _ hm)]
    rfl

/-- The loop throws if a diff touches the edit, and otherwise puts the mapping of the edit between the diffs. -/
theorem applyLoop_spec (edit : LineRangeEdit) {pos delta : Int} (h : ChainFrom pos delta diffs) :
    (applyLoop edit false delta diffs = none ∧ ∃ m ∈ diffs, m.inputRange.touches edit.range = true) ∨
      ∃ pre post, diffs = pre ++ post ∧ (∀ m ∈ pre, m.inputRange.endLineNumberExclusive < edit.range.startLineNumber) ∧
        (∀ m ∈ post, edit.range.endLineNumberExclusive < m.inputRange.startLineNumber) ∧
        applyLoop edit false delta diffs =
          some (pre ++ (editMapping edit).addOutputLineDelta (deltaAfter delta pre) ::
            post.map (·.addOutputLineDelta (edit.newLines.length - edit.range.lineCount)), deltaAfter delta pre) := by
  induction diffs generalizing pos delta with
  | nil => exact .inr ⟨[], [], rfl, fun _ hm => (nomatch hm), fun _ hm => (nomatch hm), rfl⟩
  | cons diff diffs ih =>
    have hrange := edit.range.start_le_end
    have hinput := diff.inputRange.start_le_end
    unfold applyLoop
    by_cases htouches : diff.inputRange.touches edit.range = true
    · rw [if_pos htouches]
      exact .inl ⟨rfl, diff, mem_cons_self, htouches⟩
    rw [if_neg htouches]
    unfold LineRange.touches at htouches
    simp only [Bool.and_eq_true, decide_eq_true_eq, not_and] at htouches
    by_cases hafter : diff.inputRange.isAfter edit.range = true
    · rw [if_pos hafter]
      unfold LineRange.isAfter at hafter
      simp only [decide_eq_true_eq] at hafter
      have hbehind : ∀ m ∈ diff :: diffs, edit.range.endLineNumberExclusive < m.inputRange.startLineNumber := by
        intro m hm
        rcases mem_cons.mp hm with rfl | hm
        · omega
        · have := h.2.2.start_le hm
          omega
      refine .inr ⟨[], diff :: diffs, rfl, fun _ hm => (nomatch hm), hbehind, ?_⟩
      rw [applyLoop_after fun m hm => hbehind m (mem_cons_of_mem _ hm)]
      rfl
    · rw [if_neg hafter]
      unfold LineRange.isAfter at hafter
      simp only [decide_eq_true_eq] at hafter
      rw [if_neg (by decide), ← h.delta_eq]
      rcases ih h.2.2 with ⟨hnone, m, hm, htouch⟩ | ⟨pre, post, rfl, hinside, hbehind, hsome⟩
      · rw [hnone]
        exact .inl ⟨rfl, m, mem_cons_of_mem _ hm, htouch⟩
      · refine .inr ⟨diff :: pre, post, rfl, fun m hm => ?_, hbehind, ?_⟩
        · rcases mem_cons.mp hm with rfl | hm
          · omega
          · exact hinside m hm
        · rw [hsome]
          rfl

theorem UpToDate.applyEditRelativeToOriginal (h : s.UpToDate) (hpos : 1 ≤ edit.range.startLineNumber)
    (hend : edit.range.endLineNumberExclusive ≤ s.baseLines.length + 1) (hnew : ∀ line ∈ edit.newLines, IsLine line)
    (hresult : (∀ m ∈ s.diffs, m.inputRange.touches edit.range = false) → 0 < (s.lines.length : Int) - edit.range.lineCount + edit.newLines.length) :
    (s.applyEditRelativeToOriginal edit).1.UpToDate ∧
      ((s.applyEditRelativeToOriginal edit).2 = true → (s.applyEditRelativeToOriginal edit).1 = s) ∧
      ((s.applyEditRelativeToOriginal edit).2 = true ↔ ∃ m ∈ s.diffs, m.inputRange.touches edit.range = true) := by
  unfold TextModelDiffs.applyEditRelativeToOriginal
  rcases applyLoop_spec edit h.chain with ⟨hnone, htouches⟩ | ⟨pre, post, hdiffs, hinside, hbehind, hsome⟩
  · rw [hnone]
    exact ⟨h, fun _ => rfl, fun _ => htouches, fun _ => rfl⟩
  · rw [hsome]
    dsimp only
    have hplace := h.place_gap hdiffs hpos hend hinside hbehind
    have hrange : edit.range.endLineNumberExclusive = edit.range.startLineNumber + edit.range.lineCount := rfl
    have hdocPos := hplace.docPos
    have hdocLength := hplace.docLength
    have hlength := @length_spliced _ s.lines _ _ edit.newLines hplace.docPos hplace.docLe hplace.docLength
    have hapart : ∀ m ∈ s.diffs, m.inputRange.touches edit.range = false := by
      intro m hm
      rw [hdiffs, mem_append] at hm
      unfold LineRange.touches
      simp only [Bool.and_eq_false_iff, decide_eq_false_iff_not]
      rcases hm with hm | hm
      · have := hinside m hm
        omega
      · have := hbehind m hm
        omega
    have hpositive := hresult hapart
    have hne : spliced s.lines (edit.range.startLineNumber + deltaAfter 0 pre)
        (edit.range.endLineNumberExclusive + deltaAfter 0 pre) edit.newLines ≠ [] := by
      intro hnil
      rw [hnil, length_nil] at hlength
      omega
    have hpush : pushEditOperations s.lines ((LineRangeEdit.mk (edit.range.delta (deltaAfter 0 pre)) edit.newLines).toEdits
        s.lines.length) = spliced s.lines (edit.range.startLineNumber + deltaAfter 0 pre)
          (edit.range.endLineNumberExclusive + deltaAfter 0 pre) edit.newLines := by
      have hdeltaEnd : (edit.range.delta (deltaAfter 0 pre)).endLineNumberExclusive =
          edit.range.endLineNumberExclusive + deltaAfter 0 pre := by
        unfold LineRange.delta LineRange.endLineNumberExclusive
        dsimp only
        omega
      have hpushed := @pushEditOperations_eq s.lines ⟨edit.range.delta (deltaAfter 0 pre), edit.newLines⟩ hdocPos
        (by dsimp only; rw [hdeltaEnd]; omega) hnew (by dsimp only; rw [hdeltaEnd]; exact hne)
      rw [hdeltaEnd] at hpushed
      exact hpushed
    rw [hpush]
    refine ⟨h.insert hdiffs hpos hend hinside hbehind hnew hne, fun hfalse => (by cases hfalse), fun hfalse => (by cases hfalse), ?_⟩
    rintro ⟨m, hm, htouches⟩
    rw [hapart m hm] at htouches
    cases htouches

theorem UpToDate.remove_step (h : s.UpToDate) {d : LineRangeMapping} {pre post diffToRemoves : List LineRangeMapping}
    (hdiffs : s.diffs = pre ++ d :: post) :
    ∃ s' : TextModelDiffs, s'.UpToDate ∧ s'.baseLines = s.baseLines ∧ (∀ m ∈ pre, m ∈ s'.diffs) ∧
      removeLoop s.baseLines s.lines s.diffs (d :: diffToRemoves) =
        removeLoop s'.baseLines s'.lines s'.diffs diffToRemoves := by
  have hremoved := h.remove hdiffs
  obtain ⟨hplace, hout⟩ := h.place_diff hdiffs
  refine ⟨_, hremoved, rfl, fun m hm => mem_append_left _ hm, ?_⟩
  have hchain := h.chain
  rw [hdiffs] at hchain
  obtain ⟨-, hpost, hapart⟩ := pairwise_append.mp hchain.pairwise_apart
  have hbehind := (pairwise_cons.mp hpost).1
  have hinput := d.inputRange.start_le_end
  have houtput := d.outputRange.start_le_end
  have hfilter : s.diffs.filter (· ≠ d) = pre ++ post := by
    rw [hdiffs, filter_append, filter_cons_of_neg (by simp)]
    congr 1
    · refine filter_eq_self.mpr fun m hm => ?_
      have := (hapart m hm d mem_cons_self).1
      simp only [decide_eq_true_eq]
      rintro rfl
      omega
    · refine filter_eq_self.mpr fun m hm => ?_
      have := (hbehind m hm).1
      simp only [decide_eq_true_eq]
      rintro rfl
      omega
  have hlength : ¬s.diffs.length = (pre ++ post).length := by
    rw [hdiffs, length_append, length_append, length_cons]
    omega
  have hshift : (pre ++ post).map (shiftBack d) =
      pre ++ post.map (·.addOutputLineDelta (d.inputRange.lineCount - d.outputRange.lineCount)) := by
    rw [map_append]
    congr 1
    · refine (map_congr_left fun m hm => ?_).trans (List.map_id pre)
      have := (hapart m hm d mem_cons_self).2
      have := m.outputRange.start_le_end
      unfold shiftBack LineRange.isAfter
      rw [if_neg (by simp only [decide_eq_true_eq]; omega)]
      rfl
    · refine map_congr_left fun m hm => ?_
      have := (hbehind m hm).2
      unfold shiftBack LineRange.isAfter
      rw [if_pos (by simp only [decide_eq_true_eq]; omega)]
  have hpush : pushEditOperations s.lines ((getReverseLineEdit s.baseLines d).toEdits s.lines.length) =
      spliced s.lines d.outputRange.startLineNumber d.outputRange.endLineNumberExclusive
        (slice s.baseLines d.inputRange.startLineNumber d.inputRange.endLineNumberExclusive) := by
    refine pushEditOperations_eq ?_ hplace.docLength (fun line hline => ?_) hremoved.nonempty
    · show 1 ≤ d.outputRange.startLineNumber
      rw [hout]
      exact hplace.docPos
    · have hslice : line ∈ slice s.baseLines d.inputRange.startLineNumber d.inputRange.endLineNumberExclusive := hline
      exact h.baseLine line (mem_of_mem_drop (mem_of_mem_take hslice))
  conv_lhs => unfold removeLoop
  rw [hfilter, if_neg hlength, hpush, hshift]

theorem removeLoop_spec {diffToRemoves : List LineRangeMapping} (h : s.UpToDate) (hmem : ∀ d ∈ diffToRemoves, d ∈ s.diffs)
    (hnodup : diffToRemoves.Nodup)
    (hsorted : diffToRemoves.Pairwise fun a b => b.inputRange.startLineNumber ≤ a.inputRange.startLineNumber) :
    ∃ lines diffs, removeLoop s.baseLines s.lines s.diffs diffToRemoves = (lines, some diffs) ∧
      (⟨s.baseLines, lines, diffs⟩ : TextModelDiffs).UpToDate := by
  induction diffToRemoves generalizing s with
  | nil => exact ⟨s.lines, s.diffs, rfl, h⟩
  | cons d diffToRemoves ih =>
    obtain ⟨pre, post, hdiffs⟩ := append_of_mem (hmem d mem_cons_self)
    obtain ⟨hnotMem, hnodup'⟩ := nodup_cons.mp hnodup
    obtain ⟨hfirst, hsorted'⟩ := pairwise_cons.mp hsorted
    obtain ⟨s', hs', hbase, hkept, hloop⟩ := @UpToDate.remove_step s h d pre post diffToRemoves hdiffs
    have hchain := h.chain
    rw [hdiffs] at hchain
    obtain ⟨-, hpost, -⟩ := pairwise_append.mp hchain.pairwise_apart
    -- the diffs that are left to remove are in front of this one
    have hmem' : ∀ m ∈ diffToRemoves, m ∈ s'.diffs := by
      intro m hm
      have hin := hmem m (mem_cons_of_mem _ hm)
      rw [hdiffs, mem_append, mem_cons] at hin
      rcases hin with hin | rfl | hin
      · exact hkept m hin
      · exact absurd hm hnotMem
      · have := hfirst m hm
        have := ((pairwise_cons.mp hpost).1 m hin).1
        have := d.inputRange.start_le_end
        omega
    obtain ⟨lines, diffs, hlines, hresult⟩ := ih hs' hmem' hnodup' hsorted'
    refine ⟨lines, diffs, hloop.trans hlines, ?_⟩
    rw [← hbase]
    exact hresult

theorem UpToDate.removeDiffs (h : s.UpToDate) {diffToRemoves : List LineRangeMapping} (hmem : ∀ d ∈ diffToRemoves, d ∈ s.diffs)
    (hnodup : diffToRemoves.Nodup) : (s.removeDiffs diffToRemoves).1.UpToDate ∧ (s.removeDiffs diffToRemoves).2 = false := by
  let r (a b : LineRangeMapping) : Prop := a.inputRange.startLineNumber ≤ b.inputRange.startLineNumber
  have hperm := perm_insertionSort r diffToRemoves
  have hsorted := pairwise_insertionSort r diffToRemoves
  obtain ⟨lines, diffs, hloop, hresult⟩ := @removeLoop_spec s (diffToRemoves.insertionSort r).reverse h
    (fun d hd => hmem d (hperm.mem_iff.mp (mem_reverse.mp hd))) (nodup_reverse.mpr (hperm.nodup_iff.mpr hnodup))
    (pairwise_reverse.mpr hsorted)
  have heq : s.removeDiffs diffToRemoves = (⟨s.baseLines, lines, diffs⟩, false) := by
    unfold TextModelDiffs.removeDiffs
    dsimp only
    rw [show removeLoop s.baseLines s.lines s.diffs (diffToRemoves.insertionSort fun a b =>
      a.inputRange.startLineNumber ≤ b.inputRange.startLineNumber).reverse = (lines, some diffs) from hloop]
  rw [heq]
  exact ⟨hresult, rfl⟩

/-- What a call may be: `removeDiffs` gets current diffs, and an edit is about lines of the base, has lines without line breaks
and, unless it touches a diff, leaves the document with a line. -/
def Allowed (s : TextModelDiffs) : Operation → Prop
  | .removeDiffs diffToRemoves => (∀ d ∈ diffToRemoves, d ∈ s.diffs) ∧ diffToRemoves.Nodup
  | .applyEditRelativeToOriginal edit =>
    1 ≤ edit.range.startLineNumber ∧ edit.range.endLineNumberExclusive ≤ s.baseLines.length + 1 ∧
      (∀ line ∈ edit.newLines, IsLine line) ∧
      ((∀ m ∈ s.diffs, m.inputRange.touches edit.range = false) →
        0 < (s.lines.length : Int) - edit.range.lineCount + edit.newLines.length)

/-- Each call of the run is allowed in the state that it finds. -/
def AllAllowed (s : TextModelDiffs) : List Operation → Prop
  | [] => True
  | operation :: operations => s.Allowed operation ∧ AllAllowed (s.perform operation).1 operations

/-- A call throws if it is an edit that touches a diff. -/
def Conflicts (s : TextModelDiffs) : Operation → Prop
  | .removeDiffs _ => False
  | .applyEditRelativeToOriginal edit => ∃ m ∈ s.diffs, m.inputRange.touches edit.range = true

theorem UpToDate.perform (h : s.UpToDate) {operation : Operation} (hallowed : s.Allowed operation) :
    (s.perform operation).1.UpToDate ∧ ((s.perform operation).2 = true → (s.perform operation).1 = s) ∧
      ((s.perform operation).2 = true ↔ s.Conflicts operation) := by
  cases operation with
  | removeDiffs diffToRemoves =>
    obtain ⟨hmem, hnodup⟩ := hallowed
    obtain ⟨hresult, hthrows⟩ := h.removeDiffs hmem hnodup
    have hfalse : ¬(s.perform (.removeDiffs diffToRemoves)).2 = true := by
      rw [show (s.perform (.removeDiffs diffToRemoves)).2 = false from hthrows]
      decide
    exact ⟨hresult, fun htrue => absurd htrue hfalse, fun htrue => absurd htrue hfalse, fun hconflict => hconflict.elim⟩
  | applyEditRelativeToOriginal edit =>
    obtain ⟨hpos, hend, hnew, hresult⟩ := hallowed
    exact h.applyEditRelativeToOriginal hpos hend hnew hresult

theorem UpToDate.run (h : s.UpToDate) {operations : List Operation} (hallowed : s.AllAllowed operations) :
    (s.run operations).UpToDate := by
  induction operations generalizing s with
  | nil => exact h
  | cons operation operations ih => exact ih (h.perform hallowed.1).1 hallowed.2

/-- After every run of calls the diffs are sorted, do not touch, and describe the document.  A call there throws exactly if it
is an edit that touches a diff, and then it changes nothing. -/
theorem diffs_stay_true (s : TextModelDiffs) (h : s.UpToDate) (operations : List Operation)
    (hallowed : s.AllAllowed operations) :
    let s' := s.run operations
    replaceLines s'.baseLines s'.lines s'.diffs = s'.lines ∧ Valid s'.diffs ∧
      ∀ operation, s'.Allowed operation → ((s'.perform operation).2 = true ↔ s'.Conflicts operation) ∧
        ((s'.perform operation).2 = true → (s'.perform operation).1 = s') := by
  intro s'
  have h' : s'.UpToDate := h.run hallowed
  refine ⟨h'.describes.2, h'.valid, fun operation hoperation => ?_⟩
  obtain ⟨-, hsame, hthrows⟩ := h'.perform hoperation
  exact ⟨hthrows, hsame⟩

/-- The second line was replaced by two lines; this is undone, and the last line is replaced. -/
theorem diffs_stay_true_at_the_end :
    let s : TextModelDiffs := ⟨[[1], [2], [3]], [[1], [7], [8], [3]], [⟨⟨2, 1⟩, ⟨2, 2⟩⟩]⟩
    let s' := s.run [.removeDiffs [⟨⟨2, 1⟩, ⟨2, 2⟩⟩], .applyEditRelativeToOriginal ⟨⟨3, 1⟩, [[4], [5]]⟩]
    s'.lines = [[1], [2], [4], [5]] ∧ replaceLines s'.baseLines s'.lines s'.diffs = s'.lines ∧ Valid s'.diffs := by
  intro s s'
  have hs : s.UpToDate := ⟨by decide, by decide, by decide, by decide, ⟨by decide, by decide⟩, ⟨by decide, by decide⟩⟩
  have h := diffs_stay_true s hs
    [.removeDiffs [⟨⟨2, 1⟩, ⟨2, 2⟩⟩], .applyEditRelativeToOriginal ⟨⟨3, 1⟩, [[4], [5]]⟩]
    ⟨⟨by decide, by decide⟩, ⟨by decide, by decide, by decide, fun _ => by decide⟩, trivial⟩
  exact ⟨by decide, h.1, h.2.1⟩

end Calls

end TextModelDiffs

end TongjiCode.MergeEditor
