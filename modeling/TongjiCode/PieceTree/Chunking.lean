import TongjiCode.PieceTree.Loading

/-!
# Loading a text from chunks: independence of the chunks

The builder loses units in two ways (`Tracks`), and a lost unit is never made up for: the loaded text then has
less characters and line breaks than the chunks together (`weight`), whatever line break is chosen.  Only a
text of two equal units that are kept back comes out right where one is lost, as the other is doubled.
-/

open List

namespace TongjiCode.PieceTree

open JsString

/-! ## Characters and line breaks -/

def isBreak (c : UInt16) : Bool := c = carriageReturn || c = lineFeed

/-- The text without its line breaks. -/
def plain (t : JsString) : JsString := t.filter fun c => !isBreak c

def weight (t : JsString) : Nat := (plain t).length + eolCount t

variable {c : UInt16}

theorem isBreak_eq_false : isBreak c = false ↔ ¬ (c = carriageReturn ∨ c = lineFeed) := by
  simp [isBreak]

theorem plain_other (h : ¬ (c = carriageReturn ∨ c = lineFeed)) (t : JsString) : plain (c :: t) = c :: plain t := by
  simp [plain, isBreak_eq_false.mpr h]

theorem plain_break (h : c = carriageReturn ∨ c = lineFeed) (t : JsString) : plain (c :: t) = plain t := by
  have hbreak : isBreak c = true := by simpa [isBreak] using h
  simp [plain, hbreak]

variable (eol : EndOfLine) (t : JsString)

theorem plain_eol : plain (eol.text ++ t) = plain t := by
  cases eol with
  | lf => exact plain_break (.inr rfl) t
  | crlf => exact (plain_break (.inl rfl) _).trans (plain_break (.inr rfl) t)

theorem plain_replaceEol : plain (replaceEol eol.text t) = plain t := by
  induction t using eol_induction with
  | nil => rfl
  | crlf t ih =>
    rw [replaceEol, if_pos ⟨rfl, rfl⟩, plain_eol, ih, plain_break (.inl rfl), plain_break (.inr rfl)]
  | cr t ht ih => rw [replaceEol_cr _ ht, plain_eol, ih, plain_break (.inl rfl)]
  | lf t ih => rw [replaceEol_lf, plain_eol, ih, plain_break (.inr rfl)]
  | other c t hc ih => rw [replaceEol_cons hc, plain_other hc, plain_other hc, ih]

theorem weight_replaceEol : weight (replaceEol eol.text t) = weight t := by
  rw [weight, weight, plain_replaceEol, eolCount_replaceEol]

theorem weight_append (a b : JsString) : weight (a ++ b) + (if Junction a b then 1 else 0) = weight a + weight b := by
  have hplain : plain (a ++ b) = plain a ++ plain b := filter_append _ _
  have hbreaks := breaks_none a b.head?
  rw [weight, weight, weight, hplain, length_append, eolCount_eq, eolCount_eq, eolCount_eq, breaks_append,
    Option.or_none, hbreaks]
  by_cases hjoin : Junction a b
  · rw [if_pos hjoin, if_pos (show a.getLast? = some carriageReturn ∧ b.head? = some lineFeed from hjoin)]
    omega
  · rw [if_neg hjoin, if_neg (show ¬ (a.getLast? = some carriageReturn ∧ b.head? = some lineFeed) from hjoin)]
    omega

theorem weight_append_of_not {a b : JsString} (h : ¬ Junction a b) : weight (a ++ b) = weight a + weight b := by
  rw [← weight_append a b, if_neg h, Nat.add_zero]

theorem weight_singleton (c : UInt16) : weight [c] = 1 := by
  by_cases h : c = carriageReturn ∨ c = lineFeed
  · rw [weight, plain_break h]
    simp [plain, eolCount, h]
  · rw [weight, plain_other h, eolCount_other h]
    rfl

theorem weight_concat (h : c ≠ lineFeed) : weight (t ++ [c]) = weight t + 1 := by
  have hjoin : ¬ Junction t [c] := fun hjoin => h (Option.some.inj hjoin.2)
  rw [weight_append_of_not hjoin, weight_singleton]

theorem weight_pos {t : JsString} (h : t ≠ []) : 0 < weight t := by
  cases t with
  | nil => exact (h rfl).elim
  | cons c t =>
    by_cases hc : c = carriageReturn ∨ c = lineFeed
    · have : 0 < eolCount (c :: t) := eolCount_pos hc mem_cons_self
      rw [weight]
      omega
    · rw [weight, plain_other hc, length_cons]
      omega

theorem weight_eq_length {t : JsString} (h : lineFeed ∉ t) : weight t = t.length := by
  induction t with
  | nil => rfl
  | cons c t ih =>
    rw [mem_cons, not_or] at h
    have hjoin : ¬ Junction [c] t := fun hjoin => h.2 (mem_of_head? hjoin.2)
    have := weight_append_of_not hjoin
    rw [singleton_append] at this
    rw [this, weight_singleton, ih h.2, length_cons, Nat.add_comm]

/-! ## Chunks from which the text comes out right -/

def stripBom (text : JsString) : JsString := if startsWithUTF8BOM text then text.drop 1 else text

def bomOf (text : JsString) : JsString := if startsWithUTF8BOM text then [utf8Bom] else []

/-- A unit that is kept back, alone. -/
def isLone : JsString → Bool
  | [x] => keptBack x
  | _ => false

def endsKept (chunk : JsString) : Bool := chunk.getLast?.any keptBack

/-- Nothing of the chunk is stored at once. -/
def isUnstored (chunk : JsString) : Bool := stripBom chunk = [] || isLone (stripBom chunk)

/-- No chunk that is nothing but a kept back unit follows another kept back unit (`held`), and no further byte
order mark comes first in a chunk before some chunk was stored (`unstored`). -/
def Splits : Bool → Bool → List JsString → Prop
  | _, _, [] => True
  | unstored, held, chunk :: chunks =>
    (unstored = true → startsWithUTF8BOM chunk = false) ∧ ¬ (held = true ∧ isLone chunk = true) ∧
      Splits (unstored && isUnstored chunk) (endsKept chunk) chunks

def SplitsAll : List JsString → Prop
  | [] => True
  | chunk :: chunks => Splits (isUnstored chunk) (endsKept chunk) chunks

/-- The chunks lose nothing and the text is more than one kept back unit, or the text is two equal ones. -/
def Sound (chunks : List JsString) : Prop :=
  (∃ x, keptBack x = true ∧ stripBom chunks.flatten = [x, x]) ∨
    (isLone (stripBom chunks.flatten) = false ∧ SplitsAll (chunks.filter fun chunk => chunk ≠ []))

/-! ## What the builder keeps track of -/

variable {c : JsString}

namespace PieceTreeTextBufferBuilder

/-- The builder `b` has accepted the text `e`, behind a byte order mark; `safe` tells that nothing was lost. -/
structure Tracks (b : PieceTreeTextBufferBuilder) (e mark : JsString) (safe : Prop) : Prop where
  ok : b.Ok
  held : b.held = e.getLast?.toList.filter keptBack
  exact : safe → b.stored ++ b.held = e ∧ b.bom = mark
  less : ¬ safe → weight (b.stored ++ b.held) < weight e
  bom : utf8Bom ∉ e → b.bom = mark
  noLf : b.chunks = [] → lineFeed ∉ e

variable {b b' : PieceTreeTextBufferBuilder} {e mark : JsString} {safe : Prop}

theorem Tracks.le (h : Tracks b e mark safe) : weight (b.stored ++ b.held) ≤ weight e := by
  by_cases hsafe : safe
  · rw [(h.exact hsafe).1]
  · exact Nat.le_of_lt (h.less hsafe)

theorem stored_of_chunks (h : b'.chunks = b.chunks) : b'.stored = b.stored := by rw [stored, stored, h]

variable {r : JsString}

theorem isLone_iff : isLone r = true ↔ ∃ x, keptBack x = true ∧ r = [x] := by
  constructor
  · intro h
    unfold isLone at h
    split at h
    · next x => exact ⟨x, h, rfl⟩
    · cases h
  · rintro ⟨x, hx, rfl⟩
    exact hx

theorem held_eq_nil_iff : b.held = [] ↔ b.hasPreviousChar = false := by
  unfold held
  cases b.hasPreviousChar <;> simp

/-- A text behind what was accepted loses a unit only where it is a kept back unit behind another one. -/
theorem Tracks.acceptRest (h : Tracks b e mark safe) (hr : r = [] → b.chunks = [] ∧ b.held = []) :
    Tracks (b.acceptRest r) (e ++ r) mark (safe ∧ ¬ (b.hasPreviousChar = true ∧ isLone r = true)) := by
  obtain ⟨hok, hbom, haccepts⟩ := acceptRest_accepts h.ok r fun heq => (hr heq).1
  have hmark : utf8Bom ∉ e ++ r → (b.acceptRest r).bom = mark := by
    intro hnot
    rw [hbom]
    exact h.bom fun hmem => hnot (mem_append_left _ hmem)
  generalize b.acceptRest r = b' at hok hbom haccepts hmark
  cases haccepts with
  | nothing hchunks hheld =>
    have hnone := (hr rfl).2
    have hlone : ¬ (b.hasPreviousChar = true ∧ isLone [] = true) := fun hand => Bool.noConfusion hand.2
    rw [append_nil] at hmark ⊢
    have htext : b'.stored ++ b'.held = b.stored ++ b.held := by rw [stored_of_chunks hchunks, hheld, hnone]
    refine ⟨hok, ?_, fun hsafe => ?_, fun hunsafe => ?_, hmark, fun hempty => h.noLf (hchunks ▸ hempty)⟩
    · rw [hheld, ← h.held, hnone]
    · rw [htext, hbom]
      exact h.exact hsafe.1
    · rw [htext]
      exact h.less fun hsafe => hunsafe ⟨hsafe, hlone⟩
  | @alone _ x hx hchunks hheld =>
    have hxlf := keptBack_ne_lf hx
    have hnoLf : b'.chunks = [] → lineFeed ∉ e ++ [x] := by
      intro hempty hmem
      rcases mem_append.mp hmem with hmem | hmem
      · exact h.noLf (hchunks ▸ hempty) hmem
      · exact hxlf (mem_singleton.mp hmem).symm
    refine ⟨hok, by rw [hheld]; simp [hx], fun hsafe => ?_, fun hunsafe => ?_, hmark, hnoLf⟩
    · have hprev : b.hasPreviousChar = false := by
        by_contra hprev
        exact hsafe.2 ⟨by simpa using hprev, hx⟩
      obtain ⟨htext, hb⟩ := h.exact hsafe.1
      rw [held_eq_nil_iff.mpr hprev, append_nil] at htext
      rw [stored_of_chunks hchunks, hheld, htext, hbom]
      exact ⟨rfl, hb⟩
    · rw [stored_of_chunks hchunks, hheld, weight_concat _ hxlf, weight_concat _ hxlf]
      have hle := h.le
      cases hprev : b.hasPreviousChar with
      | true =>
        -- the unit that was held is gone
        rw [PieceTreeTextBufferBuilder.held, hprev, if_pos rfl, weight_concat _ (keptBack_ne_lf (h.ok.held hprev))] at hle
        omega
      | false =>
        have := h.less fun hsafe => hunsafe ⟨hsafe, fun hand => by rw [hprev] at hand; cases hand.1⟩
        rw [held_eq_nil_iff.mpr hprev, append_nil] at this
        omega
  | stored hne hlone hchunks htext hheld =>
    have hlone : ¬ (b.hasPreviousChar = true ∧ isLone r = true) := by
      rintro ⟨-, hand⟩
      obtain ⟨x, hx, heq⟩ := isLone_iff.mp hand
      exact hlone x hx heq
    refine ⟨hok, ?_, fun hsafe => ?_, fun hunsafe => ?_, hmark, fun hempty => (hchunks hempty).elim⟩
    · rw [hheld, getLast?_append_of_ne_nil _ hne]
    · obtain ⟨hold, hb⟩ := h.exact hsafe.1
      rw [htext, hold, hbom]
      exact ⟨rfl, hb⟩
    · rw [htext]
      have hless := h.less fun hsafe => hunsafe ⟨hsafe, hlone⟩
      have h1 := weight_append (b.stored ++ b.held) r
      have h2 := weight_append e r
      have hjoin : Junction e r → Junction (b.stored ++ b.held) r := by
        rintro ⟨hcr, hlf⟩
        refine ⟨?_, hlf⟩
        have : b.held = [carriageReturn] := by
          rw [h.held, hcr]
          decide
        rw [this, getLast?_concat]
      by_cases he : Junction e r
      · rw [if_pos he] at h2
        rw [if_pos (hjoin he)] at h1
        omega
      · rw [if_neg he] at h2
        omega

variable {safe' : Prop}

theorem Tracks.congr (h : Tracks b e mark safe) (hiff : safe ↔ safe') : Tracks b e mark safe' :=
  ⟨h.ok, h.held, fun hs => h.exact (hiff.mpr hs), fun hs => h.less fun hs' => hs (hiff.mp hs'), h.bom, h.noLf⟩

theorem startsWithUTF8BOM_iff : startsWithUTF8BOM c = true ↔ ∃ r, c = utf8Bom :: r := by
  unfold startsWithUTF8BOM
  cases c with
  | nil => simp
  | cons x r => simp

theorem keptBack_bom : keptBack utf8Bom = false := by decide

theorem Ok.withBom (h : b.Ok) (bom : JsString) : ({ b with bom } : PieceTreeTextBufferBuilder).Ok :=
  ⟨h.chunks, h.joined, h.kinds, h.held, h.last⟩

/-- A byte order mark that is not the first unit is lost, and perhaps more. -/
theorem Tracks.acceptBom (h : Tracks b e mark safe) (hchunks : b.chunks = []) (r : JsString) :
    Tracks ({ b with bom := [utf8Bom] }.acceptRest r) (e ++ utf8Bom :: r) mark False := by
  obtain ⟨hok, -, haccepts⟩ := acceptRest_accepts (h.ok.withBom [utf8Bom]) r fun _ => hchunks
  generalize ({ b with bom := [utf8Bom] } : PieceTreeTextBufferBuilder).acceptRest r = b' at hok haccepts
  have hbom : utf8Bom ∈ e ++ utf8Bom :: r := by simp
  have hweight : weight (e ++ utf8Bom :: r) = weight e + 1 + weight r := by
    have h1 : ¬ Junction e (utf8Bom :: r) := fun hjoin => absurd (Option.some.inj hjoin.2) (by decide)
    have h2 : ¬ Junction [utf8Bom] r := fun hjoin => absurd (Option.some.inj hjoin.1) (by decide)
    rw [weight_append_of_not h1, ← singleton_append, weight_append_of_not h2, weight_singleton, Nat.add_assoc]
  have hle := h.le
  have hstored : b.stored = [] := by rw [stored, hchunks]; rfl
  have hnoLf : lineFeed ∉ r → lineFeed ∉ e ++ utf8Bom :: r := by
    intro hr hmem
    rcases mem_append.mp hmem with hmem | hmem
    · exact h.noLf hchunks hmem
    · rcases mem_cons.mp hmem with heq | hmem
      · exact absurd heq (by decide)
      · exact hr hmem
  cases haccepts with
  | nothing hchunks' hheld =>
    refine ⟨hok, ?_, fun hfalse => hfalse.elim, fun _ => ?_, fun hnot => (hnot hbom).elim, fun _ => hnoLf (by simp)⟩
    · rw [hheld, getLast?_concat]
      simp [keptBack_bom]
    · rw [stored_of_chunks hchunks', hheld, hweight]
      show weight (b.stored ++ []) < _
      rw [hstored]
      exact Nat.lt_of_lt_of_le Nat.zero_lt_one (by omega)
  | @alone _ x hx hchunks' hheld =>
    refine ⟨hok, ?_, fun hfalse => hfalse.elim, fun _ => ?_, fun hnot => (hnot hbom).elim, fun _ => hnoLf ?_⟩
    · rw [hheld, getLast?_append_of_ne_nil _ (by simp)]
      simp [hx]
    · rw [stored_of_chunks hchunks', hheld, hweight]
      show weight (b.stored ++ [x]) < _
      rw [hstored, nil_append, weight_singleton]
      omega
    · rw [mem_singleton]
      exact (keptBack_ne_lf hx).symm
  | stored hne hlone hchunks' htext hheld =>
    refine ⟨hok, ?_, fun hfalse => hfalse.elim, fun _ => ?_, fun hnot => (hnot hbom).elim, fun hempty => (hchunks' hempty).elim⟩
    · have : (e ++ utf8Bom :: r).getLast? = r.getLast? := by
        rw [append_cons, getLast?_append_of_ne_nil _ hne]
      rw [hheld, this]
    · have htext : b'.stored ++ b'.held = b.stored ++ b.held ++ r := htext
      have := weight_append (b.stored ++ b.held) r
      rw [htext, hweight]
      omega

theorem Tracks.acceptChunk (h : Tracks b e mark safe) (hne : c ≠ []) :
    Tracks (b.acceptChunk c) (e ++ c) mark (safe ∧ (b.chunks.isEmpty = true → startsWithUTF8BOM c = false) ∧
      ¬ (b.hasPreviousChar = true ∧ isLone c = true)) := by
  rw [PieceTreeTextBufferBuilder.acceptChunk, if_neg hne]
  by_cases hbom : b.chunks = [] ∧ startsWithUTF8BOM c = true
  · rw [if_pos hbom]
    obtain ⟨r, rfl⟩ := startsWithUTF8BOM_iff.mp hbom.2
    refine (h.acceptBom hbom.1 r).congr ⟨fun hfalse => hfalse.elim, fun hand => ?_⟩
    have := hand.2.1 (by rw [hbom.1]; rfl)
    cases this
  · rw [if_neg hbom]
    refine (h.acceptRest fun hnil => (hne hnil).elim).congr ⟨fun hand => ⟨hand.1, fun hempty => ?_, hand.2⟩, fun hand => ⟨hand.1, hand.2.2⟩⟩
    by_contra hstarts
    exact hbom ⟨isEmpty_iff.mp hempty, by simpa using hstarts⟩

theorem acceptChunk_hasPreviousChar (h : Tracks b e mark safe) (hne : c ≠ []) :
    (b.acceptChunk c).hasPreviousChar = endsKept c := by
  have hheld := (h.acceptChunk hne).held
  rw [getLast?_append_of_ne_nil _ hne] at hheld
  obtain ⟨x, hx⟩ : ∃ x, c.getLast? = some x := ⟨c.getLast hne, getLast?_eq_some_getLast hne⟩
  rw [hx] at hheld
  rw [endsKept, hx, Option.any_some]
  cases hkept : keptBack x with
  | true =>
    have : (b.acceptChunk c).held ≠ [] := by rw [hheld]; simp [hkept]
    rw [Ne, held_eq_nil_iff] at this
    simpa using this
  | false =>
    have : (b.acceptChunk c).held = [] := by rw [hheld]; simp [hkept]
    exact held_eq_nil_iff.mp this

theorem Accepts.isEmpty (h : Accepts b r b') :
    b'.chunks.isEmpty = (b.chunks.isEmpty && (r = [] || isLone r)) := by
  cases h with
  | nothing hchunks _ => simp [hchunks]
  | alone hx hchunks _ => simp [hchunks, isLone, hx]
  | stored hne hlone hchunks _ _ =>
    have hfalse : isLone r = false := by
      by_contra htrue
      obtain ⟨x, hx, heq⟩ := isLone_iff.mp (by simpa using htrue)
      exact hlone x hx heq
    simp [hne, hfalse, hchunks]

theorem acceptChunk_isEmpty (hb : b.Ok) (hne : c ≠ []) :
    (b.acceptChunk c).chunks.isEmpty = (b.chunks.isEmpty && isUnstored c) := by
  rw [PieceTreeTextBufferBuilder.acceptChunk, if_neg hne, isUnstored, stripBom]
  by_cases hbom : b.chunks = [] ∧ startsWithUTF8BOM c = true
  · rw [if_pos hbom, if_pos hbom.2]
    exact (acceptRest_accepts (hb.withBom [utf8Bom]) (c.drop 1) fun _ => hbom.1).2.2.isEmpty
  · rw [if_neg hbom, (acceptRest_accepts hb c fun hnil => (hne hnil).elim).2.2.isEmpty]
    by_cases hempty : b.chunks = []
    · have hstarts : ¬ startsWithUTF8BOM c = true := fun hstarts => hbom ⟨hempty, hstarts⟩
      rw [if_neg hstarts]
    · have : b.chunks.isEmpty = false := by simpa using hempty
      rw [this, Bool.false_and, Bool.false_and]

theorem Tracks.run (cs : List JsString) : ∀ {b : PieceTreeTextBufferBuilder} {e mark : JsString} {safe : Prop},
    Tracks b e mark safe → (∀ c ∈ cs, c ≠ []) → Tracks (cs.foldl PieceTreeTextBufferBuilder.acceptChunk b) (e ++ cs.flatten) mark
      (safe ∧ Splits b.chunks.isEmpty b.hasPreviousChar cs) := by
  induction cs with
  | nil =>
    intro b e mark safe h _
    rw [flatten_nil, append_nil]
    exact h.congr ⟨fun hsafe => ⟨hsafe, trivial⟩, fun hand => hand.1⟩
  | cons c cs ih =>
    intro b e mark safe h hne
    obtain ⟨hc, hcs⟩ := forall_mem_cons.mp hne
    have hrest := ih (h.acceptChunk hc) hcs
    rw [acceptChunk_hasPreviousChar h hc, acceptChunk_isEmpty h.ok hc, append_assoc] at hrest
    exact hrest.congr ⟨fun hand => ⟨hand.1.1, hand.1.2.1, hand.1.2.2, hand.2⟩,
      fun hand => ⟨⟨hand.1, hand.2.1, hand.2.2.1⟩, hand.2.2.2⟩⟩

theorem Tracks.empty (bom : JsString) : Tracks { bom } [] bom True :=
  ⟨⟨by simp, trivial, rfl, fun h => Bool.noConfusion h, by simp [stored]⟩, rfl, fun _ => ⟨rfl, rfl⟩,
    fun hnot => (hnot trivial).elim, fun _ => rfl, fun _ => by simp⟩

theorem Tracks.first (hne : c ≠ []) :
    Tracks (({} : PieceTreeTextBufferBuilder).acceptChunk c) (stripBom c) (bomOf c) True := by
  rw [PieceTreeTextBufferBuilder.acceptChunk, if_neg hne, stripBom, bomOf]
  by_cases hbom : startsWithUTF8BOM c = true
  · rw [if_pos ⟨rfl, hbom⟩, if_pos hbom, if_pos hbom]
    refine ((Tracks.empty [utf8Bom]).acceptRest fun _ => ⟨rfl, rfl⟩).congr ?_
    simp
  · rw [if_neg (fun hand => hbom hand.2), if_neg hbom, if_neg hbom]
    refine ((Tracks.empty []).acceptRest fun _ => ⟨rfl, rfl⟩).congr ?_
    simp

/-! ## Independence of the chunks -/

/-- A text of two equal kept back units is recognized by its characters and line breaks. -/
theorem eq_pair {x : UInt16} (hx : keptBack x = true) (hlf : lineFeed ∉ e) (hlast : e.getLast? = some x)
    (hweight : weight [x, x] = weight e) (hplain : plain [x, x] = plain e) : e = [x, x] := by
  have hxlf := keptBack_ne_lf hx
  have hnot : lineFeed ∉ [x, x] := by simp [hxlf.symm]
  rw [weight_eq_length hlf, weight_eq_length hnot] at hweight
  obtain ⟨y, z, rfl⟩ := length_eq_two.mp hweight.symm
  obtain rfl : z = x := Option.some.inj hlast
  by_cases hcr : z = carriageReturn
  · subst hcr
    by_cases hy : y = carriageReturn ∨ y = lineFeed
    · rcases hy with rfl | rfl
      · rfl
      · simp at hlf
    · rw [plain_other hy, plain_break (.inl rfl)] at hplain
      simp [plain, isBreak] at hplain
  · have hz : ¬ (z = carriageReturn ∨ z = lineFeed) := by rw [not_or]; exact ⟨hcr, hxlf⟩
    rw [plain_other hz] at hplain
    by_cases hy : y = carriageReturn ∨ y = lineFeed
    · rw [plain_break hy, plain_other hz] at hplain
      simp [plain] at hplain
    · rw [plain_other hy] at hplain
      rw [(List.cons.inj hplain).1]

theorem Tracks.held_cases (h : Tracks b e mark safe) :
    b.held = [] ∧ isLone e = false ∨ ∃ x, keptBack x = true ∧ b.held = [x] ∧ e.getLast? = some x := by
  have hheld := h.held
  cases hlast : e.getLast? with
  | none =>
    rw [hlast] at hheld
    rw [getLast?_eq_none_iff.mp hlast]
    exact .inl ⟨hheld, rfl⟩
  | some x =>
    rw [hlast] at hheld
    cases hkept : keptBack x with
    | true => exact .inr ⟨x, hkept, by rw [hheld]; simp [hkept], rfl⟩
    | false =>
      refine .inl ⟨by rw [hheld]; simp [hkept], ?_⟩
      by_contra hlone
      obtain ⟨y, hy, rfl⟩ := isLone_iff.mp (by simpa using hlone)
      obtain rfl : y = x := Option.some.inj hlast
      rw [hy] at hkept
      cases hkept

theorem stored_ne_nil (h : b.Ok) (hchunks : b.chunks ≠ []) : b.stored ≠ [] := by
  obtain ⟨c, cs, heq⟩ := exists_cons_of_ne_nil hchunks
  have hc := (h.chunks c (by rw [heq]; exact mem_cons_self)).2
  rw [stored, heq, map_cons, flatten_cons]
  simp [hc]

theorem final_of_stored (h : b.chunks ≠ []) : b.final = b.stored ++ b.held := if_neg h

theorem final_of_unstored (h : b.chunks = []) : b.final = b.held ++ b.held := if_pos h

theorem stored_eq_nil (h : b.chunks = []) : b.stored = [] := by rw [stored, h]; rfl

/-- The condition on the chunks, with what was accepted. -/
def Right (e : JsString) (safe : Prop) : Prop := (∃ x, keptBack x = true ∧ e = [x, x]) ∨ isLone e = false ∧ safe

/-- A loaded text that looks right comes from chunks of which nothing was lost. -/
theorem Tracks.right_of_final (h : Tracks b e mark safe) (hweight : weight b.final = weight e)
    (hplain : plain b.final = plain e) : Right e safe := by
  have hsafe : b.final = b.stored ++ b.held → safe := by
    intro hfinal
    by_contra hunsafe
    have := h.less hunsafe
    rw [← hfinal] at this
    omega
  rcases h.held_cases with ⟨hheld, hlone⟩ | ⟨x, hx, hheld, hlast⟩
  · refine .inr ⟨hlone, hsafe ?_⟩
    by_cases hchunks : b.chunks = []
    · rw [final_of_unstored hchunks, stored_eq_nil hchunks, hheld]
    · exact final_of_stored hchunks
  · by_cases hchunks : b.chunks = []
    · rw [final_of_unstored hchunks, hheld] at hweight hplain
      exact .inl ⟨x, hx, eq_pair hx (h.noLf hchunks) hlast hweight hplain⟩
    · have hsafe := hsafe (final_of_stored hchunks)
      refine .inr ⟨?_, hsafe⟩
      by_contra hlone
      obtain ⟨y, -, rfl⟩ := isLone_iff.mp (by simpa using hlone)
      have htext := congrArg List.length (h.exact hsafe).1
      have hpos := length_pos_iff.mpr (stored_ne_nil h.ok hchunks)
      rw [hheld, length_append, length_singleton, length_singleton] at htext
      omega

theorem Tracks.final_of_right (h : Tracks b e mark safe) (hright : Right e safe) : b.final = e ∧ b.bom = mark := by
  rcases hright with ⟨x, hx, rfl⟩ | ⟨hlone, hsafe⟩
  · have hbom : utf8Bom ∉ [x, x] := by
      intro hmem
      have : utf8Bom = x := by simpa using hmem
      rw [← this, keptBack_bom] at hx
      cases hx
    have hheld : b.held = [x] := by
      rw [h.held]
      simp [hx]
    refine ⟨?_, h.bom hbom⟩
    by_cases hchunks : b.chunks = []
    · rw [final_of_unstored hchunks, hheld]
      rfl
    · rw [final_of_stored hchunks]
      refine (h.exact ?_).1
      by_contra hunsafe
      have hless := h.less hunsafe
      have hpos := weight_pos (stored_ne_nil h.ok hchunks)
      have htwo : weight ([x] ++ [x]) = weight [x] + 1 := weight_concat [x] (keptBack_ne_lf hx)
      rw [weight_singleton, singleton_append] at htwo
      rw [hheld, weight_concat _ (keptBack_ne_lf hx), htwo] at hless
      omega
  · obtain ⟨htext, hbom⟩ := h.exact hsafe
    refine ⟨?_, hbom⟩
    by_cases hchunks : b.chunks = []
    · rw [stored_eq_nil hchunks, nil_append] at htext
      rcases h.held_cases with ⟨hheld, -⟩ | ⟨x, hx, hheld, -⟩
      · rw [final_of_unstored hchunks, ← htext, hheld]
        rfl
      · rw [← htext, hheld, isLone, hx] at hlone
        cases hlone
    · rw [final_of_stored hchunks, htext]

theorem Tracks.loadedAs (h : Tracks b e mark safe) (normalizeEOL : Bool) (defaultEOL : EndOfLine) :
    LoadedAs ((b.finish normalizeEOL).create defaultEOL) mark e normalizeEOL (chosenEOL defaultEOL e) ↔ Right e safe := by
  obtain ⟨hfinished, hbom⟩ := finishChunks_spec h.ok
  have hloaded := hfinished.create normalizeEOL defaultEOL
  rw [hbom] at hloaded
  constructor
  · intro hright
    have heol : chosenEOL defaultEOL b.final = chosenEOL defaultEOL e := hloaded.getEOL.symm.trans hright.getEOL
    have htext := hloaded.text.symm.trans hright.text
    rw [heol] at htext
    cases normalizeEOL with
    | false =>
      have htext : b.final = e := htext
      exact h.right_of_final (by rw [htext]) (by rw [htext])
    | true =>
      have htext : replaceEol _ b.final = replaceEol _ e := htext
      refine h.right_of_final ?_ ?_
      · rw [← weight_replaceEol (chosenEOL defaultEOL e) b.final, htext, weight_replaceEol]
      · rw [← plain_replaceEol (chosenEOL defaultEOL e) b.final, htext, plain_replaceEol]
  · intro hright
    obtain ⟨hfinal, hmark⟩ := h.final_of_right hright
    rw [hfinal, hmark] at hloaded
    exact hloaded

end PieceTreeTextBufferBuilder

theorem foldl_acceptChunk (chunks : List JsString) : ∀ b : PieceTreeTextBufferBuilder,
    chunks.foldl PieceTreeTextBufferBuilder.acceptChunk b =
      (chunks.filter fun chunk => chunk ≠ []).foldl PieceTreeTextBufferBuilder.acceptChunk b := by
  induction chunks with
  | nil => intro b; rfl
  | cons c chunks ih =>
    intro b
    by_cases hc : c = []
    · subst hc
      rw [foldl_cons, filter_cons_of_neg (by simp), ← ih]
      rfl
    · rw [foldl_cons, filter_cons_of_pos (by simpa using hc), foldl_cons, ih]

theorem stripBom_append (hne : c ≠ []) (t : JsString) :
    stripBom (c ++ t) = stripBom c ++ t ∧ bomOf (c ++ t) = bomOf c := by
  obtain ⟨x, r, rfl⟩ := exists_cons_of_ne_nil hne
  unfold stripBom bomOf startsWithUTF8BOM
  by_cases hx : x = utf8Bom <;> simp [hx]

/-- The loaded buffer is that of the text of the chunks, exactly if the chunks are sound. -/
theorem loads_iff (chunks : List JsString) (normalizeEOL : Bool) (defaultEOL : EndOfLine) :
    LoadedAs (load chunks normalizeEOL defaultEOL) (bomOf chunks.flatten) (stripBom chunks.flatten) normalizeEOL
      (chosenEOL defaultEOL (stripBom chunks.flatten)) ↔ Sound chunks := by
  rw [load, foldl_acceptChunk, Sound, ← flatten_filter_ne_nil (L := chunks)]
  have hne : ∀ c ∈ chunks.filter fun chunk => chunk ≠ [], c ≠ [] := fun c hc => by simpa using (mem_filter.mp hc).2
  generalize (chunks.filter fun chunk => chunk ≠ []) = cs at hne
  have hempty := PieceTreeTextBufferBuilder.Tracks.empty []
  cases cs with
  | nil => exact hempty.loadedAs normalizeEOL defaultEOL
  | cons c cs =>
    obtain ⟨hc, hcs⟩ := forall_mem_cons.mp hne
    have hrun := (PieceTreeTextBufferBuilder.Tracks.first hc).run cs hcs
    rw [PieceTreeTextBufferBuilder.acceptChunk_hasPreviousChar hempty hc,
      PieceTreeTextBufferBuilder.acceptChunk_isEmpty hempty.ok hc, true_and] at hrun
    obtain ⟨hstrip, hbom⟩ := stripBom_append hc cs.flatten
    rw [flatten_cons, foldl_cons, hstrip, hbom, hrun.loadedAs normalizeEOL defaultEOL]
    rfl

/-- A unit that is kept back is lost when another one comes alone. -/
theorem loads_unsound : ¬ ∀ (chunks : List JsString) (normalizeEOL : Bool) (defaultEOL : EndOfLine),
    LoadedAs (load chunks normalizeEOL defaultEOL) (bomOf chunks.flatten) (stripBom chunks.flatten) normalizeEOL
      (chosenEOL defaultEOL (stripBom chunks.flatten)) := by
  intro h
  have := (h [[97, 13], [13], [98]] false .lf).text
  revert this
  decide

end TongjiCode.PieceTree
