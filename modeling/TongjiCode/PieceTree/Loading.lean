import TongjiCode.PieceTree.Builder

/-!
# Loading a text from chunks: the loaded text

The builder is right about what it stores: every buffer has its line starts, none but the last ends with a
unit that is kept back, and the counts are those of the stored text.  So the loaded buffer follows from the
stored text alone (`load_eq`).
-/

open List

namespace TongjiCode.PieceTree

open JsString

/-! ## Kinds of line breaks -/

/-- The numbers of `\r`, `\n` and `\r\n`. -/
def kinds (str : JsString) : Nat × Nat × Nat :=
  ((createLineStarts str).cr, (createLineStarts str).lf, (createLineStarts str).crlf)

attribute [local simp] countLineStarts

theorem countLineStarts_lineStarts (str : JsString) : ∀ i, (countLineStarts i str).lineStarts = createLineStartsLoop i str := by
  induction str using eolCount.induct with
  | case1 => intro i; rfl
  | case2 c h =>
    intro i
    rcases h with rfl | rfl <;> rfl
  | case3 c h =>
    intro i
    rw [not_or] at h
    simp [createLineStartsLoop, h.1, h.2]
  | case4 c d t h ih =>
    intro i
    simp only [countLineStarts, createLineStartsLoop, if_pos h, ih]
  | case5 c d t h h' ih =>
    intro i
    simp only [countLineStarts, createLineStartsLoop, if_neg h, if_pos h']
    rcases h' with rfl | rfl
    · simp only [if_true, ih]
    · simp only [cr_ne_lf.symm, if_true, if_false, ih]
  | case6 c d t h h' ih =>
    intro i
    rw [not_or] at h'
    simp [createLineStartsLoop, h'.1, h'.2, ih]

theorem createLineStarts_lineStarts (str : JsString) : (createLineStarts str).lineStarts = createLineStartsFast str := by
  rw [createLineStarts, createLineStartsFast, countLineStarts_lineStarts]

theorem countLineStarts_kinds (str : JsString) : ∀ i, ((countLineStarts i str).cr, (countLineStarts i str).lf,
    (countLineStarts i str).crlf) = kinds str := by
  have hshift : ∀ i j, (countLineStarts i str).cr = (countLineStarts j str).cr ∧
      (countLineStarts i str).lf = (countLineStarts j str).lf ∧
      (countLineStarts i str).crlf = (countLineStarts j str).crlf := by
    induction str using eolCount.induct with
    | case1 => intro i j; exact ⟨rfl, rfl, rfl⟩
    | case2 c h => intro i j; rcases h with rfl | rfl <;> exact ⟨rfl, rfl, rfl⟩
    | case3 c h =>
      intro i j
      rw [not_or] at h
      simp [h.1, h.2]
    | case4 c d t h ih =>
      intro i j
      obtain ⟨h1, h2, h3⟩ := ih (i + 2) (j + 2)
      simp only [countLineStarts, if_pos h]
      exact ⟨h1, h2, by rw [h3]⟩
    | case5 c d t h h' ih =>
      intro i j
      obtain ⟨h1, h2, h3⟩ := ih (i + 1) (j + 1)
      simp only [countLineStarts, if_neg h]
      rcases h' with rfl | rfl
      · simp only [if_true]
        exact ⟨by rw [h1], h2, h3⟩
      · simp only [cr_ne_lf.symm, if_true, if_false]
        exact ⟨h1, by rw [h2], h3⟩
    | case6 c d t h h' ih =>
      intro i j
      rw [not_or] at h'
      simp only [countLineStarts, h'.1, h'.2, false_and, if_false]
      exact ih (i + 1) (j + 1)
  intro i
  obtain ⟨h1, h2, h3⟩ := hshift i 0
  rw [h1, h2, h3]
  rfl

section Kinds

variable {c d : UInt16} {t : JsString}

theorem kinds_eq (str : JsString) : kinds str =
    ((countLineStarts 0 str).cr, (countLineStarts 0 str).lf, (countLineStarts 0 str).crlf) := rfl

theorem kinds_crlf (t : JsString) : kinds (carriageReturn :: lineFeed :: t) = (0, 0, 1) + kinds t := by
  rw [kinds_eq, ← countLineStarts_kinds t 2]
  simp [Nat.add_comm]

theorem kinds_cr (h : t.head? ≠ some lineFeed) : kinds (carriageReturn :: t) = (1, 0, 0) + kinds t := by
  cases t with
  | nil => rfl
  | cons d t =>
    have hd : d ≠ lineFeed := by simpa using h
    rw [kinds_eq, ← countLineStarts_kinds (d :: t) 1]
    simp [hd, Nat.add_comm]

theorem kinds_lf (t : JsString) : kinds (lineFeed :: t) = (0, 1, 0) + kinds t := by
  cases t with
  | nil => rfl
  | cons d t =>
    rw [kinds_eq, ← countLineStarts_kinds (d :: t) 1]
    simp [cr_ne_lf.symm, Nat.add_comm]

theorem kinds_other (h : ¬ (c = carriageReturn ∨ c = lineFeed)) (t : JsString) : kinds (c :: t) = kinds t := by
  rw [not_or] at h
  cases t with
  | nil => rw [kinds_eq]; simp [h.1, h.2]; rfl
  | cons d t =>
    rw [kinds_eq, ← countLineStarts_kinds (d :: t) 1]
    simp [h.1, h.2]

theorem eol_induction {P : JsString → Prop} (nil : P []) (crlf : ∀ t, P t → P (carriageReturn :: lineFeed :: t))
    (cr : ∀ t, t.head? ≠ some lineFeed → P t → P (carriageReturn :: t)) (lf : ∀ t, P t → P (lineFeed :: t))
    (other : ∀ c t, ¬ (c = carriageReturn ∨ c = lineFeed) → P t → P (c :: t)) (str : JsString) : P str := by
  induction str using eolCount.induct with
  | case1 => exact nil
  | case2 c h =>
    rcases h with rfl | rfl
    · exact cr [] (by simp) nil
    · exact lf [] nil
  | case3 c h => exact other c [] h nil
  | case4 c d t h ih =>
    obtain ⟨rfl, rfl⟩ := h
    exact crlf t ih
  | case5 c d t h h' ih =>
    rcases h' with rfl | rfl
    · exact cr (d :: t) (by simpa using h) ih
    · exact lf (d :: t) ih
  | case6 c d t h h' ih => exact other c (d :: t) h' ih

end Kinds

theorem head?_append_ne_lf {t b : JsString} (ht : t.head? ≠ some lineFeed) (h : ¬ Junction (carriageReturn :: t) b) :
    (t ++ b).head? ≠ some lineFeed := by
  cases t with
  | nil =>
    intro hb
    exact h ⟨rfl, hb⟩
  | cons d t => exact ht

theorem kinds_append {a b : JsString} (h : ¬ Junction a b) : kinds (a ++ b) = kinds a + kinds b := by
  induction a using eol_induction with
  | nil => rw [nil_append, show kinds [] = 0 from rfl, zero_add]
  | crlf t ih =>
    have h' : ¬ Junction t b := not_junction_right (x := [carriageReturn, lineFeed]) h
    rw [cons_append, cons_append, kinds_crlf, kinds_crlf, ih h', add_assoc]
  | cr t ht ih =>
    have h' : ¬ Junction t b := not_junction_right (x := [carriageReturn]) h
    rw [cons_append, kinds_cr (head?_append_ne_lf ht h), kinds_cr ht, ih h', add_assoc]
  | lf t ih =>
    have h' : ¬ Junction t b := not_junction_right (x := [lineFeed]) h
    rw [cons_append, kinds_lf, kinds_lf, ih h', add_assoc]
  | other c t hc ih =>
    have h' : ¬ Junction t b := not_junction_right (x := [c]) h
    rw [cons_append, kinds_other hc, kinds_other hc, ih h']

theorem kinds_flatten {ts : List JsString} (h : Joined none ts) : kinds ts.flatten = (ts.map kinds).sum := by
  induction ts with
  | nil => rfl
  | cons t ts ih =>
    obtain ⟨hjoin, hts⟩ := joined_cons_iff.mp h
    rw [flatten_cons, kinds_append hjoin, ih hts, map_cons, sum_cons]

theorem replaceEol_lf (eol t : JsString) : replaceEol eol (lineFeed :: t) = eol ++ replaceEol eol t := by
  cases t with
  | nil => simp [replaceEol]
  | cons d t => simp [replaceEol, cr_ne_lf.symm]

variable {t : JsString}

theorem usesOnly_crlf (h : (kinds t).1 = 0 ∧ (kinds t).2.1 = 0) : UsesOnly .crlf t := by
  rw [UsesOnly]
  induction t using eol_induction with
  | nil => rfl
  | crlf t ih =>
    rw [kinds_crlf] at h
    rw [replaceEol, if_pos ⟨rfl, rfl⟩, ih (by simpa using h)]
    rfl
  | cr t ht ih =>
    rw [kinds_cr ht] at h
    simp at h
  | lf t ih =>
    rw [kinds_lf] at h
    simp at h
  | other c t hc ih =>
    rw [kinds_other hc] at h
    rw [replaceEol_cons hc, ih h]

theorem usesOnly_lf (h : (kinds t).1 = 0 ∧ (kinds t).2.2 = 0) : UsesOnly .lf t := by
  rw [UsesOnly]
  induction t using eol_induction with
  | nil => rfl
  | crlf t ih =>
    rw [kinds_crlf] at h
    simp at h
  | cr t ht ih =>
    rw [kinds_cr ht] at h
    simp at h
  | lf t ih =>
    rw [kinds_lf] at h
    rw [replaceEol_lf, ih (by simpa using h)]
    rfl
  | other c t hc ih =>
    rw [kinds_other hc] at h
    rw [replaceEol_cons hc, ih h]

theorem replaceEol_flatten {eol : JsString} {ts : List JsString} (h : Joined none ts) :
    replaceEol eol ts.flatten = (ts.map (replaceEol eol)).flatten := by
  induction ts with
  | nil => rfl
  | cons t ts ih =>
    obtain ⟨hjoin, hts⟩ := joined_cons_iff.mp h
    rw [flatten_cons, replaceEol_append hjoin, ih hts, map_cons, flatten_cons]

theorem eolCount_cr (h : t.head? ≠ some lineFeed) : eolCount (carriageReturn :: t) = eolCount t + 1 := by
  have hjoin : ¬ Junction [carriageReturn] t := fun hjoin => h hjoin.2
  have := eolCount_append hjoin
  rw [singleton_append] at this
  rw [this, show eolCount [carriageReturn] = 1 from rfl, Nat.add_comm]

theorem replaceEol_cr (eol : JsString) (h : t.head? ≠ some lineFeed) :
    replaceEol eol (carriageReturn :: t) = eol ++ replaceEol eol t := by
  have hjoin : ¬ Junction [carriageReturn] t := fun hjoin => h hjoin.2
  exact replaceEol_append hjoin

theorem eolCount_eol (eol : EndOfLine) (t : JsString) : eolCount (eol.text ++ t) = eolCount t + 1 := by
  cases eol with
  | lf => exact eolCount_cons_lf t
  | crlf => exact if_pos ⟨rfl, rfl⟩

theorem eolCount_replaceEol (eol : EndOfLine) (t : JsString) : eolCount (replaceEol eol.text t) = eolCount t := by
  induction t using eol_induction with
  | nil => rfl
  | crlf t ih => rw [replaceEol, if_pos ⟨rfl, rfl⟩, eolCount_eol, ih, eolCount, if_pos ⟨rfl, rfl⟩]
  | cr t ht ih => rw [replaceEol_cr _ ht, eolCount_eol, ih, eolCount_cr ht]
  | lf t ih => rw [replaceEol_lf, eolCount_eol, ih, eolCount_cons_lf]
  | other c t hc ih => rw [replaceEol_cons hc, eolCount_other hc, eolCount_other hc, ih]

/-! ## The builder -/

variable {x : UInt16}

namespace PieceTreeTextBufferBuilder

def stored (b : PieceTreeTextBufferBuilder) : JsString := (b.chunks.map StringBuffer.buffer).flatten

/-- The unit that is kept back. -/
def held (b : PieceTreeTextBufferBuilder) : JsString := if b.hasPreviousChar then [b.previousChar] else []

structure Ok (b : PieceTreeTextBufferBuilder) : Prop where
  chunks : ∀ c ∈ b.chunks, c.Ok ∧ c.buffer ≠ []
  joined : Joined none (b.chunks.map StringBuffer.buffer)
  kinds : (b.cr, b.lf, b.crlf) = (b.chunks.map fun c => kinds c.buffer).sum
  held : b.hasPreviousChar = true → keptBack b.previousChar = true
  last : b.hasPreviousChar = false → b.stored.getLast? ≠ some carriageReturn

variable {b b' : PieceTreeTextBufferBuilder}

theorem keptBack_ne_lf (h : keptBack x = true) : x ≠ lineFeed := by
  rintro rfl
  revert h
  decide

/-- What comes next never makes a `\r\n` with the last buffer. -/
theorem Ok.not_junction (h : b.Ok) (t : JsString) : ¬ Junction b.stored (b.held ++ t) := by
  rintro ⟨hcr, hlf⟩
  cases hprev : b.hasPreviousChar with
  | true =>
    rw [PieceTreeTextBufferBuilder.held, hprev] at hlf
    exact keptBack_ne_lf (h.held hprev) (Option.some.inj hlf)
  | false => exact h.last hprev hcr

/-- `b'` has stored the text behind what `b` has. -/
structure Stores (b : PieceTreeTextBufferBuilder) (chunk : JsString) (b' : PieceTreeTextBufferBuilder) : Prop where
  chunks : b'.chunks = b.chunks ++ [⟨chunk, createLineStartsFast chunk⟩]
  kinds : (b'.cr, b'.lf, b'.crlf) = (b.cr, b.lf, b.crlf) + PieceTree.kinds chunk
  bom : b'.bom = b.bom

theorem acceptChunk2_stores (b : PieceTreeTextBufferBuilder) (chunk : JsString) : Stores b chunk (b.acceptChunk2 chunk) := by
  refine ⟨?_, rfl, rfl⟩
  rw [acceptChunk2, createLineStarts_lineStarts]

variable {chunk : JsString}

theorem acceptChunk1_stores (b : PieceTreeTextBufferBuilder) {allow : Bool} (h : ¬ (allow = false ∧ chunk = [])) :
    Stores b (b.held ++ chunk) (b.acceptChunk1 chunk allow) := by
  rw [acceptChunk1, if_neg h, held]
  split
  · exact acceptChunk2_stores b _
  · exact acceptChunk2_stores b _

theorem Stores.withPrevious (h : Stores b chunk b') (hasPreviousChar : Bool) (previousChar : UInt16) :
    Stores b chunk { b' with hasPreviousChar, previousChar } := ⟨h.chunks, h.kinds, h.bom⟩

theorem Stores.stored (h : Stores b chunk b') : b'.stored = b.stored ++ chunk := by
  rw [PieceTreeTextBufferBuilder.stored, h.chunks]
  simp [PieceTreeTextBufferBuilder.stored]

theorem Stores.ok {r : JsString} (h : Stores b (b.held ++ r) b') (hb : b.Ok) (hne : r ≠ [])
    (hheld : b'.hasPreviousChar = true → keptBack b'.previousChar = true)
    (hlast : b'.hasPreviousChar = false → r.getLast? ≠ some carriageReturn) : b'.Ok := by
  refine ⟨?_, ?_, ?_, hheld, ?_⟩
  · rw [h.chunks]
    intro c hc
    rcases mem_append.mp hc with hc | hc
    · exact hb.chunks c hc
    · obtain rfl := mem_singleton.mp hc
      exact ⟨rfl, by simp [hne]⟩
  · rw [h.chunks, map_append, joined_append_iff]
    refine ⟨hb.joined, by simp [Joined], ?_⟩
    have := hb.not_junction r
    rw [PieceTreeTextBufferBuilder.stored] at this
    simpa using this
  · rw [h.kinds, hb.kinds, h.chunks, map_append, sum_append]
    simp
  · intro hprev
    rw [h.stored, ← append_assoc, getLast?_append_of_ne_nil _ hne]
    exact hlast hprev

/-- The cases of `acceptRest`: nothing, a unit to be kept back alone, and a text that is stored. -/
inductive Accepts (b : PieceTreeTextBufferBuilder) : JsString → PieceTreeTextBufferBuilder → Prop
  | nothing {b' : PieceTreeTextBufferBuilder} : b'.chunks = b.chunks → b'.held = [] → Accepts b [] b'
  | alone {b' : PieceTreeTextBufferBuilder} {x : UInt16} : keptBack x = true → b'.chunks = b.chunks → b'.held = [x] →
      Accepts b [x] b'
  | stored {b' : PieceTreeTextBufferBuilder} {r : JsString} : r ≠ [] → (∀ x, keptBack x = true → r ≠ [x]) → b'.chunks ≠ [] →
      b'.stored ++ b'.held = b.stored ++ b.held ++ r → b'.held = r.getLast?.toList.filter keptBack → Accepts b r b'

theorem acceptRest_kept (b : PieceTreeTextBufferBuilder) (body : JsString) (h : keptBack x = true) :
    b.acceptRest (body ++ [x]) = { b.acceptChunk1 body false with hasPreviousChar := true, previousChar := x } := by
  rw [acceptRest, getLast?_concat, dropLast_concat]
  exact if_pos h

theorem acceptRest_other (b : PieceTreeTextBufferBuilder) (body : JsString) (h : keptBack x = false) :
    b.acceptRest (body ++ [x]) = { b.acceptChunk1 (body ++ [x]) false with hasPreviousChar := false, previousChar := x } := by
  rw [acceptRest, getLast?_concat]
  exact if_neg (by simp [h])

theorem acceptRest_accepts (hb : b.Ok) (r : JsString) (hr : r = [] → b.chunks = []) :
    (b.acceptRest r).Ok ∧ (b.acceptRest r).bom = b.bom ∧ Accepts b r (b.acceptRest r) := by
  rcases eq_nil_or_concat r with rfl | ⟨body, x, rfl⟩
  · have hchunks := hr rfl
    refine ⟨⟨hb.chunks, hb.joined, hb.kinds, fun h => Bool.noConfusion h, fun _ => ?_⟩, rfl, .nothing rfl rfl⟩
    show (b.chunks.map StringBuffer.buffer).flatten.getLast? ≠ _
    rw [hchunks]
    simp
  · rw [concat_eq_append]
    cases hkept : keptBack x with
    | true =>
      rw [acceptRest_kept b body hkept]
      by_cases hbody : body = []
      · subst hbody
        exact ⟨⟨hb.chunks, hb.joined, hb.kinds, fun _ => hkept, fun h => Bool.noConfusion h⟩, rfl,
          .alone hkept rfl rfl⟩
      · have hstores := (acceptChunk1_stores b (fun h => hbody h.2 : ¬ (false = false ∧ body = []))).withPrevious true x
        refine ⟨hstores.ok hb hbody (fun _ => hkept) (fun h => Bool.noConfusion h), hstores.bom, ?_⟩
        refine .stored (by simp) ?_ ?_ ?_ ?_
        · rintro y - heq
          have hlength := congrArg List.length heq
          have hpos := length_pos_iff.mpr hbody
          rw [length_append, length_singleton, length_singleton] at hlength
          omega
        · rw [hstores.chunks]
          simp
        · rw [hstores.stored]
          simp [held]
        · simp [held, hkept]
    | false =>
      rw [acceptRest_other b body hkept]
      have hne : body ++ [x] ≠ [] := by simp
      have hstores := (acceptChunk1_stores b (fun h => hne h.2 : ¬ (false = false ∧ body ++ [x] = []))).withPrevious false x
      refine ⟨hstores.ok hb hne (fun h => Bool.noConfusion h) (fun _ hcr => ?_), hstores.bom, ?_⟩
      · rw [getLast?_concat] at hcr
        obtain rfl := Option.some.inj hcr
        revert hkept
        decide
      · refine .stored hne ?_ ?_ ?_ ?_
        · rintro y hy heq
          have hlast := congrArg getLast? heq
          rw [getLast?_concat] at hlast
          obtain rfl := Option.some.inj hlast
          rw [hy] at hkept
          cases hkept
        · rw [hstores.chunks]
          simp
        · rw [hstores.stored]
          simp [held]
        · simp [held, hkept]

end PieceTreeTextBufferBuilder

namespace PieceTreeTextBufferBuilder

variable {b b' : PieceTreeTextBufferBuilder}

/-! ## The end of the text -/

/-- The text that is loaded: without any buffer, a unit that is kept back gets in twice. -/
def final (b : PieceTreeTextBufferBuilder) : JsString := if b.chunks = [] then b.held ++ b.held else b.stored ++ b.held

structure Finished (b : PieceTreeTextBufferBuilder) (text : JsString) : Prop where
  ok : ∀ c ∈ b.chunks, c.Ok
  nonempty : (∀ c ∈ b.chunks, c.buffer ≠ []) ∨ ∀ c ∈ b.chunks, c.buffer = []
  joined : Joined none (b.chunks.map StringBuffer.buffer)
  kinds : (b.cr, b.lf, b.crlf) = (b.chunks.map fun c => kinds c.buffer).sum
  text : b.stored = text

theorem kinds_keptBack (h : keptBack x = true) : kinds [x] = if x = carriageReturn then (1, 0, 0) else 0 := by
  split
  · next hx => subst hx; rfl
  · next hx => rw [kinds_other (by rw [not_or]; exact ⟨hx, keptBack_ne_lf h⟩)]; rfl

theorem finishLast_spec {init : List StringBuffer} {c : StringBuffer} (hchunks : b.chunks = init ++ [c])
    (hok : ∀ c ∈ b.chunks, c.Ok) (hinit : ∀ c ∈ init, c.buffer ≠ []) (hlast : c.buffer = [] → init = [])
    (hjoined : Joined none (b.chunks.map StringBuffer.buffer))
    (hkinds : (b.cr, b.lf, b.crlf) = (b.chunks.map fun c => kinds c.buffer).sum)
    (hheld : b.hasPreviousChar = true → keptBack b.previousChar = true) :
    Finished b.finishLast (b.stored ++ b.held) ∧ b.finishLast.bom = b.bom := by
  rw [finishLast]
  cases hprev : b.hasPreviousChar with
  | false =>
    refine ⟨⟨hok, ?_, hjoined, hkinds, ?_⟩, rfl⟩
    · by_cases hc : c.buffer = []
      · right
        intro c' hc'
        rw [if_neg Bool.false_ne_true, hchunks, hlast hc] at hc'
        obtain rfl := mem_singleton.mp hc'
        exact hc
      · left
        intro c' hc'
        rw [if_neg Bool.false_ne_true, hchunks] at hc'
        rcases mem_append.mp hc' with hc' | hc'
        · exact hinit c' hc'
        · obtain rfl := mem_singleton.mp hc'
          exact hc
    · rw [held, hprev]
      exact (append_nil _).symm
  | true =>
    have hkept := hheld hprev
    have hget : b.chunks.getLast? = some c := by rw [hchunks, getLast?_concat]
    have hdrop : b.chunks.dropLast = init := by rw [hchunks, dropLast_concat]
    rw [if_pos rfl, hget, hdrop]
    have hjoin : ¬ Junction c.buffer [b.previousChar] := fun hjoin => keptBack_ne_lf hkept (Option.some.inj hjoin.2)
    refine ⟨⟨?_, .inl ?_, ?_, ?_, ?_⟩, rfl⟩
    · intro c' hc'
      rcases mem_append.mp hc' with hc' | hc'
      · exact hok c' (hchunks ▸ mem_append_left _ hc')
      · obtain rfl := mem_singleton.mp hc'
        rfl
    · intro c' hc'
      rcases mem_append.mp hc' with hc' | hc'
      · exact hinit c' hc'
      · obtain rfl := mem_singleton.mp hc'
        simp
    · rw [hchunks, map_append, joined_append_iff] at hjoined
      rw [map_append, joined_append_iff]
      refine ⟨hjoined.1, by simp [Joined], ?_⟩
      have hnot := hjoined.2.2
      simp only [map_cons, map_nil, flatten_cons, flatten_nil, append_nil] at hnot ⊢
      by_cases hc : c.buffer = []
      · rw [hlast hc]
        exact not_junction_nil_left _
      · rw [junction_append_right hc]
        exact hnot
    · rw [hchunks, map_append, sum_append] at hkinds
      rw [map_append, sum_append]
      simp only [map_cons, map_nil, sum_cons, List.sum_nil, add_zero] at hkinds ⊢
      rw [kinds_append hjoin, kinds_keptBack hkept, ← add_assoc, ← hkinds]
      split <;> rfl
    · simp only [stored, held, hprev, hchunks]
      simp

theorem finishChunks_spec (hb : b.Ok) : Finished b.finishChunks b.final ∧ b.finishChunks.bom = b.bom := by
  rw [finishChunks, final]
  by_cases hchunks : b.chunks = []
  · rw [if_pos hchunks, if_pos hchunks]
    have hstores := acceptChunk1_stores b (by simp : ¬ (true = false ∧ ([] : JsString) = []))
    rw [append_nil] at hstores
    have hprev : (b.acceptChunk1 [] true).hasPreviousChar = b.hasPreviousChar ∧
        (b.acceptChunk1 [] true).previousChar = b.previousChar := by
      rw [acceptChunk1, if_neg (by simp)]
      split <;> exact ⟨rfl, rfl⟩
    have hheld : (b.acceptChunk1 [] true).held = b.held := by rw [held, hprev.1, hprev.2]; rfl
    have hstored : (b.acceptChunk1 [] true).stored = b.held := by
      rw [hstores.stored, stored, hchunks]
      rfl
    have hkinds := hb.kinds
    rw [hchunks] at hkinds
    have hone : (b.acceptChunk1 [] true).chunks = [] ++ [⟨b.held, createLineStartsFast b.held⟩] := by
      rw [hstores.chunks, hchunks]
    obtain ⟨hfinished, hbom⟩ := finishLast_spec hone (by rw [hone]; simp; rfl) (by simp) (fun _ => rfl)
      (by rw [hone]; simp [Joined]) (by rw [hstores.kinds, hkinds, hone]; simp) (by
        rw [hprev.1, hprev.2]
        exact hb.held)
    rw [hstored, hheld] at hfinished
    exact ⟨hfinished, hbom.trans hstores.bom⟩
  · rw [if_neg hchunks, if_neg hchunks]
    obtain ⟨init, c, hc⟩ := (eq_nil_or_concat b.chunks).resolve_left hchunks
    rw [concat_eq_append] at hc
    have hne : ∀ c' ∈ b.chunks, c'.buffer ≠ [] := fun c' hc' => (hb.chunks c' hc').2
    rw [hc] at hne
    obtain ⟨hinit, hlast⟩ := forall_mem_append.mp hne
    exact finishLast_spec hc (fun c' hc' => (hb.chunks c' hc').1) hinit
      (fun hempty => (hlast c (mem_singleton_self c) hempty).elim) hb.joined hb.kinds hb.held

end PieceTreeTextBufferBuilder

/-! ## The loaded buffer -/

structure LoadedAs (buffer : PieceTreeTextBuffer) (mark str : JsString) (normalizeEOL : Bool) (eol : EndOfLine) : Prop where
  text : buffer.text = if normalizeEOL then replaceEol eol.text str else str
  bom : buffer.bom = mark
  getEOL : buffer.getEOL = eol
  lineCount : buffer.getLineCount = 1 + eolCount str

def chosenEOL (defaultEOL : EndOfLine) (text : JsString) : EndOfLine :=
  getEOL defaultEOL (kinds text).1 (kinds text).2.1 (kinds text).2.2

theorem sum_eq_zero (chunks : List StringBuffer) (f : StringBuffer → Nat × Nat × Nat) {g : Nat × Nat × Nat → Nat}
    (hg : ∀ x y, g (x + y) = g x + g y) (h : g (chunks.map f).sum = 0) : ∀ c ∈ chunks, g (f c) = 0 := by
  induction chunks with
  | nil => simp
  | cons c chunks ih =>
    rw [map_cons, sum_cons, hg] at h
    refine forall_mem_cons.mpr ⟨by omega, ih (by omega)⟩

/-- Without other line breaks nothing is to be normalized. -/
theorem usesOnly_of_kinds {chunks : List StringBuffer} {eol : EndOfLine} {n : Nat × Nat × Nat}
    (hn : n = (chunks.map fun c => kinds c.buffer).sum)
    (h : ¬ ((eol = .crlf ∧ (n.1 > 0 ∨ n.2.1 > 0)) ∨ eol = .lf ∧ (n.1 > 0 ∨ n.2.2 > 0))) :
    ∀ c ∈ chunks, UsesOnly eol c.buffer := by
  intro c hc
  subst hn
  have h1 := sum_eq_zero chunks (fun c => kinds c.buffer) (g := fun x => x.1) (fun _ _ => rfl)
  have h2 := sum_eq_zero chunks (fun c => kinds c.buffer) (g := fun x => x.2.1) (fun _ _ => rfl)
  have h3 := sum_eq_zero chunks (fun c => kinds c.buffer) (g := fun x => x.2.2) (fun _ _ => rfl)
  cases eol with
  | crlf => exact usesOnly_crlf ⟨h1 (by simp at h; omega) c hc, h2 (by simp at h; omega) c hc⟩
  | lf => exact usesOnly_lf ⟨h1 (by simp at h; omega) c hc, h3 (by simp at h; omega) c hc⟩

namespace PieceTreeTextBufferBuilder

theorem Finished.chunksOk {b : PieceTreeTextBufferBuilder} {str : JsString} (h : b.Finished str) (normalizeEOL : Bool)
    (eol : EndOfLine) {chunks : List StringBuffer}
    (hchunks : chunks = if normalizeEOL && ((eol = .crlf && (b.cr > 0 || b.lf > 0)) || (eol = .lf && (b.cr > 0 || b.crlf > 0))) then
        b.chunks.map fun chunk => ⟨replaceEol eol.text chunk.buffer, createLineStartsFast (replaceEol eol.text chunk.buffer)⟩
      else b.chunks) :
    ChunksOk chunks eol normalizeEOL ∧
      (chunks.map StringBuffer.buffer).flatten = if normalizeEOL then replaceEol eol.text str else str := by
  have htext : (b.chunks.map StringBuffer.buffer).flatten = str := h.text
  cases normalizeEOL with
  | false =>
    subst hchunks
    exact ⟨⟨h.nonempty, h.ok, h.joined, fun hfalse => Bool.noConfusion hfalse⟩, htext⟩
  | true =>
    rw [if_pos rfl, ← htext, replaceEol_flatten h.joined]
    split at hchunks
    · subst hchunks
      refine ⟨⟨?_, ?_, ?_, fun _ => ?_⟩, by simp [Function.comp_def]⟩
      · refine h.nonempty.imp (fun hne c hc => ?_) (fun hempty c hc => ?_)
        · obtain ⟨c', hc', rfl⟩ := mem_map.mp hc
          exact replaceEol_ne_nil eol (hne c' hc')
        · obtain ⟨c', hc', rfl⟩ := mem_map.mp hc
          show replaceEol eol.text c'.buffer = []
          rw [hempty c' hc']
          rfl
      · intro c hc
        obtain ⟨c', -, rfl⟩ := mem_map.mp hc
        rfl
      · refine joined_of_getLast? none fun t ht => ?_
        obtain ⟨c, hc, rfl⟩ := mem_map.mp ht
        obtain ⟨c', -, rfl⟩ := mem_map.mp hc
        exact (usesOnly_replaceEol eol c'.buffer).getLast?
      · intro c hc
        obtain ⟨c', -, rfl⟩ := mem_map.mp hc
        exact usesOnly_replaceEol eol c'.buffer
    · next hmixed =>
      subst hchunks
      have huses : ∀ c ∈ b.chunks, UsesOnly eol c.buffer := usesOnly_of_kinds h.kinds (by simpa using hmixed)
      refine ⟨⟨h.nonempty, h.ok, h.joined, fun _ => huses⟩, ?_⟩
      rw [map_map]
      exact congrArg List.flatten (map_congr_left fun c hc => (huses c hc).symm)

theorem Finished.create {b : PieceTreeTextBufferBuilder} {str : JsString} (h : b.finishChunks.Finished str)
    (normalizeEOL : Bool) (defaultEOL : EndOfLine) :
    LoadedAs ((b.finish normalizeEOL).create defaultEOL) b.finishChunks.bom str normalizeEOL (chosenEOL defaultEOL str) := by
  have hkinds : (b.finishChunks.cr, b.finishChunks.lf, b.finishChunks.crlf) = PieceTree.kinds str := by
    rw [h.kinds, ← h.text, PieceTreeTextBufferBuilder.stored, kinds_flatten h.joined, map_map]
    rfl
  have heol : getEOL defaultEOL b.finishChunks.cr b.finishChunks.lf b.finishChunks.crlf = chosenEOL defaultEOL str := by
    rw [chosenEOL, ← hkinds]
  obtain ⟨hchunks, hflatten⟩ := h.chunksOk normalizeEOL
    (getEOL defaultEOL b.finishChunks.cr b.finishChunks.lf b.finishChunks.crlf) rfl
  obtain ⟨L, hinv, htext, heol', -⟩ := create_spec hchunks
  rw [hflatten] at htext
  refine ⟨?_, rfl, heol'.trans heol, ?_⟩
  · rw [← heol]
    exact hinv.getLinesRawContent.trans htext
  · refine hinv.lineCnt.trans ?_
    rw [htext]
    split
    · rw [eolCount_replaceEol]
    · rfl

end PieceTreeTextBufferBuilder

end TongjiCode.PieceTree
