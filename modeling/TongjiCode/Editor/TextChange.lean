import TongjiCode.Base.JsString

/-!
# Text changes and their compression

A `TextChange` replaces `oldText` at `oldPosition` by `newText`, which then stands at `newPosition`.
`compressConsecutiveTextChanges` turns two consecutive lists of changes into one: the lists are swept
together over the middle text, a change of either side is split where one of the other side starts or
ends, and the results are merged and cleaned of no-ops.

`Edits` says what a list of changes means on a text with given start offsets.  Every turn of the sweep
keeps it (`Edits.acceptCurr`, `Edits.acceptPrev`, `Edits.acceptBoth`), whence `compressLoop_edits`.
`compressConsecutiveTextChanges_turns` states the result over whole texts.
-/

open List

namespace TongjiCode.Editor

/-! ## Algorithm -/

structure TextChange where
  oldPosition : Int
  oldText : JsString
  newPosition : Int
  newText : JsString
  deriving Repr, DecidableEq

namespace TextChange

def oldLength (c : TextChange) : Int := c.oldText.length

def oldEnd (c : TextChange) : Int := c.oldPosition + c.oldText.length

def newLength (c : TextChange) : Int := c.newText.length

def newEnd (c : TextChange) : Int := c.newPosition + c.newText.length

end TextChange

namespace TextChangeCompressor

def rebaseCurr (prevDeltaOffset : Int) (currEdit : TextChange) : TextChange :=
  ⟨currEdit.oldPosition - prevDeltaOffset, currEdit.oldText, currEdit.newPosition, currEdit.newText⟩

def rebasePrev (currDeltaOffset : Int) (prevEdit : TextChange) : TextChange :=
  ⟨prevEdit.oldPosition, prevEdit.oldText, prevEdit.newPosition + currDeltaOffset, prevEdit.newText⟩

/-- Both split functions are only called with an offset that is not negative. -/
def splitPrev (edit : TextChange) (offset : Int) : TextChange × TextChange :=
  (⟨edit.oldPosition, edit.oldText, edit.newPosition, edit.newText.take offset.toNat⟩,
    ⟨edit.oldEnd, [], edit.newPosition + offset, edit.newText.drop offset.toNat⟩)

def splitCurr (edit : TextChange) (offset : Int) : TextChange × TextChange :=
  (⟨edit.oldPosition, edit.oldText.take offset.toNat, edit.newPosition, edit.newText⟩,
    ⟨edit.oldPosition + offset, edit.oldText.drop offset.toNat, edit.newEnd, []⟩)

/-- The result of a piece of a previous edit whose new text is the old text of a piece of a current
edit. -/
def combine (mergePrev mergeCurr : TextChange) : TextChange :=
  ⟨mergePrev.oldPosition, mergePrev.oldText, mergeCurr.newPosition, mergeCurr.newText⟩

/-- What is left to sweep: the edits and the parts of the middle text they cover. -/
def todo (prev curr : List TextChange) : Nat :=
  (prev.map fun p => p.newText.length + 1).sum + (curr.map fun c => c.oldText.length + 1).sum

/-- The loop of `compress`.  The first elements of the lists are `prevEdit` and `currEdit`, possibly
what is left of them after a split; the result is what the loop appends. -/
def compressLoop (prevDeltaOffset currDeltaOffset : Int) :
    List TextChange → List TextChange → List TextChange
  | [], [] => []
  | [], currEdit :: curr =>
    rebaseCurr prevDeltaOffset currEdit ::
      compressLoop prevDeltaOffset (currDeltaOffset + (currEdit.newLength - currEdit.oldLength)) [] curr
  | prevEdit :: prev, [] =>
    rebasePrev currDeltaOffset prevEdit ::
      compressLoop (prevDeltaOffset + (prevEdit.newLength - prevEdit.oldLength)) currDeltaOffset prev []
  | prevEdit :: prev, currEdit :: curr =>
    if currEdit.oldEnd ≤ prevEdit.newPosition then
      rebaseCurr prevDeltaOffset currEdit ::
        compressLoop prevDeltaOffset (currDeltaOffset + (currEdit.newLength - currEdit.oldLength))
          (prevEdit :: prev) curr
    else if prevEdit.newEnd ≤ currEdit.oldPosition then
      rebasePrev currDeltaOffset prevEdit ::
        compressLoop (prevDeltaOffset + (prevEdit.newLength - prevEdit.oldLength)) currDeltaOffset
          prev (currEdit :: curr)
    else if currEdit.oldPosition < prevEdit.newPosition then
      let e := splitCurr currEdit (prevEdit.newPosition - currEdit.oldPosition)
      rebaseCurr prevDeltaOffset e.1 ::
        compressLoop prevDeltaOffset (currDeltaOffset + (e.1.newLength - e.1.oldLength))
          (prevEdit :: prev) (e.2 :: curr)
    else if prevEdit.newPosition < currEdit.oldPosition then
      let e := splitPrev prevEdit (currEdit.oldPosition - prevEdit.newPosition)
      rebasePrev currDeltaOffset e.1 ::
        compressLoop (prevDeltaOffset + (e.1.newLength - e.1.oldLength)) currDeltaOffset
          (e.2 :: prev) (currEdit :: curr)
    else if currEdit.oldEnd = prevEdit.newEnd then
      combine prevEdit currEdit ::
        compressLoop (prevDeltaOffset + (prevEdit.newLength - prevEdit.oldLength))
          (currDeltaOffset + (currEdit.newLength - currEdit.oldLength)) prev curr
    else if currEdit.oldEnd < prevEdit.newEnd then
      let e := splitPrev prevEdit currEdit.oldLength
      combine e.1 currEdit ::
        compressLoop (prevDeltaOffset + (e.1.newLength - e.1.oldLength))
          (currDeltaOffset + (currEdit.newLength - currEdit.oldLength)) (e.2 :: prev) curr
    else
      let e := splitCurr currEdit prevEdit.newLength
      combine prevEdit e.1 ::
        compressLoop (prevDeltaOffset + (prevEdit.newLength - prevEdit.oldLength))
          (currDeltaOffset + (e.1.newLength - e.1.oldLength)) prev (e.2 :: curr)
termination_by prev curr => todo prev curr
decreasing_by
  all_goals
    simp_all only [todo, splitCurr, splitPrev, TextChange.oldEnd, TextChange.newEnd, TextChange.oldLength,
      TextChange.newLength, map_cons, map_nil, sum_cons, List.sum_nil, length_drop]
    omega

def mergeLoop (prev : TextChange) : List TextChange → List TextChange
  | [] => [prev]
  | curr :: edits =>
    if prev.oldEnd = curr.oldPosition then
      mergeLoop ⟨prev.oldPosition, prev.oldText ++ curr.oldText, prev.newPosition,
        prev.newText ++ curr.newText⟩ edits
    else prev :: mergeLoop curr edits

def merge : List TextChange → List TextChange
  | [] => []
  | edit :: edits => mergeLoop edit edits

def removeNoOps : List TextChange → List TextChange
  | [] => []
  | edit :: edits => if edit.oldText = edit.newText then removeNoOps edits else edit :: removeNoOps edits

def compress (prevEdits currEdits : List TextChange) : List TextChange :=
  removeNoOps (merge (compressLoop 0 0 prevEdits currEdits))

end TextChangeCompressor

open TextChangeCompressor

def compressConsecutiveTextChanges (prevEdits : Option (List TextChange)) (currEdits : List TextChange) :
    List TextChange :=
  match prevEdits with
  | none => currEdits
  | some [] => currEdits
  | some (edit :: edits) => compress (edit :: edits) currEdits

/-! ## Meaning of a list of changes -/

/-- The changes turn a text into another one; `i` and `j` are the offsets at which the two start. -/
inductive Edits : List TextChange → Int → Int → JsString → JsString → Prop
  | nil (i j : Int) (s : JsString) : Edits [] i j s s
  | cons {i j : Int} {c : TextChange} {cs : List TextChange} {s t : JsString} (keep : JsString)
      (old : c.oldPosition = i + keep.length) (new : c.newPosition = j + keep.length)
      (rest : Edits cs c.oldEnd c.newEnd s t) :
      Edits (c :: cs) i j (keep ++ (c.oldText ++ s)) (keep ++ (c.newText ++ t))

def TextChange.inverse (c : TextChange) : TextChange := ⟨c.newPosition, c.newText, c.oldPosition, c.oldText⟩

namespace Edits

variable {i j m k : Int} {c p : TextChange} {cs prev curr rest : List TextChange} {s t u s₀ s₁ s₂ : JsString}

theorem inverse (h : Edits cs i j s t) : Edits (cs.map TextChange.inverse) j i t s := by
  induction h with
  | nil i j s => exact .nil j i s
  | cons keep old new _ ih => exact .cons keep new old ih

theorem of_inverse (h : Edits (cs.map TextChange.inverse) i j s t) : Edits cs j i t s := by
  have h' := h.inverse
  rw [map_map, show TextChange.inverse ∘ TextChange.inverse = id from rfl, List.map_id] at h'
  exact h'

theorem skip_old (h : Edits cs i j (u ++ s) t) (hle : ∀ c ∈ cs.head?, i + u.length ≤ c.oldPosition) :
    ∃ t', t = u ++ t' ∧ Edits cs (i + u.length) (j + u.length) s t' := by
  generalize hus : u ++ s = us at h
  cases h with
  | nil => exact ⟨s, hus.symm, .nil _ _ s⟩
  | @cons _ _ c cs s' t' keep old new rest =>
    have hle' := hle c (by simp)
    obtain ⟨keep', rfl, rfl⟩ : ∃ keep', keep = u ++ keep' ∧ s = keep' ++ (c.oldText ++ s') := by
      rcases append_eq_append_iff.mp hus with ⟨a, ha, hs⟩ | ⟨a, ha, hs⟩
      · exact ⟨a, ha, hs⟩
      · have hlen : a.length = 0 := by
          have := congrArg List.length ha
          rw [length_append] at this
          omega
        have ha' := eq_nil_of_length_eq_zero hlen
        subst ha'
        exact ⟨[], by simpa using ha.symm, by simpa using hs.symm⟩
    rw [length_append] at old new
    refine ⟨keep' ++ (c.newText ++ t'), by simp, .cons keep' (by omega) (by omega) rest⟩

theorem skip_new (h : Edits cs i j s (u ++ t)) (hle : ∀ c ∈ cs.head?, j + u.length ≤ c.newPosition) :
    ∃ s', s = u ++ s' ∧ Edits cs (i + u.length) (j + u.length) s' t := by
  obtain ⟨s', hs, h'⟩ := h.inverse.skip_old (by
    intro c' hc'
    rw [head?_map, Option.mem_def, Option.map_eq_some_iff] at hc'
    obtain ⟨c, hc, rfl⟩ := hc'
    exact hle c hc)
  exact ⟨s', hs, h'.of_inverse⟩

/-- A current change that ends before the next previous one is taken over. -/
theorem acceptCurr {prevDelta : Int} (hm : m = i + prevDelta) (hprev : Edits prev i m s₀ s₁)
    (hcurr : Edits (c :: cs) m k s₁ s₂) (hle : ∀ p ∈ prev.head?, c.oldEnd ≤ p.newPosition)
    (ih : ∀ s₀ s₁ s₂, Edits prev (c.oldEnd - prevDelta) c.oldEnd s₀ s₁ → Edits cs c.oldEnd c.newEnd s₁ s₂ →
      Edits rest (c.oldEnd - prevDelta) c.newEnd s₀ s₂) :
    Edits (rebaseCurr prevDelta c :: rest) i k s₀ s₂ := by
  cases hcurr with
  | @cons _ _ _ _ s1' s2' keep old new hcs =>
    have hend : m + ((keep ++ c.oldText).length : Nat) = c.oldEnd := by
      rw [length_append, TextChange.oldEnd]
      omega
    rw [← append_assoc] at hprev
    obtain ⟨s0', rfl, hprev'⟩ := hprev.skip_new (by rw [hend]; exact hle)
    rw [hend, show i + ((keep ++ c.oldText).length : Nat) = c.oldEnd - prevDelta by omega] at hprev'
    rw [append_assoc]
    have hstart : (rebaseCurr prevDelta c).oldEnd = c.oldEnd - prevDelta := by
      simp only [rebaseCurr, TextChange.oldEnd]
      omega
    refine .cons (c := rebaseCurr prevDelta c) keep ?_ new ?_
    · simp only [rebaseCurr]
      omega
    · rw [hstart]
      exact ih s0' s1' s2' hprev' hcs

/-- A previous change that ends before the next current one is taken over. -/
theorem acceptPrev {currDelta : Int} (hk : k = m + currDelta) (hprev : Edits (p :: cs) i m s₀ s₁)
    (hcurr : Edits curr m k s₁ s₂) (hle : ∀ c ∈ curr.head?, p.newEnd ≤ c.oldPosition)
    (ih : ∀ s₀ s₁ s₂, Edits cs p.oldEnd p.newEnd s₀ s₁ → Edits curr p.newEnd (p.newEnd + currDelta) s₁ s₂ →
      Edits rest p.oldEnd (p.newEnd + currDelta) s₀ s₂) :
    Edits (rebasePrev currDelta p :: rest) i k s₀ s₂ := by
  cases hprev with
  | @cons _ _ _ _ s0' s1' keep old new hcs =>
    have hend : m + ((keep ++ p.newText).length : Nat) = p.newEnd := by
      rw [length_append, TextChange.newEnd]
      omega
    rw [← append_assoc] at hcurr
    obtain ⟨s2', rfl, hcurr'⟩ := hcurr.skip_old (by rw [hend]; exact hle)
    rw [hend, show k + ((keep ++ p.newText).length : Nat) = p.newEnd + currDelta by omega] at hcurr'
    rw [append_assoc]
    have hstart : (rebasePrev currDelta p).newEnd = p.newEnd + currDelta := by
      simp only [rebasePrev, TextChange.newEnd]
      omega
    refine .cons (c := rebasePrev currDelta p) keep old ?_ ?_
    · simp only [rebasePrev]
      omega
    · rw [hstart]
      exact ih s0' s1' s2' hcs hcurr'

/-- A previous and a current change over the same part of the middle text become one. -/
theorem acceptBoth (hprev : Edits (p :: prev) i m s₀ s₁) (hcurr : Edits (c :: curr) m k s₁ s₂)
    (hstart : p.newPosition = c.oldPosition) (hend : p.newEnd = c.oldEnd)
    (ih : ∀ s₀ s₁ s₂, Edits prev p.oldEnd p.newEnd s₀ s₁ → Edits curr p.newEnd c.newEnd s₁ s₂ →
      Edits rest p.oldEnd c.newEnd s₀ s₂) :
    Edits (combine p c :: rest) i k s₀ s₂ := by
  cases hprev with
  | @cons _ _ _ _ s0' s1' keep old new hcs =>
    generalize hs1 : keep ++ (p.newText ++ s1') = s₁ at hcurr
    cases hcurr with
    | @cons _ _ _ _ s1'' s2' keep' old' new' hcs' =>
      obtain ⟨rfl, hs⟩ := append_inj hs1 (by omega)
      obtain ⟨-, rfl⟩ := append_inj hs (by simp only [TextChange.newEnd, TextChange.oldEnd] at hend; omega)
      rw [← hend] at hcs'
      exact .cons (c := combine p c) keep old new' (ih s0' s1' s2' hcs hcs')

theorem splitPrev {n : Int} (h : Edits (p :: cs) i j s t) (hn : 0 ≤ n) (hle : n ≤ p.newLength) :
    Edits ((TextChangeCompressor.splitPrev p n).1 :: (TextChangeCompressor.splitPrev p n).2 :: cs) i j s t := by
  cases h with
  | @cons _ _ _ _ s' t' keep old new rest =>
    rw [TextChange.newLength] at hle
    have hlen : (p.newText.take n.toNat).length = n.toNat := by rw [length_take]; omega
    have hcut : p.newText ++ t' = p.newText.take n.toNat ++ ([] ++ (p.newText.drop n.toNat ++ t')) := by
      rw [nil_append, ← append_assoc, take_append_drop]
    rw [hcut]
    refine .cons (c := (TextChangeCompressor.splitPrev p n).1) keep old new ?_
    refine .cons (c := (TextChangeCompressor.splitPrev p n).2) (s := s') [] ?_ ?_ ?_
    · simp [TextChangeCompressor.splitPrev, TextChange.oldEnd]
    · simp only [TextChangeCompressor.splitPrev, TextChange.newEnd, length_nil, hlen]
      omega
    · have h1 : (TextChangeCompressor.splitPrev p n).2.oldEnd = p.oldEnd := by
        simp [TextChangeCompressor.splitPrev, TextChange.oldEnd]
      have h2 : (TextChangeCompressor.splitPrev p n).2.newEnd = p.newEnd := by
        simp only [TextChangeCompressor.splitPrev, TextChange.newEnd, length_drop]
        omega
      rw [h1, h2]
      exact rest

theorem splitCurr {n : Int} (h : Edits (c :: cs) i j s t) (hn : 0 ≤ n) (hle : n ≤ c.oldLength) :
    Edits ((TextChangeCompressor.splitCurr c n).1 :: (TextChangeCompressor.splitCurr c n).2 :: cs) i j s t := by
  have h' := h.inverse.splitPrev hn hle
  exact @of_inverse _ _ ((TextChangeCompressor.splitCurr c n).1 ::
    (TextChangeCompressor.splitCurr c n).2 :: cs) _ _ h'

/-- Behind its first change the new text is shifted by the length the change adds. -/
theorem newEnd_eq {delta : Int} (h : Edits (c :: cs) i j s t) (hj : j = i + delta) :
    c.newEnd = c.oldEnd + (delta + (c.newLength - c.oldLength)) := by
  cases h with
  | cons keep old new rest =>
    simp only [TextChange.newEnd, TextChange.oldEnd, TextChange.newLength, TextChange.oldLength]
    omega

theorem mergeLoop (h : Edits (p :: cs) i j s t) : Edits (TextChangeCompressor.mergeLoop p cs) i j s t := by
  induction cs generalizing p i j s t with
  | nil => exact h
  | cons c cs ih =>
    unfold TextChangeCompressor.mergeLoop
    cases h with
    | @cons _ _ _ _ s' t' keep old new rest =>
      split
      · next hend =>
        -- adjacent changes: nothing is kept between them
        cases rest with
        | @cons _ _ _ _ s'' t'' keep' old' new' rest' =>
          have hnil : keep' = [] := eq_nil_of_length_eq_zero (by omega)
          subst hnil
          simp only [length_nil] at old' new'
          refine ih ?_
          rw [nil_append, nil_append, ← append_assoc p.oldText, ← append_assoc p.newText]
          refine .cons (c := ⟨p.oldPosition, p.oldText ++ c.oldText, p.newPosition, p.newText ++ c.newText⟩)
            keep old new ?_
          simp only [TextChange.oldEnd, TextChange.newEnd, length_append] at old' new' rest' ⊢
          rw [show p.oldPosition + ((p.oldText.length + c.oldText.length : Nat) : Int) =
            c.oldPosition + c.oldText.length by omega, show p.newPosition +
            ((p.newText.length + c.newText.length : Nat) : Int) = c.newPosition + c.newText.length by omega]
          exact rest'
      · exact .cons keep old new (ih rest)

theorem merge (h : Edits cs i j s t) : Edits (TextChangeCompressor.merge cs) i j s t := by
  cases cs with
  | nil => exact h
  | cons c cs => exact h.mergeLoop

theorem prepend (u : JsString) (h : Edits cs (i + u.length) (j + u.length) s t) :
    Edits cs i j (u ++ s) (u ++ t) := by
  cases h with
  | nil => exact .nil _ _ _
  | @cons _ _ c cs s' t' keep old new rest =>
    rw [← append_assoc, ← append_assoc u]
    exact .cons (u ++ keep) (by rw [length_append]; omega) (by rw [length_append]; omega) rest

theorem removeNoOps (h : Edits cs i j s t) : Edits (TextChangeCompressor.removeNoOps cs) i j s t := by
  induction h with
  | nil i j s => exact .nil i j s
  | @cons i j c cs s t keep old new rest ih =>
    unfold TextChangeCompressor.removeNoOps
    split
    · next hsame =>
      rw [← hsame]
      refine prepend keep (prepend c.oldText ?_)
      rw [← old, ← new]
      simp only [TextChange.oldEnd, TextChange.newEnd, ← hsame] at ih
      exact ih
    · exact .cons keep old new ih

end Edits

/-! ## The sweep -/

/-- One list of changes from two consecutive ones.  The induction is on the turns of the loop: `m` is
the offset reached in the middle text. -/
theorem compressLoop_edits (prevDelta currDelta : Int) (prev curr : List TextChange) :
    ∀ {i m k : Int} {s₀ s₁ s₂ : JsString}, m = i + prevDelta → k = m + currDelta →
      Edits prev i m s₀ s₁ → Edits curr m k s₁ s₂ →
      Edits (compressLoop prevDelta currDelta prev curr) i k s₀ s₂ := by
  fun_induction compressLoop prevDelta currDelta prev curr with
  | case1 =>
    intro i m k s₀ s₁ s₂ hm hk hprev hcurr
    cases hprev
    cases hcurr
    exact .nil i k s₀
  | case2 prevDelta currDelta c cs ih =>
    intro i m k s₀ s₁ s₂ hm hk hprev hcurr
    refine Edits.acceptCurr hm hprev hcurr (by simp) fun s₀ s₁ s₂ h₁ h₂ => ih (by omega) ?_ h₁ h₂
    exact hcurr.newEnd_eq hk
  | case3 prevDelta currDelta p ps ih =>
    intro i m k s₀ s₁ s₂ hm hk hprev hcurr
    refine Edits.acceptPrev hk hprev hcurr (by simp) fun s₀ s₁ s₂ h₁ h₂ => ih ?_ rfl h₁ h₂
    exact hprev.newEnd_eq hm
  | case4 prevDelta currDelta p ps c cs hle ih =>
    intro i m k s₀ s₁ s₂ hm hk hprev hcurr
    refine Edits.acceptCurr hm hprev hcurr (by simpa using hle) fun s₀ s₁ s₂ h₁ h₂ => ih (by omega) ?_ h₁ h₂
    exact hcurr.newEnd_eq hk
  | case5 prevDelta currDelta p ps c cs h1 hle ih =>
    intro i m k s₀ s₁ s₂ hm hk hprev hcurr
    refine Edits.acceptPrev hk hprev hcurr (by simpa using hle) fun s₀ s₁ s₂ h₁ h₂ => ih ?_ rfl h₁ h₂
    exact hprev.newEnd_eq hm
  | case6 prevDelta currDelta p ps c cs h1 h2 hlt e =>
    rename_i ih
    intro i m k s₀ s₁ s₂ hm hk hprev hcurr
    simp only [TextChange.oldEnd] at h1
    have hlen : p.newPosition - c.oldPosition ≤ c.oldLength := by rw [TextChange.oldLength]; omega
    have hsplit := hcurr.splitCurr (by omega) hlen
    have hend : (splitCurr c (p.newPosition - c.oldPosition)).1.oldEnd ≤ p.newPosition := by
      simp only [splitCurr, TextChange.oldEnd, length_take]
      omega
    refine Edits.acceptCurr hm hprev hsplit (by simpa using hend) fun s₀ s₁ s₂ h₁ h₂ => ih (by omega) ?_ h₁ h₂
    exact hsplit.newEnd_eq hk
  | case7 prevDelta currDelta p ps c cs h1 h2 h3 hlt e =>
    rename_i ih
    intro i m k s₀ s₁ s₂ hm hk hprev hcurr
    simp only [TextChange.newEnd] at h2
    have hlen : c.oldPosition - p.newPosition ≤ p.newLength := by rw [TextChange.newLength]; omega
    have hsplit := hprev.splitPrev (by omega) hlen
    have hend : (splitPrev p (c.oldPosition - p.newPosition)).1.newEnd ≤ c.oldPosition := by
      simp only [splitPrev, TextChange.newEnd, length_take]
      omega
    refine Edits.acceptPrev hk hsplit hcurr (by simpa using hend) fun s₀ s₁ s₂ h₁ h₂ => ih ?_ rfl h₁ h₂
    exact hsplit.newEnd_eq hm
  | case8 prevDelta currDelta p ps c cs h1 h2 h3 h4 heq ih =>
    intro i m k s₀ s₁ s₂ hm hk hprev hcurr
    refine Edits.acceptBoth hprev hcurr (by omega) heq.symm fun s₀ s₁ s₂ h₁ h₂ => ih ?_ ?_ h₁ h₂
    · exact hprev.newEnd_eq hm
    · rw [← heq]
      exact hcurr.newEnd_eq hk
  | case9 prevDelta currDelta p ps c cs h1 h2 h3 h4 h5 hlt e =>
    rename_i ih
    intro i m k s₀ s₁ s₂ hm hk hprev hcurr
    simp only [TextChange.oldEnd, TextChange.newEnd] at hlt
    have hlen : c.oldLength ≤ p.newLength := by rw [TextChange.oldLength, TextChange.newLength]; omega
    have hsplit := hprev.splitPrev (by rw [TextChange.oldLength]; omega) hlen
    have hend : (splitPrev p c.oldLength).1.newEnd = c.oldEnd := by
      simp only [splitPrev, TextChange.newEnd, TextChange.oldEnd, TextChange.oldLength, length_take]
      omega
    have hstart : (splitPrev p c.oldLength).1.newPosition = c.oldPosition := by
      simp only [splitPrev]
      omega
    refine Edits.acceptBoth hsplit hcurr hstart hend
      fun s₀ s₁ s₂ h₁ h₂ => ih ?_ ?_ h₁ h₂
    · exact hsplit.newEnd_eq hm
    · rw [hend]
      exact hcurr.newEnd_eq hk
  | case10 prevDelta currDelta p ps c cs h1 h2 h3 h4 h5 h6 e =>
    rename_i ih
    intro i m k s₀ s₁ s₂ hm hk hprev hcurr
    simp only [TextChange.oldEnd, TextChange.newEnd] at h6
    have hlen : p.newLength ≤ c.oldLength := by rw [TextChange.oldLength, TextChange.newLength]; omega
    have hsplit := hcurr.splitCurr (by rw [TextChange.newLength]; omega) hlen
    have hend : p.newEnd = (splitCurr c p.newLength).1.oldEnd := by
      simp only [splitCurr, TextChange.newEnd, TextChange.oldEnd, TextChange.newLength, length_take]
      omega
    have hstart : p.newPosition = (splitCurr c p.newLength).1.oldPosition := by
      simp only [splitCurr]
      omega
    refine Edits.acceptBoth hprev hsplit hstart hend
      fun s₀ s₁ s₂ h₁ h₂ => ih ?_ ?_ h₁ h₂
    · exact hprev.newEnd_eq hm
    · rw [hend]
      exact hsplit.newEnd_eq hk

theorem compressConsecutiveTextChanges_edits (prev : Option (List TextChange)) (curr : List TextChange)
    {s₀ s₁ s₂ : JsString} (hprev : Edits (prev.getD []) 0 0 s₀ s₁) (hcurr : Edits curr 0 0 s₁ s₂) :
    Edits (compressConsecutiveTextChanges prev curr) 0 0 s₀ s₂ := by
  unfold compressConsecutiveTextChanges
  split
  · cases hprev
    exact hcurr
  · cases hprev
    exact hcurr
  · exact (compressLoop_edits 0 0 _ curr rfl rfl hprev hcurr).merge.removeNoOps

/-! ## Changes of whole texts -/

/-- The new position of every change is its old one, shifted by the lengths added before it. -/
def Consistent : Int → List TextChange → Prop
  | _, [] => True
  | delta, c :: cs =>
    c.newPosition = c.oldPosition + delta ∧ Consistent (delta + (c.newLength - c.oldLength)) cs

/-- The old text of the change stands at its old position. -/
def TextChange.StandsIn (s : JsString) (c : TextChange) : Prop :=
  0 ≤ c.oldPosition ∧ c.oldEnd ≤ s.length ∧ (s.drop c.oldPosition.toNat).take c.oldText.length = c.oldText

instance (s : JsString) (c : TextChange) : Decidable (c.StandsIn s) := inferInstanceAs (Decidable (_ ∧ _ ∧ _))

/-- Replace the old text of every change by its new text, the last change first. -/
def replaceAll (cs : List TextChange) (s : JsString) : JsString :=
  cs.foldr (fun c s => s.take c.oldPosition.toNat ++ c.newText ++ s.drop c.oldEnd.toNat) s

/-- Sorted changes without overlap and with consistent positions that turn `s` into `t`. -/
structure Turns (cs : List TextChange) (s t : JsString) : Prop where
  sorted : cs.Pairwise fun a b => a.oldEnd ≤ b.oldPosition
  consistent : Consistent 0 cs
  standsIn : ∀ c ∈ cs, c.StandsIn s
  replaceAll : replaceAll cs s = t

namespace Edits

variable {i j : Int} {cs : List TextChange} {s t : JsString}

section

variable (h : Edits cs i j s t)
include h

theorem le_oldPosition : ∀ c ∈ cs, i ≤ c.oldPosition := by
  induction h with
  | nil => simp
  | @cons i j c cs s t keep old new rest ih =>
    intro x hx
    rcases mem_cons.mp hx with rfl | hx
    · omega
    · have := ih x hx
      simp only [TextChange.oldEnd] at this
      omega

theorem sorted : cs.Pairwise fun a b => a.oldEnd ≤ b.oldPosition := by
  induction h with
  | nil => exact List.Pairwise.nil
  | cons keep old new rest ih => exact List.Pairwise.cons rest.le_oldPosition ih

theorem consistent : Consistent (j - i) cs := by
  induction h with
  | nil => trivial
  | @cons i j c cs s t keep old new rest ih =>
    refine ⟨by omega, ?_⟩
    rw [show j - i + (c.newLength - c.oldLength) = c.newEnd - c.oldEnd by
      simp only [TextChange.newEnd, TextChange.oldEnd, TextChange.newLength, TextChange.oldLength]
      omega]
    exact ih

theorem standsIn : ∀ pre : JsString, (pre.length : Int) = i →
    ∀ c ∈ cs, c.StandsIn (pre ++ s) := by
  induction h with
  | nil => simp
  | @cons i j c cs s t keep old new rest ih =>
    intro pre hpre x hx
    rcases mem_cons.mp hx with rfl | hx
    · refine ⟨by omega, ?_, ?_⟩
      · simp only [TextChange.oldEnd, length_append]
        omega
      · rw [show x.oldPosition.toNat = (pre ++ keep).length by rw [length_append]; omega,
          ← append_assoc, drop_left, take_left]
    · have := ih (pre ++ (keep ++ c.oldText)) (by
        simp only [length_append, TextChange.oldEnd]
        omega) x hx
      simpa [append_assoc] using this

theorem replaceAll_eq : ∀ pre : JsString, (pre.length : Int) = i →
    replaceAll cs (pre ++ s) = pre ++ t := by
  induction h with
  | nil => intro pre _; rfl
  | @cons i j c cs s t keep old new rest ih =>
    intro pre hpre
    have hrest := ih (pre ++ (keep ++ c.oldText)) (by
      simp only [length_append, TextChange.oldEnd]
      omega)
    have hassoc : pre ++ (keep ++ (c.oldText ++ s)) = pre ++ (keep ++ c.oldText) ++ s := by simp
    have hstart : c.oldPosition.toNat = (pre ++ keep).length := by rw [length_append]; omega
    have hend : c.oldEnd.toNat = (pre ++ keep ++ c.oldText).length := by
      simp only [TextChange.oldEnd, length_append]
      omega
    rw [hassoc]
    simp only [replaceAll, foldr_cons] at hrest ⊢
    rw [hrest, show pre ++ (keep ++ c.oldText) ++ t = pre ++ keep ++ (c.oldText ++ t) by simp, hstart,
      take_left, ← append_assoc, hend, drop_left]
    simp

end

theorem turns (h : Edits cs 0 0 s t) : Turns cs s t where
  sorted := h.sorted
  consistent := h.consistent
  standsIn := h.standsIn [] rfl
  replaceAll := h.replaceAll_eq [] rfl

end Edits

/-- Changes that stand in a text from offset `n` on edit what follows that offset. -/
theorem exists_edits {s : JsString} (cs : List TextChange) : ∀ {n : Nat} {delta : Int}, n ≤ s.length →
    (∀ c ∈ cs, (n : Int) ≤ c.oldPosition) → cs.Pairwise (fun a b => a.oldEnd ≤ b.oldPosition) →
    Consistent delta cs → (∀ c ∈ cs, c.StandsIn s) → ∃ t, Edits cs n (n + delta) (s.drop n) t := by
  induction cs with
  | nil => intro n delta _ _ _ _ _; exact ⟨_, .nil _ _ _⟩
  | cons c cs ih =>
    intro n delta hn hle hsorted hcons hstands
    obtain ⟨hpos, hend, htext⟩ := hstands c (by simp)
    have hnc := hle c (by simp)
    have hoff : (c.oldEnd.toNat : Int) = c.oldEnd := by simp only [TextChange.oldEnd]; omega
    rw [pairwise_cons] at hsorted
    obtain ⟨t, ht⟩ := ih (n := c.oldEnd.toNat) (by omega) (by rw [hoff]; exact hsorted.1) hsorted.2 hcons.2
      (fun x hx => hstands x (by simp [hx]))
    -- the text from offset `n` on: what is kept, the old text, and the rest
    obtain ⟨keep, hkeep⟩ : ∃ keep, keep = (s.drop n).take (c.oldPosition.toNat - n) := ⟨_, rfl⟩
    have hlen : (keep.length : Int) = c.oldPosition - n := by
      rw [hkeep, length_take, length_drop]
      simp only [TextChange.oldEnd] at hend
      omega
    have hdrop : s.drop n = keep ++ (c.oldText ++ s.drop c.oldEnd.toNat) := by
      have h1 := take_append_drop (c.oldPosition.toNat - n) (s.drop n)
      have h2 := take_append_drop c.oldText.length (s.drop c.oldPosition.toNat)
      rw [drop_drop, show n + (c.oldPosition.toNat - n) = c.oldPosition.toNat by omega, ← hkeep] at h1
      rw [drop_drop, htext, show c.oldPosition.toNat + c.oldText.length = c.oldEnd.toNat by
        simp only [TextChange.oldEnd]; omega] at h2
      rw [← h1, h2]
    refine ⟨keep ++ (c.newText ++ t), ?_⟩
    rw [hdrop]
    refine .cons keep (by omega) (by have := hcons.1; omega) ?_
    rw [hoff] at ht
    convert ht using 1
    have := hcons.1
    simp only [TextChange.newEnd, TextChange.oldEnd, TextChange.newLength, TextChange.oldLength]
    omega

theorem Turns.edits {cs : List TextChange} {s t : JsString} (h : Turns cs s t) : Edits cs 0 0 s t := by
  obtain ⟨t', ht⟩ := exists_edits cs (n := 0) (Nat.zero_le _) (fun c hc => (h.standsIn c hc).1) h.sorted
    h.consistent h.standsIn
  have ht' : Edits cs 0 0 s t' := ht
  rw [← h.replaceAll, ht'.turns.replaceAll]
  exact ht'

/-! ## Top theorem -/

/-- **Compression preserves the meaning of the changes.**  Where `prev` turns `t₀` into `t₁` and `curr`
turns `t₁` into `t₂`, the compressed list is sorted, consistent and turns `t₀` into `t₂`, and its
inverse turns `t₂` into `t₀`. -/
theorem compressConsecutiveTextChanges_turns (t0 t1 t2 : JsString) (prev : Option (List TextChange))
    (curr : List TextChange) (hprev : Turns (prev.getD []) t0 t1) (hcurr : Turns curr t1 t2) :
    Turns (compressConsecutiveTextChanges prev curr) t0 t2 ∧
      Turns ((compressConsecutiveTextChanges prev curr).map TextChange.inverse) t2 t0 := by
  have h := compressConsecutiveTextChanges_edits prev curr hprev.edits hcurr.edits
  exact ⟨h.turns, h.inverse.turns⟩

/-- An insertion of `bc` at offset 1 whose `c` and the text behind it are then replaced. -/
theorem compressConsecutiveTextChanges_turns_split :
    let prev : List TextChange := [⟨1, [], 1, [98, 99]⟩]
    let curr : List TextChange := [⟨2, [99, 100], 2, [101]⟩]
    Turns prev [97, 100] [97, 98, 99, 100] ∧ Turns curr [97, 98, 99, 100] [97, 98, 101] ∧
      compressConsecutiveTextChanges (some prev) curr = [⟨1, [100], 1, [98, 101]⟩] ∧
      Turns (compressConsecutiveTextChanges (some prev) curr) [97, 100] [97, 98, 101] := by
  have h1 : Turns [⟨1, [], 1, [98, 99]⟩] [97, 100] [97, 98, 99, 100] :=
    ⟨by simp, ⟨by decide, trivial⟩, by decide, by decide⟩
  have h2 : Turns [⟨2, [99, 100], 2, [101]⟩] [97, 98, 99, 100] [97, 98, 101] :=
    ⟨by simp, ⟨by decide, trivial⟩, by decide, by decide⟩
  exact ⟨h1, h2, by decide +kernel,
    (compressConsecutiveTextChanges_turns _ _ _ (some [⟨1, [], 1, [98, 99]⟩]) _ h1 h2).1⟩

end TongjiCode.Editor
