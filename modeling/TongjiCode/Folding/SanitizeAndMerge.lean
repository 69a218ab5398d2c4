import TongjiCode.Folding.ParentIndices

/-!
# Merging folding ranges

`FoldingRegions.sanitizeAndMerge` makes one list of the ranges of the providers and of those that are remembered: the result is
what a `FoldingRegions` can be made from, and has the ranges of the user.
-/

open List

namespace TongjiCode.Folding

structure FoldRange where
  startLineNumber : Nat
  endLineNumber : Nat
  type : Option String
  isCollapsed : Bool
  source : FoldSource
deriving DecidableEq, Repr

namespace FoldRange

def lines (r : FoldRange) : LineRange := ⟨r.startLineNumber, r.endLineNumber⟩

/-- Whether the scan ahead in the second list meets a range that was made by the user and leaves `nextA`. -/
def isSkipped (nextA : FoldRange) : List FoldRange → Bool
  | [] => false
  | prescanB :: restB =>
    if prescanB.startLineNumber > nextA.endLineNumber then false
    else (prescanB.source = .userDefined && prescanB.endLineNumber > nextA.endLineNumber) || nextA.isSkipped restB

/-- The range of the first list where the second one has a range `nextB` at the same line. -/
def matched (nextA nextB : FoldRange) : FoldRange :=
  if nextB.source = .userDefined then nextB
  else { nextA with isCollapsed := nextB.isCollapsed && nextA.endLineNumber = nextB.endLineNumber, source := .provider }

def recover (nextB : FoldRange) : FoldRange :=
  if nextB.isCollapsed ∧ nextB.source = .provider then { nextB with source := .recovered } else nextB

/-- The values of `useRange`, one after the other; what the rest of the loop does with them does not matter here. -/
def useRanges : List FoldRange → List FoldRange → List FoldRange
  | rangesA, [] => rangesA
  | [], nextB :: restB => nextB.recover :: useRanges [] restB
  | nextA :: restA, nextB :: restB =>
    if nextA.startLineNumber = nextB.startLineNumber then nextA.matched nextB :: useRanges restA restB
    else if nextA.startLineNumber > nextB.startLineNumber then nextB.recover :: useRanges (nextA :: restA) restB
    else if nextA.isSkipped (nextB :: restB) then useRanges restA (nextB :: restB)
    else nextA :: useRanges restA (nextB :: restB)

/-- The end of the loop, which leaves out invalid ranges.  `stack` is `topStackedRange` on top of `stackedRanges`. -/
def sanitize (maxLineNumber : Nat) : List FoldRange → Nat → List FoldRange → List FoldRange
  | _, _, [] => []
  | stack, prevLineNumber, useRange :: rest =>
    let stack := stack.dropWhile fun top => top.endLineNumber < useRange.startLineNumber
    if useRange.endLineNumber > useRange.startLineNumber ∧ useRange.startLineNumber > prevLineNumber ∧
        useRange.endLineNumber ≤ maxLineNumber ∧ stack.head?.all fun top => top.endLineNumber ≥ useRange.endLineNumber then
      useRange :: sanitize maxLineNumber (useRange :: stack) useRange.startLineNumber rest
    else sanitize maxLineNumber stack prevLineNumber rest

def sanitizeAndMerge (rangesA rangesB : List FoldRange) (maxLineNumber : Nat) : List FoldRange :=
  sanitize maxLineNumber [] 0 (useRanges rangesA rangesB)

/-- Each input is in the order of the start lines. -/
abbrev Sorted (ranges : List FoldRange) : Prop := ranges.Pairwise fun a b => a.startLineNumber ≤ b.startLineNumber

section Ranges

variable {rangesA rangesB stack kept rest : List FoldRange} {prev m : Nat} {r b : FoldRange}

theorem recover_lines (r : FoldRange) : r.recover.lines = r.lines := by
  rw [recover]
  split <;> rfl

theorem recover_user (h : r.source = .userDefined) : r.recover = r := by simp [recover, h]

theorem matched_lines (a b : FoldRange) : (a.matched b).lines = a.lines ∨ (a.matched b).lines = b.lines := by
  rw [matched]
  split
  · exact .inr rfl
  · exact .inl rfl

/-- No range has lines of its own. -/
theorem forall_useRanges {P : LineRange → Prop} (hA : ∀ a ∈ rangesA, P a.lines) (hB : ∀ b ∈ rangesB, P b.lines) :
    ∀ r ∈ useRanges rangesA rangesB, P r.lines := by
  fun_induction useRanges rangesA rangesB with
  | case1 => exact hA
  | case2 nextB restB ih | case4 nextA restA nextB restB _ _ ih =>
    rw [forall_mem_cons] at hB ⊢
    exact ⟨nextB.recover_lines ▸ hB.1, ih hA hB.2⟩
  | case3 nextA restA nextB restB _ ih =>
    rw [forall_mem_cons] at hA hB ⊢
    exact ⟨(matched_lines nextA nextB).elim (fun h => h ▸ hA.1) fun h => h ▸ hB.1, ih hA.2 hB.2⟩
  | case5 nextA restA nextB restB _ _ _ ih => exact ih (forall_mem_cons.mp hA).2 hB
  | case6 nextA restA nextB restB _ _ _ ih =>
    rw [forall_mem_cons] at hA ⊢
    exact ⟨hA.1, ih hA.2 hB⟩

theorem Sorted.cons_useRanges (h : Sorted (useRanges rangesA rangesB)) (heq : r.lines.startLineNumber = b.startLineNumber)
    (hA : ∀ a ∈ rangesA, b.startLineNumber ≤ a.startLineNumber) (hB : ∀ x ∈ rangesB, b.startLineNumber ≤ x.startLineNumber) :
    Sorted (r :: useRanges rangesA rangesB) :=
  pairwise_cons.mpr ⟨fun x hx => heq.trans_le (forall_useRanges (P := fun l => _ ≤ l.startLineNumber) hA hB x hx), h⟩

theorem sorted_useRanges (hA : Sorted rangesA) (hB : Sorted rangesB) : Sorted (useRanges rangesA rangesB) := by
  fun_induction useRanges rangesA rangesB with
  | case1 => exact hA
  | case2 nextB restB ih =>
    obtain ⟨hfirstB, hrestB⟩ := pairwise_cons.mp hB
    exact (ih hA hrestB).cons_useRanges (congrArg LineRange.startLineNumber nextB.recover_lines) nofun hfirstB
  | case3 nextA restA nextB restB heq ih =>
    obtain ⟨hfirstA, hrestA⟩ := pairwise_cons.mp hA
    obtain ⟨hfirstB, hrestB⟩ := pairwise_cons.mp hB
    refine (ih hrestA hrestB).cons_useRanges ?_ hfirstA (heq ▸ hfirstB)
    rcases matched_lines nextA nextB with h | h
    · rw [h]; rfl
    · rw [h, heq]; rfl
  | case4 nextA restA nextB restB _ hgt ih =>
    obtain ⟨hfirstB, hrestB⟩ := pairwise_cons.mp hB
    refine (ih hA hrestB).cons_useRanges (congrArg LineRange.startLineNumber nextB.recover_lines) ?_ hfirstB
    exact forall_mem_cons.mpr ⟨by omega, fun a ha => hgt.le.trans ((pairwise_cons.mp hA).1 a ha)⟩
  | case5 nextA restA nextB restB _ _ _ ih => exact ih (pairwise_cons.mp hA).2 hB
  | case6 nextA restA nextB restB _ hle _ ih =>
    obtain ⟨hfirstA, hrestA⟩ := pairwise_cons.mp hA
    refine (ih hrestA hB).cons_useRanges rfl hfirstA ?_
    exact forall_mem_cons.mpr ⟨by omega, fun b hb => (not_lt.mp hle).trans ((pairwise_cons.mp hB).1 b hb)⟩

/-- `b` lies in `a` or behind it. -/
abbrev Fits (a b : FoldRange) : Prop :=
  a.startLineNumber < b.startLineNumber ∧ (b.endLineNumber ≤ a.endLineNumber ∨ a.endLineNumber < b.startLineNumber)

/-- Over the rest of the ranges, from a stack of ranges that hold each other. -/
theorem sanitize_spec (m : Nat) (ranges stack : List FoldRange) (prev : Nat) : Sorted ranges →
    stack.Pairwise (fun a b => a.endLineNumber ≤ b.endLineNumber) → (∀ s ∈ stack, s.startLineNumber ≤ prev) →
    (sanitize m stack prev ranges).Pairwise Fits ∧ ∀ r ∈ sanitize m stack prev ranges, r ∈ ranges ∧ prev < r.startLineNumber ∧
      r.startLineNumber < r.endLineNumber ∧ r.endLineNumber ≤ m ∧ ∀ s ∈ stack, Fits s r := by
  induction ranges generalizing stack prev with
  | nil => exact fun _ _ _ => ⟨.nil, fun r hr => nomatch hr⟩
  | cons useRange rest ih =>
    intro hsorted hstack hprev
    obtain ⟨hfirst, hrest⟩ := pairwise_cons.mp hsorted
    rw [sanitize]
    generalize hleft : stack.dropWhile (fun top => decide (top.endLineNumber < useRange.startLineNumber)) = left
    have hsub : left <+ stack := hleft ▸ dropWhile_sublist _
    have hleft' := hstack.sublist hsub
    have hprev' : ∀ s ∈ left, s.startLineNumber ≤ prev := fun s hs => hprev s (hsub.subset hs)
    -- what is popped ends in front of all ranges to come
    have hall : ∀ r ∈ useRange :: rest, prev < r.startLineNumber → (∀ s ∈ left, Fits s r) → ∀ s ∈ stack, Fits s r := by
      intro r hr hlt h s hs
      have hle : useRange.startLineNumber ≤ r.startLineNumber := (mem_cons.mp hr).elim (fun h => h ▸ Nat.le_refl _) (hfirst r)
      have hbefore := (hprev s hs).trans_lt hlt
      rw [← takeWhile_append_dropWhile (p := fun top => top.endLineNumber < useRange.startLineNumber) (l := stack), hleft,
        mem_append] at hs
      refine hs.elim (fun hs => ⟨hbefore, .inr ?_⟩) (h s)
      exact (show s.endLineNumber < _ by simpa using mem_takeWhile_imp hs).trans_le hle
    split
    · next hvalid =>
      obtain ⟨hlines, hlt, hmax, htop⟩ := hvalid
      have hends : ∀ s ∈ left, useRange.endLineNumber ≤ s.endLineNumber := by
        cases left with
        | nil => exact nofun
        | cons top below =>
          have htop : useRange.endLineNumber ≤ top.endLineNumber := by simpa using htop
          exact forall_mem_cons.mpr ⟨htop, fun s hs => htop.trans ((pairwise_cons.mp hleft').1 s hs)⟩
      obtain ⟨hpairs, hmem⟩ := ih (useRange :: left) _ hrest (pairwise_cons.mpr ⟨hends, hleft'⟩)
        (forall_mem_cons.mpr ⟨Nat.le_refl _, fun s hs => (hprev' s hs).trans hlt.le⟩)
      refine ⟨pairwise_cons.mpr ⟨fun r hr => (hmem r hr).2.2.2.2 useRange mem_cons_self, hpairs⟩,
        forall_mem_cons.mpr ⟨⟨mem_cons_self, hlt, hlines, hmax, hall _ mem_cons_self hlt fun s hs =>
          ⟨(hprev' s hs).trans_lt hlt, .inl (hends s hs)⟩⟩, fun r hr => ?_⟩⟩
      obtain ⟨hin, hbehind, hlines', hmax', hfits⟩ := hmem r hr
      have hin' := mem_cons_of_mem useRange hin
      exact ⟨hin', hlt.trans hbehind, hlines', hmax', hall r hin' (hlt.trans hbehind) fun s hs => hfits s (mem_cons_of_mem _ hs)⟩
    · obtain ⟨hpairs, hmem⟩ := ih left prev hrest hleft' hprev'
      refine ⟨hpairs, fun r hr => ?_⟩
      obtain ⟨hin, hbehind, hlines, hmax, hfits⟩ := hmem r hr
      have hin' := mem_cons_of_mem useRange hin
      exact ⟨hin', hbehind, hlines, hmax, hall r hin' hbehind hfits⟩

/-- What a merge promises, up to a `FoldingRegions` made of its result that knows the parents. -/
structure Sanitized (rangesA rangesB : List FoldRange) (lineCount : Nat) (result : List FoldRange) : Prop where
  wellNested : WellNested (result.map lines)
  valid : ∀ r ∈ result, 0 < r.startLineNumber ∧ r.startLineNumber < r.endLineNumber ∧ r.endLineNumber ≤ lineCount
  origin : ∀ r ∈ result, ∃ x ∈ rangesA ++ rangesB, r.lines = x.lines
  exact : result.length ≤ maxFoldingRegions → ∀ types, ∃ regions, FoldingRegions.new (wordsOf (result.map (·.startLineNumber)))
    (wordsOf (result.map (·.endLineNumber))) types = some regions ∧ Exact (result.map lines) regions

/-- Merged ranges are valid, whatever the two lists have in their order. -/
theorem sanitizeAndMerge_sanitized {lineCount : Nat} (hA : Sorted rangesA) (hB : Sorted rangesB)
    (hcount : lineCount ≤ maxLineNumber) : Sanitized rangesA rangesB lineCount (sanitizeAndMerge rangesA rangesB lineCount) := by
  obtain ⟨hpairs, hmem⟩ := sanitize_spec lineCount _ [] 0 (sorted_useRanges hA hB) .nil nofun
  have hnested : WellNested ((sanitizeAndMerge rangesA rangesB lineCount).map lines) := by
    refine ⟨?_, ?_, pairwise_map.mpr (hpairs.imp fun h => h.1), pairwise_map.mpr (hpairs.imp fun h => ?_)⟩
    · exact forall_mem_map.mpr fun r hr => (hmem r hr).2.2.1.le
    · exact forall_mem_map.mpr fun r hr => (hmem r hr).2.2.2.1.trans hcount
    · exact h.2.elim (fun hle => .inl ⟨h.1.le, hle⟩) fun hlt => .inr (.inr (.inl hlt))
  refine ⟨hnested, fun r hr => ⟨(hmem r hr).2.1, (hmem r hr).2.2.1, (hmem r hr).2.2.2.1⟩, fun r hr => ?_, fun hlen types => ?_⟩
  · exact forall_useRanges (P := fun l => ∃ x ∈ rangesA ++ rangesB, l = x.lines) (fun a ha => ⟨a, mem_append_left _ ha, rfl⟩)
      (fun b hb => ⟨b, mem_append_right _ hb, rfl⟩) r (hmem r hr).1
  · obtain ⟨regions, hnew, hregions⟩ := represents_new hnested (by simpa using hlen) types
    rw [map_map, map_map] at hnew
    exact ⟨regions, hnew, hregions.exact hnested (by simpa using hlen)⟩

def provided : List FoldRange := [⟨1, 5, none, false, .provider⟩, ⟨7, 9, none, true, .provider⟩]

def remembered : List FoldRange := [⟨3, 6, none, true, .userDefined⟩, ⟨7, 9, none, true, .provider⟩]

theorem sanitizeAndMerge_sanitized_three : Sanitized provided remembered 9 (sanitizeAndMerge provided remembered 9) :=
  sanitizeAndMerge_sanitized (by decide) (by decide) (by decide)

/-! ## Ranges of the user -/

abbrev ofUser (ranges : List FoldRange) : List FoldRange := ranges.filter (·.source = .userDefined)

/-- The ranges of `kept` that are to come are not hindered by what was accepted. -/
def Clear (stack : List FoldRange) (prev : Nat) (kept : List FoldRange) : Prop :=
  ∀ b ∈ kept, prev < b.startLineNumber ∧ ∀ s ∈ stack, b.endLineNumber ≤ s.endLineNumber ∨ s.endLineNumber < b.startLineNumber

theorem Clear.dropWhile (h : Clear stack prev kept) (p : FoldRange → Bool) :
    Clear (stack.dropWhile p) prev kept :=
  fun b hb => ⟨(h b hb).1, fun s hs => (h b hb).2 s ((dropWhile_sublist p).subset hs)⟩

theorem Clear.cons (h : Clear stack prev kept) (hr : ∀ b ∈ kept, Fits r b) :
    Clear (r :: stack) r.startLineNumber kept :=
  fun b hb => ⟨(hr b hb).1, forall_mem_cons.mpr ⟨(hr b hb).2, (h b hb).2⟩⟩

/-- A range that hinders none of them is accepted or not. -/
theorem sublist_pass (h : Clear stack prev kept) (hr : ∀ b ∈ kept, Fits r b)
    (hrest : ∀ stack prev, Clear stack prev kept → kept <+ sanitize m stack prev rest) :
    kept <+ sanitize m stack prev (r :: rest) := by
  rw [sanitize]
  split
  · exact .cons _ (hrest _ _ ((h.dropWhile _).cons hr))
  · exact hrest _ _ (h.dropWhile _)

theorem sublist_keep (h : Clear stack prev (b :: kept)) (hvalid : b.startLineNumber < b.endLineNumber ∧ b.endLineNumber ≤ m)
    (hb : ∀ x ∈ kept, Fits b x)
    (hrest : ∀ stack prev, Clear stack prev kept → kept <+ sanitize m stack prev rest) :
    b :: kept <+ sanitize m stack prev (b :: rest) := by
  have hd := h.dropWhile fun top => top.endLineNumber < b.startLineNumber
  rw [sanitize, if_pos]
  · exact .cons_cons _ (hrest _ _ (Clear.cons (fun x hx => hd x (mem_cons_of_mem _ hx)) hb))
  · refine ⟨hvalid.1, (h b mem_cons_self).1, hvalid.2, (Option.all_eq_true _ _).mpr fun top htop => decide_eq_true ?_⟩
    have hnot := head?_dropWhile_not (fun top : FoldRange => decide (top.endLineNumber < b.startLineNumber)) stack
    rw [htop] at hnot
    exact ((hd b mem_cons_self).2 top (mem_of_mem_head? htop)).resolve_right (by simpa using hnot)

/-- The scan ahead has found no range of the user that would be cut. -/
theorem fits_of_not_skipped (hB : Sorted rangesB) (h : ¬ r.isSkipped rangesB) : ∀ b ∈ rangesB, b.source = .userDefined →
    b.endLineNumber ≤ r.endLineNumber ∨ r.endLineNumber < b.startLineNumber := by
  induction rangesB with
  | nil => exact nofun
  | cons prescanB restB ih =>
    obtain ⟨hfirst, hrest⟩ := pairwise_cons.mp hB
    rw [isSkipped] at h
    split at h
    · exact forall_mem_cons.mpr ⟨fun _ => .inr ‹_›, fun b hb _ => .inr (by have := hfirst b hb; omega)⟩
    · simp only [Bool.or_eq_true, Bool.and_eq_true, decide_eq_true_eq, not_or, not_and] at h
      exact forall_mem_cons.mpr ⟨fun hs => .inl (by have := h.1 hs; omega), ih hrest h.2⟩

/-- The next range of the second list, with what is used for it: the user's ranges are used as they are. -/
theorem sublist_next (hlines : b.lines = r.lines)
    (huser : b.source = .userDefined → r = b) (hvalid : b.startLineNumber < b.endLineNumber ∧ b.endLineNumber ≤ m)
    (hfits : ∀ x ∈ rangesB, Fits b x) (hrest : ∀ stack prev, Clear stack prev (ofUser rangesB) →
      ofUser rangesB <+ sanitize m stack prev rest) :
    ∀ stack prev, Clear stack prev (ofUser (b :: rangesB)) →
      ofUser (b :: rangesB) <+ sanitize m stack prev (r :: rest) := by
  intro stack prev hclear
  have hfits' : ∀ x ∈ ofUser rangesB, Fits b x := fun x hx => hfits x (mem_of_mem_filter hx)
  rw [ofUser, filter_cons] at hclear ⊢
  split at hclear
  · next hb =>
    rw [if_pos hb, huser (of_decide_eq_true hb)]
    exact sublist_keep hclear hvalid hfits' hrest
  · next hb =>
    rw [if_neg hb]
    refine sublist_pass hclear (fun x hx => ?_) hrest
    rw [Fits, ← show b.startLineNumber = r.startLineNumber from congrArg LineRange.startLineNumber hlines,
      ← show b.endLineNumber = r.endLineNumber from congrArg LineRange.endLineNumber hlines]
    exact hfits' x hx

/-- The user's ranges all stay, in their order, where the provider has not moved the end of another one of the second list. -/
theorem userDefined_kept {lineCount : Nat}
    (hvalid : ∀ b ∈ rangesB, 0 < b.startLineNumber ∧ b.startLineNumber < b.endLineNumber ∧ b.endLineNumber ≤ lineCount)
    (hnested : rangesB.Pairwise Fits)
    (hsame : ∀ a ∈ rangesA, ∀ b ∈ rangesB, a.startLineNumber = b.startLineNumber → b.source ≠ .userDefined →
      a.endLineNumber = b.endLineNumber) :
    ofUser rangesB <+ sanitizeAndMerge rangesA rangesB lineCount := by
  suffices h : ∀ stack prev, Clear stack prev (ofUser rangesB) →
      ofUser rangesB <+ sanitize lineCount stack prev (useRanges rangesA rangesB) from
    h [] 0 fun b hb => ⟨(hvalid b (mem_of_mem_filter hb)).1, nofun⟩
  fun_induction useRanges rangesA rangesB with
  | case1 rangesA => exact fun _ _ _ => nil_sublist _
  | case2 nextB restB ih | case4 nextA restA nextB restB _ _ ih =>
    obtain ⟨⟨-, hvalidB⟩, hvalid'⟩ := forall_mem_cons.mp hvalid
    obtain ⟨hfits, hnested'⟩ := pairwise_cons.mp hnested
    exact sublist_next nextB.recover_lines.symm recover_user hvalidB hfits
      (ih hvalid' hnested' fun a ha b hb => hsame a ha b (mem_cons_of_mem _ hb))
  | case3 nextA restA nextB restB heq ih =>
    obtain ⟨⟨-, hvalidB⟩, hvalid'⟩ := forall_mem_cons.mp hvalid
    obtain ⟨hfits, hnested'⟩ := pairwise_cons.mp hnested
    refine sublist_next ?_ (fun huser => if_pos huser) hvalidB hfits
      (ih hvalid' hnested' fun a ha b hb => hsame a (mem_cons_of_mem _ ha) b (mem_cons_of_mem _ hb))
    rw [matched]
    split
    · rfl
    · next huser => exact congrArg₂ LineRange.mk heq.symm (hsame nextA mem_cons_self nextB mem_cons_self heq huser).symm
  | case5 nextA restA nextB restB _ _ hskip ih => exact ih hvalid hnested fun a ha => hsame a (mem_cons_of_mem _ ha)
  | case6 nextA restA nextB restB _ _ hskip ih =>
    have hlt : nextA.startLineNumber < nextB.startLineNumber := by omega
    intro stack prev hclear
    refine sublist_pass hclear (fun b hb => ?_) (ih hvalid hnested fun a ha => hsame a (mem_cons_of_mem _ ha))
    obtain ⟨hin, huser⟩ := mem_filter.mp hb
    refine ⟨?_, fits_of_not_skipped (hnested.imp fun h => h.1.le) hskip b hin (of_decide_eq_true huser)⟩
    rcases mem_cons.mp hin with rfl | hrest
    · exact hlt
    · exact hlt.trans ((pairwise_cons.mp hnested).1 b hrest).1

theorem userDefined_kept_one : ofUser remembered <+ sanitizeAndMerge provided remembered 9 :=
  userDefined_kept (by decide) (by decide) (by decide)

end Ranges
end FoldRange
end TongjiCode.Folding
