import Mathlib.Data.List.TakeWhile
import TongjiCode.Folding.FoldingRegions

/-!
# Parents of folding regions

The regions that `FoldingRegions` packs are line ranges with increasing start lines, any two of them nested or
disjoint.  The loop of `ensureParentIndices` keeps on its stack every region that can still hold another one
(`Stacked`), so the first one on the stack that holds region `i` is the innermost one; its index goes into the top
bytes of words whose line numbers stay what they were (`Packed`).

After any calls, the parents and the region of a line are the innermost ones, and computing the parents changes nothing
else (`packed_parents_exact`).
-/

open List

namespace TongjiCode.Folding

/-! ## Line ranges -/

/-- `ILineRange`. -/
structure LineRange where
  startLineNumber : Nat
  endLineNumber : Nat
deriving DecidableEq, Repr

def LineRange.Holds (a b : LineRange) : Prop :=
  a.startLineNumber ≤ b.startLineNumber ∧ b.endLineNumber ≤ a.endLineNumber

def LineRange.HasLine (a : LineRange) (line : Int) : Prop :=
  a.startLineNumber ≤ line ∧ line ≤ a.endLineNumber

def LineRange.Disjoint (a b : LineRange) : Prop :=
  a.endLineNumber < b.startLineNumber ∨ b.endLineNumber < a.startLineNumber

instance (a b : LineRange) : Decidable (a.Holds b) := inferInstanceAs (Decidable (_ ∧ _))

instance (a b : LineRange) : Decidable (a.Disjoint b) := inferInstanceAs (Decidable (_ ∨ _))

/-- Regions in the order of their start lines, properly nested. -/
structure WellNested (regions : List LineRange) : Prop where
  ordered : ∀ a ∈ regions, a.startLineNumber ≤ a.endLineNumber
  fits : ∀ a ∈ regions, a.endLineNumber ≤ maxLineNumber
  increasing : regions.Pairwise fun a b => a.startLineNumber < b.startLineNumber
  nested : regions.Pairwise fun a b => a.Holds b ∨ b.Holds a ∨ a.Disjoint b

/-- The index of the innermost of the regions that are `among` some, `-1` if there are none. -/
def Innermost (regions : List LineRange) (among : Nat → LineRange → Prop) (index : Int) : Prop :=
  (index = -1 ∧ ∀ j b, regions[j]? = some b → ¬ among j b) ∨
    ∃ (j : Nat) (b : LineRange), index = j ∧ regions[j]? = some b ∧ among j b ∧
      ∀ k c, regions[k]? = some c → among k c → c.Holds b

/-- The other regions that hold region `i`. -/
def Around (i : Nat) (a : LineRange) (j : Nat) (b : LineRange) : Prop := j ≠ i ∧ b.Holds a

variable {regions : List LineRange} {i j : Nat} {a b : LineRange}

theorem WellNested.later (h : WellNested regions) (hij : i < j) (hi : regions[i]? = some a) (hj : regions[j]? = some b) :
    a.startLineNumber < b.startLineNumber ∧
      (b.endLineNumber ≤ a.endLineNumber ∨ a.endLineNumber < b.startLineNumber) := by
  obtain ⟨hi', rfl⟩ := List.getElem?_eq_some_iff.mp hi
  obtain ⟨hj', rfl⟩ := List.getElem?_eq_some_iff.mp hj
  have hstart := List.pairwise_iff_getElem.mp h.increasing i j hi' hj' hij
  refine ⟨hstart, ?_⟩
  rcases List.pairwise_iff_getElem.mp h.nested i j hi' hj' hij with hholds | hholds | hdisjoint | hdisjoint
  · exact .inl hholds.2
  · have := hholds.1
    omega
  · exact .inr hdisjoint
  · omega

theorem WellNested.before (h : WellNested regions) (hi : regions[i]? = some a) (hj : regions[j]? = some b)
    (haround : Around i a j b) : j < i := by
  obtain ⟨hne, hstart, -⟩ := haround
  by_contra hle
  have := (h.later (by omega) hi hj).1
  omega

/-! ## Words -/

/-- The words hold the lines of the regions, and `code i` in their top bytes. -/
structure Packed (regions : List LineRange) (code : Nat → Nat) (r : FoldingRegions) : Prop where
  startLength : r.startIndexes.length = regions.length
  endLength : r.endIndexes.length = regions.length
  small : ∀ i, code i < 65536
  start : ∀ i a, regions[i]? = some a →
    (r.startIndexes.getD i 0).toNat = a.startLineNumber + code i % 256 * 2 ^ 24
  stop : ∀ i a, regions[i]? = some a →
    (r.endIndexes.getD i 0).toNat = a.endLineNumber + code i / 256 * 2 ^ 24

theorem WellNested.line_lt (h : WellNested regions) (hi : regions[i]? = some a) :
    a.startLineNumber < 2 ^ 24 ∧ a.endLineNumber < 2 ^ 24 := by
  have hmem := mem_of_getElem? hi
  have hfits := h.fits a hmem
  have horder := h.ordered a hmem
  have hmax : maxLineNumber = 2 ^ 24 - 1 := rfl
  omega

variable {code : Nat → Nat} {r : FoldingRegions}

section

variable (hp : Packed regions code r) (h : WellNested regions) (hi : regions[i]? = some a)
include hp h hi

theorem Packed.getStartLineNumber_eq :
    r.getStartLineNumber i = a.startLineNumber := by
  have := h.line_lt hi
  rw [FoldingRegions.getStartLineNumber, bitAnd_maxLineNumber, hp.start i a hi]
  omega

theorem Packed.getEndLineNumber_eq :
    r.getEndLineNumber i = a.endLineNumber := by
  have := h.line_lt hi
  rw [FoldingRegions.getEndLineNumber, bitAnd_maxLineNumber, hp.stop i a hi]
  omega

theorem Packed.contains_iff (line : Int) :
    r.contains i line = true ↔ a.HasLine line := by
  rw [FoldingRegions.contains, hp.getStartLineNumber_eq h hi, hp.getEndLineNumber_eq h hi, LineRange.HasLine]
  simp

theorem Packed.parent_eq :
    shiftRightUnsigned (bitAnd (load r.startIndexes i) maskIndent) 24 +
      shiftRightUnsigned (bitAnd (load r.endIndexes i) maskIndent) 16 = code i := by
  have hline := h.line_lt hi
  rw [shiftRight_maskIndent, shiftRight_maskIndent, hp.start i a hi, hp.stop i a hi]
  omega

/-- A region's words after a turn of the loop, where its code was still 0. -/
theorem Packed.store (parentIndex : Int) :
    Packed regions (Function.update code i (codeOf parentIndex)) { r with
      startIndexes := store r.startIndexes i (a.startLineNumber + shiftLeft (bitAnd parentIndex 0xFF) 24)
      endIndexes := store r.endIndexes i (a.endLineNumber + shiftLeft (bitAnd parentIndex 0xFF00) 16) } := by
  obtain ⟨hstart, hstop⟩ := h.line_lt hi
  have hlt := (List.getElem?_eq_some_iff.mp hi).1
  constructor
  · exact (length_store _ _ _).trans hp.startLength
  · exact (length_store _ _ _).trans hp.endLength
  · intro j
    rw [Function.update_apply]
    split_ifs
    · exact codeOf_lt parentIndex
    · exact hp.small j
  · intro j b hj
    show ((Folding.store _ _ _).getD j 0).toNat = _
    by_cases hji : j = i
    · subst hji
      obtain rfl : b = a := by simpa [hi] using hj.symm
      rw [Function.update_self, getD_store_self (by rw [hp.startLength]; exact hlt)]
      exact pack_start hstart parentIndex
    · rw [Function.update_of_ne hji, getD_store_ne hji]
      exact hp.start j b hj
  · intro j b hj
    show ((Folding.store _ _ _).getD j 0).toNat = _
    by_cases hji : j = i
    · subst hji
      obtain rfl : b = a := by simpa [hi] using hj.symm
      rw [Function.update_self, getD_store_self (by rw [hp.endLength]; exact hlt)]
      exact pack_end hstop parentIndex
    · rw [Function.update_of_ne hji, getD_store_ne hji]
      exact hp.stop j b hj

end

/-! ## The stack of parents -/

/-- The stack before region `k`: regions before `k`, the last one first; what is not on it ends before the line where
the region before `k` starts. -/
structure Stacked (regions : List LineRange) (k : Nat) (parentIndexes : List Nat) : Prop where
  below : ∀ j ∈ parentIndexes, j < k
  descending : parentIndexes.Pairwise (· > ·)
  passed : ∀ j a b, j < k → j ∉ parentIndexes → regions[j]? = some a → regions[k - 1]? = some b →
    a.endLineNumber < b.startLineNumber

theorem stacked_nil (regions : List LineRange) : Stacked regions 0 [] := by
  constructor
  · simp
  · exact .nil
  · intro j a b hj
    omega

/-- Whether region `j` does not hold region `i`. -/
def Misses (regions : List LineRange) (a : LineRange) (j : Nat) : Bool :=
  match regions[j]? with
  | some b => !decide (b.Holds a)
  | none => true

theorem misses_of (hj : regions[j]? = some b) :
    Misses regions a j = true ↔ ¬ b.Holds a := by
  rw [Misses, hj]
  simp

variable {k : Nat} {parentIndexes : List Nat}

section

variable (h : WellNested regions) (hs : Stacked regions k parentIndexes) (hk : regions[k]? = some a)
include h hs hk

theorem Stacked.mem_of_holds (hj : regions[j]? = some b) (haround : Around k a j b) : j ∈ parentIndexes := by
  by_contra hmem
  have hlt := h.before hk hj haround
  obtain ⟨c, hc⟩ : ∃ c, regions[k - 1]? = some c := by
    have := (List.getElem?_eq_some_iff.mp hk).1
    exact ⟨regions[k - 1], List.getElem?_eq_getElem (by omega)⟩
  have hpassed := hs.passed j b c hlt hmem hj hc
  have hstart := (h.later (show k - 1 < k by omega) hc hk).1
  have horder := h.ordered a (mem_of_getElem? hk)
  have := haround.2.2
  omega

/-- The first region left on the stack is the innermost one around region `k`. -/
theorem Stacked.innermost :
    Innermost regions (Around k a)
      (match (parentIndexes.dropWhile (Misses regions a)).head? with
        | some parentIndex => (parentIndex : Int)
        | none => -1) := by
  have hkept : ∀ j b, regions[j]? = some b → Around k a j b → j ∈ parentIndexes.dropWhile (Misses regions a) := by
    intro j b hj haround
    have hmem := hs.mem_of_holds h hk hj haround
    rw [← takeWhile_append_dropWhile (p := Misses regions a) (l := parentIndexes), mem_append] at hmem
    rcases hmem with hmem | hmem
    · exact absurd haround.2 ((misses_of hj).mp (mem_takeWhile_imp hmem))
    · exact hmem
  have hsub : ∀ j ∈ parentIndexes.dropWhile (Misses regions a), j ∈ parentIndexes :=
    fun j hj => (dropWhile_sublist _).mem hj
  cases hleft : parentIndexes.dropWhile (Misses regions a) with
  | nil =>
    refine .inl ⟨rfl, fun j b hj haround => ?_⟩
    have := hkept j b hj haround
    rw [hleft] at this
    exact absurd this not_mem_nil
  | cons p rest =>
    have hp : p ∈ parentIndexes := hsub p (by rw [hleft]; exact mem_cons_self)
    have hlt := hs.below p hp
    have hlen := (List.getElem?_eq_some_iff.mp hk).1
    have hb : regions[p]? = some regions[p] := List.getElem?_eq_getElem (by omega)
    have hholds : regions[p].Holds a := by
      have hfirst := dropWhile_get_zero_not (Misses regions a) parentIndexes (by rw [hleft]; simp)
      simp only [hleft, get_eq_getElem, getElem_cons_zero] at hfirst
      by_contra hnot
      exact hfirst ((misses_of hb).mpr hnot)
    refine .inr ⟨p, regions[p], rfl, hb, ⟨by omega, hholds⟩, fun j c hj haround => ?_⟩
    have hdesc : (p :: rest).Pairwise (· > ·) := by
      rw [← hleft]
      exact hs.descending.sublist (dropWhile_sublist _)
    have hmem := hkept j c hj haround
    rw [hleft, mem_cons] at hmem
    rcases hmem with rfl | hmem
    · obtain rfl : c = regions[j] := by simpa [hb] using hj.symm
      exact ⟨by omega, by omega⟩
    · -- `c` is an earlier region, and not disjoint from the first one
      have hjp : j < p := (pairwise_cons.mp hdesc).1 j hmem
      obtain ⟨hstart, hstop⟩ := h.later hjp hj hb
      have horder := h.ordered a (mem_of_getElem? hk)
      have h1 := hholds.1
      have h2 := haround.2.2
      exact ⟨by omega, by omega⟩

/-- The stack after region `k` has been pushed. -/
theorem Stacked.push :
    Stacked regions (k + 1) (k :: parentIndexes.dropWhile (Misses regions a)) := by
  have hsub : ∀ j ∈ parentIndexes.dropWhile (Misses regions a), j < k :=
    fun j hj => hs.below j ((dropWhile_sublist _).mem hj)
  constructor
  · intro j hj
    rw [mem_cons] at hj
    rcases hj with rfl | hj
    · omega
    · have := hsub j hj
      omega
  · exact .cons (fun j hj => hsub j hj) (hs.descending.sublist (dropWhile_sublist _))
  · intro j b c hj hmem hb hc
    rw [Nat.add_sub_cancel, hk, Option.some.injEq] at hc
    subst hc
    rw [mem_cons, not_or] at hmem
    have hjk : j < k := by omega
    by_cases hstacked : j ∈ parentIndexes
    · -- popped in this turn
      rw [← takeWhile_append_dropWhile (p := Misses regions a) (l := parentIndexes), mem_append] at hstacked
      obtain ⟨hstart, hstop⟩ := h.later hjk hb hk
      have hnot := (misses_of hb).mp (mem_takeWhile_imp (hstacked.resolve_right hmem.2))
      rcases hstop with hstop | hstop
      · exact absurd ⟨by omega, hstop⟩ hnot
      · exact hstop
    · obtain ⟨d, hd⟩ : ∃ d, regions[k - 1]? = some d := by
        have := (List.getElem?_eq_some_iff.mp hk).1
        exact ⟨regions[k - 1], List.getElem?_eq_getElem (by omega)⟩
      have hpassed := hs.passed j b d hjk hstacked hb hd
      have := (h.later (show k - 1 < k by omega) hd hk).1
      omega

end

/-! ## Computing the parents -/

/-- Two states of the regions that differ in the words only. -/
structure SameStates (r r' : FoldingRegions) : Prop where
  collapseStates : r'.collapseStates = r.collapseStates
  userDefinedStates : r'.userDefinedStates = r.userDefinedStates
  recoveredStates : r'.recoveredStates = r.recoveredStates
  types : r'.types = r.types

def IsCoded (regions : List LineRange) (code : Nat → Nat) (i : Nat) : Prop :=
  ∀ a, regions[i]? = some a → ∃ p, code i = codeOf p ∧ Innermost regions (Around i a) p

/-- The loop of `ensureParentIndices` before turn `k`. -/
structure Turned (regions : List LineRange) (r : FoldingRegions) (k : Nat) (state : FoldingRegions × List Nat) :
    Prop where
  packed : ∃ code, Packed regions code state.1 ∧ (∀ i, k ≤ i → code i = 0) ∧ ∀ i < k, IsCoded regions code i
  stacked : Stacked regions k state.2
  same : SameStates r state.1
  computed : state.1.parentsComputed = true

theorem dropWhile_congr {l : List Nat} {p q : Nat → Bool} (h : ∀ x ∈ l, p x = q x) :
    l.dropWhile p = l.dropWhile q := by
  induction l with
  | nil => rfl
  | cons x l ih =>
    rw [dropWhile_cons, dropWhile_cons, h x mem_cons_self,
      ih fun y hy => h y (mem_cons_of_mem x hy)]

/-- On the stack, `isInsideLast` is asked for regions only. -/
theorem Stacked.dropWhile_eq (h : WellNested regions) (hs : Stacked regions k parentIndexes) (hk : regions[k]? = some a)
    (hp : Packed regions code r) :
    (parentIndexes.dropWhile fun index => !r.isInsideLast index a.startLineNumber a.endLineNumber) =
      parentIndexes.dropWhile (Misses regions a) := by
  apply dropWhile_congr
  intro j hj
  have hlt := hs.below j hj
  have hlen := (List.getElem?_eq_some_iff.mp hk).1
  have hb : regions[j]? = some regions[j] := List.getElem?_eq_getElem (by omega)
  rw [FoldingRegions.isInsideLast, hp.getStartLineNumber_eq h hb, hp.getEndLineNumber_eq h hb, Misses, hb]
  by_cases hholds : regions[j].Holds a
  · obtain ⟨hs, he⟩ := id hholds
    simp [hholds, hs, he]
  · have hsplit := Decidable.not_and_iff_or_not.mp hholds
    simp only [hholds, decide_false, Bool.not_false]
    rcases hsplit with hs | he
    · simp [hs]
    · simp [he]

theorem Packed.load_eq (hp : Packed regions code r) (hi : regions[i]? = some a) (hcode : code i = 0) :
    load r.startIndexes i = a.startLineNumber ∧ load r.endIndexes i = a.endLineNumber := by
  rw [load, load, hp.start i a hi, hp.stop i a hi, hcode]
  simp

theorem Turned.step (h : WellNested regions) {state : FoldingRegions × List Nat} (ht : Turned regions r k state)
    (hk : regions[k]? = some a) :
    ∃ state', FoldingRegions.parentStep state k = some state' ∧ Turned regions r (k + 1) state' := by
  obtain ⟨code, hp, hzero, hcoded⟩ := ht.packed
  obtain ⟨hstart, hend⟩ := hp.load_eq hk (hzero k (Nat.le_refl k))
  obtain ⟨hs, he⟩ := h.line_lt hk
  have hmax : maxLineNumber = 2 ^ 24 - 1 := rfl
  have hdrop := ht.stacked.dropWhile_eq h hk hp
  have hinner := ht.stacked.innermost h hk
  rw [FoldingRegions.parentStep]
  simp only [hstart, hend, hdrop]
  rw [if_neg (by omega)]
  refine ⟨_, rfl, ?_⟩
  constructor
  · refine ⟨_, hp.store h hk _, ?_, ?_⟩
    · intro i hi
      rw [Function.update_of_ne (by omega)]
      exact hzero i (by omega)
    · intro i hi b hb
      by_cases hik : i = k
      · subst hik
        obtain rfl : b = a := by simpa [hk] using hb.symm
        rw [Function.update_self]
        exact ⟨_, rfl, hinner⟩
      · rw [Function.update_of_ne hik]
        exact hcoded i (by omega) b hb
  · exact ht.stacked.push h hk
  · exact ⟨ht.same.1, ht.same.2, ht.same.3, ht.same.4⟩
  · exact ht.computed

theorem Turned.loop (h : WellNested regions) {state : FoldingRegions × List Nat} (ht : Turned regions r 0 state)
    (hk : k ≤ regions.length) :
    ∃ state', (List.range k).foldlM FoldingRegions.parentStep state = some state' ∧ Turned regions r k state' := by
  induction k with
  | zero => exact ⟨state, rfl, ht⟩
  | succ k ih =>
    obtain ⟨state', hfold, ht'⟩ := ih (by omega)
    obtain ⟨state'', hstep, ht''⟩ := ht'.step h (List.getElem?_eq_getElem (by omega))
    refine ⟨state'', ?_, ht''⟩
    rw [range_succ, foldlM_append, hfold]
    show (FoldingRegions.parentStep state' k).bind some = _
    rw [hstep]
    rfl

/-- Regions as they are after any calls: their lines are packed, with a code of 0 before the parents are computed and
the codes of the parents from then on. -/
def Represents (regions : List LineRange) (r : FoldingRegions) : Prop :=
  ∃ code, Packed regions code r ∧ (r.parentsComputed = false → ∀ i, code i = 0) ∧
    (r.parentsComputed = true → ∀ i, IsCoded regions code i)

theorem Represents.ensureParentIndices (h : WellNested regions) (hr : Represents regions r) :
    ∃ r', r.ensureParentIndices = some r' ∧ Represents regions r' ∧
      SameStates r r' ∧ r'.parentsComputed = true := by
  obtain ⟨code, hp, hzero, hcoded⟩ := hr
  rw [FoldingRegions.ensureParentIndices]
  cases hcomputed : r.parentsComputed with
  | true => exact ⟨r, rfl, ⟨code, hp, hzero, hcoded⟩, ⟨rfl, rfl, rfl, rfl⟩, hcomputed⟩
  | false =>
    have hbegin : Turned regions r 0 ({ r with parentsComputed := true }, []) := by
      constructor
      · exact ⟨code, ⟨hp.1, hp.2, hp.3, hp.4, hp.5⟩, fun i _ => hzero hcomputed i, fun i hi => by omega⟩
      · exact stacked_nil regions
      · exact ⟨rfl, rfl, rfl, rfl⟩
      · rfl
    obtain ⟨state, hfold, ht⟩ := hbegin.loop h (Nat.le_refl regions.length)
    obtain ⟨code', hp', -, hcoded'⟩ := ht.packed
    refine ⟨state.1, ?_, ⟨code', hp', ?_, ?_⟩, ht.same, ht.computed⟩
    · rw [FoldingRegions.length, hp.startLength, hfold]
      rfl
    · intro hfalse
      rw [ht.computed] at hfalse
      exact absurd hfalse (by decide)
    · intro _ i a hi
      exact hcoded' i (List.getElem?_eq_some_iff.mp hi).1 a hi

theorem Represents.lines (h : WellNested regions) (hr : Represents regions r) (hi : regions[i]? = some a) :
    r.getStartLineNumber i = a.startLineNumber ∧ r.getEndLineNumber i = a.endLineNumber := by
  obtain ⟨code, hp, -, -⟩ := hr
  exact ⟨hp.getStartLineNumber_eq h hi, hp.getEndLineNumber_eq h hi⟩

theorem Innermost.bounds {among : Nat → LineRange → Prop} {index : Int} (h : Innermost regions among index) :
    index = -1 ∨ 0 ≤ index ∧ index < regions.length := by
  rcases h with ⟨rfl, -⟩ | ⟨j, b, rfl, hj, -⟩
  · exact .inl rfl
  · have := (List.getElem?_eq_some_iff.mp hj).1
    exact .inr ⟨by omega, by omega⟩

theorem Represents.getParentIndex (h : WellNested regions) (hlen : regions.length ≤ maxFoldingRegions)
    (hr : Represents regions r) (hi : regions[i]? = some a) :
    ∃ p r', r.getParentIndex i = some (p, r') ∧ Innermost regions (Around i a) p ∧ Represents regions r' ∧
      r'.length = regions.length := by
  obtain ⟨r', hensure, hr', -, hcomputed⟩ := hr.ensureParentIndices h
  have hall := hr'
  obtain ⟨code, hp, -, hcoded⟩ := hr'
  obtain ⟨p, hcode, hinner⟩ := hcoded hcomputed i a hi
  have hmax : maxFoldingRegions = 65535 := rfl
  refine ⟨_, r', by rw [FoldingRegions.getParentIndex, hensure]; rfl, ?_, hall, hp.startLength⟩
  rw [hp.parent_eq h hi, hcode, codeOf]
  rcases hinner.bounds with rfl | hbounds
  · exact hinner
  · rw [if_neg (by omega)]
    have hp' : (((p % 65536).toNat : Nat) : Int) = p := by omega
    rw [hp']
    exact hinner

/-! ## The region of a line -/

/-- The search finds how many regions start at the line or before it. -/
theorem findIndexLoop_spec (h : WellNested regions) (hr : Represents regions r) (line : Int) {low high : Nat}
    (hlow : low ≤ high) (hhigh : high ≤ regions.length)
    (hbefore : ∀ i a, i < low → regions[i]? = some a → (a.startLineNumber : Int) ≤ line)
    (hbehind : ∀ i a, high ≤ i → regions[i]? = some a → line < a.startLineNumber) :
    r.findIndexLoop line low high ≤ regions.length ∧
      (∀ i a, i < r.findIndexLoop line low high → regions[i]? = some a → (a.startLineNumber : Int) ≤ line) ∧
      ∀ i a, r.findIndexLoop line low high ≤ i → regions[i]? = some a → line < a.startLineNumber := by
  rw [FoldingRegions.findIndexLoop]
  by_cases hlt : low < high
  · rw [if_pos hlt]
    have hmid : regions[(low + high) / 2]? = some regions[(low + high) / 2] := List.getElem?_eq_getElem (by omega)
    have hstart := (hr.lines h hmid).1
    simp only [hstart]
    split_ifs with hline
    · apply findIndexLoop_spec h hr line (by omega) (by omega) hbefore
      intro i a hi ha
      rcases Nat.eq_or_lt_of_le hi with rfl | hi
      · obtain rfl : a = regions[(low + high) / 2] := by simpa [hmid] using ha.symm
        exact hline
      · have := (h.later hi hmid ha).1
        omega
    · apply findIndexLoop_spec h hr line (by omega) hhigh _ hbehind
      intro i a hi ha
      rcases Nat.eq_or_lt_of_le (show i ≤ (low + high) / 2 by omega) with rfl | hi
      · obtain rfl : a = regions[(low + high) / 2] := by simpa [hmid] using ha.symm
        omega
      · have := (h.later hi ha hmid).1
        omega
  · rw [if_neg hlt]
    have hlh : low = high := by omega
    subst hlh
    exact ⟨hhigh, hbefore, hbehind⟩
termination_by high - low

/-- Every region with the line holds region `index`, which has not the line itself. -/
structure Climbs (regions : List LineRange) (line : Int) (i : Nat) (a : LineRange) : Prop where
  isRegion : regions[i]? = some a
  misses : ¬ a.HasLine line
  above : ∀ (j : Nat) (b : LineRange), regions[j]? = some b → b.HasLine line → b.Holds a

theorem Climbs.up {line : Int} (hc : Climbs regions line i a) {p : Int} (hp : Innermost regions (Around i a) p) :
    (p = -1 ∧ Innermost regions (fun _ b => b.HasLine line) p) ∨
      ∃ (j : Nat) (b : LineRange), p = j ∧ regions[j]? = some b ∧ j ≠ i ∧ b.Holds a ∧
        ∀ (k : Nat) (c : LineRange), regions[k]? = some c → c.HasLine line → c.Holds b := by
  have haround : ∀ (k : Nat) (c : LineRange), regions[k]? = some c → c.HasLine line → Around i a k c := by
    intro k c hk hline
    refine ⟨?_, hc.above k c hk hline⟩
    rintro rfl
    obtain rfl : c = a := by simpa [hc.isRegion] using hk.symm
    exact hc.misses hline
  rcases hp with ⟨rfl, hnone⟩ | ⟨j, b, rfl, hj, ⟨hne, hholds⟩, hleast⟩
  · exact .inl ⟨rfl, .inl ⟨rfl, fun k c hk hline => hnone k c hk (haround k c hk hline)⟩⟩
  · exact .inr ⟨j, b, rfl, hj, hne, hholds, fun k c hk hline => hleast k c hk (haround k c hk hline)⟩

theorem climb_spec (h : WellNested regions) (hlen : regions.length ≤ maxFoldingRegions) {line : Int} {fuel i : Nat}
    (hc : Climbs regions line i a) {p : Int} (hr : Represents regions r) (hp : Innermost regions (Around i a) p)
    (hfuel : i < fuel) :
    ∃ q r', FoldingRegions.climb line fuel r p = some (q, r') ∧
      Innermost regions (fun _ b => b.HasLine line) q ∧ Represents regions r' := by
  induction fuel generalizing i a p r with
  | zero => omega
  | succ fuel ih =>
    rw [FoldingRegions.climb]
    rcases hc.up hp with ⟨rfl, hnone⟩ | ⟨j, b, rfl, hj, hne, hholds, habove⟩
    · exact ⟨-1, r, rfl, hnone, hr⟩
    · obtain ⟨code, hpacked, -⟩ := id hr
      rw [if_neg (by omega), Int.toNat_natCast]
      have hji := h.before hc.isRegion hj ⟨hne, hholds⟩
      by_cases hline : b.HasLine line
      · rw [if_pos ((hpacked.contains_iff h hj line).mpr hline)]
        exact ⟨j, r, rfl, .inr ⟨j, b, rfl, hj, hline, habove⟩, hr⟩
      · rw [if_neg (fun hcontains => hline ((hpacked.contains_iff h hj line).mp hcontains))]
        obtain ⟨p', r', hparent, hp', hr', -⟩ := hr.getParentIndex h hlen hj
        rw [hparent]
        exact ih ⟨hj, hline, habove⟩ hr' hp' (by omega)

theorem Represents.findRange (h : WellNested regions) (hlen : regions.length ≤ maxFoldingRegions)
    (hr : Represents regions r) (line : Int) :
    ∃ p r', r.findRange line = some (p, r') ∧ Innermost regions (fun _ b => b.HasLine line) p ∧
      Represents regions r' := by
  have hstartLength : r.startIndexes.length = regions.length := by
    obtain ⟨code, hp, -⟩ := id hr
    exact hp.startLength
  have hnone : (∀ (i : Nat) (a : LineRange), regions[i]? = some a → line < a.startLineNumber) →
      Innermost regions (fun _ b => b.HasLine line) (-1) := by
    intro hall
    refine .inl ⟨rfl, fun i a hi hline => ?_⟩
    have := hall i a hi
    have := hline.1
    omega
  rw [FoldingRegions.findRange, FoldingRegions.findIndex, hstartLength]
  by_cases hempty : regions.length = 0
  · rw [if_pos hempty]
    refine ⟨-1, r, rfl, hnone fun i a hi => ?_, hr⟩
    have := (List.getElem?_eq_some_iff.mp hi).1
    omega
  · rw [if_neg hempty]
    obtain ⟨hbound, hbefore, hbehind⟩ := findIndexLoop_spec h hr line (Nat.zero_le _) (Nat.le_refl regions.length)
      (fun i a hi => by omega) (fun i a hi ha => by
        have := (List.getElem?_eq_some_iff.mp ha).1
        omega)
    cases hfound : r.findIndexLoop line 0 regions.length with
    | zero =>
      rw [hfound] at hbehind
      exact ⟨-1, r, rfl, hnone fun i a hi => hbehind i a (Nat.zero_le i) hi, hr⟩
    | succ i =>
      rw [hfound] at hbound hbefore hbehind
      have hi : regions[i]? = some regions[i] := List.getElem?_eq_getElem (by omega)
      have hindex : ((i + 1 : Nat) : Int) - 1 = i := by omega
      have hstart := hbefore i _ (by omega) hi
      -- a region with the line is region `i`, or comes before it and is not disjoint from it
      have habove : ∀ (j : Nat) (b : LineRange), regions[j]? = some b → b.HasLine line → b.Holds regions[i] := by
        intro j b hj hline
        have hjlt : j < i + 1 := by
          by_contra hge
          have := hbehind j b (by omega) hj
          have := hline.1
          omega
        rcases Nat.eq_or_lt_of_le (Nat.le_of_lt_succ hjlt) with rfl | hlt
        · obtain rfl : b = regions[j] := by simpa [hi] using hj.symm
          exact ⟨Nat.le_refl _, Nat.le_refl _⟩
        · obtain ⟨hbefore', hstop⟩ := h.later hlt hj hi
          have := hline.2
          exact ⟨by omega, by omega⟩
      simp only [hindex, Int.toNat_natCast, (hr.lines h hi).2]
      rw [if_pos (by omega)]
      split_ifs with hend
      · exact ⟨i, r, rfl, .inr ⟨i, _, rfl, hi, ⟨hstart, hend⟩, habove⟩, hr⟩
      · have hc : Climbs regions line i regions[i] := ⟨hi, fun hline => hend hline.2, habove⟩
        obtain ⟨p, r', hparent, hp, hr', hlength⟩ := hr.getParentIndex h hlen hi
        rw [hparent]
        exact climb_spec h hlen hc hr' hp (by omega)

/-! ## Calls -/

inductive Call where
  | setCollapsed (index : Nat) (newState : Bool)
  | setCollapsedAllOfType (type : String) (newState : Bool)
  | setSource (index : Nat) (source : FoldSource)
  | getParentIndex (index : Nat)
  | findRange (line : Int)
deriving DecidableEq, Repr

def FoldingRegions.call (r : FoldingRegions) : Call → Option FoldingRegions
  | .setCollapsed index newState => some (r.setCollapsed index newState)
  | .setCollapsedAllOfType type newState => some (r.setCollapsedAllOfType type newState)
  | .setSource index source => some (r.setSource index source)
  | .getParentIndex index => (r.getParentIndex index).map Prod.snd
  | .findRange line => (r.findRange line).map Prod.snd

def FoldingRegions.calls (r : FoldingRegions) (cs : List Call) : Option FoldingRegions :=
  cs.foldlM FoldingRegions.call r

/-- The words of regions whose parents are not computed. -/
def wordsOf (lines : List Nat) : Uint32Array := lines.map (BitVec.ofNat 32)

theorem Represents.of_words {r r' : FoldingRegions} (hr : Represents regions r)
    (hstart : r'.startIndexes = r.startIndexes) (hend : r'.endIndexes = r.endIndexes)
    (hcomputed : r'.parentsComputed = r.parentsComputed) : Represents regions r' := by
  obtain ⟨code, hp, hzero, hcoded⟩ := hr
  refine ⟨code, ⟨by rw [hstart, hp.startLength], by rw [hend, hp.endLength], hp.small, ?_, ?_⟩,
    by rw [hcomputed]; exact hzero, by rw [hcomputed]; exact hcoded⟩
  · rw [hstart]
    exact hp.start
  · rw [hend]
    exact hp.stop

theorem Represents.setCollapsedAllOfType (hr : Represents regions r) (type : String) (newState : Bool) :
    Represents regions (r.setCollapsedAllOfType type newState) := by
  rw [FoldingRegions.setCollapsedAllOfType]
  cases r.types with
  | none => exact hr
  | some types =>
    have hfold : ∀ (l : List Nat) (r : FoldingRegions), Represents regions r → Represents regions
        (l.foldl (fun r i => if types[i]? = some (some type) then r.setCollapsed i newState else r) r) := by
      intro l
      induction l with
      | nil => exact fun r hr => hr
      | cons i l ih =>
        intro r hr
        rw [foldl_cons]
        apply ih
        split_ifs
        · exact hr.of_words rfl rfl rfl
        · exact hr
    exact hfold _ r hr

section

variable (h : WellNested regions) (hlen : regions.length ≤ maxFoldingRegions)
include h hlen

theorem Represents.call (hr : Represents regions r) (c : Call) :
    ∃ r', r.call c = some r' ∧ Represents regions r' := by
  cases c with
  | setCollapsed index newState => exact ⟨_, rfl, hr.of_words rfl rfl rfl⟩
  | setCollapsedAllOfType type newState => exact ⟨_, rfl, hr.setCollapsedAllOfType type newState⟩
  | setSource index source => cases source <;> exact ⟨_, rfl, hr.of_words rfl rfl rfl⟩
  | getParentIndex index =>
    obtain ⟨r', hensure, hr', -⟩ := hr.ensureParentIndices h
    refine ⟨r', ?_, hr'⟩
    rw [FoldingRegions.call, FoldingRegions.getParentIndex, hensure]
    rfl
  | findRange line =>
    obtain ⟨p, r', hfind, -, hr'⟩ := hr.findRange h hlen line
    refine ⟨r', ?_, hr'⟩
    rw [FoldingRegions.call, hfind]
    rfl

theorem Represents.calls (hr : Represents regions r) (cs : List Call) :
    ∃ r', r.calls cs = some r' ∧ Represents regions r' := by
  induction cs generalizing r with
  | nil => exact ⟨r, rfl, hr⟩
  | cons c cs ih =>
    obtain ⟨r', hcall, hr'⟩ := hr.call h hlen c
    obtain ⟨r'', hcalls, hr''⟩ := ih hr'
    refine ⟨r'', ?_, hr''⟩
    rw [FoldingRegions.calls, foldlM_cons, hcall]
    exact hcalls

theorem represents_new (types : Option (List (Option String))) :
    ∃ r, FoldingRegions.new (wordsOf (regions.map (·.startLineNumber))) (wordsOf (regions.map (·.endLineNumber))) types =
      some r ∧ Represents regions r := by
  rw [FoldingRegions.new, if_neg (by simp only [wordsOf, length_map]; omega)]
  refine ⟨_, rfl, fun _ => 0, ?_, fun _ _ => rfl, fun hcomputed => absurd hcomputed Bool.false_ne_true⟩
  constructor
  · show (wordsOf _).length = _
    rw [wordsOf, length_map, length_map]
  · show (wordsOf _).length = _
    rw [wordsOf, length_map, length_map]
  · intro i
    omega
  · intro i a hi
    have := h.line_lt hi
    show ((wordsOf _).getD i 0).toNat = _
    rw [wordsOf, getD_eq_getElem?_getD, getElem?_map, getElem?_map, hi]
    simp
    omega
  · intro i a hi
    have := h.line_lt hi
    show ((wordsOf _).getD i 0).toNat = _
    rw [wordsOf, getD_eq_getElem?_getD, getElem?_map, getElem?_map, hi]
    simp
    omega

end

/-- What the regions answer about lines, parents and the region of a line, and what computing the parents leaves as it
is. -/
structure Exact (regions : List LineRange) (r : FoldingRegions) : Prop where
  lines : ∀ i a, regions[i]? = some a → r.getStartLineNumber i = a.startLineNumber ∧ r.getEndLineNumber i = a.endLineNumber
  parent : ∀ i a, regions[i]? = some a →
    ∃ p r', r.getParentIndex i = some (p, r') ∧ Innermost regions (fun j b => j ≠ i ∧ b.Holds a) p
  range : ∀ line, ∃ p r', r.findRange line = some (p, r') ∧ Innermost regions (fun _ b => b.HasLine line) p
  frame : ∃ r', r.ensureParentIndices = some r' ∧
    (∀ i < regions.length, r'.getStartLineNumber i = r.getStartLineNumber i ∧
      r'.getEndLineNumber i = r.getEndLineNumber i) ∧
    ∀ i, r'.getType i = r.getType i ∧ r'.isCollapsed i = r.isCollapsed i ∧ r'.getSource i = r.getSource i

theorem Represents.exact (h : WellNested regions) (hlen : regions.length ≤ maxFoldingRegions) (hr : Represents regions r) :
    Exact regions r := by
  constructor
  · exact fun i a hi => hr.lines h hi
  · intro i a hi
    obtain ⟨p, r', hparent, hp, -⟩ := hr.getParentIndex h hlen hi
    exact ⟨p, r', hparent, hp⟩
  · intro line
    obtain ⟨p, r', hfind, hp, -⟩ := hr.findRange h hlen line
    exact ⟨p, r', hfind, hp⟩
  · obtain ⟨r', hensure, hr', hsame, -⟩ := hr.ensureParentIndices h
    refine ⟨r', hensure, ?_, ?_⟩
    · intro i hi
      have hi' : regions[i]? = some regions[i] := List.getElem?_eq_getElem hi
      obtain ⟨hs, he⟩ := hr.lines h hi'
      obtain ⟨hs', he'⟩ := hr'.lines h hi'
      exact ⟨by rw [hs, hs'], by rw [he, he']⟩
    · intro i
      refine ⟨?_, ?_, ?_⟩
      · rw [FoldingRegions.getType, FoldingRegions.getType, hsame.types]
      · rw [FoldingRegions.isCollapsed, FoldingRegions.isCollapsed, hsame.collapseStates]
      · simp only [FoldingRegions.getSource, FoldingRegions.isUserDefined, FoldingRegions.isRecovered,
          hsame.userDefinedStates, hsame.recoveredStates]
        rfl

/-- Well nested regions, after any calls. -/
theorem packed_parents_exact {regions : List LineRange} (h : WellNested regions)
    (hlen : regions.length ≤ maxFoldingRegions) (types : Option (List (Option String))) (cs : List Call) :
    ∃ r r', FoldingRegions.new (wordsOf (regions.map (·.startLineNumber))) (wordsOf (regions.map (·.endLineNumber))) types =
      some r ∧ r.calls cs = some r' ∧ Exact regions r' := by
  obtain ⟨r, hnew, hr⟩ := represents_new h hlen types
  obtain ⟨r', hcalls, hr'⟩ := hr.calls h hlen cs
  exact ⟨r, r', hnew, hcalls, hr'.exact h hlen⟩

theorem fourRegions_wellNested : WellNested [⟨1, 9⟩, ⟨2, 4⟩, ⟨5, 9⟩, ⟨16777214, 16777215⟩] := by
  constructor <;> decide

/-- A region with two others in it, and one at the last line. -/
theorem packed_parents_exact_four :
    ∃ r r', FoldingRegions.new (wordsOf [1, 2, 5, 16777214]) (wordsOf [9, 4, 9, 16777215]) none = some r ∧
      r.calls [.setCollapsed 1 true, .getParentIndex 2] = some r' ∧
      Exact [⟨1, 9⟩, ⟨2, 4⟩, ⟨5, 9⟩, ⟨16777214, 16777215⟩] r' :=
  packed_parents_exact fourRegions_wellNested (by decide) none [.setCollapsed 1 true, .getParentIndex 2]

end TongjiCode.Folding
