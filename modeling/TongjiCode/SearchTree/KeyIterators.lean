import TongjiCode.SearchTree.StoredEntries

/-!
# Key iterators

The key iterators of `ternarySearchTree.ts`, each as the segments that it goes through with their comparisons.  How
`toLowerCase` maps a string is a parameter.
-/

open List

namespace TongjiCode.SearchTree

/-! ## Comparisons of strings -/

/-- `charCodeAt(0)` of a segment less `thisCode`: `undefined` throws, and an empty segment gives `NaN`. -/
def compareCode (a : Segment) (thisCode : UInt16) : Option Ordering :=
  match a with
  | none => none
  | some [] => some .eq
  | some (aCode :: _) => some (if aCode < thisCode then .lt else if aCode > thisCode then .gt else .eq)

def compareSubstring : JsString → JsString → Ordering
  | [], [] => .eq
  | [], _ :: _ => .lt
  | _ :: _, [] => .gt
  | codeA :: a, codeB :: b =>
    if codeA < codeB then .lt else if codeA > codeB then .gt else compareSubstring a b

def isLowerAsciiLetter (code : UInt16) : Bool := 97 ≤ code ∧ code ≤ 122

/-- Lower-case ASCII letters are mapped to upper-case ones. -/
def upperAscii (code : UInt16) : UInt16 := if isLowerAsciiLetter code then code - 32 else code

/-- The loop of `compareSubstringIgnoreCase`.  From two different codes on that are not both of ASCII letters, `lower`
decides, from the number of codes that were compared. -/
def compareSubstringIgnoreCaseLoop (lower : Nat → Ordering) : Nat → JsString → JsString → Ordering
  | _, [], [] => .eq
  | _, [], _ :: _ => .lt
  | _, _ :: _, [] => .gt
  | i, codeA :: a, codeB :: b =>
    if codeA = codeB then compareSubstringIgnoreCaseLoop lower (i + 1) a b
    else if codeA ≥ 128 ∨ codeB ≥ 128 then lower i
    else if upperAscii codeA = upperAscii codeB then compareSubstringIgnoreCaseLoop lower (i + 1) a b
    else compare (upperAscii codeA).toNat (upperAscii codeB).toNat

/-- `compareSubstringIgnoreCase(a, b, 0, a.length, bStart, bEnd)`.  The fallback compares the same places of the
strings in lower case. -/
def compareSubstringIgnoreCase (toLowerCase : JsString → JsString) (a b : JsString) (bStart bEnd : Nat) : Ordering :=
  compareSubstringIgnoreCaseLoop
    (fun i => compareSubstring ((toLowerCase a).substring i a.length) ((toLowerCase b).substring (bStart + i) bEnd)) 0 a
    (b.substring bStart bEnd)

/-! ## Iterators -/

/-- `StringIterator`.  An empty string has the segment `undefined`, whose code is `NaN`. -/
def stringIterator : JsString → Step × List Step
  | [] => ({ value := none, cmp := fun a => a.map fun _ => .eq }, [])
  | code :: codes => (charStep code, codes.map charStep)
where
  charStep (code : UInt16) : Step := { value := some [code], cmp := fun a => compareCode a code }

/-- What `next` of `ConfigKeysIterator` and `PathIterator` does from `start` on: separators are skipped, and the segment
goes to the next one. -/
def nextSegment (isSeparator : UInt16 → Bool) (value : JsString) (start : Nat) : Nat × Nat :=
  let first := start + ((value.drop start).takeWhile isSeparator).length
  (first, first + ((value.drop first).takeWhile fun ch => !isSeparator ch).length)

def nextSegments (isSeparator : UInt16 → Bool) (value : JsString) (start : Nat) : Nat → List (Nat × Nat)
  | 0 => []
  | fuel + 1 =>
    if start < value.length then
      let segment := nextSegment isSeparator value start
      segment :: nextSegments isSeparator value segment.2 fuel
    else []

def segmentStep (toLowerCase : JsString → JsString) (caseSensitive : Bool) (value : JsString) (segment : Nat × Nat) :
    Step :=
  { value := some (value.substring segment.1 segment.2)
    cmp := fun a => a.map fun a =>
      if caseSensitive then compareSubstring a (value.substring segment.1 segment.2)
      else compareSubstringIgnoreCase toLowerCase a value segment.1 segment.2 }

/-- The segments of the first `valueLen` codes of a string; each but the first one takes a code at least. -/
def separatedSteps (toLowerCase : JsString → JsString) (caseSensitive : Bool) (isSeparator : UInt16 → Bool)
    (value : JsString) (valueLen : Nat) : Step × List Step :=
  let first := nextSegment isSeparator (value.take valueLen) 0
  (segmentStep toLowerCase caseSensitive value first,
    (nextSegments isSeparator (value.take valueLen) first.2 valueLen).map (segmentStep toLowerCase caseSensitive value))

def isSlash (splitOnBackslash : Bool) (ch : UInt16) : Bool := ch = 47 || splitOnBackslash && ch = 92

/-- `_valueLen` of `PathIterator`, which leaves out the separators at the end. -/
def valueLen (splitOnBackslash : Bool) (key : JsString) : Nat := (key.reverse.dropWhile (isSlash splitOnBackslash)).length

def pathIterator (toLowerCase : JsString → JsString) (splitOnBackslash caseSensitive : Bool) (key : JsString) :
    Step × List Step :=
  separatedSteps toLowerCase caseSensitive (isSlash splitOnBackslash) key (valueLen splitOnBackslash key)

/-- `ConfigKeysIterator`.  Periods at the end make an empty last segment. -/
def configKeysIterator (toLowerCase : JsString → JsString) (caseSensitive : Bool) (key : JsString) : Step × List Step :=
  separatedSteps toLowerCase caseSensitive (· = 46) key key.length

/-! ## When keys compare consistently -/

section Consistency

variable {ρ : Type} [LinearOrder ρ]

theorem agree_of_ranking (rank : Segment → ρ) : ∀ (path : List ρ) (steps others : List Step),
    (∀ step ∈ steps, ∀ other ∈ others, step.cmp other.value = some (cmp (rank other.value) (rank step.value))) →
    Agree (fun _ => rank) path steps others
  | _, [], _, _ => trivial
  | _, _ :: _, [], _ => trivial
  | path, step :: steps, other :: others, h => by
    refine ⟨h step mem_cons_self other mem_cons_self, fun _ => ?_⟩
    exact agree_of_ranking rank _ steps others fun step' hstep other' hother =>
      h step' (mem_cons_of_mem _ hstep) other' (mem_cons_of_mem _ hother)

def codes (segment : Segment) : List Nat := (segment.getD []).map UInt16.toNat

theorem cmp_of_lt {a b : ρ} (h : a < b) : cmp a b = .lt := (cmp_eq_lt_iff _ _).mpr h

theorem cmp_of_gt {a b : ρ} (h : b < a) : cmp a b = .gt := (cmp_eq_gt_iff _ _).mpr h

theorem compareSubstring_cons {codeA codeB : UInt16} {a b : JsString} :
    compareSubstring (codeA :: a) (codeB :: b) =
      if codeA.toNat < codeB.toNat then .lt else if codeB.toNat < codeA.toNat then .gt else compareSubstring a b := by
  rw [compareSubstring]
  simp only [gt_iff_lt, UInt16.lt_iff_toNat_lt]

def compareCodes (a b : Segment) : Ordering := orderOf (codes a) (codes b)
where
  orderOf {ρ : Type} [LinearOrder ρ] (a b : ρ) : Ordering := cmp a b

theorem compareSubstring_eq : ∀ a b : JsString, compareSubstring a b = compareCodes (some a) (some b)
  | [], [] => (cmp_self_eq_eq (codes (some []))).symm
  | [], code :: b => by
    have hlt : codes (some []) < codes (some (code :: b)) := nil_lt_cons _ _
    exact (cmp_of_lt hlt).symm
  | code :: a, [] => by
    have hlt : codes (some []) < codes (some (code :: a)) := nil_lt_cons _ _
    exact (cmp_of_gt hlt).symm
  | codeA :: a, codeB :: b => by
    rw [compareSubstring_cons, compareSubstring_eq a b]
    have hcons : ∀ l l' : List Nat, codeA.toNat :: l < codeB.toNat :: l' ↔
        codeA.toNat < codeB.toNat ∨ codeA.toNat = codeB.toNat ∧ l < l' := fun l l' => cons_lt_cons_iff
    have hcons' : ∀ l l' : List Nat, codeB.toNat :: l < codeA.toNat :: l' ↔
        codeB.toNat < codeA.toNat ∨ codeB.toNat = codeA.toNat ∧ l < l' := fun l l' => cons_lt_cons_iff
    have hself : ∀ l : List Nat, compareCodes.orderOf l l = .eq := cmp_self_eq_eq
    show (if _ then _ else if _ then _ else compareCodes.orderOf (codes (some a)) (codes (some b))) =
      compareCodes.orderOf (codeA.toNat :: codes (some a)) (codeB.toNat :: codes (some b))
    split_ifs with hlt hgt
    · exact (cmp_of_lt ((hcons _ _).mpr (.inl hlt))).symm
    · exact (cmp_of_gt ((hcons' _ _).mpr (.inl hgt))).symm
    · have heq : codeA.toNat = codeB.toNat := Nat.le_antisymm (by omega) (by omega)
      rcases lt_trichotomy (codes (some a)) (codes (some b)) with h | h | h
      · exact (cmp_of_lt h).trans (cmp_of_lt ((hcons _ _).mpr (.inr ⟨heq, h⟩))).symm
      · rw [h, heq, hself, hself]
      · exact (cmp_of_gt h).trans (cmp_of_gt ((hcons' _ _).mpr (.inr ⟨heq.symm, h⟩))).symm

theorem strings_consistent (keys : List JsString) (h : ∀ key ∈ keys, key ≠ []) :
    Consistent (fun _ => codes) stringIterator keys := by
  have hsteps : ∀ key ∈ keys, ∀ step ∈ stepsOf stringIterator key, ∃ code, step = stringIterator.charStep code := by
    intro key hkey step hstep
    cases key with
    | nil => exact absurd rfl (h _ hkey)
    | cons code codes =>
      rcases mem_cons.mp hstep with rfl | hstep
      · exact ⟨code, rfl⟩
      · obtain ⟨code', -, rfl⟩ := mem_map.mp hstep
        exact ⟨code', rfl⟩
  intro key hkey key' hkey'
  apply agree_of_ranking
  intro step hstep other hother
  obtain ⟨code, rfl⟩ := hsteps key hkey step hstep
  obtain ⟨code', rfl⟩ := hsteps key' hkey' other hother
  exact congrArg some (compareSubstring_eq [code'] [code])

variable (toLowerCase : JsString → JsString)

theorem separated_consistent (isSeparator : UInt16 → Bool) (valueLen : JsString → Nat) (keys : List JsString) :
    Consistent (fun _ => codes) (fun key => separatedSteps toLowerCase true isSeparator key (valueLen key)) keys := by
  have hsteps : ∀ key, ∀ step ∈ stepsOf (fun key => separatedSteps toLowerCase true isSeparator key (valueLen key)) key,
      ∃ segment, step = segmentStep toLowerCase true key segment := by
    intro key step hstep
    rcases mem_cons.mp hstep with rfl | hstep
    · exact ⟨_, rfl⟩
    · obtain ⟨segment, -, rfl⟩ := mem_map.mp hstep
      exact ⟨segment, rfl⟩
  intro key _ key' _
  apply agree_of_ranking
  intro step hstep other hother
  obtain ⟨segment, rfl⟩ := hsteps key step hstep
  obtain ⟨segment', rfl⟩ := hsteps key' other hother
  exact congrArg some (compareSubstring_eq _ _)

theorem paths_consistent (splitOnBackslash : Bool) (keys : List JsString) :
    Consistent (fun _ => codes) (pathIterator toLowerCase splitOnBackslash true) keys :=
  separated_consistent toLowerCase (isSlash splitOnBackslash) (valueLen splitOnBackslash) keys

theorem configKeys_consistent (keys : List JsString) :
    Consistent (fun _ => codes) (configKeysIterator toLowerCase true) keys :=
  separated_consistent toLowerCase _ List.length keys

end Consistency

end TongjiCode.SearchTree
