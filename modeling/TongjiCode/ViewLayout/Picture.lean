import Mathlib.Algebra.Order.BigOperators.Group.List
import TongjiCode.ViewLayout.LinesLayout

/-!
# What a layout shows

A `Picture` is what the whitespaces and lines of a layout come to, without any order or cached sum: a collection of
zones with their places and heights, and the four numbers.  Its operations say what those of `LinesLayout` are for.
-/

open List

namespace TongjiCode.ViewLayout

/-- A whitespace without its place in the order and its cached sum. -/
structure Zone where
  id : Nat
  afterLineNumber : Int
  height : Int
deriving DecidableEq, Repr

def EditorWhitespace.zone (whitespace : EditorWhitespace) : Zone :=
  { id := whitespace.id, afterLineNumber := whitespace.afterLineNumber, height := whitespace.height }

def zonesOf (arr : List EditorWhitespace) : List Zone := arr.map EditorWhitespace.zone

def totalHeight (zones : List Zone) : Int := (zones.map Zone.height).sum

def heightAbove (zones : List Zone) (lineNumber : Int) : Int :=
  totalHeight (zones.filter fun zone => zone.afterLineNumber < lineNumber)

structure Picture where
  zones : List Zone := []
  inserts : List Zone := []
  changes : List PendingChange := []
  removes : List Nat := []
  lastId : Nat := 0
  lineCount : Int
  lineHeight : Int
  paddingTop : Int
  paddingBottom : Int

namespace Picture

def changed (changes : List PendingChange) (zone : Zone) : Zone :=
  match LinesLayout.changeOf changes zone.id with
  | some change => { zone with afterLineNumber := change.newAfterLineNumber, height := change.newHeight }
  | none => zone

def settle (changes : List PendingChange) (removes : List Nat) (zones : List Zone) : List Zone :=
  (zones.filter fun zone => zone.id ∉ removes).map (changed changes)

/-- All that is pending takes effect. -/
def commit (p : Picture) : Picture :=
  { p with zones := settle p.changes p.removes (p.zones ++ p.inserts), inserts := [], changes := [], removes := [] }

def insertWhitespace (p : Picture) (afterLineNumber height : Int) : Picture :=
  { p with
    lastId := p.lastId + 1
    inserts := p.inserts ++ [{ id := p.lastId + 1, afterLineNumber, height }] }

def changeOneWhitespace (p : Picture) (id : Nat) (newAfterLineNumber newHeight : Int) : Picture :=
  { p with changes := p.changes ++ [{ id, newAfterLineNumber, newHeight }] }

def removeWhitespace (p : Picture) (id : Nat) : Picture := { p with removes := p.removes ++ [id] }

def linesDeleted (p : Picture) (fromLineNumber toLineNumber : Int) : Picture :=
  { p.commit with
    lineCount := p.lineCount - (toLineNumber - fromLineNumber + 1)
    zones := p.commit.zones.map fun zone =>
      { zone with afterLineNumber := LinesLayout.afterDeletion fromLineNumber toLineNumber zone.afterLineNumber } }

def linesInserted (p : Picture) (fromLineNumber toLineNumber : Int) : Picture :=
  { p.commit with
    lineCount := p.lineCount + (toLineNumber - fromLineNumber + 1)
    zones := p.commit.zones.map fun zone =>
      { zone with afterLineNumber := LinesLayout.afterInsertion fromLineNumber toLineNumber zone.afterLineNumber } }

/-! ## Where the lines are -/

def top (p : Picture) (lineNumber : Int) : Int :=
  p.paddingTop + (lineNumber - 1) * p.lineHeight + heightAbove p.zones lineNumber

def bottom (p : Picture) (lineNumber : Int) : Int := p.top lineNumber + p.lineHeight

def height (p : Picture) : Int := p.lineHeight * p.lineCount + totalHeight p.zones + p.paddingTop + p.paddingBottom

/-- The first line whose bottom lies below an offset, the last line if there is none. -/
def IsLineAt (p : Picture) (verticalOffset lineNumber : Int) : Prop :=
  1 ≤ lineNumber ∧ lineNumber ≤ p.lineCount ∧ (∀ m, 1 ≤ m → m < lineNumber → p.bottom m ≤ verticalOffset) ∧
    (verticalOffset < p.bottom lineNumber ∨ lineNumber = p.lineCount)

end Picture

/-! ## Sums -/

theorem totalHeight_append (zones1 zones2 : List Zone) :
    totalHeight (zones1 ++ zones2) = totalHeight zones1 + totalHeight zones2 := by
  unfold totalHeight
  rw [map_append, sum_append]

theorem totalHeight_cons (zone : Zone) (zones : List Zone) :
    totalHeight (zone :: zones) = zone.height + totalHeight zones := by
  unfold totalHeight
  rw [map_cons, sum_cons]

theorem totalHeight_perm {zones1 zones2 : List Zone} (h : zones1.Perm zones2) :
    totalHeight zones1 = totalHeight zones2 := (h.map Zone.height).sum_eq

theorem heightAbove_perm {zones1 zones2 : List Zone} (h : zones1.Perm zones2) (lineNumber : Int) :
    heightAbove zones1 lineNumber = heightAbove zones2 lineNumber := totalHeight_perm (h.filter _)

theorem totalHeight_nonneg {zones : List Zone} (h : ∀ zone ∈ zones, 0 ≤ zone.height) : 0 ≤ totalHeight zones := by
  apply sum_nonneg
  intro height hheight
  obtain ⟨zone, hzone, rfl⟩ := mem_map.mp hheight
  exact h zone hzone

theorem heightAbove_nonneg {zones : List Zone} (h : ∀ zone ∈ zones, 0 ≤ zone.height) (lineNumber : Int) :
    0 ≤ heightAbove zones lineNumber := by
  apply totalHeight_nonneg
  intro zone hzone
  exact h zone (mem_of_mem_filter hzone)

theorem heightAbove_mono {zones : List Zone} (h : ∀ zone ∈ zones, 0 ≤ zone.height) {m n : Int} (hmn : m ≤ n) :
    heightAbove zones m ≤ heightAbove zones n := by
  unfold heightAbove
  induction zones with
  | nil => exact Int.le_refl _
  | cons zone zones ih =>
    have hzone := h zone mem_cons_self
    have ih := ih fun zone' hzone' => h zone' (mem_cons_of_mem _ hzone')
    simp only [filter_cons]
    by_cases hm : zone.afterLineNumber < m
    · have hn : zone.afterLineNumber < n := by omega
      simp only [hm, hn, decide_true, if_true, totalHeight_cons]
      omega
    · by_cases hn : zone.afterLineNumber < n
      · simp only [hm, hn, decide_true, decide_false, if_true, totalHeight_cons]
        simp only [Bool.false_eq_true, if_false]
        omega
      · simp only [hm, hn, decide_false, Bool.false_eq_true, if_false]
        exact ih

namespace Picture

variable {p : Picture}

theorem bottom_le_top (h : ∀ zone ∈ p.zones, 0 ≤ zone.height) (hheight : 0 ≤ p.lineHeight) {m n : Int} (hmn : m < n) :
    p.bottom m ≤ p.top n := by
  unfold bottom top
  have habove := heightAbove_mono h (by omega : m ≤ n)
  have hlines : (m - 1) * p.lineHeight + p.lineHeight ≤ (n - 1) * p.lineHeight := by
    have : (m - 1) * p.lineHeight + p.lineHeight = m * p.lineHeight := by
      rw [Int.sub_mul]
      omega
    rw [this]
    exact Int.mul_le_mul_of_nonneg_right (by omega) hheight
  omega

theorem bottom_mono (h : ∀ zone ∈ p.zones, 0 ≤ zone.height) (hheight : 0 ≤ p.lineHeight) {m n : Int} (hmn : m ≤ n) :
    p.bottom m ≤ p.bottom n := by
  rcases Int.lt_or_eq_of_le hmn with hlt | rfl
  · have := bottom_le_top h hheight hlt
    unfold bottom at *
    omega
  · exact Int.le_refl _

end Picture

end TongjiCode.ViewLayout
