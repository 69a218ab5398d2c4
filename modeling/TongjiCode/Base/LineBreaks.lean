import TongjiCode.Base.JsString

/-!
# Line breaks

A line break is a match of `\r\n|\r|\n`.  Scanning from the left finds the same breaks as a local rule:
a break ends behind every `\n` and behind every `\r` that no `\n` follows (`endsLine`).  `lineEnds` and
`breaks` use the local rule, with the unit `nx` that follows the string; this makes them split at any
offset (`lineEnds_append`, `breaks_append`).
-/

namespace TongjiCode

namespace JsString

def carriageReturn : UInt16 := 13

def lineFeed : UInt16 := 10

/-- The number of leftmost matches of `\r\n|\r|\n`. -/
def eolCount : JsString → Nat
  | [] => 0
  | [c] => if c = carriageReturn ∨ c = lineFeed then 1 else 0
  | c :: d :: t =>
    if c = carriageReturn ∧ d = lineFeed then eolCount t + 1
    else if c = carriageReturn ∨ c = lineFeed then eolCount (d :: t) + 1
    else eolCount (d :: t)

@[simp] theorem eolCount_nil : eolCount [] = 0 := by
  rw [eolCount]

/-- `str.replace(/\r\n|\r|\n/g, eol)` -/
def replaceEol (eol : JsString) : JsString → JsString
  | [] => []
  | [c] => if c = carriageReturn ∨ c = lineFeed then eol else [c]
  | c :: d :: t =>
    if c = carriageReturn ∧ d = lineFeed then eol ++ replaceEol eol t
    else if c = carriageReturn ∨ c = lineFeed then eol ++ replaceEol eol (d :: t)
    else c :: replaceEol eol (d :: t)

/-- The loop of `createLineStartsFast`, from the index `i` on. -/
def createLineStartsLoop (i : Nat) : JsString → List Nat
  | [] => []
  | [c] => if c = carriageReturn ∨ c = lineFeed then [i + 1] else []
  | c :: d :: t =>
    if c = carriageReturn ∧ d = lineFeed then (i + 2) :: createLineStartsLoop (i + 2) t
    else if c = carriageReturn ∨ c = lineFeed then (i + 1) :: createLineStartsLoop (i + 1) (d :: t)
    else createLineStartsLoop (i + 1) (d :: t)

def createLineStartsFast (str : JsString) : List Nat := 0 :: createLineStartsLoop 0 str

/-! ## The local rule -/

/-- A line break ends between `c` and what follows it. -/
def endsLine (c : UInt16) (nx : Option UInt16) : Bool := c = lineFeed || (c = carriageReturn && nx ≠ some lineFeed)

/-- The ends of the line breaks of a string that starts at the index `i` and is followed by `nx`. -/
def lineEnds (i : Nat) (nx : Option UInt16) : JsString → List Nat
  | [] => []
  | c :: t => if endsLine c (t.head?.or nx) then (i + 1) :: lineEnds (i + 1) nx t else lineEnds (i + 1) nx t

def breaks (nx : Option UInt16) : JsString → Nat
  | [] => 0
  | c :: t => (if endsLine c (t.head?.or nx) then 1 else 0) + breaks nx t

attribute [local simp] lineEnds breaks

@[simp] theorem breaks_nil (nx : Option UInt16) : breaks nx [] = 0 := by
  rw [breaks]

theorem cr_ne_lf : carriageReturn ≠ lineFeed := by decide

theorem endsLine_of_ne {c : UInt16} (h : ¬ (c = carriageReturn ∨ c = lineFeed)) (nx : Option UInt16) :
    endsLine c nx = false := by
  rw [not_or] at h
  simp [endsLine, h.1, h.2]

theorem endsLine_of_eol {c : UInt16} {nx : Option UInt16} (h : c = carriageReturn ∨ c = lineFeed)
    (h' : ¬ (c = carriageReturn ∧ nx = some lineFeed)) : endsLine c nx = true := by
  rcases h with rfl | rfl
  · have hnx : nx ≠ some lineFeed := fun hnx => h' ⟨rfl, hnx⟩
    simp [endsLine, hnx]
  · simp [endsLine]

theorem endsLine_cr_lf : endsLine carriageReturn (some lineFeed) = false := by decide

theorem endsLine_lf (nx : Option UInt16) : endsLine lineFeed nx = true := by
  simp [endsLine]

theorem createLineStartsLoop_eq (str : JsString) : ∀ i, createLineStartsLoop i str = lineEnds i none str := by
  induction str using eolCount.induct with
  | case1 => intro i; rfl
  | case2 c h =>
    intro i
    have hend : endsLine c none = true := endsLine_of_eol h (by simp)
    simp [createLineStartsLoop, h, hend]
  | case3 c h =>
    intro i
    simp [createLineStartsLoop, h, endsLine_of_ne h]
  | case4 c d t h ih =>
    intro i
    obtain ⟨rfl, rfl⟩ := h
    simp [createLineStartsLoop, endsLine_cr_lf, endsLine_lf, ih]
  | case5 c d t h h' ih =>
    intro i
    have hend : endsLine c (some d) = true := endsLine_of_eol h' (by simpa using h)
    simp only [createLineStartsLoop, h, h', if_true, if_false, ih]
    simp [hend]
  | case6 c d t h h' ih =>
    intro i
    simp only [createLineStartsLoop, h, h', if_false, ih]
    simp [endsLine_of_ne h']

theorem eolCount_eq (str : JsString) : eolCount str = breaks none str := by
  induction str using eolCount.induct with
  | case1 => rfl
  | case2 c h =>
    have hend : endsLine c none = true := endsLine_of_eol h (by simp)
    simp [eolCount, h, hend]
  | case3 c h => simp [eolCount, h, endsLine_of_ne h]
  | case4 c d t h ih =>
    obtain ⟨rfl, rfl⟩ := h
    simp [eolCount, endsLine_cr_lf, endsLine_lf, ih]
    omega
  | case5 c d t h h' ih =>
    have hend : endsLine c (some d) = true := endsLine_of_eol h' (by simpa using h)
    simp only [eolCount, h, h', if_true, if_false, ih]
    simp [hend]
    omega
  | case6 c d t h h' ih =>
    simp only [eolCount, h, h', if_false, ih]
    simp [endsLine_of_ne h']

theorem eolCount_other {c : UInt16} (h : ¬ (c = carriageReturn ∨ c = lineFeed)) (t : JsString) :
    eolCount (c :: t) = eolCount t := by
  rw [eolCount_eq, eolCount_eq, breaks, endsLine_of_ne h, if_neg Bool.false_ne_true, Nat.zero_add]

theorem head?_append_or (a b : JsString) (nx : Option UInt16) : (a ++ b).head?.or nx = a.head?.or (b.head?.or nx) := by
  cases a <;> simp

theorem lineEnds_append (a b : JsString) (nx : Option UInt16) : ∀ i, lineEnds i nx (a ++ b) =
    lineEnds i (b.head?.or nx) a ++ lineEnds (i + a.length) nx b := by
  induction a with
  | nil => intro i; rfl
  | cons c a ih =>
    intro i
    rw [List.cons_append, lineEnds, lineEnds, head?_append_or, ih, List.length_cons,
      show i + 1 + a.length = i + (a.length + 1) by omega]
    split <;> rfl

theorem breaks_append (a b : JsString) (nx : Option UInt16) :
    breaks nx (a ++ b) = breaks (b.head?.or nx) a + breaks nx b := by
  induction a with
  | nil => simp
  | cons c a ih =>
    rw [List.cons_append, breaks, breaks, head?_append_or, ih]
    omega

section

variable (str : JsString) (nx : Option UInt16)
include str nx

theorem lineEnds_length : ∀ i, (lineEnds i nx str).length = breaks nx str := by
  induction str with
  | nil => intro i; rfl
  | cons c t ih =>
    intro i
    rw [lineEnds, breaks]
    split
    · rw [List.length_cons, ih]
      omega
    · rw [ih]
      omega

theorem lineEnds_add (j : Nat) : ∀ i,
    lineEnds (i + j) nx str = (lineEnds i nx str).map (· + j) := by
  induction str with
  | nil => intro i; rfl
  | cons c t ih =>
    intro i
    have := ih (i + 1)
    rw [lineEnds, lineEnds, show i + j + 1 = i + 1 + j by omega, this]
    split <;> rfl

theorem lineEnds_bounds : ∀ i, ∀ x ∈ lineEnds i nx str,
    i < x ∧ x ≤ i + str.length := by
  induction str with
  | nil => intro i x hx; cases hx
  | cons c t ih =>
    intro i x hx
    rw [lineEnds] at hx
    rw [List.length_cons]
    split at hx
    · rcases List.mem_cons.mp hx with rfl | hx
      · omega
      · have := ih (i + 1) x hx
        omega
    · have := ih (i + 1) x hx
      omega

theorem lineEnds_sorted : ∀ i, (lineEnds i nx str).Pairwise (· < ·) := by
  induction str with
  | nil => intro i; exact .nil
  | cons c t ih =>
    intro i
    rw [lineEnds]
    split
    · refine List.pairwise_cons.mpr ⟨?_, ih (i + 1)⟩
      intro x hx
      exact (lineEnds_bounds t nx (i + 1) x hx).1
    · exact ih (i + 1)

/-- Only a `\n` behind a final `\r` changes the number of line breaks of a string. -/
theorem breaks_none : breaks none str =
    breaks nx str + if str.getLast? = some carriageReturn ∧ nx = some lineFeed then 1 else 0 := by
  induction str with
  | nil => simp
  | cons c t ih =>
    rw [breaks, breaks, ih]
    cases t with
    | nil =>
      by_cases hcr : c = carriageReturn
      · subst hcr
        by_cases hnx : nx = some lineFeed
        · subst hnx
          decide
        · simp [endsLine, hnx]
      · simp [endsLine, hcr]
    | cons d t =>
      exact (Nat.add_assoc _ _ _).symm

end

end JsString

end TongjiCode
