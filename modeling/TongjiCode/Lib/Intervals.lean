import Mathlib

/-!
# Lists of intervals

A value of `α` stands for the integers from `lo` (inclusive) to `hi` (exclusive).  A list of intervals is separated when each one
ends before the next one starts, without touching it.

* `exists_touching`: an interval splits a separated list into what lies before it, what it touches, and what lies after it.
* `separated_splice`, `covered_splice`: joining the interval with what it touches keeps the list separated and covers exactly what
  was covered by the list or the interval.
-/

open List

namespace TongjiCode.Intervals

variable {α : Type} (lo hi : α → Int)

/-- The integer lies in an interval of the list. -/
def Covered (rs : List α) (n : Int) : Prop := ∃ r ∈ rs, lo r ≤ n ∧ n < hi r

instance (lo hi : α → Int) (rs : List α) (n : Int) : Decidable (Covered lo hi rs n) := by
  unfold Covered
  infer_instance

/-- Each interval ends before all later ones start. -/
def Separated (rs : List α) : Prop := rs.Pairwise fun a b => hi a < lo b

/-- No interval ends before it starts. -/
def Proper (rs : List α) : Prop := ∀ r ∈ rs, lo r ≤ hi r

/-- The start of an interval from `a` joined with the intervals it touches. -/
def joinLo (touching : List α) (a : Int) : Int := touching.head?.elim a fun first => min a (lo first)

/-- The end of an interval to `b` joined with the intervals it touches. -/
def joinHi (touching : List α) (b : Int) : Int := touching.getLast?.elim b fun last => max b (hi last)

variable {lo hi} {rs front touching back : List α} {a b n : Int}

theorem covered_nil : ¬ Covered lo hi [] n := by
  rintro ⟨r, hr, -⟩
  cases hr

theorem covered_cons {r : α} : Covered lo hi (r :: rs) n ↔ (lo r ≤ n ∧ n < hi r) ∨ Covered lo hi rs n := by
  simp [Covered]

theorem covered_append : Covered lo hi (front ++ back) n ↔ Covered lo hi front n ∨ Covered lo hi back n := by
  simp only [Covered, mem_append]
  constructor
  · rintro ⟨r, hr | hr, hn⟩
    · exact .inl ⟨r, hr, hn⟩
    · exact .inr ⟨r, hr, hn⟩
  · rintro (⟨r, hr, hn⟩ | ⟨r, hr, hn⟩)
    · exact ⟨r, .inl hr, hn⟩
    · exact ⟨r, .inr hr, hn⟩

theorem Separated.tail {r : α} (h : Separated lo hi (r :: rs)) : Separated lo hi rs := (pairwise_cons.mp h).2

theorem Separated.head_lt {r : α} (h : Separated lo hi (r :: rs)) : ∀ r' ∈ rs, hi r < lo r' := (pairwise_cons.mp h).1

/-- In a separated list, two intervals of which neither lies before the other are one. -/
theorem Separated.eq_of_not_lt (h : Separated lo hi rs) {r r' : α} (hr : r ∈ rs) (hr' : r' ∈ rs) (hle : lo r' ≤ hi r)
    (hle' : lo r ≤ hi r') : r = r' := by
  induction rs with
  | nil => cases hr
  | cons first rest ih =>
    rcases mem_cons.mp hr with hfirst | hr
    · rcases mem_cons.mp hr' with hfirst' | hr'
      · rw [hfirst, hfirst']
      · have := h.head_lt r' hr'
        rw [hfirst] at hle
        omega
    · rcases mem_cons.mp hr' with hfirst' | hr'
      · have := h.head_lt r hr
        rw [hfirst'] at hle'
        omega
      · exact ih h.tail hr hr'

theorem Separated.lo_le {r : α} (h : Separated lo hi (r :: rs)) (hr : lo r < hi r) (hn : Covered lo hi (r :: rs) n) : lo r ≤ n := by
  rcases covered_cons.mp hn with hn | ⟨r', hr', hle, -⟩
  · exact hn.1
  · have := h.head_lt r' hr'
    omega

theorem Separated.not_covered_hi {r : α} (h : Separated lo hi (r :: rs)) : ¬ Covered lo hi (r :: rs) (hi r) := by
  rintro ⟨r', hr', hle, hlt⟩
  rcases mem_cons.mp hr' with rfl | hr'
  · omega
  · have := h.head_lt r' hr'
    omega

/-- Separated lists of intervals that are not empty cover the same integers only if they are the same list. -/
theorem Separated.eq_of_covered (hext : ∀ r r', lo r = lo r' → hi r = hi r' → r = r') : ∀ {rs rs' : List α},
    Separated lo hi rs → Separated lo hi rs' → (∀ r ∈ rs, lo r < hi r) → (∀ r ∈ rs', lo r < hi r) →
    (∀ n, Covered lo hi rs n ↔ Covered lo hi rs' n) → rs = rs'
  | [], [], _, _, _, _, _ => rfl
  | [], r' :: _, _, _, _, hne', hsame =>
    absurd ((hsame (lo r')).mpr ⟨r', mem_cons_self, Int.le_refl _, hne' r' mem_cons_self⟩) covered_nil
  | r :: _, [], _, _, hne, _, hsame =>
    absurd ((hsame (lo r)).mp ⟨r, mem_cons_self, Int.le_refl _, hne r mem_cons_self⟩) covered_nil
  | r :: rest, r' :: rest', h, h', hne, hne', hsame => by
    have hr := hne r mem_cons_self
    have hr' := hne' r' mem_cons_self
    have hlo : lo r = lo r' := Int.le_antisymm
      (h.lo_le hr ((hsame _).mpr ⟨r', mem_cons_self, Int.le_refl _, hr'⟩))
      (h'.lo_le hr' ((hsame _).mp ⟨r, mem_cons_self, Int.le_refl _, hr⟩))
    -- the end of either first interval is not covered
    have hhi : hi r = hi r' := by
      have hout := mt (hsame (hi r)).mpr h.not_covered_hi
      have hout' := mt (hsame (hi r')).mp h'.not_covered_hi
      rw [covered_cons, not_or] at hout hout'
      omega
    obtain rfl := hext r r' hlo hhi
    refine congrArg _ (eq_of_covered hext h.tail h'.tail (fun x hx => hne x (mem_cons_of_mem _ hx))
      (fun x hx => hne' x (mem_cons_of_mem _ hx)) fun n => ?_)
    have hrest : Covered lo hi rest n → hi r < n := fun ⟨x, hx, hle, _⟩ => by have := h.head_lt x hx; omega
    have hrest' : Covered lo hi rest' n → hi r < n := fun ⟨x, hx, hle, _⟩ => by have := h'.head_lt x hx; omega
    have hall := hsame n
    rw [covered_cons, covered_cons] at hall
    constructor
    · intro hn
      exact (hall.mp (.inr hn)).resolve_left (by have := hrest hn; omega)
    · intro hn
      exact (hall.mpr (.inr hn)).resolve_left (by have := hrest' hn; omega)

/-! ## Splitting at an interval -/

theorem exists_touching (hsep : Separated lo hi rs) (hproper : Proper lo hi rs) :
    ∃ front touching back, rs = front ++ touching ++ back ∧ (∀ r ∈ front, hi r < a) ∧
      (∀ r ∈ touching, a ≤ hi r ∧ lo r ≤ b) ∧ ∀ r ∈ back, b < lo r := by
  induction rs with
  | nil => exact ⟨[], [], [], rfl, by simp, by simp, by simp⟩
  | cons r rest ih =>
    have hr := hproper r (mem_cons_self ..)
    obtain ⟨front, touching, back, hrest, hfront, htouching, hback⟩ :=
      ih hsep.tail fun r' hr' => hproper r' (mem_cons_of_mem _ hr')
    by_cases hbefore : hi r < a
    · refine ⟨r :: front, touching, back, by rw [hrest]; rfl, ?_, htouching, hback⟩
      intro r' hr'
      rcases mem_cons.mp hr' with rfl | hr'
      · exact hbefore
      · exact hfront r' hr'
    · -- what follows an interval that ends at or after `a` starts after `a`
      have hlater : ∀ r' ∈ rest, hi r < lo r' := hsep.head_lt
      have hempty : front = [] := by
        apply eq_nil_iff_forall_not_mem.mpr
        intro r' hr'
        have hmem : r' ∈ rest := by
          rw [hrest]
          exact mem_append_left _ (mem_append_left _ hr')
        have := hlater r' hmem
        have := hfront r' hr'
        have := hproper r' (mem_cons_of_mem _ hmem)
        omega
      subst hempty
      by_cases htouch : lo r ≤ b
      · refine ⟨[], r :: touching, back, by rw [hrest]; rfl, by simp, ?_, hback⟩
        intro r' hr'
        rcases mem_cons.mp hr' with rfl | hr'
        · exact ⟨by omega, htouch⟩
        · exact htouching r' hr'
      · refine ⟨[], [], r :: rest, rfl, by simp, by simp, ?_⟩
        intro r' hr'
        rcases mem_cons.mp hr' with rfl | hr'
        · omega
        · have := hlater r' hr'
          omega

/-! ## Joining an interval with what it touches -/

theorem joinLo_le (lo : α → Int) (touching : List α) (a : Int) : joinLo lo touching a ≤ a := by
  unfold joinLo
  cases touching.head? with
  | none => exact le_refl a
  | some first => exact min_le_left _ _

theorem le_joinHi (hi : α → Int) (touching : List α) (b : Int) : b ≤ joinHi hi touching b := by
  unfold joinHi
  cases touching.getLast? with
  | none => exact le_refl b
  | some last => exact le_max_left _ _

/-- The joined start is that of the interval or of one it touches. -/
theorem joinLo_eq (lo : α → Int) (touching : List α) (a : Int) : joinLo lo touching a = a ∨ ∃ m ∈ touching, joinLo lo touching a = lo m := by
  unfold joinLo
  cases hhead : touching.head? with
  | none => exact .inl rfl
  | some first =>
    rcases min_choice a (lo first) with h | h
    · exact .inl h
    · exact .inr ⟨first, mem_of_head? hhead, h⟩

theorem joinHi_eq (hi : α → Int) (touching : List α) (b : Int) : joinHi hi touching b = b ∨ ∃ m ∈ touching, joinHi hi touching b = hi m := by
  unfold joinHi
  cases hlast : touching.getLast? with
  | none => exact .inl rfl
  | some last =>
    rcases max_choice b (hi last) with h | h
    · exact .inl h
    · exact .inr ⟨last, mem_of_getLast? hlast, h⟩

section

variable (hsep : Separated lo hi touching) (hproper : Proper lo hi touching)
include hsep hproper

theorem joinLo_le_of_mem :
    ∀ m ∈ touching, joinLo lo touching a ≤ lo m := by
  intro m hm
  cases touching with
  | nil => cases hm
  | cons first rest =>
    have hle : joinLo lo (first :: rest) a ≤ lo first := min_le_right _ _
    rcases mem_cons.mp hm with rfl | hm
    · exact hle
    · have := hsep.head_lt m hm
      have := hproper first (mem_cons_self ..)
      omega

theorem le_joinHi_of_mem :
    ∀ m ∈ touching, hi m ≤ joinHi hi touching b := by
  intro m hm
  rcases eq_nil_or_concat' touching with rfl | ⟨init, last, rfl⟩
  · cases hm
  · have hle : hi last ≤ joinHi hi (init ++ [last]) b := by
      rw [joinHi, getLast?_concat]
      exact le_max_right _ _
    rcases mem_append.mp hm with hm | hm
    · have := (pairwise_append.mp hsep).2.2 m hm last (mem_singleton_self _)
      have := hproper last (by simp)
      omega
    · rw [mem_singleton] at hm
      subst hm
      exact hle

omit hsep hproper in
theorem separated_splice (hsep : Separated lo hi (front ++ touching ++ back)) (hfront : ∀ r ∈ front, hi r < a)
    (hback : ∀ r ∈ back, b < lo r) {x : α} (hlo : lo x = joinLo lo touching a) (hhi : hi x = joinHi hi touching b) :
    Separated lo hi (front ++ x :: back) := by
  obtain ⟨hfirst, hbackSep, hcross⟩ := pairwise_append.mp hsep
  obtain ⟨hfrontSep, -, hfrontTouching⟩ := pairwise_append.mp hfirst
  have hbefore : ∀ r ∈ front, hi r < lo x := by
    intro r hr
    rw [hlo]
    rcases joinLo_eq lo touching a with h | ⟨m, hm, h⟩
    · rw [h]
      exact hfront r hr
    · rw [h]
      exact hfrontTouching r hr m hm
  have hafter : ∀ r ∈ back, hi x < lo r := by
    intro r hr
    rw [hhi]
    rcases joinHi_eq hi touching b with h | ⟨m, hm, h⟩
    · rw [h]
      exact hback r hr
    · rw [h]
      exact hcross m (mem_append_right _ hm) r hr
  refine pairwise_append.mpr ⟨hfrontSep, pairwise_cons.mpr ⟨hafter, hbackSep⟩, ?_⟩
  intro r hr r' hr'
  rcases mem_cons.mp hr' with rfl | hr'
  · exact hbefore r hr
  · exact hcross r (mem_append_left _ hr) r' hr'

/-- The joined interval covers what the interval and the ones it touches cover. -/
theorem mem_join_iff (htouching : ∀ r ∈ touching, a ≤ hi r ∧ lo r ≤ b) :
    (joinLo lo touching a ≤ n ∧ n < joinHi hi touching b) ↔ Covered lo hi touching n ∨ (a ≤ n ∧ n < b) := by
  constructor
  · rintro ⟨hlo, hhi⟩
    by_cases hleft : a ≤ n
    · by_cases hright : n < b
      · exact .inr ⟨hleft, hright⟩
      · rcases joinHi_eq hi touching b with h | ⟨m, hm, h⟩
        · omega
        · have := (htouching m hm).2
          exact .inl ⟨m, hm, by omega, by omega⟩
    · rcases joinLo_eq lo touching a with h | ⟨m, hm, h⟩
      · omega
      · have := (htouching m hm).1
        exact .inl ⟨m, hm, by omega, by omega⟩
  · rintro (⟨m, hm, hlo, hhi⟩ | ⟨hlo, hhi⟩)
    · have := joinLo_le_of_mem (a := a) hsep hproper m hm
      have := le_joinHi_of_mem (b := b) hsep hproper m hm
      omega
    · have := joinLo_le lo touching a
      have := le_joinHi hi touching b
      omega

end

theorem covered_splice (hsep : Separated lo hi (front ++ touching ++ back)) (hproper : Proper lo hi (front ++ touching ++ back))
    (htouching : ∀ r ∈ touching, a ≤ hi r ∧ lo r ≤ b) {x : α} (hlo : lo x = joinLo lo touching a)
    (hhi : hi x = joinHi hi touching b) :
    Covered lo hi (front ++ x :: back) n ↔ Covered lo hi (front ++ touching ++ back) n ∨ (a ≤ n ∧ n < b) := by
  have hsepTouching : Separated lo hi touching := (pairwise_append.mp (pairwise_append.mp hsep).1).2.1
  have hproperTouching : Proper lo hi touching := fun r hr =>
    hproper r (mem_append_left _ (mem_append_right _ hr))
  rw [covered_append, covered_cons, hlo, hhi, mem_join_iff hsepTouching hproperTouching htouching, covered_append, covered_append]
  tauto

/-! ## Counting -/

variable (lo hi) in
/-- The covered integers. -/
noncomputable def points : List α → Finset Int
  | [] => ∅
  | r :: rs => Finset.Ico (lo r) (hi r) ∪ points rs

theorem mem_points : n ∈ points lo hi rs ↔ Covered lo hi rs n := by
  induction rs with
  | nil => simp [points, Covered]
  | cons r rest ih => rw [points, Finset.mem_union, Finset.mem_Ico, ih, covered_cons]

/-- Separated intervals share no integer, so that their lengths count the covered ones. -/
theorem sum_length_eq_card (hsep : Separated lo hi rs) (hproper : Proper lo hi rs) {s : Finset Int}
    (hs : ∀ n, n ∈ s ↔ Covered lo hi rs n) : (rs.map fun r => hi r - lo r).sum = s.card := by
  have heq : s = points lo hi rs := by
    ext n
    rw [hs, mem_points]
  subst heq
  clear hs
  induction rs with
  | nil => rfl
  | cons r rest ih =>
    have hr := hproper r (mem_cons_self ..)
    have hdisjoint : Disjoint (Finset.Ico (lo r) (hi r)) (points lo hi rest) := by
      rw [Finset.disjoint_left]
      intro n hn hn'
      obtain ⟨r', hr', hlo, -⟩ := mem_points.mp hn'
      have := hsep.head_lt r' hr'
      have := (Finset.mem_Ico.mp hn).2
      omega
    rw [map_cons, sum_cons, ih hsep.tail fun r' hr' => hproper r' (mem_cons_of_mem _ hr'), points,
      Finset.card_union_of_disjoint hdisjoint, Int.card_Ico]
    omega

end TongjiCode.Intervals
