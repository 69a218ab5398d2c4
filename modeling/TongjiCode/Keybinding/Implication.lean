import Mathlib.Data.List.Forall2
import TongjiCode.Keybinding.ContextKey

/-!
# What implies promises

Where `implies p q` is true, `q` holds in every context in which `p` does, unless an atom of `p` holds there and one of `q` does
not that `cmp` does not tell apart from it (`evaluate_of_implies_of_follow`).  There are such atoms: regular expressions are
compared without their flags, and values of different types can count as equal.
-/

open List

namespace TongjiCode.Keybinding.ContextKeyExpr

/-! ## Atoms -/

/-- Neither an `and` nor an `or`. -/
def isAtom : ContextKeyExpr → Bool
  | and _ => false
  | or _ => false
  | _ => true

mutual

/-- The expressions that an expression is made of with `and` and `or`. -/
def atoms : ContextKeyExpr → List ContextKeyExpr
  | and expr => atomsAll expr
  | or expr => atomsAll expr
  | p => [p]

def atomsAll : List ContextKeyExpr → List ContextKeyExpr
  | [] => []
  | e :: expr => atoms e ++ atomsAll expr

end

theorem atoms_of_isAtom {p : ContextKeyExpr} (h : p.isAtom = true) : p.atoms = [p] := by
  cases p <;> first | rfl | cases h

mutual

theorem isAtom_of_mem_atoms {p a : ContextKeyExpr} (h : a ∈ p.atoms) : a.isAtom = true := by
  cases p with
  | and expr => exact isAtom_of_mem_atomsAll h
  | or expr => exact isAtom_of_mem_atomsAll h
  | _ =>
    rw [mem_singleton.mp h]
    rfl

theorem isAtom_of_mem_atomsAll {expr : List ContextKeyExpr} {a : ContextKeyExpr} (h : a ∈ atomsAll expr) :
    a.isAtom = true := by
  cases expr with
  | nil => cases h
  | cons e expr =>
    rcases mem_append.mp h with h | h
    · exact isAtom_of_mem_atoms h
    · exact isAtom_of_mem_atomsAll h

end

variable {expr : List ContextKeyExpr}

theorem mem_atomsAll {e p : ContextKeyExpr} (he : e ∈ expr) (hp : p ∈ e.atoms) :
    p ∈ atomsAll expr := by
  induction expr with
  | nil => cases he
  | cons first expr ih =>
    rw [atomsAll, mem_append]
    rcases mem_cons.mp he with rfl | he
    · exact .inl hp
    · exact .inr (ih he)

/-- `cmp` tells the atoms apart. -/
def TellsApart (toNumber : JsString → Option Rat) (ps qs : List ContextKeyExpr) : Prop :=
  ∀ p ∈ ps, ∀ q ∈ qs, cmp toNumber p q = 0 → p = q

section

variable {toNumber : JsString → Option Rat} {p q : ContextKeyExpr}

/-! ## What compares as equal -/

/-- Only regular expressions can be equal without being the same. -/
theorem eq_of_isEqual (hatom : p.isAtom = true) (h : isEqual p q = true) :
    p = q ∨ ∃ key regexp regexp', regexpSource regexp = regexpSource regexp' ∧
      (p = .regex key regexp ∧ q = .regex key regexp' ∨ p = .notRegex key regexp ∧ q = .notRegex key regexp') := by
  cases p with
  | and expr => cases hatom
  | or expr => cases hatom
  | regex key regexp =>
    cases q <;> first | cases h | skip
    next key' regexp' =>
      obtain ⟨rfl, hsource⟩ : key = key' ∧ regexpSource regexp = regexpSource regexp' := by simpa [isEqual] using h
      exact .inr ⟨key, regexp, regexp', hsource, .inl ⟨rfl, rfl⟩⟩
  | notRegex key regexp =>
    cases q <;> first | cases h | skip
    next key' regexp' =>
      obtain ⟨rfl, hsource⟩ : key = key' ∧ regexpSource regexp = regexpSource regexp' := by simpa [isEqual] using h
      exact .inr ⟨key, regexp, regexp', hsource, .inr ⟨rfl, rfl⟩⟩
  | _ =>
    left
    cases q <;> first | rfl | cases h | simpa [isEqual, and_assoc] using h

theorem cmp1_self (key : JsString) : cmp1 key key = 0 := by
  simp [cmp1, List.lt_irrefl]

theorem less_self (value : Literal) : less toNumber value value = false := by
  cases value with
  | string s => simp [less, List.lt_irrefl]
  | number n => simp [less, numberOf]
  | null => simp [less, numberOf]
  | undefined => rfl

theorem cmp2_self (key : JsString) (value : Literal) : cmp2 toNumber key value key value = 0 := by
  simp [cmp2, List.lt_irrefl, less_self]

theorem cmp_self (hp : p.isAtom = true) : cmp toNumber p p = 0 := by
  cases p with
  | and expr => cases hp
  | or expr => cases hp
  | _ => simp [cmp, cmpRegex, List.lt_irrefl, cmp1_self, cmp2_self]

theorem cmp_of_isEqual (hp : p.isAtom = true) (h : isEqual p q = true) : cmp toNumber p q = 0 := by
  rcases eq_of_isEqual hp h with rfl | ⟨key, regexp, regexp', hsource, ⟨rfl, rfl⟩ | ⟨rfl, rfl⟩⟩
  · exact cmp_self hp
  · simp [cmp, cmpRegex, List.lt_irrefl, hsource, cmp1_self]
  · simp [cmp, cmpRegex, List.lt_irrefl, hsource, cmp1_self]

theorem type_eq_of_cmp (h : cmp toNumber p q = 0) : p.type = q.type := by
  cases p <;> cases q <;> first
    | rfl
    | (simp only [cmp] at h; omega)
    | skip
  next c key value c' key' value' =>
    by_cases hc : c = c'
    · rw [hc]
      cases c' <;> rfl
    · simp only [cmp, if_neg hc] at h
      omega

theorem isAtom_eq (p : ContextKeyExpr) : p.isAtom = (p.type != 6 && p.type != 9) := by
  cases p <;> first | rfl | skip
  next c key value => cases c <;> rfl

/-! ## What holds of the atoms holds of the expressions -/

/-- A relation that `and` and `or` keep. -/
structure Congruence (R : ContextKeyExpr → ContextKeyExpr → Prop) : Prop where
  and : ∀ {expr expr'}, List.Forall₂ R expr expr' → R (and expr) (and expr')
  or : ∀ {expr expr'}, List.Forall₂ R expr expr' → R (or expr) (or expr')

theorem Congruence.flip {R : ContextKeyExpr → ContextKeyExpr → Prop} (h : Congruence R) : Congruence fun p q => R q p :=
  ⟨fun hall => h.and hall.flip, fun hall => h.or hall.flip⟩

/-- The relation holds for two atoms only, or it holds part by part. -/
def PartByPart (S : ContextKeyExpr → ContextKeyExpr → Prop) (p q : ContextKeyExpr) : Prop :=
  (p.isAtom = true ∧ q.isAtom = true) ∨
    (∃ expr expr', p = .and expr ∧ q = .and expr' ∧ List.Forall₂ S expr expr') ∨
    ∃ expr expr', p = .or expr ∧ q = .or expr' ∧ List.Forall₂ S expr expr'

variable {expr' : List ContextKeyExpr}

theorem forall₂_imp_mem {S R : ContextKeyExpr → ContextKeyExpr → Prop} (h : List.Forall₂ S expr expr')
    (himp : ∀ e ∈ expr, ∀ e' ∈ expr', S e e' → R e e') : List.Forall₂ R expr expr' := by
  induction h with
  | nil => exact .nil
  | cons hone _ ih =>
    exact .cons (himp _ mem_cons_self _ mem_cons_self hone) (ih fun e he e' he' =>
      himp e (mem_cons_of_mem _ he) e' (mem_cons_of_mem _ he'))

theorem rel_of_partByPart {S R : ContextKeyExpr → ContextKeyExpr → Prop} (hS : ∀ p q, S p q → PartByPart S p q)
    (hR : Congruence R) (p q : ContextKeyExpr) (hatoms : ∀ a ∈ p.atoms, ∀ b ∈ q.atoms, S a b → R a b) (h : S p q) :
    R p q := by
  induction hsize : sizeOf p using Nat.strongRecOn generalizing p q with
  | ind n ih =>
    rcases hS p q h with ⟨hp, hq⟩ | ⟨expr, expr', rfl, rfl, hall⟩ | ⟨expr, expr', rfl, rfl, hall⟩
    · rw [atoms_of_isAtom hp, atoms_of_isAtom hq] at hatoms
      exact hatoms p mem_cons_self q mem_cons_self h
    · refine hR.and (forall₂_imp_mem hall fun e he e' he' hee' => ?_)
      have hless : sizeOf e < n := by
        have := sizeOf_lt_of_mem he
        rw [← hsize, ContextKeyExpr.and.sizeOf_spec]
        omega
      exact ih (sizeOf e) hless e e' (fun a ha b hb => hatoms a (mem_atomsAll he ha) b (mem_atomsAll he' hb)) hee' rfl
    · refine hR.or (forall₂_imp_mem hall fun e he e' he' hee' => ?_)
      have hless : sizeOf e < n := by
        have := sizeOf_lt_of_mem he
        rw [← hsize, ContextKeyExpr.or.sizeOf_spec]
        omega
      exact ih (sizeOf e) hless e e' (fun a ha b hb => hatoms a (mem_atomsAll he ha) b (mem_atomsAll he' hb)) hee' rfl

theorem forall₂_of_cmpAll (hlength : expr.length = expr'.length) (h : cmpAll toNumber expr expr' = 0) :
    List.Forall₂ (fun p q => cmp toNumber p q = 0) expr expr' := by
  induction expr generalizing expr' with
  | nil =>
    rw [length_eq_zero_iff.mp hlength.symm]
    exact .nil
  | cons e expr ih =>
    cases expr' with
    | nil => cases hlength
    | cons e' expr' =>
      rw [cmpAll] at h
      by_cases hfirst : cmp toNumber e e' = 0
      · rw [if_neg (by simpa using hfirst)] at h
        exact .cons hfirst (ih (Nat.succ.inj hlength) h)
      · rw [if_pos hfirst] at h
        exact absurd h hfirst

theorem partByPart_of_cmp (p q : ContextKeyExpr) (h : cmp toNumber p q = 0) :
    PartByPart (fun p q => cmp toNumber p q = 0) p q := by
  have htype := type_eq_of_cmp h
  by_cases hp : p.isAtom = true
  · have hq : q.isAtom = true := by rw [isAtom_eq, ← htype, ← isAtom_eq, hp]
    exact .inl ⟨hp, hq⟩
  cases p with
  | and expr =>
    cases q <;> first | cases htype | skip
    · next expr' =>
      rw [cmp] at h
      split at h
      · cases h
      · split at h
        · cases h
        · exact .inr (.inl ⟨expr, expr', rfl, rfl, forall₂_of_cmpAll (by omega) h⟩)
    · next c key value => cases c <;> cases htype
  | or expr =>
    cases q <;> first | cases htype | skip
    · next expr' =>
      rw [cmp] at h
      split at h
      · cases h
      · split at h
        · cases h
        · exact .inr (.inr ⟨expr, expr', rfl, rfl, forall₂_of_cmpAll (by omega) h⟩)
    · next c key value => cases c <;> cases htype
  | _ => exact absurd rfl hp

theorem forall₂_of_allEqual (hlength : expr.length = expr'.length) (h : allEqual expr expr' = true) :
    List.Forall₂ (fun p q => isEqual p q = true) expr expr' := by
  induction expr generalizing expr' with
  | nil =>
    rw [length_eq_zero_iff.mp hlength.symm]
    exact .nil
  | cons e expr ih =>
    cases expr' with
    | nil => cases hlength
    | cons e' expr' =>
      rw [allEqual, Bool.and_eq_true] at h
      exact .cons h.1 (ih (Nat.succ.inj hlength) h.2)

theorem partByPart_of_isEqual (p q : ContextKeyExpr) (h : isEqual p q = true) :
    PartByPart (fun p q => isEqual p q = true) p q := by
  cases p with
  | and expr =>
    cases q <;> first | cases h | skip
    next expr' =>
      rw [isEqual, Bool.and_eq_true, decide_eq_true_eq] at h
      exact .inr (.inl ⟨expr, expr', rfl, rfl, forall₂_of_allEqual h.1 h.2⟩)
  | or expr =>
    cases q <;> first | cases h | skip
    next expr' =>
      rw [isEqual, Bool.and_eq_true, decide_eq_true_eq] at h
      exact .inr (.inr ⟨expr, expr', rfl, rfl, forall₂_of_allEqual h.1 h.2⟩)
  | _ =>
    refine .inl ⟨rfl, ?_⟩
    cases q <;> first | rfl | cases h

/-! ## Implication -/

theorem exists_of_allElementsIncluded {p q : List ContextKeyExpr} (h : allElementsIncluded toNumber p q = true)
    {e : ContextKeyExpr} (he : e ∈ p) : ∃ f ∈ q, cmp toNumber e f = 0 := by
  induction p, q using allElementsIncluded.induct toNumber with
  | case1 q => cases he
  | case2 e' p => simp [allElementsIncluded] at h
  | case3 e' p f q hless => simp [allElementsIncluded, hless] at h
  | case4 e' p f q hless hsame ih =>
    rw [allElementsIncluded, if_neg hless, if_pos hsame] at h
    rcases mem_cons.mp he with rfl | he
    · exact ⟨f, mem_cons_self, hsame⟩
    · obtain ⟨f', hf', heq⟩ := ih h he
      exact ⟨f', mem_cons_of_mem _ hf', heq⟩
  | case5 e' p f q hless hsame ih =>
    rw [allElementsIncluded, if_neg hless, if_neg hsame] at h
    obtain ⟨f', hf', heq⟩ := ih h he
    exact ⟨f', mem_cons_of_mem _ hf', heq⟩

section Evaluate

variable {V : Type} {language : Language V} {context : JsString → V}

theorem evaluateAll_iff :
    evaluateAll language context expr = true ↔ ∀ e ∈ expr, evaluate language context e = true := by
  induction expr with
  | nil => simp [evaluateAll]
  | cons e expr ih => simp [evaluateAll, ih]

theorem evaluateAny_iff :
    evaluateAny language context expr = true ↔ ∃ e ∈ expr, evaluate language context e = true := by
  induction expr with
  | nil => simp [evaluateAny]
  | cons e expr ih => simp [evaluateAny, ih]

theorem congruence_follows :
    Congruence fun p q => evaluate language context p = true → evaluate language context q = true := by
  constructor
  · intro expr expr' h
    show evaluateAll language context expr = true → evaluateAll language context expr' = true
    induction h with
    | nil => exact id
    | cons hone _ ih =>
      rw [evaluateAll, evaluateAll, Bool.and_eq_true, Bool.and_eq_true]
      exact And.imp hone ih
  · intro expr expr' h
    show evaluateAny language context expr = true → evaluateAny language context expr' = true
    induction h with
    | nil => exact id
    | cons hone _ ih =>
      rw [evaluateAny, evaluateAny, Bool.or_eq_true, Bool.or_eq_true]
      exact Or.imp hone ih

def Tied (toNumber : JsString → Option Rat) (a b : ContextKeyExpr) : Prop := cmp toNumber a b = 0 ∨ cmp toNumber b a = 0

/-- With an atom of the first ones the atoms of the second ones hold that `cmp` does not tell apart from it. -/
def Follow (toNumber : JsString → Option Rat) (language : Language V) (context : JsString → V) (ps qs : List ContextKeyExpr) :
    Prop :=
  ∀ a ∈ ps, ∀ b ∈ qs, Tied toNumber a b → evaluate language context a = true → evaluate language context b = true

theorem Follow.evaluate (hfollow : Follow toNumber language context p.atoms q.atoms) (h : Tied toNumber p q) :
    ContextKeyExpr.evaluate language context p = true → ContextKeyExpr.evaluate language context q = true := by
  rcases h with h | h
  · exact rel_of_partByPart partByPart_of_cmp congruence_follows p q (fun a ha b hb hab => hfollow a ha b hb (.inl hab)) h
  · exact rel_of_partByPart partByPart_of_cmp congruence_follows.flip q p (fun b hb a ha hba => hfollow a ha b hb (.inr hba)) h

theorem evaluate_of_implies_of_follow (p q : ContextKeyExpr) (hfollow : Follow toNumber language context p.atoms q.atoms)
    (h : implies toNumber p q = true) (hp : evaluate language context p = true) : evaluate language context q = true := by
  induction p, q using implies.induct with
  | case1 q => cases hp
  | case2 p hp' => rfl
  | case3 expr1 expr2 =>
    rw [implies] at h
    obtain ⟨e, he, htrue⟩ := evaluateAny_iff.mp hp
    obtain ⟨f, hf, hcmp⟩ := exists_of_allElementsIncluded h he
    have hparts : Follow toNumber language context e.atoms f.atoms := fun a ha b hb =>
      hfollow a (mem_atomsAll he ha) b (mem_atomsAll hf hb)
    exact evaluateAny_iff.mpr ⟨f, hf, hparts.evaluate (.inl hcmp) htrue⟩
  | case4 q expr1 hq hq' =>
    rw [implies.eq_4 toNumber q expr1 hq hq'] at h
    cases h
  | case5 p expr2 hp' hp'' ih =>
    rw [implies.eq_5 toNumber p expr2 hp' hp''] at h
    obtain ⟨element, -, himplies⟩ := any_eq_true.mp h
    have htrue := ih element (fun a ha b hb => hfollow a ha b (mem_atomsAll element.2 hb)) himplies hp
    exact evaluateAny_iff.mpr ⟨element.1, element.2, htrue⟩
  | case6 expr1 expr2 =>
    rw [implies] at h
    refine evaluateAll_iff.mpr fun f hf => ?_
    obtain ⟨e, he, hcmp⟩ := exists_of_allElementsIncluded h hf
    have hparts : Follow toNumber language context e.atoms f.atoms := fun a ha b hb =>
      hfollow a (mem_atomsAll he ha) b (mem_atomsAll hf hb)
    exact hparts.evaluate (.inr hcmp) (evaluateAll_iff.mp hp e he)
  | case7 expr1 q hq hq' hq'' ih =>
    rw [implies.eq_7 toNumber q expr1 hq hq' hq''] at h
    obtain ⟨element, -, himplies⟩ := any_eq_true.mp h
    exact ih element (fun a ha b hb => hfollow a (mem_atomsAll element.2 ha) b hb) himplies
      (evaluateAll_iff.mp hp element.1 element.2)
  | case8 p q hfalse htrue hors hor hor' hands hand =>
    rw [implies.eq_8 toNumber p q hfalse hor hand htrue hor' hors hands] at h
    have hatom : p.isAtom = true := by
      cases p with
      | and expr => exact absurd rfl (hand expr)
      | or expr => exact absurd rfl (hor expr)
      | _ => rfl
    exact hfollow.evaluate (.inl (cmp_of_isEqual hatom h)) hp

/-- An expression holds in every context in which one holds that implies it, if `cmp` tells the atoms apart. -/
theorem evaluate_of_implies (p q : ContextKeyExpr) (htells : TellsApart toNumber p.atoms q.atoms)
    (htells' : TellsApart toNumber q.atoms p.atoms) (h : implies toNumber p q = true)
    (hp : evaluate language context p = true) : evaluate language context q = true := by
  refine evaluate_of_implies_of_follow p q (fun a ha b hb htied htrue => ?_) h hp
  rcases htied with hcmp | hcmp
  · rw [← htells a ha b hb hcmp]
    exact htrue
  · rw [htells' b hb a ha hcmp]
    exact htrue

/-- The context is one of a tie: an atom of `p` holds in it and one of `q` does not that `cmp` does not tell apart from it. -/
def InTie (toNumber : JsString → Option Rat) (language : Language V) (context : JsString → V) (p q : ContextKeyExpr) : Prop :=
  ∃ a ∈ p.atoms, ∃ b ∈ q.atoms, Tied toNumber a b ∧ evaluate language context a = true ∧ evaluate language context b = false

/-- Where `implies` is true it is right just if the contexts of a tie are no counterexamples. -/
theorem implies_sound_iff (toNumber : JsString → Option Rat) (language : Language V) (p q : ContextKeyExpr)
    (himplies : implies toNumber p q = true) :
    (∀ context, evaluate language context p = true → evaluate language context q = true) ↔
      ¬ ∃ context, InTie toNumber language context p q ∧ evaluate language context p = true ∧
        evaluate language context q = false := by
  constructor
  · rintro hsound ⟨context, -, hp, hq⟩
    rw [hsound context hp] at hq
    cases hq
  · intro hties context hp
    by_contra hq
    refine hq (evaluate_of_implies_of_follow p q (fun a ha b hb htied htrue => ?_) himplies hp)
    by_contra hb'
    exact hties ⟨context, ⟨a, ha, b, hb, htied, htrue, Bool.eq_false_iff.mpr hb'⟩, hp, Bool.eq_false_iff.mpr hq⟩

end Evaluate

end

/-! ## Two expressions that are not told apart -/

def toLowerCase (s : JsString) : JsString := s.map fun c => if 65 ≤ c ∧ c ≤ 90 then c + 32 else c

/-- Values that are strings of letters or one digit, for regular expressions that are letters. -/
def letters : Language JsString where
  truthy value := value != []
  looselyEquals value value' := value' == .string value
  includes _ _ := false
  parseFloat value := match value with
    | [c] => if 48 ≤ c ∧ c ≤ 57 then some (Rat.ofInt (c.toNat - 48)) else none
    | _ => none
  test regexp value :=
    if 105 ∈ regexp.flags then (toLowerCase value).tails.any (toLowerCase regexp.source).isPrefixOf
    else value.tails.any regexp.source.isPrefixOf

/-- `/b/` or `/b/i`. -/
def regexpB (ignoreCase : Bool) : Regexp where
  source := [98]
  flags := if ignoreCase then [105] else []
  stateless := by cases ignoreCase <;> decide

/-- `x && a =~ /b/i` implies `x || a =~ /b/`, and `x` decides where `a` is `B`: the two regular expressions are not told apart. -/
theorem implies_sound_iff_decided :
    let context : JsString → JsString := fun _ => [66]
    evaluate letters context (.regex [97] (some (regexpB true))) = true ∧
      evaluate letters context (.regex [97] (some (regexpB false))) = false ∧
      evaluate letters context (.or [.defined [120], .regex [97] (some (regexpB false))]) = true := by
  have hsound := (implies_sound_iff (fun _ => none) letters
    (.and [.defined [120], .regex [97] (some (regexpB true))]) (.or [.defined [120], .regex [97] (some (regexpB false))]) ?_).mpr ?_
  · exact ⟨by decide, by decide, hsound (fun _ => [66]) (by decide)⟩
  · simp [implies, isEqual, regexpSource, regexpB]
  · rintro ⟨context, -, hp, hq⟩
    simp only [evaluate, evaluateAll, evaluateAny, Bool.and_eq_true, Bool.or_eq_false_iff] at hp hq
    rw [hp.1] at hq
    cases hq.1

/-- `a =~ /b/i` implies `a =~ /b/`, and `x || a > 5` implies `x || a > c`. -/
theorem implies_not_sound :
    (implies (fun _ => none) (.regex [97] (some (regexpB true))) (.regex [97] (some (regexpB false))) = true ∧
      evaluate letters (fun _ => [66]) (.regex [97] (some (regexpB true))) = true ∧
      evaluate letters (fun _ => [66]) (.regex [97] (some (regexpB false))) = false) ∧
    implies (fun _ => none) (.or [.defined [120], .comparison .greater [97] (.number 5)])
        (.or [.defined [120], .comparison .greater [97] (.string [99])]) = true ∧
      evaluate letters (fun key => if key = [97] then [54] else [])
        (.or [.defined [120], .comparison .greater [97] (.number 5)]) = true ∧
      evaluate letters (fun key => if key = [97] then [54] else [])
        (.or [.defined [120], .comparison .greater [97] (.string [99])]) = false := by
  refine ⟨⟨?_, by decide, by decide⟩, ?_, by decide, by decide⟩
  · simp [implies, isEqual, regexpSource, regexpB]
  · rw [implies]
    decide

end TongjiCode.Keybinding.ContextKeyExpr
