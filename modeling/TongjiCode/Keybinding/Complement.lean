import Mathlib.Data.List.Sort
import TongjiCode.Keybinding.Negation

/-!
# When negation is complement

A comparison does not have the opposite value of its negation if what it compares is not a number, and regular expressions of one
source count as equal even if they do not match alike.  The negation of an expression has the opposite value where these terms do
not matter: where the expression has one value, whichever value they have (`negate_complement`).
-/

namespace TongjiCode.Keybinding

variable {key : JsString} {e : ContextKeyExpr}

namespace ContextKeyExpr

/-! ## The negation of a term -/

section Terms

variable {registry : Registry}

theorem constant_eq_create {p : ContextKeyExpr} {f : Bool → Bool} (hp : ∀ value, constant value ≠ p)
    (h : (match registry.constants key with | some constantValue => constant (f constantValue) | none => p) = p) :
    registry.constants key = none := by
  cases hconstant : registry.constants key with
  | none => rfl
  | some value =>
    rw [hconstant] at h
    exact absurd h (hp _)

theorem constant_ne {p : ContextKeyExpr} (hfalse : p ≠ falseExpr) (htrue : p ≠ trueExpr) (value : Bool) :
    constant value ≠ p := by
  cases value
  · exact hfalse.symm
  · exact htrue.symm

theorem createComparison_eq {c : Comparison} {value : Literal}
    (h : createComparison registry c key value = comparison c key value) (c' : Comparison) :
    createComparison registry c' key value = comparison c' key value := by
  unfold createComparison withFloatOrStr at h ⊢
  cases value with
  | number n => rfl
  | null => cases h
  | undefined => cases h
  | string s =>
    cases hparse : registry.parseFloat s with
    | none => simp [hparse]
    | some n => simp [hparse] at h

theorem negateTerm_negateTerm (hatom : e.isAtom = true) (h : create registry e = e) :
    negateTerm registry (negateTerm registry e) = e := by
  cases e with
  | defined key =>
    have hnone : registry.constants key = none :=
      constant_eq_create (f := id) (constant_ne (by simp) (by simp)) h
    simp [negateTerm, createNot, createDefined, hnone]
  | not key =>
    have hnone : registry.constants key = none := constant_eq_create (constant_ne (by simp) (by simp)) h
    simp [negateTerm, createNot, createDefined, hnone]
  | equals key value =>
    have hnone : registry.constants key = none :=
      constant_eq_create (f := fun b => decide (value = constantText b)) (constant_ne (by simp) (by simp)) h
    simp [negateTerm, createEquals, createNotEquals, hnone]
  | notEquals key value =>
    have hnone : registry.constants key = none :=
      constant_eq_create (f := fun b => !decide (value = constantText b)) (constant_ne (by simp) (by simp)) h
    simp [negateTerm, createEquals, createNotEquals, hnone]
  | comparison c key value =>
    have hcreate := fun c' => createComparison_eq h c'
    cases c <;> simp [negateTerm, hcreate]
  | and expr => cases hatom
  | or expr => cases hatom
  | _ => rfl

theorem negateTerm_constant (value : Bool) : negateTerm registry (constant value) = constant !value := by
  cases value <;> rfl

section Evaluate

variable {V : Type} (language : Language V) (context : JsString → V)

def ComparesNumbers : ContextKeyExpr → Prop
  | comparison _ key value => (∃ n, value = .number n) ∧ language.parseFloat (context key) ≠ none
  | _ => True

variable {language context}

theorem evaluateComparison_eq_false {c : Comparison} {value : Literal}
    (h : ¬ ComparesNumbers language context (comparison c key value)) (c' : Comparison) :
    evaluateComparison language context c' key value = false := by
  unfold evaluateComparison
  split
  · next n =>
    split
    · next x hparse =>
      refine absurd ⟨⟨n, rfl⟩, ?_⟩ h
      rw [hparse]
      exact Option.some_ne_none x
    · rfl
  · rfl

theorem evaluate_negateTerm_iff (hatom : e.isAtom = true) (h : create registry e = e) :
    evaluate language context (negateTerm registry e) = (!evaluate language context e) ↔
      ComparesNumbers language context e := by
  cases e with
  | comparison c key value =>
    have hcreate := fun c' => createComparison_eq h c'
    constructor
    · intro hopposite
      refine not_not.mp fun hnot => ?_
      have hfalse := evaluateComparison_eq_false hnot
      cases c <;> simp [negateTerm, hcreate, evaluate, hfalse] at hopposite
    · rintro ⟨⟨n, rfl⟩, hnumber⟩
      obtain ⟨x, hx⟩ := Option.ne_none_iff_exists'.mp hnumber
      rw [Bool.eq_iff_iff]
      cases c with
      | greater | smallerEquals =>
        simp only [negateTerm, hcreate, evaluate, evaluateComparison, hx, Bool.not_eq_true', decide_eq_true_eq,
          decide_eq_false_iff_not, Rat.not_lt, Rat.not_le]
      | greaterEquals | smaller =>
        simp only [negateTerm, hcreate, evaluate, evaluateComparison, hx, Bool.not_eq_true', decide_eq_true_eq,
          decide_eq_false_iff_not, Rat.not_lt, Rat.not_le]
  | defined key =>
    have hnone : registry.constants key = none :=
      constant_eq_create (f := id) (constant_ne (by simp) (by simp)) h
    simp [negateTerm, createNot, hnone, evaluate, ComparesNumbers]
  | not key =>
    have hnone : registry.constants key = none := constant_eq_create (constant_ne (by simp) (by simp)) h
    simp [negateTerm, createDefined, hnone, evaluate, ComparesNumbers]
  | equals key value =>
    have hnone : registry.constants key = none :=
      constant_eq_create (f := fun b => decide (value = constantText b)) (constant_ne (by simp) (by simp)) h
    simp [negateTerm, createNotEquals, hnone, evaluate, ComparesNumbers]
  | notEquals key value =>
    have hnone : registry.constants key = none :=
      constant_eq_create (f := fun b => !decide (value = constantText b)) (constant_ne (by simp) (by simp)) h
    simp [negateTerm, createEquals, hnone, evaluate, ComparesNumbers]
  | and expr => cases hatom
  | or expr => cases hatom
  | _ => simp [negateTerm, evaluate, ComparesNumbers]

end Evaluate

end Terms

end ContextKeyExpr

/-! ## Expressions made from terms -/

namespace Node

open ContextKeyExpr (Registry ComparesNumbers create evaluate evaluateRegex isEqual negateTerm regexpSource)

/-- The constants, the terms that are used and their negations. -/
inductive IsTerm (registry : Registry) (IsUsed : ContextKeyExpr → Prop) : ContextKeyExpr → Prop
  | constant (value : Bool) : IsTerm registry IsUsed (ContextKeyExpr.constant value)
  | used {e : ContextKeyExpr} (hatom : e.isAtom = true) (hused : IsUsed e) (hcreated : create registry e = e) :
    IsTerm registry IsUsed e
  | negated {e : ContextKeyExpr} (hatom : e.isAtom = true) (hused : IsUsed e) (hcreated : create registry e = e) :
    IsTerm registry IsUsed (negateTerm registry e)

/-- A regular expression is used, or its negation is. -/
def UsesRegex (IsUsed : ContextKeyExpr → Prop) (key : JsString) (regexp : Option Regexp) : Prop :=
  IsUsed (.regex key regexp) ∨ IsUsed (.notRegex key regexp)

section

variable {registry : Registry} {IsUsed : ContextKeyExpr → Prop}

theorem IsTerm.isAtom (h : IsTerm registry IsUsed e) : e.isAtom = true := by
  cases h with
  | constant value => exact ContextKeyExpr.constant_isAtom value
  | used hatom => exact hatom
  | negated hatom => exact ContextKeyExpr.negateTerm_isAtom registry hatom

/-- What makes a term of another kind makes no regular expression. -/
theorem usesRegex_of_isTerm (h : IsTerm registry IsUsed e) {regexp : Option Regexp}
    (he : e = .regex key regexp ∨ e = .notRegex key regexp) : UsesRegex IsUsed key regexp := by
  cases h with
  | constant value => cases value <;> simp [ContextKeyExpr.constant] at he
  | used hatom hused hcreated =>
    rcases he with rfl | rfl
    · exact .inl hused
    · exact .inr hused
  | @negated e hatom hused hcreated =>
    have hback := ContextKeyExpr.negateTerm_negateTerm hatom hcreated
    rcases he with he | he
    · rw [he] at hback
      rw [← hback] at hused
      exact .inr hused
    · rw [he] at hback
      rw [← hback] at hused
      exact .inl hused

section Evaluate

variable {V : Type} (language : Language V) (context : JsString → V) (IsUsed : ContextKeyExpr → Prop)

/-- Whether regular expressions match that count as equal: it is known if they match alike. -/
def matching (key : JsString) (regexp : Option Regexp) : Truth where
  lower := ∀ regexp', regexp' = regexp ∨ UsesRegex IsUsed key regexp' → regexpSource regexp' = regexpSource regexp →
    evaluateRegex language context key regexp' = true
  upper := ∃ regexp', (regexp' = regexp ∨ UsesRegex IsUsed key regexp') ∧ regexpSource regexp' = regexpSource regexp ∧
    evaluateRegex language context key regexp' = true
  upper_of_lower h := ⟨regexp, .inl rfl, rfl, h regexp (.inl rfl) rfl⟩

/-- The truth value of a term: a comparison is not known unless it compares numbers. -/
def reading : ContextKeyExpr → Truth
  | .regex key regexp => matching language context IsUsed key regexp
  | .notRegex key regexp => (matching language context IsUsed key regexp).not
  | .comparison c key value =>
    { lower := evaluate language context (.comparison c key value) = true
      upper := evaluate language context (.comparison c key value) = true ∨
        ¬ ComparesNumbers language context (.comparison c key value)
      upper_of_lower := .inl }
  | e => .known (evaluate language context e = true)

/-- The expression has one value, whichever value the terms have that are not known. -/
def Decided (e : Node) : Prop := (truth (reading language context IsUsed) e).Known

variable {language context}

theorem known_refines_reading {a : ContextKeyExpr} :
    (Truth.known (evaluate language context a = true)).Refines (reading language context IsUsed a) := by
  have hmatching : ∀ key regexp, (Truth.known (evaluateRegex language context key regexp = true)).Refines
      (matching language context IsUsed key regexp) := fun key regexp =>
    ⟨fun h => h regexp (.inl rfl) rfl, fun h => ⟨regexp, .inl rfl, rfl, h⟩⟩
  cases a with
  | regex key regexp => exact hmatching key regexp
  | notRegex key regexp =>
    rw [evaluate, Bool.not_eq_true', ← Bool.not_eq_true, ← Truth.not_known]
    exact (hmatching key regexp).not
  | comparison c key value => exact ⟨id, .inl⟩
  | _ => exact .refl _

theorem matching_alike {key : JsString} {regexp regexp' : Option Regexp} (h : UsesRegex IsUsed key regexp)
    (h' : UsesRegex IsUsed key regexp') (hsource : regexpSource regexp = regexpSource regexp') :
    matching language context IsUsed key regexp = matching language context IsUsed key regexp' := by
  have hsame : ∀ r, (r = regexp ∨ UsesRegex IsUsed key r) ↔ (r = regexp' ∨ UsesRegex IsUsed key r) := by
    intro r
    constructor
    · rintro (rfl | hr)
      · exact .inr h
      · exact .inr hr
    · rintro (rfl | hr)
      · exact .inr h'
      · exact .inr hr
  exact Truth.ext (by simp only [matching, hsame, hsource]) (by simp only [matching, hsame, hsource])

theorem reading_negateTerm {a : ContextKeyExpr} (hatom : a.isAtom = true) (h : create registry a = a) :
    reading language context IsUsed (negateTerm registry a) = (reading language context IsUsed a).not := by
  cases a with
  | comparison c key value =>
    have hcreate := fun c' => ContextKeyExpr.createComparison_eq h c'
    obtain ⟨c', hnegated⟩ : ∃ c', negateTerm registry (.comparison c key value) = .comparison c' key value := by
      cases c <;> exact ⟨_, hcreate _⟩
    rw [hnegated]
    by_cases hnumbers : ComparesNumbers language context (.comparison c key value)
    · have hopposite := (ContextKeyExpr.evaluate_negateTerm_iff hatom h).mpr hnumbers
      rw [hnegated] at hopposite
      have hnumbers' : ComparesNumbers language context (.comparison c' key value) := hnumbers
      exact Truth.ext (by simp [reading, Truth.not, hopposite, hnumbers]) (by simp [reading, Truth.not, hopposite, hnumbers'])
    · have hnumbers' : ¬ ComparesNumbers language context (.comparison c' key value) := hnumbers
      have hfalse := ContextKeyExpr.evaluateComparison_eq_false hnumbers
      exact Truth.ext (by simp [reading, Truth.not, evaluate, hfalse, hnumbers])
        (by simp [reading, Truth.not, evaluate, hfalse, hnumbers'])
  | defined key =>
    have hnone : registry.constants key = none :=
      ContextKeyExpr.constant_eq_create (f := id) (ContextKeyExpr.constant_ne (by simp) (by simp)) h
    simp [negateTerm, ContextKeyExpr.createNot, hnone, reading, evaluate, Truth.not_known]
  | not key =>
    have hnone : registry.constants key = none :=
      ContextKeyExpr.constant_eq_create (ContextKeyExpr.constant_ne (by simp) (by simp)) h
    simp [negateTerm, ContextKeyExpr.createDefined, hnone, reading, evaluate, Truth.not_known]
  | equals key value =>
    have hnone : registry.constants key = none :=
      ContextKeyExpr.constant_eq_create (f := fun b => decide (value = ContextKeyExpr.constantText b))
        (ContextKeyExpr.constant_ne (by simp) (by simp)) h
    simp [negateTerm, ContextKeyExpr.createNotEquals, hnone, reading, evaluate, Truth.not_known]
  | notEquals key value =>
    have hnone : registry.constants key = none :=
      ContextKeyExpr.constant_eq_create (f := fun b => !decide (value = ContextKeyExpr.constantText b))
        (ContextKeyExpr.constant_ne (by simp) (by simp)) h
    simp [negateTerm, ContextKeyExpr.createEquals, hnone, reading, evaluate, Truth.not_known]
  | regex key regexp => rfl
  | notRegex key regexp => exact Truth.not_not.symm
  | and expr => cases hatom
  | or expr => cases hatom
  | _ => simp [negateTerm, reading, evaluate, Truth.not_known]

/-- Negation has the opposite truth value, and what is equal has the same one. -/
theorem terms_isTerm : Terms (reading language context IsUsed) registry (IsTerm registry IsUsed) where
  constant value := .constant value
  known value := by cases value <;> rfl
  negated := by
    intro a ha
    cases ha with
    | constant value =>
      rw [ContextKeyExpr.negateTerm_constant]
      exact .constant _
    | used hatom hused hcreated => exact .negated hatom hused hcreated
    | negated hatom hused hcreated =>
      rw [ContextKeyExpr.negateTerm_negateTerm hatom hcreated]
      exact .used hatom hused hcreated
  opposite := by
    intro a ha
    cases ha with
    | constant value => cases value <;> simp [ContextKeyExpr.constant, negateTerm, reading, evaluate, Truth.not_known]
    | used hatom hused hcreated => exact reading_negateTerm IsUsed hatom hcreated
    | negated hatom hused hcreated =>
      rw [reading_negateTerm IsUsed hatom hcreated, Truth.not_not, ContextKeyExpr.negateTerm_negateTerm hatom hcreated]
  alike := by
    intro a b ha hb h
    rcases ContextKeyExpr.eq_of_isEqual ha.isAtom h with rfl | ⟨key, regexp, regexp', hsource, ⟨rfl, rfl⟩ | ⟨rfl, rfl⟩⟩
    · rfl
    · exact matching_alike IsUsed (usesRegex_of_isTerm ha (.inl rfl)) (usesRegex_of_isTerm hb (.inl rfl)) hsource
    · exact congrArg Truth.not
        (matching_alike IsUsed (usesRegex_of_isTerm ha (.inr rfl)) (usesRegex_of_isTerm hb (.inr rfl)) hsource)

variable {IsUsed}

theorem decided_of_negateTerm {a : ContextKeyExpr} (hatom : a.isAtom = true) (hcreated : create registry a = a)
    (h : evaluate language context (negateTerm registry a) = !evaluate language context a) :
    Decided language context (· = a) (term a hatom) := by
  have hnumbers := (ContextKeyExpr.evaluate_negateTerm_iff hatom hcreated).mp h
  have hsingle : ∀ key regexp, a = .regex key regexp ∨ a = .notRegex key regexp →
      (matching language context (· = a) key regexp).Known := by
    rintro key regexp ha ⟨r, hr, -, hmatches⟩ r' hr' -
    have honly : ∀ r, r = regexp ∨ UsesRegex (· = a) key r → r = regexp := by
      rintro r (hr | hr | hr)
      · exact hr
      · rcases ha with rfl | rfl <;> cases hr
        rfl
      · rcases ha with rfl | rfl <;> cases hr
        rfl
    rw [honly r' hr', ← honly r hr]
    exact hmatches
  unfold Decided
  rw [truth_term]
  cases a with
  | comparison c key value => exact fun hupper => hupper.resolve_right fun hnot => hnot hnumbers
  | regex key regexp => exact hsingle key regexp (.inl rfl)
  | notRegex key regexp => exact (hsingle key regexp (.inr rfl)).not
  | _ => exact Truth.known_known _

variable {sort : List Node → List Node} {e : Node}

theorem known_refines_truth (e : Node) :
    (Truth.known (evaluate language context e.expression = true)).Refines (truth (reading language context IsUsed) e) :=
  ContextKeyExpr.evaluate_refines e.expression fun _ _ => known_refines_reading IsUsed

section

variable (hsort : ∀ expr, (sort expr).Perm expr)
include hsort

theorem Made.good (h : Made registry sort IsUsed (Decided language context IsUsed) e) :
    Good (reading language context IsUsed) (IsTerm registry IsUsed) e := by
  have hterms := @terms_isTerm registry V language context IsUsed
  induction h with
  | true => exact (Good.constant hterms).1
  | false => exact (Good.constant hterms).2
  | @term e hatom hused hcreated => exact .term (.used hatom hused hcreated)
  | @and arr e fuel check _ h ih =>
    exact ((andCreate_means hterms hsort (sound_isNegation hterms hsort fuel) check fuel ih).1 e h).1
  | @or arr e fuel check _ h ih =>
    obtain ⟨hmeans, -⟩ := orCreate_means hterms hsort (sound_isNegation hterms hsort fuel) none check fun e he =>
      (ih e he).terminals
    exact (hmeans e h).2.2 fun _ hn => nomatch hn
  | negate fuel _ hdecided ih => exact (negateWith_negates hterms hsort (sound_isNegation hterms hsort fuel) fuel ih).good hdecided

/-- Where an expression is decided, so is its negation, which has the opposite value. -/
theorem Good.negate_evaluate (h : Good (reading language context IsUsed) (IsTerm registry IsUsed) e)
    (hdecided : Decided language context IsUsed e) (fuel : Nat) :
    Decided language context IsUsed (negate registry sort fuel e) ∧
      evaluate language context (negate registry sort fuel e).expression = !evaluate language context e.expression := by
  have hterms := @terms_isTerm registry V language context IsUsed
  have hnegates := negateWith_negates hterms hsort (sound_isNegation hterms hsort fuel) fuel h
  have htruth : truth (reading language context IsUsed) (negate registry sort fuel e) = _ :=
    hnegates.refines.eq_of_known hdecided.not
  have hdecided' : Decided language context IsUsed (negate registry sort fuel e) := by
    unfold Decided
    rw [htruth]
    exact hdecided.not
  refine ⟨hdecided', ?_⟩
  rw [← (known_refines_truth e).eq_of_known hdecided, ← (known_refines_truth _).eq_of_known hdecided', Truth.not_known] at htruth
  have hvalue := congrArg Truth.lower htruth
  rw [Bool.eq_iff_iff, Bool.not_eq_true', ← Bool.not_eq_true]
  exact iff_of_eq hvalue

end

end Evaluate

end

/-- `negate` gives the opposite value, and twice the same value, in a context where the expression is decided and so is every one
that was negated to make it.  A term that is used alone must be decided for that. -/
theorem negate_complement {V : Type} (registry : Registry) (sort : List Node → List Node)
    (hsort : ∀ expr, (sort expr).Perm expr) (language : Language V) (context : JsString → V) :
    (∀ IsUsed e, Made registry sort IsUsed (Decided language context IsUsed) e → Decided language context IsUsed e →
      ∀ fuel fuel',
        evaluate language context (negate registry sort fuel e).expression = (!evaluate language context e.expression) ∧
        evaluate language context (negate registry sort fuel' (negate registry sort fuel e)).expression =
          evaluate language context e.expression) ∧
    ∀ (a : ContextKeyExpr) (hatom : a.isAtom = true), create registry a = a → ∀ fuel,
      evaluate language context (negate registry sort fuel (term a hatom)).expression = (!evaluate language context a) →
        Decided language context (· = a) (term a hatom) := by
  refine ⟨fun IsUsed e hmade hdecided fuel fuel' => ?_, fun a hatom hcreated fuel h => ?_⟩
  · have hgood := hmade.good hsort
    obtain ⟨hdecided', hopposite⟩ := hgood.negate_evaluate hsort hdecided fuel
    have hgood' := (hmade.negate fuel hdecided).good hsort
    refine ⟨hopposite, ?_⟩
    rw [(hgood'.negate_evaluate hsort hdecided' fuel').2, hopposite, Bool.not_not]
  · exact decided_of_negateTerm hatom hcreated h

/-! ## A comparison with a value that is missing -/

/-- `expr.sort(cmp)`. -/
def sortByCmp (toNumber : JsString → Option Rat) (expr : List Node) : List Node :=
  expr.insertionSort fun e f => ContextKeyExpr.cmp toNumber e.expression f.expression ≤ 0

/-- No key is a constant, and no string is a number. -/
def noConstants : Registry := ⟨fun _ => none, fun _ => none⟩

open ContextKeyExpr (letters)

/-- `x && a < 5`, where `x` decides. -/
theorem negate_complement_masked :
    let e : Node := and [term (.defined [120]) rfl, term (.comparison .smaller [97] (.number 5)) rfl] none
    let negated := negate noConstants (sortByCmp fun _ => none) 1 e
    evaluate letters (fun _ => []) negated.expression = true ∧
      evaluate letters (fun _ => []) (negate noConstants (sortByCmp fun _ => none) 1 negated).expression = false := by
  intro e negated
  have hsort : ∀ expr, (sortByCmp (fun _ => none) expr).Perm expr := fun expr => List.perm_insertionSort _ expr
  have hcreate : andCreate (sortByCmp fun _ => none) (isNegation noConstants (sortByCmp fun _ => none) 1) true 1
      [some (term (.defined [120]) rfl), some (term (.comparison .smaller [97] (.number 5)) rfl)] none = some e := rfl
  have hmade : Made noConstants (sortByCmp fun _ => none) (fun _ => True) (Decided letters (fun _ => []) fun _ => True) e := by
    refine .and 1 true (fun f hf => ?_) hcreate
    rcases List.mem_cons.mp hf with hf | hf
    · cases hf
      exact .term trivial rfl
    · cases List.mem_singleton.mp hf
      exact .term trivial rfl
  have hdecided : Decided letters (fun _ => []) (fun _ => True) e := by
    rintro ⟨hx, -⟩
    cases hx
  exact (negate_complement noConstants _ hsort letters (fun _ => [])).1 _ e hmade hdecided 1 1

/-- `a < 5` and its negation `a >= 5` are both false where `a` is missing, while `a < 5 || a >= 5` is made to `true`. -/
theorem negate_not_complement :
    Made noConstants (sortByCmp fun _ => none) (· = .comparison .smaller [97] (.number 5)) (fun _ => True)
        (term (.comparison .smaller [97] (.number 5)) rfl) ∧
      evaluate letters (fun _ => []) (.comparison .smaller [97] (.number 5)) = false ∧
      evaluate letters (fun _ => [])
        (negate noConstants (sortByCmp fun _ => none) 1 (term (.comparison .smaller [97] (.number 5)) rfl)).expression = false ∧
      orCreate (sortByCmp fun _ => none) (isNegation noConstants (sortByCmp fun _ => none) 1)
        [some (term (.comparison .smaller [97] (.number 5)) rfl), some (negate noConstants (sortByCmp fun _ => none) 1
          (term (.comparison .smaller [97] (.number 5)) rfl))] none true = some trueNode := by
  exact ⟨.term rfl rfl, by decide, by decide, rfl⟩

end Node

end TongjiCode.Keybinding
