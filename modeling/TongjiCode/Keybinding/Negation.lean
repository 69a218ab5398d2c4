import Mathlib.Data.List.ProdSigma
import TongjiCode.Keybinding.Factories
import TongjiCode.Lib.Truth

/-!
# Negation refines

Where a reading gives each term a truth value between bounds, and each negation of a term the opposite one, what `create` makes
refines what it is made from (`orCreate_means`, `andCreate_means`), and `negate` refines the opposite (`negateWith_means`).  It
refines only, because `create` folds `A || !A` to `true` also where `A` is not known.
-/

open List

namespace TongjiCode.Keybinding

namespace ContextKeyExpr

/-! ## Readings -/

section Truth

variable (reading : ContextKeyExpr → Truth)

mutual

/-- The truth value of an expression, where a reading gives those of its atoms. -/
def truth : ContextKeyExpr → Truth
  | and expr => truthAll expr
  | or expr => truthAny expr
  | a => reading a

def truthAll : List ContextKeyExpr → Truth
  | [] => .known True
  | e :: expr => (truth e).and (truthAll expr)

def truthAny : List ContextKeyExpr → Truth
  | [] => .known False
  | e :: expr => (truth e).or (truthAny expr)

end

variable {reading} {expr : List ContextKeyExpr}

theorem truth_of_isAtom {a : ContextKeyExpr} (h : a.isAtom = true) : truth reading a = reading a := by
  cases a <;> first | rfl | cases h

theorem truthAll_eq : truthAll reading expr = .all expr (truth reading) := by
  induction expr with
  | nil => exact Truth.all_nil.symm
  | cons e expr ih => rw [truthAll, ih, Truth.all_cons]

theorem truthAny_eq : truthAny reading expr = .any expr (truth reading) := by
  induction expr with
  | nil => exact Truth.any_nil.symm
  | cons e expr ih => rw [truthAny, ih, Truth.any_cons]

theorem congruence_truth : Congruence fun p q => truth reading p = truth reading q := by
  constructor
  · intro expr expr' h
    show truthAll reading expr = truthAll reading expr'
    induction h with
    | nil => rfl
    | cons hone _ ih => rw [truthAll, truthAll, hone, ih]
  · intro expr expr' h
    show truthAny reading expr = truthAny reading expr'
    induction h with
    | nil => rfl
    | cons hone _ ih => rw [truthAny, truthAny, hone, ih]

section Evaluate

variable {V : Type} {language : Language V} {context : JsString → V}

mutual

/-- The value lies between the bounds if that of each atom does. -/
theorem evaluate_refines (e : ContextKeyExpr)
    (h : ∀ a ∈ e.atoms, (Truth.known (evaluate language context a = true)).Refines (reading a)) :
    (Truth.known (evaluate language context e = true)).Refines (truth reading e) := by
  cases e with
  | and expr => exact evaluateAll_refines expr h
  | or expr => exact evaluateAny_refines expr h
  | _ => exact h _ mem_cons_self

theorem evaluateAll_refines (expr : List ContextKeyExpr)
    (h : ∀ a ∈ atomsAll expr, (Truth.known (evaluate language context a = true)).Refines (reading a)) :
    (Truth.known (evaluateAll language context expr = true)).Refines (truthAll reading expr) := by
  cases expr with
  | nil => exact ⟨fun _ => rfl, fun _ => trivial⟩
  | cons e expr =>
    rw [evaluateAll, Bool.and_eq_true, truthAll]
    exact (evaluate_refines e fun a ha => h a (mem_append_left _ ha)).and
      (evaluateAll_refines expr fun a ha => h a (mem_append_right _ ha))

theorem evaluateAny_refines (expr : List ContextKeyExpr)
    (h : ∀ a ∈ atomsAll expr, (Truth.known (evaluate language context a = true)).Refines (reading a)) :
    (Truth.known (evaluateAny language context expr = true)).Refines (truthAny reading expr) := by
  cases expr with
  | nil => exact ⟨False.elim, fun h => nomatch h⟩
  | cons e expr =>
    rw [evaluateAny, Bool.or_eq_true, truthAny]
    exact (evaluate_refines e fun a ha => h a (mem_append_left _ ha)).or
      (evaluateAny_refines expr fun a ha => h a (mem_append_right _ ha))

end

end Evaluate

end Truth

end ContextKeyExpr

namespace Node

open ContextKeyExpr (Registry isEqual negateTerm)

/-! ## Truth values of nodes -/

section Good

variable (reading : ContextKeyExpr → Truth)

def truth (e : Node) : Truth := ContextKeyExpr.truth reading e.expression

/-- The terms that occur, and what is asked of their truth values. -/
structure Terms (registry : Registry) (IsTerm : ContextKeyExpr → Prop) : Prop where
  constant (value : Bool) : IsTerm (ContextKeyExpr.constant value)
  known (value : Bool) : reading (ContextKeyExpr.constant value) = .known (value = true)
  negated {a : ContextKeyExpr} : IsTerm a → IsTerm (negateTerm registry a)
  opposite {a : ContextKeyExpr} : IsTerm a → reading (negateTerm registry a) = (reading a).not
  alike {a b : ContextKeyExpr} : IsTerm a → IsTerm b → isEqual a b = true → reading a = reading b

/-- Every part is good, and so is the negation that a node was made with, which has the opposite truth value. -/
inductive Good (IsTerm : ContextKeyExpr → Prop) : Node → Prop
  | term {e : ContextKeyExpr} {h : e.isAtom = true} (hterm : IsTerm e) : Good IsTerm (term e h)
  | and {expr : List Node} {negated : Option Node} (hne : expr ≠ []) (hexpr : ∀ e ∈ expr, Good IsTerm e)
      (hnegated : ∀ n, negated = some n → Good IsTerm n)
      (hopposite : ∀ n, negated = some n → truth reading n = (truth reading (and expr negated)).not) : Good IsTerm (and expr negated)
  | or {expr : List Node} {negated : Option Node} (hne : expr ≠ []) (hexpr : ∀ e ∈ expr, Good IsTerm e)
      (hnegated : ∀ n, negated = some n → Good IsTerm n)
      (hopposite : ∀ n, negated = some n → truth reading n = (truth reading (or expr negated)).not) : Good IsTerm (or expr negated)

/-- The parts of an `||` are good, or all of it: the negation that it was made with need not have the opposite truth value. -/
def GoodTerminals (IsTerm : ContextKeyExpr → Prop) (e : Node) : Prop :=
  getTerminals e ≠ [] ∧ ∀ t ∈ getTerminals e, Good reading IsTerm t

/-- If there is a result, it is good and refines this value. -/
def Means (IsTerm : ContextKeyExpr → Prop) (result : Option Node) (value : Truth) : Prop :=
  ∀ e, result = some e → Good reading IsTerm e ∧ (truth reading e).Refines value

end Good

section

variable {reading : ContextKeyExpr → Truth} {IsTerm : ContextKeyExpr → Prop} {registry : Registry}
variable {expr : List Node} {negated : Option Node} {e : Node}

theorem expressions_eq_map (expr : List Node) : expressions expr = expr.map expression := by
  induction expr with
  | nil => rfl
  | cons e expr ih => rw [expressions, ih, map_cons]

theorem truth_term {e : ContextKeyExpr} (h : e.isAtom = true) : truth reading (term e h) = reading e :=
  ContextKeyExpr.truth_of_isAtom h

theorem truth_and : truth reading (and expr negated) = .all expr (truth reading) := by
  unfold truth
  rw [expression, ContextKeyExpr.truth, ContextKeyExpr.truthAll_eq, expressions_eq_map, Truth.all_map]
  rfl

theorem truth_or : truth reading (or expr negated) = .any expr (truth reading) := by
  unfold truth
  rw [expression, ContextKeyExpr.truth, ContextKeyExpr.truthAny_eq, expressions_eq_map, Truth.any_map]
  rfl

theorem truth_eq_any_terminals (e : Node) : truth reading e = .any (getTerminals e) (truth reading) := by
  unfold getTerminals
  split
  · exact truth_or
  · exact (Truth.any_singleton _).symm

theorem Terms.truth_true (hterms : Terms reading registry IsTerm) : truth reading trueNode = .known True := by
  have hknown := hterms.known true
  rw [eq_self] at hknown
  exact hknown

theorem Terms.truth_false (hterms : Terms reading registry IsTerm) : truth reading falseNode = .known False := by
  have hknown := hterms.known false
  rw [eq_false Bool.false_ne_true] at hknown
  exact hknown

theorem Good.terminals (h : Good reading IsTerm e) : GoodTerminals reading IsTerm e := by
  unfold GoodTerminals
  cases h with
  | or hne hexpr => exact ⟨hne, hexpr⟩
  | term hterm => exact ⟨cons_ne_nil _ _, fun t ht => mem_singleton.mp ht ▸ .term hterm⟩
  | and hne hexpr hnegated hopposite =>
    exact ⟨cons_ne_nil _ _, fun t ht => mem_singleton.mp ht ▸ .and hne hexpr hnegated hopposite⟩

/-- All atoms are terms. -/
def TermsOnly (IsTerm : ContextKeyExpr → Prop) (e : Node) : Prop := ∀ a ∈ e.expression.atoms, IsTerm a

theorem termsOnly_of_parts (hexpr : ∀ e ∈ expr, TermsOnly IsTerm e) :
    ∀ a ∈ ContextKeyExpr.atomsAll (expressions expr), IsTerm a := by
  induction expr with
  | nil => exact fun _ ha => nomatch ha
  | cons e expr ih =>
    intro a ha
    rcases mem_append.mp ha with ha | ha
    · exact hexpr e mem_cons_self a ha
    · exact ih (fun e he => hexpr e (mem_cons_of_mem _ he)) a ha

theorem Good.termsOnly (h : Good reading IsTerm e) : TermsOnly IsTerm e := by
  induction h with
  | @term e h hterm =>
    intro a ha
    rw [expression, ContextKeyExpr.atoms_of_isAtom h] at ha
    rw [mem_singleton.mp ha]
    exact hterm
  | and _ _ _ _ ih => exact termsOnly_of_parts ih
  | or _ _ _ _ ih => exact termsOnly_of_parts ih

theorem GoodTerminals.termsOnly (h : GoodTerminals reading IsTerm e) : TermsOnly IsTerm e := by
  cases e with
  | or expr negated => exact termsOnly_of_parts fun e he => (h.2 e he).termsOnly
  | term e hatom => exact (h.2 _ mem_cons_self).termsOnly
  | and expr negated => exact (h.2 _ mem_cons_self).termsOnly

section

variable (hterms : Terms reading registry IsTerm)
include hterms

theorem Good.constant : Good reading IsTerm trueNode ∧ Good reading IsTerm falseNode :=
  ⟨.term (hterms.constant true), .term (hterms.constant false)⟩

theorem TermsOnly.truth_eq {f : Node} (he : TermsOnly IsTerm e) (hf : TermsOnly IsTerm f)
    (h : isEqual e.expression f.expression = true) : truth reading e = truth reading f := by
  refine ContextKeyExpr.rel_of_partByPart ContextKeyExpr.partByPart_of_isEqual ContextKeyExpr.congruence_truth _ _ ?_ h
  intro a ha b hb hequal
  rw [ContextKeyExpr.truth_of_isAtom (ContextKeyExpr.isAtom_of_mem_atoms ha),
    ContextKeyExpr.truth_of_isAtom (ContextKeyExpr.isAtom_of_mem_atoms hb)]
  exact hterms.alike (he a ha) (hf b hb) hequal

end

/-! ## Sorting and eliminating duplicates -/

/-- Each part has the truth value of one that is left. -/
structure Reduces (reading : ContextKeyExpr → Truth) (expr expr' : List Node) : Prop where
  subset : ∀ e ∈ expr', e ∈ expr
  covers : ∀ e ∈ expr, ∃ f ∈ expr', truth reading f = truth reading e

variable {expr' : List Node}

theorem Reduces.of_perm (h : expr'.Perm expr) : Reduces reading expr expr' where
  subset _ he := h.mem_iff.mp he
  covers e he := ⟨e, h.mem_iff.mpr he, rfl⟩

theorem Reduces.trans {expr1 expr2 expr3 : List Node} (h : Reduces reading expr1 expr2) (h' : Reduces reading expr2 expr3) :
    Reduces reading expr1 expr3 where
  subset e he := h.subset e (h'.subset e he)
  covers e he := by
    obtain ⟨f, hf, hvalue⟩ := h.covers e he
    obtain ⟨g, hg, hvalue'⟩ := h'.covers f hf
    exact ⟨g, hg, hvalue'.trans hvalue⟩

section

variable (h : Reduces reading expr expr')
include h

theorem Reduces.refined : (∀ e ∈ expr, ∃ f ∈ expr', (truth reading f).Refines (truth reading e)) ∧
    ∀ f ∈ expr', ∃ e ∈ expr, (truth reading f).Refines (truth reading e) := by
  refine ⟨fun e he => ?_, fun f hf => ⟨f, h.subset f hf, .refl _⟩⟩
  obtain ⟨f, hf, hvalue⟩ := h.covers e he
  exact ⟨f, hf, hvalue ▸ .refl _⟩

theorem Reduces.any_refines : (Truth.any expr' (truth reading)).Refines (.any expr (truth reading)) :=
  Truth.any_refines h.refined.1 h.refined.2

theorem Reduces.all_refines : (Truth.all expr' (truth reading)).Refines (.all expr (truth reading)) :=
  Truth.all_refines h.refined.1 h.refined.2

theorem Reduces.ne_nil (hne : expr ≠ []) : expr' ≠ [] := by
  rintro rfl
  obtain ⟨e, he⟩ := exists_mem_of_ne_nil expr hne
  obtain ⟨f, hf, -⟩ := h.covers e he
  cases hf

end

section

variable (hterms : Terms reading registry IsTerm)
include hterms

theorem eliminateAfter_covers {previous : Node} (hprevious : Good reading IsTerm previous)
    (hexpr : ∀ e ∈ expr, Good reading IsTerm e) :
    (∀ e ∈ eliminateAfter previous expr, e ∈ expr) ∧
      ∀ e ∈ expr, ∃ f ∈ previous :: eliminateAfter previous expr, truth reading f = truth reading e := by
  induction expr generalizing previous with
  | nil => exact ⟨fun _ he => he, fun _ he => nomatch he⟩
  | cons e expr ih =>
    have he := hexpr e mem_cons_self
    have hrest := fun e he => hexpr e (mem_cons_of_mem _ he)
    rw [eliminateAfter]
    by_cases hequal : isEqual previous.expression e.expression = true
    · rw [if_pos hequal]
      obtain ⟨hsubset, hcovers⟩ := ih hprevious hrest
      refine ⟨fun f hf => mem_cons_of_mem _ (hsubset f hf), fun f hf => ?_⟩
      rcases mem_cons.mp hf with rfl | hf
      · exact ⟨previous, mem_cons_self, hprevious.termsOnly.truth_eq hterms he.termsOnly hequal⟩
      · exact hcovers f hf
    · rw [if_neg hequal]
      obtain ⟨hsubset, hcovers⟩ := ih he hrest
      refine ⟨fun f hf => ?_, fun f hf => ?_⟩
      · rcases mem_cons.mp hf with rfl | hf
        · exact mem_cons_self
        · exact mem_cons_of_mem _ (hsubset f hf)
      · rcases mem_cons.mp hf with rfl | hf
        · exact ⟨f, mem_cons_of_mem _ mem_cons_self, rfl⟩
        · obtain ⟨g, hg, hvalue⟩ := hcovers f hf
          exact ⟨g, mem_cons_of_mem _ hg, hvalue⟩

theorem reduces_eliminateDuplicates (hexpr : ∀ e ∈ expr, Good reading IsTerm e) :
    Reduces reading expr (eliminateDuplicates expr) := by
  cases expr with
  | nil => exact ⟨fun _ he => he, fun _ he => nomatch he⟩
  | cons e expr =>
    obtain ⟨hsubset, hcovers⟩ := eliminateAfter_covers hterms (hexpr e mem_cons_self) fun e he =>
      hexpr e (mem_cons_of_mem _ he)
    refine ⟨fun f hf => ?_, fun f hf => ?_⟩
    · rcases mem_cons.mp hf with rfl | hf
      · exact mem_cons_self
      · exact mem_cons_of_mem _ (hsubset f hf)
    · rcases mem_cons.mp hf with rfl | hf
      · exact ⟨f, mem_cons_self, rfl⟩
      · exact hcovers f hf

theorem reduces_sorted {sorted : List Node} (hexpr : ∀ e ∈ expr, Good reading IsTerm e) (hperm : sorted.Perm expr) :
    Reduces reading expr (eliminateDuplicates sorted) ∧ ∀ e ∈ eliminateDuplicates sorted, Good reading IsTerm e := by
  have hreduces := (Reduces.of_perm hperm).trans
    (reduces_eliminateDuplicates hterms fun e he => hexpr e (hperm.mem_iff.mp he))
  exact ⟨hreduces, fun e he => hexpr e (hreduces.subset e he)⟩

end

/-! ## Parts that cancel -/

def Sound (reading : ContextKeyExpr → Truth) (IsTerm : ContextKeyExpr → Prop) (isNegation : Node → Node → Bool) : Prop :=
  ∀ e f, Good reading IsTerm e → Good reading IsTerm f → isNegation e f = true →
    (truth reading f).Refines (truth reading e).not

theorem Sound.cancels {isNegation : Node → Node → Bool} (hsound : Sound reading IsTerm isNegation)
    (hexpr : ∀ e ∈ expr, Good reading IsTerm e) (h : cancels isNegation expr = true) :
    ∃ e ∈ expr, ∃ f ∈ expr, (truth reading f).Refines (truth reading e).not := by
  induction expr with
  | nil => cases h
  | cons e expr ih =>
    rw [Node.cancels, Bool.or_eq_true] at h
    rcases h with h | h
    · obtain ⟨f, hf, hnegation⟩ := any_eq_true.mp h
      exact ⟨e, mem_cons_self, f, mem_cons_of_mem _ hf,
        hsound e f (hexpr e mem_cons_self) (hexpr f (mem_cons_of_mem _ hf)) hnegation⟩
    · obtain ⟨f, hf, g, hg, hvalue⟩ := ih (fun e he => hexpr e (mem_cons_of_mem _ he)) h
      exact ⟨f, mem_cons_of_mem _ hf, g, mem_cons_of_mem _ hg, hvalue⟩

/-! ## `create` -/

section Create

variable {sort : List Node → List Node} {isNegation : Node → Node → Bool}

section Collect

/-- What the role of an expression in an `||` says about its value; in an `&&` the value is that of the negation. -/
def Role.Fits (reading : ContextKeyExpr → Truth) (IsTerm : ContextKeyExpr → Prop) (value : Node → Truth) (e : Node) : Role → Prop
  | .skipped => value e = .known False
  | .decides => value e = .known True
  | .flattened expr => expr ≠ [] ∧ (∀ p ∈ expr, Good reading IsTerm p) ∧ Truth.any expr value = value e
  | .kept => Good reading IsTerm e

/-- What the first loop collects. -/
def Collects (reading : ContextKeyExpr → Truth) (IsTerm : ContextKeyExpr → Prop) (value : Node → Truth)
    (arr : List (Option Node)) : Option (List Node × Bool) → Prop
  | none => ∃ e ∈ arr.reduceOption, value e = .known True
  | some (expr, flag) => (∀ e ∈ expr, Good reading IsTerm e) ∧ Truth.any expr value = .any arr.reduceOption value ∧
      (expr = [] → flag = false → arr.reduceOption = [])

variable {value : Node → Truth} {arr : List (Option Node)}

theorem Collects.cons {result : Option (List Node × Bool)} (h : Collects reading IsTerm value arr result)
    {parts : List Node} (hparts : ∀ p ∈ parts, Good reading IsTerm p) (hvalue : Truth.any parts value = value e)
    (flag : Bool → Bool) (hne : parts ≠ [] ∨ ∀ b, flag b = true) :
    Collects reading IsTerm value (some e :: arr)
      (result.map fun collected => (parts ++ collected.1, flag collected.2)) := by
  have hreduce : (some e :: arr).reduceOption = e :: arr.reduceOption := reduceOption_cons_of_some e arr
  cases result with
  | none =>
    obtain ⟨f, hf, htrue⟩ := h
    exact ⟨f, hreduce ▸ mem_cons_of_mem _ hf, htrue⟩
  | some collected =>
    obtain ⟨hgood, hany, -⟩ := h
    refine ⟨fun p hp => (mem_append.mp hp).elim (hparts p) (hgood p), ?_, fun hnil hfalse => ?_⟩
    · rw [hreduce, Truth.any_append, Truth.any_cons, hvalue, hany]
    · rcases hne with hne | hflag
      · exact absurd (append_eq_nil_iff.mp hnil).1 hne
      · rw [hflag] at hfalse
        cases hfalse

theorem collects_collect {role : Node → Role} (harr : ∀ e, some e ∈ arr → (role e).Fits reading IsTerm value e) :
    Collects reading IsTerm value arr (collect role arr) := by
  induction arr with
  | nil =>
    exact ⟨fun _ he => absurd he not_mem_nil, rfl, fun _ _ => rfl⟩
  | cons first arr ih =>
    have ih := ih fun e he => harr e (mem_cons_of_mem _ he)
    cases first with
    | none => exact ih
    | some e =>
      have hfits := harr e mem_cons_self
      rw [collect]
      split
      · next hrole =>
        rw [hrole] at hfits
        have hnone : Truth.any [] value = value e := Truth.any_nil.trans hfits.symm
        exact ih.cons (fun _ hp => absurd hp not_mem_nil) hnone (fun _ => true) (.inr fun _ => rfl)
      · next hrole =>
        rw [hrole] at hfits
        exact ⟨e, mem_cons_self, hfits⟩
      · next expr hrole =>
        rw [hrole] at hfits
        obtain ⟨hne, hexpr, hvalue⟩ := hfits
        exact ih.cons hexpr hvalue id (.inl hne)
      · next hrole =>
        rw [hrole] at hfits
        have hparts : ∀ p ∈ [e], Good reading IsTerm p := fun p hp => mem_singleton.mp hp ▸ hfits
        exact ih.cons hparts (Truth.any_singleton e) id (.inl (cons_ne_nil e []))

variable (hterms : Terms reading registry IsTerm)
include hterms

theorem fits_roleInOr (he : GoodTerminals reading IsTerm e) : (roleInOr e).Fits reading IsTerm (truth reading) e := by
  unfold roleInOr
  split
  · exact hterms.truth_false
  · exact hterms.truth_true
  · exact ⟨he.1, he.2, truth_or.symm⟩
  · next _ hor =>
    refine he.2 e ?_
    unfold getTerminals
    split
    · exact absurd rfl (hor _ _)
    · exact mem_cons_self

theorem fits_roleInAnd (he : Good reading IsTerm e) :
    (roleInAnd e).Fits reading IsTerm (fun e => (truth reading e).not) e := by
  unfold roleInAnd
  split
  · show (truth reading trueNode).not = _
    rw [hterms.truth_true, Truth.not_known, not_true]
  · show (truth reading falseNode).not = _
    rw [hterms.truth_false, Truth.not_known, not_false_eq_true]
  · next expr negated =>
    cases he with
    | and hne hexpr =>
      refine ⟨hne, hexpr, ?_⟩
      show _ = (truth reading (and expr negated)).not
      rw [truth_and, Truth.not_all]
  · exact he

end Collect

variable {arr : List (Option Node)}

theorem orCreate_means (hterms : Terms reading registry IsTerm) (hsort : ∀ expr, (sort expr).Perm expr)
    (hsound : Sound reading IsTerm isNegation) (negated : Option Node) (check : Bool)
    (harr : ∀ e, some e ∈ arr → GoodTerminals reading IsTerm e) :
    (∀ e, orCreate sort isNegation arr negated check = some e → GoodTerminals reading IsTerm e ∧
      (truth reading e).Refines (.any arr.reduceOption (truth reading)) ∧
      ((∀ n, negated = some n → Good reading IsTerm n ∧ truth reading n = (truth reading e).not) → Good reading IsTerm e)) ∧
    (arr.reduceOption ≠ [] → orCreate sort isNegation arr negated check ≠ none) := by
  have hspec : Collects reading IsTerm (truth reading) arr (collectOr arr) :=
    collects_collect fun e he => fits_roleInOr hterms (harr e he)
  obtain ⟨htrue, hfalse⟩ := Good.constant hterms
  unfold orCreate
  split
  · next hnone =>
    rw [hnone] at hspec
    obtain ⟨f, hf, hvalue⟩ := hspec
    refine ⟨fun e he => ?_, fun _ h => nomatch h⟩
    cases he
    refine ⟨htrue.terminals, ?_, fun _ => htrue⟩
    rw [hterms.truth_true]
    refine ⟨fun _ => trivial, fun _ => ⟨f, hf, ?_⟩⟩
    rw [hvalue]
    trivial
  · next hasFalse hempty =>
    rw [hempty] at hspec
    obtain ⟨-, hvalue, hnone⟩ := hspec
    split
    · refine ⟨fun e he => ?_, fun _ h => nomatch h⟩
      cases he
      refine ⟨hfalse.terminals, ?_, fun _ => hfalse⟩
      rw [hterms.truth_false, ← hvalue, Truth.any_nil]
      exact .refl _
    · next hflag => exact ⟨fun e he => (nomatch he), fun hne => absurd (hnone rfl (by simpa using hflag)) hne⟩
  · next expr hasFalse hne hsome =>
    rw [hsome] at hspec
    obtain ⟨hexpr, hvalue, -⟩ := hspec
    obtain ⟨hreduces, hleft⟩ := reduces_sorted hterms hexpr (hsort expr)
    have hrefines := hreduces.any_refines
    rw [hvalue] at hrefines
    have hne' := hreduces.ne_nil hne
    split
    · next e hone =>
      rw [hone] at hleft hrefines
      refine ⟨fun e' he' => ?_, fun _ h => nomatch h⟩
      cases he'
      rw [Truth.any_singleton] at hrefines
      have he := hleft e mem_cons_self
      exact ⟨he.terminals, hrefines, fun _ => he⟩
    · split
      · next hcheck =>
        rw [Bool.and_eq_true] at hcheck
        obtain ⟨e, he, f, hf, hopposite⟩ := hsound.cancels hleft hcheck.2
        refine ⟨fun e' he' => ?_, fun _ h => nomatch h⟩
        cases he'
        refine ⟨htrue.terminals, ?_, fun _ => htrue⟩
        rw [hterms.truth_true]
        exact (Truth.true_refines_any he hf hopposite).trans hrefines
      · refine ⟨fun e' he' => ?_, fun _ h => nomatch h⟩
        cases he'
        refine ⟨⟨hne', hleft⟩, ?_, fun hnegated => ?_⟩
        · rw [truth_or]
          exact hrefines
        · exact .or hne' hleft (fun n hn => (hnegated n hn).1) fun n hn => (hnegated n hn).2

/-- What is asked of the function that makes an `&&` of two parts. -/
def MakesAnd (reading : ContextKeyExpr → Truth) (IsTerm : ContextKeyExpr → Prop)
    (andCreate : List (Option Node) → Option Node) : Prop :=
  ∀ e f, Good reading IsTerm e → Good reading IsTerm f →
    Means reading IsTerm (andCreate [some e, some f]) ((truth reading e).and (truth reading f)) ∧
      andCreate [some e, some f] ≠ none

theorem Means.pair {result : Option Node} {e f : Node}
    (h : Means reading IsTerm result (.all [some e, some f].reduceOption (truth reading))) :
    Means reading IsTerm result ((truth reading e).and (truth reading f)) := by
  have hpair : Truth.all [some e, some f].reduceOption (truth reading) = (truth reading e).and (truth reading f) := by
    rw [reduceOption_cons_of_some, reduceOption_singleton, Option.toList_some, Truth.all_cons, Truth.all_singleton]
  rwa [hpair] at h

section

variable (hterms : Terms reading registry IsTerm) (hsort : ∀ expr, (sort expr).Perm expr)
variable (hsound : Sound reading IsTerm isNegation)
include hterms hsort hsound

/-- One part distributed over an `||`. -/
theorem distributed_means {andCreate : List (Option Node) → Option Node} (hand : MakesAnd reading IsTerm andCreate)
    {pairs : List (Node × Node)} (check : Bool)
    (hpairs : ∀ p ∈ pairs, Good reading IsTerm p.1 ∧ Good reading IsTerm p.2) (hne : pairs ≠ []) :
    ∃ e, orCreate sort isNegation (pairs.map fun p => andCreate [some p.1, some p.2]) none check = some e ∧
      Good reading IsTerm e ∧
      (truth reading e).Refines (.any pairs fun p => (truth reading p.1).and (truth reading p.2)) := by
  have hmem : ∀ e, some e ∈ pairs.map (fun p => andCreate [some p.1, some p.2]) →
      ∃ p ∈ pairs, Good reading IsTerm e ∧ (truth reading e).Refines ((truth reading p.1).and (truth reading p.2)) := by
    intro e he
    obtain ⟨p, hp, heq⟩ := mem_map.mp he
    exact ⟨p, hp, (hand p.1 p.2 (hpairs p hp).1 (hpairs p hp).2).1 e heq⟩
  have hmade : ∀ p ∈ pairs, ∃ e, some e ∈ pairs.map (fun p => andCreate [some p.1, some p.2]) ∧
      (truth reading e).Refines ((truth reading p.1).and (truth reading p.2)) := by
    intro p hp
    obtain ⟨hmeans, hsome⟩ := hand p.1 p.2 (hpairs p hp).1 (hpairs p hp).2
    obtain ⟨e, he⟩ := Option.ne_none_iff_exists'.mp hsome
    exact ⟨e, mem_map.mpr ⟨p, hp, he⟩, (hmeans e he).2⟩
  obtain ⟨hmeans, hsome⟩ := orCreate_means hterms hsort hsound none check fun e he =>
    (hmem e he).choose_spec.2.1.terminals
  obtain ⟨p, hp⟩ := exists_mem_of_ne_nil pairs hne
  obtain ⟨f, hf, -⟩ := hmade p hp
  obtain ⟨e, he⟩ := Option.ne_none_iff_exists'.mp (hsome (ne_nil_of_mem (reduceOption_mem_iff.mpr hf)))
  obtain ⟨-, hrefines, hgood⟩ := hmeans e he
  refine ⟨e, he, hgood fun _ h => (nomatch h), hrefines.trans (Truth.any_refines (fun p hp => ?_) fun f hf => ?_)⟩
  · obtain ⟨f, hf, hvalue⟩ := hmade p hp
    exact ⟨f, reduceOption_mem_iff.mpr hf, hvalue⟩
  · obtain ⟨p, hp, -, hvalue⟩ := hmem f (reduceOption_mem_iff.mp hf)
    exact ⟨p, hp, hvalue⟩

theorem distribute_means {andCreate : List (Option Node) → Option Node} (hand : MakesAnd reading IsTerm andCreate) (rounds : Nat)
    (hexpr : ∀ e ∈ expr, Good reading IsTerm e) (hne : expr ≠ []) :
    distribute sort isNegation andCreate rounds expr ≠ [] ∧
      (∀ e ∈ distribute sort isNegation andCreate rounds expr, Good reading IsTerm e) ∧
      (Truth.all (distribute sort isNegation andCreate rounds expr) (truth reading)).Refines (.all expr (truth reading)) := by
  induction rounds generalizing expr with
  | zero => exact ⟨hne, hexpr, .refl _⟩
  | succ rounds ih =>
    unfold distribute
    split
    · next lastExpr negated second rest hreverse =>
      obtain rfl : expr = rest.reverse ++ [second, or lastExpr negated] := by
        have := congrArg reverse hreverse
        simpa using this
      have hrest : ∀ f ∈ rest.reverse, Good reading IsTerm f := fun f hf => hexpr f (mem_append_left _ hf)
      have hsecond := hexpr second (by simp)
      obtain ⟨hne', hlastExpr⟩ : lastExpr ≠ [] ∧ ∀ t ∈ lastExpr, Good reading IsTerm t :=
        (hexpr (or lastExpr negated) (by simp)).terminals
      have hpairs : ∀ p ∈ lastExpr.map (fun el => (el, second)), Good reading IsTerm p.1 ∧ Good reading IsTerm p.2 := by
        intro p hp
        obtain ⟨el, hel, rfl⟩ := mem_map.mp hp
        exact ⟨hlastExpr el hel, hsecond⟩
      obtain ⟨e, he, hgood, hvalue⟩ := distributed_means hterms hsort hsound hand rest.reverse.isEmpty hpairs (by simpa using hne')
      have he : orCreate sort isNegation (lastExpr.map fun el => andCreate [some el, some second]) none rest.reverse.isEmpty =
          some e := by
        rw [← he, map_map]
        rfl
      dsimp only
      rw [he]
      have hsorted : Reduces reading (rest.reverse ++ [e]) _ := .of_perm (hsort (rest.reverse ++ [e]))
      have hexpr' : ∀ f ∈ sort (rest.reverse ++ [e]), Good reading IsTerm f := by
        intro f hf
        rcases mem_append.mp (hsorted.subset f hf) with hf | hf
        · exact hrest f hf
        · exact mem_singleton.mp hf ▸ hgood
      obtain ⟨hleft, hgoods, hall⟩ := ih hexpr' (hsorted.ne_nil (by simp))
      refine ⟨hleft, hgoods, hall.trans (hsorted.all_refines.trans ?_)⟩
      -- the new part refines the second one with a part of the last one
      have hpart : (truth reading e).Refines ((truth reading second).and (.any lastExpr (truth reading))) := by
        rw [Truth.any_map] at hvalue
        refine hvalue.trans ⟨fun h => ?_, fun ⟨el, hel, h⟩ => ?_⟩
        · obtain ⟨hsecond, el, hel, hlower⟩ := h
          exact ⟨el, hel, hlower, hsecond⟩
        · exact ⟨h.2, el, hel, h.1⟩
      rw [Truth.all_append, Truth.all_append, Truth.all_singleton, Truth.all_cons, Truth.all_singleton, truth_or]
      exact Truth.Refines.and (.refl _) hpart
    · exact ⟨hne, hexpr, .refl _⟩

theorem andCreateWith_means {distributed : List Node → List Node}
    (hdistributed : ∀ expr, (∀ e ∈ expr, Good reading IsTerm e) → expr ≠ [] →
      distributed expr ≠ [] ∧ (∀ e ∈ distributed expr, Good reading IsTerm e) ∧
        (Truth.all (distributed expr) (truth reading)).Refines (.all expr (truth reading)))
    (check : Bool) (harr : ∀ e, some e ∈ arr → Good reading IsTerm e) :
    Means reading IsTerm (andCreateWith sort isNegation distributed arr none check) (.all arr.reduceOption (truth reading)) ∧
    (arr.reduceOption ≠ [] → andCreateWith sort isNegation distributed arr none check ≠ none) := by
  have hspec : Collects reading IsTerm (fun e => (truth reading e).not) arr (collectAnd arr) :=
    collects_collect fun e he => fits_roleInAnd hterms (harr e he)
  obtain ⟨htrue, hfalse⟩ := Good.constant hterms
  unfold andCreateWith
  split
  · next hnone =>
    rw [hnone] at hspec
    obtain ⟨f, hf, hvalue⟩ := hspec
    refine ⟨fun e he => ?_, fun _ h => nomatch h⟩
    cases he
    refine ⟨hfalse, ?_⟩
    rw [hterms.truth_false]
    refine ⟨fun hlower => ?_, False.elim⟩
    have hvalue : (truth reading f).not = .known True := hvalue
    have hupper : (truth reading f).not.lower := hvalue ▸ trivial
    exact hupper ((truth reading f).upper_of_lower (hlower f hf))
  · next hasTrue hempty =>
    rw [hempty] at hspec
    obtain ⟨-, hvalue, hnone⟩ := hspec
    split
    · refine ⟨fun e he => ?_, fun _ h => nomatch h⟩
      cases he
      refine ⟨htrue, ?_⟩
      rw [hterms.truth_true, ← Truth.not_not (a := .all _ _), Truth.not_all, ← hvalue, Truth.any_nil, Truth.not_known,
        not_false_eq_true]
      exact .refl _
    · next hflag => exact ⟨fun e he => (nomatch he), fun hne => absurd (hnone rfl (by simpa using hflag)) hne⟩
  · next expr hasTrue hne hsome =>
    rw [hsome] at hspec
    obtain ⟨hexpr, hvalue, -⟩ := hspec
    obtain ⟨hreduces, hleft⟩ := reduces_sorted hterms hexpr (hsort expr)
    have hrefines : (Truth.all (eliminateDuplicates (sort expr)) (truth reading)).Refines
        (.all arr.reduceOption (truth reading)) := by
      rw [← Truth.not_all, ← Truth.not_all] at hvalue
      have hall := congrArg Truth.not hvalue
      rw [Truth.not_not, Truth.not_not] at hall
      rw [← hall]
      exact hreduces.all_refines
    have hne' := hreduces.ne_nil hne
    split
    · next e hone =>
      rw [hone] at hleft hrefines
      refine ⟨fun e' he' => ?_, fun _ h => nomatch h⟩
      cases he'
      rw [Truth.all_singleton] at hrefines
      exact ⟨hleft e mem_cons_self, hrefines⟩
    obtain ⟨hne'', hleft', hall⟩ := hdistributed _ hleft hne'
    have hrefines := hall.trans hrefines
    split
    · next e hone =>
      rw [hone] at hleft' hrefines
      refine ⟨fun e' he' => ?_, fun _ h => nomatch h⟩
      cases he'
      rw [Truth.all_singleton] at hrefines
      exact ⟨hleft' e mem_cons_self, hrefines⟩
    · split
      · next hcheck =>
        rw [Bool.and_eq_true] at hcheck
        obtain ⟨e, he, f, hf, hopposite⟩ := hsound.cancels hleft' hcheck.2
        refine ⟨fun e' he' => ?_, fun _ h => nomatch h⟩
        cases he'
        refine ⟨hfalse, ?_⟩
        rw [hterms.truth_false]
        exact (Truth.false_refines_all he hf hopposite).trans hrefines
      · refine ⟨fun e' he' => ?_, fun _ h => nomatch h⟩
        cases he'
        refine ⟨.and hne'' hleft' (fun _ hn => nomatch hn) (fun _ hn => nomatch hn), ?_⟩
        rw [truth_and]
        exact hrefines

theorem andCreate_means (check : Bool) (fuel : Nat) (harr : ∀ e, some e ∈ arr → Good reading IsTerm e) :
    Means reading IsTerm (andCreate sort isNegation check fuel arr none) (.all arr.reduceOption (truth reading)) ∧
    (arr.reduceOption ≠ [] → andCreate sort isNegation check fuel arr none ≠ none) := by
  induction fuel generalizing arr with
  | zero => exact andCreateWith_means hterms hsort hsound (fun expr hexpr hne => ⟨hne, hexpr, .refl _⟩) check harr
  | succ fuel ih =>
    refine andCreateWith_means hterms hsort hsound (fun expr hexpr hne => ?_) check harr
    refine distribute_means hterms hsort hsound (fun e f he hf => ?_) _ hexpr hne
    have hpair : ∀ g, some g ∈ [some e, some f] → Good reading IsTerm g := by
      simp [he, hf]
    obtain ⟨hmeans, hsome⟩ := ih hpair
    exact ⟨hmeans.pair, hsome (cons_ne_nil e _)⟩

end

end Create

/-! ## `negate` -/

section Negate

variable {sort : List Node → List Node} {isNegation : Node → Node → Bool}

section

variable (hterms : Terms reading registry IsTerm) (hsort : ∀ expr, (sort expr).Perm expr)
variable (hsound : Sound reading IsTerm isNegation) (fuel : Nat)
include hterms hsort hsound fuel

theorem distributePair_means {left right : Node} (hleft : GoodTerminals reading IsTerm left)
    (hright : GoodTerminals reading IsTerm right) :
    Good reading IsTerm (distributePair sort isNegation fuel left right) ∧
      (truth reading (distributePair sort isNegation fuel left right)).Refines ((truth reading left).and (truth reading right)) := by
  obtain ⟨hne, hgood⟩ := hleft
  obtain ⟨hne', hgood'⟩ := hright
  have hand : MakesAnd reading IsTerm fun arr => andCreate sort isNegation false fuel arr none := by
    intro e f he hf
    have hpair : ∀ g, some g ∈ [some e, some f] → Good reading IsTerm g := by
      simp [he, hf]
    obtain ⟨hmeans, hsome⟩ := andCreate_means hterms hsort hsound false fuel hpair
    exact ⟨hmeans.pair, hsome (cons_ne_nil e _)⟩
  have hpairs : ∀ p ∈ getTerminals left ×ˢ getTerminals right, Good reading IsTerm p.1 ∧ Good reading IsTerm p.2 := by
    intro p hp
    rw [mem_product] at hp
    exact ⟨hgood p.1 hp.1, hgood' p.2 hp.2⟩
  have hpairs_ne : getTerminals left ×ˢ getTerminals right ≠ [] := by
    obtain ⟨t, ht⟩ := exists_mem_of_ne_nil _ hne
    obtain ⟨t', ht'⟩ := exists_mem_of_ne_nil _ hne'
    exact ne_nil_of_mem (pair_mem_product.mpr ⟨ht, ht'⟩)
  obtain ⟨e, he, hgoode, hvaluee⟩ := distributed_means hterms hsort hsound hand false hpairs hpairs_ne
  have hresult : distributePair sort isNegation fuel left right = e := by
    unfold distributePair
    have harr : ((getTerminals left).flatMap fun left => (getTerminals right).map fun right =>
          andCreate sort isNegation false fuel [some left, some right] none) =
        (getTerminals left ×ˢ getTerminals right).map fun p =>
          andCreate sort isNegation false fuel [some p.1, some p.2] none := by
      simp [SProd.sprod, product, map_flatMap, Function.comp_def]
    rw [harr, he, Option.getD_some]
  rw [hresult]
  refine ⟨hgoode, hvaluee.trans ?_⟩
  rw [truth_eq_any_terminals left, truth_eq_any_terminals right]
  constructor
  · rintro ⟨⟨t, ht, hlower⟩, t', ht', hlower'⟩
    exact ⟨(t, t'), pair_mem_product.mpr ⟨ht, ht'⟩, hlower, hlower'⟩
  · rintro ⟨p, hp, hupper, hupper'⟩
    rw [mem_product] at hp
    exact ⟨⟨p.1, hp.1, hupper⟩, p.2, hp.2, hupper'⟩

/-- The negations of the parts of an `||`, distributed over each other. -/
theorem distributePairs_means {result : List Node} (hne : result ≠ [])
    (hresult : ∀ e ∈ result, GoodTerminals reading IsTerm e) :
    ∃ e, distributePairs sort isNegation fuel result = [e] ∧ GoodTerminals reading IsTerm e ∧
      (truth reading e).Refines (.all result (truth reading)) := by
  cases result with
  | nil => exact absurd rfl hne
  | cons first result =>
    refine ⟨_, rfl, ?_⟩
    induction result generalizing first with
    | nil => exact ⟨hresult first mem_cons_self, Truth.all_singleton first ▸ .refl _⟩
    | cons second result ih =>
      have hsecond := hresult second (mem_cons_of_mem _ mem_cons_self)
      obtain ⟨hgood, hvalue⟩ := distributePair_means hterms hsort hsound fuel (hresult first mem_cons_self) hsecond
      have hrest : ∀ e ∈ distributePair sort isNegation fuel first second :: result, GoodTerminals reading IsTerm e := by
        intro e he
        rcases mem_cons.mp he with rfl | he
        · exact hgood.terminals
        · exact hresult e (mem_cons_of_mem _ (mem_cons_of_mem _ he))
      obtain ⟨hgood', hvalue'⟩ := ih _ (cons_ne_nil _ _) hrest
      refine ⟨hgood', hvalue'.trans ?_⟩
      rw [Truth.all_cons, Truth.all_cons, Truth.all_cons, ← Truth.and_and]
      exact hvalue.and (.refl _)

end

theorem negateAllWith_eq_map (fuel : Nat) (expr : List Node) :
    negateAllWith registry sort isNegation fuel expr = expr.map (negateWith registry sort isNegation fuel) := by
  induction expr with
  | nil => rfl
  | cons e expr ih => rw [negateAllWith, ih, map_cons]

/-- The negation refines the opposite, and is good if the expression is known. -/
structure Negates (reading : ContextKeyExpr → Truth) (IsTerm : ContextKeyExpr → Prop) (e n : Node) : Prop where
  terminals : GoodTerminals reading IsTerm n
  refines : (truth reading n).Refines (truth reading e).not
  good : (truth reading e).Known → Good reading IsTerm n

section

variable (hterms : Terms reading registry IsTerm) (hsort : ∀ expr, (sort expr).Perm expr)
include hterms hsort

/-- What `create` of `||` makes of a list with parts, which `negate` takes. -/
theorem orCreate_getD_means (hsound : Sound reading IsTerm isNegation) {arr : List Node} (hne : arr ≠ [])
    (harr : ∀ n ∈ arr, GoodTerminals reading IsTerm n) (he : Good reading IsTerm e)
    (hopposite : (Truth.any arr (truth reading)).Refines (truth reading e).not) :
    Negates reading IsTerm e ((orCreate sort isNegation (arr.map some) (some e) true).getD falseNode) := by
  have hreduce : (arr.map some).reduceOption = arr := by simp [reduceOption]
  have harr' : ∀ n, some n ∈ arr.map some → GoodTerminals reading IsTerm n := by simpa using harr
  obtain ⟨hmeans, hsome⟩ := orCreate_means hterms hsort hsound (some e) true harr'
  rw [hreduce] at hmeans hsome
  obtain ⟨n, hn⟩ := Option.ne_none_iff_exists'.mp (hsome hne)
  obtain ⟨hterminals, hrefines, hgood⟩ := hmeans n hn
  rw [hn, Option.getD_some]
  refine ⟨hterminals, hrefines.trans hopposite, fun hknown => hgood fun m hm => ?_⟩
  cases hm
  refine ⟨he, ?_⟩
  rw [(hrefines.trans hopposite).eq_of_known hknown.not, Truth.not_not]

theorem negateWith_negates (hsound : Sound reading IsTerm isNegation) (fuel : Nat) (he : Good reading IsTerm e) :
    Negates reading IsTerm e (negateWith registry sort isNegation fuel e) := by
  induction he with
  | @term e h hterm =>
    rw [negateWith]
    have hgood : Good reading IsTerm (term (negateTerm registry e) (ContextKeyExpr.negateTerm_isAtom registry h)) :=
      .term (hterms.negated hterm)
    refine ⟨hgood.terminals, ?_, fun _ => hgood⟩
    rw [truth_term, truth_term, hterms.opposite hterm]
    exact .refl _
  | @and expr negated hne hexpr hnegated hopposite ih _ =>
    cases negated with
    | some n =>
      rw [negateWith]
      refine ⟨(hnegated n rfl).terminals, ?_, fun _ => hnegated n rfl⟩
      rw [hopposite n rfl]
      exact .refl _
    | none =>
      rw [negateWith, negateAllWith_eq_map]
      refine orCreate_getD_means hterms hsort hsound (by simpa using hne) (fun n hn => ?_) (.and hne hexpr hnegated hopposite) ?_
      · obtain ⟨e, he, rfl⟩ := mem_map.mp hn
        exact (ih e he).terminals
      · rw [truth_and, Truth.not_all, Truth.any_map]
        exact Truth.any_refines (fun e he => ⟨e, he, (ih e he).refines⟩) fun e he => ⟨e, he, (ih e he).refines⟩
  | @or expr negated hne hexpr hnegated hopposite ih _ =>
    cases negated with
    | some n =>
      rw [negateWith]
      refine ⟨(hnegated n rfl).terminals, ?_, fun _ => hnegated n rfl⟩
      rw [hopposite n rfl]
      exact .refl _
    | none =>
      rw [negateWith, negateAllWith_eq_map]
      have hall : ∀ n ∈ expr.map (negateWith registry sort isNegation fuel), GoodTerminals reading IsTerm n := by
        intro n hn
        obtain ⟨e, he, rfl⟩ := mem_map.mp hn
        exact (ih e he).terminals
      obtain ⟨n, hn, hgood, hvalue⟩ := distributePairs_means hterms hsort hsound fuel (by simpa using hne) hall
      rw [hn]
      refine orCreate_getD_means hterms hsort hsound (cons_ne_nil _ _) (fun m hm => mem_singleton.mp hm ▸ hgood)
        (.or hne hexpr hnegated hopposite) ?_
      rw [Truth.any_singleton, truth_or, Truth.not_any]
      rw [Truth.all_map] at hvalue
      exact hvalue.trans (Truth.all_refines (fun e he => ⟨e, he, (ih e he).refines⟩) fun e he => ⟨e, he, (ih e he).refines⟩)

theorem sound_isNegation (fuel : Nat) : Sound reading IsTerm (Node.isNegation registry sort fuel) := by
  induction fuel with
  | zero => exact fun e f _ _ h => nomatch h
  | succ fuel ih =>
    intro e f he hf h
    have hnegates := negateWith_negates hterms hsort ih fuel he
    rw [← hnegates.terminals.termsOnly.truth_eq hterms hf.termsOnly h]
    exact hnegates.refines

end

end Negate

end

end TongjiCode.Keybinding.Node
