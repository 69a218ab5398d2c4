import Mathlib.Data.List.ReduceOption
import Mathlib.Tactic.Push

/-!
# Truth between bounds

A truth value of which only bounds are known: it is true if the lower bound holds, and not true if the upper one does not.  With
`not`, `and`, `any` and `all` this is Kleene's three-valued logic.

A value refines another one if its bounds lie within the other's.  What refines a value that is known is equal to it
(`Refines.eq_of_known`), and to find out that two values exclude each other refines their disjunction and their conjunction
(`true_refines_any`, `false_refines_all`).
-/

namespace TongjiCode

structure Truth where
  lower : Prop
  upper : Prop
  upper_of_lower : lower → upper

namespace Truth

def known (P : Prop) : Truth := ⟨P, P, id⟩

def not (a : Truth) : Truth := ⟨¬ a.upper, ¬ a.lower, mt a.upper_of_lower⟩

def and (a b : Truth) : Truth := ⟨a.lower ∧ b.lower, a.upper ∧ b.upper, And.imp a.upper_of_lower b.upper_of_lower⟩

def or (a b : Truth) : Truth := ⟨a.lower ∨ b.lower, a.upper ∨ b.upper, Or.imp a.upper_of_lower b.upper_of_lower⟩

section Lists

variable {α β : Type} (l : List α) (f : α → Truth)

def any : Truth := ⟨∃ a ∈ l, (f a).lower, ∃ a ∈ l, (f a).upper, fun ⟨a, ha, h⟩ => ⟨a, ha, (f a).upper_of_lower h⟩⟩

def all : Truth := ⟨∀ a ∈ l, (f a).lower, ∀ a ∈ l, (f a).upper, fun h a ha => (f a).upper_of_lower (h a ha)⟩

end Lists

/-- The bounds meet. -/
def Known (a : Truth) : Prop := a.upper → a.lower

/-- The bounds of the first value lie within those of the second one. -/
structure Refines (a b : Truth) : Prop where
  lower : b.lower → a.lower
  upper : a.upper → b.upper

variable {a b c d : Truth}

theorem ext (hlower : a.lower ↔ b.lower) (hupper : a.upper ↔ b.upper) : a = b := by
  obtain ⟨lower, upper, h⟩ := a
  obtain ⟨lower', upper', h'⟩ := b
  obtain rfl : lower = lower' := propext hlower
  obtain rfl : upper = upper' := propext hupper
  rfl

theorem known_known (P : Prop) : (known P).Known := id

theorem not_known (P : Prop) : (known P).not = known (¬ P) := rfl

theorem not_not : a.not.not = a := ext Classical.not_not Classical.not_not

theorem and_and : (a.and b).and c = a.and (b.and c) := ext and_assoc and_assoc

theorem Known.not (h : a.Known) : a.not.Known := fun hlower hupper => hlower (h hupper)

/-! ## Refinement -/

theorem Refines.refl (a : Truth) : a.Refines a := ⟨id, id⟩

theorem Refines.trans (h : a.Refines b) (h' : b.Refines c) : a.Refines c :=
  ⟨h.lower ∘ h'.lower, h'.upper ∘ h.upper⟩

theorem Refines.not (h : a.Refines b) : a.not.Refines b.not := ⟨mt h.upper, mt h.lower⟩

theorem Refines.and (h : a.Refines b) (h' : c.Refines d) : (a.and c).Refines (b.and d) :=
  ⟨And.imp h.lower h'.lower, And.imp h.upper h'.upper⟩

theorem Refines.or (h : a.Refines b) (h' : c.Refines d) : (a.or c).Refines (b.or d) :=
  ⟨Or.imp h.lower h'.lower, Or.imp h.upper h'.upper⟩

theorem Refines.eq_of_known (h : a.Refines b) (hknown : b.Known) : a = b := by
  refine ext ⟨fun hlower => ?_, h.lower⟩ ⟨h.upper, fun hupper => ?_⟩
  · exact hknown (h.upper (a.upper_of_lower hlower))
  · exact a.upper_of_lower (h.lower (hknown hupper))

/-! ## Lists -/

section Lists

variable {α β : Type} {l l' : List α} {f g : α → Truth}

theorem any_singleton (e : α) : any [e] f = f e := ext (by simp [any]) (by simp [any])

theorem all_singleton (e : α) : all [e] f = f e := ext (by simp [all]) (by simp [all])

theorem any_nil : any [] f = known False := ext (by simp [any, known]) (by simp [any, known])

theorem any_cons (e : α) : any (e :: l) f = (f e).or (any l f) := ext (by simp [any, Truth.or]) (by simp [any, Truth.or])

theorem all_nil : all [] f = known True := ext (by simp [all, known]) (by simp [all, known])

theorem all_cons (e : α) : all (e :: l) f = (f e).and (all l f) := ext (by simp [all, Truth.and]) (by simp [all, Truth.and])

theorem any_append : any (l ++ l') f = (any l f).or (any l' f) :=
  ext (by simp [any, Truth.or, or_and_right, exists_or]) (by simp [any, Truth.or, or_and_right, exists_or])

theorem all_append : all (l ++ l') f = (all l f).and (all l' f) :=
  ext (by simp [all, Truth.and, or_imp, forall_and]) (by simp [all, Truth.and, or_imp, forall_and])

theorem any_map (h : β → α) (l : List β) : any (l.map h) f = any l (f ∘ h) := ext (by simp [any]) (by simp [any])

theorem all_map (h : β → α) (l : List β) : all (l.map h) f = all l (f ∘ h) := ext (by simp [all]) (by simp [all])

theorem not_any : (any l f).not = all l fun e => (f e).not := ext (by simp [any, all, Truth.not]) (by simp [any, all, Truth.not])

theorem not_all : (all l f).not = any l fun e => (f e).not := ext (by simp [any, all, Truth.not]) (by simp [any, all, Truth.not])

/-- Each value of one list is refined by one of the other list, and each of those refines one. -/
theorem any_refines {l' : List β} {g : β → Truth} (hcovers : ∀ a ∈ l, ∃ b ∈ l', (g b).Refines (f a))
    (hfrom : ∀ b ∈ l', ∃ a ∈ l, (g b).Refines (f a)) : (any l' g).Refines (any l f) where
  lower := by
    rintro ⟨a, ha, hlower⟩
    obtain ⟨b, hb, hrefines⟩ := hcovers a ha
    exact ⟨b, hb, hrefines.lower hlower⟩
  upper := by
    rintro ⟨b, hb, hupper⟩
    obtain ⟨a, ha, hrefines⟩ := hfrom b hb
    exact ⟨a, ha, hrefines.upper hupper⟩

theorem all_refines {l' : List β} {g : β → Truth} (hcovers : ∀ a ∈ l, ∃ b ∈ l', (g b).Refines (f a))
    (hfrom : ∀ b ∈ l', ∃ a ∈ l, (g b).Refines (f a)) : (all l' g).Refines (all l f) where
  lower := by
    intro hlower b hb
    obtain ⟨a, ha, hrefines⟩ := hfrom b hb
    exact hrefines.lower (hlower a ha)
  upper := by
    intro hupper a ha
    obtain ⟨b, hb, hrefines⟩ := hcovers a ha
    exact hrefines.upper (hupper b hb)

variable {x y : α}

/-- A value or its negation: the disjunction is true. -/
theorem true_refines_any (hx : x ∈ l) (hy : y ∈ l) (h : (f y).Refines (f x).not) : (known True).Refines (any l f) where
  lower _ := trivial
  upper _ := by
    by_cases hupper : (f x).upper
    · exact ⟨x, hx, hupper⟩
    · exact ⟨y, hy, (f y).upper_of_lower (h.lower hupper)⟩

/-- A value and its negation: the conjunction is false. -/
theorem false_refines_all (hx : x ∈ l) (hy : y ∈ l) (h : (f y).Refines (f x).not) : (known False).Refines (all l f) where
  lower hlower := h.upper ((f y).upper_of_lower (hlower y hy)) (hlower x hx)
  upper := False.elim

end Lists

end Truth

end TongjiCode
