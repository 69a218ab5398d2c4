import Mathlib.Algebra.Order.Ring.Int
import Mathlib.Data.List.Basic

/-!
# Lists

Relations between the entries of one list, and between those of two lists.
-/

open List

namespace TongjiCode

variable {α β : Type}

theorem pairwise_getElem? {R : α → α → Prop} {l : List α} (h : l.Pairwise R) {i j : Nat} {a b : α} (hij : i < j)
    (ha : l[i]? = some a) (hb : l[j]? = some b) : R a b := by
  obtain ⟨hi, rfl⟩ := List.getElem?_eq_some_iff.mp ha
  obtain ⟨hj, rfl⟩ := List.getElem?_eq_some_iff.mp hb
  exact List.pairwise_iff_getElem.mp h i j hi hj hij

/-- Each entry of the second list comes from one of the first. -/
theorem forall₂_mem {P : α → β → Prop} {l : List α} {r : List β} (h : List.Forall₂ P l r) : ∀ b ∈ r, ∃ a ∈ l, P a b := by
  induction h with
  | nil => exact fun _ hmem => by cases hmem
  | @cons a b l r hab _ ih =>
    intro b' hb'
    rcases mem_cons.mp hb' with rfl | hb'
    · exact ⟨a, mem_cons_self, hab⟩
    · obtain ⟨a', ha', hab'⟩ := ih b' hb'
      exact ⟨a', mem_cons_of_mem _ ha', hab'⟩

/-- A relation within the first list becomes one within the second. -/
theorem forall₂_pairwise {P : α → β → Prop} {R : α → α → Prop} {S : β → β → Prop}
    (hstep : ∀ a a' b b', P a b → P a' b' → R a a' → S b b') {l : List α} {r : List β} (h : List.Forall₂ P l r)
    (hpair : l.Pairwise R) : r.Pairwise S := by
  induction h with
  | nil => exact List.Pairwise.nil
  | @cons a b l r hab hrest ih =>
    obtain ⟨hfirst, hpair⟩ := pairwise_cons.mp hpair
    refine pairwise_cons.mpr ⟨fun b' hb' => ?_, ih hpair⟩
    obtain ⟨a', ha', hab'⟩ := forall₂_mem hrest b' hb'
    exact hstep a a' b b' hab hab' (hfirst a' ha')

/-! ## Entries for the first part of a list -/

/-- The entries of the first list belong to those of the second one, which may be longer. -/
inductive Covers (R : α → β → Prop) : List α → List β → Prop
  | nil (r : List β) : Covers R [] r
  | cons {a : α} {b : β} {l : List α} {r : List β} (hab : R a b) (h : Covers R l r) : Covers R (a :: l) (b :: r)

namespace Covers

variable {R : α → β → Prop} {l : List α} {r : List β}

section

variable (h : Covers R l r)
include h

theorem length_le : l.length ≤ r.length := by
  induction h with
  | nil r => exact Nat.zero_le _
  | cons _ _ ih => exact Nat.succ_le_succ ih

theorem getElem? {i : Nat} {a : α} (ha : l[i]? = some a) : ∃ b, r[i]? = some b ∧ R a b := by
  induction h generalizing i with
  | nil r => cases ha
  | @cons a' b l r hab _ ih =>
    cases i with
    | zero =>
      cases ha
      exact ⟨b, rfl, hab⟩
    | succ i => exact ih ha

theorem drop (n : Nat) : Covers R (l.drop n) (r.drop n) := by
  induction h generalizing n with
  | nil r =>
    rw [drop_nil]
    exact .nil _
  | cons hab h ih =>
    cases n with
    | zero => exact .cons hab h
    | succ n => exact ih n

omit h in
theorem append {front : List α} {front' : List β} (hlength : front.length = front'.length) (h : Covers R front front')
    (hrest : Covers R l r) : Covers R (front ++ l) (front' ++ r) := by
  induction h with
  | nil r' =>
    rw [eq_nil_of_length_eq_zero hlength.symm]
    exact hrest
  | cons hab _ ih => exact .cons hab (ih (Nat.succ.inj hlength))

theorem take_append {n : Nat} (hn : l.length ≤ n) (r' : List β) : Covers R l (r.take n ++ r') := by
  induction h generalizing n with
  | nil r => exact .nil _
  | cons hab _ ih =>
    cases n with
    | zero => exact absurd hn (Nat.not_succ_le_zero _)
    | succ n => exact .cons hab (ih (Nat.le_of_succ_le_succ hn))

theorem take (n : Nat) : Covers R (l.take n) (r.take n) := by
  induction h generalizing n with
  | nil r =>
    rw [take_nil]
    exact .nil _
  | cons hab _ ih =>
    cases n with
    | zero => exact .nil _
    | succ n => exact .cons hab (ih n)

theorem replace {i : Nat} (hi : i ≤ l.length) (j : Nat) {mid : List α} {mid' : List β} (hmid : Covers R mid mid')
    (hlength : mid.length = mid'.length) :
    Covers R (l.take i ++ (mid ++ l.drop j)) (r.take i ++ (mid' ++ r.drop j)) := by
  have hle := h.length_le
  refine append ?_ (h.take i) (append hlength hmid (h.drop j))
  rw [length_take, length_take]
  omega

end

end Covers

end TongjiCode
