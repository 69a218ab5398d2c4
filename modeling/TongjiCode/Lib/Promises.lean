import Mathlib.Algebra.Order.Ring.Int
import Mathlib.Data.List.Nodup

/-!
# Promises

The promises of an event loop.  `ω` is what a promise can be settled with and `ρ` are the reactions that a program
registers; what a reaction does when it runs is the program's matter.

A promise `Follows` another one when it will be settled as that one is, by reactions that pass the outcome on.  This stays
so while the event loop runs, as long as each promise is the target of one reaction.
-/

open List

namespace TongjiCode

structure Promises (ρ ω : Type) where
  /-- What each promise is settled with, if it is. -/
  outcomes : List (Option ω) := []
  /-- The reactions that wait for a promise. -/
  reactions : List (Nat × ρ) := []
  /-- The reactions that the event loop will run. -/
  jobs : List (Nat × ρ) := []

namespace Promises

variable {ρ ω : Type}

section Operations

variable (s : Promises ρ ω)

def outcome (promise : Nat) : Option ω := (s.outcomes[promise]?).join

def create : Promises ρ ω × Nat := ({ s with outcomes := s.outcomes ++ [none] }, s.outcomes.length)

def enqueue (promise : Nat) (reaction : ρ) : Promises ρ ω := { s with jobs := s.jobs ++ [(promise, reaction)] }

/-- Register a reaction, which runs soon if the promise is settled. -/
def andThen (promise : Nat) (reaction : ρ) : Promises ρ ω :=
  if (s.outcome promise).isSome then s.enqueue promise reaction
  else { s with reactions := s.reactions ++ [(promise, reaction)] }

/-- Settle a promise, unless it is settled. -/
def settle (promise : Nat) (o : ω) : Promises ρ ω :=
  if (s.outcome promise).isSome then s
  else
    { outcomes := s.outcomes.set promise (some o)
      reactions := s.reactions.filter fun link => link.1 ≠ promise
      jobs := s.jobs ++ s.reactions.filter fun link => link.1 = promise }

/-- The reactions that wait or will be run, with the promises that they react to. -/
def links : List (Nat × ρ) := s.reactions ++ s.jobs

end Operations

/-! ## What the operations do -/

variable {link : Nat × ρ}

section Outcomes

variable {s : Promises ρ ω} {promise other : Nat} {reaction : ρ} {o : ω}

@[simp] theorem create_outcome : s.create.1.outcome promise = s.outcome promise := by
  unfold create outcome
  by_cases hlt : promise < s.outcomes.length
  · rw [getElem?_append_left hlt]
  · rw [getElem?_append_right (by omega), getElem?_eq_none (Nat.le_of_not_lt hlt)]
    cases hcase : promise - s.outcomes.length <;> rfl

@[simp] theorem create_length : s.create.1.outcomes.length = s.outcomes.length + 1 := by
  simp [create]

@[simp] theorem andThen_outcome : (s.andThen promise reaction).outcome other = s.outcome other := by
  unfold andThen
  split <;> rfl

@[simp] theorem andThen_length : (s.andThen promise reaction).outcomes.length = s.outcomes.length := by
  unfold andThen
  split <;> rfl

theorem outcome_of_length_le (h : s.outcomes.length ≤ promise) : s.outcome promise = none := by
  unfold outcome
  rw [getElem?_eq_none h]
  rfl

theorem enqueue_links : (s.enqueue promise reaction).links.Perm ((promise, reaction) :: s.links) := by
  unfold links enqueue
  rw [← append_assoc]
  exact List.perm_append_comm

theorem andThen_links : (s.andThen promise reaction).links.Perm ((promise, reaction) :: s.links) := by
  unfold andThen
  split
  · exact enqueue_links
  · unfold links
    rw [append_assoc]
    exact perm_middle

theorem settle_outcome_self (hlt : promise < s.outcomes.length) (hpending : s.outcome promise = none) :
    (s.settle promise o).outcome promise = some o := by
  unfold settle
  rw [hpending]
  simp [outcome, hlt]

theorem settle_outcome_ne (hne : other ≠ promise) : (s.settle promise o).outcome other = s.outcome other := by
  unfold settle
  split
  · rfl
  · unfold outcome
    rw [getElem?_set_ne fun heq => hne heq.symm]

theorem settle_outcome_of_settled {o' : ω} (h : s.outcome other = some o') : (s.settle promise o).outcome other = some o' := by
  by_cases heq : other = promise
  · subst heq
    unfold settle
    rw [h]
    exact h
  · rw [settle_outcome_ne heq]
    exact h

@[simp] theorem settle_length : (s.settle promise o).outcomes.length = s.outcomes.length := by
  unfold settle
  split
  · rfl
  · exact length_set

theorem settle_of_pending (h : s.outcome promise = none) :
    s.settle promise o =
      { outcomes := s.outcomes.set promise (some o)
        reactions := s.reactions.filter fun link => link.1 ≠ promise
        jobs := s.jobs ++ s.reactions.filter fun link => link.1 = promise } := by
  unfold settle
  rw [h]
  rfl

theorem settle_of_settled (h : s.outcome promise ≠ none) : s.settle promise o = s := by
  unfold settle
  rw [if_pos (Option.isSome_iff_ne_none.mpr h)]

theorem mem_settle_reactions (h : link ∈ s.reactions) (hne : link.1 ≠ promise) :
    link ∈ (s.settle promise o).reactions := by
  unfold settle
  split
  · exact h
  · exact mem_filter.mpr ⟨h, by simpa using hne⟩

theorem mem_settle_jobs (h : link ∈ (s.settle promise o).jobs) : link ∈ s.jobs ∨ link.1 = promise := by
  unfold settle at h
  split at h
  · exact .inl h
  · exact (mem_append.mp h).imp_right fun h => by simpa using (mem_filter.mp h).2

theorem settle_links : (s.settle promise o).links.Perm s.links := by
  unfold settle
  split
  · exact List.Perm.refl _
  · -- the reactions that waited for the promise are among the jobs now
    have hfilter : (s.reactions.filter fun link => link.1 = promise) =
        s.reactions.filter fun link => !decide (link.1 ≠ promise) :=
      filter_congr fun link _ => by by_cases heq : link.1 = promise <;> simp [heq]
    rw [hfilter]
    refine (List.perm_append_comm.append_left _).trans ?_
    rw [← append_assoc]
    exact (filter_append_perm _ _).append_right _

end Outcomes

/-! ## One reaction for each promise -/

section Good

variable (target : ρ → Nat)

/-- Reactions wait for promises that are not settled, and each settles a promise of its own. -/
structure Good (s : Promises ρ ω) : Prop where
  waiting : ∀ link ∈ s.reactions, s.outcome link.1 = none
  bounded : ∀ link ∈ s.links, link.1 < s.outcomes.length ∧ target link.2 < s.outcomes.length
  unsettled : ∀ link ∈ s.links, s.outcome (target link.2) = none
  distinct : (s.links.map fun link => target link.2).Nodup

variable {target} {s : Promises ρ ω} {promise : Nat} {reaction : ρ} {o : ω}

theorem Good.empty : Good target ({} : Promises ρ ω) where
  waiting := fun _ h => nomatch h
  bounded := fun _ h => nomatch h
  unsettled := fun _ h => nomatch h
  distinct := nodup_nil

theorem Good.eq_of_target (h : s.Good target) {link link' : Nat × ρ} (hlink : link ∈ s.links) (hlink' : link' ∈ s.links)
    (htarget : target link.2 = target link'.2) : link = link' :=
  inj_on_of_nodup_map h.distinct hlink hlink' htarget

theorem Good.create (h : s.Good target) : s.create.1.Good target where
  waiting link hlink := create_outcome.trans (h.waiting link hlink)
  bounded link hlink := by
    have := h.bounded link hlink
    rw [create_length]
    omega
  unsettled link hlink := create_outcome.trans (h.unsettled link hlink)
  distinct := h.distinct

variable {s' : Promises ρ ω}

/-- A reaction is registered whose target nothing else settles. -/
theorem Good.register (h : s.Good target) (houtcome : ∀ p, s'.outcome p = s.outcome p)
    (hlength : s'.outcomes.length = s.outcomes.length) (hlinks : s'.links.Perm ((promise, reaction) :: s.links))
    (hwaiting : ∀ link ∈ s'.reactions, link ∈ s.reactions ∨ s.outcome link.1 = none) (hlt : promise < s.outcomes.length)
    (htarget : target reaction < s.outcomes.length) (hpending : s.outcome (target reaction) = none)
    (hfresh : ∀ link ∈ s.links, target link.2 ≠ target reaction) :
    s'.Good target where
  waiting link hlink := (houtcome _).trans ((hwaiting link hlink).elim (h.waiting link) id)
  bounded link hlink := by
    rw [hlength]
    rcases mem_cons.mp (hlinks.mem_iff.mp hlink) with rfl | hlink
    · exact ⟨hlt, htarget⟩
    · exact h.bounded link hlink
  unsettled link hlink := by
    rw [houtcome]
    rcases mem_cons.mp (hlinks.mem_iff.mp hlink) with rfl | hlink
    · exact hpending
    · exact h.unsettled link hlink
  distinct := by
    refine ((hlinks.map fun link => target link.2).nodup_iff).mpr (nodup_cons.mpr ⟨fun hmem => ?_, h.distinct⟩)
    obtain ⟨link, hlink, heq⟩ := mem_map.mp hmem
    exact hfresh link hlink heq

section

variable (h : s.Good target) (hlt : promise < s.outcomes.length) (htarget : target reaction < s.outcomes.length)
variable (hpending : s.outcome (target reaction) = none) (hfresh : ∀ link ∈ s.links, target link.2 ≠ target reaction)
include h hlt htarget hpending hfresh

theorem Good.andThen :
    (s.andThen promise reaction).Good target := by
  refine h.register (fun _ => andThen_outcome) andThen_length andThen_links (fun link hlink => ?_) hlt htarget hpending hfresh
  unfold Promises.andThen at hlink
  split at hlink
  · exact .inl hlink
  · next hsettled =>
    rcases mem_append.mp hlink with hlink | hlink
    · exact .inl hlink
    · rw [mem_singleton.mp hlink]
      exact .inr (by simpa using hsettled)

theorem Good.enqueue :
    (s.enqueue promise reaction).Good target :=
  h.register (fun _ => rfl) rfl enqueue_links (fun _ hlink => .inl hlink) hlt htarget hpending hfresh

end

theorem Good.settle (h : s.Good target) (hfree : ∀ link ∈ s.links, target link.2 ≠ promise) :
    (s.settle promise o).Good target where
  waiting link hlink := by
    unfold Promises.settle at hlink
    split at hlink
    · next hsettled =>
      have hne : link.1 ≠ promise := by
        intro heq
        rw [← heq, h.waiting link hlink] at hsettled
        cases hsettled
      exact (settle_outcome_ne hne).trans (h.waiting link hlink)
    · obtain ⟨hlink, hne⟩ := mem_filter.mp hlink
      exact (settle_outcome_ne (by simpa using hne)).trans (h.waiting link hlink)
  bounded link hlink := by
    rw [settle_length]
    exact h.bounded link (settle_links.mem_iff.mp hlink)
  unsettled link hlink := by
    have hlink := settle_links.mem_iff.mp hlink
    exact (settle_outcome_ne (hfree link hlink)).trans (h.unsettled link hlink)
  distinct := ((settle_links.map fun link => target link.2).nodup_iff).mpr h.distinct

theorem Good.pop (h : s.Good target) {jobs : List (Nat × ρ)} (hjobs : s.jobs = link :: jobs) :
    ({ s with jobs } : Promises ρ ω).Good target ∧
      (∀ link' ∈ ({ s with jobs } : Promises ρ ω).links, target link'.2 ≠ target link.2) ∧
      ∀ link', link' ∈ s.links ↔ link' = link ∨ link' ∈ ({ s with jobs } : Promises ρ ω).links := by
  have hlinks : s.links.Perm (link :: ({ s with jobs } : Promises ρ ω).links) := by
    unfold links
    rw [hjobs]
    exact perm_middle
  have hmem : ∀ link', link' ∈ s.links ↔ link' = link ∨ link' ∈ ({ s with jobs } : Promises ρ ω).links :=
    fun link' => hlinks.mem_iff.trans mem_cons
  have hnodup := ((hlinks.map fun link => target link.2).nodup_iff).mp h.distinct
  rw [map_cons, nodup_cons] at hnodup
  refine ⟨⟨h.waiting, fun link' hlink => h.bounded link' ((hmem link').mpr (.inr hlink)),
    fun link' hlink => h.unsettled link' ((hmem link').mpr (.inr hlink)), hnodup.2⟩, fun link' hlink heq => hnodup.1 ?_, hmem⟩
  exact mem_map.mpr ⟨link', hlink, heq⟩

/-! ## Following -/

variable (target) (carries : ρ → Bool)

/-- The promise will be settled as `root` is. -/
inductive Follows (s : Promises ρ ω) (root : Nat) : Nat → Prop
  | self : Follows s root root
  | settled {promise : Nat} (h : s.outcome promise = s.outcome root) (hsettled : s.outcome promise ≠ none) :
    Follows s root promise
  | link {source : Nat} {reaction : ρ} (hlink : (source, reaction) ∈ s.links) (hcarries : carries reaction = true)
    (h : Follows s root source) : Follows s root (target reaction)

variable {target carries} {root : Nat}

section

variable (h : s.Follows target carries root promise)
include h

theorem Follows.outcome (hgood : s.Good target) (hsettled : s.outcome promise ≠ none) :
    s.outcome promise = s.outcome root := by
  cases h with
  | self => rfl
  | settled h => exact h
  | link hlink => exact absurd (hgood.unsettled _ hlink) hsettled

/-- When the event loop is idle and the root is settled, so is what follows it. -/
theorem Follows.idle (hgood : s.Good target) (hidle : s.jobs = []) (hroot : s.outcome root ≠ none) :
    s.outcome promise = s.outcome root := by
  induction h with
  | self => rfl
  | settled h => exact h
  | link hlink _ _ ih =>
    unfold links at hlink
    rw [hidle, append_nil] at hlink
    exact absurd (ih.symm.trans (hgood.waiting _ hlink)) hroot

theorem Follows.mono (houtcome : ∀ p, s'.outcome p = s.outcome p)
    (hlinks : ∀ link ∈ s.links, carries link.2 = true → ∃ reaction, (link.1, reaction) ∈ s'.links ∧ target reaction = target link.2 ∧ carries reaction = true) :
    s'.Follows target carries root promise := by
  induction h with
  | self => exact .self
  | settled h hsettled => exact .settled (by rw [houtcome, houtcome]; exact h) (by rw [houtcome]; exact hsettled)
  | link hlink hcarries _ ih =>
    obtain ⟨reaction, hlink', htarget, hcarries'⟩ := hlinks _ hlink hcarries
    rw [← htarget]
    exact .link hlink' hcarries' ih

end

/-- Promises and reactions are added. -/
structure Grows (s s' : Promises ρ ω) : Prop where
  outcome : ∀ p, s'.outcome p = s.outcome p
  reactions : ∀ link ∈ s.reactions, link ∈ s'.reactions
  links : ∀ link ∈ s.links, link ∈ s'.links
  length : s.outcomes.length ≤ s'.outcomes.length

theorem Grows.trans {s1 s2 s3 : Promises ρ ω} (h : s1.Grows s2) (h' : s2.Grows s3) : s1.Grows s3 where
  outcome p := (h'.outcome p).trans (h.outcome p)
  reactions link hlink := h'.reactions link (h.reactions link hlink)
  links link hlink := h'.links link (h.links link hlink)
  length := Nat.le_trans h.length h'.length

theorem grows_create : s.Grows s.create.1 where
  outcome _ := create_outcome
  reactions _ := id
  links _ := id
  length := by
    rw [create_length]
    exact Nat.le_succ _

theorem grows_andThen : s.Grows (s.andThen promise reaction) where
  outcome _ := andThen_outcome
  reactions link hlink := by
    unfold andThen
    split
    · exact hlink
    · exact mem_append_left _ hlink
  links _ hlink := andThen_links.mem_iff.mpr (mem_cons_of_mem _ hlink)
  length := Nat.le_of_eq andThen_length.symm

theorem grows_enqueue : s.Grows (s.enqueue promise reaction) where
  outcome _ := rfl
  reactions _ := id
  links _ hlink := enqueue_links.mem_iff.mpr (mem_cons_of_mem _ hlink)
  length := Nat.le_refl _

section

variable (h : s.Follows target carries root promise)
include h

theorem Follows.grows (hgrows : s.Grows s') :
    s'.Follows target carries root promise :=
  h.mono hgrows.outcome fun link hlink hcarries => ⟨link.2, hgrows.links link hlink, rfl, hcarries⟩

theorem Follows.settle {other : Nat} :
    (s.settle other o).Follows target carries root promise := by
  induction h with
  | self => exact .self
  | settled h hsettled =>
    obtain ⟨o', ho'⟩ := Option.ne_none_iff_exists'.mp hsettled
    have hself := @settle_outcome_of_settled _ _ s other _ o o' ho'
    have hroot := @settle_outcome_of_settled _ _ s other _ o o' (h.symm.trans ho')
    exact .settled (hself.trans hroot.symm) (by rw [hself]; exact fun hnone => nomatch hnone)
  | link hlink hcarries _ ih => exact .link (settle_links.mem_iff.mpr hlink) hcarries ih

theorem Follows.run (hgood : s.Good target) {jobs : List (Nat × ρ)} (hjobs : s.jobs = link :: jobs)
    (ho : s.outcome link.1 = some o) :
    (({ s with jobs } : Promises ρ ω).settle (target link.2) o).Follows target carries root promise := by
  obtain ⟨-, -, hmem⟩ := hgood.pop hjobs
  have hlink : link ∈ s.links := (hmem link).mpr (.inl rfl)
  have hself : (({ s with jobs } : Promises ρ ω).settle (target link.2) o).outcome (target link.2) = some o :=
    settle_outcome_self (hgood.bounded link hlink).2 (hgood.unsettled link hlink)
  induction h with
  | self => exact .self
  | settled h hsettled =>
    obtain ⟨o', ho'⟩ := Option.ne_none_iff_exists'.mp hsettled
    have hkept : ∀ p, s.outcome p = some o' →
        (({ s with jobs } : Promises ρ ω).settle (target link.2) o).outcome p = some o' :=
      fun p hp => @settle_outcome_of_settled _ _ ({ s with jobs } : Promises ρ ω) _ _ _ _ hp
    exact .settled ((hkept _ ho').trans (hkept _ (h.symm.trans ho')).symm) (by rw [hkept _ ho']; exact fun hnone => nomatch hnone)
  | @link source reaction hlink' hcarries hfollows ih =>
    rcases (hmem _).mp hlink' with rfl | hrest
    · -- the source is settled, and so is the root, in the same way
      have hroot : s.outcome root = some o :=
        (hfollows.outcome hgood (by rw [ho]; exact fun hnone => nomatch hnone)).symm.trans ho
      have hroot' := @settle_outcome_of_settled _ _ ({ s with jobs } : Promises ρ ω) (target reaction) root o o hroot
      exact .settled (hself.trans hroot'.symm) (by rw [hself]; exact fun hnone => nomatch hnone)
    · exact .link (settle_links.mem_iff.mpr hrest) hcarries ih

end

end Good

end Promises

end TongjiCode
