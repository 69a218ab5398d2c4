import Mathlib.Algebra.Order.Ring.Int
import Mathlib.Data.List.AList

/-!
# String dictionaries and their differences

An `IStringDictionary<V>` is a finite map from strings to values; the order of its keys is of no concern to the
merges.  `compare` is the function of that name in `globalStateMerge.ts` and `snippetsMerge.ts`, which differ in
how they compare two values.

The loops of the merges run over sets of keys and change the dictionaries only at the key of the turn, so what
they leave at one key depends only on what was there before (`foldl_pointwise`).
-/

open List

namespace TongjiCode.Sync

/-- `IStringDictionary<V>`. -/
abbrev Dictionary (V : Type) := AList fun _ : String => V

/-- The keys of a `Set<string>` in the order in which they were added. -/
abbrev KeySet := List String

def KeySet.add (keys : KeySet) (key : String) : KeySet :=
  if key ∈ keys then keys else keys ++ [key]

theorem KeySet.mem_add {keys : KeySet} {key k : String} : k ∈ keys.add key ↔ k ∈ keys ∨ k = key := by
  unfold KeySet.add
  by_cases h : key ∈ keys
  · rw [if_pos h]
    exact ⟨Or.inl, fun hk => hk.elim id fun heq => heq ▸ h⟩
  · rw [if_neg h, mem_append, mem_singleton]

/-! ## Differences -/

structure CompareResult where
  added : KeySet
  removed : KeySet
  updated : KeySet
deriving DecidableEq

/-- No difference was found. -/
def CompareResult.isEmpty (result : CompareResult) : Bool :=
  result.added.isEmpty && result.removed.isEmpty && result.updated.isEmpty

section Compare

variable {V : Type}

/-- What the comparison with a base that is `null` gives: every key counts as added. -/
def allAdded (target : Dictionary V) : CompareResult := { added := target.keys, removed := [], updated := [] }

variable (same : V → V → Bool)

/-- Two values of one key compare as the same, or one of them is missing. -/
def sameAt : Option V → Option V → Bool
  | some value1, some value2 => same value1 value2
  | _, _ => true

/-- `compare`, with the comparison of two values as a parameter. -/
def compare (source target : Dictionary V) : CompareResult :=
  let added := target.keys.filter fun key => !source.keys.contains key
  let removed := source.keys.filter fun key => !target.keys.contains key
  let updated := source.keys.filter fun key =>
    !removed.contains key && !sameAt same (source.lookup key) (target.lookup key)
  { added, removed, updated }

variable {same} {source target : Dictionary V} {k : String}

theorem mem_keys_iff {d : Dictionary V} : k ∈ d.keys ↔ (d.lookup k).isSome := by
  rw [← AList.mem_keys, ← AList.lookup_isSome]

theorem not_mem_keys_iff {d : Dictionary V} : k ∉ d.keys ↔ d.lookup k = none := by
  rw [← AList.mem_keys, AList.lookup_eq_none]

theorem mem_compare_added :
    k ∈ (compare same source target).added ↔ source.lookup k = none ∧ (target.lookup k).isSome := by
  show k ∈ target.keys.filter _ ↔ _
  rw [mem_filter, mem_keys_iff, Bool.not_eq_true', contains_eq_mem, decide_eq_false_iff_not,
    not_mem_keys_iff, and_comm]

theorem mem_compare_removed :
    k ∈ (compare same source target).removed ↔ (source.lookup k).isSome ∧ target.lookup k = none := by
  show k ∈ source.keys.filter _ ↔ _
  rw [mem_filter, mem_keys_iff, Bool.not_eq_true', contains_eq_mem, decide_eq_false_iff_not,
    not_mem_keys_iff]

theorem mem_compare_updated :
    k ∈ (compare same source target).updated ↔ sameAt same (source.lookup k) (target.lookup k) = false := by
  have hremoved : (source.keys.filter fun key => !target.keys.contains key).contains k = true ↔
      (source.lookup k).isSome ∧ target.lookup k = none := by
    rw [contains_eq_mem, decide_eq_true_iff]
    exact @mem_compare_removed _ same source target k
  show k ∈ source.keys.filter _ ↔ _
  rw [mem_filter, mem_keys_iff, Bool.and_eq_true, Bool.not_eq_true', Bool.not_eq_true', ← Bool.not_eq_true,
    hremoved]
  cases hsource : source.lookup k <;> cases htarget : target.lookup k <;> simp [sameAt]

theorem compare_once : ¬(k ∈ (compare same source target).added ∧ k ∈ (compare same source target).removed) := by
  rw [mem_compare_added, mem_compare_removed]
  rintro ⟨⟨hnone, -⟩, hsome, -⟩
  rw [hnone] at hsome
  cases hsome

theorem compare_added_nodup : (compare same source target).added.Nodup := target.nodupKeys.filter _

theorem compare_removed_nodup : (compare same source target).removed.Nodup := source.nodupKeys.filter _

theorem compare_updated_nodup : (compare same source target).updated.Nodup := source.nodupKeys.filter _

/-- A key is named by the comparison if and only if its values differ. -/
theorem mem_compare_iff (hsame : ∀ value1 value2, same value1 value2 = true ↔ value1 = value2) :
    (k ∈ (compare same source target).added ∨ k ∈ (compare same source target).updated ∨
      k ∈ (compare same source target).removed) ↔ source.lookup k ≠ target.lookup k := by
  rw [mem_compare_added, mem_compare_updated, mem_compare_removed]
  cases source.lookup k with
  | none => cases target.lookup k <;> simp [sameAt]
  | some value1 =>
    cases target.lookup k with
    | none => simp [sameAt]
    | some value2 =>
      have hsame' : same value1 value2 = false ↔ value1 ≠ value2 := by
        rw [← Bool.not_eq_true, hsame]
      simp [sameAt, hsame']

theorem compare_isEmpty_iff (hsame : ∀ value1 value2, same value1 value2 = true ↔ value1 = value2) :
    (compare same source target).isEmpty = true ↔ ∀ k, source.lookup k = target.lookup k := by
  unfold CompareResult.isEmpty
  rw [Bool.and_eq_true, Bool.and_eq_true, List.isEmpty_iff, List.isEmpty_iff, List.isEmpty_iff,
    List.eq_nil_iff_forall_not_mem, List.eq_nil_iff_forall_not_mem, List.eq_nil_iff_forall_not_mem]
  have hiff := fun k => not_congr (@mem_compare_iff _ same source target k hsame)
  simp only [not_or, not_not] at hiff
  constructor
  · rintro ⟨⟨hadded, hremoved⟩, hupdated⟩ k
    exact (hiff k).mp ⟨hadded k, hupdated k, hremoved k⟩
  · intro h
    exact ⟨⟨fun k => ((hiff k).mpr (h k)).1, fun k => ((hiff k).mpr (h k)).2.2⟩, fun k => ((hiff k).mpr (h k)).2.1⟩

end Compare

/-! ## Loops over keys -/

/-- A loop whose turns change a state only at their own key, there in a way that depends on the key and on what
the state has at it, acts on each key by itself. -/
theorem foldl_pointwise {S A : Type} (view : S → String → A) (step : S → String → S) (turn : String → A → A)
    (hself : ∀ s key, view (step s key) key = turn key (view s key))
    (hother : ∀ s key k, k ≠ key → view (step s key) k = view s k) {keys : List String} (hnodup : keys.Nodup)
    (s : S) (k : String) :
    view (keys.foldl step s) k = if k ∈ keys then turn k (view s k) else view s k := by
  induction keys generalizing s with
  | nil => simp
  | cons key keys ih =>
    obtain ⟨hkey, hkeys⟩ := nodup_cons.mp hnodup
    rw [foldl_cons, ih hkeys]
    by_cases heq : k = key
    · subst heq
      rw [if_neg hkey, if_pos mem_cons_self, hself]
    · rw [hother s key k heq]
      simp only [mem_cons, heq, false_or]

/-! ## Changes of a dictionary -/

section Changes

variable {V : Type} {k : String}

/-- `target[key] = source[key]`.  The merges read only keys that `source` has. -/
def setFrom (source target : Dictionary V) (key : String) : Dictionary V :=
  match source.lookup key with
  | some value => target.insert key value
  | none => target

theorem lookup_setFrom_self (source target : Dictionary V) (key : String) :
    (setFrom source target key).lookup key = (source.lookup key).or (target.lookup key) := by
  unfold setFrom
  cases source.lookup key with
  | none => rfl
  | some value => exact AList.lookup_insert target

theorem lookup_setFrom_of_ne (source target : Dictionary V) {key k : String} (h : k ≠ key) :
    (setFrom source target key).lookup k = target.lookup k := by
  unfold setFrom
  cases source.lookup key with
  | none => rfl
  | some value => exact AList.lookup_insert_ne h

theorem setFrom_lookup {source : Dictionary V} {keys : List String} (hnodup : keys.Nodup) (target : Dictionary V) :
    (keys.foldl (setFrom source) target).lookup k =
      if k ∈ keys then (source.lookup k).or (target.lookup k) else target.lookup k :=
  foldl_pointwise (fun (d : Dictionary V) k => d.lookup k) _ (fun key value => (source.lookup key).or value)
    (fun target key => lookup_setFrom_self source target key)
    (fun target _ _ hne => lookup_setFrom_of_ne source target hne) hnodup target k

theorem setFrom_keys_lookup (source target : Dictionary V) :
    (source.keys.foldl (setFrom source) target).lookup k = (source.lookup k).or (target.lookup k) := by
  rw [setFrom_lookup (AList.keys_nodup source)]
  split
  · rfl
  · next h => rw [not_mem_keys_iff.mp h, Option.none_or]

theorem erase_lookup (keys : List String) (d : Dictionary V) :
    (keys.foldl (fun d key => d.erase key) d).lookup k = if k ∈ keys then none else d.lookup k := by
  induction keys generalizing d with
  | nil => simp
  | cons key keys ih =>
    rw [foldl_cons, ih]
    by_cases hne : k = key
    · subst hne
      simp
    · simp [hne, AList.lookup_erase_ne hne]

def applyChanges (added updated : Dictionary V) (removed : List String) (d : Dictionary V) : Dictionary V :=
  let d := added.keys.foldl (setFrom added) d
  let d := updated.keys.foldl (setFrom updated) d
  removed.foldl (fun d key => d.erase key) d

theorem applyChanges_lookup (added updated : Dictionary V) (removed : List String) (d : Dictionary V) :
    (applyChanges added updated removed d).lookup k =
      if k ∈ removed then none else (updated.lookup k).or ((added.lookup k).or (d.lookup k)) := by
  unfold applyChanges
  rw [erase_lookup, setFrom_keys_lookup, setFrom_keys_lookup]

end Changes

end TongjiCode.Sync
