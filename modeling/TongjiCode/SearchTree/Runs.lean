import TongjiCode.SearchTree.Deletion
import TongjiCode.SearchTree.KeyIterators

/-!
# Runs of a ternary search tree

What holds of a tree after any calls of `set`, and of a call of `deleteSuperstr` on it.
-/

namespace TongjiCode.SearchTree

open Node

/-- After any calls of `set` with keys that compare consistently, the tree is balanced and ordered, the iteration yields
the entries that are stored in the order of their segments, and the queries for a key answer from them. -/
theorem set_queries_exact {ρ K V : Type} [LinearOrder ρ] (rank : List ρ → Segment → ρ) (iter : K → Step × List Step)
    (sets : List (K × V)) (key : K) (hconsistent : Consistent rank iter (key :: sets.map Prod.fst)) :
    ∃ tree, ({ iter } : TernarySearchTree K V).setAll sets = some tree ∧
      tree.root.Balanced ∧ tree.root.Ordered rank [] ∧
      (tree.entries.Pairwise fun a b => keyRanks rank iter a.1 < keyRanks rank iter b.1) ∧
      (∀ entry, entry ∈ tree.entries ↔ Stored (keyRanks rank iter) sets entry) ∧
      (∃ result, tree.findSubstr key = some result ∧ ∀ value, result = some value ↔
        ∃ key', (key', value) ∈ tree.entries ∧ keyRanks rank iter key' <+: keyRanks rank iter key ∧
          ∀ entry ∈ tree.entries, keyRanks rank iter entry.1 <+: keyRanks rank iter key →
            (keyRanks rank iter entry.1).length ≤ (keyRanks rank iter key').length) ∧
      tree.findSuperstr key =
        some (if extensions rank iter key tree.entries = [] then none
          else some (extensions rank iter key tree.entries)) := by
  obtain ⟨tree, hset, rfl, h⟩ := setAll_new_holds sets hconsistent fun entry hentry =>
    List.mem_cons_of_mem _ (List.mem_map_of_mem hentry)
  obtain ⟨found, hfound, hfull, hbelow⟩ := h.entries_below (List.mem_cons_self : key ∈ _)
  refine ⟨tree, hset, h.balanced, h.ordered, h.entries_sorted, h.mem_entries_iff, h.findSubstr List.mem_cons_self, ?_⟩
  rw [hbelow]
  exact findSuperstr_eq hfound hfull

/-- Strings that are not empty, one of them set twice. -/
theorem set_queries_exact_strings :
    ∃ tree, ({ iter := stringIterator } : TernarySearchTree JsString Nat).setAll
        [([98], 1), ([98, 97], 2), ([97], 3), ([98], 4)] = some tree ∧
      tree.entries = [([97], 3), ([98], 4), ([98, 97], 2)] ∧ tree.findSubstr [98, 97, 99] = some (some 2) ∧
      tree.root.Balanced := by
  have hkeys : Consistent (fun _ => codes) stringIterator
      ([98, 97, 99] :: [([98], 1), ([98, 97], 2), ([97], 3), (([98] : JsString), 4)].map Prod.fst) :=
    strings_consistent _ (by simp)
  obtain ⟨tree, hset, hbalanced, -, -, -, -, -⟩ := set_queries_exact (V := Nat) _ _ _ _ hkeys
  refine ⟨tree, hset, ?_, ?_, hbalanced⟩
  · have hentries : (({ iter := stringIterator } : TernarySearchTree JsString Nat).setAll
        [([98], 1), ([98, 97], 2), ([97], 3), ([98], 4)]).map TernarySearchTree.entries =
        some [([97], 3), ([98], 4), ([98, 97], 2)] := by decide +kernel
    rw [hset] at hentries
    exact Option.some.inj hentries
  · have hfind : (({ iter := stringIterator } : TernarySearchTree JsString Nat).setAll
        [([98], 1), ([98, 97], 2), ([97], 3), ([98], 4)]).bind (fun tree => tree.findSubstr [98, 97, 99]) =
        some (some 2) := by decide +kernel
    rw [hset] at hfind
    exact hfind

/-- An empty string takes the place of the string at the root, since its code `NaN` is neither below nor above any. -/
theorem empty_string_replaces_root :
    let sets : List (JsString × Nat) := [([97], 1), ([], 2)]
    ∃ tree, ({ iter := stringIterator } : TernarySearchTree JsString Nat).setAll sets = some tree ∧
      Stored (fun key => (stepsOf stringIterator key).map Step.value) sets ([97], 1) ∧ ([97], 1) ∉ tree.entries ∧
      tree.findSubstr [97] = some (some 2) := by
  intro sets
  have hstored : Stored (fun key => (stepsOf stringIterator key).map Step.value) sets ([97], 1) := by
    refine ⟨[], [([], 2)], rfl, fun entry hentry => ?_⟩
    rw [List.mem_singleton.mp hentry]
    decide +kernel
  exact ⟨_, rfl, hstored, by decide +kernel, by decide +kernel⟩

/-- After any calls of `set` with keys that compare consistently, `deleteSuperstr` keeps exactly the entries that do not
extend the key, in their order, if and only if the node of the key, if there is one, has no left and no right child. -/
theorem deleteSuperstr_exact_iff {ρ K V : Type} [LinearOrder ρ] (rank : List ρ → Segment → ρ)
    (iter : K → Step × List Step) (sets : List (K × V)) (key : K)
    (hconsistent : Consistent rank iter (key :: sets.map Prod.fst)) :
    ∃ tree found tree', ({ iter } : TernarySearchTree K V).setAll sets = some tree ∧ tree.getNode key = some found ∧
      tree.deleteSuperstr key = some tree' ∧
      (tree'.entries = withoutExtensions rank iter key tree.entries ↔
        found.child .left = nil ∧ found.child .right = nil) := by
  obtain ⟨tree, hset, rfl, h⟩ := setAll_new_holds sets hconsistent fun entry hentry =>
    List.mem_cons_of_mem _ (List.mem_map_of_mem hentry)
  obtain ⟨found, hfound, hfull, hbelow⟩ := h.entries_below (List.mem_cons_self : key ∈ _)
  obtain ⟨root, earlier, later, hdelete, hentries, hentries'⟩ := deleteSuperstr_entries h.balanced.positive hfound
  refine ⟨tree, found, { tree with root }, hset, hfound, ?_, ?_⟩
  · unfold TernarySearchTree.deleteSuperstr
    dsimp only
    rw [hdelete]
    rfl
  · have hnil : ∀ dir, (found.child dir).Full → ((found.child dir).entries = [] ↔ found.child dir = nil) := by
      intro dir hchild
      constructor
      · intro hentries
        by_contra hne
        exact hchild.entries_ne_nil hne hentries
      · intro heq
        rw [heq]
        rfl
    rw [entries_own found] at hentries
    unfold extensions TernarySearchTree.entries at hbelow
    unfold withoutExtensions TernarySearchTree.entries
    rw [hentries] at hbelow ⊢
    rw [hentries', kept_iff hbelow, hnil .left, hnil .right]
    · cases found with
      | nil => trivial
      | node => exact hfull.2.2.2
    · cases found with
      | nil => trivial
      | node => exact hfull.2.1

theorem deleteSuperstr_exact_iff_paths :
    ∃ tree found tree', ({ iter := pathIterator id true true } : TernarySearchTree JsString Nat).setAll
        [([97], 1), ([97, 47, 98], 2)] = some tree ∧ tree.getNode [97] = some found ∧
      tree.deleteSuperstr [97] = some tree' ∧
      (tree'.entries = withoutExtensions (fun _ => codes) (pathIterator id true true) [97] tree.entries ↔
        found.child .left = nil ∧ found.child .right = nil) :=
  deleteSuperstr_exact_iff (fun _ => codes) (pathIterator id true true) [([97], 1), ([97, 47, 98], 2)] [97]
    (paths_consistent id true _)

/-- The left and right children of the node of `b` are `a` and `c`, which do not extend `b`, but go with it. -/
theorem deleteSuperstr_drops_siblings :
    ∃ tree tree', ({ iter := pathIterator id true true } : TernarySearchTree JsString Nat).setAll
        [([98], 1), ([97], 2), ([99], 3)] = some tree ∧
      tree.deleteSuperstr [98] = some tree' ∧ tree.entries = [([97], 2), ([98], 1), ([99], 3)] ∧
      tree'.entries = [([98], 1)] ∧
      ¬Extends ((stepsOf (pathIterator id true true) [98]).map Step.value)
        ((stepsOf (pathIterator id true true) [97]).map Step.value) := by
  exact ⟨_, _, rfl, rfl, by decide +kernel, by decide +kernel, by decide +kernel⟩

end TongjiCode.SearchTree
