import TongjiCode.SearchTree.Queries

/-!
# What a tree stores

After any calls of `set` whose keys compare consistently, a tree holds the last entry of each key, in the order of the
segments, and its queries answer from these entries (`set_queries_exact`).
-/

open List

namespace TongjiCode.SearchTree

open Node

/-! ## Keys -/

section Keys

variable {ρ K V : Type}

def stepsOf (iter : K → Step × List Step) (key : K) : List Step := (iter key).1 :: (iter key).2

def keyRanks (rank : List ρ → Segment → ρ) (iter : K → Step × List Step) (key : K) : List ρ :=
  rankList rank [] (stepsOf iter key)

/-- Keys compare consistently: the comparisons that their iterators make are those of ranks. -/
def Consistent [LinearOrder ρ] (rank : List ρ → Segment → ρ) (iter : K → Step × List Step) (keys : List K) : Prop :=
  ∀ key ∈ keys, ∀ key' ∈ keys, Agree rank [] (stepsOf iter key) (stepsOf iter key')

def extensions [LinearOrder ρ] (rank : List ρ → Segment → ρ) (iter : K → Step × List Step) (key : K)
    (entries : List (K × V)) : List (K × V) :=
  entries.filter fun entry => Extends (keyRanks rank iter key) (keyRanks rank iter entry.1)

def withoutExtensions [LinearOrder ρ] (rank : List ρ → Segment → ρ) (iter : K → Step × List Step) (key : K)
    (entries : List (K × V)) : List (K × V) :=
  entries.filter fun entry => !decide (Extends (keyRanks rank iter key) (keyRanks rank iter entry.1))

/-- The last entry that was set for a key, where keys with the same ranks are the same. -/
def Stored (ranksOf : K → List ρ) (sets : List (K × V)) (entry : K × V) : Prop :=
  ∃ earlier later, sets = earlier ++ entry :: later ∧ ∀ entry' ∈ later, ranksOf entry'.1 ≠ ranksOf entry.1

variable {ranksOf : K → List ρ} {sets : List (K × V)} {entry : K × V}

theorem stored_cons (first : K × V) :
    Stored ranksOf (first :: sets) entry ↔
      Stored ranksOf sets entry ∨ first = entry ∧ ∀ entry' ∈ sets, ranksOf entry'.1 ≠ ranksOf entry.1 := by
  constructor
  · rintro ⟨earlier, later, hsets, hlater⟩
    cases earlier with
    | nil =>
      cases hsets
      exact .inr ⟨rfl, hlater⟩
    | cons _ earlier =>
      cases hsets
      exact .inl ⟨earlier, later, rfl, hlater⟩
  · rintro (⟨earlier, later, rfl, hlater⟩ | ⟨rfl, hlater⟩)
    · exact ⟨first :: earlier, later, rfl, hlater⟩
    · exact ⟨[], sets, rfl, hlater⟩

end Keys

/-! ## Items of a run -/

section Items

variable {ρ K V : Type} [LinearOrder ρ] {ranksOf : K → List ρ}

variable {items : List (List ρ × K × V)}

theorem mem_insertItem {ranks : List ρ} {entry : K × V} {item : List ρ × K × V} :
    item ∈ insertItem ranks entry items ↔ item = (ranks, entry) ∨ item ∈ items ∧ item.1 ≠ ranks := by
  unfold insertItem
  simp only [mem_append, mem_cons, mem_filter, decide_eq_true_eq]
  constructor
  · rintro (⟨hmem, hlt⟩ | heq | ⟨hmem, hlt⟩)
    · exact .inr ⟨hmem, hlt.ne⟩
    · exact .inl heq
    · exact .inr ⟨hmem, hlt.ne'⟩
  · rintro (heq | ⟨hmem, hne⟩)
    · exact .inr (.inl heq)
    · rcases lt_or_gt_of_ne hne with hlt | hgt
      · exact .inl ⟨hmem, hlt⟩
      · exact .inr (.inr ⟨hmem, hgt⟩)

/-- The items after some entries were set. -/
def insertAll (ranksOf : K → List ρ) (items : List (List ρ × K × V)) (sets : List (K × V)) : List (List ρ × K × V) :=
  sets.foldl (fun items entry => insertItem (ranksOf entry.1) entry items) items

/-- Of the entries that are set, the last one with its ranks is left. -/
theorem mem_insertAll (sets : List (K × V)) : ∀ (items : List (List ρ × K × V)) (item : List ρ × K × V),
    item ∈ insertAll ranksOf items sets ↔
      item.1 = ranksOf item.2.1 ∧ Stored ranksOf sets item.2 ∨
        item ∈ items ∧ ∀ entry ∈ sets, ranksOf entry.1 ≠ item.1 := by
  induction sets with
  | nil =>
    intro items item
    constructor
    · exact fun h => .inr ⟨h, by simp⟩
    · rintro (⟨-, earlier, later, hnil, -⟩ | ⟨h, -⟩)
      · cases earlier <;> cases hnil
      · exact h
  | cons first sets ih =>
    intro items item
    show item ∈ insertAll ranksOf (insertItem (ranksOf first.1) first items) sets ↔ _
    rw [ih, mem_insertItem, stored_cons]
    simp only [mem_cons, forall_eq_or_imp]
    constructor
    · rintro (⟨heq, hstored⟩ | ⟨rfl | ⟨hmem, hne⟩, hlater⟩)
      · exact .inl ⟨heq, .inl hstored⟩
      · exact .inl ⟨rfl, .inr ⟨rfl, hlater⟩⟩
      · exact .inr ⟨hmem, hne.symm, hlater⟩
    · rintro (⟨heq, hstored | ⟨rfl, hlater⟩⟩ | ⟨hmem, hne, hlater⟩)
      · exact .inl ⟨heq, hstored⟩
      · exact .inr ⟨.inl (Prod.ext heq rfl), by rwa [heq]⟩
      · exact .inr ⟨.inr ⟨hmem, fun h => hne h.symm⟩, hlater⟩

theorem eq_of_ranks_eq (hsorted : items.Pairwise fun a b => a.1 < b.1) {item item' : List ρ × K × V} (hmem : item ∈ items)
    (hmem' : item' ∈ items) (heq : item.1 = item'.1) : item = item' := by
  obtain ⟨i, hi, rfl⟩ := mem_iff_getElem.mp hmem
  obtain ⟨j, hj, rfl⟩ := mem_iff_getElem.mp hmem'
  rcases Nat.lt_trichotomy i j with hlt | rfl | hgt
  · exact absurd heq (pairwise_iff_getElem.mp hsorted i j hi hj hlt).ne
  · rfl
  · exact absurd heq (pairwise_iff_getElem.mp hsorted j i hj hi hgt).ne'

theorem not_lt_of_extends : ∀ {ranks longer : List ρ}, ranks <+: longer → ¬longer < ranks
  | [], _, _ => not_lt_nil _
  | x :: ranks, [], h => by cases prefix_nil.mp h
  | x :: ranks, y :: longer, h => by
    obtain ⟨rfl, hrest⟩ := cons_prefix_cons.mp h
    rw [cons_lt_cons_iff]
    rintro (hlt | ⟨-, hlt⟩)
    · exact lt_irrefl x hlt
    · exact not_lt_of_extends hrest hlt

theorem getLast_prefix_iff (hsorted : items.Pairwise fun a b => a.1 < b.1) (ranks : List ρ) (item : List ρ × K × V) :
    (items.filter fun item => item.1 <+: ranks).getLast? = some item ↔
      item ∈ items ∧ item.1 <+: ranks ∧ ∀ item' ∈ items, item'.1 <+: ranks → item'.1.length ≤ item.1.length := by
  have hlongest : ∀ last, (items.filter fun item => item.1 <+: ranks).getLast? = some last →
      last ∈ items ∧ last.1 <+: ranks ∧ ∀ item' ∈ items, item'.1 <+: ranks → item'.1.length ≤ last.1.length := by
    intro last hlast
    obtain ⟨init, hsplit⟩ := getLast?_eq_some_iff.mp hlast
    have hmem : last ∈ items.filter fun item => item.1 <+: ranks := by simp [hsplit]
    have hlastPrefix := of_decide_eq_true (mem_filter.mp hmem).2
    refine ⟨(mem_filter.mp hmem).1, hlastPrefix, fun item' hitem' hprefix => ?_⟩
    have hmem' : item' ∈ items.filter fun item => item.1 <+: ranks := mem_filter.mpr ⟨hitem', decide_eq_true hprefix⟩
    rw [hsplit] at hmem'
    rcases mem_append.mp hmem' with hinit | hsame
    · have hpairs := hsorted.filter fun item => item.1 <+: ranks
      rw [hsplit] at hpairs
      have hlt := (pairwise_append.mp hpairs).2.2 item' hinit last (mem_singleton_self _)
      rcases prefix_or_prefix_of_prefix hprefix hlastPrefix with h | h
      · exact h.length_le
      · exact absurd hlt (not_lt_of_extends h)
    · rw [mem_singleton.mp hsame]
  constructor
  · exact hlongest item
  · rintro ⟨hmem, hprefix, hmax⟩
    cases hlast : (items.filter fun item => item.1 <+: ranks).getLast? with
    | none =>
      rw [getLast?_eq_none_iff, filter_eq_nil_iff] at hlast
      exact absurd (decide_eq_true hprefix) (hlast item hmem)
    | some last =>
      obtain ⟨hlastMem, hlastPrefix, hlastMax⟩ := hlongest last hlast
      have hlength := Nat.le_antisymm (hlastMax item hmem hprefix) (hmax last hlastMem hlastPrefix)
      have hranks : item.1 = last.1 := by
        rcases prefix_or_prefix_of_prefix hprefix hlastPrefix with h | h
        · exact h.eq_of_length hlength
        · exact (h.eq_of_length hlength.symm).symm
      rw [eq_of_ranks_eq hsorted hmem hlastMem hranks]

end Items

/-! ## Runs -/

section Runs

variable {ρ K V : Type} [LinearOrder ρ] {rank : List ρ → Segment → ρ} {iter : K → Step × List Step} {keys : List K}

/-- The tree after some entries were set. -/
structure Holds (rank : List ρ → Segment → ρ) (keys : List K) (sets : List (K × V)) (tree : TernarySearchTree K V) :
    Prop where
  balanced : tree.root.Balanced
  ordered : tree.root.Ordered rank []
  full : tree.root.Full
  items : tree.root.items rank [] = insertAll (keyRanks rank tree.iter) [] sets
  answers : ∀ key ∈ keys, tree.root.Answers rank [] (stepsOf tree.iter key)

variable {key : K}

/-- A `set` keeps the entries. -/
theorem set_holds {sets : List (K × V)} {tree : TernarySearchTree K V} (h : Holds rank keys sets tree)
    (hconsistent : Consistent rank tree.iter keys) (hkey : key ∈ keys) (value : V) :
    ∃ tree', tree.set key value = some tree' ∧ tree'.iter = tree.iter ∧ Holds rank keys (sets ++ [(key, value)]) tree' := by
  obtain ⟨root, d, hinsert, hinserted⟩ := insert_spec (key, value) tree.root [] (tree.iter key).1 (tree.iter key).2
    h.balanced h.ordered (h.answers key hkey) (hconsistent key hkey key hkey)
  refine ⟨{ tree with root }, ?_, rfl, hinserted.balanced, hinserted.ordered, hinserted.full h.full, ?_, ?_⟩
  · unfold TernarySearchTree.set
    dsimp only
    rw [set_eq_insert, hinsert]
    rfl
  · show root.items rank [] = _
    rw [hinserted.items, h.items]
    unfold insertAll
    rw [foldl_append]
    rfl
  · exact fun key' hkey' => hinserted.answers _ (h.answers key' hkey') (hconsistent key' hkey' key hkey)

/-- And so do several. -/
theorem setAll_holds (sets : List (K × V)) : ∀ {earlier : List (K × V)} {tree : TernarySearchTree K V},
    Holds rank keys earlier tree → Consistent rank tree.iter keys → (∀ entry ∈ sets, entry.1 ∈ keys) →
    ∃ tree', tree.setAll sets = some tree' ∧ tree'.iter = tree.iter ∧ Holds rank keys (earlier ++ sets) tree' := by
  induction sets with
  | nil =>
    intro earlier tree h _ _
    exact ⟨tree, rfl, rfl, by rwa [append_nil]⟩
  | cons entry sets ih =>
    intro earlier tree h hconsistent hkeys
    obtain ⟨tree1, hset, hiter, h1⟩ := set_holds h hconsistent (hkeys entry mem_cons_self) entry.2
    rw [← hiter] at hconsistent
    obtain ⟨tree2, hsets, hiter2, h2⟩ := ih h1 hconsistent fun entry' hmem => hkeys entry' (mem_cons_of_mem _ hmem)
    refine ⟨tree2, ?_, hiter2.trans hiter, ?_⟩
    · unfold TernarySearchTree.setAll at *
      rw [foldlM_cons, hset]
      exact hsets
    · rw [append_assoc] at h2
      exact h2

theorem setAll_new_holds (sets : List (K × V)) (hconsistent : Consistent rank iter keys)
    (hkeys : ∀ entry ∈ sets, entry.1 ∈ keys) :
    ∃ tree, ({ iter } : TernarySearchTree K V).setAll sets = some tree ∧ tree.iter = iter ∧ Holds rank keys sets tree := by
  have hnew : Holds rank keys [] ({ iter } : TernarySearchTree K V) := by
    refine ⟨trivial, trivial, trivial, rfl, fun key hkey => ?_⟩
    trivial
  exact setAll_holds sets hnew hconsistent hkeys

variable {sets : List (K × V)} {tree : TernarySearchTree K V}

section

variable (h : Holds rank keys sets tree)
include h

theorem Holds.item_ranks {item : List ρ × K × V} (hmem : item ∈ tree.root.items rank []) :
    item.1 = keyRanks rank tree.iter item.2.1 := by
  rw [h.items] at hmem
  rcases (mem_insertAll sets [] item).mp hmem with ⟨heq, -⟩ | ⟨hnil, -⟩
  · exact heq
  · cases hnil

theorem Holds.mem_entries (entry : K × V) :
    entry ∈ tree.entries ↔ (keyRanks rank tree.iter entry.1, entry) ∈ tree.root.items rank [] := by
  unfold TernarySearchTree.entries
  rw [entries_eq_items tree.root ([] : List ρ), mem_map]
  constructor
  · rintro ⟨item, hitem, rfl⟩
    rw [← h.item_ranks hitem]
    exact hitem
  · exact fun hmem => ⟨_, hmem, rfl⟩

/-- The entries of the tree are those that are stored. -/
theorem Holds.mem_entries_iff (entry : K × V) :
    entry ∈ tree.entries ↔ Stored (keyRanks rank tree.iter) sets entry := by
  rw [h.mem_entries, h.items, mem_insertAll]
  simp

theorem Holds.entries_sorted :
    tree.entries.Pairwise fun a b => keyRanks rank tree.iter a.1 < keyRanks rank tree.iter b.1 := by
  unfold TernarySearchTree.entries
  rw [entries_eq_items tree.root ([] : List ρ), pairwise_map]
  refine (items_sorted tree.root [] h.ordered).imp_of_mem fun ha hb hlt => ?_
  rw [← h.item_ranks ha, ← h.item_ranks hb]
  exact hlt

/-- `findSubstr` gives the longest key in front of a key. -/
theorem Holds.findSubstr (hkey : key ∈ keys) :
    ∃ result, tree.findSubstr key = some result ∧ ∀ value, result = some value ↔
      ∃ key', (key', value) ∈ tree.entries ∧ keyRanks rank tree.iter key' <+: keyRanks rank tree.iter key ∧
        ∀ entry ∈ tree.entries, keyRanks rank tree.iter entry.1 <+: keyRanks rank tree.iter key →
          (keyRanks rank tree.iter entry.1).length ≤ (keyRanks rank tree.iter key').length := by
  have hsorted := items_sorted tree.root [] h.ordered
  refine ⟨_, findSubstr_spec tree.root [] _ _ none h.ordered (h.answers key hkey), fun value => ?_⟩
  rw [Option.or_none, Option.map_eq_some_iff]
  constructor
  · rintro ⟨item, hlast, rfl⟩
    obtain ⟨hmem, hprefix, hmax⟩ := (getLast_prefix_iff hsorted _ item).mp hlast
    rw [h.item_ranks hmem] at hprefix hmax
    refine ⟨item.2.1, (h.mem_entries item.2).mpr ?_, hprefix, fun entry hentry => ?_⟩
    · rw [← h.item_ranks hmem]
      exact hmem
    · exact hmax _ ((h.mem_entries entry).mp hentry)
  · rintro ⟨key', hmem, hprefix, hmax⟩
    refine ⟨_, (getLast_prefix_iff hsorted _ _).mpr ⟨(h.mem_entries _).mp hmem, hprefix, fun item hitem hitem' => ?_⟩, rfl⟩
    have hranks := h.item_ranks hitem
    rw [hranks] at hitem' ⊢
    refine hmax item.2 ((h.mem_entries item.2).mpr ?_) hitem'
    rw [← hranks]
    exact hitem

theorem Holds.entries_below (hkey : key ∈ keys) :
    ∃ found, tree.getNode key = some found ∧ found.Full ∧
      extensions rank tree.iter key tree.entries = (found.child .mid).entries := by
  obtain ⟨found, hfound, hfull, hbelow⟩ :=
    getNode_spec tree.root [] (tree.iter key).1 (tree.iter key).2 h.ordered (h.answers key hkey)
  refine ⟨found, hfound, hfull h.full, ?_⟩
  rw [← hbelow]
  unfold extensions TernarySearchTree.entries
  rw [entries_eq_items tree.root ([] : List ρ), filter_map]
  congr 1
  apply filter_congr
  intro item hitem
  show decide (Extends (keyRanks rank tree.iter key) (keyRanks rank tree.iter item.2.1)) = _
  rw [← h.item_ranks hitem]
  rfl

end

end Runs

end TongjiCode.SearchTree
