import TongjiCode.SearchTree.Insertion

/-!
# Queries

On an ordered tree whose segments compare as their ranks do, a query is a statement about the ranks of the entries:
`findSubstr` looks for prefixes (`findSubstr_spec`), and what is below the node of a key are the entries that extend it
(`getNode_spec`).
-/

open List

namespace TongjiCode.SearchTree

namespace Node

section QuerySpec

variable {ρ : Type} {rank : List ρ → Segment → ρ} {K V : Type} {path : List ρ}

theorem entries_eq_items (tree : Node K V) : ∀ path : List ρ, tree.entries = (tree.items rank path).map Prod.snd := by
  induction tree with
  | nil => exact fun path => rfl
  | node height segment value left mid right ihl ihm ihr =>
    intro path
    unfold entries items
    rw [ihl path, ihm (path ++ [rank path segment]), ihr path]
    simp [Function.comp_def]

theorem items_node {height : Int} {segment : Segment} {value : Option (K × V)} {left mid right : Node K V} :
    (node height segment value left mid right).items rank path =
      left.items rank path ++ value.toList.map (fun entry => ([rank path segment], entry)) ++
        (mid.items rank (path ++ [rank path segment])).map (fun item => (rank path segment :: item.1, item.2)) ++
        right.items rank path := rfl

theorem Full.entries_ne_nil {tree : Node K V} (h : tree.Full) (hne : tree ≠ nil) : tree.entries ≠ [] := by
  induction tree with
  | nil => exact absurd rfl hne
  | node height segment value left mid right ihl ihm ihr =>
    intro hnil
    simp only [entries, append_eq_nil_iff, Option.toList_eq_nil_iff] at hnil
    obtain ⟨⟨⟨-, hvalue⟩, hmid⟩, -⟩ := hnil
    rcases h.1 with hentry | hbelow
    · exact hentry hvalue
    · exact ihm h.2.2.1 hbelow hmid

/-! ## Where a key is -/

theorem prefix_head {x : ρ} {ranks : List ρ} (y : ρ) (ranks' : List ρ) (h : y :: ranks' <+: x :: ranks) : y = x :=
  (cons_prefix_cons.mp h).1

/-- The ranks of a key go on to strictly longer ones. -/
def Extends (ranks longer : List ρ) : Prop := ranks <+: longer ∧ ranks ≠ longer

instance [DecidableEq ρ] (ranks longer : List ρ) : Decidable (Extends ranks longer) := inferInstanceAs (Decidable (_ ∧ _))

theorem extends_head {x : ρ} {ranks : List ρ} (y : ρ) (ranks' : List ρ) (h : Extends (x :: ranks) (y :: ranks')) : y = x :=
  (cons_prefix_cons.mp h.1).1.symm

theorem extends_cons {x : ρ} {ranks ranks' : List ρ} : Extends (x :: ranks) (x :: ranks') ↔ Extends ranks ranks' := by
  unfold Extends
  simp

/-- Where no sibling has the first rank that is looked for, there is nothing to be found. -/
theorem filter_items_eq_nil {tree : Node K V} {x : ρ} {q : List ρ → Prop} [DecidablePred q]
    (hq : ∀ y ranks, q (y :: ranks) → y = x) (h : ∀ y ∈ tree.ranks rank path, y ≠ x) :
    (tree.items rank path).filter (fun item => q item.1) = [] := by
  rw [filter_eq_nil_iff]
  intro item hitem hdec
  obtain ⟨y, hy, ranks, heq⟩ := items_head tree hitem
  rw [heq] at hdec
  exact h y hy (hq y ranks (of_decide_eq_true hdec))

theorem filter_at_eq_nil {mid : Node K V} {segment : Segment} {value : Option (K × V)} {x : ρ} {q : List ρ → Prop}
    [DecidablePred q] (hq : ∀ y ranks, q (y :: ranks) → y = x) (h : rank path segment ≠ x) :
    (value.toList.map (fun entry => ([rank path segment], entry)) ++
      (mid.items rank (path ++ [rank path segment])).map (fun item => (rank path segment :: item.1, item.2))).filter
        (fun item => q item.1) = [] := by
  rw [filter_eq_nil_iff]
  intro item hitem hdec
  obtain ⟨ranks, heq⟩ := items_at segment value mid item hitem
  rw [heq] at hdec
  exact h (hq _ ranks (of_decide_eq_true hdec))

variable [LinearOrder ρ]

theorem items_sorted (tree : Node K V) : ∀ path : List ρ, tree.Ordered rank path →
    (tree.items rank path).Pairwise fun a b => a.1 < b.1 := by
  induction tree with
  | nil => exact fun path _ => List.Pairwise.nil
  | node height segment value left mid right ihl ihm ihr =>
    intro path hordered
    obtain ⟨hleft, hright, hol, hom, hor⟩ := hordered
    refine pairwise_append.mpr ⟨pairwise_append.mpr ⟨pairwise_append.mpr ⟨ihl path hol, ?_, ?_⟩, ?_, ?_⟩,
      ihr path hor, ?_⟩
    · cases value <;> simp
    · intro a ha b hb
      obtain ⟨entry, -, rfl⟩ := mem_map.mp hb
      exact items_lt hleft [] a ha
    · exact pairwise_map.mpr ((ihm _ hom).imp fun hlt => cons_lt_cons_iff.mpr (.inr ⟨rfl, hlt⟩))
    · intro a ha b hb
      obtain ⟨b', hb', rfl⟩ := mem_map.mp hb
      rcases mem_append.mp ha with ha | ha
      · exact items_lt hleft _ a ha
      · obtain ⟨entry, -, rfl⟩ := mem_map.mp ha
        obtain ⟨y, -, ranks, heq⟩ := items_head mid hb'
        show [rank path segment] < rank path segment :: b'.1
        rw [heq]
        exact cons_lt_cons_iff.mpr (.inr ⟨rfl, nil_lt_cons _ _⟩)
    · intro a ha b hb
      rw [append_assoc] at ha
      rcases mem_append.mp ha with ha | ha
      · obtain ⟨x, hx, ranks, heq⟩ := items_head left ha
        rw [heq]
        exact lt_items (fun y hy => (hleft x hx).trans (hright y hy)) ranks b hb
      · obtain ⟨ranks, heq⟩ := items_at segment value mid a ha
        rw [heq]
        exact lt_items hright ranks b hb

section Filters

variable (height : Int) {segment : Segment} (value : Option (K × V)) {left : Node K V} (mid : Node K V)
  {right : Node K V} {x : ρ} (q : List ρ → Prop) [DecidablePred q]

/-- What is looked for comes before the segment of a node: it is on the left. -/
theorem filter_left (left : Node K V) (hq : ∀ y ranks, q (y :: ranks) → y = x)
    (hright : ∀ y ∈ right.ranks rank path, rank path segment < y) (hlt : x < rank path segment) :
    ((node height segment value left mid right).items rank path).filter (fun item => q item.1) =
      (left.items rank path).filter fun item => q item.1 := by
  rw [items_node, append_assoc (left.items rank path), filter_append, filter_append, filter_at_eq_nil hq hlt.ne',
    filter_items_eq_nil hq fun y hy => (hlt.trans (hright y hy)).ne', append_nil, append_nil]

/-- What is looked for comes after the segment of a node: it is on the right. -/
theorem filter_right (right : Node K V) (hq : ∀ y ranks, q (y :: ranks) → y = x)
    (hleft : ∀ y ∈ left.ranks rank path, y < rank path segment) (hlt : rank path segment < x) :
    ((node height segment value left mid right).items rank path).filter (fun item => q item.1) =
      (right.items rank path).filter fun item => q item.1 := by
  rw [items_node, append_assoc (left.items rank path), filter_append, filter_append, filter_at_eq_nil hq hlt.ne,
    filter_items_eq_nil hq fun y hy => ((hleft y hy).trans hlt).ne, append_nil, nil_append]

/-- What is looked for begins with the segment of a node: it is at the node or below it. -/
theorem filter_mid (hq : ∀ y ranks, q (y :: ranks) → y = rank path segment)
    (hleft : ∀ y ∈ left.ranks rank path, y < rank path segment)
    (hright : ∀ y ∈ right.ranks rank path, rank path segment < y) :
    ((node height segment value left mid right).items rank path).filter (fun item => q item.1) =
      (value.toList.map (fun entry => ([rank path segment], entry))).filter (fun item => q item.1) ++
        ((mid.items rank (path ++ [rank path segment])).filter fun item => q (rank path segment :: item.1)).map
          (fun item => (rank path segment :: item.1, item.2)) := by
  rw [items_node, filter_append, filter_append, filter_append,
    filter_items_eq_nil hq fun y hy => (hleft y hy).ne, filter_items_eq_nil hq fun y hy => (hright y hy).ne',
    nil_append, append_nil]
  exact congrArg _ filter_map

end Filters

/-- `findSubstr` finds the last entry whose ranks are a prefix of those of the key, which is the longest one. -/
theorem findSubstr_spec (tree : Node K V) : ∀ (path : List ρ) (step : Step) (steps : List Step) (candidate : Option V),
    tree.Ordered rank path → tree.Answers rank path (step :: steps) →
    tree.findSubstr step steps candidate =
      some ((((tree.items rank path).filter fun item => item.1 <+: rankList rank path (step :: steps)).getLast?.map
        fun item => item.2.2).or candidate) := by
  induction tree with
  | nil => exact fun path step steps candidate _ _ => rfl
  | node height segment value left mid right ihl ihm ihr =>
    intro path step steps candidate hordered hanswers
    obtain ⟨hleft, hright, hol, hom, hor⟩ := hordered
    obtain ⟨hcmp, hal, har, ham⟩ := hanswers
    unfold findSubstr
    rw [hcmp]
    rcases lt_trichotomy (rank path segment) (rank path step.value) with hlt | heq | hgt
    · have hfilter := filter_right height value mid (· <+: rankList rank path (step :: steps)) right prefix_head hleft hlt
      rw [(cmp_eq_lt_iff _ _).mpr hlt, hfilter]
      exact ihr path step steps candidate hor har
    · rw [(cmp_eq_eq_iff _ _).mpr heq]
      unfold rankList
      have hfilter := filter_mid height value mid
        (· <+: rank path segment :: rankList rank (path ++ [rank path segment]) steps) prefix_head hleft hright
      rw [← heq, hfilter]
      cases steps with
      | nil =>
        have hmid : (mid.items rank (path ++ [rank path segment])).filter
            (fun item => rank path segment :: item.1 <+: [rank path segment]) = [] := by
          rw [filter_eq_nil_iff]
          intro item hitem hdec
          obtain ⟨y, -, ranks, hitem'⟩ := items_head mid hitem
          have hnil := prefix_nil.mp (cons_prefix_cons.mp (of_decide_eq_true hdec)).2
          rw [hitem'] at hnil
          cases hnil
        rw [rankList, hmid]
        cases value <;> simp
      | cons next steps =>
        dsimp only
        rw [ihm _ next steps _ hom (ham heq)]
        simp only [cons_prefix_cons, true_and, getLast?_append, getLast?_map]
        congr 1
        cases ((mid.items rank (path ++ [rank path segment])).filter
          fun item => decide (item.1 <+: rankList rank (path ++ [rank path segment]) (next :: steps))).getLast? with
        | some item => rfl
        | none => cases value <;> simp
    · have hfilter := filter_left height value mid (· <+: rankList rank path (step :: steps)) left prefix_head hright hgt
      rw [(cmp_eq_gt_iff _ _).mpr hgt, hfilter]
      exact ihl path step steps candidate hol hal

theorem getNode_spec (tree : Node K V) : ∀ (path : List ρ) (step : Step) (steps : List Step),
    tree.Ordered rank path → tree.Answers rank path (step :: steps) →
    ∃ found, tree.getNode step steps = some found ∧ (tree.Full → found.Full) ∧
      ((tree.items rank path).filter fun item => Extends (rankList rank path (step :: steps)) item.1).map Prod.snd =
        (found.child .mid).entries := by
  induction tree with
  | nil => exact fun path step steps _ _ => ⟨nil, rfl, id, rfl⟩
  | node height segment value left mid right ihl ihm ihr =>
    intro path step steps hordered hanswers
    obtain ⟨hleft, hright, hol, hom, hor⟩ := hordered
    obtain ⟨hcmp, hal, har, ham⟩ := hanswers
    unfold getNode
    rw [hcmp]
    rcases lt_trichotomy (rank path segment) (rank path step.value) with hlt | heq | hgt
    · have hfilter := filter_right height value mid (Extends (rankList rank path (step :: steps)) ·) right extends_head
        hleft hlt
      obtain ⟨found, hfound, hfull, hbelow⟩ := ihr path step steps hor har
      rw [(cmp_eq_lt_iff _ _).mpr hlt, hfilter]
      exact ⟨found, hfound, fun h => hfull h.2.2.2, hbelow⟩
    · have hfilter := filter_mid height value mid
        (Extends (rank path segment :: rankList rank (path ++ [rank path segment]) steps) ·) extends_head hleft hright
      rw [(cmp_eq_eq_iff _ _).mpr heq]
      unfold rankList
      rw [← heq, hfilter]
      cases steps with
      | nil =>
        refine ⟨_, rfl, id, ?_⟩
        show _ = mid.entries
        rw [entries_eq_items mid (path ++ [rank path segment])]
        have hown : (value.toList.map fun entry => ([rank path segment], entry)).filter
            (fun item => Extends [rank path segment] item.1) = [] := by
          rw [filter_eq_nil_iff]
          intro item hitem hdec
          obtain ⟨entry, -, rfl⟩ := mem_map.mp hitem
          exact (of_decide_eq_true hdec).2 rfl
        have hmid : (mid.items rank (path ++ [rank path segment])).filter
            (fun item => Extends [rank path segment] (rank path segment :: item.1)) =
            mid.items rank (path ++ [rank path segment]) := by
          rw [filter_eq_self]
          intro item hitem
          obtain ⟨y, -, ranks, hitem'⟩ := items_head mid hitem
          rw [hitem']
          refine decide_eq_true (extends_cons.mpr ⟨?_, by simp⟩)
          exact nil_prefix
        rw [rankList, hown, hmid, nil_append, map_map]
        rfl
      | cons next steps =>
        obtain ⟨found, hfound, hfull, hbelow⟩ := ihm _ next steps hom (ham heq)
        refine ⟨found, hfound, fun h => hfull h.2.2.1, ?_⟩
        rw [← hbelow]
        have hown : (value.toList.map fun entry => ([rank path segment], entry)).filter
            (fun item => Extends (rank path segment :: rankList rank (path ++ [rank path segment]) (next :: steps)) item.1) =
            [] := by
          rw [filter_eq_nil_iff]
          intro item hitem hdec
          obtain ⟨entry, -, rfl⟩ := mem_map.mp hitem
          have hlong := (extends_cons.mp (of_decide_eq_true hdec)).1
          cases prefix_nil.mp hlong
        simp only [extends_cons] at hown ⊢
        rw [hown, nil_append, map_map]
        rfl
    · have hfilter := filter_left height value mid (Extends (rankList rank path (step :: steps)) ·) left extends_head
        hright hgt
      obtain ⟨found, hfound, hfull, hbelow⟩ := ihl path step steps hol hal
      rw [(cmp_eq_gt_iff _ _).mpr hgt, hfilter]
      exact ⟨found, hfound, fun h => hfull h.2.1, hbelow⟩

/-- `findSuperstr` yields what is below the node of a key. -/
theorem findSuperstr_eq {tree found : Node K V} {step : Step} {steps : List Step}
    (hfound : tree.getNode step steps = some found) (hfull : found.Full) :
    tree.findSuperstr step steps =
      some (if (found.child .mid).entries = [] then none else some (found.child .mid).entries) := by
  unfold findSuperstr
  rw [hfound, Option.map_some]
  cases found with
  | nil => rfl
  | node height segment value left mid right =>
    cases mid with
    | nil => rfl
    | node => exact congrArg some (if_neg (hfull.2.2.1.entries_ne_nil (by simp))).symm

end QuerySpec

end Node

end TongjiCode.SearchTree
