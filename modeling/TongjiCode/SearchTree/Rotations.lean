import Mathlib.Data.List.Lex
import TongjiCode.SearchTree.TernarySearchTree

/-!
# What rotations keep

The segments of a tree are ranked: `rank path segment` is the place of a segment among those that follow the segments of
a path.  A rotation changes neither the entries with their paths nor the order (`Rotated`), and the balancing loop of
`set` brings a tree back into balance (`rebalance_spec`).
-/

namespace TongjiCode.SearchTree

namespace Node

/-! ## Predicates -/

/-- Every tree of left and right children is balanced and knows its heights. -/
def Balanced {K V : Type} : Node K V → Prop
  | nil => True
  | node height _ _ left mid right =>
    height = 1 + max left.height right.height ∧ left.height ≤ right.height + 1 ∧ right.height ≤ left.height + 1 ∧
      left.Balanced ∧ mid.Balanced ∧ right.Balanced

/-- Every node has an entry or leads to one. -/
def Full {K V : Type} : Node K V → Prop
  | nil => True
  | node _ _ entry left mid right => (entry ≠ none ∨ mid ≠ nil) ∧ left.Full ∧ mid.Full ∧ right.Full

section Ranks

variable {ρ : Type} (rank : List ρ → Segment → ρ) {K V : Type}

def ranks (path : List ρ) : Node K V → List ρ
  | nil => []
  | node _ segment _ left _ right => left.ranks path ++ rank path segment :: right.ranks path

/-- The entries of a tree in their order, with the ranks of the segments that lead to them. -/
def items (path : List ρ) : Node K V → List (List ρ × K × V)
  | nil => []
  | node _ segment entry left mid right =>
    left.items path ++ entry.toList.map (fun entry => ([rank path segment], entry)) ++
      (mid.items (path ++ [rank path segment])).map (fun item => (rank path segment :: item.1, item.2)) ++
      right.items path

variable [LinearOrder ρ]

/-- The segments of left children come before that of the node, and those of right children after it. -/
def Ordered (path : List ρ) : Node K V → Prop
  | nil => True
  | node _ segment _ left mid right =>
    (∀ x ∈ left.ranks rank path, x < rank path segment) ∧ (∀ x ∈ right.ranks rank path, rank path segment < x) ∧
      left.Ordered path ∧ mid.Ordered (path ++ [rank path segment]) ∧ right.Ordered path

/-- The comparisons of the steps of a key with the segments of a tree are those of the ranks, as far as the key goes
along them. -/
def Answers (path : List ρ) : List Step → Node K V → Prop
  | _, nil => True
  | [], _ => True
  | step :: steps, node _ segment _ left mid right =>
    step.cmp segment = some (cmp (rank path segment) (rank path step.value)) ∧
      left.Answers path (step :: steps) ∧ right.Answers path (step :: steps) ∧
      (rank path segment = rank path step.value → mid.Answers (path ++ [rank path segment]) steps)

end Ranks

/-- The trees that differ in heights and rotations of left and right children. -/
inductive Rotated {K V : Type} : Node K V → Node K V → Prop
  | refl (tree : Node K V) : Rotated tree tree
  | symm {tree tree' : Node K V} : Rotated tree tree' → Rotated tree' tree
  | trans {tree tree' tree'' : Node K V} : Rotated tree tree' → Rotated tree' tree'' → Rotated tree tree''
  | height (h h' : Int) (segment : Segment) (entry : Option (K × V)) (left mid right : Node K V) :
    Rotated (node h segment entry left mid right) (node h' segment entry left mid right)
  | left (h : Int) (segment : Segment) (entry : Option (K × V)) (mid right : Node K V) {tree tree' : Node K V} :
    Rotated tree tree' → Rotated (node h segment entry tree mid right) (node h segment entry tree' mid right)
  | right (h : Int) (segment : Segment) (entry : Option (K × V)) (left mid : Node K V) {tree tree' : Node K V} :
    Rotated tree tree' → Rotated (node h segment entry left mid tree) (node h segment entry left mid tree')
  | turn (h h' k k' : Int) (segment segment' : Segment) (entry entry' : Option (K × V)) (a m b m' c : Node K V) :
    Rotated (node h segment entry a m (node h' segment' entry' b m' c))
      (node k segment' entry' (node k' segment entry a m b) m' c)

namespace Rotated

variable {ρ : Type} {rank : List ρ → Segment → ρ} {K V : Type} {tree tree' : Node K V} {path : List ρ}

section

variable (h : Rotated tree tree')
include h

theorem ranks_eq : tree.ranks rank path = tree'.ranks rank path := by
  induction h with
  | refl tree => rfl
  | symm _ ih => exact ih.symm
  | trans _ _ ih ih' => exact ih.trans ih'
  | height => rfl
  | left _ _ _ _ _ _ ih => unfold ranks; rw [ih]
  | right _ _ _ _ _ _ ih => unfold ranks; rw [ih]
  | turn => simp [ranks]

theorem items_eq : tree.items rank path = tree'.items rank path := by
  induction h with
  | refl tree => rfl
  | symm _ ih => exact ih.symm
  | trans _ _ ih ih' => exact ih.trans ih'
  | height => rfl
  | left _ _ _ _ _ _ ih => unfold items; rw [ih]
  | right _ _ _ _ _ _ ih => unfold items; rw [ih]
  | turn => simp [items, List.append_assoc]

theorem full_iff : tree.Full ↔ tree'.Full := by
  induction h with
  | refl tree => exact Iff.rfl
  | symm _ ih => exact ih.symm
  | trans _ _ ih ih' => exact ih.trans ih'
  | height => exact Iff.rfl
  | left _ _ _ _ _ _ ih => unfold Full; rw [ih]
  | right _ _ _ _ _ _ ih => unfold Full; rw [ih]
  | turn =>
    constructor
    · rintro ⟨hentry, ha, hm, hentry', hb, hm', hc⟩
      exact ⟨hentry', ⟨hentry, ha, hm, hb⟩, hm', hc⟩
    · rintro ⟨hentry', ⟨hentry, ha, hm, hb⟩, hm', hc⟩
      exact ⟨hentry, ha, hm, hentry', hb, hm', hc⟩

theorem entries_eq : tree.entries = tree'.entries := by
  induction h with
  | refl tree => rfl
  | symm _ ih => exact ih.symm
  | trans _ _ ih ih' => exact ih.trans ih'
  | height => rfl
  | left _ _ _ _ _ _ ih => unfold entries; rw [ih]
  | right _ _ _ _ _ _ ih => unfold entries; rw [ih]
  | turn => simp [entries, List.append_assoc]

end

variable [LinearOrder ρ]

theorem ordered_iff (h : Rotated tree tree') : tree.Ordered rank path ↔ tree'.Ordered rank path := by
  induction h with
  | refl tree => exact Iff.rfl
  | symm _ ih => exact ih.symm
  | trans _ _ ih ih' => exact ih.trans ih'
  | height => exact Iff.rfl
  | left _ _ _ _ _ h ih => unfold Ordered; rw [ih, h.ranks_eq]
  | right _ _ _ _ _ h ih => unfold Ordered; rw [ih, h.ranks_eq]
  | turn h h' k k' segment segment' entry entry' a m b m' c =>
    simp only [Ordered, ranks, List.mem_append, List.mem_cons]
    constructor
    · rintro ⟨ha, hbc, hoa, hom, hb, hc, hob, hom', hoc⟩
      have hlt := hbc _ (.inr (.inl rfl))
      refine ⟨?_, hc, ⟨ha, fun x hx => hbc x (.inl hx), hoa, hom, hob⟩, hom', hoc⟩
      rintro x (hx | rfl | hx)
      · exact (ha x hx).trans hlt
      · exact hlt
      · exact hb x hx
    · rintro ⟨hab, hc, ⟨ha, hb, hoa, hom, hob⟩, hom', hoc⟩
      have hlt := hab _ (.inr (.inl rfl))
      refine ⟨ha, ?_, hoa, hom, fun x hx => hab x (.inr (.inr hx)), hc, hob, hom', hoc⟩
      rintro x (hx | rfl | hx)
      · exact hb x hx
      · exact hlt
      · exact hlt.trans (hc x hx)

theorem answers_iff (h : Rotated tree tree') {steps : List Step} :
    tree.Answers rank path steps ↔ tree'.Answers rank path steps := by
  induction h with
  | refl tree => exact Iff.rfl
  | symm _ ih => exact ih.symm
  | trans _ _ ih ih' => exact ih.trans ih'
  | height => cases steps <;> exact Iff.rfl
  | left _ _ _ _ _ _ ih =>
    cases steps with
    | nil => exact Iff.rfl
    | cons step steps => exact and_congr_right' (and_congr_left' ih)
  | right _ _ _ _ _ _ ih =>
    cases steps with
    | nil => exact Iff.rfl
    | cons step steps => exact and_congr_right' (and_congr_right' (and_congr_left' ih))
  | turn =>
    cases steps with
    | nil => exact Iff.rfl
    | cons step steps =>
      constructor
      · rintro ⟨hcmp, ha, ⟨hcmp', hb, hc, hm'⟩, hm⟩
        exact ⟨hcmp', ⟨hcmp, ha, hb, hm⟩, hc, hm'⟩
      · rintro ⟨hcmp', ⟨hcmp, ha, hb, hm⟩, hc, hm'⟩
        exact ⟨hcmp, ha, ⟨hcmp', hb, hc, hm'⟩, hm⟩

end Rotated

/-! ## Rotations -/

section Rotations

variable {K V : Type}

variable {tree tree' : Node K V}

theorem rotateLeft_rotated (h : tree.rotateLeft = some tree') : Rotated tree tree' := by
  unfold rotateLeft at h
  split at h
  · cases h
    exact Rotated.turn ..
  · cases h

theorem rotateRight_rotated (h : tree.rotateRight = some tree') : Rotated tree tree' := by
  unfold rotateRight at h
  split at h
  · cases h
    exact (Rotated.turn ..).symm
  · cases h

variable {right : Node K V}

theorem patch_rotated_right (h : Rotated (tree.child .right) right) :
    Rotated tree (tree.patch .right right) := by
  cases tree with
  | nil => exact .refl _
  | node => exact .right _ _ _ _ _ h

variable {left : Node K V}

theorem patch_rotated_left (h : Rotated (tree.child .left) left) :
    Rotated tree (tree.patch .left left) := by
  cases tree with
  | nil => exact .refl _
  | node => exact .left _ _ _ _ _ h

theorem doubleLeft_rotated
    (h : ((tree.child .right).rotateRight.bind fun right => (tree.patch .right right).rotateLeft) = some tree') :
    Rotated tree tree' := by
  obtain ⟨right, hright, hleft⟩ := Option.bind_eq_some_iff.mp h
  exact (patch_rotated_right (rotateRight_rotated hright)).trans (rotateLeft_rotated hleft)

theorem doubleRight_rotated
    (h : ((tree.child .left).rotateLeft.bind fun left => (tree.patch .left left).rotateRight) = some tree') :
    Rotated tree tree' := by
  obtain ⟨left, hleft, hright⟩ := Option.bind_eq_some_iff.mp h
  exact (patch_rotated_left (rotateLeft_rotated hleft)).trans (rotateRight_rotated hright)

theorem updateHeight_rotated (tree : Node K V) : Rotated tree tree.updateHeight := by
  cases tree with
  | nil => exact .refl _
  | node => exact .height ..

theorem rebalance_rotated {d1 : Dir} {d2 : Option Dir} (h : tree.rebalance d1 d2 = some tree') :
    Rotated tree tree' := by
  refine (updateHeight_rotated tree).trans ?_
  unfold rebalance at h
  dsimp only at h
  split at h
  · unfold rotate at h
    split at h
    · exact rotateLeft_rotated h
    · exact rotateRight_rotated h
    · exact doubleLeft_rotated h
    · exact doubleRight_rotated h
    · cases h
  · cases h
    exact .refl _

/-! ## Balance -/

theorem Balanced.height_nonneg (h : tree.Balanced) : 0 ≤ tree.height := by
  induction tree with
  | nil => exact Int.le_refl _
  | node height segment entry left mid right ihl ihm ihr =>
    obtain ⟨hheight, -, -, hleft, -, -⟩ := h
    have := ihl hleft
    show 0 ≤ height
    omega

/-- A child whose height was `old`: where it is higher now, it either is a new node or leans to the side of the change. -/
def Grown (old : Int) (tree : Node K V) (d : Option Dir) : Prop :=
  tree.height = old ∨ tree.height = old + 1 ∧
    (old = 0 ∨ d = some .right ∧ tree.balanceFactor = 1 ∨ d = some .left ∧ tree.balanceFactor = -1)

variable {segment : Segment} {entry : Option (K × V)} {mid : Node K V}

theorem rebalance_node {h : Int} {d1 : Dir} {d2 : Option Dir} :
    (node h segment entry left mid right).rebalance d1 d2 =
      if right.height - left.height < -1 ∨ right.height - left.height > 1 then
        (node (1 + max left.height right.height) segment entry left mid right).rotate d1 d2
      else some (node (1 + max left.height right.height) segment entry left mid right) := rfl

variable {d : Option Dir}

section

variable (hleft : left.Balanced) (hmid : mid.Balanced) (hright : right.Balanced)
include hleft hmid hright

theorem rebalance_right {h oldRight : Int} (hgrown : Grown oldRight right d) (hle : left.height ≤ oldRight + 1)
    (hle' : oldRight ≤ left.height + 1) :
    ∃ tree, (node h segment entry left mid right).rebalance .right d = some tree ∧ tree.Balanced ∧
      Grown (1 + max left.height oldRight) tree (some .right) := by
  have hpos := hleft.height_nonneg
  rw [rebalance_node]
  by_cases hbf : right.height - left.height < -1 ∨ right.height - left.height > 1
  · rw [if_pos hbf]
    obtain ⟨hhigh, holdHeight, hlean⟩ : right.height = left.height + 2 ∧ oldRight = left.height + 1 ∧
        (d = some .right ∧ right.balanceFactor = 1 ∨ d = some .left ∧ right.balanceFactor = -1) := by
      rcases hgrown with heq | ⟨heq, hlean⟩
      · omega
      · refine ⟨by omega, by omega, ?_⟩
        rcases hlean with hzero | hlean
        · omega
        · exact hlean
    clear hgrown hbf
    cases right with
    | nil =>
      change (0 : Int) = _ at hhigh
      omega
    | node h' segment' entry' a m b =>
      obtain ⟨hh, hab, hba, ha, hm, hb⟩ := hright
      change h' = _ at hhigh
      rcases hlean with ⟨rfl, hlean⟩ | ⟨rfl, hlean⟩
      · change b.height - a.height = 1 at hlean
        refine ⟨_, rfl, ⟨?_, ?_, ?_, ⟨rfl, by omega, by omega, hleft, hmid, ha⟩, hm, hb⟩, .inl ?_⟩
        · rfl
        · show 1 + max left.height a.height ≤ b.height + 1
          omega
        · show b.height ≤ 1 + max left.height a.height + 1
          omega
        · show 1 + max (1 + max left.height a.height) b.height = _
          omega
      · change b.height - a.height = -1 at hlean
        cases a with
        | nil =>
          change b.height - 0 = -1 at hlean
          omega
        | node h'' segment'' entry'' a' m' b' =>
          obtain ⟨hh', hab', hba', ha', hm', hb'⟩ := ha
          change b.height - h'' = -1 at hlean
          change h' = 1 + max h'' b.height at hh
          obtain ⟨hale, hble⟩ : a'.height ≤ left.height ∧ b'.height ≤ left.height := by
            omega
          refine ⟨_, rfl, ⟨rfl, ?_, ?_, ⟨rfl, by omega, by omega, hleft, hmid, ha'⟩, hm',
            ⟨rfl, by omega, by omega, hb', hm, hb⟩⟩, .inl ?_⟩
          · show 1 + max left.height a'.height ≤ 1 + max b'.height b.height + 1
            omega
          · show 1 + max b'.height b.height ≤ 1 + max left.height a'.height + 1
            omega
          · show 1 + max (1 + max left.height a'.height) (1 + max b'.height b.height) = _
            omega
  · rw [if_neg hbf]
    refine ⟨_, rfl, ⟨rfl, by omega, by omega, hleft, hmid, hright⟩, ?_⟩
    show 1 + max left.height right.height = _ ∨ 1 + max left.height right.height = _ ∧ (_ ∨ _ ∧ right.height - left.height = 1 ∨ _)
    rcases hgrown with heq | ⟨heq, -⟩
    · left
      rw [heq]
    · by_cases hmax : right.height ≤ max left.height oldRight
      · left
        omega
      · exact .inr ⟨by omega, .inr (.inl ⟨rfl, by omega⟩)⟩

theorem rebalance_left {h oldLeft : Int} (hgrown : Grown oldLeft left d) (hle : right.height ≤ oldLeft + 1)
    (hle' : oldLeft ≤ right.height + 1) :
    ∃ tree, (node h segment entry left mid right).rebalance .left d = some tree ∧ tree.Balanced ∧
      Grown (1 + max oldLeft right.height) tree (some .left) := by
  have hpos := hright.height_nonneg
  rw [rebalance_node]
  by_cases hbf : right.height - left.height < -1 ∨ right.height - left.height > 1
  · rw [if_pos hbf]
    obtain ⟨hhigh, holdHeight, hlean⟩ : left.height = right.height + 2 ∧ oldLeft = right.height + 1 ∧
        (d = some .right ∧ left.balanceFactor = 1 ∨ d = some .left ∧ left.balanceFactor = -1) := by
      rcases hgrown with heq | ⟨heq, hlean⟩
      · omega
      · refine ⟨by omega, by omega, ?_⟩
        rcases hlean with hzero | hlean
        · omega
        · exact hlean
    clear hgrown hbf
    cases left with
    | nil =>
      change (0 : Int) = _ at hhigh
      omega
    | node h' segment' entry' a m b =>
      obtain ⟨hh, hab, hba, ha, hm, hb⟩ := hleft
      change h' = _ at hhigh
      rcases hlean with ⟨rfl, hlean⟩ | ⟨rfl, hlean⟩
      · change b.height - a.height = 1 at hlean
        cases b with
        | nil =>
          change 0 - a.height = 1 at hlean
          omega
        | node h'' segment'' entry'' a' m' b' =>
          obtain ⟨hh', hab', hba', ha', hm', hb'⟩ := hb
          change h'' - a.height = 1 at hlean
          change h' = 1 + max a.height h'' at hh
          refine ⟨_, rfl, ⟨rfl, ?_, ?_, ⟨rfl, by omega, by omega, ha, hm, ha'⟩, hm',
            ⟨rfl, by omega, by omega, hb', hmid, hright⟩⟩, .inl ?_⟩
          · show 1 + max a.height a'.height ≤ 1 + max b'.height right.height + 1
            omega
          · show 1 + max b'.height right.height ≤ 1 + max a.height a'.height + 1
            omega
          · show 1 + max (1 + max a.height a'.height) (1 + max b'.height right.height) = _
            omega
      · change b.height - a.height = -1 at hlean
        refine ⟨_, rfl, ⟨rfl, ?_, ?_, ha, hm, ⟨rfl, by omega, by omega, hb, hmid, hright⟩⟩, .inl ?_⟩
        · show a.height ≤ 1 + max b.height right.height + 1
          omega
        · show 1 + max b.height right.height ≤ a.height + 1
          omega
        · show 1 + max a.height (1 + max b.height right.height) = _
          omega
  · rw [if_neg hbf]
    refine ⟨_, rfl, ⟨rfl, by omega, by omega, hleft, hmid, hright⟩, ?_⟩
    show 1 + max left.height right.height = _ ∨ 1 + max left.height right.height = _ ∧ (_ ∨ _ ∨ _ ∧ right.height - left.height = -1)
    rcases hgrown with heq | ⟨heq, -⟩
    · left
      rw [heq]
    · by_cases hmax : left.height ≤ max oldLeft right.height
      · left
        omega
      · exact .inr ⟨by omega, .inr (.inr ⟨rfl, by omega⟩)⟩

theorem rebalance_mid {h : Int} (hle : left.height ≤ right.height + 1) (hle' : right.height ≤ left.height + 1) :
    ∃ tree, (node h segment entry left mid right).rebalance .mid d = some tree ∧ tree.Balanced ∧
      Grown (1 + max left.height right.height) tree (some .mid) := by
  rw [rebalance_node]
  rw [if_neg (by omega)]
  exact ⟨_, rfl, ⟨rfl, hle, hle', hleft, hmid, hright⟩, .inl rfl⟩

end

end Rotations

end Node

end TongjiCode.SearchTree
