import TongjiCode.SearchTree.StoredEntries

/-!
# Deletion of longer keys

`deleteSuperstr` cuts off all children of the node of a key, and balances above it.  What remains is what was before and
after the node, and its own entry (`deleteSuperstr_entries`): the entries on its left and right go with those below it.
-/

open List

namespace TongjiCode.SearchTree

namespace Node

variable {K V : Type}

/-! ## Balancing -/

/-- No height is negative. -/
def Positive : Node K V → Prop
  | nil => True
  | node height _ _ left mid right => 0 ≤ height ∧ left.Positive ∧ mid.Positive ∧ right.Positive

variable {tree : Node K V}

theorem Positive.height_nonneg (h : tree.Positive) : 0 ≤ tree.height := by
  cases tree with
  | nil => exact Int.le_refl _
  | node => exact h.1

theorem Balanced.positive (h : tree.Balanced) : tree.Positive := by
  induction tree with
  | nil => trivial
  | node height segment value left mid right ihl ihm ihr =>
    have hpos := h.height_nonneg
    obtain ⟨-, -, -, hleft, hmid, hright⟩ := h
    exact ⟨hpos, ihl hleft, ihm hmid, ihr hright⟩

theorem Positive.child (h : tree.Positive) (dir : Dir) : (tree.child dir).Positive := by
  cases tree with
  | nil => trivial
  | node height segment value left mid right =>
    cases dir with
    | left => exact h.2.1
    | mid => exact h.2.2.1
    | right => exact h.2.2.2

theorem Positive.patch {tree child : Node K V} (h : tree.Positive) (hchild : child.Positive) (dir : Dir) :
    (tree.patch dir child).Positive := by
  cases tree with
  | nil => trivial
  | node height segment value left mid right =>
    obtain ⟨hpos, hleft, hmid, hright⟩ := h
    cases dir with
    | left => exact ⟨hpos, hchild, hmid, hright⟩
    | mid => exact ⟨hpos, hleft, hchild, hright⟩
    | right => exact ⟨hpos, hleft, hmid, hchild⟩

theorem Positive.updateHeight (h : tree.Positive) : tree.updateHeight.Positive := by
  cases tree with
  | nil => trivial
  | node height segment value left mid right =>
    obtain ⟨-, hleft, hmid, hright⟩ := h
    have hpos := hleft.height_nonneg
    exact ⟨by omega, hleft, hmid, hright⟩

theorem rotateLeft_positive (h : tree.Positive) (hright : tree.child .right ≠ nil) :
    ∃ tree', tree.rotateLeft = some tree' ∧ tree' ≠ nil ∧ tree'.Positive := by
  cases tree with
  | nil => exact absurd rfl hright
  | node height segment value left mid right =>
    cases right with
    | nil => exact absurd rfl hright
    | node height' segment' value' left' mid' right' =>
      obtain ⟨hpos, hleft, hmid, -, hleft', hmid', hright'⟩ := h
      have hlower : (node height segment value left mid left').Positive := ⟨hpos, hleft, hmid, hleft'⟩
      have hupper : (node 0 segment' value' (node height segment value left mid left').updateHeight mid' right').Positive :=
        ⟨Int.le_refl _, hlower.updateHeight, hmid', hright'⟩
      exact ⟨_, rfl, by simp [Node.updateHeight], hupper.updateHeight⟩

theorem rotateRight_positive (h : tree.Positive) (hleft : tree.child .left ≠ nil) :
    ∃ tree', tree.rotateRight = some tree' ∧ tree' ≠ nil ∧ tree'.Positive := by
  cases tree with
  | nil => exact absurd rfl hleft
  | node height segment value left mid right =>
    cases left with
    | nil => exact absurd rfl hleft
    | node height' segment' value' left' mid' right' =>
      obtain ⟨hpos, ⟨-, hleft', hmid', hright'⟩, hmid, hright⟩ := h
      have hlower : (node height segment value right' mid right).Positive := ⟨hpos, hright', hmid, hright⟩
      have hupper : (node 0 segment' value' left' mid' (node height segment value right' mid right).updateHeight).Positive :=
        ⟨Int.le_refl _, hleft', hmid', hlower.updateHeight⟩
      exact ⟨_, rfl, by simp [Node.updateHeight], hupper.updateHeight⟩

theorem child_patch {tree child : Node K V} (h : tree ≠ nil) (dir : Dir) : (tree.patch dir child).child dir = child := by
  cases tree with
  | nil => exact absurd rfl h
  | node => cases dir <;> rfl

theorem Positive.child_ne_nil (h : tree.Positive) :
    (0 < tree.balanceFactor → tree.child .right ≠ nil) ∧ (tree.balanceFactor < 0 → tree.child .left ≠ nil) := by
  cases tree with
  | nil => exact ⟨fun h => absurd h (Int.lt_irrefl 0), fun h => absurd h (Int.lt_irrefl 0)⟩
  | node height segment value left mid right =>
    have hl := h.2.1.height_nonneg
    have hr := h.2.2.2.height_nonneg
    refine ⟨fun hlean hnil => ?_, fun hlean hnil => ?_⟩
    · change right = nil at hnil
      subst hnil
      change 0 < 0 - left.height at hlean
      omega
    · change left = nil at hnil
      subst hnil
      change right.height - 0 < 0 at hlean
      omega

theorem ne_nil_of_child {dir : Dir} (h : tree.child dir ≠ nil) : tree ≠ nil := by
  rintro rfl
  exact h rfl

theorem rebalanceDeleted_rotated {tree tree' : Node K V} (h : tree.rebalanceDeleted = some tree') : Rotated tree tree' := by
  refine (updateHeight_rotated tree).trans ?_
  unfold rebalanceDeleted at h
  dsimp only at h
  split_ifs at h
  · exact rotateLeft_rotated h
  · exact doubleLeft_rotated h
  · exact rotateRight_rotated h
  · exact doubleRight_rotated h
  · cases h
    exact .refl _

/-- A turn of the balancing loop of `_delete` succeeds, however far the heights are apart. -/
theorem rebalanceDeleted_positive (h : tree.Positive) :
    ∃ tree', tree.rebalanceDeleted = some tree' ∧ tree'.Positive := by
  have hpos := h.updateHeight
  obtain ⟨hright, hleft⟩ := hpos.child_ne_nil
  unfold rebalanceDeleted
  dsimp only
  generalize tree.updateHeight = tree at *
  split_ifs with hr hrr hl hll
  · obtain ⟨tree', htree', -, hpos'⟩ := rotateLeft_positive hpos (hright (by omega))
    exact ⟨tree', htree', hpos'⟩
  · have hchild := hpos.child .right
    obtain ⟨right, hrotate, hne, hpos'⟩ := rotateRight_positive hchild (hchild.child_ne_nil.2 (by omega))
    have htree := ne_nil_of_child (hright (by omega))
    rw [hrotate, Option.bind_some]
    obtain ⟨tree', htree', -, hpos''⟩ := rotateLeft_positive (hpos.patch hpos' .right)
      (by rw [child_patch htree]; exact hne)
    exact ⟨tree', htree', hpos''⟩
  · obtain ⟨tree', htree', -, hpos'⟩ := rotateRight_positive hpos (hleft (by omega))
    exact ⟨tree', htree', hpos'⟩
  · have hchild := hpos.child .left
    obtain ⟨left, hrotate, hne, hpos'⟩ := rotateLeft_positive hchild (hchild.child_ne_nil.1 (by omega))
    have htree := ne_nil_of_child (hleft (by omega))
    rw [hrotate, Option.bind_some]
    obtain ⟨tree', htree', -, hpos''⟩ := rotateRight_positive (hpos.patch hpos' .left)
      (by rw [child_patch htree]; exact hne)
    exact ⟨tree', htree', hpos''⟩
  · exact ⟨tree, rfl, hpos⟩

/-! ## Entries around a place -/

/-- The entries of a node that come before those of a child. -/
def before : Node K V → Dir → List (K × V)
  | nil, _ => []
  | node .., .left => []
  | node _ _ entry left _ _, .mid => left.entries ++ entry.toList
  | node _ _ entry left mid _, .right => left.entries ++ entry.toList ++ mid.entries

/-- The entries of a node that come after those of a child. -/
def after : Node K V → Dir → List (K × V)
  | nil, _ => []
  | node _ _ entry _ mid right, .left => entry.toList ++ mid.entries ++ right.entries
  | node _ _ _ _ _ right, .mid => right.entries
  | node .., .right => []

theorem entries_patch (h : tree ≠ nil) (dir : Dir) (child : Node K V) :
    (tree.patch dir child).entries = tree.before dir ++ child.entries ++ tree.after dir := by
  cases tree with
  | nil => exact absurd rfl h
  | node => cases dir <;> simp [patch, entries, before, after]

/-- The entries around the place that a stack leads to, when those in it are given. -/
def surround (inside : List (K × V)) : List (Dir × Node K V) → List (K × V)
  | [] => inside
  | (dir, above) :: stack => surround (above.before dir ++ inside ++ above.after dir) stack

/-- A stack of nodes without negative heights. -/
def StackOk (stack : List (Dir × Node K V)) : Prop := ∀ frame ∈ stack, frame.2 ≠ nil ∧ frame.2.Positive

theorem balanceDeleted_spec (stack : List (Dir × Node K V)) : ∀ child : Node K V, child.Positive → StackOk stack →
    ∃ tree, balanceDeleted child stack = some tree ∧ tree.entries = surround child.entries stack := by
  induction stack with
  | nil => exact fun child _ _ => ⟨child, rfl, rfl⟩
  | cons frame stack ih =>
    intro child hchild hstack
    obtain ⟨dir, above⟩ := frame
    obtain ⟨hne, hpos⟩ := hstack _ mem_cons_self
    obtain ⟨root, hroot, hrootPos⟩ := rebalanceDeleted_positive (hpos.patch hchild dir)
    obtain ⟨tree, htree, hentries⟩ := ih root hrootPos fun frame hframe => hstack frame (mem_cons_of_mem _ hframe)
    refine ⟨tree, ?_, ?_⟩
    · unfold balanceDeleted
      rw [hroot]
      exact htree
    · rw [hentries, ← (rebalanceDeleted_rotated hroot).entries_eq, entries_patch hne]
      rfl

/-- The search of `_delete` finds what `_getNode` finds, and keeps the way to it. -/
theorem findDeleteNode_spec (tree : Node K V) : ∀ (step : Step) (steps : List Step) (stack : List (Dir × Node K V))
    {found : Node K V}, tree.getNode step steps = some found → tree.Positive → StackOk stack →
    ∃ stack', tree.findDeleteNode step steps stack = some (found, stack') ∧ found.Positive ∧ StackOk stack' ∧
      surround tree.entries stack = surround found.entries stack' := by
  induction tree with
  | nil =>
    intro step steps stack found hfound hpos hstack
    cases hfound
    exact ⟨stack, rfl, trivial, hstack, rfl⟩
  | node height segment value left mid right ihl ihm ihr =>
    intro step steps stack found hfound hpos hstack
    have hpush : ∀ dir, StackOk ((dir, node height segment value left mid right) :: stack) := by
      intro dir frame hframe
      rcases mem_cons.mp hframe with rfl | hframe
      · exact ⟨by simp, hpos⟩
      · exact hstack frame hframe
    have hsurround : ∀ dir child, (node height segment value left mid right).child dir = child →
        surround (node height segment value left mid right).entries stack =
          surround child.entries ((dir, node height segment value left mid right) :: stack) := by
      rintro dir child rfl
      have hpatch := entries_patch (by simp : node height segment value left mid right ≠ nil) dir
        ((node height segment value left mid right).child dir)
      show _ = surround (_ ++ _ ++ _) stack
      rw [← hpatch]
      cases dir <;> rfl
    unfold getNode at hfound
    unfold findDeleteNode
    rcases hcmp : step.cmp segment with _ | _ | _ | _
    · rw [hcmp] at hfound
      cases hfound
    · rw [hcmp] at hfound
      rw [hsurround .right right rfl]
      exact ihr step steps _ hfound hpos.2.2.2 (hpush .right)
    · rw [hcmp] at hfound
      cases steps with
      | nil =>
        cases hfound
        exact ⟨stack, rfl, hpos, hstack, rfl⟩
      | cons next steps =>
        exact ihm next steps _ hfound hpos.2.2.1 (hpush .mid)
    · rw [hcmp] at hfound
      rw [hsurround .left left rfl]
      exact ihl step steps _ hfound hpos.2.1 (hpush .left)

theorem surround_eq (stack : List (Dir × Node K V)) :
    ∃ earlier later, ∀ inside, surround inside stack = earlier ++ inside ++ later := by
  induction stack with
  | nil => exact ⟨[], [], fun inside => by simp [surround]⟩
  | cons frame stack ih =>
    obtain ⟨earlier, later, h⟩ := ih
    refine ⟨earlier ++ frame.2.before frame.1, frame.2.after frame.1 ++ later, fun inside => ?_⟩
    show surround (_ ++ inside ++ _) stack = _
    rw [h]
    simp

def own : Node K V → List (K × V)
  | nil => []
  | node _ _ entry _ _ _ => entry.toList

theorem entries_own (tree : Node K V) :
    tree.entries = (tree.child .left).entries ++ tree.own ++ (tree.child .mid).entries ++ (tree.child .right).entries := by
  cases tree <;> rfl

theorem removeChildren_spec (tree : Node K V) : tree.removeChildren.entries = tree.own ∧ tree.removeChildren.Positive := by
  cases tree with
  | nil => exact ⟨rfl, trivial⟩
  | node height segment value left mid right =>
    cases value with
    | none => exact ⟨rfl, trivial⟩
    | some entry => exact ⟨rfl, Int.zero_le_ofNat 1, trivial, trivial, trivial⟩

/-- `deleteSuperstr` keeps the entry of the found node and all that is around the node. -/
theorem deleteSuperstr_entries {tree found : Node K V} {step : Step} {steps : List Step} (hpos : tree.Positive)
    (hfound : tree.getNode step steps = some found) :
    ∃ tree' earlier later, tree.deleteSuperstr step steps = some tree' ∧
      tree.entries = earlier ++ found.entries ++ later ∧ tree'.entries = earlier ++ found.own ++ later := by
  obtain ⟨stack, hfind, -, hstack, hentries⟩ := findDeleteNode_spec tree step steps [] hfound hpos fun _ h => (nomatch h)
  obtain ⟨earlier, later, hsurround⟩ := surround_eq stack
  rw [hsurround] at hentries
  unfold deleteSuperstr
  rw [hfind, Option.bind_some]
  cases found with
  | nil => exact ⟨tree, earlier, later, rfl, hentries, hentries⟩
  | node height segment value left mid right =>
    obtain ⟨hremoved, hremovedPos⟩ := removeChildren_spec (node height segment value left mid right)
    obtain ⟨tree', htree', hentries'⟩ := balanceDeleted_spec stack _ hremovedPos hstack
    refine ⟨tree', earlier, later, htree', hentries, ?_⟩
    rw [hentries', hsurround, hremoved]

/-- When the entries to be left out are those below a node, what is kept is right if and only if the node has no entries
on its left or right. -/
theorem kept_iff {α : Type} {p : α → Bool} {earlier left own mid right later : List α}
    (h : (earlier ++ (left ++ own ++ mid ++ right) ++ later).filter p = mid) :
    earlier ++ own ++ later = (earlier ++ (left ++ own ++ mid ++ right) ++ later).filter (fun a => !p a) ↔
      left = [] ∧ right = [] := by
  have hmid : mid.filter p = mid := by
    rw [filter_eq_self]
    intro a ha
    rw [← h] at ha
    exact (mem_filter.mp ha).2
  have hlength := congrArg List.length h
  simp only [filter_append, length_append, hmid] at hlength
  have hnone : ∀ l : List α, (l.filter p).length = 0 → l.filter (fun a => !p a) = l := by
    intro l hl
    rw [filter_eq_self]
    intro a ha
    have hnil := filter_eq_nil_iff.mp (length_eq_zero_iff.mp hl) a ha
    simpa using hnil
  have hmid' : mid.filter (fun a => !p a) = [] := by
    rw [filter_eq_nil_iff]
    intro a ha
    simp [filter_eq_self.mp hmid a ha]
  simp only [filter_append, hmid']
  rw [hnone earlier (by omega), hnone left (by omega), hnone own (by omega), hnone right (by omega), hnone later (by omega)]
  constructor
  · intro heq
    have hsame := congrArg List.length heq
    simp only [length_append, length_nil] at hsame
    exact ⟨length_eq_zero_iff.mp (by omega), length_eq_zero_iff.mp (by omega)⟩
  · rintro ⟨rfl, rfl⟩
    simp

end Node

end TongjiCode.SearchTree
