import Mathlib.Data.List.Induction
import TongjiCode.IndexTree.VisibleChildren

/-!
# Counts and indices of visible children

A node is right when it counts its visible children and these have the indices 0, 1, 2, … in their order, and so for
all nodes below (`Right`).  New and newly filtered nodes are right, collapse updates change nothing of it, and a splice
keeps it exactly when it fits (`spliceSimple_right_iff`).  So all nodes are right in every run whose splices fit
(`visible_children_counted`).
-/

open List

namespace TongjiCode.IndexTree.VisibleChildren

variable {T : Type}

def visibleIndices (nodes : List (TreeNode T)) : List Int :=
  (nodes.filter TreeNode.visible).map TreeNode.visibleChildIndex

def indicesFrom (start : Int) (n : Nat) : List Int := (List.range n).map fun i : Nat => start + (i : Int)

mutual

def TreeNode.Right : TreeNode T → Prop
  | .mk _ _ _ _ _ visibleChildrenCount _ children =>
    visibleChildrenCount = countVisible children ∧
      visibleIndices children = indicesFrom 0 (children.countP TreeNode.visible) ∧ AllRight children

def AllRight : List (TreeNode T) → Prop
  | [] => True
  | node :: nodes => node.Right ∧ AllRight nodes

end

/-! ## Indices -/

@[simp] theorem allRight_nil : AllRight ([] : List (TreeNode T)) := by
  trivial

@[simp] theorem allRight_cons {node : TreeNode T} {nodes : List (TreeNode T)} :
    AllRight (node :: nodes) ↔ node.Right ∧ AllRight nodes := Iff.rfl

theorem allRight_iff (nodes : List (TreeNode T)) : AllRight nodes ↔ ∀ node ∈ nodes, node.Right := by
  induction nodes with
  | nil => simp
  | cons node nodes ih => simp [ih]

theorem right_iff (node : TreeNode T) : node.Right ↔
    node.visibleChildrenCount = countVisible node.children ∧
      visibleIndices node.children = indicesFrom 0 (node.children.countP TreeNode.visible) ∧ AllRight node.children := by
  cases node
  rfl

@[simp] theorem visibleIndices_nil : visibleIndices ([] : List (TreeNode T)) = [] := rfl

theorem visibleIndices_cons (node : TreeNode T) (nodes : List (TreeNode T)) : visibleIndices (node :: nodes) =
    if node.visible then node.visibleChildIndex :: visibleIndices nodes else visibleIndices nodes := by
  unfold visibleIndices
  split
  · next h => rw [filter_cons_of_pos h, map_cons]
  · next h => rw [filter_cons_of_neg h]

@[simp] theorem visibleIndices_append (nodes others : List (TreeNode T)) :
    visibleIndices (nodes ++ others) = visibleIndices nodes ++ visibleIndices others := by
  simp [visibleIndices]

theorem visibleIndices_length (nodes : List (TreeNode T)) :
    (visibleIndices nodes).length = nodes.countP TreeNode.visible := by
  rw [visibleIndices, length_map, countP_eq_length_filter]

variable (start : Int)

@[simp] theorem indicesFrom_zero : indicesFrom start 0 = [] := rfl

@[simp] theorem indicesFrom_length (n : Nat) : (indicesFrom start n).length = n := by
  simp [indicesFrom]

theorem indicesFrom_succ (n : Nat) : indicesFrom start (n + 1) = start :: indicesFrom (start + 1) n := by
  rw [indicesFrom, indicesFrom, range_succ_eq_map, map_cons, map_map]
  congr 1
  · simp
  · apply map_congr_left
    intro i _
    simp only [Function.comp_apply]
    omega

theorem indicesFrom_add (m n : Nat) :
    indicesFrom start (m + n) = indicesFrom start m ++ indicesFrom (start + m) n := by
  induction m generalizing start with
  | zero => simp
  | succ m ih =>
    have hadd : m + 1 + n = m + n + 1 := by omega
    have hstart : start + 1 + (m : Int) = start + ((m + 1 : Nat) : Int) := by omega
    rw [hadd, indicesFrom_succ, indicesFrom_succ, ih, hstart, cons_append]

variable {n : Nat}

theorem indicesFrom_inj {a b : Int} (h : indicesFrom a n = indicesFrom b n) (hn : n ≠ 0) : a = b := by
  obtain ⟨m, rfl⟩ := Nat.exists_eq_succ_of_ne_zero hn
  rw [Nat.succ_eq_add_one, indicesFrom_succ, indicesFrom_succ, List.cons.injEq] at h
  exact h.1

/-! ## Numbering -/

@[simp] theorem withIndex_visible (node : TreeNode T) (i : Int) : (node.withIndex i).visible = node.visible := by
  cases node
  rfl

@[simp] theorem withIndex_index (node : TreeNode T) (i : Int) : (node.withIndex i).visibleChildIndex = i := by
  cases node
  rfl

variable {node : TreeNode T}

theorem withIndex_right (i : Int) : (node.withIndex i).Right ↔ node.Right := by
  cases node
  rfl

theorem countP_numberVisible (next : Int) (nodes : List (TreeNode T)) :
    (numberVisible next nodes).countP TreeNode.visible = nodes.countP TreeNode.visible := by
  induction nodes generalizing next with
  | nil => simp
  | cons node nodes ih =>
    rw [numberVisible]
    split
    · next h => rw [countP_cons, countP_cons, ih, withIndex_visible]
    · rw [countP_cons, countP_cons, ih]

theorem visibleIndices_numberVisible (next : Int) (nodes : List (TreeNode T)) :
    visibleIndices (numberVisible next nodes) = indicesFrom next (nodes.countP TreeNode.visible) := by
  induction nodes generalizing next with
  | nil => simp
  | cons node nodes ih =>
    rw [numberVisible]
    split
    · next h =>
      rw [visibleIndices_cons, withIndex_visible, if_pos h, withIndex_index, ih, countP_cons_of_pos h,
        indicesFrom_succ]
    · next h => rw [visibleIndices_cons, if_neg h, ih, countP_cons_of_neg h]

variable {nodes : List (TreeNode T)}

theorem numberVisible_allRight {next : Int} (h : AllRight nodes) :
    AllRight (numberVisible next nodes) := by
  induction nodes generalizing next with
  | nil => simp
  | cons node nodes ih =>
    rw [numberVisible]
    split
    · rw [allRight_cons]
      exact ⟨(withIndex_right next).mpr h.1, ih h.2⟩
    · rw [allRight_cons]
      exact ⟨h.1, ih h.2⟩

theorem numbered_right (h : AllRight nodes) (element : T) (collapsible collapsed : Bool) (visibility : TreeVisibility)
    (visible : Bool) (visibleChildIndex : Int) :
    (TreeNode.mk element collapsible collapsed visibility visible (countVisible (numberVisible 0 nodes))
      visibleChildIndex (numberVisible 0 nodes)).Right := by
  refine ⟨rfl, ?_, numberVisible_allRight h⟩
  rw [visibleIndices_numberVisible, countP_numberVisible]

/-! ## New nodes and filter changes -/

variable {root : TreeNode T}

section Filter

variable (filter : Filter T) (options : Options)

mutual

theorem createTreeNode_right (parentVisibility : TreeVisibility) (element : ITreeElement T) :
    (createTreeNode filter options parentVisibility element).Right := by
  cases element with
  | mk element collapsible collapsed childElements =>
    exact numbered_right (createTreeNodes_right _ childElements) _ _ _ _ _ _

theorem createTreeNodes_right (parentVisibility : TreeVisibility) (elements : List (ITreeElement T)) :
    AllRight (createTreeNodes filter options parentVisibility elements) := by
  cases elements with
  | nil =>
    exact allRight_nil
  | cons element elements =>
    exact ⟨createTreeNode_right parentVisibility element, createTreeNodes_right parentVisibility elements⟩

end

mutual

theorem updateNodeAfterFilterChange_right (parentVisibility : Option TreeVisibility) (node : TreeNode T)
    (h : node.Right) : (updateNodeAfterFilterChange filter parentVisibility node).Right := by
  cases node with
  | mk element collapsible collapsed visibility visible count index children =>
    rw [updateNodeAfterFilterChange]
    split
    · exact h
    · exact numbered_right (updateNodesAfterFilterChange_right _ children h.2.2) _ _ _ _ _ _

theorem updateNodesAfterFilterChange_right (parentVisibility : Option TreeVisibility) (nodes : List (TreeNode T))
    (h : AllRight nodes) : AllRight (updateNodesAfterFilterChange filter parentVisibility nodes) := by
  cases nodes with
  | nil =>
    exact allRight_nil
  | cons node nodes =>
    exact ⟨updateNodeAfterFilterChange_right parentVisibility node h.1,
      updateNodesAfterFilterChange_right parentVisibility nodes h.2⟩

end

theorem refilter_right (h : root.Right) : (refilter filter root).Right := by
  cases root with
  | mk element collapsible collapsed visibility visible count index children =>
    exact numbered_right (updateNodesAfterFilterChange_right filter none children h.2.2) _ _ _ _ _ _

end Filter

/-! ## Collapse updates -/

def TreeNode.mark (node : TreeNode T) : Bool × Int := (node.visible, node.visibleChildIndex)

theorem marks_congr {nodes others : List (TreeNode T)} (h : nodes.map TreeNode.mark = others.map TreeNode.mark) :
    visibleIndices nodes = visibleIndices others ∧
      nodes.countP TreeNode.visible = others.countP TreeNode.visible := by
  induction nodes generalizing others with
  | nil =>
    cases others with
    | nil => exact ⟨rfl, rfl⟩
    | cons other others => simp at h
  | cons node nodes ih =>
    cases others with
    | nil => simp at h
    | cons other others =>
      rw [map_cons, map_cons, List.cons.injEq] at h
      obtain ⟨hmark, hrest⟩ := h
      obtain ⟨hindices, hcount⟩ := ih hrest
      have hvisible : node.visible = other.visible := congrArg Prod.fst hmark
      have hindex : node.visibleChildIndex = other.visibleChildIndex := congrArg Prod.snd hmark
      rw [visibleIndices_cons, visibleIndices_cons, countP_cons, countP_cons, hindices, hcount, hvisible,
        hindex]
      exact ⟨rfl, rfl⟩

theorem right_of_marks {children children' : List (TreeNode T)}
    (hmarks : children'.map TreeNode.mark = children.map TreeNode.mark) (hall : AllRight children') {count : Int}
    (hcount : count = countVisible children)
    (hindices : visibleIndices children = indicesFrom 0 (children.countP TreeNode.visible)) (element : T)
    (collapsible collapsed : Bool) (visibility : TreeVisibility) (visible : Bool) (index : Int) :
    (TreeNode.mk element collapsible collapsed visibility visible count index children').Right := by
  obtain ⟨hindices', hcount'⟩ := marks_congr hmarks
  refine ⟨?_, ?_, hall⟩
  · rw [hcount, countVisible, countVisible, hcount']
  · rw [hindices', hcount', hindices]

mutual

theorem setNodeCollapseState_right (update : CollapseStateUpdate) (node : TreeNode T) (h : node.Right) :
    (setNodeCollapseState update node).Right ∧ (setNodeCollapseState update node).mark = node.mark := by
  cases node with
  | mk element collapsible collapsed visibility visible count index children =>
    obtain ⟨hcount, hindices, hall⟩ := h
    obtain ⟨hall', hmarks⟩ := setNodesCollapseState_right update children hall
    rw [setNodeCollapseState]
    dsimp only
    split
    · exact ⟨right_of_marks hmarks hall' hcount hindices _ _ _ _ _ _, rfl⟩
    · exact ⟨right_of_marks rfl hall hcount hindices _ _ _ _ _ _, rfl⟩

theorem setNodesCollapseState_right (update : CollapseStateUpdate) (nodes : List (TreeNode T)) (h : AllRight nodes) :
    AllRight (setNodesCollapseState update nodes) ∧
      (setNodesCollapseState update nodes).map TreeNode.mark = nodes.map TreeNode.mark := by
  cases nodes with
  | nil =>
    exact ⟨allRight_nil, rfl⟩
  | cons node nodes =>
    obtain ⟨hnode, hmark⟩ := setNodeCollapseState_right update node h.1
    obtain ⟨hnodes, hmarks⟩ := setNodesCollapseState_right update nodes h.2
    rw [setNodesCollapseState, allRight_cons, map_cons, map_cons, hmark, hmarks]
    exact ⟨⟨hnode, hnodes⟩, rfl⟩

end

mutual

theorem setOwnCollapseState_right (options : Options) (update : CollapseStateUpdate) (node : TreeNode T)
    (h : node.Right) :
    (setOwnCollapseState options update node).Right ∧ (setOwnCollapseState options update node).mark = node.mark := by
  cases node with
  | mk element collapsible collapsed visibility visible count index children =>
    obtain ⟨hcount, hindices, hall⟩ := h
    obtain ⟨hall', hmarks⟩ := setVisibleCollapseStates_right options update children hall
    have hboth : ∀ (expands isCollapsible isCollapsed : Bool),
        (TreeNode.mk element isCollapsible isCollapsed visibility visible count index
          (if expands then setVisibleCollapseStates options update children else children)).Right := by
      intro expands isCollapsible isCollapsed
      cases expands with
      | true => exact right_of_marks hmarks hall' hcount hindices _ _ _ _ _ _
      | false => exact right_of_marks rfl hall hcount hindices _ _ _ _ _ _
    exact ⟨hboth _ _ _, rfl⟩

theorem setVisibleCollapseStates_right (options : Options) (update : CollapseStateUpdate) (nodes : List (TreeNode T))
    (h : AllRight nodes) :
    AllRight (setVisibleCollapseStates options update nodes) ∧
      (setVisibleCollapseStates options update nodes).map TreeNode.mark = nodes.map TreeNode.mark := by
  cases nodes with
  | nil =>
    exact ⟨allRight_nil, rfl⟩
  | cons node nodes =>
    obtain ⟨hnode, hmark⟩ := setOwnCollapseState_right options update node h.1
    obtain ⟨hnodes, hmarks⟩ := setVisibleCollapseStates_right options update nodes h.2
    rw [setVisibleCollapseStates, allRight_cons, map_cons, map_cons, hmarks]
    split
    · rw [hmark]
      exact ⟨⟨hnode, hnodes⟩, rfl⟩
    · exact ⟨⟨h.1, hnodes⟩, rfl⟩

end

theorem setCollapseState_right (options : Options) (update : CollapseStateUpdate) (isRoot : Bool) (h : node.Right) :
    (setCollapseState options update isRoot node).Right ∧
      (setCollapseState options update isRoot node).mark = node.mark := by
  unfold setCollapseState
  split
  · split
    · cases node with
      | mk element collapsible collapsed visibility visible count index children =>
        obtain ⟨hall, hmarks⟩ := setNodesCollapseState_right _ children h.2.2
        exact ⟨right_of_marks hmarks hall h.1 h.2.1 _ _ _ _ _ _, rfl⟩
    · exact setNodeCollapseState_right _ node h
  · split
    · exact ⟨h, rfl⟩
    · exact setOwnCollapseState_right options update node h

/-! ## Splicing -/

/-- No node that is put in is visible, or no visible child comes behind and the splice point tells how many come before:
there is none, or the child there is visible. -/
def SpliceFits (children : List (TreeNode T)) (lastIndex deleteCount : Nat) (nodes : List (TreeNode T)) : Prop :=
  (∃ node ∈ nodes, node.visible = true) →
    (∀ child ∈ children.drop (lastIndex + deleteCount), child.visible = false) ∧
      ((∀ child ∈ children.take lastIndex, child.visible = false) ∨
        ∃ child, children[lastIndex]? = some child ∧ child.visible = true)

theorem countP_eq_zero_iff (nodes : List (TreeNode T)) :
    nodes.countP TreeNode.visible = 0 ↔ ∀ node ∈ nodes, node.visible = false := by
  simp

variable {children : List (TreeNode T)}

theorem last_visible_index (h : visibleIndices children = indicesFrom 0 (children.countP TreeNode.visible)) :
    match children.reverse.find? TreeNode.visible with
    | some child => child.visibleChildIndex + 1 = children.countP TreeNode.visible
    | none => children.countP TreeNode.visible = 0 := by
  induction children using reverseRecOn with
  | nil => simp
  | append_singleton children child ih =>
    rw [reverse_append, reverse_singleton, singleton_append]
    by_cases hvisible : child.visible = true
    · rw [find?_cons_of_pos hvisible]
      rw [visibleIndices_append, visibleIndices_cons, if_pos hvisible, visibleIndices_nil, countP_append,
        countP_cons_of_pos hvisible, countP_nil, indicesFrom_add] at h
      have hlast := append_inj_right h (by rw [visibleIndices_length, indicesFrom_length])
      rw [indicesFrom_succ, List.cons.injEq] at hlast
      rw [countP_append, countP_cons_of_pos hvisible, countP_nil]
      omega
    · rw [find?_cons_of_neg hvisible]
      rw [visibleIndices_append, visibleIndices_cons, if_neg hvisible, visibleIndices_nil, append_nil,
        countP_append, countP_cons_of_neg hvisible, countP_nil, Nat.add_zero] at h
      have := ih h
      rw [countP_append, countP_cons_of_neg hvisible, countP_nil, Nat.add_zero]
      exact this

theorem indices_split {before deleted after : List (TreeNode T)}
    (h : visibleIndices (before ++ deleted ++ after) =
      indicesFrom 0 ((before ++ deleted ++ after).countP TreeNode.visible)) :
    visibleIndices before = indicesFrom 0 (before.countP TreeNode.visible) ∧
      visibleIndices deleted = indicesFrom (before.countP TreeNode.visible) (deleted.countP TreeNode.visible) ∧
      visibleIndices after = indicesFrom (before.countP TreeNode.visible + deleted.countP TreeNode.visible)
        (after.countP TreeNode.visible) := by
  rw [visibleIndices_append, visibleIndices_append, countP_append, countP_append, indicesFrom_add,
    indicesFrom_add] at h
  have hboth := append_inj_left h (by simp [visibleIndices_length])
  have hafter := append_inj_right h (by simp [visibleIndices_length])
  have hbefore := append_inj_left hboth (by simp [visibleIndices_length])
  have hdeleted := append_inj_right hboth (by simp [visibleIndices_length])
  rw [Int.zero_add] at hdeleted
  refine ⟨hbefore, hdeleted, ?_⟩
  rw [hafter]
  congr 1
  omega

variable {lastIndex : Nat}

/-- Where the scan ends: at the number of visible children before the splice point, exactly when this is 0 or the child
at the splice point is visible. -/
theorem visibleChildStartIndex_iff (h : visibleIndices children = indicesFrom 0 (children.countP TreeNode.visible))
    (hle : lastIndex ≤ children.length) :
    visibleChildStartIndex children lastIndex = ((children.take lastIndex).countP TreeNode.visible : Int) ↔
      (∀ child ∈ children.take lastIndex, child.visible = false) ∨
        ∃ child, children[lastIndex]? = some child ∧ child.visible = true := by
  rw [visibleChildStartIndex, ← countP_eq_zero_iff]
  by_cases hlt : lastIndex < children.length
  · have hsplit : children = children.take (lastIndex + 1) ++ [] ++ children.drop (lastIndex + 1) := by simp
    have hfront : visibleIndices (children.take (lastIndex + 1)) =
        indicesFrom 0 ((children.take (lastIndex + 1)).countP TreeNode.visible) := by
      rw [hsplit] at h
      exact (indices_split h).1
    have hlast := last_visible_index hfront
    have htake : children.take (lastIndex + 1) = children.take lastIndex ++ [children[lastIndex]] :=
      take_succ_eq_append_getElem hlt
    have hget : children[lastIndex]? = some children[lastIndex] := getElem?_eq_getElem hlt
    rw [if_pos hlt, hget]
    rw [htake, countP_append, countP_singleton] at hlast
    rw [htake]
    by_cases hvisible : children[lastIndex].visible = true
    · rw [if_pos hvisible, reverse_append, reverse_singleton, singleton_append,
        find?_cons_of_pos hvisible] at hlast
      rw [reverse_append, reverse_singleton, singleton_append, find?_cons_of_pos hvisible]
      dsimp only at hlast ⊢
      constructor
      · intro _
        exact .inr ⟨_, rfl, hvisible⟩
      · intro _
        omega
    · have hno : ¬ ∃ child, some children[lastIndex] = some child ∧ child.visible = true := by
        rintro ⟨child, heq, hchild⟩
        rw [Option.some.injEq] at heq
        rw [← heq] at hchild
        exact hvisible hchild
      rw [if_neg hvisible, Nat.add_zero] at hlast
      constructor
      · intro heq
        split at heq
        · next child hfind =>
          rw [hfind] at hlast
          omega
        · exact .inl (by omega)
      · rintro (hzero | hchild)
        · split
          · next child hfind =>
            rw [hfind] at hlast
            -- the index of a visible child is not negative
            have hmem : child.visibleChildIndex ∈ visibleIndices (children.take (lastIndex + 1)) := by
              rw [htake, visibleIndices]
              refine mem_map_of_mem (mem_filter.mpr ⟨?_, find?_some hfind⟩)
              exact mem_reverse.mp (mem_of_find?_eq_some hfind)
            rw [hfront] at hmem
            unfold indicesFrom at hmem
            simp only [mem_map] at hmem
            omega
          · omega
        · exact absurd hchild hno
  · have heq : lastIndex = children.length := by omega
    rw [if_neg hlt]
    subst heq
    rw [take_length, getElem?_eq_none (Nat.le_refl _)]
    constructor
    · intro hzero
      exact .inl (by omega)
    · rintro (hzero | ⟨child, hchild, -⟩)
      · rw [hzero]
        rfl
      · cases hchild

theorem lowered_visible (deleted : Int) (child : TreeNode T) : (lowered deleted child).visible = child.visible := by
  rw [lowered]
  split
  · exact withIndex_visible child _
  · rfl

theorem lowered_allRight {deleted : Int} (h : AllRight nodes) :
    AllRight (nodes.map (lowered deleted)) := by
  rw [allRight_iff] at h ⊢
  intro node hnode
  obtain ⟨child, hchild, rfl⟩ := mem_map.mp hnode
  rw [lowered]
  split
  · exact (withIndex_right _).mpr (h child hchild)
  · exact h child hchild

theorem lowered_indices (deleted start : Int) (nodes : List (TreeNode T))
    (h : visibleIndices nodes = indicesFrom (start + deleted) n) :
    visibleIndices (nodes.map (lowered deleted)) = indicesFrom start n ∧
      (nodes.map (lowered deleted)).countP TreeNode.visible = nodes.countP TreeNode.visible := by
  induction nodes generalizing start n with
  | nil =>
    have hn : n = 0 := by
      have := congrArg List.length h
      simpa using this.symm
    subst hn
    exact ⟨rfl, rfl⟩
  | cons node nodes ih =>
    rw [visibleIndices_cons] at h
    rw [map_cons, visibleIndices_cons, countP_cons, countP_cons, lowered_visible]
    by_cases hvisible : node.visible = true
    · rw [if_pos hvisible] at h
      cases n with
      | zero => simp at h
      | succ n =>
        rw [indicesFrom_succ, List.cons.injEq] at h
        have hnext : start + deleted + 1 = start + 1 + deleted := by omega
        rw [hnext] at h
        obtain ⟨hindices, hcount⟩ := ih (start + 1) h.2
        rw [if_pos hvisible, if_pos hvisible, hindices, hcount, indicesFrom_succ, lowered, if_pos hvisible,
          withIndex_index, h.1]
        refine ⟨?_, rfl⟩
        congr 1
        omega
    · rw [if_neg hvisible] at h
      obtain ⟨hindices, hcount⟩ := ih start h
      rw [if_neg hvisible, hcount]
      exact ⟨hindices, rfl⟩

/-- The children behind the splice point, numbered anew. -/
def behind (children : List (TreeNode T)) (lastIndex deleteCount : Nat) : List (TreeNode T) :=
  if countVisible ((children.drop lastIndex).take deleteCount) ≠ 0 then
    (children.drop (lastIndex + deleteCount)).map (lowered (countVisible ((children.drop lastIndex).take deleteCount)))
  else children.drop (lastIndex + deleteCount)

theorem spliceChildren_eq (children nodes : List (TreeNode T)) (lastIndex deleteCount : Nat) :
    spliceChildren children lastIndex deleteCount nodes = children.take lastIndex ++
      numberVisible (visibleChildStartIndex children lastIndex) nodes ++ behind children lastIndex deleteCount :=
  rfl

theorem splice_split (children : List (TreeNode T)) (lastIndex deleteCount : Nat) :
    children = children.take lastIndex ++ (children.drop lastIndex).take deleteCount ++
      children.drop (lastIndex + deleteCount) := by
  rw [append_assoc, ← drop_drop, take_append_drop, take_append_drop]

theorem behind_count (children : List (TreeNode T)) (lastIndex deleteCount : Nat) :
    (behind children lastIndex deleteCount).countP TreeNode.visible =
      (children.drop (lastIndex + deleteCount)).countP TreeNode.visible := by
  unfold behind
  split
  · rw [countP_map]
    congr 1
    funext child
    exact lowered_visible _ child
  · rfl

/-- They begin at the number of those before the splice point. -/
theorem behind_indices {lastIndex deleteCount : Nat} {start : Int}
    (h : visibleIndices (children.drop (lastIndex + deleteCount)) = indicesFrom (start + countVisible ((children.drop lastIndex).take deleteCount)) n) :
    visibleIndices (behind children lastIndex deleteCount) = indicesFrom start n := by
  unfold behind
  split
  · exact (lowered_indices _ start _ h).1
  · next hzero =>
    rw [not_not.mp hzero, Int.add_zero] at h
    exact h

theorem behind_allRight (h : AllRight children) (lastIndex deleteCount : Nat) :
    AllRight (behind children lastIndex deleteCount) := by
  have hdrop : AllRight (children.drop (lastIndex + deleteCount)) := by
    rw [allRight_iff] at h ⊢
    exact fun node hnode => h node (mem_of_mem_drop hnode)
  unfold behind
  split
  · exact lowered_allRight hdrop
  · exact hdrop

/-- The children after a splice: right exactly when the splice fits. -/
theorem spliceChildren_iff (h : visibleIndices children = indicesFrom 0 (children.countP TreeNode.visible))
    (hle : lastIndex ≤ children.length) (deleteCount : Nat) :
    visibleIndices (spliceChildren children lastIndex deleteCount nodes) =
        indicesFrom 0 ((spliceChildren children lastIndex deleteCount nodes).countP TreeNode.visible) ↔
      SpliceFits children lastIndex deleteCount nodes := by
  have hstart := visibleChildStartIndex_iff h hle
  have hparts := h
  rw [splice_split children lastIndex deleteCount] at hparts
  obtain ⟨hbefore, -, hafter⟩ := indices_split hparts
  rw [SpliceFits, ← hstart, ← countP_eq_zero_iff]
  have hinserted : (∃ node ∈ nodes, node.visible = true) ↔ nodes.countP TreeNode.visible ≠ 0 := by
    rw [← Nat.pos_iff_ne_zero, countP_pos_iff]
  rw [hinserted, spliceChildren_eq]
  rw [visibleIndices_append, visibleIndices_append, countP_append, countP_append, countP_numberVisible, behind_count,
    visibleIndices_numberVisible, hbefore, behind_indices hafter, indicesFrom_add, indicesFrom_add, Int.zero_add]
  generalize nodes.countP TreeNode.visible = inserted
  generalize (children.drop (lastIndex + deleteCount)).countP TreeNode.visible = behind
  constructor
  · intro heq hne
    have hboth := append_inj_left heq (by simp)
    have hbehind := append_inj_right heq (by simp)
    have hmiddle := append_inj_right hboth (by simp)
    refine ⟨?_, indicesFrom_inj hmiddle hne⟩
    by_contra hbehindNe
    have := indicesFrom_inj hbehind hbehindNe
    omega
  · intro hfits
    by_cases hne : inserted = 0
    · subst hne
      simp
    · obtain ⟨hbehind, heq⟩ := hfits hne
      subst hbehind
      rw [heq]
      simp

theorem spliceChildren_allRight (h : AllRight children) (hnodes : AllRight nodes) (lastIndex deleteCount : Nat) :
    AllRight (spliceChildren children lastIndex deleteCount nodes) := by
  have hafter := behind_allRight h lastIndex deleteCount
  have hinserted : AllRight (numberVisible (visibleChildStartIndex children lastIndex) nodes) :=
    numberVisible_allRight hnodes
  rw [allRight_iff] at h hafter hinserted ⊢
  intro node hnode
  rw [spliceChildren_eq, mem_append, mem_append] at hnode
  rcases hnode with (hnode | hnode) | hnode
  · exact h node (mem_of_mem_take hnode)
  · exact hinserted node hnode
  · exact hafter node hnode

theorem spliceChildren_count (children nodes : List (TreeNode T)) (lastIndex deleteCount : Nat) :
    countVisible (spliceChildren children lastIndex deleteCount nodes) = countVisible children +
      (countVisible nodes - countVisible ((children.drop lastIndex).take deleteCount)) := by
  have hcount := congrArg (List.countP TreeNode.visible) (splice_split children lastIndex deleteCount)
  rw [countP_append, countP_append] at hcount
  rw [spliceChildren_eq, countVisible, countP_append, countP_append, countP_numberVisible, behind_count]
  unfold countVisible
  omega

section Splice

variable (filter : Filter T) (options : Options)

/-- A splice below a right node keeps it right exactly when it fits. -/
theorem spliceSimple_right_iff (h : node.Right) (hle : lastIndex ≤ node.children.length) (deleteCount : Nat)
    (toInsert : List (ITreeElement T)) (isRoot : Bool) :
    (spliceSimple filter options lastIndex deleteCount toInsert isRoot node).Right ↔
      SpliceFits node.children lastIndex deleteCount (nodesToInsert filter options node toInsert) := by
  have hnodes : AllRight (nodesToInsert filter options node toInsert) := createTreeNodes_right filter options _ toInsert
  obtain ⟨hcount, hindices, hall⟩ := (right_iff node).mp h
  rw [← spliceChildren_iff hindices hle]
  cases node with
  | mk element collapsible collapsed visibility visible count index children =>
    constructor
    · exact fun hright => hright.2.1
    · intro hright
      refine ⟨?_, hright, spliceChildren_allRight hall hnodes lastIndex deleteCount⟩
      rw [spliceChildren_count]
      exact congrArg (· + _) hcount

theorem spliceSimple_mark (lastIndex deleteCount : Nat) (toInsert : List (ITreeElement T)) (isRoot : Bool)
    (node : TreeNode T) :
    (spliceSimple filter options lastIndex deleteCount toInsert isRoot node).mark = node.mark := by
  cases node
  rfl

end Splice

/-! ## Runs -/

theorem updateAt_right {change : Bool → TreeNode T → Option (TreeNode T)} {location : List Nat} {isRoot : Bool}
    {node node' : TreeNode T} (h : node.Right)
    (hchange : ∀ isRoot found found', getTreeNode location node = some found → found.Right →
      change isRoot found = some found' → found'.Right ∧ found'.mark = found.mark)
    (hupdate : updateAt change isRoot location node = some node') : node'.Right ∧ node'.mark = node.mark := by
  induction location generalizing isRoot node node' with
  | nil =>
    exact hchange isRoot node node' rfl h hupdate
  | cons index rest ih =>
    rw [updateAt] at hupdate
    cases hchild : node.children[index]? with
    | none =>
      rw [hchild] at hupdate
      cases hupdate
    | some child =>
      rw [hchild] at hupdate
      obtain ⟨child', hchild', rfl⟩ := Option.map_eq_some_iff.mp hupdate
      obtain ⟨hcount, hindices, hall⟩ := (right_iff node).mp h
      have hright : child.Right := (allRight_iff _).mp hall child (mem_of_getElem? hchild)
      obtain ⟨hright', hmark⟩ := ih hright (fun isRoot found found' hfound => by
        apply hchange isRoot found found'
        rw [getTreeNode, hchild]
        exact hfound) hchild'
      have hlt := (List.getElem?_eq_some_iff.mp hchild).1
      have hmarks : (node.children.set index child').map TreeNode.mark = node.children.map TreeNode.mark := by
        have hget : child = node.children[index] := by
          rw [getElem?_eq_getElem hlt, Option.some.injEq] at hchild
          exact hchild.symm
        have hset := @List.set_getElem_self _ (node.children.map TreeNode.mark) index (by simpa using hlt)
        rw [getElem_map, ← hget] at hset
        rw [map_set, hmark, hset]
      have hall' : AllRight (node.children.set index child') := by
        rw [allRight_iff] at hall ⊢
        intro n hn
        rcases mem_or_eq_of_mem_set hn with hn | rfl
        · exact hall n hn
        · exact hright'
      cases node
      exact ⟨right_of_marks hmarks hall' hcount hindices _ _ _ _ _ _, rfl⟩

theorem getD_right (h : root.Right) {updated : Option (TreeNode T)}
    (hupdated : ∀ root', updated = some root' → root'.Right) : (updated.getD root).Right := by
  cases updated with
  | none => exact h
  | some root' => exact hupdated root' rfl

theorem setCollapseStateAt_right (options : Options) (update : CollapseStateUpdate) (h : root.Right) (location : List Nat) :
    (setCollapseStateAt options update root location).Right := by
  apply getD_right h
  intro root' hroot'
  refine (updateAt_right h ?_ hroot').1
  intro isRoot found found' _ hfound hchange
  cases hchange
  exact setCollapseState_right options update isRoot hfound

theorem expandAncestors_right (options : Options) (location : List Nat) (depth : Nat) (h : root.Right) :
    (expandAncestors options location depth root).Right := by
  induction depth generalizing root with
  | zero =>
    exact h
  | succ depth ih =>
    rw [expandAncestors]
    split
    · split
      · exact ih (setCollapseStateAt_right options _ h _)
      · exact ih h
    · exact h

/-- The splice of an operation fits at the node that it is about. -/
def OperationFits (options : Options) (filter : Filter T) (root : TreeNode T) : Operation T → Prop
  | .splice location deleteCount toInsert =>
    ∀ lastIndex parent, location.getLast? = some lastIndex → getTreeNode location.dropLast root = some parent →
      SpliceFits parent.children lastIndex deleteCount (nodesToInsert filter options parent toInsert)
  | _ => True

theorem perform_right (options : Options) (filter : Filter T) (h : root.Right) {operation : Operation T}
    (hfits : OperationFits options filter root operation) :
    (perform options filter root operation).Right := by
  cases operation with
  | splice location deleteCount toInsert =>
    show (splice filter options root location deleteCount toInsert).Right
    rw [splice]
    cases hlast : location.getLast? with
    | none => exact h
    | some lastIndex =>
      apply getD_right h
      intro root' hroot'
      refine (updateAt_right h ?_ hroot').1
      intro isRoot found found' hfound hright hchange
      split at hchange
      · next hle =>
        cases hchange
        exact ⟨(spliceSimple_right_iff filter options hright hle deleteCount toInsert isRoot).mpr
          (hfits lastIndex found hlast hfound), spliceSimple_mark filter options _ _ _ _ _⟩
      · cases hchange
  | setCollapsed location collapsed recursive =>
    show (setCollapsed options root location collapsed recursive).Right
    rw [setCollapsed]
    split
    · exact setCollapseStateAt_right options _ h location
    · exact h
  | setCollapsible location collapsible =>
    show (setCollapsible options root location collapsible).Right
    rw [setCollapsible]
    split
    · exact setCollapseStateAt_right options _ h location
    · exact h
  | expandTo location =>
    show (expandTo options root location).Right
    rw [expandTo]
    split
    · exact expandAncestors_right options location _ h
    · exact h
  | refilter => exact refilter_right filter h

def AllFit (options : Options) (root : TreeNode T) : List (Filter T × Operation T) → Prop
  | [] => True
  | (filter, operation) :: operations =>
    OperationFits options filter root operation ∧ AllFit options (perform options filter root operation) operations

theorem run_right (options : Options) (h : root.Right) {operations : List (Filter T × Operation T)}
    (hfits : AllFit options root operations) :
    (run options root operations).Right := by
  induction operations generalizing root with
  | nil => exact h
  | cons operation operations ih =>
    obtain ⟨filter, operation⟩ := operation
    exact ih (perform_right options filter h hfits.1) hfits.2

theorem newRoot_right (rootElement : T) : (newRoot rootElement).Right := by
  exact ⟨rfl, rfl, allRight_nil⟩

theorem getTreeNode_right {location : List Nat} {node found : TreeNode T} (h : node.Right)
    (hfound : getTreeNode location node = some found) : found.Right := by
  induction location generalizing node with
  | nil =>
    rw [getTreeNode, Option.some.injEq] at hfound
    rwa [← hfound]
  | cons index rest ih =>
    rw [getTreeNode] at hfound
    cases hchild : node.children[index]? with
    | none =>
      rw [hchild] at hfound
      cases hfound
    | some child =>
      rw [hchild] at hfound
      exact ih ((allRight_iff _).mp ((right_iff node).mp h).2.2 child (mem_of_getElem? hchild)) hfound

/-- In every run whose splices fit, every node counts its visible children, and these carry the indices 0, 1, 2, … in
their order. -/
theorem visible_children_counted (options : Options) (rootElement : T) {operations : List (Filter T × Operation T)}
    (hfits : AllFit options (newRoot rootElement) operations) (location : List Nat) {node : TreeNode T}
    (hnode : getTreeNode location (run options (newRoot rootElement) operations) = some node) :
    node.visibleChildrenCount = countVisible node.children ∧
      visibleIndices node.children = indicesFrom 0 (node.children.countP TreeNode.visible) := by
  have hright := getTreeNode_right (run_right options (newRoot_right rootElement) hfits) hnode
  obtain ⟨hcount, hindices, -⟩ := (right_iff node).mp hright
  exact ⟨hcount, hindices⟩

/-- Three rows at once, and the first of them deleted. -/
theorem visible_children_counted_rows :
    visibleIndices (run {} (newRoot 0) [(fun _ _ => .visible, .splice [0] 0
        [.mk 1 none none [], .mk 2 none none [], .mk 3 none none []]),
      (fun _ _ => .visible, .splice [0] 1 [])]).children = [0, 1] := by
  refine Eq.trans (visible_children_counted {} 0 ?_ [] rfl).2 (by decide +kernel)
  refine ⟨?_, ?_, trivial⟩
  · rintro _ _ ⟨⟩ ⟨⟩ -
    decide +kernel
  · rintro _ _ ⟨⟩ ⟨⟩ ⟨_, hmem, _⟩
    cases hmem

/-- A child that is appended to another one gets its index. -/
theorem appended_child_index :
    visibleIndices (run {} (newRoot 0) [(fun _ _ => .visible, .splice [0] 0 [.mk 1 none none []]),
      (fun _ _ => .visible, .splice [1] 0 [.mk 2 none none []])]).children = [0, 0] := by
  decide +kernel

end TongjiCode.IndexTree.VisibleChildren
