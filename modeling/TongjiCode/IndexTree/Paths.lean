import TongjiCode.IndexTree.Rows

/-!
# Paths

A node is found by walking down from the root.  If everything above it is visible and not collapsed, its rows are a part of
the rows of the tree, at the list index that the walk computes; else what is below does not show, and it does not matter
what stands in its place.
-/

open List

namespace TongjiCode.IndexTree

variable {T : Type}

/-- `getTreeNodeWithListIndex` as one walk. -/
def locate (children : List (Node T)) (listIndex : Int) (revealed visible : Bool) : List Nat → Option (FoundNode T)
  | [] => none
  | [index] =>
    children[index]?.map fun node => ⟨node, listIndex + renderNodeCounts (children.take index), revealed, visible⟩
  | index :: next :: rest =>
    children[index]?.bind fun node =>
      locate node.children (listIndex + renderNodeCounts (children.take index) + 1) (revealed && !node.collapsed)
        (visible && node.visible) (next :: rest)

attribute [local simp] locate getParentNodeWithListIndex replaceNode

/-! ## One node among its siblings -/

section Siblings

variable {children : List (Node T)} {index : Nat} {node : Node T}

section

variable (h : children[index]? = some node)
include h

theorem children_eq :
    children = children.take index ++ node :: children.drop (index + 1) := by
  obtain ⟨hlt, rfl⟩ := List.getElem?_eq_some_iff.mp h
  rw [← List.drop_eq_getElem_cons hlt, List.take_append_drop]

theorem set_eq (node' : Node T) :
    children.set index node' = children.take index ++ node' :: children.drop (index + 1) := by
  obtain ⟨hlt, -⟩ := List.getElem?_eq_some_iff.mp h
  rw [List.set_eq_take_append_cons_drop, if_pos hlt]

theorem rowsOf_split :
    rowsOf children = rowsOf (children.take index) ++ node.rows ++ rowsOf (children.drop (index + 1)) := by
  conv_lhs => rw [children_eq h]
  rw [rowsOf_append, rowsOf, append_assoc]

theorem rowsOf_set (node' : Node T) :
    rowsOf (children.set index node') =
      rowsOf (children.take index) ++ node'.rows ++ rowsOf (children.drop (index + 1)) := by
  rw [set_eq h, rowsOf_append, rowsOf, append_assoc]

theorem allZeroed_split :
    AllZeroed children ↔
      AllZeroed (children.take index) ∧ node.Zeroed ∧ AllZeroed (children.drop (index + 1)) := by
  conv_lhs => rw [children_eq h]
  rw [allZeroed_append, AllZeroed]

theorem allZeroed_set {node' : Node T} (hchildren : AllZeroed children) (hnode : node'.Zeroed) :
    AllZeroed (children.set index node') := by
  rw [allZeroed_split h] at hchildren
  rw [set_eq h, allZeroed_append, AllZeroed]
  exact ⟨hchildren.1, hnode, hchildren.2.2⟩

theorem allCounted_split :
    AllCounted children ↔
      AllCounted (children.take index) ∧ node.Counted ∧ AllCounted (children.drop (index + 1)) := by
  conv_lhs => rw [children_eq h]
  rw [allCounted_append, AllCounted]

theorem allCounted_set {node' : Node T} (hchildren : AllCounted children) (hnode : node'.Counted) :
    AllCounted (children.set index node') := by
  rw [allCounted_split h] at hchildren
  rw [set_eq h, allCounted_append, AllCounted]
  exact ⟨hchildren.1, hnode, hchildren.2.2⟩

end

end Siblings

/-! ## The walk -/

theorem locate_eq (parentVisible : Bool) (children : List (Node T)) (listIndex : Int) (revealed visible : Bool)
    (location : List Nat) :
    (match getParentNodeWithListIndex parentVisible children listIndex revealed visible location with
      | some found =>
        match location.getLast?.bind fun index => found.children[index]? with
        | some node => some ⟨node, found.listIndex, found.revealed, found.visible⟩
        | none => none
      | none => none) = locate children listIndex revealed visible location := by
  induction location generalizing parentVisible children listIndex revealed visible with
  | nil => rfl
  | cons index rest ih =>
    cases rest with
    | nil =>
      simp only [getParentNodeWithListIndex, locate, getLast?_singleton, Option.bind_some]
      by_cases hindex : index ≤ children.length
      · rw [if_pos hindex]
        cases hnode : children[index]? <;> simp [hnode]
      · have hnone : children[index]? = none := getElem?_eq_none (by omega)
        rw [if_neg hindex, hnone]
        rfl
    | cons next rest =>
      simp only [getParentNodeWithListIndex, locate, getLast?_cons_cons]
      cases hnode : children[index]? with
      | none => rfl
      | some node => exact ih ..

theorem getTreeNodeWithListIndex_eq (children : List (Node T)) (location : List Nat) :
    getTreeNodeWithListIndex children location = locate children 0 true true location :=
  locate_eq true children 0 true true location

theorem getParentNodeWithListIndex_eq (parentVisible : Bool) (children : List (Node T)) (listIndex : Int)
    (revealed visible : Bool) {location : List Nat} (hlocation : location ≠ []) (index : Nat) :
    getParentNodeWithListIndex parentVisible children listIndex revealed visible (location ++ [index]) =
      (locate children listIndex revealed visible location).bind fun found =>
        if index ≤ found.node.children.length then
          some ⟨found.node.children, found.node.visible,
            found.listIndex + 1 + renderNodeCounts (found.node.children.take index),
            found.revealed && !found.node.collapsed, found.visible && found.node.visible⟩
        else none := by
  induction location generalizing parentVisible children listIndex revealed visible with
  | nil => exact absurd rfl hlocation
  | cons first rest ih =>
    cases rest with
    | nil =>
      simp only [List.cons_append, List.nil_append, getParentNodeWithListIndex, locate]
      cases hnode : children[first]? with
      | none => rfl
      | some node => rfl
    | cons next rest =>
      simp only [List.cons_append, getParentNodeWithListIndex, locate]
      cases hnode : children[first]? with
      | none => rfl
      | some node => exact ih _ _ _ _ _ (by simp)

/-! ## Nodes whose children are exchanged -/

section WithChildren

variable {node : Node T} {children : List (Node T)} {diff : Int}

theorem Node.rows_open (hvisible : node.visible = true) (hopen : node.collapsed = false) :
    node.rows = node.element :: rowsOf node.children := by
  cases node
  cases hvisible
  cases hopen
  rfl

theorem Node.rows_withChildren_open (hvisible : node.visible = true) (hopen : node.collapsed = false) :
    (node.withChildren children diff).rows = node.element :: rowsOf children := by
  cases node
  cases hvisible
  cases hopen
  rfl

theorem Node.rows_withChildren_closed (h : (!node.collapsed && node.visible) = false) :
    (node.withChildren children diff).rows = node.rows := by
  cases node with
  | mk element collapsible collapsed count visibility visible old =>
    cases visible with
    | false => rfl
    | true =>
      cases collapsed with
      | true => rfl
      | false => cases h

theorem Node.Zeroed.withChildren (h : node.Zeroed) (hchildren : AllZeroed children)
    (hdiff : node.visible = true ∨ diff = 0) : (node.withChildren children diff).Zeroed := by
  cases node with
  | mk element collapsible collapsed count visibility visible old =>
    refine ⟨fun hhidden => ?_, hchildren⟩
    have hcount := h.1 hhidden
    rcases hdiff with hdiff | hdiff
    · have : visible = true := hdiff
      rw [this] at hhidden
      cases hhidden
    · omega

theorem Node.Zeroed.below (h : node.Zeroed) : AllZeroed node.children := by
  cases node
  exact h.2

theorem Node.Counted.below (h : node.Counted) (hvisible : node.visible = true) (hopen : node.collapsed = false) :
    AllCounted node.children := by
  cases node
  exact h.2 hvisible hopen

theorem Node.Counted.withChildren_open (h : node.Counted) (hvisible : node.visible = true) (hopen : node.collapsed = false)
    (hchildren : AllCounted children) (hdiff : ((rowsOf children).length : Int) = (rowsOf node.children).length + diff) :
    (node.withChildren children diff).Counted := by
  have hcount := h.renderNodeCount_eq
  rw [Node.rows_open hvisible hopen] at hcount
  cases node with
  | mk element collapsible collapsed count visibility visible old =>
    refine ⟨?_, fun _ _ => hchildren⟩
    have hrows : (Node.mk element collapsible collapsed (count + diff) visibility visible children).rows =
        element :: rowsOf children := Node.rows_withChildren_open hvisible hopen
    rw [hrows]
    have : count = (element :: rowsOf old).length := hcount
    have : ((rowsOf children).length : Int) = (rowsOf old).length + diff := hdiff
    simp only [length_cons] at *
    omega

theorem Node.Counted.withChildren_closed (h : node.Counted) (hclosed : (!node.collapsed && node.visible) = false) :
    (node.withChildren children 0).Counted := by
  have hcount := h.renderNodeCount_eq
  have hrows := @Node.rows_withChildren_closed T node children 0 hclosed
  cases node with
  | mk element collapsible collapsed count visibility visible old =>
    refine ⟨?_, fun hvisible hopen => ?_⟩
    · have : count = (Node.mk element collapsible collapsed count visibility visible old).rows.length := hcount
      have hrows' : (Node.mk element collapsible collapsed (count + 0) visibility visible children).rows =
        (Node.mk element collapsible collapsed count visibility visible old).rows := hrows
      rw [hrows']
      omega
    · have hvisible' : visible = true := hvisible
      have hopen' : collapsed = false := hopen
      subst hvisible' hopen'
      cases hclosed

end WithChildren

/-! ## Walks -/

section Walks

variable {children : List (Node T)} {listIndex : Int} {revealed visible : Bool} {location : List Nat} {found : FoundNode T}

theorem flags_of_locate (h : locate children listIndex revealed visible location = some found) :
    (found.revealed = true → revealed = true) ∧ (found.visible = true → visible = true) := by
  induction location generalizing children listIndex revealed visible with
  | nil => cases h
  | cons index rest ih =>
    cases rest with
    | nil =>
      obtain ⟨node, -, rfl⟩ := Option.map_eq_some_iff.mp h
      exact ⟨id, id⟩
    | cons next rest =>
      obtain ⟨node, -, hnode⟩ := Option.bind_eq_some_iff.mp h
      obtain ⟨hrevealed, hvisible⟩ := ih hnode
      exact ⟨fun hfound => (Bool.and_eq_true_iff.mp (hrevealed hfound)).1,
        fun hfound => (Bool.and_eq_true_iff.mp (hvisible hfound)).1⟩

/-- Where everything above a node is open, its rows are a part of the rows, and another node in its place shows its own
there. -/
theorem locate_open (h : locate children listIndex revealed visible location = some found) (hrevealed : found.revealed = true)
    (hvisible : found.visible = true) (hcounted : AllCounted children) :
    found.node.Counted ∧ ∃ pre post, rowsOf children = pre ++ found.node.rows ++ post ∧
      found.listIndex = listIndex + pre.length ∧
      ∀ (node : Node T) (diff : Int), (node.rows.length : Int) = found.node.rows.length + diff → node.Counted →
        rowsOf (replaceNode diff node children location) = pre ++ node.rows ++ post ∧
          AllCounted (replaceNode diff node children location) := by
  induction location generalizing children listIndex revealed visible with
  | nil => cases h
  | cons index rest ih =>
    cases rest with
    | nil =>
      obtain ⟨node, hnode, rfl⟩ := Option.map_eq_some_iff.mp h
      have hcounted' := (allCounted_split hnode).mp hcounted
      refine ⟨hcounted'.2.1, _, _, rowsOf_split hnode, ?_, fun node' diff _ hnode' => ?_⟩
      · show listIndex + renderNodeCounts _ = _
        rw [renderNodeCounts_eq hcounted'.1]
      · exact ⟨rowsOf_set hnode node', allCounted_set hnode hcounted hnode'⟩
    | cons next rest =>
      obtain ⟨node, hnode, hrest⟩ := Option.bind_eq_some_iff.mp h
      have hcounted' := (allCounted_split hnode).mp hcounted
      obtain ⟨hrev, hvis⟩ := flags_of_locate hrest
      have hnodeOpen : node.collapsed = false := by simpa using (Bool.and_eq_true_iff.mp (hrev hrevealed)).2
      have hnodeVisible : node.visible = true := (Bool.and_eq_true_iff.mp (hvis hvisible)).2
      obtain ⟨hfound, pre, post, hrows, hindex, hreplace⟩ := ih hrest (hcounted'.2.1.below hnodeVisible hnodeOpen)
      have hnodeRows := Node.rows_open hnodeVisible hnodeOpen
      refine ⟨hfound, rowsOf (children.take index) ++ node.element :: pre, post ++ rowsOf (children.drop (index + 1)), ?_, ?_,
        fun node' diff hdiff hnode' => ?_⟩
      · rw [rowsOf_split hnode, hnodeRows, hrows]
        simp
      · rw [hindex, renderNodeCounts_eq hcounted'.1, length_append, length_cons]
        omega
      · obtain ⟨hrows', hcounted''⟩ := hreplace node' diff hdiff hnode'
        have hreplaced : replaceNode diff node' children (index :: next :: rest) =
            children.set index (node.withChildren (replaceNode diff node' node.children (next :: rest)) diff) := by
          simp only [replaceNode, hnode]
        rw [hreplaced, rowsOf_set hnode, Node.rows_withChildren_open hnodeVisible hnodeOpen, hrows']
        refine ⟨by simp, allCounted_set hnode hcounted ?_⟩
        refine hcounted'.2.1.withChildren_open hnodeVisible hnodeOpen hcounted'' ?_
        rw [hrows', hrows]
        simp only [length_append]
        omega

/-- Where something above a node is hidden or collapsed, it does not matter what stands in its place. -/
theorem locate_closed (h : locate children listIndex true true location = some found)
    (hclosed : (found.revealed && found.visible) = false) (hcounted : AllCounted children) (node : Node T) :
    rowsOf (replaceNode 0 node children location) = rowsOf children ∧ AllCounted (replaceNode 0 node children location) := by
  induction location generalizing children listIndex with
  | nil => cases h
  | cons index rest ih =>
    cases rest with
    | nil =>
      obtain ⟨node, hnode, rfl⟩ := Option.map_eq_some_iff.mp h
      cases hclosed
    | cons next rest =>
      obtain ⟨child, hchild, hrest⟩ := Option.bind_eq_some_iff.mp h
      have hcounted' := (allCounted_split hchild).mp hcounted
      have hreplaced : replaceNode 0 node children (index :: next :: rest) =
          children.set index (child.withChildren (replaceNode 0 node child.children (next :: rest)) 0) := by
        simp only [replaceNode, hchild]
      rw [hreplaced, rowsOf_set hchild]
      by_cases hopen : (!child.collapsed && child.visible) = true
      · rw [Bool.and_eq_true_iff] at hopen
        have hchildOpen : child.collapsed = false := by simpa using hopen.1
        rw [hchildOpen, hopen.2] at hrest
        obtain ⟨hrows, hcounted''⟩ := ih hrest (hcounted'.2.1.below hopen.2 hchildOpen)
        rw [Node.rows_withChildren_open hopen.2 hchildOpen, hrows, ← Node.rows_open hopen.2 hchildOpen, ← rowsOf_split hchild]
        refine ⟨rfl, allCounted_set hchild hcounted ?_⟩
        exact hcounted'.2.1.withChildren_open hopen.2 hchildOpen hcounted'' (by rw [hrows]; omega)
      · rw [Bool.not_eq_true] at hopen
        rw [Node.rows_withChildren_closed hopen, ← rowsOf_split hchild]
        exact ⟨rfl, allCounted_set hchild hcounted (hcounted'.2.1.withChildren_closed hopen)⟩

section

variable (h : locate children listIndex revealed visible location = some found)
include h

theorem locate_zeroed (hzeroed : AllZeroed children) :
    found.node.Zeroed := by
  induction location generalizing children listIndex revealed visible with
  | nil => cases h
  | cons index rest ih =>
    cases rest with
    | nil =>
      obtain ⟨child, hchild, rfl⟩ := Option.map_eq_some_iff.mp h
      exact ((allZeroed_split hchild).mp hzeroed).2.1
    | cons next rest =>
      obtain ⟨child, hchild, hrest⟩ := Option.bind_eq_some_iff.mp h
      exact ih hrest ((allZeroed_split hchild).mp hzeroed).2.1.below

/-- What is not visible still counts nothing, if only open nodes change their count. -/
theorem replaceNode_zeroed (hzeroed : AllZeroed children) {node : Node T} (hnode : node.Zeroed) {diff : Int}
    (hdiff : found.visible = true ∨ diff = 0) : AllZeroed (replaceNode diff node children location) := by
  induction location generalizing children listIndex revealed visible with
  | nil => cases h
  | cons index rest ih =>
    cases rest with
    | nil =>
      obtain ⟨child, hchild, rfl⟩ := Option.map_eq_some_iff.mp h
      exact allZeroed_set hchild hzeroed hnode
    | cons next rest =>
      obtain ⟨child, hchild, hrest⟩ := Option.bind_eq_some_iff.mp h
      have hzeroed' := (allZeroed_split hchild).mp hzeroed
      simp only [replaceNode, hchild]
      refine allZeroed_set hchild hzeroed (hzeroed'.2.1.withChildren (ih hrest hzeroed'.2.1.below) ?_)
      exact hdiff.imp_left fun hvisible => (Bool.and_eq_true_iff.mp ((flags_of_locate hrest).2 hvisible)).2

/-! ### Finding nodes after one was exchanged -/

theorem locate_replaceNode (diff : Int) (node : Node T) :
    locate (replaceNode diff node children location) listIndex revealed visible location = some { found with node } := by
  induction location generalizing children listIndex revealed visible with
  | nil => cases h
  | cons index rest ih =>
    cases rest with
    | nil =>
      obtain ⟨child, hchild, rfl⟩ := Option.map_eq_some_iff.mp h
      obtain ⟨hlt, -⟩ := List.getElem?_eq_some_iff.mp hchild
      simp only [replaceNode, locate, List.getElem?_set_self hlt, Option.map_some]
      rw [List.take_set_of_le (Nat.le_refl index)]
    | cons next rest =>
      obtain ⟨child, hchild, hrest⟩ := Option.bind_eq_some_iff.mp h
      obtain ⟨hlt, -⟩ := List.getElem?_eq_some_iff.mp hchild
      have hbelow := ih hrest
      simp only [replaceNode, hchild, locate, List.getElem?_set_self hlt, Option.bind_some]
      rw [List.take_set_of_le (Nat.le_refl index)]
      cases child
      exact hbelow

theorem locate_below (diff : Int) (node : Node T) (index : Nat) :
    ∃ listIndex', locate (replaceNode diff node children location) listIndex revealed visible
      (location ++ [index]) = node.children[index]?.map fun child =>
        ⟨child, listIndex', found.revealed && !node.collapsed, found.visible && node.visible⟩ := by
  induction location generalizing children listIndex revealed visible with
  | nil => cases h
  | cons first rest ih =>
    cases rest with
    | nil =>
      obtain ⟨child, hchild, rfl⟩ := Option.map_eq_some_iff.mp h
      obtain ⟨hlt, -⟩ := List.getElem?_eq_some_iff.mp hchild
      simp only [replaceNode, List.cons_append, List.nil_append, locate, List.getElem?_set_self hlt, Option.bind_some]
      exact ⟨_, rfl⟩
    | cons next rest =>
      obtain ⟨child, hchild, hrest⟩ := Option.bind_eq_some_iff.mp h
      obtain ⟨hlt, -⟩ := List.getElem?_eq_some_iff.mp hchild
      obtain ⟨listIndex', hbelow⟩ := ih hrest
      refine ⟨listIndex', ?_⟩
      simp only [replaceNode, hchild, List.cons_append, locate, List.getElem?_set_self hlt, Option.bind_some]
      rw [List.take_set_of_le (Nat.le_refl first)]
      cases child
      exact hbelow

end

/-- What a collapse update of a single node depends on. -/
def FoundNode.flags (found : FoundNode T) : Bool × Bool × Bool × Bool × Bool :=
  (found.revealed, found.visible, found.node.visible, found.node.collapsed, found.node.collapsible)

theorem locate_above (diff : Int) (node : Node T) {below : List Nat} (hbelow : below ≠ []) :
    (locate (replaceNode diff node children (location ++ below)) listIndex revealed visible location).map FoundNode.flags =
      (locate children listIndex revealed visible location).map FoundNode.flags := by
  induction location generalizing children listIndex revealed visible with
  | nil => rfl
  | cons index rest ih =>
    cases rest with
    | nil =>
      obtain ⟨next, below, rfl⟩ := exists_cons_of_ne_nil hbelow
      simp only [List.cons_append, List.nil_append, replaceNode, locate]
      cases hchild : children[index]? with
      | none => rw [hchild]
      | some child =>
        obtain ⟨hlt, -⟩ := List.getElem?_eq_some_iff.mp hchild
        simp only [List.getElem?_set_self hlt, Option.map_some]
        cases child
        rfl
    | cons next rest =>
      simp only [List.cons_append, replaceNode, locate]
      cases hchild : children[index]? with
      | none => rw [hchild]
      | some child =>
        obtain ⟨hlt, -⟩ := List.getElem?_eq_some_iff.mp hchild
        simp only [List.getElem?_set_self hlt, Option.bind_some]
        rw [List.take_set_of_le (Nat.le_refl index)]
        cases child
        exact ih

end Walks

end TongjiCode.IndexTree
