import TongjiCode.IndexTree.Operations

/-!
# Rows and their counts

`Sound` is what the counts of a tree promise: a node that is not visible counts nothing, wherever it is; a node that is
visible, and under nothing hidden or collapsed, counts its rows.
-/

namespace TongjiCode.IndexTree

variable {T : Type}

mutual

/-- What is not visible counts nothing. -/
def Node.Zeroed : Node T → Prop
  | .mk _ _ _ renderNodeCount _ visible children => (visible = false → renderNodeCount = 0) ∧ AllZeroed children

def AllZeroed : List (Node T) → Prop
  | [] => True
  | node :: nodes => node.Zeroed ∧ AllZeroed nodes

end

mutual

/-- The node and what its rows show count their rows. -/
def Node.Counted : Node T → Prop
  | .mk element collapsible collapsed renderNodeCount visibility visible children =>
    renderNodeCount = (Node.mk element collapsible collapsed renderNodeCount visibility visible children).rows.length ∧
      (visible = true → collapsed = false → AllCounted children)

def AllCounted : List (Node T) → Prop
  | [] => True
  | node :: nodes => node.Counted ∧ AllCounted nodes

end

attribute [local simp] Node.rows rowsOf AllZeroed AllCounted

/-! ## Lists of nodes -/

section Lists

variable {node : Node T} {nodes others : List (Node T)}

theorem allZeroed_append : AllZeroed (nodes ++ others) ↔ AllZeroed nodes ∧ AllZeroed others := by
  induction nodes with
  | nil => simp
  | cons node nodes ih => simp [ih, and_assoc]

theorem allCounted_append : AllCounted (nodes ++ others) ↔ AllCounted nodes ∧ AllCounted others := by
  induction nodes with
  | nil => simp
  | cons node nodes ih => simp [ih, and_assoc]

theorem rowsOf_append : rowsOf (nodes ++ others) = rowsOf nodes ++ rowsOf others := by
  induction nodes with
  | nil => rfl
  | cons node nodes ih => rw [List.cons_append, rowsOf, rowsOf, ih, List.append_assoc]

@[simp] theorem renderNodeCounts_cons : renderNodeCounts (node :: nodes) = node.renderNodeCount + renderNodeCounts nodes := by
  simp [renderNodeCounts]

theorem Node.Counted.renderNodeCount_eq (h : node.Counted) : node.renderNodeCount = node.rows.length := by
  cases node
  exact h.1

theorem renderNodeCounts_eq (h : AllCounted nodes) : renderNodeCounts nodes = (rowsOf nodes).length := by
  induction nodes with
  | nil => rfl
  | cons node nodes ih =>
    rw [renderNodeCounts_cons, rowsOf, ih h.2, h.1.renderNodeCount_eq, List.length_append]
    rfl

theorem Node.rows_of_hidden (h : node.visible = false) : node.rows = [] := by
  cases node with
  | mk element collapsible collapsed count visibility visible children =>
    cases (show visible = false from h)
    rw [Node.rows]
    simp

theorem rowsOf_eq_nil (h : nodes.any Node.visible = false) : rowsOf nodes = [] := by
  induction nodes with
  | nil => rfl
  | cons node nodes ih =>
    rw [List.any_cons, Bool.or_eq_false_iff] at h
    rw [rowsOf, Node.rows_of_hidden h.1, ih h.2, List.append_nil]

theorem renderNodeCounts_filter (h : AllZeroed nodes) : renderNodeCounts (nodes.filter Node.visible) = renderNodeCounts nodes := by
  induction nodes with
  | nil => rfl
  | cons node nodes ih =>
    rw [List.filter_cons, renderNodeCounts_cons]
    by_cases hvisible : node.visible = true
    · rw [if_pos hvisible, renderNodeCounts_cons, ih h.2]
    · have hzero : node.renderNodeCount = 0 := by
        cases node
        exact h.1.1 (Bool.not_eq_true _ ▸ hvisible)
      rw [if_neg hvisible, ih h.2, hzero, Int.zero_add]

end Lists

/-! ## New nodes -/

section Create

variable {filter : Filter T} {options : Options}

/-- The rows of the node are what was pushed, unless it is not visible: then it is popped, and its children pushed nothing.
The list of the rows below it is `below`. -/
theorem finishNode_spec (element : T) (collapsible collapsed : Bool) (visibility : TreeVisibility) (revealed : Bool)
    (children : List (Node T)) (count : Int) (acc : List T) {below : List T}
    (hbelow : below = if (revealed && visibility != .hidden && !collapsed) = true then rowsOf children else []) :
    let result := finishNode element collapsible collapsed visibility revealed children count
      ((if revealed then acc ++ [element] else acc) ++ below)
    (AllZeroed children → result.1.Zeroed) ∧
      ((collapsed = false → AllCounted children ∧ count = 1 + (rowsOf children).length) → result.1.Counted) ∧
      result.2 = acc ++ if revealed then result.1.rows else [] := by
  unfold finishNode
  by_cases hshown : shownBy children visibility = true
  · have hnot : (visibility != .hidden) = true := by
      cases visibility with
      | hidden => cases hshown
      | visible => rfl
      | recurse => rfl
    rw [if_pos hshown]
    refine ⟨fun hzeroed => ⟨fun h => (nomatch h), hzeroed⟩, fun hopen => ?_, ?_⟩
    · cases collapsed with
      | false =>
        obtain ⟨hcounted, hcount⟩ := hopen rfl
        refine ⟨?_, fun _ _ => hcounted⟩
        simp [hcount]
        omega
      | true => exact ⟨by simp, fun _ h => nomatch h⟩
    · rw [hbelow, hnot]
      cases revealed <;> cases collapsed <;> simp
  · have hnothing : below = [] := by
      rw [hbelow]
      cases visibility with
      | hidden => simp
      | visible => exact absurd rfl hshown
      | recurse => rw [rowsOf_eq_nil (by simpa [shownBy] using hshown), ite_self]
    rw [if_neg hshown, hnothing]
    refine ⟨fun hzeroed => ⟨fun _ => rfl, hzeroed⟩, fun _ => ⟨by simp, fun h => nomatch h⟩, ?_⟩
    cases revealed <;> simp

mutual

theorem createTreeNode_spec (parentVisibility : TreeVisibility) (revealed : Bool) (acc : List T) (element : ITreeElement T) :
    let result := createTreeNode filter options parentVisibility revealed acc element
    result.1.Zeroed ∧ result.1.Counted ∧ result.2 = acc ++ if revealed then result.1.rows else [] := by
  cases element with
  | mk element collapsible collapsed childElements =>
    have hchildren := createTreeNodes_spec (filter element (some parentVisibility))
      (revealed && filter element (some parentVisibility) != .hidden && !collapsed.getD options.collapseByDefault)
      (if revealed then acc ++ [element] else acc) childElements
    simp only [createTreeNode]
    generalize createTreeNodes filter options (filter element (some parentVisibility))
      (revealed && filter element (some parentVisibility) != .hidden && !collapsed.getD options.collapseByDefault)
      (if revealed then acc ++ [element] else acc) childElements = made at hchildren ⊢
    obtain ⟨children, pushed⟩ := made
    obtain ⟨hzeroed, hcounted, hpushed⟩ := hchildren
    obtain ⟨hzeroed', hcounted', hrows⟩ := finishNode_spec element (collapsible.getD collapsed.isSome || !children.isEmpty)
      (collapsed.getD options.collapseByDefault) (filter element (some parentVisibility)) revealed children
      (1 + renderNodeCounts children) acc rfl
    rw [← hpushed] at hzeroed' hcounted' hrows
    exact ⟨hzeroed' hzeroed, hcounted' fun _ => ⟨hcounted, by rw [renderNodeCounts_eq hcounted]⟩, hrows⟩

theorem createTreeNodes_spec (parentVisibility : TreeVisibility) (revealed : Bool) (acc : List T)
    (elements : List (ITreeElement T)) :
    let result := createTreeNodes filter options parentVisibility revealed acc elements
    AllZeroed result.1 ∧ AllCounted result.1 ∧ result.2 = acc ++ if revealed then rowsOf result.1 else [] := by
  cases elements with
  | nil => exact ⟨trivial, trivial, by cases revealed <;> simp [createTreeNodes]⟩
  | cons element elements =>
    have hfirst := createTreeNode_spec parentVisibility revealed acc element
    simp only [createTreeNodes]
    generalize createTreeNode filter options parentVisibility revealed acc element = made at hfirst ⊢
    obtain ⟨node, pushed⟩ := made
    obtain ⟨hzeroed, hcounted, hpushed⟩ := hfirst
    have hrest := createTreeNodes_spec parentVisibility revealed pushed elements
    obtain ⟨hzeroed', hcounted', hpushed'⟩ := hrest
    refine ⟨⟨hzeroed, hzeroed'⟩, ⟨hcounted, hcounted'⟩, ?_⟩
    simp only at hpushed hpushed' ⊢
    rw [hpushed', hpushed, rowsOf]
    cases revealed <;> simp

end

mutual

/-- A node that was filtered again counts nothing if it is not visible, and counts its rows if it is revealed. -/
theorem updateNodeAfterFilterChange_spec (parentVisibility : Option TreeVisibility) (acc : List T) (revealed : Bool)
    (node : Node T) (hzeroed : node.Zeroed) :
    let result := updateNodeAfterFilterChange filter parentVisibility acc revealed node
    result.1.Zeroed ∧ (revealed = true → result.1.Counted) ∧ result.2 = acc ++ if revealed then result.1.rows else [] := by
  cases node with
  | mk element collapsible collapsed count oldVisibility visible children =>
    unfold updateNodeAfterFilterChange
    by_cases hhidden : filter element parentVisibility = .hidden
    · simp only [hhidden, if_pos]
      refine ⟨⟨fun _ => rfl, hzeroed.2⟩, fun _ => ⟨by simp, fun h => nomatch h⟩, ?_⟩
      simp
    · simp only [hhidden, if_false]
      have hchildren := updateNodesAfterFilterChange_spec (some (filter element parentVisibility))
        (if revealed then acc ++ [element] else acc) (revealed && !collapsed) children hzeroed.2
      generalize updateNodesAfterFilterChange filter (some (filter element parentVisibility))
        (if revealed then acc ++ [element] else acc) (revealed && !collapsed) children = made at hchildren ⊢
      obtain ⟨children', pushed⟩ := made
      obtain ⟨hzeroed', hcounted', hpushed⟩ := hchildren
      simp only at hzeroed' hcounted' hpushed
      have hnot : (filter element parentVisibility != .hidden) = true := by simpa using hhidden
      obtain ⟨hzeroed'', hcounted'', hrows⟩ := finishNode_spec element collapsible collapsed (filter element parentVisibility)
        revealed children' (1 + ((pushed.length : Int) - (if revealed then acc ++ [element] else acc).length)) acc
        (by rw [hnot, Bool.and_true])
      rw [← hpushed] at hzeroed'' hcounted'' hrows
      refine ⟨hzeroed'' hzeroed', fun hrevealed => hcounted'' fun hopen => ?_, hrows⟩
      subst hrevealed hopen
      refine ⟨hcounted' rfl, ?_⟩
      rw [hpushed]
      simp only [Bool.not_false, Bool.and_true, if_true, List.length_append]
      omega

theorem updateNodesAfterFilterChange_spec (parentVisibility : Option TreeVisibility) (acc : List T) (revealed : Bool)
    (nodes : List (Node T)) (hzeroed : AllZeroed nodes) :
    let result := updateNodesAfterFilterChange filter parentVisibility acc revealed nodes
    AllZeroed result.1 ∧ (revealed = true → AllCounted result.1) ∧
      result.2 = acc ++ if revealed then rowsOf result.1 else [] := by
  cases nodes with
  | nil => exact ⟨trivial, fun _ => trivial, by cases revealed <;> simp [updateNodesAfterFilterChange]⟩
  | cons node nodes =>
    have hfirst := updateNodeAfterFilterChange_spec parentVisibility acc revealed node hzeroed.1
    simp only [updateNodesAfterFilterChange]
    generalize updateNodeAfterFilterChange filter parentVisibility acc revealed node = made at hfirst ⊢
    obtain ⟨node', pushed⟩ := made
    obtain ⟨hzeroed', hcounted', hpushed⟩ := hfirst
    have hrest := updateNodesAfterFilterChange_spec parentVisibility pushed revealed nodes hzeroed.2
    obtain ⟨hzeroed'', hcounted'', hpushed'⟩ := hrest
    refine ⟨⟨hzeroed', hzeroed''⟩, fun h => ⟨hcounted' h, hcounted'' h⟩, ?_⟩
    simp only at hpushed hpushed' ⊢
    rw [hpushed', hpushed, rowsOf]
    cases revealed <;> simp

end

end Create

/-! ## Collapse changes -/

section Collapse

mutual

theorem updateNodeAfterCollapseChange_spec (acc : List T) (node : Node T) (hzeroed : node.Zeroed) :
    let result := updateNodeAfterCollapseChange acc node
    result.1.Zeroed ∧ result.1.Counted ∧ result.2 = acc ++ result.1.rows ∧ result.1.rows = node.rows := by
  cases node with
  | mk element collapsible collapsed count visibility visible children =>
    unfold updateNodeAfterCollapseChange
    cases visible with
    | false =>
      have hcount : count = 0 := hzeroed.1 rfl
      subst hcount
      exact ⟨hzeroed, ⟨by simp, fun h => nomatch h⟩, by simp, rfl⟩
    | true =>
      cases collapsed with
      | true =>
        exact ⟨⟨fun h => (nomatch h), hzeroed.2⟩, ⟨by simp, fun _ h => nomatch h⟩, by simp,
          by simp⟩
      | false =>
        have hchildren := updateNodesAfterCollapseChange_spec (acc ++ [element]) children hzeroed.2
        generalize updateNodesAfterCollapseChange (acc ++ [element]) children = made at hchildren ⊢
        obtain ⟨children', pushed⟩ := made
        obtain ⟨hzeroed', hcounted', hpushed, hsame⟩ := hchildren
        simp only at hzeroed' hcounted' hpushed hsame ⊢
        refine ⟨⟨fun h => (nomatch h), hzeroed'⟩, ⟨?_, fun _ _ => hcounted'⟩, ?_, ?_⟩
        · rw [renderNodeCounts_filter hzeroed', renderNodeCounts_eq hcounted']
          simp
          omega
        · simp [hpushed]
        · simp [hsame]

theorem updateNodesAfterCollapseChange_spec (acc : List T) (nodes : List (Node T)) (hzeroed : AllZeroed nodes) :
    let result := updateNodesAfterCollapseChange acc nodes
    AllZeroed result.1 ∧ AllCounted result.1 ∧ result.2 = acc ++ rowsOf result.1 ∧ rowsOf result.1 = rowsOf nodes := by
  cases nodes with
  | nil => exact ⟨trivial, trivial, by simp [updateNodesAfterCollapseChange], rfl⟩
  | cons node nodes =>
    have hfirst := updateNodeAfterCollapseChange_spec acc node hzeroed.1
    simp only [updateNodesAfterCollapseChange]
    generalize updateNodeAfterCollapseChange acc node = made at hfirst ⊢
    obtain ⟨node', pushed⟩ := made
    obtain ⟨hzeroed', hcounted', hpushed, hsame⟩ := hfirst
    have hrest := updateNodesAfterCollapseChange_spec pushed nodes hzeroed.2
    obtain ⟨hzeroed'', hcounted'', hpushed', hsame'⟩ := hrest
    refine ⟨⟨hzeroed', hzeroed''⟩, ⟨hcounted', hcounted''⟩, ?_, ?_⟩
    · simp only at hpushed hpushed' ⊢
      rw [hpushed', hpushed, rowsOf, List.append_assoc]
    · simp only at hsame hsame' ⊢
      rw [rowsOf, rowsOf, hsame, hsame']

end

mutual

theorem setNodeCollapseState_zeroed (update : CollapseStateUpdate) (node : Node T) (hzeroed : node.Zeroed) :
    (setNodeCollapseState update node).1.Zeroed := by
  cases node with
  | mk element collapsible collapsed count visibility visible children =>
    simp only [setNodeCollapseState]
    split
    · exact ⟨hzeroed.1, setNodesCollapseState_zeroed _ children hzeroed.2⟩
    · exact hzeroed

theorem setNodesCollapseState_zeroed (update : CollapseStateUpdate) (nodes : List (Node T)) (hzeroed : AllZeroed nodes) :
    AllZeroed (setNodesCollapseState update nodes).1 := by
  cases nodes with
  | nil => trivial
  | cons node nodes =>
    exact ⟨setNodeCollapseState_zeroed update node hzeroed.1, setNodesCollapseState_zeroed update nodes hzeroed.2⟩

end

mutual

theorem setNodeCollapseState_same (update : CollapseStateUpdate) (node : Node T)
    (h : (setNodeCollapseState update node).2 = false) : (setNodeCollapseState update node).1 = node := by
  cases node with
  | mk element collapsible collapsed count visibility visible children =>
    have hown : ∀ {value : Bool × Bool × Bool}, ownCollapseState collapsible collapsed update = value → value.2.2 = false →
        value.1 = collapsible ∧ value.2.1 = collapsed := by
      intro value hvalue hfalse
      subst hvalue
      cases update with
      | collapsible value =>
        have : collapsible = value := by simpa [ownCollapseState] using hfalse
        exact ⟨this.symm, rfl⟩
      | collapsed value recursive =>
        unfold ownCollapseState at hfalse ⊢
        cases collapsible with
        | false => exact ⟨rfl, rfl⟩
        | true =>
          have : collapsed = value := by simpa using hfalse
          exact ⟨rfl, this.symm⟩
    simp only [setNodeCollapseState] at h ⊢
    generalize hvalue : ownCollapseState collapsible collapsed update = value at h ⊢
    split at h
    · simp only [Bool.or_eq_false_iff] at h
      obtain ⟨rfl, rfl⟩ := hown hvalue h.2
      simp only [setNodesCollapseState_same _ children h.1]
    · obtain ⟨rfl, rfl⟩ := hown hvalue h
      rfl

theorem setNodesCollapseState_same (update : CollapseStateUpdate) (nodes : List (Node T))
    (h : (setNodesCollapseState update nodes).2 = false) : (setNodesCollapseState update nodes).1 = nodes := by
  cases nodes with
  | nil => rfl
  | cons node nodes =>
    unfold setNodesCollapseState at h ⊢
    simp only [Bool.or_eq_false_iff] at h
    simp only [setNodeCollapseState_same update node h.1, setNodesCollapseState_same update nodes h.2]

end

end Collapse

end TongjiCode.IndexTree
