import TongjiCode.IndexTree.Paths

/-!
# Collapse changes

A collapse update looks only at collapsed nodes above, not at hidden ones.  `Fits` says that this does no harm: nothing
above the node is hidden, or something above it is collapsed, or the node itself is not visible.
-/

open List

namespace TongjiCode.IndexTree

variable {T : Type}

/-! ## The list shows the tree -/

/-- The list has exactly the rows of the tree, and what is counted is right.  The root counts itself after it was
collapsed or expanded recursively. -/
structure Shows (s : IndexTreeModel T) : Prop where
  zeroed : AllZeroed s.children
  counted : AllCounted s.children
  list : s.list = rowsOf s.children
  count : s.renderNodeCount = s.list.length ∨ s.renderNodeCount = s.list.length + 1

/-- The call replaces rows of the subtree that is being changed. -/
def SpliceCall.Inside (call : SpliceCall T) : Prop :=
  ∃ pre post, call.list = pre ++ call.subtree ++ post ∧ pre.length ≤ call.start ∧ 0 ≤ call.deleteCount ∧
    call.start + call.deleteCount ≤ pre.length + call.subtree.length

/-- The root counts the list, and no call went beyond its subtree. -/
structure Tight (s : IndexTreeModel T) : Prop where
  count : s.renderNodeCount = s.list.length
  calls : ∀ call ∈ s.calls, call.Inside

theorem spliceArray_eq {pre mid post items : List T} {start deleteCount : Int} (hstart : start = pre.length)
    (hcount : deleteCount = mid.length) : spliceArray (pre ++ mid ++ post) start deleteCount items = pre ++ items ++ post := by
  subst hstart hcount
  have hpre : ¬ (pre.length : Int) < 0 := by omega
  simp only [spliceArray, hpre, if_false, Int.toNat_natCast]
  rw [← length_append, drop_left, append_assoc pre mid, take_left]

theorem spliceArray_all {list items : List T} {count : Int} (h : list.length ≤ count) :
    spliceArray list 0 count items = items := by
  simp only [spliceArray, Int.lt_irrefl, if_false, Int.toNat_zero, take_zero, Nat.zero_add]
  rw [drop_eq_nil_of_le (by omega)]
  simp

theorem Tight.spliceList {s : IndexTreeModel T} (h : Tight s) {subtree : List T} (items : List T) {start deleteCount : Int}
    {pre post : List T} (hlist : s.list = pre ++ subtree ++ post) (hstart : pre.length ≤ start) (hcount : 0 ≤ deleteCount)
    (hend : start + deleteCount ≤ pre.length + subtree.length) :
    ∀ call ∈ (s.spliceList subtree start deleteCount items).calls, call.Inside := by
  intro call hcall
  rcases mem_append.mp hcall with hcall | hcall
  · exact h.calls call hcall
  · rw [mem_singleton] at hcall
    subst hcall
    exact ⟨pre, post, hlist, hstart, hcount, hend⟩

/-! ## What a collapse update leaves as it is -/

section Same

variable {node : Node T} {update : CollapseStateUpdate}

theorem setNodeCollapseState_visible : (setNodeCollapseState update node).1.visible = node.visible := by
  cases node
  simp only [setNodeCollapseState]
  split <;> rfl

theorem setNodeCollapseState_renderNodeCount :
    (setNodeCollapseState update node).1.renderNodeCount = node.renderNodeCount := by
  cases node
  simp only [setNodeCollapseState]
  split <;> rfl

theorem setNodeCollapseState_element : (setNodeCollapseState update node).1.element = node.element := by
  cases node
  simp only [setNodeCollapseState]
  split <;> rfl

theorem Node.rows_visible (h : node.visible = true) : ∃ below, node.rows = node.element :: below := by
  cases node
  cases h
  exact ⟨_, rfl⟩

theorem updateNodesAfterCollapseChange_visible (acc : List T) (nodes : List (Node T)) :
    (updateNodesAfterCollapseChange acc nodes).1.map Node.visible = nodes.map Node.visible := by
  induction nodes generalizing acc with
  | nil => rfl
  | cons node nodes ih =>
    simp only [updateNodesAfterCollapseChange, map_cons]
    rw [ih]
    congr 1
    cases node
    simp only [updateNodeAfterCollapseChange]
    split
    · rfl
    · split <;> rfl

theorem updateNodeAfterCollapseChange_same (acc : List T) (node : Node T) :
    let node' := (updateNodeAfterCollapseChange acc node).1
    node'.visible = node.visible ∧ node'.collapsed = node.collapsed ∧ node'.collapsible = node.collapsible ∧
      node'.children.map Node.visible = node.children.map Node.visible := by
  cases node
  simp only [updateNodeAfterCollapseChange]
  split
  · exact ⟨rfl, rfl, rfl, rfl⟩
  · split
    · exact ⟨rfl, rfl, rfl, updateNodesAfterCollapseChange_visible _ _⟩
    · exact ⟨rfl, rfl, rfl, rfl⟩

end Same

/-! ## One node -/

/-- The update can go on to an only child. -/
def autoUpdate (options : Options) : CollapseStateUpdate → Bool
  | .collapsed false false => options.autoExpandSingleChildren
  | _ => false

/-- The update changes nothing, or something above the node is collapsed, or the node is not visible and has no part in an
update that goes on to its children, or the node and all above it are visible. -/
def Fits (options : Options) (update : CollapseStateUpdate) (found : FoundNode T) : Prop :=
  (setNodeCollapseState update found.node).2 = true → found.revealed = true →
    (found.node.visible = true ∨ autoUpdate options update = true) → found.visible = true ∧ found.node.visible = true

section OneNode

variable {options : Options} {update : CollapseStateUpdate} {s : IndexTreeModel T} {location : List Nat} {found : FoundNode T}

theorem Shows.replace (h : Shows s) (hfound : locate s.children 0 true true location = some found) {node : Node T}
    (hzeroed : node.Zeroed)
    (hnode : (found.revealed && found.visible) = true → node.Counted ∧ node.rows = found.node.rows) :
    Shows { s with children := replaceNode 0 node s.children location } := by
  have hzeroed' := replaceNode_zeroed hfound h.zeroed hzeroed (.inr rfl)
  by_cases hopen : (found.revealed && found.visible) = true
  · obtain ⟨hcounted, hrows⟩ := hnode hopen
    rw [Bool.and_eq_true_iff] at hopen
    obtain ⟨-, pre, post, hsplit, -, hreplace⟩ := locate_open hfound hopen.1 hopen.2 h.counted
    obtain ⟨hrows', hcounted'⟩ := hreplace node 0 (by rw [hrows]; omega) hcounted
    refine ⟨hzeroed', hcounted', ?_, h.count⟩
    show s.list = _
    rw [hrows', hrows, ← hsplit, h.list]
  · rw [Bool.not_eq_true] at hopen
    obtain ⟨hrows, hcounted⟩ := locate_closed hfound hopen h.counted node
    exact ⟨hzeroed', hcounted, h.list.trans hrows.symm, h.count⟩

theorem Shows.setListNodeCollapseState (h : Shows s) (hfound : locate s.children 0 true true location = some found)
    (hfits : Fits options update found) :
    Shows (s.setListNodeCollapseState location found update).1 ∧
      (Tight s → Tight (s.setListNodeCollapseState location found update).1) := by
  have hzeroed := setNodeCollapseState_zeroed update found.node (locate_zeroed hfound h.zeroed)
  have hvisible := @setNodeCollapseState_visible T found.node update
  have hcount := @setNodeCollapseState_renderNodeCount T found.node update
  have helement := @setNodeCollapseState_element T found.node update
  have hsame := setNodeCollapseState_same update found.node
  unfold IndexTreeModel.setListNodeCollapseState Fits at *
  generalize setNodeCollapseState update found.node = changed at *
  obtain ⟨node, result⟩ := changed
  simp only at *
  by_cases hskip : (!found.revealed || !node.visible || !result) = true
  · rw [if_pos hskip]
    refine ⟨h.replace hfound hzeroed fun hopen => ?_, fun htight => ⟨htight.count, htight.calls⟩⟩
    rw [Bool.and_eq_true_iff] at hopen
    have hfoundCounted := (locate_open hfound hopen.1 hopen.2 h.counted).1
    -- the node is revealed, so it is not visible or was not changed
    cases result with
    | false =>
      rw [hsame rfl]
      exact ⟨hfoundCounted, rfl⟩
    | true =>
      have hhidden : node.visible = false := by simpa [hopen.1] using hskip
      have hrows := Node.rows_of_hidden hhidden
      refine ⟨?_, by rw [hrows, Node.rows_of_hidden (hvisible ▸ hhidden)]⟩
      cases node with
      | mk element collapsible collapsed count visibility visible children =>
        exact ⟨by rw [hrows]; exact hzeroed.1 hhidden, fun hshown => absurd (hhidden.symm.trans hshown) (by decide)⟩
  · rw [if_neg hskip]
    simp only [Bool.or_eq_true, Bool.not_eq_true', not_or, Bool.not_eq_false] at hskip
    obtain ⟨⟨hrevealed, hshown⟩, hresult⟩ := hskip
    obtain ⟨hallVisible, -⟩ := hfits hresult hrevealed (.inl (hvisible ▸ hshown))
    obtain ⟨hfoundCounted, pre, post, hsplit, hindex, hreplace⟩ := locate_open hfound hrevealed hallVisible h.counted
    obtain ⟨hzeroed', hcounted', hpushed, hrows⟩ := updateNodeAfterCollapseChange_spec [] node hzeroed
    obtain ⟨hvisible', -⟩ := updateNodeAfterCollapseChange_same [] node
    have helement' : (updateNodeAfterCollapseChange [] node).1.element = node.element := by
      cases node
      simp only [updateNodeAfterCollapseChange]
      split
      · rfl
      · split <;> rfl
    generalize updateNodeAfterCollapseChange [] node = updated at *
    obtain ⟨node', toInsert⟩ := updated
    simp only [nil_append] at *
    subst hpushed
    have hcountRows : node.renderNodeCount = found.node.rows.length := by rw [hcount, hfoundCounted.renderNodeCount_eq]
    obtain ⟨hrows', hcounted''⟩ := hreplace node' ((node'.rows.length : Int) - node.renderNodeCount) (by omega) hcounted'
    -- the row of the node itself stays where it is
    obtain ⟨below, hbelow⟩ := Node.rows_visible (hvisible ▸ hshown)
    obtain ⟨below', hbelow'⟩ := Node.rows_visible (hvisible'.trans hshown)
    have hlist : s.list = (pre ++ [found.node.element]) ++ below ++ post := by
      rw [h.list, hsplit, hbelow]
      simp
    have hspliced : spliceArray s.list (found.listIndex + 1) (node.renderNodeCount - 1) (node'.rows.drop 1) =
        rowsOf (replaceNode ((node'.rows.length : Int) - node.renderNodeCount) node' s.children location) := by
      rw [hlist, spliceArray_eq, hrows', hbelow', helement', helement]
      · simp
      · rw [hindex, length_append, length_singleton]
        omega
      · rw [hcountRows, hbelow, length_cons]
        omega
    have hlength := congrArg List.length hspliced
    have hlengthBefore := congrArg List.length (h.list.trans hsplit)
    rw [hrows'] at hlength
    simp only [length_append] at hlength hlengthBefore
    refine ⟨⟨?_, hcounted'', hspliced, ?_⟩, fun htight => ⟨?_, ?_⟩⟩
    · exact replaceNode_zeroed hfound h.zeroed hzeroed' (.inl hallVisible)
    · show s.renderNodeCount + _ = ((spliceArray _ _ _ _).length : Int) ∨
        s.renderNodeCount + _ = ((spliceArray _ _ _ _).length : Int) + 1
      have := h.count
      omega
    · show s.renderNodeCount + _ = ((spliceArray _ _ _ _).length : Int)
      have := htight.count
      omega
    · have hbelowLength := congrArg List.length hbelow
      rw [length_cons] at hbelowLength
      exact htight.spliceList (node'.rows.drop 1) (h.list.trans hsplit) (by omega) (by omega) (by omega)

end OneNode

/-! ## The root -/

section Root

variable {s : IndexTreeModel T}

theorem Shows.setRootCollapseState (h : Shows s) (update : CollapseStateUpdate) : Shows (s.setRootCollapseState update).1 := by
  unfold IndexTreeModel.setRootCollapseState
  split
  · next collapsed =>
    have hzeroed := setNodesCollapseState_zeroed (.collapsed collapsed true) s.children h.zeroed
    split
    · exact h
    · next nodes heq =>
      rw [heq] at hzeroed
      obtain ⟨hzeroed', hcounted', hpushed, -⟩ := updateNodesAfterCollapseChange_spec [] nodes hzeroed
      generalize updateNodesAfterCollapseChange [] nodes = updated at *
      obtain ⟨children, toInsert⟩ := updated
      simp only [nil_append] at *
      subst hpushed
      have hlist : spliceArray s.list 0 s.renderNodeCount (rowsOf children) = rowsOf children := by
        have := h.count
        exact spliceArray_all (by omega)
      refine ⟨hzeroed', hcounted', hlist, .inr ?_⟩
      show 1 + _ = ((spliceArray _ _ _ _).length : Int) + 1
      rw [hlist, renderNodeCounts_filter hzeroed', renderNodeCounts_eq hcounted']
      omega
  · exact h

/-- A recursive update of the root does not change a collapse state. -/
def RootKept (s : IndexTreeModel T) : CollapseStateUpdate → Prop
  | .collapsed collapsed true => (setNodesCollapseState (.collapsed collapsed true) s.children).2 = false
  | _ => True

theorem Tight.setRootCollapseState {update : CollapseStateUpdate} (h : Tight s) (hkept : RootKept s update) :
    Tight (s.setRootCollapseState update).1 := by
  unfold IndexTreeModel.setRootCollapseState
  split
  · next collapsed =>
    split
    · exact h
    · next nodes heq =>
      have hfalse : (setNodesCollapseState (.collapsed collapsed true) s.children).2 = false := hkept
      rw [heq] at hfalse
      cases hfalse
  · exact h

end Root

/-! ## Single children -/

section SingleChildren

variable {options : Options} {update : CollapseStateUpdate} {s : IndexTreeModel T} {location : List Nat} {found : FoundNode T}

theorem setListNodeCollapseState_children (s : IndexTreeModel T) (location : List Nat) (found : FoundNode T)
    (update : CollapseStateUpdate) :
    ∃ diff node, (s.setListNodeCollapseState location found update).1.children =
        replaceNode diff node s.children location ∧
      node.visible = found.node.visible ∧ node.collapsed = (setNodeCollapseState update found.node).1.collapsed ∧
      node.children.map Node.visible = (setNodeCollapseState update found.node).1.children.map Node.visible := by
  have hvisible := @setNodeCollapseState_visible T found.node update
  unfold IndexTreeModel.setListNodeCollapseState
  generalize setNodeCollapseState update found.node = changed at *
  obtain ⟨node, result⟩ := changed
  simp only at *
  split
  · exact ⟨0, node, rfl, hvisible, rfl, rfl⟩
  · obtain ⟨hvisible', hcollapsed', -, hchildren'⟩ := updateNodeAfterCollapseChange_same [] node
    exact ⟨_, _, rfl, hvisible'.trans hvisible, hcollapsed', hchildren'⟩

theorem autoUpdate_of_autoExpands {node : Node T} {result : Bool}
    (h : IndexTreeModel.autoExpands options update (setNodeCollapseState update node).1 result = true) :
    autoUpdate options update = true ∧ (setNodeCollapseState update node).1.collapsed = false ∧ result = true := by
  unfold IndexTreeModel.autoExpands at h
  simp only [Bool.and_eq_true, Bool.not_eq_true'] at h
  obtain ⟨⟨⟨⟨hoptions, hresult⟩, hupdate⟩, hcollapsible⟩, hopen⟩ := h
  refine ⟨?_, hopen, hresult⟩
  cases update with
  | collapsible value => cases hupdate
  | collapsed value recursive =>
    cases recursive with
    | true => cases hupdate
    | false =>
      cases node with
      | mk element collapsible collapsed count visibility visible children =>
        cases collapsible with
        | false => cases hcollapsible
        | true =>
          have : value = false := hopen
          subst this
          exact hoptions

theorem onlyVisibleChildIndex_visible {children : List (Node T)} {index : Nat}
    (h : IndexTreeModel.onlyVisibleChildIndex children = some index) : (children.map Node.visible)[index]? = some true := by
  unfold IndexTreeModel.onlyVisibleChildIndex at h
  split at h
  · next hcount =>
    cases h
    have hexists : ∃ child ∈ children, child.visible = true := countP_pos_iff.mp (by omega)
    have hlt := findIdx_lt_length.mpr hexists
    rw [getElem?_map, getElem?_eq_getElem hlt, Option.map_some]
    exact congrArg some findIdx_getElem
  · cases h

theorem Shows.setCollapseState (h : Shows s) (depth : Nat)
    (hfits : ∀ found, locate s.children 0 true true location = some found → Fits options update found) :
    Shows (s.setCollapseState options update depth location) ∧
      (Tight s → Tight (s.setCollapseState options update depth location)) := by
  induction depth generalizing s location with
  | zero =>
    unfold IndexTreeModel.setCollapseState
    rw [getTreeNodeWithListIndex_eq]
    cases hfound : locate s.children 0 true true location with
    | none => exact ⟨h, id⟩
    | some found =>
      have hstep := h.setListNodeCollapseState hfound (hfits found hfound)
      simp only
      split <;> exact hstep
  | succ depth ih =>
    unfold IndexTreeModel.setCollapseState
    rw [getTreeNodeWithListIndex_eq]
    cases hfound : locate s.children 0 true true location with
    | none => exact ⟨h, id⟩
    | some found =>
      have hstep := h.setListNodeCollapseState hfound (hfits found hfound)
      simp only
      split
      · next hauto =>
        obtain ⟨hupdate, hopen, hresult⟩ := autoUpdate_of_autoExpands hauto
        cases hindex : IndexTreeModel.onlyVisibleChildIndex (setNodeCollapseState update found.node).1.children with
        | none => exact hstep
        | some index =>
          -- the child is visible, and so is everything above it that is revealed
          refine (ih hstep.1 fun child hchild => ?_).imp_right fun htight hs => htight (hstep.2 hs)
          obtain ⟨diff, node, hchildren, hvisible, hcollapsed, hsame⟩ :=
            setListNodeCollapseState_children s location found update
          obtain ⟨listIndex, hbelow⟩ := locate_below hfound diff node index
          rw [hchildren, hbelow] at hchild
          obtain ⟨childNode, hchildNode, rfl⟩ := Option.map_eq_some_iff.mp hchild
          intro _ hrevealed _
          simp only [Bool.and_eq_true] at hrevealed ⊢
          have hshown := hfits found hfound (by
            have hresult' : (s.setListNodeCollapseState location found update).2 = (setNodeCollapseState update found.node).2 := by
              unfold IndexTreeModel.setListNodeCollapseState
              simp only
              split <;> rfl
            rw [← hresult', hresult]) hrevealed.1 (.inr hupdate)
          refine ⟨⟨hshown.1, hvisible.trans hshown.2⟩, ?_⟩
          have hchildVisible := onlyVisibleChildIndex_visible hindex
          rw [← hsame, getElem?_map, hchildNode] at hchildVisible
          exact Option.some.inj hchildVisible
      · exact hstep

/-! ### The bound on how far an update goes -/

theorem height_le_heights {nodes : List (Node T)} {node : Node T} (h : node ∈ nodes) : node.height ≤ heights nodes := by
  induction nodes with
  | nil => cases h
  | cons first nodes ih =>
    rw [heights]
    rcases mem_cons.mp h with rfl | h
    · omega
    · have := ih h
      omega

mutual

theorem setNodeCollapseState_height (update : CollapseStateUpdate) (node : Node T) :
    (setNodeCollapseState update node).1.height = node.height := by
  cases node with
  | mk element collapsible collapsed count visibility visible children =>
    simp only [setNodeCollapseState]
    split
    · simp only [Node.height, setNodesCollapseState_heights _ children]
    · rfl

theorem setNodesCollapseState_heights (update : CollapseStateUpdate) (nodes : List (Node T)) :
    heights (setNodesCollapseState update nodes).1 = heights nodes := by
  cases nodes with
  | nil => rfl
  | cons node nodes =>
    simp only [setNodesCollapseState, heights, setNodeCollapseState_height update node,
      setNodesCollapseState_heights update nodes]

end

mutual

theorem updateNodeAfterCollapseChange_height (acc : List T) (node : Node T) :
    (updateNodeAfterCollapseChange acc node).1.height = node.height := by
  cases node with
  | mk element collapsible collapsed count visibility visible children =>
    simp only [updateNodeAfterCollapseChange]
    split
    · rfl
    · split
      · simp only [Node.height, updateNodesAfterCollapseChange_heights _ children]
      · rfl

theorem updateNodesAfterCollapseChange_heights (acc : List T) (nodes : List (Node T)) :
    heights (updateNodesAfterCollapseChange acc nodes).1 = heights nodes := by
  cases nodes with
  | nil => rfl
  | cons node nodes =>
    simp only [updateNodesAfterCollapseChange, heights, updateNodeAfterCollapseChange_height acc node,
      updateNodesAfterCollapseChange_heights _ nodes]

end

theorem Node.height_eq (node : Node T) : node.height = heights node.children + 1 := by
  cases node
  rfl

theorem locate_height {children : List (Node T)} {listIndex : Int} {revealed visible : Bool}
    (h : locate children listIndex revealed visible location = some found) : found.node.height ≤ heights children := by
  induction location generalizing children listIndex revealed visible with
  | nil => cases h
  | cons index rest ih =>
    cases rest with
    | nil =>
      obtain ⟨node, hnode, rfl⟩ := Option.map_eq_some_iff.mp h
      exact height_le_heights (mem_of_getElem? hnode)
    | cons next rest =>
      obtain ⟨node, hnode, hrest⟩ := Option.bind_eq_some_iff.mp h
      have := ih hrest
      have := height_le_heights (mem_of_getElem? hnode)
      rw [Node.height_eq] at this
      omega

theorem setListNodeCollapseState_height (s : IndexTreeModel T) (location : List Nat) (found : FoundNode T)
    (update : CollapseStateUpdate) :
    ∃ diff node, (s.setListNodeCollapseState location found update).1.children =
      replaceNode diff node s.children location ∧ node.height = found.node.height := by
  have hheight := setNodeCollapseState_height update found.node
  unfold IndexTreeModel.setListNodeCollapseState
  generalize setNodeCollapseState update found.node = changed at *
  obtain ⟨node, result⟩ := changed
  simp only at *
  split
  · exact ⟨0, node, rfl, hheight⟩
  · exact ⟨_, _, rfl, (updateNodeAfterCollapseChange_height [] node).trans hheight⟩

theorem setCollapseState_enough (depth : Nat)
    (hheight : ∀ found, locate s.children 0 true true location = some found → found.node.height ≤ depth + 1) (more : Nat) :
    s.setCollapseState options update (depth + more) location = s.setCollapseState options update depth location := by
  induction depth generalizing s location with
  | zero =>
    unfold IndexTreeModel.setCollapseState
    rw [getTreeNodeWithListIndex_eq]
    cases hfound : locate s.children 0 true true location with
    | none => rfl
    | some found =>
      simp only
      -- the node has no children
      have hchildren : (setNodeCollapseState update found.node).1.children = [] := by
        have hle := hheight found hfound
        rw [← setNodeCollapseState_height update, Node.height_eq] at hle
        cases hnodes : (setNodeCollapseState update found.node).1.children with
        | nil => rfl
        | cons node nodes =>
          rw [hnodes, heights, Node.height_eq node] at hle
          omega
      rw [hchildren]
      cases more <;> rfl
  | succ depth ih =>
    rw [Nat.add_right_comm]
    unfold IndexTreeModel.setCollapseState
    rw [getTreeNodeWithListIndex_eq]
    cases hfound : locate s.children 0 true true location with
    | none => rfl
    | some found =>
      simp only
      split
      · cases hindex : IndexTreeModel.onlyVisibleChildIndex (setNodeCollapseState update found.node).1.children with
        | none => rfl
        | some index =>
          refine ih fun child hchild => ?_
          obtain ⟨diff, node, hchildren, hsame⟩ := setListNodeCollapseState_height s location found update
          obtain ⟨listIndex, hbelow⟩ := locate_below hfound diff node index
          rw [hchildren, hbelow] at hchild
          obtain ⟨childNode, hchildNode, rfl⟩ := Option.map_eq_some_iff.mp hchild
          have hle := hheight found hfound
          have hchildLe := height_le_heights (mem_of_getElem? hchildNode)
          rw [← hsame, Node.height_eq] at hle
          show childNode.height ≤ depth + 1
          omega
      · rfl

/-- The bound that the model uses is large enough: a larger one changes nothing. -/
theorem setCollapseState_heights (s : IndexTreeModel T) (location : List Nat) (more : Nat) :
    s.setCollapseState options update (heights s.children + more) location =
      s.setCollapseState options update (heights s.children) location :=
  setCollapseState_enough _ (fun _ hfound => Nat.le_succ_of_le (locate_height hfound)) more

end SingleChildren

end TongjiCode.IndexTree
