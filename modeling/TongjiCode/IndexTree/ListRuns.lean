import TongjiCode.IndexTree.CollapseChanges

/-!
# The list shows the tree

Every operation keeps the list right, as long as the collapse updates fit.
-/

open List

namespace TongjiCode.IndexTree

variable {T : Type}

/-! ## Collapse updates at a location -/

section Updates

variable {options : Options} {update : CollapseStateUpdate} {s : IndexTreeModel T} {location : List Nat}

def UpdateFits (options : Options) (s : IndexTreeModel T) (update : CollapseStateUpdate) (location : List Nat) : Prop :=
  ∀ found, getTreeNodeWithListIndex s.children location = some found → Fits options update found

theorem Shows.updateCollapseState (h : Shows s) (hfits : UpdateFits options s update location) :
    Shows (s.updateCollapseState options update location) := by
  cases location with
  | nil => exact h.setRootCollapseState update
  | cons index rest =>
    refine (h.setCollapseState (heights s.children) fun found hfound => ?_).1
    exact hfits found (by rw [getTreeNodeWithListIndex_eq, hfound])

theorem Tight.updateCollapseState (h : Tight s) (hs : Shows s) (hfits : UpdateFits options s update location)
    (hkept : location = [] → RootKept s update) : Tight (s.updateCollapseState options update location) := by
  cases location with
  | nil => exact h.setRootCollapseState (hkept rfl)
  | cons index rest =>
    refine (hs.setCollapseState (heights s.children) fun found hfound => ?_).2 h
    exact hfits found (by rw [getTreeNodeWithListIndex_eq, hfound])

theorem setCollapseState_above (depth : Nat) {below : List Nat} (hbelow : below ≠ []) :
    (locate (s.setCollapseState options update depth (location ++ below)).children 0 true true location).map FoundNode.flags =
      (locate s.children 0 true true location).map FoundNode.flags := by
  have hstep : ∀ (s : IndexTreeModel T) (found : FoundNode T) {below : List Nat}, below ≠ [] →
      (locate (s.setListNodeCollapseState (location ++ below) found update).1.children 0 true true location).map FoundNode.flags =
        (locate s.children 0 true true location).map FoundNode.flags := by
    intro s found below hbelow
    obtain ⟨diff, node, hchildren, -⟩ := setListNodeCollapseState_children s (location ++ below) found update
    rw [hchildren]
    exact locate_above diff node hbelow
  induction depth generalizing s below with
  | zero =>
    unfold IndexTreeModel.setCollapseState
    split
    · rfl
    · next found hfound =>
      simp only
      split <;> exact hstep s found hbelow
  | succ depth ih =>
    unfold IndexTreeModel.setCollapseState
    split
    · rfl
    · next found hfound =>
      simp only
      split
      · cases hindex : IndexTreeModel.onlyVisibleChildIndex (setNodeCollapseState update found.node).1.children with
        | none => exact hstep s found hbelow
        | some index =>
          have hnested := @ih (s.setListNodeCollapseState (location ++ below) found update).1 (below ++ [index]) (by simp)
          rw [← append_assoc] at hnested
          exact hnested.trans (hstep s found hbelow)
      · exact hstep s found hbelow

end Updates

/-! ## Expanding to a node -/

section Expanding

variable {options : Options} {s : IndexTreeModel T} {location : List Nat}

def CollapseStateUpdate.Single (update : CollapseStateUpdate) : Prop := ∀ collapsed, update ≠ .collapsed collapsed true

variable {update : CollapseStateUpdate}

theorem fits_of_flags (hsingle : update.Single) {found found' : FoundNode T} (h : found'.flags = found.flags)
    (hfits : Fits options update found) : Fits options update found' := by
  have hchanged : ∀ node : Node T, (setNodeCollapseState update node).2 =
      (ownCollapseState node.collapsible node.collapsed update).2.2 := by
    intro node
    cases node with
    | mk element collapsible collapsed count visibility visible children =>
      simp only [setNodeCollapseState]
      split
      · next value => exact absurd rfl (hsingle value)
      · rfl
  unfold Fits at hfits ⊢
  rw [hchanged] at hfits ⊢
  unfold FoundNode.flags at h
  simp only [Prod.mk.injEq] at h
  obtain ⟨hrevealed, hvisible, hnodeVisible, hcollapsed, hcollapsible⟩ := h
  rw [hrevealed, hvisible, hnodeVisible, hcollapsed, hcollapsible]
  exact hfits

theorem updateFits_of_flags (hsingle : update.Single) {s s' : IndexTreeModel T} {location : List Nat}
    (h : (locate s'.children 0 true true location).map FoundNode.flags = (locate s.children 0 true true location).map FoundNode.flags)
    (hfits : UpdateFits options s update location) : UpdateFits options s' update location := by
  intro found' hfound'
  rw [getTreeNodeWithListIndex_eq] at hfound'
  rw [hfound'] at h
  obtain ⟨found, hfound, hflags⟩ := Option.map_eq_some_iff.mp h.symm
  exact fits_of_flags hsingle hflags.symm (hfits found (by rw [getTreeNodeWithListIndex_eq, hfound]))

/-- Expanding fits at every node above the location. -/
def ExpandFits (options : Options) (s : IndexTreeModel T) (location : List Nat) : Prop :=
  ∀ above below, location = above ++ below → below ≠ [] → UpdateFits options s (.collapsed false false) above

theorem Shows.expandAncestors (h : Shows s) (above : Nat) (hfits : ExpandFits options s location) :
    Shows (s.expandAncestors options above location) ∧ (Tight s → Tight (s.expandAncestors options above location)) := by
  induction above generalizing s location with
  | zero => exact ⟨h, id⟩
  | succ above ih =>
    unfold IndexTreeModel.expandAncestors
    simp only
    cases hfound : getTreeNodeWithListIndex s.children location.dropLast with
    | none => exact ⟨h, id⟩
    | some found =>
      have hne : location ≠ [] := by
        rintro rfl
        cases hfound
      have hsplit : location = location.dropLast ++ [location.getLast hne] := (dropLast_append_getLast hne).symm
      have hne' : location.dropLast ≠ [] := by
        intro hempty
        rw [hempty] at hfound
        cases hfound
      have hparent := hfits _ _ hsplit (by simp)
      simp only
      split
      · -- what is above the node that is expanded keeps its flags
        have hnext : ExpandFits options (s.updateCollapseState options (.collapsed false false) location.dropLast)
            location.dropLast := by
          intro above' below' heq hbelow'
          refine updateFits_of_flags (fun _ h => by cases h) ?_ (hfits above' (below' ++ [location.getLast hne]) ?_ (by simp))
          · have hflags := @setCollapseState_above T options (.collapsed false false) s above' (heights s.children) below' hbelow'
            rw [← heq] at hflags
            cases hlocation : location.dropLast with
            | nil => exact absurd hlocation hne'
            | cons index rest =>
              rw [hlocation] at hflags
              exact hflags
          · rw [← append_assoc, ← heq]
            exact hsplit
        obtain ⟨hshows, htight⟩ := ih (h.updateCollapseState hparent) hnext
        exact ⟨hshows, fun hs => htight (hs.updateCollapseState h hparent fun hempty => absurd hempty hne')⟩
      · refine ih h fun above' below' heq hbelow' => hfits above' (below' ++ [location.getLast hne]) ?_ (by simp)
        rw [← append_assoc, ← heq]
        exact hsplit

end Expanding

/-! ## Filtering again -/

section Refilter

variable {s : IndexTreeModel T}

theorem Shows.refilter (h : Shows s) (filter : Filter T) :
    Shows (s.refilter filter) ∧ (Tight s → Tight (s.refilter filter)) := by
  obtain ⟨hzeroed, hcounted, hpushed⟩ := @updateNodesAfterFilterChange_spec T filter none [] true s.children h.zeroed
  unfold IndexTreeModel.refilter
  generalize updateNodesAfterFilterChange filter none [] true s.children = updated at *
  obtain ⟨children, toInsert⟩ := updated
  simp only [if_true, nil_append] at *
  subst hpushed
  have hlist : spliceArray s.list 0 s.renderNodeCount (rowsOf children) = rowsOf children := by
    have := h.count
    exact spliceArray_all (by omega)
  have hlength := congrArg List.length hlist
  refine ⟨⟨hzeroed, hcounted trivial, hlist, .inl ?_⟩, fun htight => ⟨?_, ?_⟩⟩
  · show ((rowsOf children).length : Int) = ((spliceArray _ _ _ _).length : Int)
    omega
  · show ((rowsOf children).length : Int) = ((spliceArray _ _ _ _).length : Int)
    omega
  · have := htight.count
    have hrows := congrArg List.length h.list
    have hall : s.list = [] ++ rowsOf s.children ++ [] := by
      rw [h.list]
      simp
    exact htight.spliceList (rowsOf children) hall (by simp) (by omega) (by simp; omega)

end Refilter

/-! ## Splicing -/

section Splice

def exchange (children : List (Node T)) (index deleteCount : Nat) (nodes : List (Node T)) : List (Node T) :=
  children.take index ++ nodes ++ children.drop (index + deleteCount)

variable {children nodes : List (Node T)} (index deleteCount : Nat)

theorem children_split (children : List (Node T)) : children =
    children.take index ++ (children.drop index).take deleteCount ++ children.drop (index + deleteCount) := by
  rw [append_assoc, ← drop_drop, take_append_drop, take_append_drop]

theorem AllZeroed.exchange (h : AllZeroed children) (hnodes : AllZeroed nodes) :
    AllZeroed (exchange children index deleteCount nodes) ∧ AllZeroed ((children.drop index).take deleteCount) := by
  rw [children_split index deleteCount children, allZeroed_append, allZeroed_append] at h
  unfold IndexTree.exchange
  rw [allZeroed_append, allZeroed_append]
  exact ⟨⟨⟨h.1.1, hnodes⟩, h.2⟩, h.1.2⟩

theorem AllCounted.exchange (h : AllCounted children) (hnodes : AllCounted nodes) :
    AllCounted (exchange children index deleteCount nodes) ∧ AllCounted (children.take index) ∧
      AllCounted ((children.drop index).take deleteCount) := by
  rw [children_split index deleteCount children, allCounted_append, allCounted_append] at h
  unfold IndexTree.exchange
  rw [allCounted_append, allCounted_append]
  exact ⟨⟨⟨h.1.1, hnodes⟩, h.2⟩, h.1.1, h.1.2⟩

theorem rowsOf_children_split : rowsOf children = rowsOf (children.take index) ++
    rowsOf ((children.drop index).take deleteCount) ++ rowsOf (children.drop (index + deleteCount)) := by
  conv_lhs => rw [children_split index deleteCount children]
  rw [rowsOf_append, rowsOf_append]

theorem rowsOf_exchange : rowsOf (exchange children index deleteCount nodes) = rowsOf (children.take index) ++
    rowsOf nodes ++ rowsOf (children.drop (index + deleteCount)) := by
  unfold exchange
  rw [rowsOf_append, rowsOf_append]

variable {s : IndexTreeModel T} {index deleteCount}

theorem Shows.exchangeRoot (h : Shows s) (hzeroed : AllZeroed nodes) (hcounted : AllCounted nodes) {visibleDeleteCount : Int}
    (hdelete : visibleDeleteCount = renderNodeCounts (((s.children.drop index).take deleteCount).filter Node.visible)) :
    let s' := ({ s with
      children := exchange s.children index deleteCount nodes
      renderNodeCount := s.renderNodeCount + (renderNodeCounts nodes - visibleDeleteCount) } : IndexTreeModel T).spliceList
        (rowsOf s.children) (0 + renderNodeCounts (s.children.take index)) visibleDeleteCount (rowsOf nodes)
    Shows s' ∧ (Tight s → Tight s') := by
  intro s'
  obtain ⟨hzeroed', hdeleted⟩ := h.zeroed.exchange index deleteCount hzeroed
  obtain ⟨hcounted', hbefore, hdeletedCounted⟩ := h.counted.exchange index deleteCount hcounted
  rw [renderNodeCounts_filter hdeleted, renderNodeCounts_eq hdeletedCounted] at hdelete
  have hrows := @rowsOf_children_split T s.children index deleteCount
  have hindex := renderNodeCounts_eq hbefore
  have hspliced : s'.list = rowsOf (exchange s.children index deleteCount nodes) := by
    show spliceArray s.list _ _ _ = _
    rw [h.list, hrows, spliceArray_eq (by omega) hdelete, rowsOf_exchange]
  have hlength := congrArg List.length hspliced
  have hlengthBefore := congrArg List.length (h.list.trans hrows)
  rw [rowsOf_exchange] at hlength
  simp only [length_append] at hlength hlengthBefore
  have hnodes := renderNodeCounts_eq hcounted
  refine ⟨⟨hzeroed', hcounted', hspliced, ?_⟩, fun htight => ⟨?_, ?_⟩⟩
  · show s.renderNodeCount + _ = (s'.list.length : Int) ∨ s.renderNodeCount + _ = (s'.list.length : Int) + 1
    have := h.count
    omega
  · show s.renderNodeCount + _ = (s'.list.length : Int)
    have := htight.count
    omega
  · have hall : s.list = [] ++ rowsOf s.children ++ [] := by
      rw [h.list]
      simp
    have hrowsLength := congrArg List.length h.list
    exact htight.spliceList (rowsOf nodes) hall (by simp; omega) (by omega) (by simp; omega)

variable {location : List Nat} {found : FoundNode T}

theorem Shows.exchangeOpen (h : Shows s) (hfound : locate s.children 0 true true location = some found)
    (hopen : (found.revealed && !found.node.collapsed) = true ∧ (found.visible && found.node.visible) = true)
    (hzeroed : AllZeroed nodes) (hcounted : AllCounted nodes) {visibleDeleteCount : Int}
    (hdelete : visibleDeleteCount = renderNodeCounts (((found.node.children.drop index).take deleteCount).filter Node.visible)) :
    let diff := renderNodeCounts nodes - visibleDeleteCount
    let s' := ({ s with
      children := replaceNode diff (found.node.withChildren (exchange found.node.children index deleteCount nodes) diff)
        s.children location
      renderNodeCount := s.renderNodeCount + diff } : IndexTreeModel T).spliceList found.node.rows
        (found.listIndex + 1 + renderNodeCounts (found.node.children.take index)) visibleDeleteCount (rowsOf nodes)
    Shows s' ∧ (Tight s → Tight s') := by
  intro diff s'
  simp only [Bool.and_eq_true, Bool.not_eq_true'] at hopen
  obtain ⟨⟨hrevealed, hnodeOpen⟩, hvisible, hnodeVisible⟩ := hopen
  obtain ⟨hfoundCounted, pre, post, hsplit, hlistIndex, hreplace⟩ := locate_open hfound hrevealed hvisible h.counted
  have hfoundZeroed := locate_zeroed hfound h.zeroed
  obtain ⟨hzeroed', hdeleted⟩ := hfoundZeroed.below.exchange index deleteCount hzeroed
  obtain ⟨hcounted', hbefore, hdeletedCounted⟩ :=
    (hfoundCounted.below hnodeVisible hnodeOpen).exchange index deleteCount hcounted
  rw [renderNodeCounts_filter hdeleted, renderNodeCounts_eq hdeletedCounted] at hdelete
  have hbelow := @rowsOf_children_split T found.node.children index deleteCount
  have hbelow' := @rowsOf_exchange T found.node.children nodes index deleteCount
  have hindex := renderNodeCounts_eq hbefore
  have hnodes := renderNodeCounts_eq hcounted
  have hbelowLength := congrArg List.length hbelow
  have hbelowLength' := congrArg List.length hbelow'
  simp only [length_append] at hbelowLength hbelowLength'
  have hnodeCounted : (found.node.withChildren (exchange found.node.children index deleteCount nodes) diff).Counted :=
    hfoundCounted.withChildren_open hnodeVisible hnodeOpen hcounted' (by omega)
  have hrows : (found.node.withChildren (exchange found.node.children index deleteCount nodes) diff).rows =
      found.node.element :: rowsOf (exchange found.node.children index deleteCount nodes) :=
    Node.rows_withChildren_open hnodeVisible hnodeOpen
  have hrowsFound := Node.rows_open hnodeVisible hnodeOpen
  obtain ⟨hrows', hcounted''⟩ := hreplace _ diff (by
    rw [hrows, hrowsFound, length_cons, length_cons]
    omega) hnodeCounted
  have hlist : s.list = (pre ++ found.node.element :: rowsOf (found.node.children.take index)) ++
      rowsOf ((found.node.children.drop index).take deleteCount) ++
      (rowsOf (found.node.children.drop (index + deleteCount)) ++ post) := by
    rw [h.list, hsplit, hrowsFound, hbelow]
    simp
  have hspliced : s'.list = rowsOf s'.children := by
    show spliceArray s.list _ _ _ = rowsOf (replaceNode _ _ _ _)
    rw [hrows', hrows, hbelow', hlist, spliceArray_eq _ hdelete]
    · simp
    · rw [length_append, length_cons]
      omega
  have hlength := congrArg List.length (hspliced.trans hrows')
  have hlengthBefore := congrArg List.length (h.list.trans hsplit)
  rw [hrows] at hlength
  rw [hrowsFound] at hlengthBefore
  simp only [length_append, length_cons] at hlength hlengthBefore
  refine ⟨⟨?_, hcounted'', hspliced, ?_⟩, fun htight => ⟨?_, ?_⟩⟩
  · exact replaceNode_zeroed hfound h.zeroed (hfoundZeroed.withChildren hzeroed' (.inl hnodeVisible)) (.inl hvisible)
  · show s.renderNodeCount + diff = (s'.list.length : Int) ∨ s.renderNodeCount + diff = (s'.list.length : Int) + 1
    have := h.count
    omega
  · show s.renderNodeCount + diff = (s'.list.length : Int)
    have := htight.count
    omega
  · have hfoundLength := congrArg List.length hrowsFound
    rw [length_cons] at hfoundLength
    exact htight.spliceList (rowsOf nodes) (h.list.trans hsplit) (by omega) (by omega) (by omega)

theorem Shows.exchangeClosed (h : Shows s) (hfound : locate s.children 0 true true location = some found)
    (hclosed : ((found.revealed && !found.node.collapsed) && (found.visible && found.node.visible)) = false)
    (hzeroed : AllZeroed nodes) :
    Shows { s with
      children := replaceNode 0 (found.node.withChildren (exchange found.node.children index deleteCount nodes) 0)
        s.children location } := by
  have hfoundZeroed := locate_zeroed hfound h.zeroed
  have hzeroed' := (hfoundZeroed.below.exchange index deleteCount hzeroed).1
  refine h.replace hfound (hfoundZeroed.withChildren hzeroed' (.inr rfl)) fun hopen => ?_
  rw [Bool.and_eq_true_iff] at hopen
  have hnode : (!found.node.collapsed && found.node.visible) = false := by simpa [hopen.1, hopen.2] using hclosed
  have hcounted := (locate_open hfound hopen.1 hopen.2 h.counted).1
  exact ⟨hcounted.withChildren_closed hnode, Node.rows_withChildren_closed hnode⟩

/-- The exchange of children leaves the last or brings the first one, and then the parent's update fits. -/
def SpliceFits (options : Options) (s : IndexTreeModel T) (location : List Nat) (deleteCount : Nat)
    (toInsert : List (ITreeElement T)) : Prop :=
  ∀ parent, getTreeNodeWithListIndex s.children location.dropLast = some parent →
    let lastIndex := location.getLast?.getD 0
    let isEmpty := (parent.node.children.take lastIndex).isEmpty && toInsert.isEmpty &&
      (parent.node.children.drop (lastIndex + deleteCount)).isEmpty
    parent.node.children.isEmpty ≠ isEmpty → Fits options (.collapsible !isEmpty) parent

theorem createTreeNodes_isEmpty {filter : Filter T} {options : Options} {parentVisibility : TreeVisibility} {revealed : Bool}
    {acc : List T} {elements : List (ITreeElement T)} :
    (createTreeNodes filter options parentVisibility revealed acc elements).1.isEmpty = elements.isEmpty := by
  cases elements <;> rfl

theorem exchange_isEmpty : (exchange children index deleteCount nodes).isEmpty =
    ((children.take index).isEmpty && nodes.isEmpty && (children.drop (index + deleteCount)).isEmpty) := by
  unfold exchange
  cases children.take index <;> cases nodes <;> simp

variable {options : Options}

theorem Shows.afterSplice {parentLocation : List Nat} {changed isEmpty : Bool} (h : Shows s)
    (hfits : changed = true → UpdateFits options s (.collapsible !isEmpty) parentLocation) :
    let s' := if changed then s.setCollapsible options parentLocation (some !isEmpty) else s
    Shows s' ∧ (Tight s → Tight s') := by
  cases changed with
  | false => exact ⟨h, id⟩
  | true =>
    refine ⟨h.updateCollapseState (hfits rfl), fun htight => htight.updateCollapseState h (hfits rfl) fun _ => ?_⟩
    trivial

theorem Shows.spliceRoot (h : Shows s) (filter : Filter T) (options : Options) (index deleteCount : Nat)
    (toInsert : List (ITreeElement T)) :
    Shows (s.splice filter options [index] deleteCount toInsert) ∧
      (Tight s → Tight (s.splice filter options [index] deleteCount toInsert)) := by
  unfold IndexTreeModel.splice
  simp only [getParentNodeWithListIndex]
  by_cases hindex : index ≤ s.children.length
  · rw [if_pos hindex]
    simp only [dropLast_singleton, getLast?_singleton, Option.getD_some, if_true, Bool.and_self]
    obtain ⟨hzeroed, hcounted, hpushed⟩ := @createTreeNodes_spec T filter options .visible true [] toInsert
    generalize createTreeNodes filter options .visible true [] toInsert = created at *
    obtain ⟨nodes, pushed⟩ := created
    simp only [nil_append, if_true] at hzeroed hcounted hpushed ⊢
    subst hpushed
    obtain ⟨hshows, htight⟩ := h.exchangeRoot hzeroed hcounted (@rfl _ (renderNodeCounts
      (((s.children.drop index).take deleteCount).filter Node.visible)))
    obtain ⟨hshows', htight'⟩ := @Shows.afterSplice T _ options [] (s.children.isEmpty !=
      (exchange s.children index deleteCount nodes).isEmpty) (exchange s.children index deleteCount nodes).isEmpty hshows
      (fun _ found hfound => by cases hfound)
    exact ⟨hshows', fun hs => htight' (htight hs)⟩
  · rw [if_neg hindex]
    exact ⟨h, id⟩

theorem updateFits_exchanged {s' : IndexTreeModel T} {value : Bool} {diff : Int}
    (hfound : locate s.children 0 true true location = some found)
    (hchildren : s'.children = replaceNode diff (found.node.withChildren children diff) s.children location)
    (hfits : Fits options (.collapsible value) found) : UpdateFits options s' (.collapsible value) location := by
  have hbefore : UpdateFits options s (.collapsible value) location := by
    intro found' hfound'
    rw [getTreeNodeWithListIndex_eq, hfound] at hfound'
    cases hfound'
    exact hfits
  refine updateFits_of_flags (fun _ h => by cases h) ?_ hbefore
  rw [hchildren, locate_replaceNode hfound, hfound]
  cases found with
  | mk node listIndex revealed visible =>
    cases node
    rfl

theorem Shows.spliceBelow (h : Shows s) (filter : Filter T) {options : Options} {location : List Nat} (hlocation : location ≠ [])
    (index deleteCount : Nat) {toInsert : List (ITreeElement T)}
    (hfits : SpliceFits options s (location ++ [index]) deleteCount toInsert) :
    Shows (s.splice filter options (location ++ [index]) deleteCount toInsert) ∧
      (Tight s → Tight (s.splice filter options (location ++ [index]) deleteCount toInsert)) := by
  unfold SpliceFits at hfits
  unfold IndexTreeModel.splice
  rw [getParentNodeWithListIndex_eq true s.children 0 true true hlocation]
  rw [dropLast_concat, getTreeNodeWithListIndex_eq] at hfits
  simp only [getLast?_concat, Option.getD_some] at hfits
  cases hfound : locate s.children 0 true true location with
  | none => exact ⟨h, id⟩
  | some found =>
    rw [Option.bind_some]
    by_cases hindex : index ≤ found.node.children.length
    · rw [if_pos hindex]
      simp only [dropLast_concat, getLast?_concat, Option.getD_some]
      have hcreated := @createTreeNodes_spec T filter options (if found.node.visible then .visible else .hidden)
        (found.revealed && !found.node.collapsed) [] toInsert
      have hisEmpty := @createTreeNodes_isEmpty T filter options (if found.node.visible then .visible else .hidden)
        (found.revealed && !found.node.collapsed) [] toInsert
      generalize createTreeNodes filter options (if found.node.visible then .visible else .hidden)
        (found.revealed && !found.node.collapsed) [] toInsert = created at *
      obtain ⟨nodes, pushed⟩ := created
      obtain ⟨hzeroed, hcounted, hpushed⟩ := hcreated
      simp only [nil_append] at hzeroed hcounted hpushed hisEmpty ⊢
      have hparent : (found.node.children.isEmpty != (exchange found.node.children index deleteCount nodes).isEmpty) = true →
          Fits options (.collapsible !(exchange found.node.children index deleteCount nodes).isEmpty) found := by
        intro hchanged
        rw [exchange_isEmpty, hisEmpty] at hchanged ⊢
        exact hfits found hfound (by simpa using hchanged)
      have hreplaced : ∀ diff, (s.replaceChildren diff (exchange found.node.children index deleteCount nodes) location) =
          { s with
            children := replaceNode diff (found.node.withChildren (exchange found.node.children index deleteCount nodes) diff)
              s.children location
            renderNodeCount := s.renderNodeCount + diff } := by
        intro diff
        unfold IndexTreeModel.replaceChildren
        rw [getTreeNodeWithListIndex_eq, hfound]
      have hrowsAt : s.rowsAt location = found.node.rows := by
        unfold IndexTreeModel.rowsAt
        rw [getTreeNodeWithListIndex_eq, hfound]
      unfold exchange at hreplaced
      rw [hreplaced, hreplaced, hrowsAt]
      by_cases hopen : (found.revealed && !found.node.collapsed && (found.visible && found.node.visible)) = true
      · rw [if_pos hopen]
        rw [Bool.and_eq_true_iff] at hopen
        rw [if_pos hopen.1] at hpushed
        subst hpushed
        obtain ⟨hshows, htight⟩ := h.exchangeOpen hfound hopen hzeroed hcounted (@rfl _ (renderNodeCounts
          (((found.node.children.drop index).take deleteCount).filter Node.visible)))
        obtain ⟨hshows', htight'⟩ := hshows.afterSplice fun hchanged => updateFits_exchanged hfound rfl (hparent hchanged)
        exact ⟨hshows', fun hs => htight' (htight hs)⟩
      · rw [if_neg hopen]
        rw [Bool.not_eq_true] at hopen
        have hshows := @Shows.exchangeClosed T nodes index deleteCount s location found h hfound hopen hzeroed
        have hshows' : Shows { s with
            children := replaceNode 0 (found.node.withChildren (exchange found.node.children index deleteCount nodes) 0)
              s.children location
            renderNodeCount := s.renderNodeCount + 0 } := by
          rw [Int.add_zero]
          exact hshows
        obtain ⟨hshows'', htight'⟩ := hshows'.afterSplice fun hchanged => updateFits_exchanged hfound rfl (hparent hchanged)
        refine ⟨hshows'', fun hs => htight' ⟨?_, hs.calls⟩⟩
        show s.renderNodeCount + 0 = (s.list.length : Int)
        rw [Int.add_zero]
        exact hs.count
    · rw [if_neg hindex]
      exact ⟨h, id⟩

theorem Shows.splice (h : Shows s) (filter : Filter T) {location : List Nat} {deleteCount : Nat}
    {toInsert : List (ITreeElement T)} (hfits : SpliceFits options s location deleteCount toInsert) :
    Shows (s.splice filter options location deleteCount toInsert) ∧
      (Tight s → Tight (s.splice filter options location deleteCount toInsert)) := by
  rcases eq_nil_or_concat location with rfl | ⟨parentLocation, index, rfl⟩
  · exact ⟨h, id⟩
  · rw [concat_eq_append] at hfits ⊢
    cases parentLocation with
    | nil => exact h.spliceRoot filter options index deleteCount toInsert
    | cons first rest => exact h.spliceBelow filter (cons_ne_nil first rest) index deleteCount hfits

end Splice

/-! ## Runs -/

inductive Operation (T : Type) where
  | splice (location : List Nat) (deleteCount : Nat) (toInsert : List (ITreeElement T))
  | setCollapsed (location : List Nat) (collapsed : Option Bool) (recursive : Bool)
  | setCollapsible (location : List Nat) (collapsible : Option Bool)
  | expandTo (location : List Nat)
  | refilter

namespace IndexTreeModel

def perform (options : Options) (filter : Filter T) (s : IndexTreeModel T) : Operation T → IndexTreeModel T
  | .splice location deleteCount toInsert => s.splice filter options location deleteCount toInsert
  | .setCollapsed location collapsed recursive => s.setCollapsed options location collapsed recursive
  | .setCollapsible location collapsible => s.setCollapsible options location collapsible
  | .expandTo location => s.expandTo options location
  | .refilter => s.refilter filter

def OperationFits (options : Options) (s : IndexTreeModel T) : Operation T → Prop
  | .splice location deleteCount toInsert => SpliceFits options s location deleteCount toInsert
  | .setCollapsed location collapsed recursive => ∀ found, getTreeNodeWithListIndex s.children location = some found →
      Fits options (.collapsed (collapsed.getD !found.node.collapsed) recursive) found
  | .setCollapsible location collapsible => ∀ found, getTreeNodeWithListIndex s.children location = some found →
      Fits options (.collapsible (collapsible.getD !found.node.collapsible)) found
  | .expandTo location => ExpandFits options s location
  | .refilter => True

/-- The operation is not a recursive collapse update of the root that changes something. -/
def KeepsRoot (s : IndexTreeModel T) : Operation T → Prop
  | .setCollapsed [] collapsed recursive => RootKept s (.collapsed (collapsed.getD true) recursive)
  | _ => True

def run (options : Options) (s : IndexTreeModel T) (operations : List (Filter T × Operation T)) : IndexTreeModel T :=
  operations.foldl (fun s (filter, operation) => s.perform options filter operation) s

def AllFit (options : Options) (s : IndexTreeModel T) : List (Filter T × Operation T) → Prop
  | [] => True
  | (filter, operation) :: operations =>
    s.OperationFits options operation ∧ (s.perform options filter operation).AllFit options operations

def AllKeepRoot (options : Options) (s : IndexTreeModel T) : List (Filter T × Operation T) → Prop
  | [] => True
  | (filter, operation) :: operations =>
    s.KeepsRoot operation ∧ (s.perform options filter operation).AllKeepRoot options operations

end IndexTreeModel

section Runs

variable {options : Options} {s : IndexTreeModel T}

theorem Shows.perform (h : Shows s) (filter : Filter T) {operation : Operation T} (hfits : s.OperationFits options operation) :
    Shows (s.perform options filter operation) ∧
      (Tight s → s.KeepsRoot operation → Tight (s.perform options filter operation)) := by
  cases operation with
  | splice location deleteCount toInsert => exact (h.splice filter hfits).imp_right fun htight hs _ => htight hs
  | setCollapsed location collapsed recursive =>
    show Shows (s.setCollapsed options location collapsed recursive) ∧
      (Tight s → _ → Tight (s.setCollapsed options location collapsed recursive))
    have hupdate {value : Bool} (hvalue : ∀ found, getTreeNodeWithListIndex s.children location = some found →
        value = collapsed.getD !found.node.collapsed) : UpdateFits options s (.collapsed value recursive) location := by
      intro found hfound
      rw [hvalue found hfound]
      exact hfits found hfound
    refine ⟨h.updateCollapseState (hupdate fun found hfound => by rw [hfound]), fun htight hkeeps =>
      htight.updateCollapseState h (hupdate fun found hfound => by rw [hfound]) ?_⟩
    rintro rfl
    exact hkeeps
  | setCollapsible location collapsible =>
    show Shows (s.setCollapsible options location collapsible) ∧
      (Tight s → _ → Tight (s.setCollapsible options location collapsible))
    have hupdate {value : Bool} (hvalue : ∀ found, getTreeNodeWithListIndex s.children location = some found →
        value = collapsible.getD !found.node.collapsible) : UpdateFits options s (.collapsible value) location := by
      intro found hfound
      rw [hvalue found hfound]
      exact hfits found hfound
    exact ⟨h.updateCollapseState (hupdate fun found hfound => by rw [hfound]), fun htight _ =>
      htight.updateCollapseState h (hupdate fun found hfound => by rw [hfound]) fun _ => trivial⟩
  | expandTo location =>
    show Shows (s.expandTo options location) ∧ (Tight s → _ → Tight (s.expandTo options location))
    unfold IndexTreeModel.expandTo
    split
    · exact (h.expandAncestors _ hfits).imp_right fun htight hs _ => htight hs
    · exact ⟨h, fun hs _ => hs⟩
  | refilter => exact (h.refilter filter).imp_right fun htight hs _ => htight hs

theorem Shows.run {operations : List (Filter T × Operation T)} (h : Shows s) (hfits : s.AllFit options operations) :
    Shows (s.run options operations) ∧
      (Tight s → s.AllKeepRoot options operations → Tight (s.run options operations)) := by
  induction operations generalizing s with
  | nil => exact ⟨h, fun hs _ => hs⟩
  | cons step operations ih =>
    obtain ⟨filter, operation⟩ := step
    obtain ⟨hshows, htight⟩ := h.perform filter hfits.1
    obtain ⟨hshows', htight'⟩ := ih hshows hfits.2
    exact ⟨hshows', fun hs hkeeps => htight' (htight hs hkeeps.1) hkeeps.2⟩

end Runs

/-- From the empty tree on the list shows the rows of the tree, and each listed node counts its rows; every call replaces
rows of the subtree that is being changed, unless the root was collapsed or expanded recursively. -/
theorem list_shows_tree (options : Options) (operations : List (Filter T × Operation T))
    (hfits : ({} : IndexTreeModel T).AllFit options operations) :
    let s := ({} : IndexTreeModel T).run options operations
    s.list = rowsOf s.children ∧ AllCounted s.children ∧
      (({} : IndexTreeModel T).AllKeepRoot options operations → ∀ call ∈ s.calls, call.Inside) := by
  intro s
  have hempty : Shows ({} : IndexTreeModel T) := ⟨trivial, trivial, rfl, .inl rfl⟩
  obtain ⟨hshows, htight⟩ := hempty.run hfits
  refine ⟨hshows.list, hshows.counted, fun hkeeps => (htight ⟨rfl, fun call hcall => ?_⟩ hkeeps).calls⟩
  cases hcall

section Examples

private def leaf (element : Nat) : ITreeElement Nat := .mk element none none []

/-- The nodes 0, 1 and 2 lie below each other; 3, 4 and 5 are siblings of 0. -/
private def sixNodes : List (ITreeElement Nat) :=
  [.mk 0 none none [.mk 1 none none [leaf 2]], leaf 3, leaf 4, leaf 5]

private def all : Filter Nat := fun _ _ => .visible

private def notZero : Filter Nat := fun element _ => if element = 0 then .hidden else .visible

/-- The node 1 is collapsed while 0 is hidden, and the row of 5 goes. -/
theorem row_lost_below_hidden :
    let s := ({} : IndexTreeModel Nat).run {}
      [(all, .splice [0] 0 sixNodes), (notZero, .refilter), (notZero, .setCollapsed [0, 0] (some true) false)]
    s.list = [3, 4] ∧ rowsOf s.children = [3, 4, 5] := by
  decide +kernel

/-- The nodes are inserted, 0 is collapsed, and then hidden. -/
theorem list_shows_six_nodes :
    let operations : List (Filter Nat × Operation Nat) :=
      [(all, .splice [0] 0 sixNodes), (all, .setCollapsed [0] (some true) false), (notZero, .refilter)]
    let s := ({} : IndexTreeModel Nat).run {} operations
    s.list = [3, 4, 5] ∧ s.list = rowsOf s.children ∧ AllCounted s.children := by
  intro operations s
  have hfits : ({} : IndexTreeModel Nat).AllFit {} operations := by
    refine ⟨fun parent hparent => (nomatch hparent), fun found hfound => ?_, trivial, trivial⟩
    cases hfound
    exact fun _ _ _ => ⟨rfl, rfl⟩
  have h := list_shows_tree {} operations hfits
  exact ⟨by decide +kernel, h.1, h.2.1⟩

end Examples

end TongjiCode.IndexTree
