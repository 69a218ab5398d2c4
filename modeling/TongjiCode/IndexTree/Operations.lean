import TongjiCode.IndexTree.IndexTreeModel

/-!
# The operations of the index tree model

The model edits the list by `splice` calls at indices that it computes from the counts of rows.  The calls are recorded:
each with the list before it and with the rows of the subtree that is being changed.
-/

namespace TongjiCode.IndexTree

variable {T : Type}

/-! ## Finding a node -/

/-- What `getParentNodeWithListIndex` finds: the parent by its children and its own visibility. -/
structure FoundParent (T : Type) where
  children : List (Node T)
  parentVisible : Bool
  listIndex : Int
  revealed : Bool
  visible : Bool

/-- `getParentNodeWithListIndex`, on the children of the node reached and its own visibility; `revealed` and `visible` take
this node into account. -/
def getParentNodeWithListIndex (parentVisible : Bool) (children : List (Node T)) (listIndex : Int) (revealed visible : Bool) :
    List Nat → Option (FoundParent T)
  | [] => none
  | [index] =>
    if index ≤ children.length then
      some ⟨children, parentVisible, listIndex + renderNodeCounts (children.take index), revealed, visible⟩
    else none
  | index :: next :: rest =>
    match children[index]? with
    | some node =>
      getParentNodeWithListIndex node.visible node.children (listIndex + renderNodeCounts (children.take index) + 1)
        (revealed && !node.collapsed) (visible && node.visible) (next :: rest)
    | none => none

/-- What `getTreeNodeWithListIndex` finds; `visible` says that all above the node are visible. -/
structure FoundNode (T : Type) where
  node : Node T
  listIndex : Int
  revealed : Bool
  visible : Bool

/-- `getTreeNodeWithListIndex` for a node other than the root. -/
def getTreeNodeWithListIndex (children : List (Node T)) (location : List Nat) : Option (FoundNode T) :=
  match getParentNodeWithListIndex true children 0 true true location with
  | some found =>
    match location.getLast?.bind fun index => found.children[index]? with
    | some node => some ⟨node, found.listIndex, found.revealed, found.visible⟩
    | none => none
  | none => none

/-- The node is exchanged, and the counts of all nodes above it change. -/
def replaceNode (diff : Int) (node : Node T) : List (Node T) → List Nat → List (Node T)
  | children, [] => children
  | children, [index] => children.set index node
  | children, index :: next :: rest =>
    match children[index]? with
    | some child => children.set index (child.withChildren (replaceNode diff node child.children (next :: rest)) diff)
    | none => children

/-! ## The model -/

structure SpliceCall (T : Type) where
  list : List T
  subtree : List T
  start : Int
  deleteCount : Int

/-- `Array.prototype.splice`; a negative start counts from the end. -/
def spliceArray (array : List T) (start deleteCount : Int) (items : List T) : List T :=
  let index := if start < 0 then ((array.length : Int) + start).toNat else start.toNat
  array.take index ++ items ++ array.drop (index + deleteCount.toNat)

structure IndexTreeModel (T : Type) where
  /-- the children of the root -/
  children : List (Node T) := []
  /-- the count of rows of the root -/
  renderNodeCount : Int := 0
  list : List T := []
  calls : List (SpliceCall T) := []

mutual

/-- The rows of a node: the node itself and what is below it, as far as it is visible and not under a collapsed node. -/
def Node.rows : Node T → List T
  | .mk element _ collapsed _ _ visible children =>
    if visible then element :: (if collapsed then [] else rowsOf children) else []

def rowsOf : List (Node T) → List T
  | [] => []
  | node :: nodes => node.rows ++ rowsOf nodes

end

mutual

/-- How many nodes follow each other downwards. -/
def Node.height : Node T → Nat
  | .mk _ _ _ _ _ _ children => heights children + 1

def heights : List (Node T) → Nat
  | [] => 0
  | node :: nodes => max node.height (heights nodes)

end

namespace IndexTreeModel

/-- `list.splice`, while the subtree with these rows is being changed. -/
def spliceList (s : IndexTreeModel T) (subtree : List T) (start deleteCount : Int) (items : List T) : IndexTreeModel T :=
  { s with
    list := spliceArray s.list start deleteCount items
    calls := s.calls ++ [⟨s.list, subtree, start, deleteCount⟩] }

/-- `_setListNodeCollapseState` for the root, which a recursive update reaches. -/
def setRootCollapseState (s : IndexTreeModel T) (update : CollapseStateUpdate) : IndexTreeModel T × Bool :=
  match update with
  | .collapsed _ true =>
    match setNodesCollapseState update s.children with
    | (_, false) => (s, false)
    | (nodes, true) =>
      let (children, toInsert) := updateNodesAfterCollapseChange [] nodes
      -- the root counts itself here
      ({ s.spliceList (rowsOf s.children) 0 s.renderNodeCount toInsert with
        children, renderNodeCount := 1 + renderNodeCounts (children.filter Node.visible) }, true)
  | _ => (s, false)

def setListNodeCollapseState (s : IndexTreeModel T) (location : List Nat) (found : FoundNode T) (update : CollapseStateUpdate) :
    IndexTreeModel T × Bool :=
  let (node, result) := setNodeCollapseState update found.node
  if !found.revealed || !node.visible || !result then
    ({ s with children := replaceNode 0 node s.children location }, result)
  else
    let previousRenderNodeCount := node.renderNodeCount
    let (updated, toInsert) := updateNodeAfterCollapseChange [] node
    let diff := (toInsert.length : Int) - previousRenderNodeCount
    ({ s.spliceList found.node.rows (found.listIndex + 1) (previousRenderNodeCount - 1) (toInsert.drop 1) with
      children := replaceNode diff updated s.children location, renderNodeCount := s.renderNodeCount + diff }, result)

def onlyVisibleChildIndex (children : List (Node T)) : Option Nat :=
  if children.countP Node.visible = 1 then some (children.findIdx Node.visible) else none

/-- The update goes on to an only visible child. -/
def autoExpands (options : Options) (update : CollapseStateUpdate) (node : Node T) (result : Bool) : Bool :=
  options.autoExpandSingleChildren && result && (match update with
    | .collapsed _ false => true
    | _ => false) && node.collapsible && !node.collapsed

/-- `_setCollapseState` for a node other than the root.  The argument that counts down bounds how far the update can go
below the node. -/
def setCollapseState (options : Options) (update : CollapseStateUpdate) : Nat → IndexTreeModel T → List Nat → IndexTreeModel T
  | depth, s, location =>
    match getTreeNodeWithListIndex s.children location with
    | none => s
    | some found =>
      let (s', result) := s.setListNodeCollapseState location found update
      let node := (setNodeCollapseState update found.node).1
      if autoExpands options update node result then
        match depth, onlyVisibleChildIndex node.children with
        | depth + 1, some index => setCollapseState options update depth s' (location ++ [index])
        | _, _ => s'
      else s'

/-- `setCollapsed`, and `setCollapsible` with the other kind of update. -/
def updateCollapseState (options : Options) (s : IndexTreeModel T) (update : CollapseStateUpdate) :
    List Nat → IndexTreeModel T
  | [] => (s.setRootCollapseState update).1
  | location => s.setCollapseState options update (heights s.children) location

def setCollapsed (options : Options) (s : IndexTreeModel T) (location : List Nat) (collapsed : Option Bool) (recursive : Bool) :
    IndexTreeModel T :=
  let current := match getTreeNodeWithListIndex s.children location with
    | some found => found.node.collapsed
    | none => false
  s.updateCollapseState options (.collapsed (collapsed.getD !current) recursive) location

def setCollapsible (options : Options) (s : IndexTreeModel T) (location : List Nat) (collapsible : Option Bool) :
    IndexTreeModel T :=
  let current := match getTreeNodeWithListIndex s.children location with
    | some found => found.node.collapsible
    | none => false
  s.updateCollapseState options (.collapsible (collapsible.getD !current)) location

/-- The loop of `expandTo`, on the location of the node that was reached. -/
def expandAncestors (options : Options) (s : IndexTreeModel T) : Nat → List Nat → IndexTreeModel T
  | 0, _ => s
  | above + 1, location =>
    let location := location.dropLast
    match getTreeNodeWithListIndex s.children location with
    | some found =>
      if found.node.collapsed then
        (s.updateCollapseState options (.collapsed false false) location).expandAncestors options above location
      else s.expandAncestors options above location
    | none => s

def expandTo (options : Options) (s : IndexTreeModel T) (location : List Nat) : IndexTreeModel T :=
  match getTreeNodeWithListIndex s.children location with
  | some _ => s.expandAncestors options (location.length - 1) location
  | none => s

def refilter (filter : Filter T) (s : IndexTreeModel T) : IndexTreeModel T :=
  let (children, toInsert) := updateNodesAfterFilterChange filter none [] true s.children
  { s.spliceList (rowsOf s.children) 0 s.renderNodeCount toInsert with children, renderNodeCount := toInsert.length }

/-- The children of the parent are exchanged, and the counts of the parent and all above it change. -/
def replaceChildren (s : IndexTreeModel T) (diff : Int) (children : List (Node T)) (parentLocation : List Nat) :
    IndexTreeModel T :=
  match getTreeNodeWithListIndex s.children parentLocation with
  | some parent =>
    { s with
      children := replaceNode diff (parent.node.withChildren children diff) s.children parentLocation
      renderNodeCount := s.renderNodeCount + diff }
  | none => { s with children, renderNodeCount := s.renderNodeCount + diff }

/-- The rows of the node at the location, or of the whole tree for the root. -/
def rowsAt (s : IndexTreeModel T) (location : List Nat) : List T :=
  match getTreeNodeWithListIndex s.children location with
  | some found => found.node.rows
  | none => rowsOf s.children

/-- `spliceSimple`.  A `refilter` that it triggers comes later, as an operation of its own. -/
def splice (filter : Filter T) (options : Options) (s : IndexTreeModel T) (location : List Nat) (deleteCount : Nat)
    (toInsert : List (ITreeElement T)) : IndexTreeModel T :=
  match getParentNodeWithListIndex true s.children 0 true true location with
  | none => s
  | some found =>
    let parentLocation := location.dropLast
    let lastIndex := location.getLast?.getD 0
    let (nodesToInsert, treeListElementsToInsert) :=
      createTreeNodes filter options (if found.parentVisible then .visible else .hidden) found.revealed [] toInsert
    let deletedNodes := (found.children.drop lastIndex).take deleteCount
    let children := found.children.take lastIndex ++ nodesToInsert ++ found.children.drop (lastIndex + deleteCount)
    let s' :=
      if found.revealed && found.visible then
        let visibleDeleteCount := renderNodeCounts (deletedNodes.filter Node.visible)
        let diff := renderNodeCounts nodesToInsert - visibleDeleteCount
        (s.replaceChildren diff children parentLocation).spliceList (s.rowsAt parentLocation) found.listIndex
          visibleDeleteCount treeListElementsToInsert
      else s.replaceChildren 0 children parentLocation
    if found.children.isEmpty != children.isEmpty then
      s'.setCollapsible options parentLocation (some !children.isEmpty)
    else s'

end IndexTreeModel

end TongjiCode.IndexTree
