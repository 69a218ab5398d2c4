import Mathlib.Algebra.Order.Ring.Int
import Mathlib.Data.List.Basic

/-!
# The index tree model

`IndexTreeModel` of `indexTreeModel.ts` without a diff identity provider.  A node is its own subtree; the list shows nodes,
which are known by their elements.  The root is not a node here: it is never collapsed, always visible, and only its
children and its `renderNodeCount` change.  Child indices among the visible children, filter data and events are left
out.

A location that is not in the tree makes the call throw, and nothing changes.
-/

namespace TongjiCode.IndexTree

inductive TreeVisibility where
  | hidden
  | visible
  | recurse
deriving DecidableEq

/-- `ITreeElement`: what a node is made from. -/
inductive ITreeElement (T : Type) where
  | mk (element : T) (collapsible collapsed : Option Bool) (children : List (ITreeElement T))

/-- `IIndexTreeNode`. -/
inductive Node (T : Type) where
  | mk (element : T) (collapsible collapsed : Bool) (renderNodeCount : Int) (visibility : TreeVisibility) (visible : Bool)
    (children : List (Node T))

namespace Node

variable {T : Type}

def element : Node T → T
  | mk element .. => element

def collapsible : Node T → Bool
  | mk _ collapsible .. => collapsible

def collapsed : Node T → Bool
  | mk _ _ collapsed .. => collapsed

def renderNodeCount : Node T → Int
  | mk _ _ _ renderNodeCount .. => renderNodeCount

def visible : Node T → Bool
  | mk _ _ _ _ _ visible _ => visible

def children : Node T → List (Node T)
  | mk _ _ _ _ _ _ children => children

/-- Children are exchanged, and the count of rows changes with them. -/
def withChildren : Node T → List (Node T) → Int → Node T
  | mk element collapsible collapsed renderNodeCount visibility visible _, children, diff =>
    mk element collapsible collapsed (renderNodeCount + diff) visibility visible children

end Node

/-- `filter.filter`, with its result as `_filterNode` reads it.  The visibility of the parent is not known for the children
of the root in `refilter`. -/
abbrev Filter (T : Type) := T → Option TreeVisibility → TreeVisibility

structure Options where
  collapseByDefault : Bool := false
  autoExpandSingleChildren : Bool := false

inductive CollapseStateUpdate where
  | collapsible (collapsible : Bool)
  | collapsed (collapsed recursive : Bool)

variable {T : Type}

def renderNodeCounts (nodes : List (Node T)) : Int := (nodes.map Node.renderNodeCount).sum

/-! ## Making and updating nodes

The rows are pushed on a list on the way; a node that turns out not to be visible is popped again. -/

/-- A node is visible by its own visibility, or because of its children. -/
def shownBy (children : List (Node T)) : TreeVisibility → Bool
  | .recurse => children.any Node.visible
  | .visible => true
  | .hidden => false

/-- The node after its children are done; `count` is the count of rows if it is visible and not collapsed. -/
def finishNode (element : T) (collapsible collapsed : Bool) (visibility : TreeVisibility) (revealed : Bool)
    (children : List (Node T)) (count : Int) (rows : List T) : Node T × List T :=
  if shownBy children visibility then
    (.mk element collapsible collapsed (if collapsed then 1 else count) visibility true children, rows)
  else (.mk element collapsible collapsed 0 visibility false children, if revealed then rows.dropLast else rows)

section Create

variable (filter : Filter T) (options : Options)

mutual

def createTreeNode (parentVisibility : TreeVisibility) (revealed : Bool) (treeListElements : List T) :
    ITreeElement T → Node T × List T
  | .mk element collapsible collapsed childElements =>
    let visibility := filter element (some parentVisibility)
    let isCollapsed := collapsed.getD options.collapseByDefault
    let treeListElements := if revealed then treeListElements ++ [element] else treeListElements
    let childRevealed := revealed && visibility != .hidden && !isCollapsed
    let (children, treeListElements) := createTreeNodes visibility childRevealed treeListElements childElements
    finishNode element (collapsible.getD collapsed.isSome || !children.isEmpty) isCollapsed visibility revealed children
      (1 + renderNodeCounts children) treeListElements

def createTreeNodes (parentVisibility : TreeVisibility) (revealed : Bool) (treeListElements : List T) :
    List (ITreeElement T) → List (Node T) × List T
  | [] => ([], treeListElements)
  | element :: elements =>
    let (node, treeListElements) := createTreeNode parentVisibility revealed treeListElements element
    let (nodes, treeListElements) := createTreeNodes parentVisibility revealed treeListElements elements
    (node :: nodes, treeListElements)

end

mutual

/-- `_updateNodeAfterFilterChange` for a node other than the root. -/
def updateNodeAfterFilterChange (parentVisibility : Option TreeVisibility) (result : List T) (revealed : Bool) :
    Node T → Node T × List T
  | .mk element collapsible collapsed _ oldVisibility _ children =>
    let visibility := filter element parentVisibility
    if visibility = .hidden then (.mk element collapsible collapsed 0 oldVisibility false children, result)
    else
      let result := if revealed then result ++ [element] else result
      let resultStartLength := result.length
      let (children, result) :=
        updateNodesAfterFilterChange (some visibility) result (revealed && !collapsed) children
      finishNode element collapsible collapsed visibility revealed children
        (1 + ((result.length : Int) - resultStartLength)) result

def updateNodesAfterFilterChange (parentVisibility : Option TreeVisibility) (result : List T) (revealed : Bool) :
    List (Node T) → List (Node T) × List T
  | [] => ([], result)
  | node :: nodes =>
    let (node, result) := updateNodeAfterFilterChange parentVisibility result revealed node
    let (nodes, result) := updateNodesAfterFilterChange parentVisibility result revealed nodes
    (node :: nodes, result)

end

end Create

mutual

def updateNodeAfterCollapseChange (result : List T) : Node T → Node T × List T
  | .mk element collapsible collapsed renderNodeCount visibility visible children =>
    if !visible then (.mk element collapsible collapsed renderNodeCount visibility visible children, result)
    else if !collapsed then
      let (children, result) := updateNodesAfterCollapseChange (result ++ [element]) children
      -- an invisible child counts nothing, whatever its own count says
      (.mk element collapsible collapsed (1 + renderNodeCounts (children.filter Node.visible)) visibility visible children, result)
    else (.mk element collapsible collapsed 1 visibility visible children, result ++ [element])

def updateNodesAfterCollapseChange (result : List T) : List (Node T) → List (Node T) × List T
  | [] => ([], result)
  | node :: nodes =>
    let (node, result) := updateNodeAfterCollapseChange result node
    let (nodes, result) := updateNodesAfterCollapseChange result nodes
    (node :: nodes, result)

end

/-- The collapse state of the node itself, and whether it changed. -/
def ownCollapseState (collapsible collapsed : Bool) : CollapseStateUpdate → Bool × Bool × Bool
  | .collapsible value => (value, collapsed, collapsible != value)
  | .collapsed value _ => if !collapsible then (collapsible, collapsed, false) else (collapsible, value, collapsed != value)

mutual

/-- `_setNodeCollapseState` for a node other than the root. -/
def setNodeCollapseState (update : CollapseStateUpdate) : Node T → Node T × Bool
  | .mk element collapsible collapsed renderNodeCount visibility visible children =>
    let (isCollapsible, isCollapsed, result) := ownCollapseState collapsible collapsed update
    match update with
    | .collapsed _ true =>
      let (children, childrenResult) := setNodesCollapseState update children
      (.mk element isCollapsible isCollapsed renderNodeCount visibility visible children, childrenResult || result)
    | _ => (.mk element isCollapsible isCollapsed renderNodeCount visibility visible children, result)

def setNodesCollapseState (update : CollapseStateUpdate) : List (Node T) → List (Node T) × Bool
  | [] => ([], false)
  | node :: nodes =>
    let (node, nodeResult) := setNodeCollapseState update node
    let (nodes, nodesResult) := setNodesCollapseState update nodes
    (node :: nodes, nodeResult || nodesResult)

end

end TongjiCode.IndexTree
