import TongjiCode.IndexTree.ListRuns

/-!
# Visible children

The nodes of `IndexTreeModel` with the fields that say how many of the children are visible and which of them a child
is, `visibleChildrenCount` and `visibleChildIndex`; the rows, of which the other modules treat, are left out.  The root
is a node here.

A filter change counts anew.  A splice adjusts, from an index that it looks for backwards and by the number of deleted
children only, and this is right exactly when `SpliceFits` (`spliceSimple_right_iff`).
-/

namespace TongjiCode.IndexTree.VisibleChildren

/-- `IIndexTreeNode`. -/
inductive TreeNode (T : Type) where
  | mk (element : T) (collapsible collapsed : Bool) (visibility : TreeVisibility) (visible : Bool)
    (visibleChildrenCount visibleChildIndex : Int) (children : List (TreeNode T))

namespace TreeNode

variable {T : Type}

def collapsed : TreeNode T → Bool
  | mk _ _ collapsed .. => collapsed

def collapsible : TreeNode T → Bool
  | mk _ collapsible .. => collapsible

def visible : TreeNode T → Bool
  | mk _ _ _ _ visible .. => visible

def visibleChildrenCount : TreeNode T → Int
  | mk _ _ _ _ _ visibleChildrenCount .. => visibleChildrenCount

def visibleChildIndex : TreeNode T → Int
  | mk _ _ _ _ _ _ visibleChildIndex _ => visibleChildIndex

def children : TreeNode T → List (TreeNode T)
  | mk _ _ _ _ _ _ _ children => children

def withIndex : TreeNode T → Int → TreeNode T
  | mk element collapsible collapsed visibility visible visibleChildrenCount _ children, visibleChildIndex =>
    mk element collapsible collapsed visibility visible visibleChildrenCount visibleChildIndex children

def withChildren : TreeNode T → List (TreeNode T) → TreeNode T
  | mk element collapsible collapsed visibility visible visibleChildrenCount visibleChildIndex _, children =>
    mk element collapsible collapsed visibility visible visibleChildrenCount visibleChildIndex children

end TreeNode

variable {T : Type}

def countVisible (nodes : List (TreeNode T)) : Int := nodes.countP TreeNode.visible

/-- The visible ones of the nodes are given the indices from `next` on. -/
def numberVisible (next : Int) : List (TreeNode T) → List (TreeNode T)
  | [] => []
  | child :: children =>
    if child.visible then child.withIndex next :: numberVisible (next + 1) children
    else child :: numberVisible next children

@[simp] theorem numberVisible_nil (next : Int) : numberVisible next ([] : List (TreeNode T)) = [] := by
  rw [numberVisible]

/-! ## Making nodes and filtering -/

/-- A node is visible by its own visibility, or because of its children. -/
def shownBy (children : List (TreeNode T)) : TreeVisibility → Bool
  | .recurse => countVisible children > 0
  | .visible => true
  | .hidden => false

section Filter

variable (filter : Filter T) (options : Options)

mutual

def createTreeNode (parentVisibility : TreeVisibility) : ITreeElement T → TreeNode T
  | .mk element collapsible collapsed childElements =>
    let visibility := filter element (some parentVisibility)
    let children := numberVisible 0 (createTreeNodes visibility childElements)
    .mk element (collapsible.getD collapsed.isSome || !children.isEmpty) (collapsed.getD options.collapseByDefault)
      visibility (shownBy children visibility) (countVisible children) (-1) children

def createTreeNodes (parentVisibility : TreeVisibility) : List (ITreeElement T) → List (TreeNode T)
  | [] => []
  | element :: elements => createTreeNode parentVisibility element :: createTreeNodes parentVisibility elements

end

mutual

/-- `_updateNodeAfterFilterChange` for a node other than the root. -/
def updateNodeAfterFilterChange (parentVisibility : Option TreeVisibility) : TreeNode T → TreeNode T
  | .mk element collapsible collapsed oldVisibility _ visibleChildrenCount visibleChildIndex children =>
    let visibility := filter element parentVisibility
    if visibility = .hidden then
      .mk element collapsible collapsed oldVisibility false visibleChildrenCount visibleChildIndex children
    else
      let children := numberVisible 0 (updateNodesAfterFilterChange (some visibility) children)
      .mk element collapsible collapsed visibility (shownBy children visibility) (countVisible children) visibleChildIndex
        children

def updateNodesAfterFilterChange (parentVisibility : Option TreeVisibility) : List (TreeNode T) → List (TreeNode T)
  | [] => []
  | node :: nodes =>
    updateNodeAfterFilterChange parentVisibility node :: updateNodesAfterFilterChange parentVisibility nodes

end

def refilter : TreeNode T → TreeNode T
  | .mk element collapsible collapsed visibility visible _ visibleChildIndex children =>
    let children := numberVisible 0 (updateNodesAfterFilterChange filter none children)
    .mk element collapsible collapsed visibility visible (countVisible children) visibleChildIndex children

/-! ## Splicing -/

/-- The scan of `spliceSimple` from the splice point backwards. -/
def visibleChildStartIndex (children : List (TreeNode T)) (lastIndex : Nat) : Int :=
  if lastIndex < children.length then
    match (children.take (lastIndex + 1)).reverse.find? TreeNode.visible with
    | some child => child.visibleChildIndex
    | none => 0
  else 0

/-- The index of a visible child behind the splice point is lowered. -/
def lowered (deletedVisibleChildrenCount : Int) (child : TreeNode T) : TreeNode T :=
  if child.visible then child.withIndex (child.visibleChildIndex - deletedVisibleChildrenCount) else child

def spliceChildren (children : List (TreeNode T)) (lastIndex deleteCount : Nat) (nodes : List (TreeNode T)) :
    List (TreeNode T) :=
  let nodesToInsert := numberVisible (visibleChildStartIndex children lastIndex) nodes
  let deletedVisibleChildrenCount := countVisible ((children.drop lastIndex).take deleteCount)
  let after := children.drop (lastIndex + deleteCount)
  children.take lastIndex ++ nodesToInsert ++
    if deletedVisibleChildrenCount ≠ 0 then after.map (lowered deletedVisibleChildrenCount) else after

/-- The nodes that a splice makes below a node. -/
def nodesToInsert (node : TreeNode T) (toInsert : List (ITreeElement T)) : List (TreeNode T) :=
  createTreeNodes filter options (if node.visible then .visible else .hidden) toInsert

def spliceSimple (lastIndex deleteCount : Nat) (toInsert : List (ITreeElement T)) (isRoot : Bool) (node : TreeNode T) :
    TreeNode T :=
  let nodes := nodesToInsert filter options node toInsert
  let deletedNodes := (node.children.drop lastIndex).take deleteCount
  let newChildren := spliceChildren node.children lastIndex deleteCount nodes
  match node with
  | .mk element collapsible collapsed visibility visible visibleChildrenCount visibleChildIndex children =>
    .mk element
      (if !isRoot && children.isEmpty != newChildren.isEmpty then !newChildren.isEmpty else collapsible)
      collapsed visibility visible (visibleChildrenCount + (countVisible nodes - countVisible deletedNodes))
      visibleChildIndex newChildren

end Filter

/-! ## Collapsing -/

mutual

/-- `_setNodeCollapseState` for a node other than the root, without its answer. -/
def setNodeCollapseState (update : CollapseStateUpdate) : TreeNode T → TreeNode T
  | .mk element collapsible collapsed visibility visible visibleChildrenCount visibleChildIndex children =>
    let (isCollapsible, isCollapsed, _) := ownCollapseState collapsible collapsed update
    match update with
    | .collapsed _ true =>
      .mk element isCollapsible isCollapsed visibility visible visibleChildrenCount visibleChildIndex
        (setNodesCollapseState update children)
    | _ => .mk element isCollapsible isCollapsed visibility visible visibleChildrenCount visibleChildIndex children

def setNodesCollapseState (update : CollapseStateUpdate) : List (TreeNode T) → List (TreeNode T)
  | [] => []
  | node :: nodes => setNodeCollapseState update node :: setNodesCollapseState update nodes

end

/-- The update is one of the collapsed state, and not recursive. -/
def collapsesOnce : CollapseStateUpdate → Bool
  | .collapsed _ false => true
  | _ => false

section Collapse

variable (options : Options)

mutual

/-- The update of one collapse state, and what follows from it for an only visible child. -/
def setOwnCollapseState (update : CollapseStateUpdate) : TreeNode T → TreeNode T
  | .mk element collapsible collapsed visibility visible visibleChildrenCount visibleChildIndex children =>
    let (isCollapsible, isCollapsed, result) := ownCollapseState collapsible collapsed update
    let autoExpands := options.autoExpandSingleChildren && result && collapsesOnce update && isCollapsible &&
      !isCollapsed && children.countP TreeNode.visible = 1
    .mk element isCollapsible isCollapsed visibility visible visibleChildrenCount visibleChildIndex
      (if autoExpands then setVisibleCollapseStates update children else children)

/-- The same for the visible ones of the nodes, of which there is only one. -/
def setVisibleCollapseStates (update : CollapseStateUpdate) : List (TreeNode T) → List (TreeNode T)
  | [] => []
  | node :: nodes =>
    (if node.visible then setOwnCollapseState update node else node) :: setVisibleCollapseStates update nodes

end

/-- `_setCollapseState`; the root has no collapse state of its own. -/
def setCollapseState (update : CollapseStateUpdate) (isRoot : Bool) (node : TreeNode T) : TreeNode T :=
  match update with
  | .collapsed _ true =>
    if isRoot then node.withChildren (setNodesCollapseState update node.children) else setNodeCollapseState update node
  | _ => if isRoot then node else setOwnCollapseState options update node

end Collapse

/-! ## Locations -/

/-- `getTreeNode`; `none` where it throws. -/
def getTreeNode : List Nat → TreeNode T → Option (TreeNode T)
  | [], node => some node
  | index :: rest, node =>
    match node.children[index]? with
    | some child => getTreeNode rest child
    | none => none

/-- The node at the location is changed; `none` where there is none. -/
def updateAt (change : Bool → TreeNode T → Option (TreeNode T)) : Bool → List Nat → TreeNode T → Option (TreeNode T)
  | isRoot, [], node => change isRoot node
  | _, index :: rest, node =>
    match node.children[index]? with
    | some child => (updateAt change false rest child).map fun child => node.withChildren (node.children.set index child)
    | none => none

/-! ## Operations -/

def splice (filter : Filter T) (options : Options) (root : TreeNode T) (location : List Nat) (deleteCount : Nat)
    (toInsert : List (ITreeElement T)) : TreeNode T :=
  match location.getLast? with
  | none => root
  | some lastIndex =>
    (updateAt (fun isRoot node =>
      if lastIndex ≤ node.children.length then
        some (spliceSimple filter options lastIndex deleteCount toInsert isRoot node)
      else none) true location.dropLast root).getD root

def setCollapseStateAt (options : Options) (update : CollapseStateUpdate) (root : TreeNode T) (location : List Nat) :
    TreeNode T :=
  (updateAt (fun isRoot node => some (setCollapseState options update isRoot node)) true location root).getD root

def setCollapsed (options : Options) (root : TreeNode T) (location : List Nat) (collapsed : Option Bool)
    (recursive : Bool) : TreeNode T :=
  match getTreeNode location root with
  | some node => setCollapseStateAt options (.collapsed (collapsed.getD !node.collapsed) recursive) root location
  | none => root

def setCollapsible (options : Options) (root : TreeNode T) (location : List Nat) (collapsible : Option Bool) :
    TreeNode T :=
  match getTreeNode location root with
  | some node => setCollapseStateAt options (.collapsible (collapsible.getD !node.collapsible)) root location
  | none => root

/-- The loop of `expandTo`, over the locations of the ancestors. -/
def expandAncestors (options : Options) (location : List Nat) : Nat → TreeNode T → TreeNode T
  | 0, root => root
  | depth + 1, root =>
    match getTreeNode (location.take depth) root with
    | some node =>
      if node.collapsed then
        expandAncestors options location depth
          (setCollapseStateAt options (.collapsed false false) root (location.take depth))
      else expandAncestors options location depth root
    | none => root

def expandTo (options : Options) (root : TreeNode T) (location : List Nat) : TreeNode T :=
  match getTreeNode location root with
  | some _ => expandAncestors options location location.length root
  | none => root

def perform (options : Options) (filter : Filter T) (root : TreeNode T) : Operation T → TreeNode T
  | .splice location deleteCount toInsert => splice filter options root location deleteCount toInsert
  | .setCollapsed location collapsed recursive => setCollapsed options root location collapsed recursive
  | .setCollapsible location collapsible => setCollapsible options root location collapsible
  | .expandTo location => expandTo options root location
  | .refilter => refilter filter root

def run (options : Options) (root : TreeNode T) (operations : List (Filter T × Operation T)) : TreeNode T :=
  operations.foldl (fun root (filter, operation) => perform options filter root operation) root

def newRoot (rootElement : T) : TreeNode T := .mk rootElement false false .visible true 0 (-1) []

end TongjiCode.IndexTree.VisibleChildren
