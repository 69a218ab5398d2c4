import TongjiCode.Base.JsString

/-!
# Ternary search trees

The class `TernarySearchTree` of `ternarySearchTree.ts`.  The key iterator of a key is the list of the segments that it
goes through, each with its comparison.  Values are truthy: where the class asks `if (node.value)`, it asks whether a value
was set.  `none` is an exception, or a loop that does not end.
-/

namespace TongjiCode.SearchTree

/-- A segment, `none` for `undefined`. -/
abbrev Segment := Option JsString

/-- Where a key iterator stands: `value()`, and the sign of `cmp(a)` for a segment `a`, where a `NaN` is neither below
nor above zero and counts as `eq`. -/
structure Step where
  value : Segment
  cmp : Segment → Option Ordering

/-- `TernarySearchTreeNode`, `nil` for `undefined`.  The key and the value of a node are set together. -/
inductive Node (K V : Type) where
  | nil
  | node (height : Int) (segment : Segment) (entry : Option (K × V)) (left mid right : Node K V)
deriving DecidableEq

inductive Dir where
  | left
  | mid
  | right
deriving DecidableEq, Repr

namespace Node

variable {K V : Type}

/-- The height of a child, which is 0 for `undefined`. -/
def height : Node K V → Int
  | nil => 0
  | node height _ _ _ _ _ => height

def new (segment : Segment) : Node K V := node 1 segment none nil nil nil

def setEntry (entry : K × V) : Node K V → Node K V
  | nil => nil
  | node height segment _ left mid right => node height segment (some entry) left mid right

def patch : Node K V → Dir → Node K V → Node K V
  | nil, _, _ => nil
  | node height segment entry _ mid right, .left, child => node height segment entry child mid right
  | node height segment entry left _ right, .mid, child => node height segment entry left child right
  | node height segment entry left mid _, .right, child => node height segment entry left mid child

def child : Node K V → Dir → Node K V
  | nil, _ => nil
  | node _ _ _ left _ _, .left => left
  | node _ _ _ _ mid _, .mid => mid
  | node _ _ _ _ _ right, .right => right

def updateHeight : Node K V → Node K V
  | nil => nil
  | node _ segment entry left mid right => node (1 + max left.height right.height) segment entry left mid right

def balanceFactor : Node K V → Int
  | nil => 0
  | node _ _ _ left _ right => right.height - left.height

def rotateLeft : Node K V → Option (Node K V)
  | node height segment entry left mid (node height' segment' entry' left' mid' right') =>
    some (node height' segment' entry' (node height segment entry left mid left').updateHeight mid' right').updateHeight
  | _ => none

def rotateRight : Node K V → Option (Node K V)
  | node height segment entry (node height' segment' entry' left' mid' right') mid right =>
    some (node height' segment' entry' left' mid' (node height segment entry right' mid right).updateHeight).updateHeight
  | _ => none

/-! ## Insertion -/

/-- The part of the search of `set` below the last node that is there: each segment gets a new node.  A segment that
is not equal to itself would get one new node after another. -/
def newNodes (step : Step) (steps : List Step) (stack : List (Dir × Node K V)) :
    Option (Node K V × List (Dir × Node K V)) :=
  match step.cmp step.value with
  | some .eq =>
    match steps with
    | [] => some (new step.value, stack)
    | next :: steps => newNodes next steps ((.mid, new step.value) :: stack)
  | _ => none

/-- The search of `set`: the node to insert at, and the nodes above it with the directions. -/
def findInsertNode : Node K V → Step → List Step → List (Dir × Node K V) →
    Option (Node K V × List (Dir × Node K V))
  | nil, step, steps, stack => newNodes step steps stack
  | node height segment entry left mid right, step, steps, stack =>
    let this := node height segment entry left mid right
    match step.cmp segment with
    | none => none
    | some .gt => left.findInsertNode step steps ((.left, this) :: stack)
    | some .lt => right.findInsertNode step steps ((.right, this) :: stack)
    | some .eq =>
      match steps with
      | [] => some (this, stack)
      | next :: steps => mid.findInsertNode next steps ((.mid, this) :: stack)

/-- The rotations of `set` at a node, from the directions at it and below it. -/
def rotate (node : Node K V) (d1 : Dir) (d2 : Option Dir) : Option (Node K V) :=
  match d1, d2 with
  -- right, right -> rotate left
  | .right, some .right => node.rotateLeft
  -- left, left -> rotate right
  | .left, some .left => node.rotateRight
  -- right, left -> double rotate right, left
  | .right, some .left => (node.child .right).rotateRight.bind fun right => (node.patch .right right).rotateLeft
  -- left, right -> double rotate left, right
  | .left, some .right => (node.child .left).rotateLeft.bind fun left => (node.patch .left left).rotateRight
  | _, _ => none

/-- The turn of the balancing loop of `set` at a node. -/
def rebalance (node : Node K V) (d1 : Dir) (d2 : Option Dir) : Option (Node K V) :=
  let node := node.updateHeight
  if node.balanceFactor < -1 ∨ node.balanceFactor > 1 then node.rotate d1 d2 else some node

/-- The balancing loop of `set`, from the changed child of the innermost node on. -/
def balance (child : Node K V) (d2 : Option Dir) : List (Dir × Node K V) → Option (Node K V)
  | [] => some child
  | (d1, above) :: stack => ((above.patch d1 child).rebalance d1 d2).bind fun root => balance root (some d1) stack

def set (root : Node K V) (step : Step) (steps : List Step) (entry : K × V) : Option (Node K V) :=
  (root.findInsertNode step steps []).bind fun found => balance (found.1.setEntry entry) none found.2

/-! ## Queries -/

/-- `_getNode`, `nil` for `undefined`. -/
def getNode : Node K V → Step → List Step → Option (Node K V)
  | nil, _, _ => some nil
  | node height segment entry left mid right, step, steps =>
    match step.cmp segment with
    | none => none
    | some .gt => left.getNode step steps
    | some .lt => right.getNode step steps
    | some .eq =>
      match steps with
      | [] => some (node height segment entry left mid right)
      | next :: steps => mid.getNode next steps

def findSubstr : Node K V → Step → List Step → Option V → Option (Option V)
  | nil, _, _, candidate => some candidate
  | node _ segment entry left mid right, step, steps, candidate =>
    match step.cmp segment with
    | none => none
    | some .gt => left.findSubstr step steps candidate
    | some .lt => right.findSubstr step steps candidate
    | some .eq =>
      match steps with
      | [] => some ((entry.map Prod.snd).or candidate)
      | next :: steps => mid.findSubstr next steps ((entry.map Prod.snd).or candidate)

/-- `_dfsEntries`, where a value that was set is truthy. -/
def entries : Node K V → List (K × V)
  | nil => []
  | node _ _ entry left mid right => left.entries ++ entry.toList ++ mid.entries ++ right.entries

/-- `_findSuperstrOrElement(key, false)`: `none` inside for `undefined`. -/
def findSuperstr (root : Node K V) (step : Step) (steps : List Step) : Option (Option (List (K × V))) :=
  (root.getNode step steps).map fun
    | nil => none
    | node _ _ _ _ mid _ =>
      match mid with
      | nil => none
      | mid => some mid.entries

/-! ## Deletion of longer keys -/

/-- The search of `_delete`, `nil` for a node that is not found. -/
def findDeleteNode : Node K V → Step → List Step → List (Dir × Node K V) →
    Option (Node K V × List (Dir × Node K V))
  | nil, _, _, stack => some (nil, stack)
  | node height segment entry left mid right, step, steps, stack =>
    let this := node height segment entry left mid right
    match step.cmp segment with
    | none => none
    | some .gt => left.findDeleteNode step steps ((.left, this) :: stack)
    | some .lt => right.findDeleteNode step steps ((.right, this) :: stack)
    | some .eq =>
      match steps with
      | [] => some (this, stack)
      | next :: steps => mid.findDeleteNode next steps ((.mid, this) :: stack)

/-- The found node without its children; without a value, which is truthy where there is one, it goes as well. -/
def removeChildren : Node K V → Node K V
  | node _ segment (some entry) _ _ _ => node 1 segment (some entry) nil nil nil
  | _ => nil

/-- The turn of the balancing loop of `_delete` at a node. -/
def rebalanceDeleted (node : Node K V) : Option (Node K V) :=
  let node := node.updateHeight
  if node.balanceFactor > 1 then
    -- right heavy
    if (node.child .right).balanceFactor ≥ 0 then node.rotateLeft
    else (node.child .right).rotateRight.bind fun right => (node.patch .right right).rotateLeft
  else if node.balanceFactor < -1 then
    -- left heavy
    if (node.child .left).balanceFactor ≤ 0 then node.rotateRight
    else (node.child .left).rotateLeft.bind fun left => (node.patch .left left).rotateRight
  else some node

/-- The balancing loop of `_delete`. -/
def balanceDeleted (child : Node K V) : List (Dir × Node K V) → Option (Node K V)
  | [] => some child
  | (d1, above) :: stack => (above.patch d1 child).rebalanceDeleted.bind fun root => balanceDeleted root stack

/-- `deleteSuperstr`, which is `_delete(key, true)`. -/
def deleteSuperstr (root : Node K V) (step : Step) (steps : List Step) : Option (Node K V) :=
  (root.findDeleteNode step steps []).bind fun found =>
    match found.1 with
    -- node not found
    | nil => some root
    | found1 => balanceDeleted found1.removeChildren found.2

end Node

/-! ## Trees -/

/-- A ternary search tree.  `iter` is what its key iterator goes through for a key, the segment after `reset` first. -/
structure TernarySearchTree (K V : Type) where
  iter : K → Step × List Step
  root : Node K V := .nil

namespace TernarySearchTree

variable {K V : Type}

def set (tree : TernarySearchTree K V) (key : K) (element : V) : Option (TernarySearchTree K V) :=
  let (step, steps) := tree.iter key
  (tree.root.set step steps (key, element)).map fun root => { tree with root }

/-- The calls of `set`, one after the other. -/
def setAll (tree : TernarySearchTree K V) (sets : List (K × V)) : Option (TernarySearchTree K V) :=
  sets.foldlM (fun tree entry => tree.set entry.1 entry.2) tree

def entries (tree : TernarySearchTree K V) : List (K × V) := tree.root.entries

def findSubstr (tree : TernarySearchTree K V) (key : K) : Option (Option V) :=
  let (step, steps) := tree.iter key
  tree.root.findSubstr step steps none

def findSuperstr (tree : TernarySearchTree K V) (key : K) : Option (Option (List (K × V))) :=
  let (step, steps) := tree.iter key
  tree.root.findSuperstr step steps

def getNode (tree : TernarySearchTree K V) (key : K) : Option (Node K V) :=
  let (step, steps) := tree.iter key
  tree.root.getNode step steps

def deleteSuperstr (tree : TernarySearchTree K V) (key : K) : Option (TernarySearchTree K V) :=
  let (step, steps) := tree.iter key
  (tree.root.deleteSuperstr step steps).map fun root => { tree with root }

end TernarySearchTree

end TongjiCode.SearchTree
