import Mathlib.Data.List.Perm.Basic
import TongjiCode.Lib.RedBlack

/-!
# Interval tree: nodes, insertion and deletion

A node of the source is an object; here it is a value with an `id` at a place in a `Tree`, and a
pointer to it with its parent links is a location.  Missing nodes are the `SENTINEL`, whose delta is
zero whenever an operation starts, because every deletion ends with `resetSentinel`.

The start and end of a node are relative: the deltas of the ancestors in whose right subtree it lies
must be added.  `absolute` lists the intervals of a tree with these deltas added.
-/

namespace TongjiCode.Editor

open TongjiCode.Tree

/-! ## Nodes -/

inductive TrackedRangeStickiness where
  | alwaysGrowsWhenTypingAtEdges
  | neverGrowsWhenTypingAtEdges
  | growsOnlyWhenTypingBefore
  | growsOnlyWhenTypingAfter
  deriving Repr, DecidableEq

/-- The options of a decoration that the tree keeps with a node. -/
structure ModelDecorationOptions where
  className : Option String := none
  glyphMarginClassName : Option String := none
  stickiness : TrackedRangeStickiness := .alwaysGrowsWhenTypingAtEdges
  collapseOnReplaceEdit : Bool := false
  deriving Repr, DecidableEq

/-- A decoration and the interval it covers, from `start` to `stop` (the source's `end`). -/
structure Interval where
  id : Nat
  ownerId : Nat := 0
  isForValidation : Bool := false
  isInGlyphMargin : Bool := false
  stickiness : TrackedRangeStickiness := .neverGrowsWhenTypingAtEdges
  collapseOnReplaceEdit : Bool := false
  start : Int
  stop : Int
  deriving Repr, DecidableEq

structure IntervalNode extends Interval where
  delta : Int := 0
  maxEnd : Int
  isVisited : Bool := false
  cachedVersionId : Nat := 0
  cachedAbsoluteStart : Int
  cachedAbsoluteEnd : Int
  deriving Repr, DecidableEq

def Interval.shift (d : Int) (i : Interval) : Interval := { i with start := i.start + d, stop := i.stop + d }

namespace IntervalNode

def new (id : Nat) (start stop : Int) : IntervalNode :=
  { id, start, stop, maxEnd := stop, cachedAbsoluteStart := start, cachedAbsoluteEnd := stop }

def reset (versionId : Nat) (start stop : Int) (node : IntervalNode) : IntervalNode :=
  { node with
    start, stop
    maxEnd := stop
    cachedVersionId := versionId
    cachedAbsoluteStart := start
    cachedAbsoluteEnd := stop }

def setOptions (options : ModelDecorationOptions) (node : IntervalNode) : IntervalNode :=
  { node with
    isForValidation := options.className = some "squiggly-error" ∨ options.className = some "squiggly-warning" ∨
      options.className = some "squiggly-info"
    isInGlyphMargin := options.glyphMarginClassName ≠ none
    stickiness := options.stickiness
    collapseOnReplaceEdit := options.collapseOnReplaceEdit }

def setCachedOffsets (absoluteStart absoluteEnd : Int) (cachedVersionId : Nat) (node : IntervalNode) :
    IntervalNode :=
  { node with
    cachedVersionId
    cachedAbsoluteStart := absoluteStart
    cachedAbsoluteEnd := absoluteEnd }

def move (d : Int) (node : IntervalNode) : IntervalNode :=
  { node with start := node.start + d, stop := node.stop + d }

end IntervalNode

def minSafeDelta : Int := -(2 ^ 30)

def maxSafeDelta : Int := 2 ^ 30

/-- A delta at which normalisation is requested. -/
def unsafeDelta (delta : Int) : Bool := delta < minSafeDelta || delta > maxSafeDelta

structure IntervalTree where
  root : Tree IntervalNode := .nil
  requestNormalizeDelta : Bool := false
  sentinelIsVisited : Bool := false
  deriving Repr, DecidableEq

/-! ## Rotations and `maxEnd` -/

def computeMaxEnd (left : Tree IntervalNode) (v : IntervalNode) (right : Tree IntervalNode) : Int :=
  let maxEnd := v.stop
  let maxEnd := match left with
    | .nil => maxEnd
    | .node _ _ l _ => if l.maxEnd > maxEnd then l.maxEnd else maxEnd
  match right with
  | .nil => maxEnd
  | .node _ _ r _ => if r.maxEnd + v.delta > maxEnd then r.maxEnd + v.delta else maxEnd

/-- `node.maxEnd = computeMaxEnd(node)` for a node with the given subtrees. -/
def recomputeMaxEnd (left : Tree IntervalNode) (v : IntervalNode) (right : Tree IntervalNode) : IntervalNode :=
  { v with maxEnd := computeMaxEnd left v right }

/-- `recomputeMaxEndWalkToRoot`, started at the parent of a subtree `t`. -/
def recomputeMaxEndWalkToRoot (t : Tree IntervalNode) : Path IntervalNode → Path IntervalNode
  | [] => []
  | .left c v r :: path =>
    if v.maxEnd = computeMaxEnd t v r then .left c v r :: path
    else
      let f : Frame IntervalNode := .left c (recomputeMaxEnd t v r) r
      f :: recomputeMaxEndWalkToRoot (f.plug t) path
  | .right c l v :: path =>
    if v.maxEnd = computeMaxEnd l v t then .right c l v :: path
    else
      let f : Frame IntervalNode := .right c l (recomputeMaxEnd l v t)
      f :: recomputeMaxEndWalkToRoot (f.plug t) path

/-- `recomputeMaxEndWalkToRoot`, started at the root of the subtree itself. -/
def recomputeMaxEndFrom : Tree IntervalNode → Path IntervalNode → Tree IntervalNode × Path IntervalNode
  | .nil, path => (.nil, path)
  | .node c l v r, path =>
    if v.maxEnd = computeMaxEnd l v r then (.node c l v r, path)
    else
      let t := Tree.node c l (recomputeMaxEnd l v r) r
      (t, recomputeMaxEndWalkToRoot t path)

/-- `recomputeMaxEndWalkToRoot`, started at the ancestor that is `k` frames above the parent of `t`. -/
def recomputeMaxEndAbove (k : Nat) (t : Tree IntervalNode) (path : Path IntervalNode) : Path IntervalNode :=
  path.take k ++ recomputeMaxEndWalkToRoot (Path.plug (path.take k) t) (path.drop k)

/-- What rotations do to the nodes; the state is `requestNormalizeDelta`. -/
def intervalRotations : Rotations IntervalNode Bool where
  left request a x b y c :=
    let y := { y.move x.delta with delta := y.delta + x.delta }
    let x := recomputeMaxEnd a x b
    (request || unsafeDelta y.delta, x, recomputeMaxEnd (.node .red a x b) y c)
  right request a x b y c :=
    let y := { y.move (-x.delta) with delta := y.delta - x.delta }
    let y := recomputeMaxEnd b y c
    (request || unsafeDelta y.delta, recomputeMaxEnd a x (.node .red b y c), y)

/-! ## Insertion -/

def intervalCompare (aStart aEnd bStart bEnd : Int) : Int :=
  if aStart = bStart then aEnd - bEnd else aStart - bStart

/-- The place of a new node and the node relative to that place. -/
def treeInsert (z : IntervalNode) : Tree IntervalNode → Int → Path IntervalNode → IntervalNode × Path IntervalNode
  | .nil, delta, path => ({ z.move (-delta) with maxEnd := z.maxEnd - delta }, path)
  | .node c l x r, delta, path =>
    if intervalCompare z.start z.stop (x.start + delta) (x.stop + delta) < 0 then
      treeInsert z l delta (.left c x r :: path)
    else
      treeInsert z r (delta + x.delta) (.right c l x :: path)

def rbTreeInsert (T : IntervalTree) (newNode : IntervalNode) : IntervalTree :=
  match T.root with
  | .nil => { T with root := .node .black .nil newNode .nil }
  | root =>
    let z := treeInsert newNode root 0 []
    let x := Tree.node .red .nil z.1 .nil
    let r := intervalRotations.fixInsert T.requestNormalizeDelta x (recomputeMaxEndWalkToRoot x z.2)
    { T with root := r.2, requestNormalizeDelta := r.1 }

/-! ## Deletion -/

/-- The subtree with its root moved by a delta that no longer applies to it. -/
def addDelta (delta : Int) : Tree IntervalNode → Tree IntervalNode
  | .nil => .nil
  | .node c l v r => .node c l { v.move delta with delta := v.delta + delta } r

/-- The delta of the root, zero for the `SENTINEL`. -/
def rootDelta : Tree IntervalNode → Int
  | .nil => 0
  | .node _ _ v _ => v.delta

/-- The only child of a deleted root becomes the root: black, with its `maxEnd` recomputed. -/
def asRoot : Tree IntervalNode → Tree IntervalNode
  | .nil => .nil
  | .node _ l v r => .node .black l (recomputeMaxEnd l v r) r

/-- The walks from `x`, the child of the removed node, and from its parent. -/
def recomputeMaxEndAfterDelete (yColor : Color) (x : Tree IntervalNode) (path : Path IntervalNode) :
    Tree IntervalNode × Path IntervalNode :=
  if yColor = .red then (x, recomputeMaxEndWalkToRoot x path)
  else
    let w := recomputeMaxEndFrom x path
    (w.1, recomputeMaxEndWalkToRoot w.1 w.2)

/-- Delete the node at `z`: `x` takes the place of `y`, which is `z` itself or, where `z` has two
children, the next node, which then takes the place of `z`. -/
def rbTreeDelete (T : IntervalTree) (z : Loc IntervalNode) : IntervalTree :=
  match z.left, z.right with
  | .node _ _ _ _, .node rc rl rv rr =>
    let y := leftest rc rl rv rr []
    let x := addDelta y.val.delta y.right
    let y' := { y.val.move z.val.delta with delta := z.val.delta }
    let request := T.requestNormalizeDelta || unsafeDelta (rootDelta y.right + y.val.delta) ||
      unsafeDelta y'.delta
    let w := recomputeMaxEndAfterDelete y.color x (y.path ++ .right z.color z.left y' :: z.path)
    -- `y` is `y.path.length` frames above the parent of `x`
    let path := recomputeMaxEndAbove y.path.length w.1 w.2
    let path := recomputeMaxEndAbove (y.path.length + 1) w.1 path
    let r := intervalRotations.spliceFix request y.color w.1 path
    { T with root := r.2, requestNormalizeDelta := r.1 }
  | left, right =>
    let x := if left.isNil then addDelta z.val.delta right else left
    let request := T.requestNormalizeDelta || (left.isNil && unsafeDelta (rootDelta right + z.val.delta))
    match z.path with
    | [] => { T with root := asRoot x, requestNormalizeDelta := request }
    | path =>
      let w := recomputeMaxEndAfterDelete z.color x path
      let r := intervalRotations.spliceFix request z.color w.1 w.2
      { T with root := r.2, requestNormalizeDelta := r.1 }

end TongjiCode.Editor
