import Mathlib.Algebra.Group.Prod
import Mathlib.Tactic.Abel
import TongjiCode.Lib.RedBlack

/-!
# Piece tree: the red-black tree of pieces

Nodes carry a piece and the size and line feed count of their left subtree.  Insertion and deletion
change these counts along the way to the root.  Both counts are always treated alike; `Metadata` is the
pair of them.

`Off d path s` says by how much the counts on the way up from a place that holds the pieces `s` are off:
all by `d`.  A new piece makes them too small, a removed one too large, and `recomputeTreeMetadata`
brings the error down to the one it finds below (`off_recompute`).  The results are `rbInsertRight_spec`
and `rbInsertLeft_spec`.
-/

open List

namespace TongjiCode.PieceTree

open TongjiCode.Tree

/-! ## Nodes -/

structure BufferCursor where
  line : Nat
  column : Nat
  deriving Repr, DecidableEq

structure Piece where
  bufferIndex : Nat
  start : BufferCursor
  stop : BufferCursor
  lineFeedCnt : Nat
  length : Nat
  deriving Repr, DecidableEq

/-- A node of the tree; `id` stands for the identity of the object. -/
structure TreeNode where
  id : Nat
  piece : Piece
  sizeLeft : Int := 0
  lfLeft : Int := 0
  deriving Repr, DecidableEq

/-- A size and a line feed count. -/
abbrev Metadata := Int × Int

def Piece.metadata (p : Piece) : Metadata := (p.length, p.lineFeedCnt)

namespace TreeNode

def metadata (v : TreeNode) : Metadata := (v.sizeLeft, v.lfLeft)

def add (delta : Metadata) (v : TreeNode) : TreeNode :=
  { v with sizeLeft := v.sizeLeft + delta.1, lfLeft := v.lfLeft + delta.2 }

/-- What a node holds, without its counts. -/
def item (v : TreeNode) : Nat × Piece := (v.id, v.piece)

end TreeNode

def calculateSize : Tree TreeNode → Int
  | .nil => 0
  | .node _ _ v r => v.sizeLeft + v.piece.length + calculateSize r

def calculateLF : Tree TreeNode → Int
  | .nil => 0
  | .node _ _ v r => v.lfLeft + v.piece.lineFeedCnt + calculateLF r

def calculate (t : Tree TreeNode) : Metadata := (calculateSize t, calculateLF t)

def TreeNode.upTo (v : TreeNode) : Metadata := (v.sizeLeft + v.piece.length, v.lfLeft + v.piece.lineFeedCnt)

def pieceRotations : Rotations TreeNode Unit where
  left _ _ x _ y _ := ((), x, y.add x.upTo)
  right _ _ x _ y _ := ((), x, y.add (-x.upTo.1, -x.upTo.2))

/-! ## Counts on the way up -/

def updateTreeMetadata (delta : Metadata) (path : Path TreeNode) : Path TreeNode :=
  path.map fun
    | .left c v r => .left c (v.add delta) r
    | .right c l v => .right c l v

/-- A node whose left subtree changed, and the way up from it. -/
def recomputeLeft (left : Tree TreeNode) (v : TreeNode) (path : Path TreeNode) : TreeNode × Path TreeNode :=
  let delta := (calculateSize left - v.sizeLeft, calculateLF left - v.lfLeft)
  (v.add delta, if delta = 0 then path else updateTreeMetadata delta path)

/-- `recomputeTreeMetadata` for the node at the root of `x`: go upwards till the node whose left subtree
is changed, and from there till the root. -/
def recomputeTreeMetadata (x : Tree TreeNode) : Path TreeNode → Path TreeNode
  | [] => []
  | .right c l v :: path => .right c l v :: recomputeTreeMetadata (.node c l v x) path
  | .left c v r :: path =>
    let w := recomputeLeft x v path
    .left c w.1 r :: w.2

/-- `recomputeTreeMetadata` where `x` may be the `SENTINEL`, which counts as the right child of a node
without children. -/
def recomputeFrom (x : Tree TreeNode) (path : Path TreeNode) : Path TreeNode :=
  match x, path with
  | .nil, .left c v .nil :: path => .left c v .nil :: recomputeTreeMetadata (.node c .nil v .nil) path
  | x, path => recomputeTreeMetadata x path

/-- The counts of the parent of `x` where `x` is its left child; the `SENTINEL` also counts as the left
child of a node without one. -/
def recomputeParent (x : Tree TreeNode) (path : Path TreeNode) : Path TreeNode :=
  match x, path with
  | x, .left c v r :: path =>
    if calculate x ≠ v.metadata then
      let delta := (calculateSize x - v.sizeLeft, calculateLF x - v.lfLeft)
      .left c { v with sizeLeft := calculateSize x, lfLeft := calculateLF x } r :: updateTreeMetadata delta path
    else .left c v r :: path
  | .nil, .right c .nil v :: path =>
    if calculate .nil ≠ v.metadata then
      let delta := (0 - v.sizeLeft, 0 - v.lfLeft)
      .right c .nil { v with sizeLeft := 0, lfLeft := 0 } :: updateTreeMetadata delta path
    else .right c .nil v :: path
  | _, path => path

def recomputeFromParent (x : Tree TreeNode) : Path TreeNode → Path TreeNode
  | [] => []
  | f :: path => f :: recomputeTreeMetadata (f.plug x) path

/-! ## Insertion and deletion -/

def fixInsert (x : Tree TreeNode) (path : Path TreeNode) : Tree TreeNode :=
  (pieceRotations.fixInsert () x (recomputeTreeMetadata x path)).2

def rbInsertRight (node : Loc TreeNode) (z : TreeNode) : Tree TreeNode :=
  let x := Tree.node .red .nil z .nil
  match node.right with
  | .nil => fixInsert x (.right node.color node.left node.val :: node.path)
  | .node rc rl rv rr =>
    let nextNode := leftest rc rl rv rr (.right node.color node.left node.val :: node.path)
    fixInsert x (.left nextNode.color nextNode.val nextNode.right :: nextNode.path)

def rbInsertLeft (node : Loc TreeNode) (z : TreeNode) : Tree TreeNode :=
  let x := Tree.node .red .nil z .nil
  match node.left with
  | .nil => fixInsert x (.left node.color node.val node.right :: node.path)
  | .node lc ll lv lr =>
    let prevNode := righttest lc ll lv lr (.left node.color node.val node.right :: node.path)
    fixInsert x (.right prevNode.color prevNode.left prevNode.val :: prevNode.path)

/-- The end of a deletion: `x` has taken the place of a node of the given colour. -/
def finishDelete (color : Color) (x : Tree TreeNode) (path : Path TreeNode) : Tree TreeNode :=
  (pieceRotations.spliceFix () color x (recomputeFromParent x (recomputeParent x path))).2

/-- Delete the node `z`.  Where it has two children, the next node `y` takes its place and `x` the place
of `y`; else `x` takes the place of `z`. -/
def rbDelete (z : Loc TreeNode) : Tree TreeNode :=
  match z.left, z.right with
  | .node _ _ _ _, .node rc rl rv rr =>
    let y := leftest rc rl rv rr []
    let x := y.right
    -- as changes are made to the hierarchy of `x`, its counts come first; where `z` is the parent of `y`,
    -- the way up from `x` ends at `z`, whose left subtree is not changed
    let w : TreeNode × Path TreeNode × Path TreeNode := match y.path with
      | [] =>
        let w := recomputeLeft z.left z.val z.path
        (w.1, [], w.2)
      | spine =>
        let w := recomputeFrom x (spine ++ .right z.color z.left z.val :: z.path)
        (z.val, w.take spine.length, w.drop (spine.length + 1))
    let y' := { y.val with sizeLeft := w.1.sizeLeft, lfLeft := w.1.lfLeft }
    let path := recomputeTreeMetadata (.node z.color z.left y' (Path.plug w.2.1 x)) w.2.2
    finishDelete y.color x (w.2.1 ++ .right z.color z.left y' :: path)
  | left, right =>
    let x := if left.isNil then right else left
    match z.path with
    | [] => x.setColor .black
    | path => finishDelete z.color x (recomputeFrom x path)

/-- `node.piece = piece`, followed by `updateTreeMetadata`. -/
def setPiece (z : Loc TreeNode) (piece : Piece) (delta : Metadata) : Tree TreeNode :=
  Path.plug (updateTreeMetadata delta z.path) (.node z.color z.left { z.val with piece } z.right)

/-! ## Correct counts -/

def items (t : Tree TreeNode) : List (Nat × Piece) := t.toList.map TreeNode.item

def total (s : List (Nat × Piece)) : Metadata := (s.map fun i => i.2.metadata).sum

theorem total_append (s s' : List (Nat × Piece)) : total (s ++ s') = total s + total s' := by
  simp [total]

theorem total_cons (i : Nat × Piece) (s : List (Nat × Piece)) : total (i :: s) = i.2.metadata + total s := by
  simp [total]

theorem items_nil : items .nil = [] := rfl

theorem items_node (c : Color) (l : Tree TreeNode) (v : TreeNode) (r : Tree TreeNode) :
    items (.node c l v r) = items l ++ v.item :: items r := by
  simp [items, toList]

/-- A subtree contributes its pieces; a node must count those of its left subtree. -/
def pieceAugment : Augment TreeNode (List (Nat × Piece)) :=
  .ofEq [] (fun l v r => l ++ v.item :: r) fun l v _ => v.metadata = total l

theorem fold_eq_items (t : Tree TreeNode) : pieceAugment.fold t = items t := by
  induction t with
  | nil => rfl
  | node c l v r ihl ihr =>
    rw [items_node, ← ihl, ← ihr]
    rfl

theorem good_node {c : Color} {l : Tree TreeNode} {v : TreeNode} {r : Tree TreeNode} :
    pieceAugment.Good (.node c l v r) ↔ v.metadata = total (items l) ∧ pieceAugment.Good l ∧ pieceAugment.Good r := by
  rw [← fold_eq_items]
  exact Iff.rfl

theorem metadata_add (delta : Metadata) (v : TreeNode) : (v.add delta).metadata = v.metadata + delta := rfl

theorem upTo_eq (v : TreeNode) : v.upTo = v.metadata + v.piece.metadata := rfl

theorem calculate_node (c : Color) (l : Tree TreeNode) (v : TreeNode) (r : Tree TreeNode) :
    calculate (.node c l v r) = v.metadata + v.piece.metadata + calculate r := rfl

theorem calculate_eq {t : Tree TreeNode} (h : pieceAugment.Good t) : calculate t = total (items t) := by
  induction t with
  | nil => rfl
  | node c l v r _ ihr =>
    rw [good_node] at h
    rw [calculate_node, items_node, total_append, total_cons, ihr h.2.2, h.1]
    exact add_assoc _ _ _

theorem pieceRotations_lawful : pieceRotations.Lawful pieceAugment where
  left := by
    intro s a x b y c _ _ _ hy hx
    simp only [fold_eq_items] at *
    have hx' : x.metadata = total (items a) := hx
    have hy' : y.metadata = total (items b) := hy
    refine ⟨hx', ?_, ?_⟩
    · change (y.add x.upTo).metadata = total (items a ++ x.item :: items b)
      rw [metadata_add, upTo_eq, total_append, total_cons, hx', hy']
      abel
    · change (items a ++ x.item :: items b) ++ y.item :: items c = items a ++ x.item :: (items b ++ y.item :: items c)
      simp
  right := by
    intro s a x b y c _ _ _ hx hy
    simp only [fold_eq_items] at *
    have hx' : x.metadata = total (items a) := hx
    have hy' : y.metadata = total (items a ++ x.item :: items b) := hy
    refine ⟨?_, hx', ?_⟩
    · change (y.add (-x.upTo.1, -x.upTo.2)).metadata = total (items b)
      have hneg : ((-x.upTo.1, -x.upTo.2) : Metadata) = -x.upTo := rfl
      rw [metadata_add, hneg, upTo_eq, hy', hx', total_append, total_cons]
      change total (items a) + (x.piece.metadata + total (items b)) + -(total (items a) + x.piece.metadata) = _
      abel
    · change items a ++ x.item :: (items b ++ y.item :: items c) = (items a ++ x.item :: items b) ++ y.item :: items c
      simp

/-- The counts on the way up from a hole that holds `s` are off by `d`, all other ones are right. -/
def Off (d : Metadata) : Path TreeNode → List (Nat × Piece) → Prop
  | [], _ => True
  | .left _ v r :: path, s =>
    v.metadata = total s + d ∧ pieceAugment.Good r ∧ Off d path (s ++ v.item :: items r)
  | .right _ l v :: path, s =>
    v.metadata = total (items l) ∧ pieceAugment.Good l ∧ Off d path (items l ++ v.item :: s)

theorem off_zero (path : Path TreeNode) : ∀ s : List (Nat × Piece), Off 0 path s ↔ pieceAugment.GoodPath path s := by
  induction path with
  | nil => intro s; exact Iff.rfl
  | cons f path ih =>
    intro s
    cases f with
    | left c v r =>
      rw [Off, ih, Augment.GoodPath, add_zero, ← fold_eq_items]
      exact ⟨fun h => ⟨⟨h.1, h.2.1⟩, h.2.2⟩, fun h => ⟨h.1.1, h.1.2, h.2⟩⟩
    | right c l v =>
      rw [Off, ih, Augment.GoodPath, ← fold_eq_items]
      exact ⟨fun h => ⟨⟨h.1, h.2.1⟩, h.2.2⟩, fun h => ⟨h.1.1, h.1.2, h.2⟩⟩

theorem good_plug_iff (path : Path TreeNode) (t : Tree TreeNode) :
    pieceAugment.Good (Path.plug path t) ↔ pieceAugment.Good t ∧ Off 0 path (items t) := by
  rw [Augment.good_plug, off_zero, fold_eq_items]

variable {path : Path TreeNode}

/-- A change in the hole makes the counts wrong by as much. -/
theorem Off.change : ∀ {d d' : Metadata} {s s' : List (Nat × Piece)}, Off d path s →
    total s + d = total s' + d' → Off d' path s' := by
  induction path with
  | nil => intro d d' s s' _ _; trivial
  | cons f path ih =>
    intro d d' s s' h heq
    cases f with
    | left c v r =>
      obtain ⟨h1, h2, h3⟩ := h
      refine ⟨h1.trans heq, h2, ih h3 ?_⟩
      simp only [total_append]
      rw [add_right_comm, heq, add_right_comm]
    | right c l v =>
      obtain ⟨h1, h2, h3⟩ := h
      refine ⟨h1, h2, ih h3 ?_⟩
      simp only [total_append, total_cons]
      rw [add_assoc, add_assoc, add_assoc, add_assoc, heq]

theorem off_update (path : Path TreeNode) : ∀ {d : Metadata} {s : List (Nat × Piece)} (delta : Metadata), Off d path s →
    Off (d + delta) (updateTreeMetadata delta path) s := by
  induction path with
  | nil => intro d s delta _; trivial
  | cons f path ih =>
    intro d s delta h
    cases f with
    | left c v r =>
      obtain ⟨h1, h2, h3⟩ := h
      refine ⟨?_, h2, ih delta h3⟩
      rw [metadata_add, h1, add_assoc]
    | right c l v =>
      obtain ⟨h1, h2, h3⟩ := h
      exact ⟨h1, h2, ih delta h3⟩

theorem off_recomputeLeft {left : Tree TreeNode} {v : TreeNode} {d e : Metadata} {s s' : List (Nat × Piece)}
    (hv : v.metadata = total s + d) (hleft : calculate left = total s + e) (hpath : Off d path s') :
    (recomputeLeft left v path).1.metadata = total s + e ∧ Off e (recomputeLeft left v path).2 s' := by
  have hdelta : (calculateSize left - v.sizeLeft, calculateLF left - v.lfLeft) = e - d := by
    change calculate left - v.metadata = e - d
    rw [hleft, hv]
    abel
  unfold recomputeLeft
  simp only [hdelta]
  constructor
  · rw [metadata_add, hv]
    abel
  · split
    · next h =>
      rw [sub_eq_zero.mp h]
      exact hpath
    · have := off_update path (e - d) hpath
      rw [add_sub_cancel] at this
      exact this

/-- Recomputing brings the error of a way up down to the one of the counts at its end. -/
theorem off_recompute (path : Path TreeNode) : ∀ {x : Tree TreeNode} {d e : Metadata}, Off d path (items x) →
    calculate x = total (items x) + e → Off e (recomputeTreeMetadata x path) (items x) := by
  induction path with
  | nil => intro x d e _ _; trivial
  | cons f path ih =>
    intro x d e h hx
    cases f with
    | left c v r =>
      obtain ⟨h1, h2, h3⟩ := h
      obtain ⟨hv, hpath⟩ := off_recomputeLeft h1 hx h3
      exact ⟨hv, h2, hpath⟩
    | right c l v =>
      obtain ⟨h1, h2, h3⟩ := h
      refine ⟨h1, h2, ?_⟩
      rw [← items_node c] at h3 ⊢
      refine ih h3 ?_
      rw [calculate_node, items_node, total_append, total_cons, h1, hx]
      change total (items l) + v.piece.metadata + (total (items x) + e) =
        total (items l) + (v.piece.metadata + total (items x)) + e
      abel

/-! ## What stays on the way up -/

abbrev shape (path : Path TreeNode) : Path (Nat × Piece) := path.map (Frame.map TreeNode.item)

theorem shape_update (delta : Metadata) (path : Path TreeNode) : shape (updateTreeMetadata delta path) = shape path := by
  simp only [shape, updateTreeMetadata, map_map]
  apply map_congr_left
  intro f _
  cases f <;> rfl

theorem shape_recomputeLeft (left : Tree TreeNode) (v : TreeNode) (path : Path TreeNode) :
    (recomputeLeft left v path).1.item = v.item ∧ shape (recomputeLeft left v path).2 = shape path := by
  refine ⟨rfl, ?_⟩
  unfold recomputeLeft
  dsimp only
  split
  · rfl
  · exact shape_update _ _

theorem shape_recompute (path : Path TreeNode) : ∀ x : Tree TreeNode,
    shape (recomputeTreeMetadata x path) = shape path := by
  induction path with
  | nil => intro x; rfl
  | cons f path ih =>
    intro x
    cases f with
    | left c v r =>
      obtain ⟨h1, h2⟩ := shape_recomputeLeft x v path
      simp only [shape, recomputeTreeMetadata, map_cons, Frame.map] at h2 ⊢
      rw [h1, h2]
    | right c l v =>
      have := ih (.node c l v x)
      simp only [shape, recomputeTreeMetadata, map_cons, Frame.map] at this ⊢
      rw [this]

theorem items_plug (path : Path TreeNode) (t : Tree TreeNode) : items (Path.plug path t) =
    (Path.before path).map TreeNode.item ++ items t ++ (Path.after path).map TreeNode.item := by
  simp [items, Path.toList_plug]

theorem items_eq_map (t : Tree TreeNode) : items t = (t.map TreeNode.item).toList := by
  rw [toList_map]
  rfl

theorem items_plug_congr {path path' : Path TreeNode} (h : shape path' = shape path) (t : Tree TreeNode) :
    items (Path.plug path' t) = items (Path.plug path t) := by
  rw [items_eq_map, items_eq_map, Path.map_plug, Path.map_plug]
  exact congrArg (fun p => (Path.plug p (t.map TreeNode.item)).toList) h

theorem erase_of_shape {path path' : Path TreeNode} (h : shape path' = shape path) :
    Path.erase path' = Path.erase path := by
  rw [← Path.erase_map TreeNode.item path', ← Path.erase_map TreeNode.item path]
  exact congrArg Path.erase h

/-! ## Insertion -/

/-- The tree is balanced and its counts are right. -/
structure TreeOk (root : Tree TreeNode) : Prop where
  redBlack : RedBlack root
  good : pieceAugment.Good root

theorem refines_items {t t' : Tree TreeNode} (h : pieceAugment.Refines t t') (hg : pieceAugment.Good t) :
    pieceAugment.Good t' ∧ items t' = items t := by
  obtain ⟨hg', hle⟩ := h hg
  refine ⟨hg', ?_⟩
  rw [← fold_eq_items, ← fold_eq_items]
  exact hle

variable {z : TreeNode}

theorem fixInsert_spec (h : TreeOk (Path.plug path .nil)) (hz : z.metadata = 0) :
    TreeOk (fixInsert (.node .red .nil z .nil) path) ∧
      items (fixInsert (.node .red .nil z .nil) path) =
        (Path.before path).map TreeNode.item ++ z.item :: (Path.after path).map TreeNode.item := by
  have hleaf : items (.node .red .nil z .nil) = [z.item] := rfl
  have hpath := (good_plug_iff path .nil).mp h.good |>.2
  have hoff : Off (-z.piece.metadata) path (items (.node .red .nil z .nil)) := by
    refine hpath.change ?_
    change total [] + 0 = z.piece.metadata + total [] + -z.piece.metadata
    abel
  have hcalc : calculate (.node .red .nil z .nil) = total (items (.node .red .nil z .nil)) + 0 := by
    rw [calculate_node, hleaf, total_cons, hz]
    abel
  have hshape := shape_recompute path (.node .red .nil z .nil)
  have hgood : pieceAugment.Good (Path.plug (recomputeTreeMetadata (.node .red .nil z .nil) path)
      (.node .red .nil z .nil)) := by
    rw [good_plug_iff]
    exact ⟨good_node.mpr ⟨hz, trivial, trivial⟩, off_recompute path hoff hcalc⟩
  obtain ⟨hgood', hitems⟩ := refines_items
    (Rotations.fixInsert_refines pieceRotations_lawful () (.node .red .nil z .nil) _) hgood
  refine ⟨⟨?_, hgood'⟩, ?_⟩
  · obtain ⟨c, n, hnil, hp⟩ := h.redBlack.unplug
    cases hnil
    exact pieceRotations.fixInsert_balanced () (.red .nil .nil) (hp.congr (erase_of_shape hshape))
  · rw [fixInsert, hitems, items_plug_congr hshape, items_plug, hleaf]
    simp

theorem items_root (z : Loc TreeNode) : items z.root =
    (Path.before z.path).map TreeNode.item ++ items z.left ++
      z.val.item :: (items z.right ++ (Path.after z.path).map TreeNode.item) := by
  rw [items, z.toList_root]
  simp [items]

variable {node : Loc TreeNode}

def itemsBefore (z : Loc TreeNode) : List (Nat × Piece) := (Path.before z.path).map TreeNode.item ++ items z.left

def itemsAfter (z : Loc TreeNode) : List (Nat × Piece) := items z.right ++ (Path.after z.path).map TreeNode.item

/-- A leaf at a hole of the tree of `node`, where the items on one side of it are known. -/
theorem fixInsert_at {path : Path TreeNode} {front back : List (Nat × Piece)} (h : TreeOk node.root) (hz : z.metadata = 0)
    (hroot : Path.plug path .nil = node.root) (hsplit : front ++ back = itemsBefore node ++ node.val.item :: itemsAfter node)
    (hside : (Path.before path).map TreeNode.item = front ∨ (Path.after path).map TreeNode.item = back) :
    TreeOk (fixInsert (.node .red .nil z .nil) path) ∧
      items (fixInsert (.node .red .nil z .nil) path) = front ++ z.item :: back := by
  obtain ⟨hok, hitems⟩ := fixInsert_spec (hroot ▸ h) hz
  have hlist := items_plug path .nil
  rw [hroot, items_root, items_nil, append_nil] at hlist
  change itemsBefore node ++ node.val.item :: itemsAfter node = _ at hlist
  rw [← hsplit] at hlist
  refine ⟨hok, hitems.trans ?_⟩
  rcases hside with rfl | rfl
  · rw [append_cancel_left hlist]
  · rw [append_cancel_right hlist]

theorem rbInsertRight_spec (h : TreeOk node.root) (hz : z.metadata = 0) :
    TreeOk (rbInsertRight node z) ∧
      items (rbInsertRight node z) = itemsBefore node ++ node.val.item :: z.item :: itemsAfter node := by
  rw [append_cons]
  unfold rbInsertRight
  cases hr : node.right with
  | nil =>
    refine fixInsert_at h hz ?_ (append_cons _ _ _).symm (.inr ?_)
    · rw [Loc.root, Loc.focus, hr]
      rfl
    · rw [itemsAfter, hr]
      rfl
  | node rc rl rv rr =>
    obtain ⟨hroot, hleft⟩ := leftest_root rl rc rv rr (.right node.color node.left node.val :: node.path)
    obtain ⟨spine, hspine, hframes⟩ := leftest_path rl rc rv rr (.right node.color node.left node.val :: node.path)
    have hbefore := Path.before_append hframes (.right node.color node.left node.val :: node.path)
    rw [← hspine] at hbefore
    refine fixInsert_at h hz ?_ (append_cons _ _ _).symm (.inl ?_)
    · rw [Loc.root, Loc.focus, hleft] at hroot
      rw [Loc.root, Loc.focus, hr]
      exact hroot
    · rw [Path.before, hbefore]
      simp [Path.before, itemsBefore, items]

theorem rbInsertLeft_spec (h : TreeOk node.root) (hz : z.metadata = 0) :
    TreeOk (rbInsertLeft node z) ∧
      items (rbInsertLeft node z) = itemsBefore node ++ z.item :: node.val.item :: itemsAfter node := by
  unfold rbInsertLeft
  cases hl : node.left with
  | nil =>
    refine fixInsert_at h hz ?_ rfl (.inl ?_)
    · rw [Loc.root, Loc.focus, hl]
      rfl
    · rw [itemsBefore, hl, items_nil, append_nil]
      rfl
  | node lc ll lv lr =>
    obtain ⟨hroot, hright⟩ := righttest_root lr lc ll lv (.left node.color node.val node.right :: node.path)
    obtain ⟨spine, hspine, hframes⟩ := righttest_path lr lc ll lv (.left node.color node.val node.right :: node.path)
    have hafter := Path.after_append hframes (.left node.color node.val node.right :: node.path)
    rw [← hspine] at hafter
    refine fixInsert_at h hz ?_ rfl (.inr ?_)
    · rw [Loc.root, Loc.focus, hright] at hroot
      rw [Loc.root, Loc.focus, hl]
      exact hroot
    · rw [Path.after, hafter]
      simp [Path.after, itemsAfter, items]

end TongjiCode.PieceTree
