import Mathlib.Data.List.Nodup
import TongjiCode.PieceTree.RbDelete

/-!
# Piece tree: nodes by identity

The source passes references to nodes; here a reference is the `id` of the node.  `Holds root l` says that
a tree is right and holds the pieces `l` in order, under distinct ids.  Every operation on a referenced
node is an operation on such a list.
-/

open List

namespace TongjiCode.PieceTree

open TongjiCode.Tree

/-! ## Operations on a referenced node -/

def find (root : Tree TreeNode) (id : Nat) : Option (Loc TreeNode) := root.locate (fun v => v.id == id) []

def pieceOf (root : Tree TreeNode) (id : Nat) : Option Piece := (find root id).map fun z => z.val.piece

def insertRight (root : Tree TreeNode) (node : Option Nat) (z : TreeNode) : Tree TreeNode :=
  match root, node with
  | .nil, _ => .node .black .nil z .nil
  | root, some id => (find root id).elim root fun node => rbInsertRight node z
  | root, none => root

def insertLeft (root : Tree TreeNode) (node : Option Nat) (z : TreeNode) : Tree TreeNode :=
  match root, node with
  | .nil, _ => .node .black .nil z .nil
  | root, some id => (find root id).elim root fun node => rbInsertLeft node z
  | root, none => root

def deleteNode (root : Tree TreeNode) (id : Nat) : Tree TreeNode := (find root id).elim root rbDelete

def deleteNodes (root : Tree TreeNode) (ids : List Nat) : Tree TreeNode := ids.foldl deleteNode root

def changePiece (root : Tree TreeNode) (id : Nat) (piece : Piece) (delta : Metadata) : Tree TreeNode :=
  (find root id).elim root fun z => setPiece z piece delta

/-- The way up from a subtree to the first node in whose left subtree it lies. -/
def nextUp (t : Tree TreeNode) : Path TreeNode → Option TreeNode
  | [] => none
  | .left _ v _ :: _ => some v
  | .right c l v :: path => nextUp (.node c l v t) path

def prevUp (t : Tree TreeNode) : Path TreeNode → Option TreeNode
  | [] => none
  | .right _ _ v :: _ => some v
  | .left c v r :: path => prevUp (.node c t v r) path

/-- `node.next()`; the `SENTINEL` is `none`. -/
def next (root : Tree TreeNode) (id : Nat) : Option Nat :=
  match find root id with
  | none => none
  | some z =>
    match z.right with
    | .node rc rl rv rr => some (leftest rc rl rv rr []).val.id
    | .nil => (nextUp z.focus z.path).map TreeNode.id

/-- `node.prev()` -/
def prev (root : Tree TreeNode) (id : Nat) : Option Nat :=
  match find root id with
  | none => none
  | some z =>
    match z.left with
    | .node lc ll lv lr => some (righttest lc ll lv lr []).val.id
    | .nil => (prevUp z.focus z.path).map TreeNode.id

structure NodePosition where
  node : Nat
  remainder : Nat
  nodeStartOffset : Nat
  deriving Repr, DecidableEq

def nodeAtLoop : Tree TreeNode → Int → Int → Option NodePosition
  | .nil, _, _ => none
  | .node _ l v r, offset, nodeStartOffset =>
    if v.sizeLeft > offset then nodeAtLoop l offset nodeStartOffset
    else if v.sizeLeft + v.piece.length ≥ offset then
      some ⟨v.id, (offset - v.sizeLeft).toNat, (nodeStartOffset + v.sizeLeft).toNat⟩
    else nodeAtLoop r (offset - (v.sizeLeft + v.piece.length)) (nodeStartOffset + (v.sizeLeft + v.piece.length))

/-! ## The list of pieces -/

/-- The tree is right and holds the pieces `l`. -/
structure Holds (root : Tree TreeNode) (l : List (Nat × Piece)) : Prop where
  ok : TreeOk root
  items : items root = l
  nodup : (l.map Prod.fst).Nodup

theorem split_unique {l₁ l₂ m1 m2 : List (Nat × Piece)} {a b : Nat × Piece}
    (h : l₁ ++ a :: l₂ = m1 ++ b :: m2) (hab : a.1 = b.1) (hnodup : ((l₁ ++ a :: l₂).map Prod.fst).Nodup) :
    l₁ = m1 ∧ a = b ∧ l₂ = m2 := by
  induction l₁ generalizing m1 with
  | nil =>
    cases m1 with
    | nil =>
      simp only [nil_append, List.cons.injEq] at h
      exact ⟨rfl, h.1, h.2⟩
    | cons x m1 =>
      obtain ⟨rfl, rfl⟩ := h
      simp [hab] at hnodup
  | cons x l₁ ih =>
    cases m1 with
    | nil =>
      obtain ⟨rfl, rfl⟩ := h
      simp [hab] at hnodup
    | cons y m1 =>
      simp only [cons_append, List.cons.injEq] at h
      obtain ⟨rfl, h⟩ := h
      rw [cons_append, map_cons, nodup_cons] at hnodup
      obtain ⟨rfl, hrest⟩ := ih h hnodup.2
      exact ⟨rfl, hrest⟩

section Holds

variable {root : Tree TreeNode} {l₁ l₂ : List (Nat × Piece)} {id : Nat} {p : Piece}

theorem Holds.find (h : Holds root (l₁ ++ (id, p) :: l₂)) : ∃ z, find root id = some z ∧ z.root = root ∧
    z.val.item = (id, p) ∧ itemsBefore z = l₁ ∧ itemsAfter z = l₂ := by
  have hmem : (id, p) ∈ PieceTree.items root := by
    rw [h.items]
    simp
  obtain ⟨v, hv, hitem⟩ := mem_map.mp hmem
  have hid : v.id = id := congrArg Prod.fst hitem
  obtain ⟨z, hz⟩ : ∃ z, root.locate (fun v => v.id == id) [] = some z :=
    locate_isSome root ⟨v, hv, by simpa using hid⟩
  obtain ⟨hroot, hzid⟩ := locate_some root hz
  have hroot : z.root = root := hroot
  have hlist : l₁ ++ (id, p) :: l₂ = itemsBefore z ++ z.val.item :: itemsAfter z := by
    rw [← h.items, ← hroot]
    exact items_root z
  obtain ⟨h1, h2, h3⟩ := split_unique hlist (by simpa [TreeNode.item] using (Eq.symm (by simpa using hzid))) h.nodup
  exact ⟨z, hz, hroot, h2.symm, h1.symm, h3.symm⟩

theorem Holds.pieceOf (h : Holds root (l₁ ++ (id, p) :: l₂)) : pieceOf root id = some p := by
  obtain ⟨z, hz, -, hitem, -, -⟩ := h.find
  rw [PieceTree.pieceOf, hz]
  exact congrArg some (congrArg Prod.snd hitem)

theorem holds_single (z : TreeNode) (hz : z.metadata = 0) : Holds (.node .black .nil z .nil) [z.item] :=
  ⟨⟨⟨1, .black .nil .nil⟩, good_node.mpr ⟨hz, trivial, trivial⟩⟩, rfl, by simp⟩

theorem nodup_insert {l₁ l₂ : List (Nat × Piece)} {i : Nat × Piece} (hnodup : ((l₁ ++ l₂).map Prod.fst).Nodup)
    (hnew : i.1 ∉ (l₁ ++ l₂).map Prod.fst) : ((l₁ ++ i :: l₂).map Prod.fst).Nodup := by
  have hperm : (l₁ ++ i :: l₂).Perm (i :: (l₁ ++ l₂)) := perm_middle
  rw [(hperm.map Prod.fst).nodup_iff, map_cons, nodup_cons]
  exact ⟨hnew, hnodup⟩

section

variable (h : Holds root (l₁ ++ (id, p) :: l₂))
include h

theorem Holds.insertRight {z : TreeNode} (hz : z.metadata = 0) (hnew : z.id ∉ (l₁ ++ (id, p) :: l₂).map Prod.fst) :
    Holds (insertRight root (some id) z) (l₁ ++ (id, p) :: z.item :: l₂) := by
  obtain ⟨loc, hloc, hroot, hitem, hbefore, hafter⟩ := h.find
  obtain ⟨hok, hitems⟩ := rbInsertRight_spec (hroot ▸ h.ok) hz
  have hins : PieceTree.insertRight root (some id) z = rbInsertRight loc z := by
    cases root with
    | nil => cases hloc
    | node c l v r =>
      simp only [PieceTree.insertRight, hloc]
      rfl
  rw [hins]
  refine ⟨hok, ?_, ?_⟩
  · rw [hitems, hbefore, hafter, hitem]
  · have hnodup := h.nodup
    rw [append_cons] at hnodup hnew ⊢
    exact nodup_insert hnodup hnew

theorem Holds.insertLeft {z : TreeNode} (hz : z.metadata = 0) (hnew : z.id ∉ (l₁ ++ (id, p) :: l₂).map Prod.fst) :
    Holds (insertLeft root (some id) z) (l₁ ++ z.item :: (id, p) :: l₂) := by
  obtain ⟨loc, hloc, hroot, hitem, hbefore, hafter⟩ := h.find
  obtain ⟨hok, hitems⟩ := rbInsertLeft_spec (hroot ▸ h.ok) hz
  have hins : PieceTree.insertLeft root (some id) z = rbInsertLeft loc z := by
    cases root with
    | nil => cases hloc
    | node c l v r =>
      simp only [PieceTree.insertLeft, hloc]
      rfl
  rw [hins]
  refine ⟨hok, ?_, nodup_insert h.nodup hnew⟩
  rw [hitems, hbefore, hafter, hitem]

theorem Holds.deleteNode : Holds (deleteNode root id) (l₁ ++ l₂) := by
  obtain ⟨loc, hloc, hroot, -, hbefore, hafter⟩ := h.find
  obtain ⟨hok, hitems⟩ := rbDelete_spec (hroot ▸ h.ok)
  have hdel : PieceTree.deleteNode root id = rbDelete loc := by
    rw [PieceTree.deleteNode, hloc]
    rfl
  rw [hdel]
  refine ⟨hok, ?_, ?_⟩
  · rw [hitems, hbefore, hafter]
  · exact h.nodup.sublist (List.Sublist.map _ (List.Sublist.append_left (sublist_cons_self _ _) _))

theorem Holds.changePiece {q : Piece} {delta : Metadata} (hdelta : q.metadata = p.metadata + delta) :
    Holds (changePiece root id q delta) (l₁ ++ (id, q) :: l₂) := by
  obtain ⟨loc, hloc, hroot, hitem, hbefore, hafter⟩ := h.find
  have hid : loc.val.id = id := congrArg Prod.fst hitem
  have hpiece : loc.val.piece = p := congrArg Prod.snd hitem
  obtain ⟨hok, hitems⟩ := setPiece_spec (hroot ▸ h.ok) (hdelta.trans (by rw [hpiece]))
  have hset : PieceTree.changePiece root id q delta = setPiece loc q delta := by
    rw [PieceTree.changePiece, hloc]
    rfl
  rw [hset]
  refine ⟨hok, ?_, ?_⟩
  · rw [hitems, hbefore, hafter, hid]
  · have hnodup := h.nodup
    simp only [map_append, map_cons] at hnodup ⊢
    exact hnodup

end

theorem nextUp_eq (path : Path TreeNode) : ∀ t : Tree TreeNode,
    (nextUp t path).map TreeNode.item = ((Path.after path).map TreeNode.item).head? := by
  induction path with
  | nil => intro t; rfl
  | cons f path ih =>
    intro t
    cases f with
    | left c v r => rfl
    | right c l v => exact ih (.node c l v t)

theorem prevUp_eq (path : Path TreeNode) : ∀ t : Tree TreeNode,
    (prevUp t path).map TreeNode.item = ((Path.before path).map TreeNode.item).getLast? := by
  induction path with
  | nil => intro t; rfl
  | cons f path ih =>
    intro t
    cases f with
    | left c v r => exact ih (.node c t v r)
    | right c l v => simp [prevUp, Path.before]

theorem Holds.next (h : Holds root (l₁ ++ (id, p) :: l₂)) : next root id = l₂.head?.map Prod.fst := by
  obtain ⟨loc, hloc, -, -, -, rfl⟩ := h.find
  simp only [PieceTree.next, hloc, itemsAfter]
  cases hr : loc.right with
  | nil =>
    have := nextUp_eq loc.path loc.focus
    rw [items_nil, nil_append, ← this]
    cases nextUp loc.focus loc.path <;> rfl
  | node rc rl rv rr =>
    obtain ⟨hroot, hleft⟩ := leftest_root rl rc rv rr []
    obtain ⟨spine, hspine, hframes⟩ := leftest_path rl rc rv rr []
    have hbefore := Path.before_append hframes []
    rw [← hspine] at hbefore
    have hlist := items_root (leftest rc rl rv rr [])
    rw [hroot, hleft, hbefore, Path.plug] at hlist
    rw [hlist]
    rfl

theorem Holds.prev (h : Holds root (l₁ ++ (id, p) :: l₂)) : prev root id = l₁.getLast?.map Prod.fst := by
  obtain ⟨loc, hloc, -, -, rfl, -⟩ := h.find
  simp only [PieceTree.prev, hloc, itemsBefore]
  cases hl : loc.left with
  | nil =>
    have := prevUp_eq loc.path loc.focus
    rw [items_nil, append_nil, ← this]
    cases prevUp loc.focus loc.path <;> rfl
  | node lc ll lv lr =>
    obtain ⟨hroot, hright⟩ := righttest_root lr lc ll lv []
    obtain ⟨spine, hspine, hframes⟩ := righttest_path lr lc ll lv []
    have hafter := Path.after_append hframes []
    rw [← hspine] at hafter
    have hlist := items_root (righttest lc ll lv lr [])
    rw [hroot, hright, hafter, Path.plug, items_nil, Path.after, map_nil, append_nil] at hlist
    rw [hlist]
    simp [TreeNode.item]

def totalLength (l : List (Nat × Piece)) : Nat := (l.map fun i => i.2.length).sum

theorem total_fst (l : List (Nat × Piece)) : (total l).1 = totalLength l := by
  induction l with
  | nil => rfl
  | cons i l ih =>
    rw [total_cons, Prod.fst_add, ih]
    simp [totalLength, Piece.metadata]

theorem totalLength_append (l l' : List (Nat × Piece)) : totalLength (l ++ l') = totalLength l + totalLength l' := by
  simp [totalLength]

theorem totalLength_cons (i : Nat × Piece) (l : List (Nat × Piece)) :
    totalLength (i :: l) = i.2.length + totalLength l := by
  simp [totalLength]

/-- What a search finds: a node that starts at `nodeStartOffset` and reaches at least to the offset. -/
theorem nodeAtLoop_spec (t : Tree TreeNode) : ∀ (offset base : Nat), pieceAugment.Good t → t ≠ .nil →
    offset ≤ totalLength (items t) → ∃ l₁ id p l₂, items t = l₁ ++ (id, p) :: l₂ ∧
      totalLength l₁ ≤ offset ∧ offset ≤ totalLength l₁ + p.length ∧
      nodeAtLoop t offset base = some ⟨id, offset - totalLength l₁, base + totalLength l₁⟩ := by
  induction t with
  | nil => intro offset base _ hne; exact (hne rfl).elim
  | node c l v r ihl ihr =>
    intro offset base h _ hle
    obtain ⟨hv, hgl, hgr⟩ := good_node.mp h
    have hsize : v.sizeLeft = totalLength (items l) := by
      rw [← total_fst, ← hv]
      rfl
    rw [items_node, totalLength_append, totalLength_cons] at hle
    rw [nodeAtLoop]
    by_cases hleft : v.sizeLeft > offset
    · rw [if_pos hleft]
      have hne : l ≠ .nil := by
        rintro rfl
        rw [hsize] at hleft
        simp [items_nil, totalLength] at hleft
        omega
      obtain ⟨l₁, id, p, l₂, hitems, h1, h2, hres⟩ := ihl offset base hgl hne (by omega)
      refine ⟨l₁, id, p, l₂ ++ v.item :: items r, ?_, h1, h2, hres⟩
      rw [items_node, hitems]
      simp
    · rw [if_neg hleft]
      by_cases hhere : v.sizeLeft + v.piece.length ≥ offset
      · rw [if_pos hhere]
        refine ⟨items l, v.id, v.piece, items r, items_node _ _ _ _, by omega, by omega, ?_⟩
        simp only [Option.some.injEq, NodePosition.mk.injEq, true_and]
        omega
      · rw [if_neg hhere]
        have hne : r ≠ .nil := by
          rintro rfl
          simp only [items_nil, totalLength, map_nil, List.sum_nil, TreeNode.item] at hle
          simp only [totalLength] at hsize
          omega
        have hitem : v.item.2.length = v.piece.length := rfl
        obtain ⟨l₁, id, p, l₂, hitems, h1, h2, hres⟩ := ihr (offset - (totalLength (items l) + v.piece.length))
          (base + (totalLength (items l) + v.piece.length)) hgr hne (by omega)
        refine ⟨items l ++ v.item :: l₁, id, p, l₂, ?_, ?_, ?_, ?_⟩
        · rw [items_node, hitems]
          simp
        · rw [totalLength_append, totalLength_cons]
          omega
        · rw [totalLength_append, totalLength_cons]
          omega
        · rw [totalLength_append, totalLength_cons, hitem]
          have hcast : (offset : Int) - (v.sizeLeft + v.piece.length) =
              ((offset - (totalLength (items l) + v.piece.length) : Nat) : Int) := by omega
          have hcast' : (base : Int) + (v.sizeLeft + v.piece.length) =
              ((base + (totalLength (items l) + v.piece.length) : Nat) : Int) := by omega
          rw [hcast, hcast', hres]
          simp only [Option.some.injEq, NodePosition.mk.injEq, true_and]
          omega

end Holds

end TongjiCode.PieceTree
