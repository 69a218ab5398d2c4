import TongjiCode.PieceTree.RbTree

/-!
# Piece tree: deletion

In `rbDelete` the child `x` that takes the place of a removed node may be the `SENTINEL`.  Compared with
the children of its parent, the `SENTINEL` is taken for the right child where both are missing; the first
walk up then changes nothing, and all counts stay off by the removed piece until `recomputeParent`
(`off_recomputeFrom`, `off_recomputeParent`).  Results: `rbDelete_spec` and `setPiece_spec`.
-/

open List

namespace TongjiCode.PieceTree

open TongjiCode.Tree

/-! ## Counts during a deletion -/

theorem foldPath_items (path : Path TreeNode) (t : Tree TreeNode) :
    pieceAugment.foldPath path (items t) = items (Path.plug path t) := by
  rw [← fold_eq_items, ← fold_eq_items, Augment.fold_plug]

theorem off_append (p q : Path TreeNode) : ∀ {d : Metadata} {s : List (Nat × Piece)},
    Off d (p ++ q) s ↔ Off d p s ∧ Off d q (pieceAugment.foldPath p s) := by
  induction p with
  | nil => intro d s; exact ⟨fun h => ⟨trivial, h⟩, fun h => h.2⟩
  | cons f p ih =>
    intro d s
    cases f with
    | left c v r =>
      have hfold : pieceAugment.foldFrame (.left c v r) s = s ++ v.item :: items r := by
        rw [← fold_eq_items]
        rfl
      rw [cons_append, Off, Off, ih, Augment.foldPath, hfold, and_assoc, and_assoc]
    | right c l v =>
      have hfold : pieceAugment.foldFrame (.right c l v) s = items l ++ v.item :: s := by
        rw [← fold_eq_items]
        rfl
      rw [cons_append, Off, Off, ih, Augment.foldPath, hfold, and_assoc, and_assoc]

/-- The first frame of a path is a left one. -/
def StartsLeft : Path TreeNode → Prop
  | .left _ _ _ :: _ => True
  | _ => False

section Finish

variable {x : Tree TreeNode} {path : Path TreeNode} {d : Metadata}

theorem off_recomputeFrom (hx : pieceAugment.Good x) (h : Off d path (items x)) :
    ∃ d', Off d' (recomputeFrom x path) (items x) ∧ (d' = 0 ∨ StartsLeft (recomputeFrom x path)) := by
  unfold recomputeFrom
  split
  · next c v path =>
    -- the counts of the parent are off by as much as those above it
    obtain ⟨h1, h2, h3⟩ := h
    refine ⟨d, ⟨h1, h2, ?_⟩, .inr trivial⟩
    refine off_recompute path (x := .node c .nil v .nil) h3 ?_
    rw [calculate_node, h1, items_node, total_append, total_cons]
    abel
  · refine ⟨0, off_recompute path h ?_, .inl rfl⟩
    rw [calculate_eq hx, add_zero]

theorem off_recomputeParent (hx : pieceAugment.Good x) (h : Off d path (items x)) (hd : d = 0 ∨ StartsLeft path) :
    Off 0 (recomputeParent x path) (items x) := by
  have hcalc := calculate_eq hx
  unfold recomputeParent
  split
  · next c v r path =>
    obtain ⟨h1, h2, h3⟩ := h
    split
    · have hdelta : (calculateSize x - v.sizeLeft, calculateLF x - v.lfLeft) = -d := by
        change calculate x - v.metadata = -d
        rw [hcalc, h1]
        abel
      refine ⟨?_, h2, ?_⟩
      · change calculate x = _
        rw [hcalc, add_zero]
      · rw [hdelta]
        have := off_update path (-d) h3
        rw [add_neg_cancel] at this
        exact this
    · next heq =>
      rw [not_not] at heq
      have hzero : d = 0 := by
        rw [← heq, hcalc] at h1
        exact left_eq_add.mp h1
      rw [hzero] at h1 h3
      exact ⟨h1, h2, h3⟩
  · next c v path =>
    rcases hd with rfl | hd
    · obtain ⟨h1, h2, h3⟩ := h
      rw [if_neg]
      · exact ⟨h1, h2, h3⟩
      · rw [not_not, h1]
        rfl
    · exact hd.elim
  · rcases hd with rfl | hd
    · exact h
    · next hne _ =>
      cases path with
      | nil => exact hd.elim
      | cons f path =>
        cases f with
        | left c v r => exact (hne c v r path rfl).elim
        | right c l v => exact hd.elim

theorem off_recomputeFromParent (hx : pieceAugment.Good x) (h : Off 0 path (items x)) :
    Off 0 (recomputeFromParent x path) (items x) := by
  cases path with
  | nil => trivial
  | cons f path =>
    have hgood : pieceAugment.Good (Path.plug (f :: path) x) := (good_plug_iff _ _).mpr ⟨hx, h⟩
    have hup := (good_plug_iff path (f.plug x)).mp hgood
    have hoff := off_recompute path hup.2 ((calculate_eq hup.1).trans (add_zero _).symm)
    cases f with
    | left c v r =>
      rw [Frame.plug, items_node] at hoff
      exact ⟨h.1, h.2.1, hoff⟩
    | right c l v =>
      rw [Frame.plug, items_node] at hoff
      exact ⟨h.1, h.2.1, hoff⟩

theorem shape_recomputeFrom (x : Tree TreeNode) (path : Path TreeNode) : shape (recomputeFrom x path) = shape path := by
  unfold recomputeFrom
  split
  · next c v path =>
    have := shape_recompute path (.node c .nil v .nil)
    simp only [shape, map_cons] at this ⊢
    rw [this]
  · exact shape_recompute path x

theorem shape_recomputeParent (x : Tree TreeNode) (path : Path TreeNode) :
    shape (recomputeParent x path) = shape path := by
  unfold recomputeParent
  split
  · next c v r path =>
    split
    · have := shape_update (calculateSize x - v.sizeLeft, calculateLF x - v.lfLeft) path
      simp only [shape, map_cons] at this ⊢
      rw [this]
      rfl
    · rfl
  · next c v path =>
    split
    · have := shape_update (0 - v.sizeLeft, 0 - v.lfLeft) path
      simp only [shape, map_cons] at this ⊢
      rw [this]
      rfl
    · rfl
  · rfl

theorem shape_recomputeFromParent (x : Tree TreeNode) (path : Path TreeNode) :
    shape (recomputeFromParent x path) = shape path := by
  cases path with
  | nil => rfl
  | cons f path =>
    have := shape_recompute path (f.plug x)
    simp only [shape, recomputeFromParent, map_cons] at this ⊢
    rw [this]

/-- The end of a deletion repairs counts that are off at most where the `SENTINEL` was taken for the
wrong child. -/
theorem finishDelete_spec {y : Loc TreeNode} (hy : RedBlack y.root) (hxy : x = y.right ∨ x = y.left)
    (hshape : Path.erase path = Path.erase y.path) (hx : pieceAugment.Good x) (h : Off d path (items x))
    (hd : d = 0 ∨ StartsLeft path) :
    TreeOk (finishDelete y.color x path) ∧ items (finishDelete y.color x path) = items (Path.plug path x) := by
  have hpath := off_recomputeFromParent hx (off_recomputeParent hx h hd)
  have hsame : shape (recomputeFromParent x (recomputeParent x path)) = shape path :=
    (shape_recomputeFromParent x _).trans (shape_recomputeParent x path)
  have hgood := (good_plug_iff _ _).mpr ⟨hx, hpath⟩
  obtain ⟨hgood', hitems⟩ := refines_items
    (Rotations.spliceFix_refines pieceRotations_lawful () y.color x _) hgood
  refine ⟨⟨?_, hgood'⟩, hitems.trans (items_plug_congr hsame x)⟩
  refine pieceRotations.spliceFix_balanced () hy ?_ ((erase_of_shape hsame).trans hshape)
  rcases hxy with rfl | rfl
  · exact .inl rfl
  · exact .inr rfl

end Finish

/-! ## Deletion -/

section Delete

variable {z : Loc TreeNode}

theorem deleteSimple_spec (h : TreeOk z.root) {x : Tree TreeNode}
    (hx : (z.left = .nil ∧ x = z.right) ∨ (z.right = .nil ∧ x = z.left)) :
    TreeOk (finishDelete z.color x (recomputeFrom x z.path)) ∧
      items (finishDelete z.color x (recomputeFrom x z.path)) = itemsBefore z ++ itemsAfter z := by
  have hgood := (good_plug_iff z.path z.focus).mp h.good
  have hfocus := good_node.mp hgood.1
  obtain ⟨hxgood, htotal, hitems⟩ : pieceAugment.Good x ∧ total (items z.focus) = total (items x) + z.val.piece.metadata ∧
      (Path.before z.path).map TreeNode.item ++ items x ++ (Path.after z.path).map TreeNode.item =
        itemsBefore z ++ itemsAfter z := by
    rw [itemsBefore, itemsAfter, Loc.focus, items_node, total_append, total_cons]
    rcases hx with ⟨hnil, rfl⟩ | ⟨hnil, rfl⟩
    · refine ⟨hfocus.2.2, ?_, ?_⟩
      · rw [hnil]
        change 0 + (z.val.piece.metadata + total (items z.right)) = total (items z.right) + z.val.piece.metadata
        abel
      · rw [hnil]
        simp [items, toList]
    · refine ⟨hfocus.2.1, ?_, ?_⟩
      · rw [hnil]
        abel
      · rw [hnil]
        simp [items, toList]
  have hoff : Off z.val.piece.metadata z.path (items x) := by
    refine hgood.2.change ?_
    rw [htotal, add_zero]
  obtain ⟨d, hoff', hd⟩ := off_recomputeFrom hxgood hoff
  have hshape := shape_recomputeFrom x z.path
  have hxy : x = z.right ∨ x = z.left := by
    rcases hx with ⟨-, h⟩ | ⟨-, h⟩
    · exact .inl h
    · exact .inr h
  obtain ⟨hok, hlist⟩ := finishDelete_spec h.redBlack hxy (erase_of_shape hshape) hxgood hoff' hd
  refine ⟨hok, hlist.trans ?_⟩
  rw [items_plug_congr hshape, items_plug, hitems]

theorem deleteRoot_spec (h : TreeOk z.root) (hpath : z.path = []) {x : Tree TreeNode}
    (hx : (z.left = .nil ∧ x = z.right) ∨ (z.right = .nil ∧ x = z.left)) :
    TreeOk (x.setColor .black) ∧ items (x.setColor .black) = itemsBefore z ++ itemsAfter z := by
  have hgood := (good_plug_iff z.path z.focus).mp h.good
  have hfocus := good_node.mp hgood.1
  obtain ⟨_, _, hb, -⟩ := RedBlack.unplug z.path h.redBlack
  obtain ⟨hl, hr⟩ := hb.children
  have hbal : ∃ c n, Balanced x c n := by
    rcases hx with ⟨-, rfl⟩ | ⟨-, rfl⟩
    · exact hr
    · exact hl
  obtain ⟨c, n, hbal⟩ := hbal
  have hset : items (x.setColor .black) = items x := by
    simp [items]
  rw [hset, itemsBefore, itemsAfter, hpath]
  rcases hx with ⟨hnil, rfl⟩ | ⟨hnil, rfl⟩
  · refine ⟨⟨hbal.blacken, (Augment.good_setColor _ _ _).mpr hfocus.2.2⟩, ?_⟩
    rw [hnil]
    simp [items, toList, Path.before, Path.after]
  · refine ⟨⟨hbal.blacken, (Augment.good_setColor _ _ _).mpr hfocus.2.1⟩, ?_⟩
    rw [hnil]
    simp [items, toList, Path.before, Path.after]

/-- The counts above a spine of left frames are off by as much as those on it. -/
theorem calculate_spine (spine : Path TreeNode) : ∀ {x : Tree TreeNode} {d : Metadata}, spine ≠ [] →
    (∀ f ∈ spine, ∃ c v r, f = .left c v r) → Off d spine (items x) →
    calculate (Path.plug spine x) = total (items (Path.plug spine x)) + d := by
  induction spine with
  | nil => intro x d hne; exact (hne rfl).elim
  | cons f spine ih =>
    intro x d _ hleft h
    obtain ⟨c, v, r, rfl⟩ := hleft f (by simp)
    obtain ⟨h1, h2, h3⟩ := h
    cases spine with
    | nil =>
      change calculate (.node c x v r) = total (items (.node c x v r)) + d
      rw [calculate_node, items_node, total_append, total_cons, h1, calculate_eq h2]
      change total (items x) + d + v.piece.metadata + total (items r) =
        total (items x) + (v.piece.metadata + total (items r)) + d
      abel
    | cons g spine =>
      rw [← items_node c] at h3
      exact ih (by simp) (fun f hf => hleft f (mem_cons_of_mem _ hf)) h3

theorem shape_take_drop {W spine path : Path TreeNode} {f : Frame TreeNode}
    (h : shape W = shape (spine ++ f :: path)) : ∃ g, W = W.take spine.length ++ g :: W.drop (spine.length + 1) ∧
      shape (W.take spine.length) = shape spine ∧ g.map TreeNode.item = f.map TreeNode.item ∧
      shape (W.drop (spine.length + 1)) = shape path := by
  have hlen : W.length = spine.length + (path.length + 1) := by
    have := congrArg List.length h
    simpa [shape] using this
  have hlt : spine.length < W.length := by omega
  refine ⟨W[spine.length], ?_, ?_, ?_, ?_⟩
  · rw [← drop_eq_getElem_cons hlt, take_append_drop]
  · have := congrArg (List.take spine.length) h
    rw [shape, shape, ← map_take, ← map_take, take_left] at this
    exact this
  · have := congrArg (fun l => l[spine.length]?) h
    simpa [shape, hlt] using this
  · have hdrop : (spine ++ f :: path).drop (spine.length + 1) = path := by
      rw [show spine.length + 1 = (spine ++ [f]).length by simp, append_cons spine f path, drop_left]
    have := congrArg (List.drop (spine.length + 1)) h
    rw [shape, shape, ← map_drop, ← map_drop, hdrop] at this
    exact this

theorem left_of_shape {p q : Path TreeNode} (h : shape p = shape q) (hq : ∀ f ∈ q, ∃ c v r, f = .left c v r) :
    ∀ f ∈ p, ∃ c v r, f = .left c v r := by
  intro f hf
  have hmem : f.map TreeNode.item ∈ shape q := by
    rw [← h]
    exact mem_map_of_mem hf
  obtain ⟨g, hg, heq⟩ := mem_map.mp hmem
  obtain ⟨c, v, r, rfl⟩ := hq g hg
  cases f with
  | left c v r => exact ⟨c, v, r, rfl⟩
  | right c l v => cases heq

theorem startsLeft {p : Path TreeNode} (hne : p ≠ []) (h : ∀ f ∈ p, ∃ c v r, f = .left c v r) : StartsLeft p := by
  cases p with
  | nil => exact hne rfl
  | cons f p =>
    obtain ⟨c, v, r, rfl⟩ := h f (by simp)
    trivial

/-- Deletion of a node with two children: `y` is the next node. -/
theorem deleteInner_spec (h : TreeOk z.root) {spine : Path TreeNode} {yc : Color} {yv : TreeNode} {yr : Tree TreeNode}
    (hright : Path.plug spine (.node yc .nil yv yr) = z.right) (hleft : ∀ f ∈ spine, ∃ c v r, f = .left c v r)
    {zv : TreeNode} {spine' path' : Path TreeNode} {d : Metadata} (hzv : zv.metadata = total (items z.left))
    (hspine : shape spine' = shape spine) (hpath : shape path' = shape z.path)
    (hoff : Off d spine' (items yr)) (hcalc : calculate (Path.plug spine' yr) = total (items (Path.plug spine' yr)) + d)
    {d' : Metadata} (hoff' : Off d' path' (items z.left ++ z.val.item :: items (Path.plug spine' yr)))
    (hd : d = 0 ∨ StartsLeft spine') :
    let y' := { yv with sizeLeft := zv.sizeLeft, lfLeft := zv.lfLeft }
    let path := spine' ++ .right z.color z.left y' ::
      recomputeTreeMetadata (.node z.color z.left y' (Path.plug spine' yr)) path'
    TreeOk (finishDelete yc yr path) ∧ items (finishDelete yc yr path) = itemsBefore z ++ itemsAfter z := by
  intro y' path
  have hgood := (good_plug_iff z.path z.focus).mp h.good
  have hfocus := good_node.mp hgood.1
  have hyr : pieceAugment.Good yr := by
    have := hfocus.2.2
    rw [← hright, good_plug_iff] at this
    exact (good_node.mp this.1).2.2
  have hy' : y'.metadata = total (items z.left) := hzv
  let ty : Tree TreeNode := .node z.color z.left y' (Path.plug spine' yr)
  have hitems : items ty = items z.left ++ yv.item :: items (Path.plug spine' yr) := items_node _ _ _ _
  have hup : Off d (recomputeTreeMetadata ty path') (items ty) := by
    have hchange : Off (d' + z.val.piece.metadata - yv.piece.metadata) path' (items ty) := by
      refine hoff'.change ?_
      rw [hitems]
      simp only [total_append, total_cons]
      change total (items z.left) + (z.val.piece.metadata + total (items (Path.plug spine' yr))) + d' =
        total (items z.left) + (yv.piece.metadata + total (items (Path.plug spine' yr))) +
          (d' + z.val.piece.metadata - yv.piece.metadata)
      abel
    refine off_recompute path' hchange ?_
    rw [calculate_node, hy', hcalc, hitems, total_append, total_cons]
    change total (items z.left) + yv.piece.metadata + (total (items (Path.plug spine' yr)) + d) =
      total (items z.left) + (yv.piece.metadata + total (items (Path.plug spine' yr))) + d
    abel
  have hall : Off d path (items yr) := by
    rw [off_append, foldPath_items]
    refine ⟨hoff, hy', hfocus.2.1, ?_⟩
    rw [hitems] at hup
    exact hup
  have hd' : d = 0 ∨ StartsLeft path := by
    rcases hd with hd | hd
    · exact .inl hd
    · cases spine' with
      | nil => exact hd.elim
      | cons f spine' =>
        cases f with
        | left c v r => exact .inr trivial
        | right c l v => exact hd.elim
  let y : Loc TreeNode := ⟨yc, .nil, yv, yr, spine ++ .right z.color z.left z.val :: z.path⟩
  have hyroot : y.root = z.root := by
    rw [Loc.root, Loc.root, Path.plug_append, Loc.focus, Loc.focus]
    rw [hright]
    rfl
  have herase : Path.erase path = Path.erase y.path := by
    have h1 := erase_of_shape hspine
    have h2 := erase_of_shape ((shape_recompute path' ty).trans hpath)
    simp only [Path.erase, path, y, map_append, map_cons, Frame.erase] at h1 h2 ⊢
    rw [h1, h2]
  obtain ⟨hok, hlist⟩ := finishDelete_spec (y := y) (by rw [hyroot]; exact h.redBlack) (.inl rfl) herase hyr hall hd'
  refine ⟨hok, hlist.trans ?_⟩
  -- the next node is the first one of the right subtree
  have hright' : items z.right = yv.item :: items (Path.plug spine' yr) := by
    rw [← hright, items_plug, items_plug_congr hspine, items_plug]
    have hbefore : Path.before spine = [] := by
      have := Path.before_append hleft []
      rw [append_nil] at this
      exact this
    rw [hbefore]
    simp [items, toList]
  have hplug : Path.plug path yr = Path.plug (recomputeTreeMetadata ty path') ty := by
    rw [Path.plug_append]
    rfl
  rw [hplug, items_plug_congr ((shape_recompute path' ty).trans hpath), items_plug, hitems, itemsBefore, itemsAfter,
    hright']
  simp

theorem rbDelete_spec (h : TreeOk z.root) :
    TreeOk (rbDelete z) ∧ items (rbDelete z) = itemsBefore z ++ itemsAfter z := by
  have hgood := (good_plug_iff z.path z.focus).mp h.good
  have hfocus := good_node.mp hgood.1
  unfold rbDelete
  split
  · next rc rl rv rr hl hr =>
    obtain ⟨hyroot, hyleft⟩ := leftest_root rl rc rv rr []
    obtain ⟨spine, hspine, hleft⟩ := leftest_path rl rc rv rr []
    rw [append_nil] at hspine
    rw [Loc.root, Loc.focus, hyleft, hspine] at hyroot
    have hright := hyroot.trans hr.symm
    dsimp only
    rw [hspine]
    generalize leftest rc rl rv rr [] = y at *
    have hpath : Off 0 z.path (items z.left ++ z.val.item :: items z.right) := by
      rw [← items_node z.color]
      exact hgood.2
    cases spine with
    | nil =>
      have hzr : items z.right = y.val.item :: items y.right := by
        rw [← hright, Path.plug, items_node]
        rfl
      obtain ⟨hzv, hup⟩ := off_recomputeLeft (hfocus.1.trans (add_zero _).symm)
        ((calculate_eq hfocus.2.1).trans (add_zero _).symm) hpath
      have hyr : pieceAugment.Good y.right := by
        have := hfocus.2.2
        rw [← hright] at this
        exact (good_node.mp this).2.2
      have hchange : Off y.val.piece.metadata (recomputeLeft z.left z.val z.path).2
          (items z.left ++ z.val.item :: items y.right) := by
        refine hup.change ?_
        rw [hzr]
        simp only [total_append, total_cons]
        change total (items z.left) + (z.val.piece.metadata + (y.val.piece.metadata + total (items y.right))) + 0 =
          total (items z.left) + (z.val.piece.metadata + total (items y.right)) + y.val.piece.metadata
        abel
      exact deleteInner_spec h hright hleft (hzv.trans (add_zero _)) rfl (shape_recomputeLeft _ _ _).2 trivial
        ((calculate_eq hyr).trans (add_zero _).symm) hchange (.inl rfl)
    | cons f spine =>
      have hspineGood := hfocus.2.2
      rw [← hright, good_plug_iff] at hspineGood
      have hyr := (good_node.mp hspineGood.1).2.2
      have hoff : Off y.val.piece.metadata ((f :: spine) ++ .right z.color z.left z.val :: z.path) (items y.right) := by
        have hall : Off 0 ((f :: spine) ++ .right z.color z.left z.val :: z.path)
            (items (.node y.color .nil y.val y.right)) := by
          rw [off_append, foldPath_items, hright]
          exact ⟨hspineGood.2, hfocus.1, hfocus.2.1, hpath⟩
        refine hall.change ?_
        rw [items_node, total_append, total_cons]
        change 0 + (y.val.piece.metadata + total (items y.right)) + 0 = total (items y.right) + y.val.piece.metadata
        abel
      obtain ⟨d, hoff', -⟩ := off_recomputeFrom hyr hoff
      obtain ⟨g, hW, hsp, hg, hzp⟩ := shape_take_drop
        (shape_recomputeFrom y.right ((f :: spine) ++ .right z.color z.left z.val :: z.path))
      rw [hW, off_append, foldPath_items] at hoff'
      obtain ⟨h1, h2⟩ := hoff'
      have hleft' := left_of_shape hsp hleft
      have hne : (recomputeFrom y.right ((f :: spine) ++ .right z.color z.left z.val :: z.path)).take
          (f :: spine).length ≠ [] := by
        intro hnil
        rw [hnil] at hsp
        cases hsp
      cases g with
      | left c v r => cases hg
      | right c l v =>
        simp only [Frame.map, Frame.right.injEq] at hg
        have h3 := h2.2.2
        rw [items_eq_map l, hg.2.1, ← items_eq_map, hg.2.2] at h3
        exact deleteInner_spec h hright hleft hfocus.1 hsp hzp h1 (calculate_spine _ hne hleft' h1) h3
          (.inr (startsLeft hne hleft'))
  · next hne =>
    have hx : (z.left = .nil ∧ (if z.left.isNil then z.right else z.left) = z.right) ∨
        (z.right = .nil ∧ (if z.left.isNil then z.right else z.left) = z.left) := by
      cases hl : z.left with
      | nil => exact .inl ⟨rfl, rfl⟩
      | node c l v r =>
        cases hr : z.right with
        | nil => exact .inr ⟨rfl, rfl⟩
        | node c' l' v' r' => exact (hne _ _ _ _ _ _ _ _ hl hr).elim
    cases hpath : z.path with
    | nil => exact deleteRoot_spec h hpath hx
    | cons f path =>
      have := deleteSimple_spec h hx
      rw [hpath] at this
      exact this

theorem setPiece_spec (h : TreeOk z.root) {piece : Piece} {delta : Metadata}
    (hdelta : piece.metadata = z.val.piece.metadata + delta) :
    TreeOk (setPiece z piece delta) ∧
      items (setPiece z piece delta) = itemsBefore z ++ (z.val.id, piece) :: itemsAfter z := by
  have hgood := (good_plug_iff z.path z.focus).mp h.good
  have hfocus := good_node.mp hgood.1
  have hshape := shape_update delta z.path
  refine ⟨⟨?_, ?_⟩, ?_⟩
  · obtain ⟨n, hn⟩ := h.redBlack
    refine ⟨n, hn.congr ?_⟩
    rw [setPiece, Loc.root, Path.erase_plug, Path.erase_plug, erase_of_shape hshape]
    rfl
  · rw [setPiece, good_plug_iff]
    refine ⟨good_node.mpr hfocus, ?_⟩
    have hoff := off_update z.path delta hgood.2
    refine hoff.change ?_
    rw [Loc.focus, items_node, items_node]
    simp only [total_append, total_cons]
    change total (items z.left) + (z.val.piece.metadata + total (items z.right)) + (0 + delta) =
      total (items z.left) + (piece.metadata + total (items z.right)) + 0
    rw [hdelta]
    abel
  · rw [setPiece, items_plug_congr hshape, items_plug, items_node, itemsBefore, itemsAfter]
    simp [TreeNode.item]

end Delete

end TongjiCode.PieceTree
