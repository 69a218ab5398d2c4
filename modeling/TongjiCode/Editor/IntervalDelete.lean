import TongjiCode.Editor.IntervalEdit

/-!
# Interval tree: deletion

`rbTreeDelete` moves deltas between the removed node, the node that takes its place and the only child
of the latter.  The child is missing or a leaf, because the tree is balanced, so that its delta and its
interval are all that has to be moved.  `rbTreeDelete_spec`: exactly the deleted interval disappears.
-/

namespace TongjiCode.Editor

open TongjiCode.Tree

variable {e : Bool}

/-! ## The child of the removed node -/

/-- A missing node or a leaf whose `maxEnd` may be wrong. -/
def AtMostLeaf (x : Tree IntervalNode) : Prop :=
  x = .nil ∨ ∃ c v, x = .node c .nil v .nil ∧ v.isVisited = false ∧ v.start ≤ v.stop

variable {x : Tree IntervalNode} {c : Color}

theorem atMostLeaf_of_balanced (hb : Balanced x c 0) (hg : (intervalAugment e).Good x) : AtMostLeaf x := by
  rcases hb.leaf with ⟨rfl, -⟩ | ⟨v, rfl, -⟩
  · exact .inl rfl
  · exact .inr ⟨.red, v, rfl, hg.1.1, hg.1.2.1⟩

theorem AtMostLeaf.addDelta (h : AtMostLeaf x) (delta : Int) :
    AtMostLeaf (addDelta delta x) ∧ (Editor.addDelta delta x).erase = x.erase ∧
      ∀ d, entries d (Editor.addDelta delta x) = entries (d + delta) x := by
  rcases h with rfl | ⟨c, v, rfl, hv, hle⟩
  · exact ⟨.inl rfl, rfl, fun d => rfl⟩
  · refine ⟨.inr ⟨c, _, rfl, hv, ?_⟩, rfl, fun d => ?_⟩
    · simp only [IntervalNode.move]
      omega
    · have := entry_move d delta v
      simp only [Editor.addDelta, entries, List.nil_append, List.cons.injEq, and_true]
      exact this

/-- The walks from the child and its parent make both right. -/
theorem recomputeMaxEndAfterDelete_spec (hx : AtMostLeaf x) (hred : c = .red → x = .nil) {path : Path IntervalNode}
    {B : Nat → Prop} (h : GoodBut e B path (rootMaxEnd x)) :
    let w := recomputeMaxEndAfterDelete c x path
    (intervalAugment e).Good w.1 ∧ GoodBut e (fun i => i ≠ 0 ∧ B i) w.2 (rootMaxEnd w.1) ∧
      SameButMax path w.2 ∧ w.1.erase = x.erase ∧ ∀ d, entries d w.1 = entries d x := by
  unfold recomputeMaxEndAfterDelete
  split
  · next hc =>
    obtain rfl := hred hc
    exact ⟨trivial, goodBut_walk path .nil B h, sameButMax_walk path .nil, rfl, fun d => rfl⟩
  · rcases hx with rfl | ⟨xc, v, rfl, hv, hle⟩
    · exact ⟨trivial, goodBut_walk path .nil B h, sameButMax_walk path .nil, rfl, fun d => rfl⟩
    · simp only [recomputeMaxEndFrom]
      split
      · next heq =>
        have hgood : (intervalAugment e).Good (.node xc .nil v .nil) := by
          refine ⟨⟨hv, hle, ?_⟩, trivial, trivial⟩
          rw [heq, computeMaxEnd_eq]
          exact bounds_refl _
        exact ⟨hgood, goodBut_walk path _ B h, sameButMax_walk path _, rfl, fun d => rfl⟩
      · have h1 := goodBut_walk path (.node xc .nil (recomputeMaxEnd .nil v .nil) .nil) _ h.change
        have hgood : (intervalAugment e).Good (.node xc .nil (recomputeMaxEnd .nil v .nil) .nil) :=
          ⟨local_recomputeMaxEnd .nil .nil hv hle, trivial, trivial⟩
        refine ⟨hgood, (goodBut_walk _ _ _ h1).weaken _ ?_, ?_, rfl, fun d => rfl⟩
        · rintro i - ⟨hi, -, hi' | hb⟩
          · exact absurd hi' hi
          · exact ⟨hi, hb⟩
        · exact (sameButMax_walk path _).trans (sameButMax_walk _ _)

/-- Removing the node at `y`, after which `x` is in its place and the path is right. -/
theorem spliceFix_ok {y : Loc IntervalNode} (hy : RedBlack y.root) {path : Path IntervalNode}
    (hx : x.erase = y.right.erase ∨ x.erase = y.left.erase) (hpath : Path.erase path = Path.erase y.path)
    (hgx : (intervalAugment e).Good x) (hgp : GoodBut e (fun _ => False) path (rootMaxEnd x)) (request : Bool)
    (hsorted : (entries 0 (Path.plug path x)).Pairwise Entry.Le) :
    Ok e (intervalRotations.spliceFix request y.color x path).2 ∧
      entries 0 (intervalRotations.spliceFix request y.color x path).2 = entries 0 (Path.plug path x) := by
  have hgood : (intervalAugment e).Good (Path.plug path x) := by
    rw [Augment.good_plug, goodPath_iff, fold_fst]
    exact ⟨hgx, hgp⟩
  obtain ⟨hgood', habs⟩ := entries_of_refines
    (Rotations.spliceFix_refines intervalRotations_lawful request y.color x path) hgood
  refine ⟨⟨intervalRotations.spliceFix_balanced request hy hx hpath, hgood', ?_⟩, habs⟩
  rw [habs]
  exact hsorted

/-! ## Deletion -/

theorem pairwise_remove {l1 l2 : List Entry} {i : Entry} (h : (l1 ++ i :: l2).Pairwise Entry.Le) :
    (l1 ++ l2).Pairwise Entry.Le :=
  h.sublist (List.Sublist.append_left (List.sublist_cons_self i l2) l1)

/-- What a deletion of the node at `z` gives. -/
def Deleted (e : Bool) (z : Loc IntervalNode) (T : IntervalTree) : Prop :=
  Ok e T.root ∧ ∃ l₁ l₂, entries 0 z.root = l₁ ++ z.val.entry (holeDelta z.path) :: l₂ ∧
    entries 0 T.root = l₁ ++ l₂

theorem balanced_nil {α : Type} {n : Nat} (h : Balanced (.nil : Tree α) c n) : n = 0 := by
  cases h
  rfl

variable {z : Loc IntervalNode}

/-- The only child of a node is missing or a leaf, and missing where the node is red. -/
theorem onlyChild (h : Ok e z.root) (hchild : (z.left = .nil ∧ x = z.right) ∨ (z.right = .nil ∧ x = z.left)) :
    AtMostLeaf x ∧ (z.color = .red → x = .nil) := by
  obtain ⟨c, n, hb, hp⟩ := h.redBlack.unplug
  have hg := h.good
  rw [Loc.root, Augment.good_plug] at hg
  obtain ⟨⟨-, hgl, hgr⟩, -⟩ := hg
  have hc := hb.color_eq
  unfold Loc.focus at hb hc
  rcases hchild with ⟨hnil, rfl⟩ | ⟨hnil, rfl⟩
  · rw [hnil] at hb
    generalize z.color = zc at hb
    cases hb with
    | red hl hr =>
      obtain rfl := balanced_nil hl
      refine ⟨atMostLeaf_of_balanced hr hgr, fun _ => ?_⟩
      rcases hr.leaf with ⟨h', -⟩ | ⟨v, -, h'⟩
      · exact h'
      · cases h'
    | black hl hr =>
      obtain rfl := balanced_nil hl
      exact ⟨atMostLeaf_of_balanced hr hgr, fun hred => by cases hred⟩
  · rw [hnil] at hb
    generalize z.color = zc at hb
    cases hb with
    | red hl hr =>
      obtain rfl := balanced_nil hr
      refine ⟨atMostLeaf_of_balanced hl hgl, fun _ => ?_⟩
      rcases hl.leaf with ⟨h', -⟩ | ⟨v, -, h'⟩
      · exact h'
      · cases h'
    | black hl hr =>
      obtain rfl := balanced_nil hr
      exact ⟨atMostLeaf_of_balanced hl hgl, fun hred => by cases hred⟩

theorem simpleChild (h : Ok e z.root) (hchild : z.left = .nil ∨ z.right = .nil) :
    let x := if z.left.isNil then addDelta z.val.delta z.right else z.left
    AtMostLeaf x ∧ (z.color = .red → x = .nil) ∧ (x.erase = z.right.erase ∨ x.erase = z.left.erase) ∧
      ∀ d, ∃ l1 l2, entries d z.focus = l1 ++ z.val.entry d :: l2 ∧ entries d x = l1 ++ l2 := by
  intro x
  cases hl : z.left with
  | nil =>
    obtain ⟨hleaf, hred⟩ := onlyChild h (.inl ⟨hl, rfl⟩)
    obtain ⟨hleaf', herase, habs⟩ := hleaf.addDelta z.val.delta
    have hx : x = addDelta z.val.delta z.right := by simp [x, hl, isNil]
    rw [hx]
    refine ⟨hleaf', ?_, .inl herase, fun d => ⟨[], entries (d + z.val.delta) z.right, ?_, habs d⟩⟩
    · intro hc
      rw [hred hc]
      rfl
    · simp [Loc.focus, hl, entries]
  | node c l v r =>
    have hnil : z.right = .nil := by
      rcases hchild with h' | h'
      · rw [hl] at h'
        cases h'
      · exact h'
    obtain ⟨hleaf, hred⟩ := onlyChild h (.inr ⟨hnil, rfl⟩)
    have hx : x = z.left := by simp [x, hl, isNil]
    rw [hx]
    refine ⟨hleaf, hred, .inr (by rw [hl]), fun d => ⟨entries d z.left, [], ?_, by simp⟩⟩
    simp [Loc.focus, hnil, entries]

variable (T : IntervalTree)

theorem deleteSimple_spec (h : Ok e z.root) (hchild : z.left = .nil ∨ z.right = .nil) (request : Bool) :
    let x := if z.left.isNil then addDelta z.val.delta z.right else z.left
    let w := recomputeMaxEndAfterDelete z.color x z.path
    let r := intervalRotations.spliceFix request z.color w.1 w.2
    Deleted e z { T with root := r.2, requestNormalizeDelta := r.1 } := by
  obtain ⟨hleaf, hred, herase, habs⟩ := simpleChild h hchild
  intro x w r
  have hg := h.good
  rw [Loc.root, Augment.good_plug, goodPath_iff] at hg
  have hbut : GoodBut e _ z.path (rootMaxEnd x) := hg.2.change
  obtain ⟨hgood, hpath, hsame, herase', habs'⟩ := recomputeMaxEndAfterDelete_spec hleaf hred hbut
  obtain ⟨l1, l2, hz, hx⟩ := habs (holeDelta z.path)
  have hroot : entries 0 z.root = (entriesBefore z.path ++ l1) ++
      z.val.entry (holeDelta z.path) :: (l2 ++ entriesAfter z.path) := by
    rw [Loc.root, entries_plug, hz]
    simp
  have hnew : entries 0 (Path.plug w.2 w.1) = (entriesBefore z.path ++ l1) ++ (l2 ++ entriesAfter z.path) := by
    rw [hsame.entries_plug, entries_plug, habs', hx]
    simp
  have hsorted : (entries 0 (Path.plug w.2 w.1)).Pairwise Entry.Le := by
    have hs := h.sorted
    rw [hroot] at hs
    rw [hnew]
    exact pairwise_remove hs
  obtain ⟨hok, hlist⟩ := spliceFix_ok h.redBlack (by rw [herase']; exact herase) hsame.erase hgood
    (hpath.weaken _ (by
      rintro i - ⟨hi, hi' | hi'⟩
      · exact hi hi'
      · exact hi')) request hsorted
  exact ⟨hok, _, _, hroot, hlist.trans hnew⟩

theorem AtMostLeaf.asRoot (h : AtMostLeaf x) : RedBlack (asRoot x) ∧
    (intervalAugment e).Good (asRoot x) ∧ entries 0 (Editor.asRoot x) = entries 0 x := by
  rcases h with rfl | ⟨c, v, rfl, hv, hle⟩
  · exact ⟨⟨0, .nil⟩, trivial, rfl⟩
  · exact ⟨⟨1, .black .nil .nil⟩, ⟨local_recomputeMaxEnd .nil .nil hv hle, trivial, trivial⟩, rfl⟩

theorem deleteRoot_spec (h : Ok e z.root) (hchild : z.left = .nil ∨ z.right = .nil) (request : Bool) (hpath : z.path = []) :
    let x := if z.left.isNil then addDelta z.val.delta z.right else z.left
    Deleted e z { T with root := asRoot x, requestNormalizeDelta := request } := by
  obtain ⟨hleaf, -, -, habs⟩ := simpleChild h hchild
  intro x
  obtain ⟨l1, l2, hz, hx⟩ := habs 0
  obtain ⟨hrb, hgood, hlist⟩ := hleaf.asRoot (e := e)
  have hroot : z.root = z.focus := by simp [Loc.root, hpath]
  have hdelta : holeDelta z.path = 0 := by rw [hpath]; rfl
  refine ⟨⟨hrb, hgood, ?_⟩, l1, l2, by rw [hroot, hdelta]; exact hz, hlist.trans hx⟩
  have hs := h.sorted
  rw [hroot, hz] at hs
  rw [hlist, hx]
  exact pairwise_remove hs

theorem spine_entries (spine : Path IntervalNode) (h : ∀ f ∈ spine, ∃ c v r, f = .left c v r) :
    ∃ after : Int → List Entry, ∀ path, holeDelta (spine ++ path) = holeDelta path ∧
      entriesBefore (spine ++ path) = entriesBefore path ∧
      entriesAfter (spine ++ path) = after (holeDelta path) ++ entriesAfter path := by
  induction spine with
  | nil => exact ⟨fun _ => [], fun path => ⟨rfl, rfl, rfl⟩⟩
  | cons f spine ih =>
    obtain ⟨c, v, r, rfl⟩ := h f (by simp)
    obtain ⟨after, hafter⟩ := ih fun f hf => h f (by simp [hf])
    refine ⟨fun d => v.entry d :: (entries (d + v.delta) r ++ after d), fun path => ?_⟩
    obtain ⟨h1, h2, h3⟩ := hafter path
    refine ⟨h1, h2, ?_⟩
    simp only [List.cons_append, entriesAfter, h1, h3, List.append_assoc]

section Inner

variable {z : Loc IntervalNode} {spine : Path IntervalNode} {yc : Color} {yv : IntervalNode}
  {yr : Tree IntervalNode}

/-- The next node after `z`, as a location of the whole tree. -/
def nextLoc (z : Loc IntervalNode) (spine : Path IntervalNode) (yc : Color) (yv : IntervalNode)
    (yr : Tree IntervalNode) : Loc IntervalNode :=
  ⟨yc, .nil, yv, yr, spine ++ .right z.color z.left z.val :: z.path⟩

/-- The next node when it has taken the place of `z`. -/
def substitute (z yv : IntervalNode) : IntervalNode := { yv.move z.delta with delta := z.delta }

theorem nextLoc_root (hright : Path.plug spine (.node yc .nil yv yr) = z.right) :
    (nextLoc z spine yc yv yr).root = z.root := by
  simp only [Loc.root, Loc.focus, nextLoc, Path.plug_append, Path.plug, Frame.plug, hright]

/-- When `y` is in the place of `z`, only the `maxEnd` of three nodes may be wrong: of the parent of
`x`, of `y` and of the parent of `y`. -/
theorem goodBut_substitute (h : Ok e (nextLoc z spine yc yv yr).root) (x : Tree IntervalNode) :
    GoodBut e (fun i => i = 0 ∨ i = spine.length ∨ i = spine.length + 1)
      (spine ++ .right z.color z.left (substitute z.val yv) :: z.path) (rootMaxEnd x) := by
  have hg := h.good
  rw [Loc.root, Augment.good_plug, goodPath_iff] at hg
  obtain ⟨hgy, hgp⟩ := hg
  simp only [nextLoc] at hgp
  rw [goodBut_append] at hgp
  obtain ⟨hgspine, hgz⟩ := hgp
  rw [goodBut_append]
  constructor
  · refine hgspine.change.weaken _ ?_
    rintro i - (hi | hi)
    · exact .inl hi
    · exact hi.elim
  · refine ⟨⟨hgy.1.1, ?_, hgz.1.2.2⟩, fun hn => absurd (.inr (.inl (by omega))) hn, ?_⟩
    · exact Int.add_le_add_right hgy.1.2.1 _
    · refine hgz.2.2.change.weaken _ ?_
      rintro i - (hi | hi)
      · exact .inr (.inr (by omega))
      · exact hi.elim

theorem entries_substitute (hright : Path.plug spine (.node yc .nil yv yr) = z.right)
    (hleft : ∀ f ∈ spine, ∃ c v r, f = .left c v r) (hx : ∀ d, entries d x = entries (d + yv.delta) yr) :
    ∃ l1 l2, entries 0 z.root = l1 ++ z.val.entry (holeDelta z.path) :: l2 ∧
      entries 0 (Path.plug (spine ++ .right z.color z.left (substitute z.val yv) :: z.path) x) = l1 ++ l2 := by
  obtain ⟨after, hafter⟩ := spine_entries spine hleft
  obtain ⟨hd, hbefore, haft⟩ := hafter (.right z.color z.left (substitute z.val yv) :: z.path)
  obtain ⟨hd0, hbefore0, haft0⟩ := hafter (.right z.color z.left z.val :: z.path)
  have hshift : (substitute z.val yv).entry (holeDelta z.path) =
      yv.entry (holeDelta z.path + z.val.delta) := entry_move _ _ _
  refine ⟨entriesBefore z.path ++ entries (holeDelta z.path) z.left,
    yv.entry (holeDelta z.path + z.val.delta) ::
      (entries (holeDelta z.path + z.val.delta + yv.delta) yr ++
        (after (holeDelta z.path + z.val.delta) ++ entriesAfter z.path)), ?_, ?_⟩
  · rw [← nextLoc_root hright, Loc.root, entries_plug]
    simp only [nextLoc, Loc.focus, hd0, hbefore0, haft0]
    simp [entriesBefore, entriesAfter, holeDelta, entries]
  · rw [entries_plug, hd, hbefore, haft, hx]
    simp only [holeDelta, entriesBefore, entriesAfter, hshift]
    simp [substitute]

/-- Deletion of a node with two children: the next node takes its place. -/
theorem deleteInner_spec (h : Ok e z.root) (hright : Path.plug spine (.node yc .nil yv yr) = z.right)
    (hleft : ∀ f ∈ spine, ∃ c v r, f = .left c v r) (request : Bool) :
    let w := recomputeMaxEndAfterDelete yc (addDelta yv.delta yr)
      (spine ++ .right z.color z.left (substitute z.val yv) :: z.path)
    let path := recomputeMaxEndAbove (spine.length + 1) w.1 (recomputeMaxEndAbove spine.length w.1 w.2)
    let r := intervalRotations.spliceFix request yc w.1 path
    Deleted e z { T with root := r.2, requestNormalizeDelta := r.1 } := by
  intro w path r
  have hok : Ok e (nextLoc z spine yc yv yr).root := by
    rw [nextLoc_root hright]
    exact h
  obtain ⟨hleaf, hred⟩ := onlyChild (x := yr) hok (.inl ⟨rfl, rfl⟩)
  obtain ⟨hleaf', herase, habs⟩ := hleaf.addDelta yv.delta
  obtain ⟨hgood, hpath, hsame, herase', habs'⟩ := recomputeMaxEndAfterDelete_spec (c := yc) hleaf'
    (fun hc => by rw [hred hc]; rfl) (goodBut_substitute hok _)
  have hsame1 := sameButMax_walkAbove spine.length w.1 w.2
  have hsame2 := sameButMax_walkAbove (spine.length + 1) w.1 (recomputeMaxEndAbove spine.length w.1 w.2)
  have hlen : w.2.length = spine.length + 1 + z.path.length := by
    have := congrArg List.length hsame.erase
    simp only [Path.erase, List.length_map, List.length_append, List.length_cons] at this
    exact this.trans (by omega)
  have hlen1 : (recomputeMaxEndAbove spine.length w.1 w.2).length = w.2.length := by
    simpa [Path.erase] using congrArg List.length hsame1.erase
  have hpath1 := goodBut_walkAbove spine.length w.1 w.2 (by omega) hpath
  have hpath2 := goodBut_walkAbove (spine.length + 1) w.1 _ (by omega) hpath1
  have hall := (hsame.trans hsame1).trans hsame2
  obtain ⟨l1, l2, hroot, hnew⟩ := entries_substitute hright hleft
    (x := w.1) (fun d => (habs' d).trans (habs d))
  rw [← hall.entries_plug] at hnew
  have hsorted : (entries 0 (Path.plug path w.1)).Pairwise Entry.Le := by
    have hs := h.sorted
    rw [hroot] at hs
    rw [hnew]
    exact pairwise_remove hs
  have hpathErase : Path.erase path = Path.erase (nextLoc z spine yc yv yr).path := by
    rw [hall.erase]
    simp [nextLoc, Path.erase, Frame.erase]
  obtain ⟨hok', hlist⟩ := spliceFix_ok hok.redBlack (.inl (herase'.trans herase)) hpathErase hgood
    (hpath2.weaken _ (by
      rintro i - ⟨h1, h2, h3, h4 | h4 | h4⟩ <;> omega)) request hsorted
  exact ⟨hok', l1, l2, hroot, hlist.trans hnew⟩

end Inner

/-- **Deletion.**  The tree stays right and loses exactly the interval of the deleted node. -/
theorem rbTreeDelete_spec (h : Ok e z.root) :
    Deleted e z (rbTreeDelete T z) := by
  unfold rbTreeDelete
  split
  · next rc rl rv rr hl hr =>
    obtain ⟨hyroot, hyleft⟩ := leftest_root rl rc rv rr []
    obtain ⟨spine, hspine, hleft⟩ := leftest_path rl rc rv rr []
    rw [List.append_nil] at hspine
    rw [Loc.root, Loc.focus, hyleft, hspine] at hyroot
    have hdel := deleteInner_spec T h (hyroot.trans hr.symm) hleft
    dsimp only
    rw [hspine]
    exact hdel _
  · next hne =>
    have hchild : z.left = .nil ∨ z.right = .nil := by
      cases hl : z.left with
      | nil => exact .inl rfl
      | node c l v r =>
        cases hr : z.right with
        | nil => exact .inr rfl
        | node c' l' v' r' => exact (hne _ _ _ _ _ _ _ _ hl hr).elim
    generalize (T.requestNormalizeDelta || _) = request
    cases hpath : z.path with
    | nil => exact deleteRoot_spec T h hchild request hpath
    | cons f path =>
      have hdel := deleteSimple_spec T h hchild request
      rw [hpath] at hdel
      exact hdel

end TongjiCode.Editor
