import TongjiCode.Editor.IntervalNode

/-!
# Interval tree: what insertion and deletion keep

`intervalAugment e` says what a node must agree with: it is not visited, its interval is not
reversed, and its `maxEnd` bounds the ends below it, or is their maximum where `e` holds.

The walks that repair `maxEnd` stop at the first node that needs no change.  `GoodBut B` allows the
nodes of a path in `B` to be wrong; a walk started at a node makes that node right and no other one
wrong (`goodBut_walk`), so the walks of a deletion leave nothing wrong.

The results are `rbTreeInsert_spec` and `rbTreeDelete_spec`.
-/

open List

namespace TongjiCode.Editor

open TongjiCode.Tree

/-! ## Absolute intervals -/

/-- What a node holds, with its absolute interval. -/
structure Entry where
  interval : Interval
  cachedAbsoluteStart : Int
  cachedAbsoluteEnd : Int
  deriving Repr, DecidableEq

/-- The entry of a node to which the delta `d` applies. -/
def IntervalNode.entry (d : Int) (v : IntervalNode) : Entry :=
  ⟨v.toInterval.shift d, v.cachedAbsoluteStart, v.cachedAbsoluteEnd⟩

/-- The entries of a subtree in order, to all of which the delta `d` applies. -/
def entries (d : Int) : Tree IntervalNode → List Entry
  | .nil => []
  | .node _ l v r => entries d l ++ v.entry d :: entries (d + v.delta) r

def holeDelta : Path IntervalNode → Int
  | [] => 0
  | .left _ _ _ :: path => holeDelta path
  | .right _ _ v :: path => holeDelta path + v.delta

def entriesBefore : Path IntervalNode → List Entry
  | [] => []
  | .left _ _ _ :: path => entriesBefore path
  | .right _ l v :: path =>
    entriesBefore path ++ (entries (holeDelta path) l ++ [v.entry (holeDelta path)])

def entriesAfter : Path IntervalNode → List Entry
  | [] => []
  | .left _ v r :: path =>
    v.entry (holeDelta path) :: (entries (holeDelta path + v.delta) r ++ entriesAfter path)
  | .right _ _ _ :: path => entriesAfter path

theorem entries_plug (path : Path IntervalNode) : ∀ t : Tree IntervalNode, entries 0 (Path.plug path t) =
    entriesBefore path ++ entries (holeDelta path) t ++ entriesAfter path := by
  induction path with
  | nil => intro t; simp [Path.plug, entriesBefore, entriesAfter, holeDelta]
  | cons f path ih =>
    intro t
    cases f with
    | left c v r => simp [Path.plug, Frame.plug, ih, entries, entriesBefore, entriesAfter, holeDelta]
    | right c l v => simp [Path.plug, Frame.plug, ih, entries, entriesBefore, entriesAfter, holeDelta]

theorem shift_zero (i : Interval) : i.shift 0 = i := by
  simp [Interval.shift]

theorem entry_move (d e : Int) (v : IntervalNode) : (v.move e).entry d = v.entry (d + e) := by
  simp only [IntervalNode.entry, IntervalNode.move, Interval.shift, Entry.mk.injEq, Interval.mk.injEq, true_and,
    and_true]
  omega

def Interval.Le (a b : Interval) : Prop := a.start < b.start ∨ (a.start = b.start ∧ a.stop ≤ b.stop)

theorem Interval.Le.trans {a b c : Interval} (h : a.Le b) (h' : b.Le c) : a.Le c := by
  unfold Interval.Le at *
  omega

def Entry.Le (a b : Entry) : Prop := a.interval.Le b.interval

theorem Entry.Le.trans {a b c : Entry} (h : a.Le b) (h' : b.Le c) : a.Le c := Interval.Le.trans h h'

theorem intervalCompare_lt {a b : Interval} : intervalCompare a.start a.stop b.start b.stop < 0 ↔ ¬ b.Le a := by
  unfold intervalCompare Interval.Le
  split <;> omega

/-! ## The invariant of a node -/

def rootMaxEnd : Tree IntervalNode → Option Int
  | .nil => none
  | .node _ _ v _ => some v.maxEnd

theorem rootMaxEnd_node (c : Color) (l : Tree IntervalNode) (v : IntervalNode) (r : Tree IntervalNode) :
    rootMaxEnd (.node c l v r) = some v.maxEnd := rfl

/-- The largest end at a node whose subtrees have the given `maxEnd`. -/
def maxOf (l : Option Int) (v : IntervalNode) (r : Option Int) : Int :=
  max (max v.stop (l.getD v.stop)) ((r.map (· + v.delta)).getD v.stop)

theorem computeMaxEnd_eq (l : Tree IntervalNode) (v : IntervalNode) (r : Tree IntervalNode) :
    computeMaxEnd l v r = maxOf (rootMaxEnd l) v (rootMaxEnd r) := by
  cases l <;> cases r <;> simp only [computeMaxEnd, maxOf, rootMaxEnd, Option.getD, Option.map] <;> omega

def Bounds (e : Bool) (m n : Int) : Prop := n ≤ m ∧ (e = true → m = n)

/-- The `maxEnd` of a subtree may shrink, but not where it must be exact. -/
def MaxEndLe (e : Bool) : Option Int → Option Int → Prop
  | none, none => True
  | some m, some n => Bounds e n m
  | _, _ => False

/-- What a subtree contributes: the `maxEnd` of its root and its intervals. -/
abbrev Contribution := Option Int × (Int → List Entry)

theorem maxEndLe_refl (e : Bool) (m : Option Int) : MaxEndLe e m m := by
  cases m with
  | none => trivial
  | some m => exact ⟨Int.le_refl m, fun _ => rfl⟩

theorem maxEndLe_trans {e : Bool} {a b c : Option Int} (h : MaxEndLe e a b) (h' : MaxEndLe e b c) :
    MaxEndLe e a c := by
  cases a <;> cases b <;> cases c <;> simp only [MaxEndLe, Bounds] at *
  obtain ⟨h1, h2⟩ := h
  obtain ⟨h3, h4⟩ := h'
  exact ⟨by omega, fun he => by have := h2 he; have := h4 he; omega⟩

theorem MaxEndLe.eq {a b : Option Int} (h : MaxEndLe true a b) : a = b := by
  cases a with
  | none => cases b with
    | none => rfl
    | some n => exact h.elim
  | some m => cases b with
    | none => exact h.elim
    | some n => rw [h.2 rfl]

theorem maxOf_mono {l l' r r' : Option Int} (v : IntervalNode) (hl : MaxEndLe false l' l)
    (hr : MaxEndLe false r' r) : maxOf l' v r' ≤ maxOf l v r := by
  have hl' : l'.getD v.stop ≤ l.getD v.stop := by
    cases l <;> cases l' <;> simp_all [MaxEndLe, Bounds]
  have hr' : (r'.map (· + v.delta)).getD v.stop ≤ (r.map (· + v.delta)).getD v.stop := by
    cases r <;> cases r' <;> simp_all [MaxEndLe, Bounds]
  unfold maxOf
  omega

variable {v : IntervalNode}

theorem Bounds.mono {e : Bool} {l l' r r' : Option Int} {m : Int} (hl : MaxEndLe e l' l) (hr : MaxEndLe e r' r)
    (h : Bounds e m (maxOf l v r)) :
    Bounds e m (maxOf l' v r') := by
  cases e with
  | true =>
    rw [hl.eq, hr.eq]
    exact h
  | false => exact ⟨Int.le_trans (maxOf_mono v hl hr) h.1, fun hfalse => by cases hfalse⟩

/-- The largest end below two nodes does not depend on which one is above the other. -/
theorem maxOf_rotate (a b c : Option Int) (x y y' : IntervalNode) (hs : y'.stop = y.stop + x.delta)
    (hd : y'.delta = y.delta + x.delta) :
    maxOf (some (maxOf a x b)) y' c = maxOf a x (some (maxOf b y c)) := by
  have hbelow : (c.map (· + (y.delta + x.delta))).getD (y.stop + x.delta) = (c.map (· + y.delta)).getD y.stop + x.delta := by
    cases c with
    | none => rfl
    | some n => exact (Int.add_assoc n y.delta x.delta).symm
  -- the ends at `y` and below `b`, with those at `x` and below `a`
  have habove : max (y.stop + x.delta) (maxOf a x b) =
      max (max x.stop (a.getD x.stop)) (max y.stop (b.getD y.stop) + x.delta) := by
    unfold maxOf
    cases b with
    | none =>
      show max (y.stop + x.delta) (max (max x.stop (a.getD x.stop)) x.stop) =
        max (max x.stop (a.getD x.stop)) (max y.stop y.stop + x.delta)
      omega
    | some n =>
      show max (y.stop + x.delta) (max (max x.stop (a.getD x.stop)) (n + x.delta)) =
        max (max x.stop (a.getD x.stop)) (max y.stop n + x.delta)
      omega
  show max (max y'.stop (maxOf a x b)) ((c.map (· + y'.delta)).getD y'.stop) =
    max (max x.stop (a.getD x.stop)) (max (max y.stop (b.getD y.stop)) ((c.map (· + y.delta)).getD y.stop) + x.delta)
  rw [hs, hd, hbelow, habove]
  generalize max x.stop (a.getD x.stop) = m
  omega

def intervalAugment (e : Bool) : Augment IntervalNode Contribution where
  empty := (none, fun _ => [])
  comb a v b := (some v.maxEnd, fun d => a.2 d ++ v.entry d :: b.2 (d + v.delta))
  Local a v b := v.isVisited = false ∧ v.start ≤ v.stop ∧ Bounds e v.maxEnd (maxOf a.1 v b.1)
  le a b := MaxEndLe e a.1 b.1 ∧ a.2 = b.2
  le_refl a := ⟨maxEndLe_refl e a.1, rfl⟩
  le_trans h h' := ⟨maxEndLe_trans h.1 h'.1, h.2.trans h'.2⟩
  comb_mono := by
    intro a a' b b' v ha hb
    exact ⟨maxEndLe_refl e _, by simp only [ha.2, hb.2]⟩
  local_mono := by
    intro a a' b b' v ha hb h
    exact ⟨h.1, h.2.1, h.2.2.mono ha.1 hb.1⟩

variable {e : Bool}

theorem fold_eq (t : Tree IntervalNode) :
    (intervalAugment e).fold t = (rootMaxEnd t, fun d => entries d t) := by
  induction t with
  | nil => rfl
  | node c l v r ihl ihr =>
    rw [Augment.fold, ihl, ihr]
    rfl

@[simp] theorem fold_fst (t : Tree IntervalNode) : ((intervalAugment e).fold t).1 = rootMaxEnd t := by
  rw [fold_eq]

@[simp] theorem fold_snd (t : Tree IntervalNode) : ((intervalAugment e).fold t).2 = fun d => entries d t := by
  rw [fold_eq]

theorem comb_fst (a b : Contribution) (v : IntervalNode) : ((intervalAugment e).comb a v b).1 = some v.maxEnd := rfl

theorem comb_snd (a b : Contribution) (v : IntervalNode) : ((intervalAugment e).comb a v b).2 =
    fun d => a.2 d ++ v.entry d :: b.2 (d + v.delta) := rfl

theorem bounds_refl (m : Int) : Bounds e m m := ⟨Int.le_refl m, fun _ => rfl⟩

theorem local_recomputeMaxEnd (l : Tree IntervalNode) (r : Tree IntervalNode) (hv : v.isVisited = false)
    (hle : v.start ≤ v.stop) :
    (intervalAugment e).Local ((intervalAugment e).fold l) (recomputeMaxEnd l v r)
      ((intervalAugment e).fold r) := by
  refine ⟨hv, hle, ?_⟩
  simp only [fold_eq, recomputeMaxEnd, computeMaxEnd_eq]
  exact bounds_refl _

theorem intervalRotations_lawful : intervalRotations.Lawful (intervalAugment e) where
  left := by
    intro s a x b y c _ _ _ hy hx
    obtain ⟨hy1, hy2, hy3⟩ := hy
    obtain ⟨hx1, hx2, hx3⟩ := hx
    have hyle : (y.move x.delta).start ≤ (y.move x.delta).stop := by
      simp only [IntervalNode.move]
      omega
    refine ⟨local_recomputeMaxEnd a b hx1 hx2, ?_, ?_, ?_⟩
    · exact local_recomputeMaxEnd (.node .red a (recomputeMaxEnd a x b) b) c hy1 hyle
    · simp only [comb_fst, fold_fst] at hx3 hy3
      have hlow : MaxEndLe e (some (maxOf (rootMaxEnd b) y (rootMaxEnd c))) (some y.maxEnd) := hy3
      have hbound := hx3.mono (maxEndLe_refl e _) hlow
      rw [← maxOf_rotate _ _ _ x y { y.move x.delta with delta := y.delta + x.delta } rfl rfl] at hbound
      simp only [comb_fst, intervalRotations, recomputeMaxEnd, computeMaxEnd_eq, rootMaxEnd_node]
      exact hbound
    · funext d
      have hshift := entry_move d x.delta y
      simp only [comb_snd, fold_snd, intervalRotations, recomputeMaxEnd, append_assoc, cons_append]
      rw [← hshift, show d + x.delta + y.delta = d + (y.delta + x.delta) by omega]
      rfl
  right := by
    intro s a x b y c _ _ _ hx hy
    obtain ⟨hy1, hy2, hy3⟩ := hy
    obtain ⟨hx1, hx2, hx3⟩ := hx
    have hyle : (y.move (-x.delta)).start ≤ (y.move (-x.delta)).stop := by
      simp only [IntervalNode.move]
      omega
    refine ⟨local_recomputeMaxEnd b c hy1 hyle, ?_, ?_, ?_⟩
    · exact local_recomputeMaxEnd a (.node .red b
        (recomputeMaxEnd b { y.move (-x.delta) with delta := y.delta - x.delta } c) c) hx1 hx2
    · simp only [comb_fst, fold_fst] at hx3 hy3
      have hlow : MaxEndLe e (some (maxOf (rootMaxEnd a) x (rootMaxEnd b))) (some x.maxEnd) := hx3
      have hbound := hy3.mono hlow (maxEndLe_refl e _)
      rw [maxOf_rotate _ _ _ x { y.move (-x.delta) with delta := y.delta - x.delta } y
        (by simp only [IntervalNode.move]; omega) (by dsimp only; omega)] at hbound
      simp only [comb_fst, intervalRotations, recomputeMaxEnd, computeMaxEnd_eq, rootMaxEnd_node]
      exact hbound
    · funext d
      have hshift := entry_move (d + x.delta) (-x.delta) y
      rw [show d + x.delta + -x.delta = d by omega] at hshift
      simp only [comb_snd, fold_snd, intervalRotations, recomputeMaxEnd, append_assoc, cons_append]
      rw [← hshift, show d + x.delta + (y.delta - x.delta) = d + y.delta by omega]
      rfl

/-! ## Walks to the root -/

/-- What a node on a path must satisfy apart from its `maxEnd`. -/
def FrameOk (e : Bool) : Frame IntervalNode → Prop
  | .left _ v r => v.isVisited = false ∧ v.start ≤ v.stop ∧ (intervalAugment e).Good r
  | .right _ l v => v.isVisited = false ∧ v.start ≤ v.stop ∧ (intervalAugment e).Good l

/-- The `maxEnd` of a node on a path is right when the subtree in the hole has `maxEnd` `m`. -/
def FrameBounds (e : Bool) (m : Option Int) : Frame IntervalNode → Prop
  | .left _ v r => Bounds e v.maxEnd (maxOf m v (rootMaxEnd r))
  | .right _ l v => Bounds e v.maxEnd (maxOf (rootMaxEnd l) v m)

/-- Every node on the path is right, except for the `maxEnd` of nodes with a number in `B`. -/
def GoodBut (e : Bool) (B : Nat → Prop) : Path IntervalNode → Option Int → Prop
  | [], _ => True
  | f :: path, m => FrameOk e f ∧ (¬ B 0 → FrameBounds e m f) ∧
    GoodBut e (fun i => B (i + 1)) path (some f.val.maxEnd)

theorem goodPath_iff (path : Path IntervalNode) : ∀ s : Contribution,
    (intervalAugment e).GoodPath path s ↔ GoodBut e (fun _ => False) path s.1 := by
  induction path with
  | nil => intro s; exact Iff.rfl
  | cons f path ih =>
    intro s
    have hfst : ((intervalAugment e).foldFrame f s).1 = some f.val.maxEnd := by cases f <;> rfl
    rw [Augment.GoodPath, ih, hfst, GoodBut]
    cases f with
    | left c v r =>
      simp only [Augment.GoodFrame, FrameOk, FrameBounds, not_false_iff, forall_const]
      rw [← fold_fst (e := e) r]
      exact ⟨fun h => ⟨⟨h.1.1.1, h.1.1.2.1, h.1.2⟩, h.1.1.2.2, h.2⟩,
        fun h => ⟨⟨⟨h.1.1, h.1.2.1, h.2.1⟩, h.1.2.2⟩, h.2.2⟩⟩
    | right c l v =>
      simp only [Augment.GoodFrame, FrameOk, FrameBounds, not_false_iff, forall_const]
      rw [← fold_fst (e := e) l]
      exact ⟨fun h => ⟨⟨h.1.1.1, h.1.1.2.1, h.1.2⟩, h.1.1.2.2, h.2⟩,
        fun h => ⟨⟨⟨h.1.1, h.1.2.1, h.2.1⟩, h.1.2.2⟩, h.2.2⟩⟩

theorem GoodBut.weaken (path : Path IntervalNode) : ∀ {B B' : Nat → Prop} {m : Option Int},
    (∀ i, i < path.length → B i → B' i) → GoodBut e B path m → GoodBut e B' path m := by
  induction path with
  | nil => intro B B' m _ _; trivial
  | cons f path ih =>
    intro B B' m hB h
    refine ⟨h.1, fun hn => h.2.1 fun hb => hn (hB 0 (by simp) hb), ih ?_ h.2.2⟩
    intro i hi
    exact hB (i + 1) (by simpa using hi)

variable {path : Path IntervalNode} {B : Nat → Prop}

theorem GoodBut.change {m m' : Option Int} (h : GoodBut e B path m) : GoodBut e (fun i => i = 0 ∨ B i) path m' := by
  cases path with
  | nil => trivial
  | cons f path =>
    exact ⟨h.1, fun hn => absurd (Or.inl rfl) hn, h.2.2.weaken _ fun i _ hi => Or.inr hi⟩

def topMaxEnd : Path IntervalNode → Option Int → Option Int
  | [], m => m
  | f :: path, _ => topMaxEnd path (some f.val.maxEnd)

theorem rootMaxEnd_plug (path : Path IntervalNode) : ∀ t : Tree IntervalNode,
    rootMaxEnd (Path.plug path t) = topMaxEnd path (rootMaxEnd t) := by
  induction path with
  | nil => intro t; rfl
  | cons f path ih =>
    intro t
    rw [Path.plug, ih, topMaxEnd]
    cases f <;> rfl

theorem goodBut_append (p q : Path IntervalNode) : ∀ (B : Nat → Prop) (m : Option Int),
    GoodBut e B (p ++ q) m ↔
      GoodBut e B p m ∧ GoodBut e (fun i => B (i + p.length)) q (topMaxEnd p m) := by
  induction p with
  | nil => intro B m; simp [GoodBut, topMaxEnd]
  | cons f p ih =>
    intro B m
    rw [cons_append, GoodBut, ih, GoodBut, topMaxEnd, and_assoc, and_assoc]
    simp only [length_cons, Nat.add_assoc]

/-- A walk makes the node right at which it starts, and no other one wrong. -/
theorem goodBut_walk (path : Path IntervalNode) : ∀ (t : Tree IntervalNode) (B : Nat → Prop),
    GoodBut e B path (rootMaxEnd t) →
    GoodBut e (fun i => i ≠ 0 ∧ B i) (recomputeMaxEndWalkToRoot t path) (rootMaxEnd t) := by
  induction path with
  | nil => intro t B _; trivial
  | cons f path ih =>
    intro t B h
    obtain ⟨hok, -, hrest⟩ := h
    cases f
    all_goals
      unfold recomputeMaxEndWalkToRoot
      split
      · next heq =>
        -- the walk stops here
        refine ⟨hok, fun _ => ?_, hrest.weaken _ fun i _ hi => ⟨by omega, hi⟩⟩
        simp only [FrameBounds, heq, computeMaxEnd_eq]
        exact bounds_refl _
      · refine ⟨hok, fun _ => ?_, ?_⟩
        · simp only [FrameBounds, recomputeMaxEnd, computeMaxEnd_eq]
          exact bounds_refl _
        · refine (ih _ _ hrest.change).weaken _ ?_
          rintro i - ⟨hi, rfl | hb⟩
          · exact absurd rfl hi
          · exact ⟨by omega, hb⟩

theorem goodBut_walkAbove (k : Nat) (t : Tree IntervalNode) (path : Path IntervalNode) (hk : k ≤ path.length)
    (h : GoodBut e B path (rootMaxEnd t)) :
    GoodBut e (fun i => i ≠ k ∧ B i) (recomputeMaxEndAbove k t path) (rootMaxEnd t) := by
  have hlen : (path.take k).length = k := by rw [length_take]; omega
  rw [← take_append_drop k path, goodBut_append, hlen] at h
  unfold recomputeMaxEndAbove
  rw [goodBut_append, hlen]
  constructor
  · refine h.1.weaken _ ?_
    intro i hi hb
    exact ⟨by omega, hb⟩
  · rw [← rootMaxEnd_plug]
    rw [← rootMaxEnd_plug] at h
    refine (goodBut_walk _ _ _ h.2).weaken _ ?_
    rintro i - ⟨hi, hb⟩
    exact ⟨by omega, hb⟩

/-- Paths that differ at most in the `maxEnd` of their nodes. -/
structure SameButMax (path path' : Path IntervalNode) : Prop where
  erase : Path.erase path' = Path.erase path
  delta : holeDelta path' = holeDelta path
  before : entriesBefore path' = entriesBefore path
  after : entriesAfter path' = entriesAfter path

namespace SameButMax

variable {path path' path'' : Path IntervalNode}

theorem refl (path : Path IntervalNode) : SameButMax path path := ⟨rfl, rfl, rfl, rfl⟩

theorem trans (h : SameButMax path path') (h' : SameButMax path' path'') : SameButMax path path'' :=
  ⟨h'.erase.trans h.erase, h'.delta.trans h.delta, h'.before.trans h.before, h'.after.trans h.after⟩

theorem left (h : SameButMax path path') (c : Color) (v : IntervalNode) (r : Tree IntervalNode) (m : Int) :
    SameButMax (.left c v r :: path) (.left c { v with maxEnd := m } r :: path') where
  erase := by simp only [Path.erase, map_cons, Frame.erase] at *; rw [← Path.erase, h.erase]; rfl
  delta := h.delta
  before := h.before
  after := by simp only [entriesAfter, h.delta, h.after]; rfl

theorem right (h : SameButMax path path') (c : Color) (l : Tree IntervalNode) (v : IntervalNode) (m : Int) :
    SameButMax (.right c l v :: path) (.right c l { v with maxEnd := m } :: path') where
  erase := by simp only [Path.erase, map_cons, Frame.erase] at *; rw [← Path.erase, h.erase]; rfl
  delta := by simp only [holeDelta, h.delta]
  before := by simp only [entriesBefore, h.delta, h.before]; rfl
  after := h.after

theorem append (p : Path IntervalNode) (h : SameButMax path path') : SameButMax (p ++ path) (p ++ path') := by
  induction p with
  | nil => exact h
  | cons f p ih =>
    cases f with
    | left c v r => exact ih.left c v r v.maxEnd
    | right c l v => exact ih.right c l v v.maxEnd

theorem entries_plug (h : SameButMax path path') (t : Tree IntervalNode) :
    entries 0 (Path.plug path' t) = entries 0 (Path.plug path t) := by
  rw [Editor.entries_plug, Editor.entries_plug, h.delta, h.before, h.after]

end SameButMax

theorem sameButMax_walk (path : Path IntervalNode) : ∀ t : Tree IntervalNode,
    SameButMax path (recomputeMaxEndWalkToRoot t path) := by
  induction path with
  | nil => intro t; exact .refl []
  | cons f path ih =>
    intro t
    cases f with
    | left c v r =>
      unfold recomputeMaxEndWalkToRoot
      split
      · exact .refl _
      · exact (ih _).left c v r _
    | right c l v =>
      unfold recomputeMaxEndWalkToRoot
      split
      · exact .refl _
      · exact (ih _).right c l v _

theorem sameButMax_walkAbove (k : Nat) (t : Tree IntervalNode) (path : Path IntervalNode) :
    SameButMax path (recomputeMaxEndAbove k t path) := by
  have h := (sameButMax_walk (path.drop k) (Path.plug (path.take k) t)).append (path.take k)
  rw [take_append_drop] at h
  exact h

/-! ## Insertion -/

/-- A tree between two operations: balanced, with right data, and sorted. -/
structure Ok (e : Bool) (root : Tree IntervalNode) : Prop where
  redBlack : RedBlack root
  good : (intervalAugment e).Good root
  sorted : (entries 0 root).Pairwise Entry.Le

theorem Interval.Le.of_not {a b : Interval} (h : ¬ a.Le b) : b.Le a := by
  unfold Interval.Le at *
  omega

/-- The place that is found for a node lies between the smaller and the larger intervals. -/
theorem treeInsert_spec (z : IntervalNode) (t : Tree IntervalNode) : ∀ (path : Path IntervalNode),
    (∀ a ∈ entriesBefore path, a.Le (z.entry 0)) → (∀ b ∈ entriesAfter path, (z.entry 0).Le b) →
    (entries (holeDelta path) t).Pairwise Entry.Le →
    let res := treeInsert z t (holeDelta path) path
    Path.plug res.2 .nil = Path.plug path t ∧
      res.1 = { z.move (-holeDelta res.2) with maxEnd := z.maxEnd - holeDelta res.2 } ∧
      (∀ a ∈ entriesBefore res.2, a.Le (z.entry 0)) ∧ (∀ b ∈ entriesAfter res.2, (z.entry 0).Le b) := by
  induction t with
  | nil => intro path hb ha _; exact ⟨rfl, rfl, hb, ha⟩
  | node c l x r ihl ihr =>
    intro path hb ha hsorted
    simp only [entries, pairwise_append, pairwise_cons, mem_cons] at hsorted
    obtain ⟨hl, ⟨hxr, hr⟩, hlx⟩ := hsorted
    unfold treeInsert
    split
    · next hcmp =>
      have hzx : (z.entry 0).Le (x.entry (holeDelta path)) := by
        unfold Entry.Le IntervalNode.entry
        rw [shift_zero]
        exact .of_not (intervalCompare_lt (b := x.toInterval.shift (holeDelta path)) |>.mp hcmp)
      refine ihl (.left c x r :: path) hb ?_ hl
      intro b hmem
      simp only [entriesAfter, mem_cons, mem_append] at hmem
      rcases hmem with rfl | hmem | hmem
      · exact hzx
      · exact hzx.trans (hxr b hmem)
      · exact ha b hmem
    · next hcmp =>
      have hxz : (x.entry (holeDelta path)).Le (z.entry 0) := by
        unfold Entry.Le IntervalNode.entry
        rw [shift_zero]
        by_contra hn
        exact hcmp (intervalCompare_lt (b := x.toInterval.shift (holeDelta path)) |>.mpr hn)
      refine ihr (.right c l x :: path) ?_ ha hr
      intro a hmem
      simp only [entriesBefore, mem_append, mem_singleton] at hmem
      rcases hmem with hmem | hmem | rfl
      · exact hb a hmem
      · exact (hlx a hmem _ (Or.inl rfl)).trans hxz
      · exact hxz

theorem bounds_leaf (h : Bounds e v.maxEnd v.stop) :
    Bounds e v.maxEnd (maxOf none v none) := by
  simpa [maxOf] using h

/-- Repairing the `maxEnd` above a subtree put into the hole of a path. -/
theorem good_plug_walk {x : Tree IntervalNode} (hx : (intervalAugment e).Good x) (hpath : GoodBut e B path (rootMaxEnd x))
    (hB : ∀ i, B i → i = 0) :
    (intervalAugment e).Good (Path.plug (recomputeMaxEndWalkToRoot x path) x) := by
  rw [Augment.good_plug, goodPath_iff, fold_fst]
  refine ⟨hx, (goodBut_walk path x B hpath).weaken _ ?_⟩
  rintro i - ⟨hi, hb⟩
  exact hi (hB i hb)

theorem entries_of_refines {t t' : Tree IntervalNode} (h : (intervalAugment e).Refines t t')
    (hg : (intervalAugment e).Good t) : (intervalAugment e).Good t' ∧ entries 0 t' = entries 0 t := by
  obtain ⟨hg', hle⟩ := h hg
  have hlist := congrFun hle.2 0
  rw [fold_snd, fold_snd] at hlist
  exact ⟨hg', hlist⟩

theorem insertLeaf_spec (h : Ok e (Path.plug path .nil)) {z : IntervalNode}
    (hz : (intervalAugment e).Good (.node .red .nil z .nil))
    (hb : ∀ a ∈ entriesBefore path, a.Le (z.entry (holeDelta path)))
    (ha : ∀ b ∈ entriesAfter path, (z.entry (holeDelta path)).Le b) (request : Bool) :
    let x := Tree.node .red .nil z .nil
    let root := (intervalRotations.fixInsert request x (recomputeMaxEndWalkToRoot x path)).2
    Ok e root ∧ entries 0 root =
      entriesBefore path ++ z.entry (holeDelta path) :: entriesAfter path := by
  intro x root
  have hsame := sameButMax_walk path x
  have hg := h.good
  rw [Augment.good_plug, goodPath_iff] at hg
  have hbut : GoodBut e _ path (rootMaxEnd x) := hg.2.change
  have hgood := good_plug_walk hz hbut (by
    rintro i (hi | hi)
    · exact hi
    · exact hi.elim)
  obtain ⟨hgood', habs⟩ := entries_of_refines
    (Rotations.fixInsert_refines intervalRotations_lawful request x _) hgood
  have hlist : entries 0 root = entriesBefore path ++ z.entry (holeDelta path) :: entriesAfter path := by
    refine habs.trans ?_
    rw [hsame.entries_plug, entries_plug]
    simp [x, entries]
  refine ⟨⟨?_, hgood', ?_⟩, hlist⟩
  · obtain ⟨c, n, hnil, hp⟩ := h.redBlack.unplug
    cases hnil
    exact intervalRotations.fixInsert_balanced request (.red .nil .nil) (hp.congr hsame.erase)
  · have hs := h.sorted
    rw [entries_plug] at hs
    simp only [entries, append_nil] at hs
    rw [hlist]
    rw [pairwise_append] at hs ⊢
    refine ⟨hs.1, pairwise_cons.mpr ⟨ha, hs.2.1⟩, ?_⟩
    intro a hmem b hmem'
    rcases mem_cons.mp hmem' with rfl | hmem'
    · exact hb a hmem
    · exact hs.2.2 a hmem b hmem'

theorem rbTreeInsert_spec {T : IntervalTree} (h : Ok e T.root) {newNode : IntervalNode}
    (hv : newNode.isVisited = false) (hle : newNode.start ≤ newNode.stop)
    (hmax : Bounds e newNode.maxEnd newNode.stop) :
    Ok e (rbTreeInsert T newNode).root ∧ ∃ l1 l2, entries 0 T.root = l1 ++ l2 ∧
      entries 0 (rbTreeInsert T newNode).root = l1 ++ newNode.entry 0 :: l2 := by
  unfold rbTreeInsert
  split
  · next hroot =>
    refine ⟨⟨⟨1, .black .nil .nil⟩, ⟨⟨hv, hle, bounds_leaf hmax⟩, trivial, trivial⟩, by simp [entries]⟩,
      [], [], ?_, ?_⟩
    · rw [hroot]
      rfl
    · simp [entries]
  · obtain ⟨hplug, hz, hb, ha⟩ := treeInsert_spec newNode T.root [] (by simp [entriesBefore])
      (by simp [entriesAfter]) h.sorted
    rw [holeDelta] at hplug hz hb ha
    generalize treeInsert newNode T.root 0 [] = z at *
    obtain ⟨z, path⟩ := z
    simp only at hplug hz hb ha
    have hshift : z.entry (holeDelta path) = newNode.entry 0 := by
      rw [hz]
      refine (entry_move (holeDelta path) (-holeDelta path) newNode).trans ?_
      rw [Int.add_right_neg]
    have hleaf : (intervalAugment e).Good (.node .red .nil z .nil) := by
      refine ⟨⟨by rw [hz]; exact hv, ?_, bounds_leaf ?_⟩, trivial, trivial⟩
      · rw [hz]
        simp only [IntervalNode.move]
        omega
      · rw [hz]
        refine ⟨?_, fun he => ?_⟩
        · have := hmax.1
          simp only [IntervalNode.move]
          omega
        · have := hmax.2 he
          simp only [IntervalNode.move]
          omega
    have hroot : Ok e (Path.plug path .nil) := by
      rw [hplug]
      exact h
    obtain ⟨hok, habs⟩ := insertLeaf_spec hroot hleaf (by rw [hshift]; exact hb) (by rw [hshift]; exact ha)
      T.requestNormalizeDelta
    refine ⟨hok, entriesBefore path, entriesAfter path, ?_, ?_⟩
    · have := entries_plug path .nil
      rw [hplug] at this
      simpa [entries, Path.plug] using this
    · rw [hshift] at habs
      exact habs

end TongjiCode.Editor
