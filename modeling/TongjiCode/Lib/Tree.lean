import Mathlib.Algebra.Order.Ring.Int
import Mathlib.Data.List.Basic

/-!
# Coloured binary trees and zippers

A tree in which a program holds a pointer to a node with parent links is modelled by a zipper: the
subtree at the node and the `Path` of frames above it.  `Loc` is the location of a node, `locate` finds
the one whose value satisfies a predicate.

`Augment` describes what a subtree contributes to its ancestors (`fold`), and `Good` says that every
node's own data agree with what its subtrees contribute; `good_plug` splits this along a path.
`Refines` is the notion under which trees are rebuilt: good trees stay good and contribute no more.
-/

namespace TongjiCode

inductive Color where
  | red
  | black
  deriving Repr, DecidableEq

inductive Tree (α : Type) where
  | nil
  | node (color : Color) (left : Tree α) (val : α) (right : Tree α)
  deriving Repr, DecidableEq

variable (c : Color)

namespace Tree

variable {α : Type}

/-- Missing nodes are black. -/
def color : Tree α → Color
  | nil => .black
  | node c _ _ _ => c

def setColor (c : Color) : Tree α → Tree α
  | nil => nil
  | node _ l v r => node c l v r

def isNil : Tree α → Bool
  | nil => true
  | node _ _ _ _ => false

def toList : Tree α → List α
  | nil => []
  | node _ l v r => l.toList ++ v :: r.toList

/-- The tree without its values: shape and colours. -/
def erase : Tree α → Tree Unit
  | nil => nil
  | node c l _ r => node c l.erase () r.erase

def map {β : Type} (f : α → β) : Tree α → Tree β
  | nil => nil
  | node c l v r => node c (map f l) (f v) (map f r)

@[simp] theorem toList_setColor (t : Tree α) : (t.setColor c).toList = t.toList := by
  cases t <;> rfl

theorem toList_map {β : Type} (f : α → β) (t : Tree α) : (t.map f).toList = t.toList.map f := by
  induction t with
  | nil => rfl
  | node c l v r ihl ihr => simp [map, toList, ihl, ihr]

theorem erase_map {β : Type} (f : α → β) (t : Tree α) : (t.map f).erase = t.erase := by
  induction t with
  | nil => rfl
  | node c l v r ihl ihr => rw [map, erase, erase, ihl, ihr]

end Tree

open TongjiCode.Tree

/-- A node on the path to a hole: the hole is its left or its right child. -/
inductive Frame (α : Type) where
  | left (color : Color) (val : α) (right : Tree α)
  | right (color : Color) (left : Tree α) (val : α)
  deriving Repr, DecidableEq

namespace Frame

variable {α : Type}

def plug : Frame α → Tree α → Tree α
  | left c v r, t => node c t v r
  | right c l v, t => node c l v t

def val : Frame α → α
  | left _ v _ => v
  | right _ _ v => v

def color : Frame α → Color
  | left c _ _ => c
  | right c _ _ => c

def setColor (c : Color) : Frame α → Frame α
  | left _ v r => left c v r
  | right _ l v => right c l v

def map {β : Type} (f : α → β) : Frame α → Frame β
  | left c v r => left c (f v) (r.map f)
  | right c l v => right c (l.map f) (f v)

def erase : Frame α → Frame Unit
  | left c _ r => left c () r.erase
  | right c l _ => right c l.erase ()

end Frame

/-- The frames from a hole up to the root. -/
abbrev Path (α : Type) := List (Frame α)

namespace Path

variable {α : Type}

/-- The whole tree when the hole is filled. -/
def plug : Path α → Tree α → Tree α
  | [], t => t
  | f :: path, t => plug path (f.plug t)

@[simp] theorem plug_nil (t : Tree α) : plug [] t = t := by
  rw [plug]

def erase (path : Path α) : Path Unit := path.map Frame.erase

/-- The values in front of the hole. -/
def before : Path α → List α
  | [] => []
  | .left _ _ _ :: path => before path
  | .right _ l v :: path => before path ++ (l.toList ++ [v])

/-- The values behind the hole. -/
def after : Path α → List α
  | [] => []
  | .left _ v r :: path => v :: r.toList ++ after path
  | .right _ _ _ :: path => after path

theorem toList_plug (path : Path α) :
    ∀ t : Tree α, (plug path t).toList = before path ++ t.toList ++ after path := by
  induction path with
  | nil => intro t; simp [plug, before, after]
  | cons f path ih =>
    intro t
    cases f with
    | left c v r => simp [plug, before, after, ih, Frame.plug, toList]
    | right c l v => simp [plug, before, after, ih, Frame.plug, toList]

theorem plug_append (p q : Path α) : ∀ t : Tree α, plug (p ++ q) t = plug q (plug p t) := by
  induction p with
  | nil => intro t; rfl
  | cons f p ih => intro t; exact ih (f.plug t)

theorem erase_plug (path : Path α) : ∀ t : Tree α, (plug path t).erase = plug (erase path) t.erase := by
  induction path with
  | nil => intro t; rfl
  | cons f path ih =>
    intro t
    cases f with
    | left c v r => exact ih (node c t v r)
    | right c l v => exact ih (node c l v t)

theorem map_plug {β : Type} (f : α → β) (path : Path α) :
    ∀ t : Tree α, (plug path t).map f = plug (path.map (Frame.map f)) (t.map f) := by
  induction path with
  | nil => intro t; rfl
  | cons g path ih =>
    intro t
    cases g with
    | left c v r => exact ih (node c t v r)
    | right c l v => exact ih (node c l v t)

theorem erase_map {β : Type} (f : α → β) (path : Path α) :
    Path.erase (path.map (Frame.map f)) = Path.erase path := by
  simp only [Path.erase, List.map_map]
  apply List.map_congr_left
  intro g _
  cases g with
  | left c v r => simp [Frame.map, Frame.erase, Tree.erase_map]
  | right c l v => simp [Frame.map, Frame.erase, Tree.erase_map]

end Path

/-- A node inside a tree: the node's own parts and the path above it. -/
structure Loc (α : Type) where
  color : Color
  left : Tree α
  val : α
  right : Tree α
  path : Path α

namespace Loc

variable {α : Type}

def focus (z : Loc α) : Tree α := node z.color z.left z.val z.right

def root (z : Loc α) : Tree α := Path.plug z.path z.focus

theorem toList_root (z : Loc α) :
    z.root.toList = (Path.before z.path ++ z.left.toList) ++ z.val :: (z.right.toList ++ Path.after z.path) := by
  simp [root, focus, Path.toList_plug, toList]

end Loc

namespace Tree

variable {α : Type}

/-- The first node in preorder whose value satisfies `p`. -/
def locate (p : α → Bool) : Tree α → Path α → Option (Loc α)
  | nil, _ => none
  | node c l v r, path =>
    if p v then some ⟨c, l, v, r, path⟩
    else match locate p l (.left c v r :: path) with
      | some z => some z
      | none => locate p r (.right c l v :: path)

theorem locate_some {p : α → Bool} (t : Tree α) : ∀ {path : Path α} {z : Loc α}, locate p t path = some z →
    z.root = Path.plug path t ∧ p z.val = true := by
  induction t with
  | nil => intro path z h; simp [locate] at h
  | node c l v r ihl ihr =>
    intro path z h
    unfold locate at h
    split at h
    · next hp =>
      simp only [Option.some.injEq] at h
      subst h
      exact ⟨rfl, hp⟩
    · split at h
      · next z' hl =>
        simp only [Option.some.injEq] at h
        subst h
        exact ihl hl
      · exact ihr h

theorem locate_isSome {p : α → Bool} (t : Tree α) : ∀ {path : Path α}, (∃ v ∈ t.toList, p v = true) →
    ∃ z, locate p t path = some z := by
  induction t with
  | nil => intro path h; simp [toList] at h
  | node c l v r ihl ihr =>
    rintro path ⟨w, hw, hp⟩
    unfold locate
    split
    · exact ⟨_, rfl⟩
    · next hv =>
      split
      · next z _ => exact ⟨z, rfl⟩
      · next hl =>
        rw [toList, List.mem_append, List.mem_cons] at hw
        rcases hw with hw | rfl | hw
        · obtain ⟨z, hz⟩ : ∃ z, locate p l (.left c v r :: path) = some z := ihl ⟨w, hw, hp⟩
          rw [hz] at hl
          cases hl
        · exact absurd hp hv
        · exact ihr ⟨w, hw, hp⟩

/-- The leftmost node below a node with children `l` and `r`. -/
def leftest : Color → Tree α → α → Tree α → Path α → Loc α
  | c, nil, v, r, path => ⟨c, nil, v, r, path⟩
  | c, node lc ll lv lr, v, r, path => leftest lc ll lv lr (.left c v r :: path)

/-- The rightmost node below a node with children `l` and `r`. -/
def righttest : Color → Tree α → α → Tree α → Path α → Loc α
  | c, l, v, nil, path => ⟨c, l, v, nil, path⟩
  | c, l, v, node rc rl rv rr, path => righttest rc rl rv rr (.right c l v :: path)

theorem leftest_root (l : Tree α) : ∀ (c : Color) (v : α) (r : Tree α) (path : Path α),
    (leftest c l v r path).root = Path.plug path (node c l v r) ∧ (leftest c l v r path).left = nil := by
  induction l with
  | nil => intro c v r path; exact ⟨rfl, rfl⟩
  | node lc ll lv lr ihl _ => intro c v r path; exact ihl lc lv lr (.left c v r :: path)

theorem righttest_root (r : Tree α) : ∀ (c : Color) (l : Tree α) (v : α) (path : Path α),
    (righttest c l v r path).root = Path.plug path (node c l v r) ∧ (righttest c l v r path).right = nil := by
  induction r with
  | nil => intro c l v path; exact ⟨rfl, rfl⟩
  | node rc rl rv rr _ ihr => intro c l v path; exact ihr rc rl rv (.right c l v :: path)

/-- The path to the leftmost node consists of left frames on top of the given one. -/
theorem leftest_path (l : Tree α) : ∀ (c : Color) (v : α) (r : Tree α) (path : Path α),
    ∃ spine : Path α, (leftest c l v r path).path = spine ++ path ∧
      ∀ f ∈ spine, ∃ fc fv fr, f = .left fc fv fr := by
  induction l with
  | nil => intro c v r path; exact ⟨[], rfl, by simp⟩
  | node lc ll lv lr ihl _ =>
    intro c v r path
    obtain ⟨spine, hs, hb⟩ := ihl lc lv lr (.left c v r :: path)
    refine ⟨spine ++ [.left c v r], by simp [leftest, hs], ?_⟩
    intro f hf
    rcases List.mem_append.mp hf with hf | hf
    · exact hb f hf
    · exact ⟨c, v, r, by simpa using hf⟩

/-- The path to the rightmost node consists of right frames on top of the given one. -/
theorem righttest_path (r : Tree α) : ∀ (c : Color) (l : Tree α) (v : α) (path : Path α),
    ∃ spine : Path α, (righttest c l v r path).path = spine ++ path ∧
      ∀ f ∈ spine, ∃ fc fl fv, f = .right fc fl fv := by
  induction r with
  | nil => intro c l v path; exact ⟨[], rfl, by simp⟩
  | node rc rl rv rr _ ihr =>
    intro c l v path
    obtain ⟨spine, hs, hb⟩ := ihr rc rl rv (.right c l v :: path)
    refine ⟨spine ++ [.right c l v], by simp [righttest, hs], ?_⟩
    intro f hf
    rcases List.mem_append.mp hf with hf | hf
    · exact hb f hf
    · exact ⟨c, l, v, by simpa using hf⟩

end Tree

namespace Path

variable {α : Type}

/-- Nothing in front of the hole comes from left frames. -/
theorem before_append {spine : Path α} (h : ∀ f ∈ spine, ∃ c v r, f = .left c v r) (path : Path α) :
    before (spine ++ path) = before path := by
  induction spine with
  | nil => rfl
  | cons f spine ih =>
    obtain ⟨c, v, r, rfl⟩ := h f (by simp)
    exact ih fun g hg => h g (List.mem_cons_of_mem _ hg)

theorem after_append {spine : Path α} (h : ∀ f ∈ spine, ∃ c l v, f = .right c l v) (path : Path α) :
    after (spine ++ path) = after path := by
  induction spine with
  | nil => rfl
  | cons f spine ih =>
    obtain ⟨c, l, v, rfl⟩ := h f (by simp)
    exact ih fun g hg => h g (List.mem_cons_of_mem _ hg)

end Path

/-! ## Augmentation -/

/-- What a subtree contributes to its ancestors, and what a node's own data must agree with.  A smaller
contribution agrees with everything a larger one agrees with. -/
structure Augment (α S : Type) where
  empty : S
  comb : S → α → S → S
  Local : S → α → S → Prop
  le : S → S → Prop
  le_refl : ∀ a, le a a
  le_trans : ∀ {a b c}, le a b → le b c → le a c
  comb_mono : ∀ {a a' b b' v}, le a' a → le b' b → le (comb a' v b') (comb a v b)
  local_mono : ∀ {a a' b b' v}, le a' a → le b' b → Local a v b → Local a' v b'

namespace Augment

variable {α S : Type}

/-- An augmentation whose contributions are compared by equality. -/
def ofEq (empty : S) (comb : S → α → S → S) (Local : S → α → S → Prop) : Augment α S where
  empty
  comb
  Local
  le := Eq
  le_refl _ := rfl
  le_trans := Eq.trans
  comb_mono := by rintro _ _ _ _ _ rfl rfl; rfl
  local_mono := by rintro _ _ _ _ _ rfl rfl h; exact h

variable (A : Augment α S)

def fold : Tree α → S
  | nil => A.empty
  | node _ l v r => A.comb (fold l) v (fold r)

/-- Every node agrees with its subtrees. -/
def Good : Tree α → Prop
  | nil => True
  | node _ l v r => A.Local (A.fold l) v (A.fold r) ∧ Good l ∧ Good r

def foldFrame : Frame α → S → S
  | .left _ v r, s => A.comb s v (A.fold r)
  | .right _ l v, s => A.comb (A.fold l) v s

def GoodFrame : Frame α → S → Prop
  | .left _ v r, s => A.Local s v (A.fold r) ∧ A.Good r
  | .right _ l v, s => A.Local (A.fold l) v s ∧ A.Good l

def foldPath : Path α → S → S
  | [], s => s
  | f :: path, s => foldPath path (A.foldFrame f s)

/-- Every node above a hole that contributes `s` agrees with its subtrees. -/
def GoodPath : Path α → S → Prop
  | [], _ => True
  | f :: path, s => A.GoodFrame f s ∧ GoodPath path (A.foldFrame f s)

@[simp] theorem fold_setColor (t : Tree α) : A.fold (t.setColor c) = A.fold t := by
  cases t <;> rfl

@[simp] theorem good_setColor (t : Tree α) : A.Good (t.setColor c) ↔ A.Good t := by
  cases t <;> exact Iff.rfl

variable (f : Frame α)

theorem fold_frame (t : Tree α) : A.fold (f.plug t) = A.foldFrame f (A.fold t) := by
  cases f <;> rfl

theorem good_frame (t : Tree α) :
    A.Good (f.plug t) ↔ A.Good t ∧ A.GoodFrame f (A.fold t) := by
  cases f with
  | left c v r =>
    constructor
    · rintro ⟨h, hl, hr⟩
      exact ⟨hl, h, hr⟩
    · rintro ⟨hl, h, hr⟩
      exact ⟨h, hl, hr⟩
  | right c l v =>
    constructor
    · rintro ⟨h, hl, hr⟩
      exact ⟨hr, h, hl⟩
    · rintro ⟨hr, h, hl⟩
      exact ⟨h, hl, hr⟩

theorem fold_plug (path : Path α) : ∀ t : Tree α, A.fold (Path.plug path t) = A.foldPath path (A.fold t) := by
  induction path with
  | nil => intro t; rfl
  | cons f path ih => intro t; rw [Path.plug, ih, fold_frame, foldPath]

theorem good_plug (path : Path α) :
    ∀ t : Tree α, A.Good (Path.plug path t) ↔ A.Good t ∧ A.GoodPath path (A.fold t) := by
  induction path with
  | nil => intro t; simp [Path.plug, GoodPath]
  | cons f path ih => intro t; rw [Path.plug, ih, good_frame, fold_frame, GoodPath, and_assoc]

theorem foldFrame_mono {s s' : S} (h : A.le s' s) : A.le (A.foldFrame f s') (A.foldFrame f s) := by
  cases f with
  | left c v r => exact A.comb_mono h (A.le_refl _)
  | right c l v => exact A.comb_mono (A.le_refl _) h

theorem goodFrame_mono {s s' : S} (h : A.le s' s) (hf : A.GoodFrame f s) :
    A.GoodFrame f s' := by
  cases f with
  | left c v r => exact ⟨A.local_mono h (A.le_refl _) hf.1, hf.2⟩
  | right c l v => exact ⟨A.local_mono (A.le_refl _) h hf.1, hf.2⟩

theorem foldPath_mono (path : Path α) : ∀ {s s' : S}, A.le s' s → A.le (A.foldPath path s') (A.foldPath path s) := by
  induction path with
  | nil => intro s s' h; exact h
  | cons f path ih => intro s s' h; exact ih (A.foldFrame_mono f h)

theorem goodPath_mono (path : Path α) : ∀ {s s' : S}, A.le s' s → A.GoodPath path s → A.GoodPath path s' := by
  induction path with
  | nil => intro s s' _ _; trivial
  | cons f path ih => intro s s' h hp; exact ⟨A.goodFrame_mono f h hp.1, ih (A.foldFrame_mono f h) hp.2⟩

/-- Where `t` is good, `t'` is good and contributes no more. -/
def Refines (t t' : Tree α) : Prop := A.Good t → A.Good t' ∧ A.le (A.fold t') (A.fold t)

namespace Refines

variable {A}

theorem refl (t : Tree α) : A.Refines t t := fun h => ⟨h, A.le_refl _⟩

theorem trans {t t' t'' : Tree α} (h : A.Refines t t') (h' : A.Refines t' t'') : A.Refines t t'' := by
  intro hg
  obtain ⟨hg', hle⟩ := h hg
  obtain ⟨hg'', hle'⟩ := h' hg'
  exact ⟨hg'', A.le_trans hle' hle⟩

theorem plug {t t' : Tree α} (h : A.Refines t t') (path : Path α) :
    A.Refines (Path.plug path t) (Path.plug path t') := by
  intro hg
  rw [good_plug] at hg
  obtain ⟨hg', hle⟩ := h hg.1
  rw [good_plug, fold_plug, fold_plug]
  exact ⟨⟨hg', A.goodPath_mono path hle hg.2⟩, A.foldPath_mono path hle⟩

theorem left {l l' : Tree α} (h : A.Refines l l') (c c' : Color) (v : α) (r : Tree α) :
    A.Refines (node c l v r) (node c' l' v r) := by
  intro hg
  obtain ⟨hl, hle⟩ := h hg.2.1
  exact ⟨⟨A.local_mono hle (A.le_refl _) hg.1, hl, hg.2.2⟩, A.comb_mono hle (A.le_refl _)⟩

theorem right {r r' : Tree α} (h : A.Refines r r') (c c' : Color) (l : Tree α) (v : α) :
    A.Refines (node c l v r) (node c' l v r') := by
  intro hg
  obtain ⟨hr, hle⟩ := h hg.2.2
  exact ⟨⟨A.local_mono (A.le_refl _) hle hg.1, hg.2.1, hr⟩, A.comb_mono (A.le_refl _) hle⟩

theorem setColor (t : Tree α) : A.Refines t (t.setColor c) := by
  intro hg
  rw [good_setColor, fold_setColor]
  exact ⟨hg, A.le_refl _⟩

end Refines

end Augment

end TongjiCode
