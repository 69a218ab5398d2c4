import TongjiCode.Lib.Tree

/-!
# Red-black trees with parent links

Insertion and deletion repair loops of a red-black tree whose nodes carry data that rotations must
adjust.  What a rotation does to the data of its two nodes is a parameter (`Rotations`); a state `σ` is
threaded through for effects on the whole tree.

`fixInsert_balanced` and `fixDelete_balanced` hold for any rotations.  Where rotations are `Lawful` for
an augmentation, both loops also refine the tree they start from (`fixInsert_refines`,
`fixDelete_refines`).
-/

namespace TongjiCode

open TongjiCode.Tree

/-! ## Algorithm -/

/-- The data of the upper and the lower node after a rotation.  `left` turns `a x (b y c)` into
`(a x' b) y' c`, and `right` turns `(a x b) y c` into `a x' (b y' c)`. -/
structure Rotations (α σ : Type) where
  left : σ → Tree α → α → Tree α → α → Tree α → σ × α × α
  right : σ → Tree α → α → Tree α → α → Tree α → σ × α × α

namespace Rotations

variable {α σ : Type} (R : Rotations α σ)

/-- Rotate the root to the left; a node keeps its colour. -/
def leftRotate (s : σ) : Tree α → σ × Tree α
  | node cx a x (node cy b y c) =>
    let r := R.left s a x b y c
    (r.1, node cy (node cx a r.2.1 b) r.2.2 c)
  | t => (s, t)

def rightRotate (s : σ) : Tree α → σ × Tree α
  | node cy (node cx a x b) y c =>
    let r := R.right s a x b y c
    (r.1, node cx a r.2.1 (node cy b r.2.2 c))
  | t => (s, t)

/-- The repair loop after the insertion of the red node `x`: the focus is `x`, the first two frames are
its parent and its grandparent. -/
def fixInsertLoop (s : σ) : Tree α → Path α → σ × Tree α
  | x, [] => (s, x)
  | x, [f] => (s, f.plug x)
  | x, f :: g :: path =>
    if f.color = .black then (s, Path.plug (f :: g :: path) x)
    else match g with
      | .left _ gv y =>
        if y.color = .red then
          fixInsertLoop s (node .red ((f.setColor .black).plug x) gv (y.setColor .black)) path
        else
          match f with
          | .right _ _ _ =>
            let r := R.leftRotate s (f.plug x)
            let r' := R.rightRotate r.1 (node .red (r.2.setColor .black) gv y)
            (r'.1, Path.plug path r'.2)
          | .left _ _ _ =>
            let r := R.rightRotate s (node .red ((f.setColor .black).plug x) gv y)
            (r.1, Path.plug path r.2)
      | .right _ y gv =>
        if y.color = .red then
          fixInsertLoop s (node .red (y.setColor .black) gv ((f.setColor .black).plug x)) path
        else
          match f with
          | .left _ _ _ =>
            let r := R.rightRotate s (f.plug x)
            let r' := R.leftRotate r.1 (node .red y gv (r.2.setColor .black))
            (r'.1, Path.plug path r'.2)
          | .right _ _ _ =>
            let r := R.leftRotate s (node .red y gv ((f.setColor .black).plug x))
            (r.1, Path.plug path r.2)

/-- The whole tree after the repair; its root is black. -/
def fixInsert (s : σ) (x : Tree α) (path : Path α) : σ × Tree α :=
  let r := R.fixInsertLoop s x path
  (r.1, r.2.setColor .black)

/-- The deletion repair at the parent `c, v` of a left child `x` that lacks a black node, with a black
sibling `w`: either `x` moves up to the parent (`true`), or the subtree is repaired (`false`). -/
def fixLeft (s : σ) (c : Color) (x : Tree α) (v : α) (w : Tree α) : Bool × σ × Tree α :=
  match w with
  | nil => (false, s, node c x v w)
  | node _ wl wv wr =>
    if wl.color = .black ∧ wr.color = .black then (true, s, node c x v (node .red wl wv wr))
    else
      let r := if wr.color = .black then R.rightRotate s (node .red (wl.setColor .black) wv wr)
        else (s, node .black wl wv wr)
      match r.2 with
      | nil => (false, r.1, node c x v nil)
      | node _ wl' wv' wr' =>
        let r' := R.leftRotate r.1 (node .black x v (node c wl' wv' (wr'.setColor .black)))
        (false, r')

/-- As `fixLeft`, for a right child `x` with the black sibling `w`. -/
def fixRight (s : σ) (c : Color) (w : Tree α) (v : α) (x : Tree α) : Bool × σ × Tree α :=
  match w with
  | nil => (false, s, node c w v x)
  | node _ wl wv wr =>
    if wl.color = .black ∧ wr.color = .black then (true, s, node c (node .red wl wv wr) v x)
    else
      let r := if wl.color = .black then R.leftRotate s (node .red wl wv (wr.setColor .black))
        else (s, node .black wl wv wr)
      match r.2 with
      | nil => (false, r.1, node c nil v x)
      | node _ wl' wv' wr' =>
        let r' := R.rightRotate r.1 (node .black (node c (wl'.setColor .black) wv' wr') v x)
        (false, r')

/-- The repair loop after the deletion of a black node: the focus `x` lacks a black node.  After the
rotation that replaces a red sibling, the parent is red, so the loop ends at the latest there. -/
def fixDelete (s : σ) : Tree α → Path α → σ × Tree α
  | x, [] => (s, x.setColor .black)
  | x, f :: path =>
    if x.color = .red then (s, Path.plug (f :: path) (x.setColor .black))
    else match f with
      | .left c v w =>
        match w with
        | node .red wl wv wr =>
          let r := R.left s x v wl wv wr
          let r' := R.fixLeft r.1 .red x r.2.1 wl
          let up : Frame α := .left .black r.2.2 wr
          if r'.1 then (r'.2.1, Path.plug (up :: path) (r'.2.2.setColor .black))
          else (r'.2.1, (Path.plug (up :: path) r'.2.2).setColor .black)
        | w =>
          let r := R.fixLeft s c x v w
          if r.1 then fixDelete r.2.1 r.2.2 path
          else (r.2.1, (Path.plug path r.2.2).setColor .black)
      | .right c w v =>
        match w with
        | node .red wl wv wr =>
          let r := R.right s wl wv wr v x
          let r' := R.fixRight r.1 .red wr r.2.2 x
          let up : Frame α := .right .black wl r.2.1
          if r'.1 then (r'.2.1, Path.plug (up :: path) (r'.2.2.setColor .black))
          else (r'.2.1, (Path.plug (up :: path) r'.2.2).setColor .black)
        | w =>
          let r := R.fixRight s c w v x
          if r.1 then fixDelete r.2.1 r.2.2 path
          else (r.2.1, (Path.plug path r.2.2).setColor .black)

/-- Put the only child `x` of a removed node of the given colour in its place. -/
def spliceFix (s : σ) (c : Color) (x : Tree α) (path : Path α) : σ × Tree α :=
  if c = .red then (s, Path.plug path x) else R.fixDelete s x path

end Rotations

/-! ## Balance -/

/-- A red-black tree with a root of the given colour and the given number of black nodes on every way
down to a missing node. -/
inductive Balanced {α : Type} : Tree α → Color → Nat → Prop
  | nil : Balanced .nil .black 0
  | red {l r : Tree α} {v : α} {n : Nat} : Balanced l .black n → Balanced r .black n →
      Balanced (.node .red l v r) .red n
  | black {l r : Tree α} {v : α} {c d : Color} {n : Nat} : Balanced l c n → Balanced r d n →
      Balanced (.node .black l v r) .black (n + 1)

/-- A path whose hole, filled with a tree of the given colour and black height, gives a red-black tree
with a black root. -/
inductive BalancedPath {α : Type} : Path α → Color → Nat → Prop
  | root {n : Nat} : BalancedPath [] .black n
  | redL {v : α} {r : Tree α} {path : Path α} {n : Nat} : Balanced r .black n →
      BalancedPath path .red n → BalancedPath (.left .red v r :: path) .black n
  | redR {v : α} {l : Tree α} {path : Path α} {n : Nat} : Balanced l .black n →
      BalancedPath path .red n → BalancedPath (.right .red l v :: path) .black n
  | blackL {v : α} {r : Tree α} {path : Path α} {c d : Color} {n : Nat} : Balanced r d n →
      BalancedPath path .black (n + 1) → BalancedPath (.left .black v r :: path) c n
  | blackR {v : α} {l : Tree α} {path : Path α} {c d : Color} {n : Nat} : Balanced l d n →
      BalancedPath path .black (n + 1) → BalancedPath (.right .black l v :: path) c n

def RedBlack {α : Type} (t : Tree α) : Prop := ∃ n, Balanced t .black n

section Balance

variable {α : Type} {t l r : Tree α} {v : α} {c d : Color} {n : Nat} {path : Path α}

theorem Balanced.color_eq (h : Balanced t c n) : t.color = c := by
  cases h <;> rfl

theorem Balanced.children {l r : Tree α} {v : α} {d : Color} (h : Balanced (.node d l v r) c n) :
    (∃ c n, Balanced l c n) ∧ ∃ c n, Balanced r c n := by
  cases h with
  | red hl hr => exact ⟨⟨_, _, hl⟩, _, _, hr⟩
  | black hl hr => exact ⟨⟨_, _, hl⟩, _, _, hr⟩

theorem Balanced.blacken (h : Balanced t c n) : RedBlack (t.setColor .black) := by
  cases h with
  | nil => exact ⟨0, .nil⟩
  | red hl hr => exact ⟨_, .black hl hr⟩
  | black hl hr => exact ⟨_, .black hl hr⟩

theorem Balanced.blacken_red (h : Balanced t .red n) : Balanced (t.setColor .black) .black (n + 1) := by
  cases h with
  | red hl hr => exact .black hl hr

theorem BalancedPath.fill (hp : BalancedPath path c n) : ∀ {t : Tree α}, Balanced t c n →
    RedBlack (Path.plug path t) := by
  induction hp with
  | root => intro t h; exact ⟨_, h⟩
  | redL hr _ ih => intro t h; exact ih (.red h hr)
  | redR hl _ ih => intro t h; exact ih (.red hl h)
  | blackL hr _ ih => intro t h; exact ih (.black h hr)
  | blackR hl _ ih => intro t h; exact ih (.black hl h)

/-- Below a frame that admits a red tree, a black one of the same height fits. -/
theorem BalancedPath.black_of_red (h : BalancedPath path .red n) : BalancedPath path .black n := by
  cases h with
  | blackL hr hp => exact .blackL hr hp
  | blackR hl hp => exact .blackR hl hp

theorem BalancedPath.black (h : BalancedPath path c n) : BalancedPath path .black n := by
  cases c with
  | red => exact h.black_of_red
  | black => exact h

theorem Balanced.left_path (h : Balanced (.node c l v r) c n) (hp : BalancedPath path c n) :
    ∃ d m, Balanced l d m ∧ BalancedPath (.left c v r :: path) d m := by
  cases h with
  | red hl hr => exact ⟨_, _, hl, .redL hr hp⟩
  | black hl hr => exact ⟨_, _, hl, .blackL hr hp⟩

theorem Balanced.right_path (h : Balanced (.node c l v r) c n) (hp : BalancedPath path c n) :
    ∃ d m, Balanced r d m ∧ BalancedPath (.right c l v :: path) d m := by
  cases h with
  | red hl hr => exact ⟨_, _, hr, .redR hl hp⟩
  | black hl hr => exact ⟨_, _, hr, .blackR hl hp⟩

/-- The hole of a filled path and its filling are balanced for the same colour and height. -/
theorem RedBlack.unplug (path : Path α) : ∀ {t : Tree α}, RedBlack (Path.plug path t) →
    ∃ c n, Balanced t c n ∧ BalancedPath path c n := by
  induction path with
  | nil => rintro t ⟨n, h⟩; exact ⟨_, n, h, .root⟩
  | cons f path ih =>
    intro t h
    obtain ⟨c, n, hb, hp⟩ := ih h
    have hc := hb.color_eq
    cases f with
    | left fc v r => cases hc; exact hb.left_path hp
    | right fc l v => cases hc; exact hb.right_path hp

theorem black_of_ne (hc : ¬ t.color = .red) (h : Balanced t c n) : Balanced t .black n := by
  have hcolor := h.color_eq
  cases c with
  | red => exact absurd hcolor hc
  | black => exact h

theorem Balanced.leaf (h : Balanced t c 0) : (t = .nil ∧ c = .black) ∨ ∃ v, t = .node .red .nil v .nil ∧ c = .red := by
  cases h with
  | nil => exact .inl ⟨rfl, rfl⟩
  | red hl hr =>
    cases hl
    cases hr
    exact .inr ⟨_, rfl, rfl⟩

theorem RedBlack.blacken (h : RedBlack t) : RedBlack (t.setColor .black) := by
  obtain ⟨n, h⟩ := h
  exact h.blacken

theorem balanced_erase : ∀ {t : Tree α} {c : Color} {n : Nat}, Balanced t.erase c n ↔ Balanced t c n := by
  intro t
  induction t with
  | nil =>
    intro c n
    constructor
    · intro h; cases h; exact .nil
    · intro h; cases h; exact .nil
  | node tc l v r ihl ihr =>
    intro c n
    constructor
    · intro h
      cases h with
      | red hl hr => exact .red (ihl.mp hl) (ihr.mp hr)
      | black hl hr => exact .black (ihl.mp hl) (ihr.mp hr)
    · intro h
      cases h with
      | red hl hr => exact .red (ihl.mpr hl) (ihr.mpr hr)
      | black hl hr => exact .black (ihl.mpr hl) (ihr.mpr hr)

theorem balancedPath_erase : ∀ {path : Path α} {c : Color} {n : Nat},
    BalancedPath (Path.erase path) c n ↔ BalancedPath path c n := by
  intro path
  induction path with
  | nil =>
    intro c n
    constructor
    · intro h; cases h; exact .root
    · intro h; cases h; exact .root
  | cons f path ih =>
    intro c n
    constructor
    · intro h
      cases f with
      | left fc v r =>
        cases h with
        | redL hr hp => exact .redL (balanced_erase.mp hr) (ih.mp hp)
        | blackL hr hp => exact .blackL (balanced_erase.mp hr) (ih.mp hp)
      | right fc l v =>
        cases h with
        | redR hl hp => exact .redR (balanced_erase.mp hl) (ih.mp hp)
        | blackR hl hp => exact .blackR (balanced_erase.mp hl) (ih.mp hp)
    · intro h
      cases h with
      | redL hr hp => exact .redL (balanced_erase.mpr hr) (ih.mpr hp)
      | redR hl hp => exact .redR (balanced_erase.mpr hl) (ih.mpr hp)
      | blackL hr hp => exact .blackL (balanced_erase.mpr hr) (ih.mpr hp)
      | blackR hl hp => exact .blackR (balanced_erase.mpr hl) (ih.mpr hp)

theorem Balanced.congr {t' : Tree α} (h : Balanced t c n) (he : t'.erase = t.erase) : Balanced t' c n := by
  rw [← balanced_erase, he, balanced_erase]
  exact h

theorem BalancedPath.congr {path' : Path α} (h : BalancedPath path c n)
    (he : Path.erase path' = Path.erase path) : BalancedPath path' c n := by
  rw [← balancedPath_erase, he, balancedPath_erase]
  exact h

end Balance

namespace Rotations

variable {α σ : Type} (R : Rotations α σ)

/-- The insertion repair restores the balance above a red node that may have a red parent. -/
theorem fixInsertLoop_balanced (s : σ) (x : Tree α) (path : Path α) : ∀ {n : Nat}, Balanced x .red n →
    BalancedPath path .black n → ∃ c m, Balanced (R.fixInsertLoop s x path).2 c m := by
  fun_induction fixInsertLoop R s x path with
  | case1 x => intro n hx _; exact ⟨_, _, hx⟩
  | case2 x f =>
    intro n hx hp
    cases hp with
    | redL hr hp' => cases hp'
    | redR hl hp' => cases hp'
    | blackL hr _ => exact ⟨_, _, .black hx hr⟩
    | blackR hl _ => exact ⟨_, _, .black hl hx⟩
  | case3 x f g path hf =>
    intro n hx hp
    have hp' : BalancedPath (f :: g :: path) .red n := by
      cases hp with
      | redL hr hp' => cases hf
      | redR hl hp' => cases hf
      | blackL hr hp' => exact .blackL hr hp'
      | blackR hl hp' => exact .blackR hl hp'
    obtain ⟨m, h⟩ := hp'.fill hx
    exact ⟨_, _, h⟩
  | case4 x f path hf gc gv y hy ih =>
    intro n hx hp
    cases hp with
    | blackL hr hp' => exact absurd rfl hf
    | blackR hl hp' => exact absurd rfl hf
    | redL hr hp' =>
      cases hp' with
      | blackL hr' hp'' =>
        have hd := hr'.color_eq
        rw [hy] at hd
        subst hd
        exact ih (.red (.black hx hr) hr'.blacken_red) hp''
    | redR hl hp' =>
      cases hp' with
      | blackL hr' hp'' =>
        have hd := hr'.color_eq
        rw [hy] at hd
        subst hd
        exact ih (.red (.black hl hx) hr'.blacken_red) hp''
  | case5 x path gc gv y hy fc fl fv hf =>
    intro n hx hp
    cases hp with
    | blackR hl hp' => exact absurd rfl hf
    | redR hl hp' =>
      cases hp' with
      | blackL hr' hp'' =>
        cases hx with
        | red ha hb =>
          obtain ⟨m, h⟩ := hp''.fill (.black (.red hl ha) (.red hb (black_of_ne hy hr')))
          exact ⟨_, _, h⟩
  | case6 x path gc gv y hy fc fv fr hf =>
    intro n hx hp
    cases hp with
    | blackL hr hp' => exact absurd rfl hf
    | redL hr hp' =>
      cases hp' with
      | blackL hr' hp'' =>
        obtain ⟨m, h⟩ := hp''.fill (.black hx (.red hr (black_of_ne hy hr')))
        exact ⟨_, _, h⟩
  | case7 x f path hf gc y gv hy ih =>
    intro n hx hp
    cases hp with
    | blackL hr hp' => exact absurd rfl hf
    | blackR hl hp' => exact absurd rfl hf
    | redL hr hp' =>
      cases hp' with
      | blackR hl' hp'' =>
        have hd := hl'.color_eq
        rw [hy] at hd
        subst hd
        exact ih (.red hl'.blacken_red (.black hx hr)) hp''
    | redR hl hp' =>
      cases hp' with
      | blackR hl' hp'' =>
        have hd := hl'.color_eq
        rw [hy] at hd
        subst hd
        exact ih (.red hl'.blacken_red (.black hl hx)) hp''
  | case8 x path gc y gv hy fc fv fr hf =>
    intro n hx hp
    cases hp with
    | blackL hr hp' => exact absurd rfl hf
    | redL hr hp' =>
      cases hp' with
      | blackR hl' hp'' =>
        cases hx with
        | red ha hb =>
          obtain ⟨m, h⟩ := hp''.fill (.black (.red (black_of_ne hy hl') ha) (.red hb hr))
          exact ⟨_, _, h⟩
  | case9 x path gc y gv hy fc fl fv hf =>
    intro n hx hp
    cases hp with
    | blackR hl hp' => exact absurd rfl hf
    | redR hl hp' =>
      cases hp' with
      | blackR hl' hp'' =>
        obtain ⟨m, h⟩ := hp''.fill (.black (.red (black_of_ne hy hl') hl) hx)
        exact ⟨_, _, h⟩

variable {x : Tree α} {n : Nat}

theorem fixInsert_balanced (s : σ) {path : Path α} (hx : Balanced x .red n) (hp : BalancedPath path .black n) :
    RedBlack (R.fixInsert s x path).2 := by
  obtain ⟨c, m, h⟩ := R.fixInsertLoop_balanced s x path hx hp
  exact h.blacken

/-- The black height of a node over subtrees of black height `n`. -/
def height : Color → Nat → Nat
  | .red, n => n
  | .black, n => n + 1

/-- A subtree that lacks a black node where `n + 1` are due: it gets one by blackening its red root, or
its root is black. -/
def Deficient (x : Tree α) (n : Nat) : Prop :=
  (x.color = .red ∧ Balanced (x.setColor .black) .black (n + 1)) ∨ Balanced x .black n

/-- With a black sibling the subtree at the parent is repaired, or it lacks the black node itself. -/
theorem fixLeft_balanced (s : σ) (c : Color) {x w : Tree α} (v : α) (hx : Balanced x .black n)
    (hw : Balanced w .black (n + 1)) :
    if (R.fixLeft s c x v w).1 then (R.fixLeft s c x v w).2.2.color = c ∧
      Balanced ((R.fixLeft s c x v w).2.2.setColor .black) .black (n + 1)
    else Balanced (R.fixLeft s c x v w).2.2 c (height c (n + 1)) := by
  cases hw with
  | @black wl wr wv cl cr _ hl hr =>
    have hcl := hl.color_eq
    have hcr := hr.color_eq
    simp only [fixLeft, hcl, hcr]
    cases cr with
    | red =>
      -- the outer child is red: one rotation
      cases hr with
      | red ha hb =>
        cases c with
        | red => simpa [leftRotate, Tree.setColor] using .red (.black hx hl) (.black ha hb)
        | black => simpa [leftRotate, Tree.setColor] using .black (.black hx hl) (.black ha hb)
    | black =>
      cases cl with
      | red =>
        -- only the inner child is red: two rotations
        cases hl with
        | red ha hb =>
          cases c with
          | red =>
            simpa [leftRotate, rightRotate, Tree.setColor] using .red (.black hx ha) (.black hb hr)
          | black =>
            simpa [leftRotate, rightRotate, Tree.setColor] using .black (.black hx ha) (.black hb hr)
      | black =>
        exact ⟨rfl, .black hx (.red hl hr)⟩

theorem fixRight_balanced (s : σ) (c : Color) {x w : Tree α} (v : α) (hx : Balanced x .black n)
    (hw : Balanced w .black (n + 1)) :
    if (R.fixRight s c w v x).1 then (R.fixRight s c w v x).2.2.color = c ∧
      Balanced ((R.fixRight s c w v x).2.2.setColor .black) .black (n + 1)
    else Balanced (R.fixRight s c w v x).2.2 c (height c (n + 1)) := by
  cases hw with
  | @black wl wr wv cl cr _ hl hr =>
    have hcl := hl.color_eq
    have hcr := hr.color_eq
    simp only [fixRight, hcl, hcr]
    cases cl with
    | red =>
      cases hl with
      | red ha hb =>
        cases c with
        | red => simpa [rightRotate, Tree.setColor] using .red (.black ha hb) (.black hr hx)
        | black => simpa [rightRotate, Tree.setColor] using .black (.black ha hb) (.black hr hx)
    | black =>
      cases cr with
      | red =>
        cases hr with
        | red ha hb =>
          cases c with
          | red =>
            simpa [leftRotate, rightRotate, Tree.setColor] using .red (.black hl ha) (.black hb hx)
          | black =>
            simpa [leftRotate, rightRotate, Tree.setColor] using .black (.black hl ha) (.black hb hx)
      | black =>
        exact ⟨rfl, .black (.red hl hr) hx⟩

theorem Deficient.black (h : Deficient x n) (hx : ¬ x.color = .red) :
    Balanced x .black n :=
  h.resolve_left fun h' => hx h'.1

theorem Deficient.of_blacken {c : Color} (h : x.color = c ∧ Balanced (x.setColor .black) .black (n + 1)) :
    Deficient x (height c n) := by
  obtain ⟨rfl, h⟩ := h
  cases x with
  | nil => exact .inr h
  | node c l v r =>
    cases c with
    | red => exact .inl ⟨rfl, h⟩
    | black => exact .inr h

section Siblings

variable {c d : Color} {v wv : α} {w wl wr : Tree α} {path : Path α} {n : Nat}

theorem redSibling_left (h : BalancedPath (.left c v (.node .red wl wv wr) :: path) d n) :
    Balanced wl .black n ∧ Balanced wr .black n ∧ BalancedPath path .black (n + 1) := by
  cases h with
  | redL hw _ => cases hw
  | blackL hw hp => cases hw with
    | red hl hr => exact ⟨hl, hr, hp⟩

theorem redSibling_right (h : BalancedPath (.right c (.node .red wl wv wr) v :: path) d n) :
    Balanced wl .black n ∧ Balanced wr .black n ∧ BalancedPath path .black (n + 1) := by
  cases h with
  | redR hw _ => cases hw
  | blackR hw hp => cases hw with
    | red hl hr => exact ⟨hl, hr, hp⟩

section

variable (hne : ∀ wl wv wr, w = .node .red wl wv wr → False)
include hne

theorem Balanced.black_of_forall (h : Balanced w c n) : Balanced w .black n := by
  cases h with
  | nil => exact .nil
  | red hl hr => exact (hne _ _ _ rfl).elim
  | black hl hr => exact .black hl hr

theorem blackSibling_left (h : BalancedPath (.left c v w :: path) d n) :
    Balanced w .black n ∧ BalancedPath path c (height c n) := by
  cases h with
  | redL hw hp => exact ⟨hw, hp⟩
  | blackL hw hp => exact ⟨Balanced.black_of_forall hne hw, hp⟩

theorem blackSibling_right (h : BalancedPath (.right c w v :: path) d n) :
    Balanced w .black n ∧ BalancedPath path c (height c n) := by
  cases h with
  | redR hw hp => exact ⟨hw, hp⟩
  | blackR hw hp => exact ⟨Balanced.black_of_forall hne hw, hp⟩

end

end Siblings

theorem height_succ (c : Color) (n : Nat) : height c (n + 1) = height c n + 1 := by
  cases c <;> rfl

theorem fixDelete_balanced (s : σ) (x : Tree α) (path : Path α) : ∀ {n : Nat}, Deficient x n →
    BalancedPath path .black (n + 1) → RedBlack (R.fixDelete s x path).2 := by
  fun_induction fixDelete R s x path with
  | case1 s x =>
    intro n hx _
    rcases hx with ⟨-, h⟩ | h
    · exact ⟨_, h⟩
    · exact h.blacken
  | case2 s x f path hred =>
    intro n hx hp
    rcases hx with ⟨-, h⟩ | h
    · exact hp.fill h
    · rw [h.color_eq] at hred
      cases hred
  | case3 s x path hblack c v wl wv wr r r' up =>
    rename_i hmoved
    intro n hx hp
    obtain ⟨hl, hr, hp'⟩ := redSibling_left hp
    have hfix := R.fixLeft_balanced r.1 .red r.2.1 (hx.black hblack) hl
    rw [if_pos hmoved] at hfix
    exact (BalancedPath.blackL hr hp').fill hfix.2
  | case4 s x path hblack c v wl wv wr r r' up =>
    rename_i hmoved
    intro n hx hp
    obtain ⟨hl, hr, hp'⟩ := redSibling_left hp
    have hfix := R.fixLeft_balanced r.1 .red r.2.1 (hx.black hblack) hl
    rw [if_neg hmoved] at hfix
    exact RedBlack.blacken ((BalancedPath.blackL hr hp').fill hfix)
  | case5 s x path hblack c v w hne r =>
    rename_i hmoved ih
    intro n hx hp
    obtain ⟨hw, hp'⟩ := blackSibling_left hne hp
    have hfix := R.fixLeft_balanced s c v (hx.black hblack) hw
    rw [if_pos hmoved] at hfix
    rw [height_succ] at hp'
    exact ih (.of_blacken hfix) hp'.black
  | case6 s x path hblack c v w hne r =>
    rename_i hmoved
    intro n hx hp
    obtain ⟨hw, hp'⟩ := blackSibling_left hne hp
    have hfix := R.fixLeft_balanced s c v (hx.black hblack) hw
    rw [if_neg hmoved] at hfix
    exact RedBlack.blacken (hp'.fill hfix)
  | case7 s x path hblack c v wl wv wr r r' up =>
    rename_i hmoved
    intro n hx hp
    obtain ⟨hl, hr, hp'⟩ := redSibling_right hp
    have hfix := R.fixRight_balanced r.1 .red r.2.2 (hx.black hblack) hr
    rw [if_pos hmoved] at hfix
    exact (BalancedPath.blackR hl hp').fill hfix.2
  | case8 s x path hblack c v wl wv wr r r' up =>
    rename_i hmoved
    intro n hx hp
    obtain ⟨hl, hr, hp'⟩ := redSibling_right hp
    have hfix := R.fixRight_balanced r.1 .red r.2.2 (hx.black hblack) hr
    rw [if_neg hmoved] at hfix
    exact RedBlack.blacken ((BalancedPath.blackR hl hp').fill hfix)
  | case9 s x path hblack c v w hne r =>
    rename_i hmoved ih
    intro n hx hp
    obtain ⟨hw, hp'⟩ := blackSibling_right hne hp
    have hfix := R.fixRight_balanced s c v (hx.black hblack) hw
    rw [if_pos hmoved] at hfix
    rw [height_succ] at hp'
    exact ih (.of_blacken hfix) hp'.black
  | case10 s x path hblack c v w hne r =>
    rename_i hmoved
    intro n hx hp
    obtain ⟨hw, hp'⟩ := blackSibling_right hne hp
    have hfix := R.fixRight_balanced s c v (hx.black hblack) hw
    rw [if_neg hmoved] at hfix
    exact RedBlack.blacken (hp'.fill hfix)

/-- A node with at most one child is replaced by that child.  The values on the way may have changed. -/
theorem spliceFix_balanced (s : σ) {y : Loc α} {path : Path α} (h : RedBlack y.root)
    (hx : x.erase = y.right.erase ∨ x.erase = y.left.erase) (hpath : Path.erase path = Path.erase y.path) :
    RedBlack (R.spliceFix s y.color x path).2 := by
  obtain ⟨c, n, hy, hp⟩ := RedBlack.unplug y.path h
  have hc := hy.color_eq
  have hp' := hp.congr hpath
  unfold Loc.focus at hy hc
  unfold spliceFix
  split
  · next hred =>
    rw [hred] at hy hc
    cases hy with
    | red hl hr =>
      have hxb : Balanced x .black n := by
        rcases hx with he | he
        · exact hr.congr he
        · exact hl.congr he
      exact hp'.black_of_red.fill hxb
  · next hblack =>
    have hyc : y.color = .black := by
      cases hcol : y.color with
      | red => exact absurd hcol hblack
      | black => rfl
    rw [hyc] at hy hc
    cases hy with
    | black hl hr =>
      obtain ⟨d, hxb⟩ : ∃ d, Balanced x d _ := by
        rcases hx with he | he
        · exact ⟨_, hr.congr he⟩
        · exact ⟨_, hl.congr he⟩
      refine R.fixDelete_balanced s x path ?_ hp'
      cases d with
      | red => exact .inl ⟨hxb.color_eq, hxb.blacken_red⟩
      | black => exact .inr hxb

/-! ## Augmented data -/

/-- Rotations that keep the data of both nodes in agreement with their subtrees. -/
structure Lawful {S : Type} (A : Augment α S) : Prop where
  left : ∀ s a x b y c, A.Good a → A.Good b → A.Good c → A.Local (A.fold b) y (A.fold c) →
    A.Local (A.fold a) x (A.comb (A.fold b) y (A.fold c)) →
    A.Local (A.fold a) (R.left s a x b y c).2.1 (A.fold b) ∧
    A.Local (A.comb (A.fold a) (R.left s a x b y c).2.1 (A.fold b)) (R.left s a x b y c).2.2 (A.fold c) ∧
    A.le (A.comb (A.comb (A.fold a) (R.left s a x b y c).2.1 (A.fold b)) (R.left s a x b y c).2.2 (A.fold c))
      (A.comb (A.fold a) x (A.comb (A.fold b) y (A.fold c)))
  right : ∀ s a x b y c, A.Good a → A.Good b → A.Good c → A.Local (A.fold a) x (A.fold b) →
    A.Local (A.comb (A.fold a) x (A.fold b)) y (A.fold c) →
    A.Local (A.fold b) (R.right s a x b y c).2.2 (A.fold c) ∧
    A.Local (A.fold a) (R.right s a x b y c).2.1 (A.comb (A.fold b) (R.right s a x b y c).2.2 (A.fold c)) ∧
    A.le (A.comb (A.fold a) (R.right s a x b y c).2.1 (A.comb (A.fold b) (R.right s a x b y c).2.2 (A.fold c)))
      (A.comb (A.comb (A.fold a) x (A.fold b)) y (A.fold c))

variable {R} {S : Type} {A : Augment α S}

namespace Lawful

section

variable (hR : R.Lawful A) (s : σ)
include hR s

theorem rotate_left (cx cy dx dy : Color) (a b c : Tree α) (x y : α) :
    A.Refines (.node cx a x (.node cy b y c))
      (.node dy (.node dx a (R.left s a x b y c).2.1 b) (R.left s a x b y c).2.2 c) := by
  rintro ⟨hx, ha, hy, hb, hc⟩
  obtain ⟨h1, h2, h3⟩ := hR.left s a x b y c ha hb hc hy hx
  exact ⟨⟨h2, ⟨h1, ha, hb⟩, hc⟩, h3⟩

theorem rotate_right (cx cy dx dy : Color) (a b c : Tree α) (x y : α) :
    A.Refines (.node cy (.node cx a x b) y c)
      (.node dx a (R.right s a x b y c).2.1 (.node dy b (R.right s a x b y c).2.2 c)) := by
  rintro ⟨hy, ⟨hx, ha, hb⟩, hc⟩
  obtain ⟨h1, h2, h3⟩ := hR.right s a x b y c ha hb hc hx hy
  exact ⟨⟨h2, ha, ⟨h1, hb, hc⟩⟩, h3⟩

theorem leftRotate (t : Tree α) : A.Refines t (R.leftRotate s t).2 := by
  unfold Rotations.leftRotate
  split
  · exact hR.rotate_left s _ _ _ _ _ _ _ _ _
  · exact .refl _

theorem rightRotate (t : Tree α) : A.Refines t (R.rightRotate s t).2 := by
  unfold Rotations.rightRotate
  split
  · exact hR.rotate_right s _ _ _ _ _ _ _ _ _
  · exact .refl _

end

end Lawful

theorem refines_frameColor (c : Color) (f : Frame α) (x : Tree α) :
    A.Refines (f.plug x) ((f.setColor c).plug x) := by
  cases f with
  | left fc v r => exact (Augment.Refines.refl x).left _ _ v r
  | right fc l v => exact (Augment.Refines.refl x).right _ _ l v

section

variable (hR : R.Lawful A) (s : σ)
include hR s

/-- The insertion repair keeps the data of every node right and adds to no contribution. -/
theorem fixInsertLoop_refines (x : Tree α) (path : Path α) :
    A.Refines (Path.plug path x) (R.fixInsertLoop s x path).2 := by
  fun_induction fixInsertLoop R s x path with
  | case1 x => exact .refl _
  | case2 x f => exact .refl _
  | case3 x f g path hf => exact .refl _
  | case4 x f path hf gc gv y hy ih =>
    refine Augment.Refines.trans ?_ ih
    refine Augment.Refines.plug ?_ path
    exact ((refines_frameColor .black f x).left _ .red gv y).trans
      ((Augment.Refines.setColor .black y).right _ _ _ gv)
  | case5 x path gc gv y hy fc fl fv hf =>
    refine Augment.Refines.plug ?_ path
    refine Augment.Refines.trans ?_ (hR.rightRotate _ _)
    exact ((hR.leftRotate s _).trans (.setColor .black _)).left _ _ gv y
  | case6 x path gc gv y hy fc fv fr hf =>
    refine Augment.Refines.plug ?_ path
    refine Augment.Refines.trans ?_ (hR.rightRotate s _)
    exact (refines_frameColor .black _ x).left _ _ gv y
  | case7 x f path hf gc y gv hy ih =>
    refine Augment.Refines.trans ?_ ih
    refine Augment.Refines.plug ?_ path
    exact ((refines_frameColor .black f x).right _ .red y gv).trans
      ((Augment.Refines.setColor .black y).left _ _ gv _)
  | case8 x path gc y gv hy fc fv fr hf =>
    refine Augment.Refines.plug ?_ path
    refine Augment.Refines.trans ?_ (hR.leftRotate _ _)
    exact ((hR.rightRotate s _).trans (.setColor .black _)).right _ _ y gv
  | case9 x path gc y gv hy fc fl fv hf =>
    refine Augment.Refines.plug ?_ path
    refine Augment.Refines.trans ?_ (hR.leftRotate s _)
    exact (refines_frameColor .black _ x).right _ _ y gv

theorem fixInsert_refines (x : Tree α) (path : Path α) :
    A.Refines (Path.plug path x) (R.fixInsert s x path).2 :=
  (fixInsertLoop_refines hR s x path).trans (.setColor .black _)

theorem fixLeft_refines (c d : Color) (x w : Tree α) (v : α) :
    A.Refines (.node d x v w) (R.fixLeft s c x v w).2.2 := by
  unfold fixLeft
  split
  · exact (Augment.Refines.refl x).left _ _ v _
  · next wc wl wv wr =>
    split
    · exact ((Augment.Refines.refl wl).left _ _ wv wr).right _ _ x v
    · -- the sibling, possibly rotated
      have hsib : A.Refines (.node wc wl wv wr)
          (if wr.color = .black then R.rightRotate s (.node .red (wl.setColor .black) wv wr)
            else (s, .node .black wl wv wr)).2 := by
        split
        · exact ((Augment.Refines.setColor .black wl).left _ _ wv wr).trans (hR.rightRotate s _)
        · exact (Augment.Refines.refl wl).left _ _ wv wr
      dsimp only
      split
      · next hnil =>
        rw [hnil] at hsib
        exact hsib.right _ _ x v
      · next wc' wl' wv' wr' hnode =>
        rw [hnode] at hsib
        refine Augment.Refines.trans ?_ (hR.leftRotate _ _)
        exact (hsib.trans ((Augment.Refines.setColor .black wr').right _ c wl' wv')).right _ _ x v

theorem fixRight_refines (c d : Color) (w x : Tree α) (v : α) :
    A.Refines (.node d w v x) (R.fixRight s c w v x).2.2 := by
  unfold fixRight
  split
  · exact (Augment.Refines.refl _).left _ _ v _
  · next wc wl wv wr =>
    split
    · exact ((Augment.Refines.refl wl).left _ _ wv wr).left _ _ v x
    · have hsib : A.Refines (.node wc wl wv wr)
          (if wl.color = .black then R.leftRotate s (.node .red wl wv (wr.setColor .black))
            else (s, .node .black wl wv wr)).2 := by
        split
        · exact ((Augment.Refines.setColor .black wr).right _ _ wl wv).trans (hR.leftRotate s _)
        · exact (Augment.Refines.refl wl).left _ _ wv wr
      dsimp only
      split
      · next hnil =>
        rw [hnil] at hsib
        exact hsib.left _ _ v x
      · next wc' wl' wv' wr' hnode =>
        rw [hnode] at hsib
        refine Augment.Refines.trans ?_ (hR.rightRotate _ _)
        exact (hsib.trans ((Augment.Refines.setColor .black wl').left _ c wv' wr')).left _ _ v x

theorem fixDelete_refines (x : Tree α) (path : Path α) :
    A.Refines (Path.plug path x) (R.fixDelete s x path).2 := by
  fun_induction fixDelete R s x path with
  | case1 s x => exact .setColor .black x
  | case2 s x f path hred => exact (Augment.Refines.setColor .black x).plug _
  | case3 s x path hblack c v wl wv wr r r' up =>
    refine Augment.Refines.plug ?_ path
    refine (hR.rotate_left s _ _ .red .black x wl wr v wv).trans ?_
    exact ((fixLeft_refines hR r.1 .red .red x wl r.2.1).trans (.setColor .black _)).left _ _ r.2.2 wr
  | case4 s x path hblack c v wl wv wr r r' up =>
    refine Augment.Refines.trans (Augment.Refines.plug ?_ path) (.setColor .black _)
    refine (hR.rotate_left s _ _ .red .black x wl wr v wv).trans ?_
    exact (fixLeft_refines hR r.1 .red .red x wl r.2.1).left _ _ r.2.2 wr
  | case5 s x path hblack c v w hne r =>
    rename_i ih
    exact ((fixLeft_refines hR s c c x w v).plug path).trans ih
  | case6 s x path hblack c v w hne r =>
    exact ((fixLeft_refines hR s c c x w v).plug path).trans (.setColor .black _)
  | case7 s x path hblack c v wl wv wr r r' up =>
    refine Augment.Refines.plug ?_ path
    refine (hR.rotate_right s _ _ .black .red wl wr x wv v).trans ?_
    exact ((fixRight_refines hR r.1 .red .red wr x r.2.2).trans (.setColor .black _)).right _ _ wl r.2.1
  | case8 s x path hblack c v wl wv wr r r' up =>
    refine Augment.Refines.trans (Augment.Refines.plug ?_ path) (.setColor .black _)
    refine (hR.rotate_right s _ _ .black .red wl wr x wv v).trans ?_
    exact (fixRight_refines hR r.1 .red .red wr x r.2.2).right _ _ wl r.2.1
  | case9 s x path hblack c v w hne r =>
    rename_i ih
    exact ((fixRight_refines hR s c c w x v).plug path).trans ih
  | case10 s x path hblack c v w hne r =>
    exact ((fixRight_refines hR s c c w x v).plug path).trans (.setColor .black _)

theorem spliceFix_refines (c : Color) (x : Tree α) (path : Path α) :
    A.Refines (Path.plug path x) (R.spliceFix s c x path).2 := by
  unfold spliceFix
  split
  · exact .refl _
  · exact fixDelete_refines hR s x path

end

end Rotations

end TongjiCode
