import TongjiCode.Editor.IntervalDelete

/-!
# Interval tree: traversals

The traversals of the source walk over the parent links and mark nodes as visited; marks are removed
again on the way up.  The loops that handle a node between its subtrees differ in what they prune and
in what they do at a node: `inOrderLoop` takes this as a `Visitor`.  `normalizeDelta` and
`collectNodesPostOrder` handle a node after its subtrees.

On a tree without marks every loop comes back to where it entered a subtree, with the subtree as a
recursion over the tree gives it and without marks (`inOrderLoop_eq`, `normalizeLoop_eq`,
`postOrderLoop_eq`).
-/

namespace TongjiCode.Editor

open TongjiCode.Tree

/-! ## Algorithm -/

/-- `getNodeIsVisited`; `sentinel` is the mark of the `SENTINEL`. -/
def getNodeIsVisited (sentinel : Bool) : Tree IntervalNode → Bool
  | .nil => sentinel
  | .node _ _ v _ => v.isVisited

/-- `setNodeIsVisited` at the root of a subtree. -/
def setNodeIsVisited (value : Bool) : Tree IntervalNode → Tree IntervalNode
  | .nil => .nil
  | .node c l v r => .node c l { v with isVisited := value } r

/-- The mark of the `SENTINEL` after both children of a node have lost theirs. -/
def clearSentinel (sentinel : Bool) (l r : Tree IntervalNode) : Bool := sentinel && !l.isNil && !r.isNil

/-- What applies to the hole of a frame but not to the node of the frame. -/
def frameDelta : Frame IntervalNode → Int
  | .left _ _ _ => 0
  | .right _ _ v => v.delta

/-- What a loop does at the nodes, with a state `γ`. -/
structure Visitor (γ : Type) where
  /-- there is no need to search this node or its children -/
  prune : Int → IntervalNode → Bool := fun _ _ => false
  /-- there is no need to search this node or its right subtree -/
  stop : Int → IntervalNode → Bool := fun _ _ => false
  /-- what happens to a node at which the loop stops -/
  skip : γ → IntervalNode → γ × IntervalNode := fun acc v => (acc, v)
  visit : Int → γ → IntervalNode → γ × IntervalNode
  /-- `maxEnd` is recomputed when the loop leaves a node -/
  recompute : Bool := false

variable {γ : Type}

def Visitor.leave (V : Visitor γ) (l : Tree IntervalNode) (v : IntervalNode) (r : Tree IntervalNode) :
    IntervalNode :=
  if V.recompute then recomputeMaxEnd l v r else v

/-! ## Termination -/

def nodeCount : Tree IntervalNode → Nat
  | .nil => 0
  | .node _ l _ r => nodeCount l + nodeCount r + 1

/-- The turns of a loop that a subtree takes at most. -/
def pending : Tree IntervalNode → Nat
  | .nil => 0
  | .node c l v r => if v.isVisited then 0 else 4 * nodeCount (.node c l v r) + 1

/-- The turns that are left below and at a node; where a loop `exits` at marked nodes, one turn is left
at these. -/
def nodeWeight (exits : Bool) (v : IntervalNode) (turns : Nat) : Nat :=
  if exits && v.isVisited then 1 else 2 + turns

def weight (exits : Bool) : Tree IntervalNode → Nat
  | .nil => 0
  | .node _ l v r => nodeWeight exits v (pending l + pending r)

def frameWeight (exits : Bool) : Frame IntervalNode → Nat
  | .left _ v r => nodeWeight exits v (pending r)
  | .right _ l v => nodeWeight exits v (pending l)

def pathWeight (exits : Bool) : Path IntervalNode → Nat
  | [] => 0
  | f :: path => frameWeight exits f + pathWeight exits path

theorem pending_le (t : Tree IntervalNode) : pending t ≤ 4 * nodeCount t + 1 := by
  cases t with
  | nil => exact Nat.zero_le _
  | node c l v r =>
    rw [pending]
    split <;> omega

theorem nodeWeight_pos (exits : Bool) (v : IntervalNode) (turns : Nat) : 0 < nodeWeight exits v turns := by
  unfold nodeWeight
  split <;> omega

theorem nodeWeight_le (exits : Bool) (v : IntervalNode) (turns : Nat) : nodeWeight exits v turns ≤ 2 + turns := by
  unfold nodeWeight
  split <;> omega

theorem nodeWeight_open {exits : Bool} {v : IntervalNode} (h : (exits && v.isVisited) = false) (turns : Nat) :
    nodeWeight exits v turns = 2 + turns := by
  rw [nodeWeight, h]
  rfl

theorem nodeWeight_marked (v : IntervalNode) (turns : Nat) :
    nodeWeight true { v with isVisited := true } turns = 1 := rfl

variable {t : Tree IntervalNode}

theorem weight_lt_pending (exits : Bool) {s : Bool} (h : t.isNil = false) (hv : getNodeIsVisited s t = false) :
    weight exits t < pending t := by
  cases t with
  | nil => cases h
  | node c l v r =>
    have hl := pending_le l
    have hr := pending_le r
    have hw := nodeWeight_le exits v (pending l + pending r)
    rw [getNodeIsVisited] at hv
    rw [weight, pending, hv, nodeCount]
    simp only [Bool.false_eq_true, if_false]
    omega

/-- A marked subtree takes no more turns. -/
theorem weight_plug (exits : Bool) (f : Frame IntervalNode) (c : Color) (l : Tree IntervalNode)
    (v : IntervalNode) (r : Tree IntervalNode) :
    weight exits (f.plug (.node c l { v with isVisited := true } r)) = frameWeight exits f := by
  cases f with
  | left fc fv fr => simp [Frame.plug, weight, frameWeight, pending]
  | right fc fl fv => simp [Frame.plug, weight, frameWeight, pending]

section Turns

variable {v : IntervalNode} (c : Color) (l r : Tree IntervalNode)

theorem weight_mark (w : IntervalNode) (h : ¬ v.isVisited = true) :
    weight true (.node c l { w with isVisited := true } r) < weight true (.node c l v r) := by
  rw [weight, weight, nodeWeight_marked, nodeWeight_open (by simpa using h)]
  omega

variable {exits sentinel : Bool}

theorem weight_left (h : (exits && v.isVisited) = false)
    (hl : (l.isNil = false) ∧ getNodeIsVisited sentinel l = false) (path : Path IntervalNode) :
    weight exits l + pathWeight exits (.left c v r :: path) <
      weight exits (.node c l v r) + pathWeight exits path := by
  have := weight_lt_pending exits hl.1 hl.2
  rw [pathWeight, weight, frameWeight, nodeWeight_open h, nodeWeight_open h]
  omega

end Turns

/-! ## Loops -/

/-- The loop of the in-order traversals.  Its first turn at a node leads into the left subtree, its
next one handles the node, its last one leaves it. -/
def inOrderLoop (V : Visitor γ) (sentinel : Bool) (acc : γ) (delta : Int) (t : Tree IntervalNode)
    (path : Path IntervalNode) : Tree IntervalNode × γ × Bool :=
  match t with
  | .nil => (Path.plug path .nil, acc, sentinel)
  | .node c l v r =>
    if v.isVisited then
      let l' := setNodeIsVisited false l
      let r' := setNodeIsVisited false r
      let t := Tree.node c l' { V.leave l' v r' with isVisited := true } r'
      match path with
      | [] => (t, acc, clearSentinel sentinel l r)
      | f :: path => inOrderLoop V (clearSentinel sentinel l r) acc (delta - frameDelta f) (f.plug t) path
    else if !getNodeIsVisited sentinel l && V.prune delta v then
      inOrderLoop V sentinel acc delta (.node c l { v with isVisited := true } r) path
    else if !getNodeIsVisited sentinel l && !l.isNil then
      inOrderLoop V sentinel acc delta l (.left c v r :: path)
    else if V.stop delta v then
      let s := V.skip acc v
      inOrderLoop V sentinel s.1 delta (.node c l { s.2 with isVisited := true } r) path
    else
      let s := V.visit delta acc v
      if !r.isNil && !getNodeIsVisited sentinel r then
        inOrderLoop V sentinel s.1 (delta + s.2.delta) r (.right c l { s.2 with isVisited := true } :: path)
      else
        inOrderLoop V sentinel s.1 delta (.node c l { s.2 with isVisited := true } r) path
termination_by weight true t + pathWeight true path
decreasing_by
  · rw [weight_plug, pathWeight, weight]
    have := nodeWeight_pos true v (pending l + pending r)
    omega
  · rename_i hv _
    exact Nat.add_lt_add_right (weight_mark c l r v hv) _
  · rename_i hv _ hl
    rw [Bool.and_eq_true, Bool.not_eq_true', Bool.not_eq_true'] at hl
    exact weight_left c l r (by simpa using hv) ⟨hl.2, hl.1⟩ path
  · rename_i hv _ _ _
    exact Nat.add_lt_add_right (weight_mark c l r _ hv) _
  · rename_i hv _ _ _ hr
    rw [Bool.and_eq_true, Bool.not_eq_true', Bool.not_eq_true'] at hr
    have := weight_lt_pending true hr.1 hr.2
    rw [pathWeight, weight, frameWeight, nodeWeight_marked, nodeWeight_open (by simpa using hv)]
    omega
  · rename_i hv _ _ _ _
    exact Nat.add_lt_add_right (weight_mark c l r _ hv) _

/-- The loop of `normalizeDelta`: the last turn at a node handles it and leaves it. -/
def normalizeLoop (sentinel : Bool) (delta : Int) (t : Tree IntervalNode) (path : Path IntervalNode) :
    Tree IntervalNode × Bool :=
  match t with
  | .nil => (Path.plug path .nil, sentinel)
  | .node c l v r =>
    if !l.isNil && !getNodeIsVisited sentinel l then
      normalizeLoop sentinel delta l (.left c v r :: path)
    else if !r.isNil && !getNodeIsVisited sentinel r then
      normalizeLoop sentinel (delta + v.delta) r (.right c l v :: path)
    else
      let v' := recomputeMaxEnd l { v.move delta with delta := 0 } r
      let t := Tree.node c (setNodeIsVisited false l) { v' with isVisited := true } (setNodeIsVisited false r)
      match path with
      | [] => (t, clearSentinel sentinel l r)
      | f :: path => normalizeLoop (clearSentinel sentinel l r) (delta - frameDelta f) (f.plug t) path
termination_by weight false t + pathWeight false path
decreasing_by
  · rename_i hl
    rw [Bool.and_eq_true, Bool.not_eq_true', Bool.not_eq_true'] at hl
    exact weight_left c l r rfl hl path
  · rename_i _ hr
    rw [Bool.and_eq_true, Bool.not_eq_true', Bool.not_eq_true'] at hr
    have := weight_lt_pending false hr.1 hr.2
    rw [pathWeight, weight, frameWeight, nodeWeight_open rfl, nodeWeight_open rfl]
    omega
  · rw [weight_plug, pathWeight, weight]
    have := nodeWeight_pos false v (pending l + pending r)
    omega

def postOrderLoop (sentinel : Bool) (result : List Nat) (t : Tree IntervalNode) (path : Path IntervalNode) :
    Tree IntervalNode × List Nat × Bool :=
  match t with
  | .nil => (Path.plug path .nil, result, sentinel)
  | .node c l v r =>
    if v.isVisited then
      let t := Tree.node c (setNodeIsVisited false l) { v with isVisited := true } (setNodeIsVisited false r)
      match path with
      | [] => (t, result, clearSentinel sentinel l r)
      | f :: path => postOrderLoop (clearSentinel sentinel l r) result (f.plug t) path
    else if !l.isNil && !getNodeIsVisited sentinel l then
      postOrderLoop sentinel result l (.left c v r :: path)
    else if !r.isNil && !getNodeIsVisited sentinel r then
      postOrderLoop sentinel result r (.right c l v :: path)
    else
      postOrderLoop sentinel (result ++ [v.id]) (.node c l { v with isVisited := true } r) path
termination_by weight true t + pathWeight true path
decreasing_by
  · rw [weight_plug, pathWeight, weight]
    have := nodeWeight_pos true v (pending l + pending r)
    omega
  · rename_i hv hl
    rw [Bool.and_eq_true, Bool.not_eq_true', Bool.not_eq_true'] at hl
    exact weight_left c l r (by simpa using hv) hl path
  · rename_i hv _ hr
    rw [Bool.and_eq_true, Bool.not_eq_true', Bool.not_eq_true'] at hr
    have := weight_lt_pending true hr.1 hr.2
    rw [pathWeight, weight, frameWeight, nodeWeight_open (by simpa using hv), nodeWeight_open (by simpa using hv)]
    omega
  · rename_i hv _ _
    exact Nat.add_lt_add_right (weight_mark c l r _ hv) _

/-! ## The loops as recursions -/

/-- No node of the subtree is marked. -/
def NoMarks : Tree IntervalNode → Prop
  | .nil => True
  | .node _ l v r => v.isVisited = false ∧ NoMarks l ∧ NoMarks r

/-- What an in-order loop does to a subtree. -/
def Visitor.walk (V : Visitor γ) (d : Int) (acc : γ) : Tree IntervalNode → γ × Tree IntervalNode
  | .nil => (acc, .nil)
  | .node c l v r =>
    if V.prune d v then (acc, .node c l { V.leave l v r with isVisited := false } r)
    else
      let a := V.walk d acc l
      if V.stop d v then
        let s := V.skip a.1 v
        (s.1, .node c a.2 { V.leave a.2 s.2 r with isVisited := false } r)
      else
        let s := V.visit d a.1 v
        let b := V.walk (d + s.2.delta) s.1 r
        (b.1, .node c a.2 { V.leave a.2 s.2 b.2 with isVisited := false } b.2)

/-- What `normalizeDelta` does to a subtree. -/
def normalized (d : Int) : Tree IntervalNode → Tree IntervalNode
  | .nil => .nil
  | .node c l v r =>
    let l' := normalized d l
    let r' := normalized (d + v.delta) r
    .node c l' { recomputeMaxEnd l' { v.move d with delta := 0 } r' with isVisited := false } r'

def idsPostOrder : Tree IntervalNode → List Nat
  | .nil => []
  | .node _ l v r => idsPostOrder l ++ idsPostOrder r ++ [v.id]

theorem setNodeIsVisited_of_noMarks (h : NoMarks t) : setNodeIsVisited false t = t := by
  cases t with
  | nil => rfl
  | node c l v r =>
    obtain ⟨hv, -, -⟩ := h
    rw [setNodeIsVisited, ← hv]

theorem eq_nil_or (t : Tree IntervalNode) : t = .nil ∨ t.isNil = false := by
  cases t with
  | nil => exact .inl rfl
  | node c l v r => exact .inr rfl

theorem setNodeIsVisited_twice (a b : Bool) (t : Tree IntervalNode) :
    setNodeIsVisited a (setNodeIsVisited b t) = setNodeIsVisited a t := by
  cases t <;> rfl

theorem clearSentinel_false (l r : Tree IntervalNode) : clearSentinel false l r = false := rfl

theorem getNodeIsVisited_of_noMarks (h : NoMarks t) : getNodeIsVisited false t = false := by
  cases t with
  | nil => rfl
  | node c l v r => exact h.1

section InOrder

variable (V : Visitor γ)

theorem Visitor.walk_noMarks (t : Tree IntervalNode) : ∀ (d : Int) (acc : γ), NoMarks t → NoMarks (V.walk d acc t).2 := by
  induction t with
  | nil => intro d acc _; trivial
  | node c l v r ihl ihr =>
    rintro d acc ⟨-, hl, hr⟩
    unfold Visitor.walk
    split
    · exact ⟨rfl, hl, hr⟩
    · dsimp only
      split
      · exact ⟨rfl, ihl _ _ hl, hr⟩
      · exact ⟨rfl, ihl _ _ hl, ihr _ _ hr⟩

/-- What a loop does after it has finished a subtree `t`. -/
def Visitor.exit (V : Visitor γ) (acc : γ) (d : Int) (t : Tree IntervalNode) :
    Path IntervalNode → Tree IntervalNode × γ × Bool
  | [] => (setNodeIsVisited true t, acc, false)
  | f :: path => inOrderLoop V false acc (d - frameDelta f) (f.plug (setNodeIsVisited true t)) path

theorem inOrderLoop_leave {l r l' r' : Tree IntervalNode} (hl : setNodeIsVisited false l' = l)
    (hr : setNodeIsVisited false r' = r) (acc : γ) (d : Int) (c : Color) (v : IntervalNode)
    (path : Path IntervalNode) :
    inOrderLoop V false acc d (.node c l' { v with isVisited := true } r') path =
      V.exit acc d (.node c l { V.leave l v r with isVisited := false } r) path := by
  have hleave : ({ V.leave l { v with isVisited := true } r with isVisited := true } : IntervalNode) =
      { V.leave l v r with isVisited := true } := by
    unfold Visitor.leave
    split <;> rfl
  rw [inOrderLoop]
  simp only [if_true, hl, hr, clearSentinel_false, hleave]
  cases path with
  | nil => rfl
  | cons f path => rfl

/-- The turn that handles a node, its left subtree being finished. -/
theorem inOrderLoop_handle {l l' r : Tree IntervalNode} (hl : setNodeIsVisited false l' = l) {v : IntervalNode}
    (hv : v.isVisited = false) (hr : NoMarks r) {d : Int}
    (hfirst : getNodeIsVisited false l' = true ∨ (l'.isNil = true ∧ V.prune d v = false))
    (ih : ∀ acc d path, r.isNil = false → inOrderLoop V false acc d r path =
      V.exit (V.walk d acc r).1 d (V.walk d acc r).2 path)
    (acc : γ) (c : Color) (path : Path IntervalNode) :
    inOrderLoop V false acc d (.node c l' v r) path =
      if V.stop d v then
        V.exit (V.skip acc v).1 d (.node c l { V.leave l (V.skip acc v).2 r with isVisited := false } r) path
      else
        let s := V.visit d acc v
        let b := V.walk (d + s.2.delta) s.1 r
        V.exit b.1 d (.node c l { V.leave l s.2 b.2 with isVisited := false } b.2) path := by
  have hskip : (!getNodeIsVisited false l' && V.prune d v) = false ∧
      (!getNodeIsVisited false l' && !l'.isNil) = false := by
    rcases hfirst with h | ⟨h, h'⟩
    · simp [h]
    · simp [h, h']
  rw [inOrderLoop]
  simp only [hv, hskip.1, hskip.2, Bool.false_eq_true, if_false]
  split
  · exact inOrderLoop_leave V hl (setNodeIsVisited_of_noMarks hr) _ d c _ path
  · rcases eq_nil_or r with rfl | hnil
    · exact inOrderLoop_leave V hl rfl _ d c _ path
    · rw [getNodeIsVisited_of_noMarks hr, hnil]
      rw [ih _ _ _ hnil, Visitor.exit, frameDelta, Int.add_sub_cancel]
      refine inOrderLoop_leave V hl ?_ _ d c _ path
      rw [setNodeIsVisited_twice]
      exact setNodeIsVisited_of_noMarks (V.walk_noMarks r _ _ hr)

/-- An in-order loop that enters a subtree leaves it as the recursion gives it. -/
theorem inOrderLoop_eq (t : Tree IntervalNode) : ∀ (acc : γ) (d : Int) (path : Path IntervalNode),
    NoMarks t → t.isNil = false →
      inOrderLoop V false acc d t path = V.exit (V.walk d acc t).1 d (V.walk d acc t).2 path := by
  induction t with
  | nil => intro acc d path _ h; cases h
  | node c l v r ihl ihr =>
    rintro acc d path ⟨hv, hl, hr⟩ -
    have hleft := setNodeIsVisited_of_noMarks hl
    have hright := fun acc d path hnil => ihr acc d path hr hnil
    by_cases hprune : V.prune d v = true
    · rw [inOrderLoop]
      simp only [hv, getNodeIsVisited_of_noMarks hl, hprune, Bool.not_false, Bool.and_self, Bool.false_eq_true,
        if_false, if_true, Visitor.walk]
      exact inOrderLoop_leave V hleft (setNodeIsVisited_of_noMarks hr) acc d c v path
    · rw [Bool.not_eq_true] at hprune
      have hwalk := V.walk_noMarks l d acc hl
      have hdown : inOrderLoop V false acc d (.node c l v r) path =
          inOrderLoop V false (V.walk d acc l).1 d (.node c (setNodeIsVisited true (V.walk d acc l).2) v r) path := by
        rcases eq_nil_or l with rfl | hnil
        · rfl
        · rw [inOrderLoop]
          simp only [hv, getNodeIsVisited_of_noMarks hl, hprune, hnil, Bool.not_false, Bool.and_self, Bool.and_false,
            Bool.false_eq_true, if_false, if_true]
          rw [ihl acc d _ hl hnil, Visitor.exit, frameDelta, Int.sub_zero]
          rfl
      have hfirst : getNodeIsVisited false (setNodeIsVisited true (V.walk d acc l).2) = true ∨
          ((setNodeIsVisited true (V.walk d acc l).2).isNil = true ∧ V.prune d v = false) := by
        cases hnil : (V.walk d acc l).2 with
        | nil => exact .inr ⟨rfl, hprune⟩
        | node lc ll lv lr => exact .inl rfl
      rw [hdown, inOrderLoop_handle V ((setNodeIsVisited_twice _ _ _).trans (setNodeIsVisited_of_noMarks hwalk))
        hv hr hfirst hright]
      simp only [Visitor.walk, hprune, Bool.false_eq_true, if_false]
      split <;> rfl

/-- An in-order traversal of a tree without marks, the mark of the root being removed in the end. -/
theorem inOrderLoop_root (h : NoMarks t) (acc : γ) :
    let r := inOrderLoop V false acc 0 t []
    (setNodeIsVisited false r.1, r.2.1, r.2.2) = ((V.walk 0 acc t).2, (V.walk 0 acc t).1, false) := by
  cases t with
  | nil =>
    rw [inOrderLoop]
    rfl
  | node c l v r =>
    rw [inOrderLoop_eq V _ acc 0 [] h rfl, Visitor.exit]
    simp only
    rw [setNodeIsVisited_twice, setNodeIsVisited_of_noMarks (V.walk_noMarks _ _ _ h)]

end InOrder

section PostOrder

theorem normalized_noMarks (t : Tree IntervalNode) : ∀ d : Int, NoMarks (normalized d t) := by
  induction t with
  | nil => intro d; trivial
  | node c l v r ihl ihr => intro d; exact ⟨rfl, ihl d, ihr (d + v.delta)⟩

/-- What `normalizeDelta` does after it has finished a subtree `t`. -/
def normalizeExit (d : Int) (t : Tree IntervalNode) : Path IntervalNode → Tree IntervalNode × Bool
  | [] => (setNodeIsVisited true t, false)
  | f :: path => normalizeLoop false (d - frameDelta f) (f.plug (setNodeIsVisited true t)) path

theorem visited_or_nil (t : Tree IntervalNode) :
    (!(setNodeIsVisited true t).isNil && !getNodeIsVisited false (setNodeIsVisited true t)) = false := by
  cases t <;> rfl

theorem computeMaxEnd_mark (a b : Bool) (l : Tree IntervalNode) (v : IntervalNode) (r : Tree IntervalNode) :
    computeMaxEnd (setNodeIsVisited a l) v (setNodeIsVisited b r) = computeMaxEnd l v r := by
  cases l <;> cases r <;> rfl

theorem normalizeLoop_eq (t : Tree IntervalNode) : ∀ (d : Int) (path : Path IntervalNode), NoMarks t →
    t.isNil = false → normalizeLoop false d t path = normalizeExit d (normalized d t) path := by
  induction t with
  | nil => intro d path _ h; cases h
  | node c l v r ihl ihr =>
    rintro d path ⟨hv, hl, hr⟩ -
    have hleft : normalizeLoop false d (.node c l v r) path =
        normalizeLoop false d (.node c (setNodeIsVisited true (normalized d l)) v r) path := by
      rcases eq_nil_or l with rfl | hnil
      · rfl
      · rw [normalizeLoop]
        simp only [hnil, getNodeIsVisited_of_noMarks hl, Bool.not_false, Bool.and_self, if_true]
        rw [ihl d _ hl hnil, normalizeExit, frameDelta, Int.sub_zero]
        rfl
    have hright : normalizeLoop false d (.node c (setNodeIsVisited true (normalized d l)) v r) path =
        normalizeLoop false d (.node c (setNodeIsVisited true (normalized d l)) v
          (setNodeIsVisited true (normalized (d + v.delta) r))) path := by
      rcases eq_nil_or r with rfl | hnil
      · rfl
      · rw [normalizeLoop]
        simp only [visited_or_nil, hnil, getNodeIsVisited_of_noMarks hr, Bool.not_false, Bool.and_self,
          Bool.false_eq_true, if_false, if_true]
        rw [ihr _ _ hr hnil, normalizeExit, frameDelta, Int.add_sub_cancel]
        rfl
    rw [hleft, hright, normalizeLoop]
    simp only [visited_or_nil, Bool.false_eq_true, if_false, clearSentinel_false, setNodeIsVisited_twice,
      setNodeIsVisited_of_noMarks (normalized_noMarks _ _), recomputeMaxEnd, computeMaxEnd_mark]
    cases path with
    | nil => rfl
    | cons f path => rfl

theorem normalizeLoop_root (h : NoMarks t) :
    let r := normalizeLoop false 0 t []
    (setNodeIsVisited false r.1, r.2) = (normalized 0 t, false) := by
  cases t with
  | nil =>
    rw [normalizeLoop]
    rfl
  | node c l v r =>
    rw [normalizeLoop_eq _ 0 [] h rfl, normalizeExit]
    simp only
    rw [setNodeIsVisited_twice, setNodeIsVisited_of_noMarks (normalized_noMarks _ _)]

/-- What `collectNodesPostOrder` does after it has finished a subtree `t`. -/
def postOrderExit (result : List Nat) (t : Tree IntervalNode) :
    Path IntervalNode → Tree IntervalNode × List Nat × Bool
  | [] => (setNodeIsVisited true t, result, false)
  | f :: path => postOrderLoop false result (f.plug (setNodeIsVisited true t)) path

theorem postOrderLoop_eq (t : Tree IntervalNode) : ∀ (result : List Nat) (path : Path IntervalNode), NoMarks t →
    t.isNil = false → postOrderLoop false result t path = postOrderExit (result ++ idsPostOrder t) t path := by
  induction t with
  | nil => intro result path _ h; cases h
  | node c l v r ihl ihr =>
    rintro result path ⟨hv, hl, hr⟩ -
    have hleft : postOrderLoop false result (.node c l v r) path =
        postOrderLoop false (result ++ idsPostOrder l) (.node c (setNodeIsVisited true l) v r) path := by
      rcases eq_nil_or l with rfl | hnil
      · simp [idsPostOrder, setNodeIsVisited]
      · rw [postOrderLoop]
        simp only [hv, hnil, getNodeIsVisited_of_noMarks hl, Bool.not_false, Bool.and_self, Bool.false_eq_true,
          if_false, if_true]
        rw [ihl _ _ hl hnil, postOrderExit]
        rfl
    have hright : ∀ result, postOrderLoop false result (.node c (setNodeIsVisited true l) v r) path =
        postOrderLoop false (result ++ idsPostOrder r)
          (.node c (setNodeIsVisited true l) v (setNodeIsVisited true r)) path := by
      intro result
      rcases eq_nil_or r with rfl | hnil
      · simp [idsPostOrder, setNodeIsVisited]
      · rw [postOrderLoop]
        simp only [hv, visited_or_nil, hnil, getNodeIsVisited_of_noMarks hr, Bool.not_false, Bool.and_self,
          Bool.false_eq_true, if_false, if_true]
        rw [ihr _ _ hr hnil, postOrderExit]
        rfl
    rw [hleft, hright, postOrderLoop]
    simp only [hv, visited_or_nil, Bool.false_eq_true, if_false]
    rw [postOrderLoop]
    simp only [if_true, setNodeIsVisited_twice, setNodeIsVisited_of_noMarks hl, setNodeIsVisited_of_noMarks hr,
      clearSentinel_false, idsPostOrder, List.append_assoc]
    cases path with
    | nil => rfl
    | cons f path => rfl

theorem postOrderLoop_root (h : NoMarks t) :
    let r := postOrderLoop false [] t []
    (setNodeIsVisited false r.1, r.2.1, r.2.2) = (t, idsPostOrder t, false) := by
  cases t with
  | nil =>
    rw [postOrderLoop]
    rfl
  | node c l v r =>
    rw [postOrderLoop_eq _ [] [] h rfl, postOrderExit]
    simp only
    rw [setNodeIsVisited_twice, setNodeIsVisited_of_noMarks h, List.nil_append]

end PostOrder

end TongjiCode.Editor
