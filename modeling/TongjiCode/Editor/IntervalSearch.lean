import TongjiCode.Editor.IntervalTraversal

/-!
# Interval tree: searches and normalisation

The traversals that only look for nodes are described by `Visitor.Reads`: they change cached offsets and
nothing else.  The ones that look for overlaps visit exactly the overlapping nodes
(`walk_overlapVisitor`), because `maxEnd` bounds the ends of a subtree and the starts are sorted.
`normalizeDeltaIfNecessary_spec` says that normalisation changes no absolute interval.
-/

open List

namespace TongjiCode.Editor

open TongjiCode.Tree

/-! ## Algorithm -/

variable {γ : Type}

/-- Run a loop from the root and remove the mark of the root. -/
def IntervalTree.traverse (V : Visitor γ) (acc : γ) (T : IntervalTree) : γ × IntervalTree :=
  let r := inOrderLoop V T.sentinelIsVisited acc 0 T.root []
  (r.2.1, { T with root := setNodeIsVisited false r.1, sentinelIsVisited := r.2.2 && !r.1.isNil })

def normalizeDelta (T : IntervalTree) : IntervalTree :=
  let r := normalizeLoop T.sentinelIsVisited 0 T.root []
  { T with root := setNodeIsVisited false r.1, sentinelIsVisited := r.2 && !r.1.isNil }

def normalizeDeltaIfNecessary (T : IntervalTree) : IntervalTree :=
  if !T.requestNormalizeDelta then T else normalizeDelta { T with requestNormalizeDelta := false }

/-- Visit the nodes that overlap the interval from `start` to `stop`, remember their offsets and collect
the ones to include. -/
def overlapVisitor (start stop : Int) (cachedVersionId : Nat) (included : Interval → Bool) : Visitor (List Nat) where
  prune delta v := delta + v.maxEnd < start
  stop delta v := delta + v.start > stop
  visit delta result v :=
    if delta + v.stop ≥ start then
      (if included v.toInterval then result ++ [v.id] else result,
        v.setCachedOffsets (delta + v.start) (delta + v.stop) cachedVersionId)
    else (result, v)

def searchForEditing (T : IntervalTree) (start stop : Int) : List Nat × IntervalTree :=
  T.traverse (overlapVisitor start stop 0 fun _ => true) []

/-- The nodes that the filters of a search let through. -/
def isIncluded (filterOwnerId : Nat) (filterOutValidation onlyMarginDecorations : Bool) (i : Interval) : Bool :=
  !(filterOwnerId ≠ 0 && i.ownerId ≠ 0 && i.ownerId ≠ filterOwnerId) &&
    !(filterOutValidation && i.isForValidation) && !(onlyMarginDecorations && !i.isInGlyphMargin)

def intervalSearch (T : IntervalTree) (intervalStart intervalEnd : Int) (filterOwnerId : Nat)
    (filterOutValidation : Bool) (cachedVersionId : Nat) (onlyMarginDecorations : Bool) : List Nat × IntervalTree :=
  T.traverse (overlapVisitor intervalStart intervalEnd cachedVersionId
    (isIncluded filterOwnerId filterOutValidation onlyMarginDecorations)) []

def search (T : IntervalTree) (filterOwnerId : Nat) (filterOutValidation : Bool) (cachedVersionId : Nat)
    (onlyMarginDecorations : Bool) : List Nat × IntervalTree :=
  T.traverse
    { visit := fun delta result v =>
        (if isIncluded filterOwnerId filterOutValidation onlyMarginDecorations v.toInterval then
          result ++ [v.id] else result,
          v.setCachedOffsets (delta + v.start) (delta + v.stop) cachedVersionId) } []

def getAllInOrder (T : IntervalTree) : List Nat × IntervalTree := search T 0 false 0 false

def collectNodesFromOwner (T : IntervalTree) (ownerId : Nat) : List Nat × IntervalTree :=
  T.traverse { visit := fun _ result v => (if v.ownerId = ownerId then result ++ [v.id] else result, v) } []

def collectNodesPostOrder (T : IntervalTree) : List Nat × IntervalTree :=
  let r := postOrderLoop T.sentinelIsVisited [] T.root []
  (r.2.1, { T with root := setNodeIsVisited false r.1, sentinelIsVisited := r.2.2 && !r.1.isNil })

namespace IntervalTree

def intervalSearch (T : IntervalTree) (start stop : Int) (filterOwnerId : Nat) (filterOutValidation : Bool)
    (cachedVersionId : Nat) (onlyMarginDecorations : Bool) : List Nat × IntervalTree :=
  if T.root.isNil then ([], T)
  else Editor.intervalSearch T start stop filterOwnerId filterOutValidation cachedVersionId onlyMarginDecorations

def search (T : IntervalTree) (filterOwnerId : Nat) (filterOutValidation : Bool) (cachedVersionId : Nat)
    (onlyMarginDecorations : Bool) : List Nat × IntervalTree :=
  if T.root.isNil then ([], T)
  else Editor.search T filterOwnerId filterOutValidation cachedVersionId onlyMarginDecorations

end IntervalTree

/-! ## Traversals of a right tree -/

variable {e : Bool}

theorem noMarks_of_good (t : Tree IntervalNode) : (intervalAugment e).Good t → NoMarks t := by
  induction t with
  | nil => intro _; trivial
  | node c l v r ihl ihr =>
    rintro ⟨hv, hl, hr⟩
    exact ⟨hv.1, ihl hl, ihr hr⟩

/-- The state of the tree between two operations: the tree is right and nothing is marked. -/
structure TreeOk (e : Bool) (T : IntervalTree) : Prop where
  ok : Ok e T.root
  sentinel : T.sentinelIsVisited = false

variable {T : IntervalTree}

theorem TreeOk.noMarks (h : TreeOk e T) : NoMarks T.root := noMarks_of_good _ h.ok.good

theorem traverse_eq (h : TreeOk e T) (V : Visitor γ) (acc : γ) :
    T.traverse V acc = ((V.walk 0 acc T.root).1, { T with root := (V.walk 0 acc T.root).2 }) := by
  have hloop := inOrderLoop_root V h.noMarks acc
  simp only [Prod.mk.injEq] at hloop
  obtain ⟨h1, h2, h3⟩ := hloop
  unfold IntervalTree.traverse
  rw [h.sentinel]
  simp only [h1, h2, h3, Bool.false_and]

theorem entries_normalized (t : Tree IntervalNode) : ∀ d : Int, entries 0 (normalized d t) = entries d t := by
  induction t with
  | nil => intro d; rfl
  | node c l v r ihl ihr =>
    intro d
    have hentry := entry_move 0 d v
    rw [Int.zero_add] at hentry
    simp only [normalized, entries, recomputeMaxEnd, Int.add_zero, ihl, ihr, ← hentry]
    rfl

theorem normalized_erase (t : Tree IntervalNode) : ∀ d : Int, (normalized d t).erase = t.erase := by
  induction t with
  | nil => intro d; rfl
  | node c l v r ihl ihr => intro d; simp only [normalized, Tree.erase, ihl, ihr]

theorem normalized_good (t : Tree IntervalNode) : ∀ d : Int, (intervalAugment e).Good t →
    (intervalAugment e).Good (normalized d t) := by
  induction t with
  | nil => intro d _; trivial
  | node c l v r ihl ihr =>
    rintro d ⟨hv, hl, hr⟩
    refine ⟨?_, ihl d hl, ihr _ hr⟩
    have hle : (v.move d).start ≤ (v.move d).stop := by
      have := hv.2.1
      simp only [IntervalNode.move]
      omega
    exact local_recomputeMaxEnd (v := { v.move d with delta := 0, isVisited := false }) _ _ rfl hle

theorem normalizeDeltaIfNecessary_spec (h : TreeOk e T) :
    TreeOk e (normalizeDeltaIfNecessary T) ∧
      entries 0 (normalizeDeltaIfNecessary T).root = entries 0 T.root := by
  unfold normalizeDeltaIfNecessary
  split
  · exact ⟨h, rfl⟩
  · have hloop := normalizeLoop_root h.noMarks
    simp only [Prod.mk.injEq] at hloop
    unfold normalizeDelta
    simp only [h.sentinel, hloop.1, hloop.2, Bool.false_and]
    obtain ⟨n, hn⟩ := h.ok.redBlack
    have hentries := entries_normalized T.root 0
    refine ⟨⟨⟨⟨n, hn.congr (normalized_erase _ _)⟩, normalized_good _ _ h.ok.good, ?_⟩, rfl⟩, hentries⟩
    rw [hentries]
    exact h.ok.sorted

/-! ## Searches -/

/-- A visitor that changes nothing but cached offsets. -/
structure Visitor.Reads (V : Visitor γ) : Prop where
  recompute : V.recompute = false
  skip : ∀ acc v, (V.skip acc v).2 = v
  visit : ∀ d acc v, (V.visit d acc v).2 = v ∨ ∃ a b n, (V.visit d acc v).2 = v.setCachedOffsets a b n

/-- Trees that differ in cached offsets. -/
inductive SameButCached : Tree IntervalNode → Tree IntervalNode → Prop
  | nil : SameButCached .nil .nil
  | node {l l' r r' : Tree IntervalNode} (c : Color) (v : IntervalNode) (a b : Int) (n : Nat) :
    SameButCached l l' → SameButCached r r' →
      SameButCached (.node c l v r) (.node c l' (v.setCachedOffsets a b n) r')

theorem SameButCached.refl (t : Tree IntervalNode) : SameButCached t t := by
  induction t with
  | nil => exact .nil
  | node c l v r ihl ihr =>
    exact .node c v v.cachedAbsoluteStart v.cachedAbsoluteEnd v.cachedVersionId ihl ihr

section SameButCached

variable {t t' : Tree IntervalNode}

section

variable (h : SameButCached t t')
include h

theorem SameButCached.erase : t'.erase = t.erase := by
  induction h with
  | nil => rfl
  | node c v a b n _ _ ihl ihr => simp only [Tree.erase, ihl, ihr]

theorem SameButCached.rootMaxEnd : rootMaxEnd t' = rootMaxEnd t := by
  cases h <;> rfl

theorem SameButCached.good (hg : (intervalAugment e).Good t) :
    (intervalAugment e).Good t' := by
  induction h with
  | nil => trivial
  | node c v a b n hl hr ihl ihr =>
    obtain ⟨hv, hgl, hgr⟩ := hg
    refine ⟨?_, ihl hgl, ihr hgr⟩
    obtain ⟨h1, h2, h3⟩ := hv
    rw [fold_fst, fold_fst, ← hl.rootMaxEnd, ← hr.rootMaxEnd] at h3
    refine ⟨h1, h2, ?_⟩
    rw [fold_fst, fold_fst]
    exact h3

theorem SameButCached.intervals :
    ∀ d : Int, (entries d t').map Entry.interval = (entries d t).map Entry.interval := by
  induction h with
  | nil => intro d; rfl
  | node c v a b n hl hr ihl ihr =>
    intro d
    simp only [entries, map_append, map_cons, ihl d]
    rw [show (v.setCachedOffsets a b n).delta = v.delta from rfl, ihr (d + v.delta)]
    rfl

end

end SameButCached

theorem sorted_iff (l : List Entry) : l.Pairwise Entry.Le ↔ (l.map Entry.interval).Pairwise Interval.Le := by
  rw [pairwise_map]
  exact Iff.rfl

theorem Ok.sameButCached {t t' : Tree IntervalNode} (h : Ok e t) (hs : SameButCached t t') : Ok e t' := by
  obtain ⟨n, hn⟩ := h.redBlack
  refine ⟨⟨n, hn.congr hs.erase⟩, hs.good h.good, ?_⟩
  rw [sorted_iff, hs.intervals, ← sorted_iff]
  exact h.sorted

theorem Visitor.Reads.walk {V : Visitor γ} (hV : V.Reads) (t : Tree IntervalNode) : ∀ (d : Int) (acc : γ),
    NoMarks t → SameButCached t (V.walk d acc t).2 := by
  induction t with
  | nil => intro d acc _; exact .nil
  | node c l v r ihl ihr =>
    rintro d acc ⟨hv, hl, hr⟩
    have hleave : ∀ l v r, V.leave l v r = v := by
      intro l v r
      rw [Visitor.leave, hV.recompute]
      rfl
    have hkeep : ∀ {l' r' : Tree IntervalNode}, SameButCached l l' → SameButCached r r' →
        SameButCached (.node c l v r) (.node c l' { v with isVisited := false } r') := by
      intro l' r' hl hr
      have := SameButCached.node c v v.cachedAbsoluteStart v.cachedAbsoluteEnd v.cachedVersionId hl hr
      rw [← hv]
      exact this
    unfold Visitor.walk
    simp only [hleave, hV.skip]
    split
    · exact hkeep (.refl l) (.refl r)
    · split
      · exact hkeep (ihl d acc hl) (.refl r)
      · rcases hV.visit d (V.walk d acc l).1 v with h | ⟨a, b, n, h⟩
        · rw [h]
          exact hkeep (ihl d acc hl) (ihr _ _ hr)
        · rw [h]
          have := SameButCached.node c v a b n (ihl d acc hl) (ihr (d + v.delta) (V.visit d (V.walk d acc l).1 v).1 hr)
          simp only [IntervalNode.setCachedOffsets, hv] at this ⊢
          exact this

theorem traverse_reads (h : TreeOk e T) {V : Visitor γ} (hV : V.Reads) (acc : γ) :
    TreeOk e (T.traverse V acc).2 ∧
      (entries 0 (T.traverse V acc).2.root).map Entry.interval = (entries 0 T.root).map Entry.interval := by
  have hwalk := hV.walk T.root 0 acc h.noMarks
  rw [traverse_eq h]
  exact ⟨⟨h.ok.sameButCached hwalk, h.sentinel⟩, hwalk.intervals 0⟩

theorem stop_le_maxEnd (t : Tree IntervalNode) : (intervalAugment e).Good t → ∀ (d : Int), ∀ i ∈ entries d t,
    i.interval.start ≤ i.interval.stop ∧ ∃ m, rootMaxEnd t = some m ∧ i.interval.stop ≤ d + m := by
  induction t with
  | nil => intro _ d i hi; cases hi
  | node c l v r ihl ihr =>
    rintro ⟨⟨-, hle, hmax, -⟩, hgl, hgr⟩ d i hi
    rw [fold_fst, fold_fst] at hmax
    refine ⟨?_, v.maxEnd, rfl, ?_⟩
    · rcases mem_append.mp hi with hi | hi
      · exact (ihl hgl d i hi).1
      · rcases mem_cons.mp hi with rfl | hi
        · simp only [IntervalNode.entry, Interval.shift]
          omega
        · exact (ihr hgr _ i hi).1
    · unfold maxOf at hmax
      rcases mem_append.mp hi with hi | hi
      · obtain ⟨-, m, hm, hi⟩ := ihl hgl d i hi
        rw [hm] at hmax
        simp only [Option.getD] at hmax
        omega
      · rcases mem_cons.mp hi with rfl | hi
        · simp only [IntervalNode.entry, Interval.shift]
          omega
        · obtain ⟨-, m, hm, hi⟩ := ihr hgr _ i hi
          rw [hm] at hmax
          simp only [Option.getD, Option.map] at hmax
          omega

variable {v : IntervalNode}

/-- What starts behind a node that starts behind `stop` starts behind `stop`. -/
theorem start_gt_of_sorted {d stop : Int} {c : Color} {l r : Tree IntervalNode}
    (hs : (entries d (.node c l v r)).Pairwise Entry.Le) (hv : d + v.start > stop) :
    ∀ i ∈ v.entry d :: entries (d + v.delta) r, i.interval.start > stop := by
  intro i hi
  rcases mem_cons.mp hi with rfl | hi
  · simp only [IntervalNode.entry, Interval.shift]
    omega
  · have hle := (pairwise_cons.mp (pairwise_append.mp hs).2.1).1 i hi
    simp only [Entry.Le, Interval.Le, IntervalNode.entry, Interval.shift] at hle
    omega

def Interval.overlaps (start stop : Int) (i : Interval) : Bool := i.start ≤ stop && i.stop ≥ start

/-- The entry with its interval in the cached offsets. -/
def Entry.remember (i : Entry) : Entry :=
  { i with cachedAbsoluteStart := i.interval.start, cachedAbsoluteEnd := i.interval.stop }

def touched (start stop : Int) (i : Entry) : Entry := if i.interval.overlaps start stop then i.remember else i

section Overlap

variable {start stop : Int}

/-- The nodes a search collects. -/
def collected (start stop : Int) (included : Interval → Bool) (l : List Entry) : List Nat :=
  (l.filter fun i => i.interval.overlaps start stop && included i.interval).map fun i => i.interval.id

theorem collected_append (start stop : Int) (included : Interval → Bool) (l1 l2 : List Entry) :
    collected start stop included (l1 ++ l2) = collected start stop included l1 ++ collected start stop included l2 := by
  simp [collected]

theorem touched_of_none {included : Interval → Bool} {l : List Entry}
    (h : ∀ i ∈ l, i.interval.overlaps start stop = false) :
    l.map (touched start stop) = l ∧ collected start stop included l = [] := by
  constructor
  · have hmap : l.map (touched start stop) = l.map id := by
      apply map_congr_left
      intro i hi
      rw [touched, h i hi]
      rfl
    rw [hmap, List.map_id]
  · rw [collected, map_eq_nil_iff, filter_eq_nil_iff]
    intro i hi
    rw [h i hi]
    exact Bool.false_ne_true

theorem overlaps_of_start {i : Interval} (h : i.start > stop) : i.overlaps start stop = false := by
  simp only [Interval.overlaps, Bool.and_eq_false_iff, decide_eq_false_iff_not]
  omega

theorem overlaps_of_stop {i : Interval} (h : i.stop < start) : i.overlaps start stop = false := by
  simp only [Interval.overlaps, Bool.and_eq_false_iff, decide_eq_false_iff_not]
  omega

theorem pairwise_node {d : Int} {c : Color} {l r : Tree IntervalNode} (h : (entries d (.node c l v r)).Pairwise Entry.Le) :
    (entries d l).Pairwise Entry.Le ∧ (entries (d + v.delta) r).Pairwise Entry.Le := by
  rw [entries, pairwise_append, pairwise_cons] at h
  exact ⟨h.1, h.2.1.2⟩

theorem visit_overlapVisitor (version : Nat) {included : Interval → Bool}
    (hinc : ∀ (d : Int) i, included (i.shift d) = included i) {d : Int} (hstart : d + v.start ≤ stop) (acc : List Nat) :
    let s := (overlapVisitor start stop version included).visit d acc v
    s.2.entry d = touched start stop (v.entry d) ∧ s.2.delta = v.delta ∧
      s.1 = acc ++ collected start stop included [v.entry d] := by
  have hoverlaps : (v.entry d).interval.overlaps start stop = decide (d + v.stop ≥ start) := by
    have hle : v.start + d ≤ stop := by omega
    simp only [Interval.overlaps, IntervalNode.entry, Interval.shift, hle, decide_true, Bool.true_and,
      Int.add_comm v.stop d]
  have hincluded : included (v.entry d).interval = included v.toInterval := hinc d v.toInterval
  simp only [overlapVisitor, collected, touched, hoverlaps]
  split
  · next h =>
    refine ⟨?_, rfl, ?_⟩
    · rw [if_pos (decide_eq_true h)]
      simp only [IntervalNode.entry, IntervalNode.setCachedOffsets, Entry.remember, Interval.shift, Int.add_comm d]
    · rw [filter_cons, hoverlaps, hincluded, decide_eq_true h]
      cases included v.toInterval <;> simp [IntervalNode.entry, Interval.shift]
  · next h =>
    refine ⟨by simp [h], rfl, ?_⟩
    rw [filter_cons, hoverlaps, decide_eq_false h]
    simp

theorem walk_overlapVisitor (start stop : Int) (version : Nat) (included : Interval → Bool)
    (hinc : ∀ (d : Int) i, included (i.shift d) = included i) (t : Tree IntervalNode) :
    ∀ (d : Int) (acc : List Nat), (intervalAugment e).Good t → (entries d t).Pairwise Entry.Le →
      entries d ((overlapVisitor start stop version included).walk d acc t).2 =
        (entries d t).map (touched start stop) ∧
      ((overlapVisitor start stop version included).walk d acc t).1 =
        acc ++ collected start stop included (entries d t) := by
  induction t with
  | nil => intro d acc _ _; simp [Visitor.walk, entries, collected]
  | node c l v r ihl ihr =>
    intro d acc hg hs
    obtain ⟨hsl, hsr⟩ := pairwise_node hs
    obtain ⟨hl, hlacc⟩ := ihl d acc hg.2.1 hsl
    have hleave : ∀ l v r, (overlapVisitor start stop version included).leave l v r = v := fun l v r => rfl
    have hentry : entries d (.node c l v r) = entries d l ++ ([v.entry d] ++ entries (d + v.delta) r) := rfl
    unfold Visitor.walk
    simp only [hleave]
    split
    · next hprune =>
      -- the whole subtree ends in front of the interval
      have hnone : ∀ i ∈ entries d (.node c l v r), i.interval.overlaps start stop = false := by
        intro i hi
        obtain ⟨-, m, hm, hle⟩ := stop_le_maxEnd _ hg d i hi
        cases hm
        have : d + v.maxEnd < start := of_decide_eq_true hprune
        apply overlaps_of_stop
        omega
      obtain ⟨hmap, hcol⟩ := touched_of_none hnone
      rw [hmap, hcol, append_nil]
      exact ⟨rfl, rfl⟩
    · split
      · next hstop =>
        -- the node and its right subtree start behind the interval
        have hnone : ∀ i ∈ [v.entry d] ++ entries (d + v.delta) r, i.interval.overlaps start stop = false := by
          intro i hi
          exact overlaps_of_start (start_gt_of_sorted hs (of_decide_eq_true hstop) i hi)
        obtain ⟨hmap, hcol⟩ := touched_of_none hnone
        rw [hentry, map_append, collected_append, hmap, hcol, append_nil, ← hl]
        exact ⟨rfl, hlacc⟩
      · next hstop =>
        have hstart : d + v.start ≤ stop := by
          have : ¬ d + v.start > stop := fun h => hstop (decide_eq_true h)
          omega
        obtain ⟨hv, hdelta, hvacc⟩ := visit_overlapVisitor version hinc hstart
          ((overlapVisitor start stop version included).walk d acc l).1
        obtain ⟨hr, hracc⟩ := ihr (d + v.delta)
          ((overlapVisitor start stop version included).visit d
            ((overlapVisitor start stop version included).walk d acc l).1 v).1 hg.2.2 hsr
        rw [hentry, map_append, map_append, collected_append, collected_append, ← hl, ← hr,
          map_singleton, ← hv]
        refine ⟨?_, ?_⟩
        · simp only [hdelta, entries]
          rfl
        · simp only [hdelta]
          rw [hracc, hvacc, hlacc, append_assoc, append_assoc]

end Overlap

theorem overlapVisitor_reads (start stop : Int) (version : Nat) (included : Interval → Bool) :
    (overlapVisitor start stop version included).Reads where
  recompute := rfl
  skip _ _ := rfl
  visit d acc v := by
    unfold overlapVisitor
    dsimp only
    split
    · exact .inr ⟨_, _, _, rfl⟩
    · exact .inl rfl

theorem search_reads (filterOwnerId : Nat) (filterOutValidation : Bool) (version : Nat) (margin : Bool) (h : TreeOk e T) :
    TreeOk e (search T filterOwnerId filterOutValidation version margin).2 ∧
      (entries 0 (search T filterOwnerId filterOutValidation version margin).2.root).map Entry.interval =
        (entries 0 T.root).map Entry.interval :=
  traverse_reads h ⟨rfl, fun _ _ => rfl, fun _ _ _ => .inr ⟨_, _, _, rfl⟩⟩ []

theorem searchForEditing_spec (h : TreeOk e T) (start stop : Int) :
    TreeOk e (searchForEditing T start stop).2 ∧
      entries 0 (searchForEditing T start stop).2.root = (entries 0 T.root).map (touched start stop) ∧
      (searchForEditing T start stop).1 =
        ((entries 0 T.root).filter fun i => i.interval.overlaps start stop).map fun i => i.interval.id := by
  obtain ⟨hwalk, hids⟩ := walk_overlapVisitor start stop 0 (fun _ => true) (fun _ _ => rfl) T.root 0 []
    h.ok.good h.ok.sorted
  have hreads := (traverse_reads h (overlapVisitor_reads start stop 0 fun _ => true) []).1
  unfold searchForEditing
  rw [traverse_eq h] at hreads ⊢
  refine ⟨hreads, hwalk, ?_⟩
  rw [hids, nil_append, collected]
  simp

end TongjiCode.Editor
