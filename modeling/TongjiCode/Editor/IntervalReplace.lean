import Mathlib.Data.List.Nodup
import TongjiCode.Editor.IntervalSearch

/-!
# Interval tree: edits

`acceptReplace` takes the nodes that touch an edit out of the tree, moves the others through the deltas
and puts the first ones back.  `nodeAcceptEdit` says what an edit does to one decoration, and
`acceptReplace_spec` says that the whole tree changes in the same way, node by node.
-/

open List

namespace TongjiCode.Editor

open TongjiCode.Tree

/-! ## Algorithm -/

/-- Move what starts behind an edit; the state is `requestNormalizeDelta`. -/
def noOverlapVisitor (start stop editDelta : Int) : Visitor Bool where
  prune delta v := delta + v.maxEnd < start
  stop delta v := delta + v.start > stop
  skip request v :=
    let v := { v.move editDelta with delta := v.delta + editDelta }
    (request || unsafeDelta v.delta, v)
  visit _ request v := (request, v)
  recompute := true

def noOverlapReplace (T : IntervalTree) (start stop textLength : Int) : IntervalTree :=
  let editDelta := textLength - (stop - start)
  let r := T.traverse (noOverlapVisitor start stop editDelta) T.requestNormalizeDelta
  { r.2 with requestNormalizeDelta := r.1 }

inductive MarkerMoveSemantics where
  | markerDefined
  | forceMove
  | forceStay
  deriving Repr, DecidableEq

def adjustMarkerBeforeColumn (markerOffset : Int) (markerStickToPreviousCharacter : Bool) (checkOffset : Int)
    (moveSemantics : MarkerMoveSemantics) : Bool :=
  if markerOffset < checkOffset then true
  else if markerOffset > checkOffset then false
  else match moveSemantics with
    | .forceMove => false
    | .forceStay => true
    | .markerDefined => markerStickToPreviousCharacter

/-- The steps of `nodeAcceptEdit` for one end of a decoration that does not collapse; they are the same
for both ends. -/
def moveMarker (marker : Int) (stickToPreviousCharacter : Bool) (start stop textLength : Int)
    (forceMoveMarkers : Bool) : Int :=
  let deletingCnt := stop - start
  let insertingCnt := textLength
  let commonLength := min deletingCnt insertingCnt
  let before checkOffset moveSemantics :=
    adjustMarkerBeforeColumn marker stickToPreviousCharacter checkOffset moveSemantics
  if before start (if forceMoveMarkers then .forceMove
      else if deletingCnt > 0 then .forceStay else .markerDefined) then marker
  else if commonLength > 0 && !forceMoveMarkers && before (start + commonLength)
      (if deletingCnt > insertingCnt then .forceStay else .markerDefined) then marker
  else if before stop (if forceMoveMarkers then .forceMove else .markerDefined) then start + insertingCnt
  else max 0 (marker + (insertingCnt - deletingCnt))

def nodeAcceptEdit (start stop textLength : Int) (forceMoveMarkers : Bool) (node : Interval) : Interval :=
  let startStickToPreviousCharacter : Bool := node.stickiness = .alwaysGrowsWhenTypingAtEdges ∨
    node.stickiness = .growsOnlyWhenTypingBefore
  let endStickToPreviousCharacter : Bool := node.stickiness = .neverGrowsWhenTypingAtEdges ∨
    node.stickiness = .growsOnlyWhenTypingBefore
  let collapses : Bool := start ≤ node.start && node.stop ≤ stop && node.collapseOnReplaceEdit
  let nodeStart := if collapses then start
    else moveMarker node.start startStickToPreviousCharacter start stop textLength forceMoveMarkers
  let nodeEnd := if collapses then start
    else moveMarker node.stop endStickToPreviousCharacter start stop textLength forceMoveMarkers
  { node with start := nodeStart, stop := if nodeStart > nodeEnd then nodeStart else nodeEnd }

def takeNode (T : IntervalTree) (id : Nat) : Option (IntervalNode × IntervalTree) :=
  (T.root.locate (fun v => v.id == id) []).map fun z => (z.val, rbTreeDelete T z)

def takeNodes : List Nat → IntervalTree → List IntervalNode × IntervalTree
  | [], T => ([], T)
  | id :: ids, T =>
    match takeNode T id with
    | none => takeNodes ids T
    | some r =>
      let rest := takeNodes ids r.2
      (r.1 :: rest.1, rest.2)

/-- What happens to a node of interest before it is put back. -/
def editNode (start stop textLength : Int) (forceMoveMarkers : Bool) (node : IntervalNode) : IntervalNode :=
  let interval := nodeAcceptEdit start stop textLength forceMoveMarkers
    { node.toInterval with start := node.cachedAbsoluteStart, stop := node.cachedAbsoluteEnd }
  { node with toInterval := interval, maxEnd := interval.stop }

namespace IntervalTree

def insert (T : IntervalTree) (node : IntervalNode) : IntervalTree :=
  normalizeDeltaIfNecessary (rbTreeInsert T node)

def delete (T : IntervalTree) (node : Loc IntervalNode) : IntervalTree :=
  normalizeDeltaIfNecessary (rbTreeDelete T node)

/-- The sum of the deltas on the way from a node to the root goes into its cached offsets. -/
def resolveNode (T : IntervalTree) (node : Loc IntervalNode) (cachedVersionId : Nat) : IntervalTree :=
  let delta := holeDelta node.path
  { T with root := Path.plug node.path (.node node.color node.left
      (node.val.setCachedOffsets (node.val.start + delta) (node.val.stop + delta) cachedVersionId) node.right) }

def acceptReplace (T : IntervalTree) (offset length textLength : Nat) (forceMoveMarkers : Bool) : IntervalTree :=
  -- (1) collect all nodes that are intersecting this edit as nodes of interest
  let nodesOfInterest := searchForEditing T offset (offset + length)
  -- (2) remove all nodes that are intersecting this edit
  let taken := takeNodes nodesOfInterest.1 nodesOfInterest.2
  let T := normalizeDeltaIfNecessary taken.2
  -- (3) edit all tree nodes except the nodes of interest
  let T := noOverlapReplace T offset (offset + length) textLength
  let T := normalizeDeltaIfNecessary T
  -- (4) edit the nodes of interest and insert them back in the tree
  let T := (taken.1.map (editNode offset (offset + length) textLength forceMoveMarkers)).foldl rbTreeInsert T
  normalizeDeltaIfNecessary T

end IntervalTree

variable {e : Bool}

/-! ## Moving what is behind an edit -/

def shiftedBehind (stop editDelta : Int) (i : Entry) : Entry :=
  if i.interval.start > stop then { i with interval := i.interval.shift editDelta } else i

variable {l : List Entry} {T : IntervalTree} {start stop textLength : Int}

section NoOverlap

variable {start stop editDelta : Int}

theorem entries_shift (t : Tree IntervalNode) : ∀ d : Int, entries (d + editDelta) t =
    (entries d t).map fun i => { i with interval := i.interval.shift editDelta } := by
  induction t with
  | nil => intro d; rfl
  | node c l v r ihl ihr =>
    intro d
    simp only [entries, map_append, map_cons, ihl]
    rw [show d + editDelta + v.delta = d + v.delta + editDelta by omega, ihr]
    simp only [IntervalNode.entry, Interval.shift, Int.add_assoc]

theorem map_shiftedBehind (h : ∀ i ∈ l, i.interval.start > stop) :
    l.map (shiftedBehind stop editDelta) = l.map fun i => { i with interval := i.interval.shift editDelta } := by
  apply map_congr_left
  intro i hi
  rw [shiftedBehind, if_pos (h i hi)]

theorem map_shiftedBehind_of_le (h : ∀ i ∈ l, i.interval.start ≤ stop) :
    l.map (shiftedBehind stop editDelta) = l := by
  have hmap : l.map (shiftedBehind stop editDelta) = l.map id := by
    apply map_congr_left
    intro i hi
    have := h i hi
    rw [shiftedBehind, if_neg (by omega)]
    rfl
  rw [hmap, List.map_id]

/-- The loop of `noOverlapReplace` moves exactly the intervals behind the edit. -/
theorem walk_noOverlapVisitor (editDelta : Int) (hedit : start ≤ stop) (t : Tree IntervalNode) :
    ∀ (d : Int) (acc : Bool), (intervalAugment e).Good t → (entries d t).Pairwise Entry.Le →
      let t' := ((noOverlapVisitor start stop editDelta).walk d acc t).2
      entries d t' = (entries d t).map (shiftedBehind stop editDelta) ∧ (intervalAugment e).Good t' ∧
        t'.erase = t.erase := by
  induction t with
  | nil => intro d acc _ _; exact ⟨rfl, trivial, rfl⟩
  | node c l v r ihl ihr =>
    intro d acc hg hs
    obtain ⟨hsl, hsr⟩ := pairwise_node hs
    obtain ⟨hl, hlg, hle⟩ := ihl d acc hg.2.1 hsl
    obtain ⟨hvis, hvle, -⟩ := hg.1
    have hleave : ∀ l v r, (noOverlapVisitor start stop editDelta).leave l v r = recomputeMaxEnd l v r :=
      fun l v r => rfl
    have hentry : entries d (.node c l v r) = entries d l ++ ([v.entry d] ++ entries (d + v.delta) r) := rfl
    unfold Visitor.walk
    simp only [hleave]
    split
    · next hprune =>
      have hnone : ∀ i ∈ entries d (.node c l v r), i.interval.start ≤ stop := by
        intro i hi
        obtain ⟨hile, m, hm, hle⟩ := stop_le_maxEnd _ hg d i hi
        cases hm
        have : d + v.maxEnd < start := of_decide_eq_true hprune
        omega
      rw [map_shiftedBehind_of_le hnone]
      exact ⟨rfl, ⟨local_recomputeMaxEnd (v := { v with isVisited := false }) l r rfl hvle, hg.2⟩, rfl⟩
    · split
      · next hstop =>
        have hbehind : ∀ i ∈ [v.entry d] ++ entries (d + v.delta) r, i.interval.start > stop :=
          start_gt_of_sorted hs (of_decide_eq_true hstop)
        rw [hentry, map_append, ← hl, map_shiftedBehind hbehind]
        refine ⟨?_, ⟨?_, hlg, hg.2.2⟩, ?_⟩
        · rw [map_append, ← entries_shift]
          simp only [entries, noOverlapVisitor, recomputeMaxEnd, append_cancel_left_eq, map_cons,
            map_nil, cons_append, nil_append]
          rw [show d + v.delta + editDelta = d + (v.delta + editDelta) by omega]
          congr 1
          simp only [IntervalNode.entry, IntervalNode.move, Interval.shift, Entry.mk.injEq, Interval.mk.injEq,
            true_and, and_true]
          omega
        · have hmove : (v.move editDelta).start ≤ (v.move editDelta).stop := by
            simp only [IntervalNode.move]
            omega
          exact local_recomputeMaxEnd
            (v := { v.move editDelta with delta := v.delta + editDelta, isVisited := false }) _ r rfl hmove
        · simp only [Tree.erase, hle]
      · next hstop =>
        have hstart : d + v.start ≤ stop := by
          have : ¬ d + v.start > stop := fun h => hstop (decide_eq_true h)
          omega
        obtain ⟨hr, hrg, hre⟩ := ihr (d + v.delta)
          ((noOverlapVisitor start stop editDelta).visit d
            ((noOverlapVisitor start stop editDelta).walk d acc l).1 v).1 hg.2.2 hsr
        have hv : shiftedBehind stop editDelta (v.entry d) = v.entry d := by
          rw [shiftedBehind, if_neg]
          simp only [IntervalNode.entry, Interval.shift]
          omega
        rw [hentry, map_append, map_append, ← hl, ← hr, map_singleton, hv]
        refine ⟨rfl, ⟨?_, hlg, hrg⟩, ?_⟩
        · exact local_recomputeMaxEnd (v := { v with isVisited := false }) _ _ rfl hvle
        · simp only [Tree.erase, hle]
          congr 1

/-- Where nothing overlaps the edit, the order stays. -/
theorem sorted_shiftedBehind (hs : l.Pairwise Entry.Le) (hle : ∀ i ∈ l, i.interval.start ≤ i.interval.stop)
    (hno : ∀ i ∈ l, i.interval.overlaps start stop = false) (hedit : start ≤ stop + editDelta) :
    (l.map (shiftedBehind stop editDelta)).Pairwise Entry.Le := by
  rw [pairwise_map]
  refine List.Pairwise.imp_of_mem ?_ hs
  intro a b ha hb hab
  have ha' := hno a ha
  have hale := hle a ha
  simp only [Interval.overlaps, Bool.and_eq_false_iff, decide_eq_false_iff_not] at ha'
  unfold Entry.Le Interval.Le at *
  unfold shiftedBehind
  split <;> split
  · simp only [Interval.shift]
    omega
  · omega
  · simp only [Interval.shift]
    omega
  · exact hab

theorem noOverlapReplace_spec (h : TreeOk e T) (hedit : start ≤ stop) (htext : 0 ≤ textLength)
    (hno : ∀ i ∈ entries 0 T.root, i.interval.overlaps start stop = false) :
    TreeOk e (noOverlapReplace T start stop textLength) ∧
      entries 0 (noOverlapReplace T start stop textLength).root =
        (entries 0 T.root).map (shiftedBehind stop (textLength - (stop - start))) := by
  obtain ⟨hlist, hgood, herase⟩ := walk_noOverlapVisitor (textLength - (stop - start)) hedit T.root 0
    T.requestNormalizeDelta h.ok.good h.ok.sorted
  unfold noOverlapReplace
  simp only [traverse_eq h]
  obtain ⟨n, hn⟩ := h.ok.redBlack
  refine ⟨⟨⟨⟨n, hn.congr herase⟩, hgood, ?_⟩, h.sentinel⟩, hlist⟩
  rw [hlist]
  exact sorted_shiftedBehind h.ok.sorted (fun i hi => (stop_le_maxEnd _ h.ok.good 0 i hi).1) hno (by omega)

end NoOverlap

/-! ## What an edit does to one decoration -/

section NodeAcceptEdit

variable {start stop textLength : Int}

variable {m : Int}

theorem adjustMarker_before {stick : Bool} {check : Int} {moves : MarkerMoveSemantics} (h : m < check) :
    adjustMarkerBeforeColumn m stick check moves = true := by
  unfold adjustMarkerBeforeColumn
  rw [if_pos h]

theorem adjustMarker_behind {stick : Bool} {check : Int} {moves : MarkerMoveSemantics} (h : check < m) :
    adjustMarkerBeforeColumn m stick check moves = false := by
  unfold adjustMarkerBeforeColumn
  rw [if_neg (by omega), if_pos h]

theorem moveMarker_before (stick : Bool) (force : Bool) (h : m < start) :
    moveMarker m stick start stop textLength force = m := by
  unfold moveMarker
  rw [if_pos (adjustMarker_before h)]

theorem moveMarker_behind (stick : Bool) (force : Bool) (hedit : start ≤ stop) (h0 : 0 ≤ start) (htext : 0 ≤ textLength)
    (h : stop < m) :
    moveMarker m stick start stop textLength force = m + (textLength - (stop - start)) := by
  have hmin : start + min (stop - start) textLength < m := by omega
  have hstart : start < m := by omega
  unfold moveMarker
  simp only [adjustMarker_behind hstart, adjustMarker_behind hmin, adjustMarker_behind h, Bool.false_eq_true,
    if_false, Bool.and_false]
  omega

theorem nodeAcceptEdit_before {i : Interval} (force : Bool) (hle : i.start ≤ i.stop) (h : i.stop < start) :
    nodeAcceptEdit start stop textLength force i = i := by
  have hcol : ¬ start ≤ i.start := by omega
  unfold nodeAcceptEdit
  simp only [moveMarker_before _ force h, moveMarker_before _ force (show i.start < start by omega), hcol,
    decide_false, Bool.false_and, Bool.false_eq_true, if_false]
  rw [if_neg (by omega)]

theorem nodeAcceptEdit_behind {i : Interval} (force : Bool) (hle : i.start ≤ i.stop) (hedit : start ≤ stop)
    (h0 : 0 ≤ start) (htext : 0 ≤ textLength) (h : stop < i.start) :
    nodeAcceptEdit start stop textLength force i = i.shift (textLength - (stop - start)) := by
  have hcol : ¬ i.stop ≤ stop := by omega
  unfold nodeAcceptEdit
  simp only [moveMarker_behind _ force hedit h0 htext h,
    moveMarker_behind _ force hedit h0 htext (show stop < i.stop by omega), hcol, decide_false, Bool.and_false,
    Bool.false_and, Bool.false_eq_true, if_false]
  rw [if_neg (by omega)]
  rfl

theorem nodeAcceptEdit_le (start stop textLength : Int) (force : Bool) (i : Interval) :
    (nodeAcceptEdit start stop textLength force i).start ≤ (nodeAcceptEdit start stop textLength force i).stop := by
  unfold nodeAcceptEdit
  dsimp only
  split <;> omega

end NodeAcceptEdit

/-! ## The whole edit -/

theorem rbTreeDelete_sentinel (T : IntervalTree) (z : Loc IntervalNode) :
    (rbTreeDelete T z).sentinelIsVisited = T.sentinelIsVisited := by
  unfold rbTreeDelete
  split
  · rfl
  · dsimp only
    split <;> rfl

theorem rbTreeInsert_sentinel (T : IntervalTree) (v : IntervalNode) :
    (rbTreeInsert T v).sentinelIsVisited = T.sentinelIsVisited := by
  unfold rbTreeInsert
  split <;> rfl

theorem entries_ids (t : Tree IntervalNode) : ∀ d : Int,
    (entries d t).map (fun i => i.interval.id) = t.toList.map (fun v => v.id) := by
  induction t with
  | nil => intro d; rfl
  | node c l v r ihl ihr => intro d; simp [entries, toList, ihl, ihr, IntervalNode.entry, Interval.shift]

/-- A node object: not marked, not reversed, and with a `maxEnd` that is not below its end. -/
structure NodeOk (v : IntervalNode) : Prop where
  isVisited : v.isVisited = false
  le : v.start ≤ v.stop
  maxEnd : v.stop ≤ v.maxEnd

theorem nodeOk_of_good {c : Color} {l r : Tree IntervalNode} {v : IntervalNode}
    (h : (intervalAugment e).Good (.node c l v r)) : NodeOk v := by
  obtain ⟨hv, hle, hmax, -⟩ := h.1
  refine ⟨hv, hle, ?_⟩
  unfold maxOf at hmax
  omega

def nodeIds (T : IntervalTree) : List Nat := (entries 0 T.root).map fun i => i.interval.id

theorem takeNode_spec (h : TreeOk e T) {id : Nat} (hid : id ∈ nodeIds T) :
    ∃ v T', takeNode T id = some (v, T') ∧ TreeOk e T' ∧ NodeOk v ∧ v.id = id ∧
      ∃ d l1 l2, entries 0 T.root = l1 ++ v.entry d :: l2 ∧ entries 0 T'.root = l1 ++ l2 := by
  rw [nodeIds, entries_ids, mem_map] at hid
  obtain ⟨w, hw, hwid⟩ := hid
  obtain ⟨z, hz⟩ : ∃ z, locate (fun v => v.id == id) T.root [] = some z :=
    locate_isSome T.root ⟨w, hw, by simpa using hwid⟩
  obtain ⟨hroot, hzid⟩ := locate_some T.root hz
  have hroot : z.root = T.root := hroot
  have hzok : Ok e z.root := by
    rw [hroot]
    exact h.ok
  obtain ⟨hok, l1, l2, hbefore, hafter⟩ := rbTreeDelete_spec T hzok
  refine ⟨z.val, rbTreeDelete T z, ?_, ⟨hok, ?_⟩, ?_, by simpa using hzid, holeDelta z.path, l1, l2, ?_, hafter⟩
  · rw [takeNode, hz]
    rfl
  · rw [rbTreeDelete_sentinel, h.sentinel]
  · have hgood := hzok.good
    rw [Loc.root, Augment.good_plug] at hgood
    exact nodeOk_of_good hgood.1
  · rw [← hroot]
    exact hbefore

theorem takeNodes_spec (ids : List Nat) : ∀ {T : IntervalTree}, TreeOk e T → ids.Nodup → (∀ id ∈ ids, id ∈ nodeIds T) →
    ∃ es : List Entry, TreeOk e (takeNodes ids T).2 ∧ es.map (fun i => i.interval.id) = ids ∧
      (entries 0 T.root).Perm (es ++ entries 0 (takeNodes ids T).2.root) ∧
      (∀ v ∈ (takeNodes ids T).1, NodeOk v) ∧
      List.Forall₂ (fun v i => ∃ d, v.entry d = i) (takeNodes ids T).1 es := by
  induction ids with
  | nil => intro T h _ _; exact ⟨[], h, rfl, .refl _, by simp [takeNodes], .nil⟩
  | cons id ids ih =>
    intro T h hnodup hmem
    obtain ⟨v, T', htake, hT', hv, hvid, d, l1, l2, hbefore, hafter⟩ := takeNode_spec h (hmem id (by simp))
    rw [nodup_cons] at hnodup
    have hmem' : ∀ i ∈ ids, i ∈ nodeIds T' := by
      intro i hi
      have hiT := hmem i (mem_cons_of_mem _ hi)
      have hne : i ≠ id := by
        rintro rfl
        exact hnodup.1 hi
      rw [nodeIds, hbefore, map_append, mem_append, map_cons, mem_cons] at hiT
      rw [nodeIds, hafter, map_append, mem_append]
      rcases hiT with hi | hi | hi
      · exact .inl hi
      · exact absurd (hi.trans hvid) hne
      · exact .inr hi
    obtain ⟨es, hok, hes, hperm, hnodes, hentries⟩ := ih hT' hnodup.2 hmem'
    simp only [takeNodes, htake]
    refine ⟨v.entry d :: es, hok, ?_, ?_, forall_mem_cons.mpr ⟨hv, hnodes⟩, .cons ⟨d, rfl⟩ hentries⟩
    · rw [map_cons, hes]
      exact congrArg (· :: ids) hvid
    · rw [hbefore]
      refine perm_middle.trans (List.Perm.cons _ ?_)
      rw [← hafter]
      exact hperm

theorem insertAll_spec (nodes : List IntervalNode) : ∀ {T : IntervalTree}, TreeOk e T →
    (∀ v ∈ nodes, NodeOk v ∧ Bounds e v.maxEnd v.stop) →
    TreeOk e (nodes.foldl rbTreeInsert T) ∧
      (entries 0 (nodes.foldl rbTreeInsert T).root).Perm (nodes.map (IntervalNode.entry 0) ++ entries 0 T.root) := by
  induction nodes with
  | nil => intro T h _; exact ⟨h, .refl _⟩
  | cons v nodes ih =>
    intro T h hnodes
    obtain ⟨hv, hmax⟩ := hnodes v (by simp)
    obtain ⟨hok, l1, l2, hbefore, hafter⟩ := rbTreeInsert_spec h.ok hv.isVisited hv.le hmax
    have hok' : TreeOk e (rbTreeInsert T v) := ⟨hok, by rw [rbTreeInsert_sentinel, h.sentinel]⟩
    obtain ⟨hrest, hperm⟩ := ih hok' fun w hw => hnodes w (mem_cons_of_mem _ hw)
    refine ⟨hrest, ?_⟩
    have hone : (entries 0 (rbTreeInsert T v).root).Perm (v.entry 0 :: entries 0 T.root) := by
      rw [hafter, hbefore]
      exact perm_middle
    exact hperm.trans ((hone.append_left _).trans perm_middle)

/-- Which entries were taken out, when the ids say so and are unique. -/
theorem taken_iff {l es rest : List Entry} {p : Entry → Bool} (hnodup : (l.map fun i => i.interval.id).Nodup)
    (hperm : l.Perm (es ++ rest))
    (hids : es.map (fun i => i.interval.id) = (l.filter p).map fun i => i.interval.id) :
    (∀ i ∈ es, p i = true) ∧ ∀ i ∈ rest, p i = false := by
  have hinj := inj_on_of_nodup_map hnodup
  have hnodup' : ((es ++ rest).map fun i => i.interval.id).Nodup := (hperm.map _).nodup_iff.mp hnodup
  rw [map_append, nodup_append] at hnodup'
  constructor
  · intro i hi
    have hmem : i.interval.id ∈ (l.filter p).map fun i => i.interval.id := by
      rw [← hids]
      exact mem_map_of_mem hi
    obtain ⟨j, hj, hij⟩ := mem_map.mp hmem
    obtain ⟨hjl, hpj⟩ := mem_filter.mp hj
    have hil : i ∈ l := hperm.mem_iff.mpr (mem_append_left _ hi)
    rw [← hinj hjl hil hij]
    exact hpj
  · intro i hi
    by_contra hpi
    rw [Bool.not_eq_false] at hpi
    have hil : i ∈ l := hperm.mem_iff.mpr (mem_append_right _ hi)
    have hmem : i.interval.id ∈ es.map fun i => i.interval.id := by
      rw [hids]
      exact mem_map_of_mem (mem_filter.mpr ⟨hil, hpi⟩)
    exact hnodup'.2.2 _ hmem _ (mem_map_of_mem hi) rfl

def absolute (T : IntervalTree) : List Interval := (entries 0 T.root).map Entry.interval

def Entry.cached (i : Entry) : Interval :=
  { i.interval with start := i.cachedAbsoluteStart, stop := i.cachedAbsoluteEnd }

theorem editNode_entry (start stop textLength : Int) (force : Bool) (v : IntervalNode) (d : Int) :
    ((editNode start stop textLength force v).entry 0).interval =
      nodeAcceptEdit start stop textLength force (v.entry d).cached := by
  simp only [IntervalNode.entry, editNode, shift_zero]
  rfl

theorem editNode_ok (start stop textLength : Int) (force : Bool) {v : IntervalNode} (h : NodeOk v) :
    NodeOk (editNode start stop textLength force v) ∧
      Bounds e (editNode start stop textLength force v).maxEnd (editNode start stop textLength force v).stop :=
  ⟨⟨h.isVisited, nodeAcceptEdit_le _ _ _ _ _, Int.le_refl _⟩, bounds_refl _⟩

theorem touched_interval (start stop : Int) (i : Entry) : (touched start stop i).interval = i.interval := by
  unfold touched
  split <;> rfl

theorem touched_cached {i : Entry} (h : i.interval.overlaps start stop = true) :
    (touched start stop i).cached = i.interval := by
  rw [touched, if_pos h]
  rfl

theorem map_editNode {force : Bool} {nodes : List IntervalNode} {es : List Entry}
    (hnodes : List.Forall₂ (fun v i => ∃ d, v.entry d = i) nodes es) (hes : ∀ i ∈ es, i.cached = i.interval) :
    ((nodes.map (editNode start stop textLength force)).map (IntervalNode.entry 0)).map Entry.interval =
      (es.map Entry.interval).map (nodeAcceptEdit start stop textLength force) := by
  induction hnodes with
  | nil => rfl
  | @cons v i nodes es hv _ ih =>
    obtain ⟨d, hd⟩ := hv
    simp only [map_cons]
    rw [ih fun j hj => hes j (mem_cons_of_mem _ hj), editNode_entry start stop textLength force v d, hd,
      hes i (by simp)]

theorem map_shiftedBehind_eq (force : Bool) (hedit : start ≤ stop) (h0 : 0 ≤ start) (htext : 0 ≤ textLength)
    (hle : ∀ i ∈ l, i.interval.start ≤ i.interval.stop) (hno : ∀ i ∈ l, i.interval.overlaps start stop = false) :
    (l.map (shiftedBehind stop (textLength - (stop - start)))).map Entry.interval =
      (l.map Entry.interval).map (nodeAcceptEdit start stop textLength force) := by
  rw [map_map, map_map]
  apply map_congr_left
  intro i hi
  have hi' := hno i hi
  simp only [Interval.overlaps, Bool.and_eq_false_iff, decide_eq_false_iff_not] at hi'
  simp only [Function.comp_apply, shiftedBehind]
  split
  · next h => exact (nodeAcceptEdit_behind force (hle i hi) hedit h0 htext h).symm
  · next h => exact (nodeAcceptEdit_before force (hle i hi) (by omega)).symm

/-- **Edits.**  The tree stays right, and its intervals change as `nodeAcceptEdit` changes each of them. -/
theorem acceptReplace_spec (h : TreeOk e T) (hnodup : (nodeIds T).Nodup) (offset length textLength : Nat)
    (forceMoveMarkers : Bool) :
    TreeOk e (T.acceptReplace offset length textLength forceMoveMarkers) ∧
      (absolute (T.acceptReplace offset length textLength forceMoveMarkers)).Perm
        ((absolute T).map (nodeAcceptEdit offset (offset + length) textLength forceMoveMarkers)) := by
  obtain ⟨hok1, hlist1, hids1⟩ := searchForEditing_spec h offset (offset + length)
  unfold IntervalTree.acceptReplace
  generalize searchForEditing T offset (offset + length) = found at *
  obtain ⟨ids, T₁⟩ := found
  dsimp only at hok1 hlist1 hids1 ⊢
  -- the search changes neither ids nor intervals
  have hsame : (entries 0 T₁.root).map Entry.interval = absolute T := by
    rw [hlist1, map_map, absolute]
    exact map_congr_left fun i _ => touched_interval _ _ i
  have hids : ids = ((entries 0 T₁.root).filter
      fun i => i.interval.overlaps offset (offset + length)).map fun i => i.interval.id := by
    rw [hids1, hlist1, filter_map, map_map]
    simp only [Function.comp_def, touched_interval]
  have hnodup1 : ((entries 0 T₁.root).map fun i => i.interval.id).Nodup := by
    rw [hlist1, map_map]
    simp only [Function.comp_def, touched_interval]
    exact hnodup
  have hsub : ids.Sublist (nodeIds T₁) := by
    rw [hids]
    exact List.Sublist.map _ filter_sublist
  -- the nodes of interest are the ones that overlap the edit
  obtain ⟨es, hok2, hes, hperm, hnodes, hentries⟩ := takeNodes_spec ids hok1 (hnodup1.sublist hsub)
    fun _ hid => hsub.subset hid
  obtain ⟨hoverlap, hrest⟩ := taken_iff hnodup1 hperm (hes.trans hids)
  generalize takeNodes ids T₁ = taken at *
  obtain ⟨nodes, T₂⟩ := taken
  have hcached : ∀ i ∈ es, i.cached = i.interval := by
    intro i hi
    have hmem : i ∈ entries 0 T₁.root := hperm.mem_iff.mpr (mem_append_left _ hi)
    rw [hlist1] at hmem
    obtain ⟨j, -, rfl⟩ := mem_map.mp hmem
    have hj := hoverlap _ hi
    rw [touched_interval] at hj ⊢
    exact touched_cached hj
  -- the other nodes
  obtain ⟨hok3, hlist3⟩ := normalizeDeltaIfNecessary_spec hok2
  obtain ⟨hok4, hlist4⟩ := noOverlapReplace_spec hok3 (show (offset : Int) ≤ offset + length by omega)
    (show (0 : Int) ≤ textLength by omega) (by rw [hlist3]; exact hrest)
  obtain ⟨hok5, hlist5⟩ := normalizeDeltaIfNecessary_spec hok4
  have hmoved := map_shiftedBehind_eq forceMoveMarkers (show (offset : Int) ≤ offset + length by omega)
    (show (0 : Int) ≤ offset by omega) (show (0 : Int) ≤ textLength by omega)
    (fun i hi => (stop_le_maxEnd _ hok2.ok.good 0 i hi).1) hrest
  -- the nodes of interest come back
  obtain ⟨hok₆, hperm₆⟩ := insertAll_spec
    (nodes.map (editNode offset (offset + length) textLength forceMoveMarkers)) hok5 (by
      intro v hv
      obtain ⟨w, hw, rfl⟩ := mem_map.mp hv
      exact editNode_ok _ _ _ _ (hnodes w hw))
  obtain ⟨hok₇, hlist₇⟩ := normalizeDeltaIfNecessary_spec hok₆
  refine ⟨hok₇, ?_⟩
  have hfinal := hperm₆.map Entry.interval
  rw [map_append, map_editNode hentries hcached, hlist5, hlist4, hlist3, hmoved, ← map_append,
    ← map_append] at hfinal
  rw [absolute, hlist₇, ← hsame]
  exact hfinal.trans ((hperm.symm.map _).map _)

end TongjiCode.Editor
