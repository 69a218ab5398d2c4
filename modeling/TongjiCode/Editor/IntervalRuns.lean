import TongjiCode.Editor.IntervalReplace

/-!
# Interval tree: runs

A `World` holds a tree and the node objects that are in no tree.  Objects are made by the constructor,
changed by `reset` and `setOptions`, and go into the tree and out of it; a node that was taken out keeps
the `start`, `end`, `delta` and `maxEnd` it had in the tree.  An action on an object that is not there
does nothing.

In every run edits act on each node alone (`acceptReplace_acts_pointwise`).  The invariant of the tree
holds in every run that resets a node before it is inserted again (`run_invariant`), but not in the other
ones: a node inserted with the `maxEnd` it had when it was deleted keeps it (`reinsert_breaks_maxEnd`).
-/

open List

namespace TongjiCode.Editor

open TongjiCode.Tree

/-! ## Runs -/

structure World where
  tree : IntervalTree := {}
  detached : List IntervalNode := []

inductive Action where
  | new (id ownerId : Nat) (start stop : Int)
  | reset (id versionId : Nat) (start stop : Int)
  | setOptions (id : Nat) (options : ModelDecorationOptions)
  | insert (id : Nat)
  | delete (id : Nat)
  | acceptReplace (offset length textLength : Nat) (forceMoveMarkers : Bool)
  | intervalSearch (start stop : Int) (filterOwnerId : Nat) (filterOutValidation : Bool) (cachedVersionId : Nat)
      (onlyMarginDecorations : Bool)
  | search (filterOwnerId : Nat) (filterOutValidation : Bool) (cachedVersionId : Nat) (onlyMarginDecorations : Bool)
  | getAllInOrder
  | collectNodesFromOwner (ownerId : Nat)
  | collectNodesPostOrder
  | resolveNode (id cachedVersionId : Nat)
  deriving Repr, DecidableEq

/-- Change the value of the node at a location. -/
def setVal (z : Loc IntervalNode) (v : IntervalNode) : Tree IntervalNode :=
  Path.plug z.path (.node z.color z.left v z.right)

namespace World

def find (w : World) (id : Nat) : Option IntervalNode := w.detached.find? fun v => v.id == id

def locate (w : World) (id : Nat) : Option (Loc IntervalNode) := w.tree.root.locate (fun v => v.id == id) []

def ids (w : World) : List Nat := nodeIds w.tree ++ w.detached.map fun v => v.id

/-- Change the detached node with the given id. -/
def update (w : World) (id : Nat) (f : IntervalNode → IntervalNode) : World :=
  { w with detached := w.detached.map fun v => if v.id = id then f v else v }

def step (w : World) : Action → World
  | .new id ownerId start stop =>
    if start ≤ stop ∧ id ∉ w.ids then
      { w with detached := { IntervalNode.new id start stop with ownerId } :: w.detached }
    else w
  | .reset id versionId start stop => if start ≤ stop then w.update id (IntervalNode.reset versionId start stop) else w
  | .setOptions id options =>
    match w.locate id with
    | some z => { w with tree := { w.tree with root := setVal z (z.val.setOptions options) } }
    | none => w.update id (IntervalNode.setOptions options)
  | .insert id =>
    match w.find id with
    | some v => { tree := w.tree.insert v, detached := w.detached.filter fun v => !(v.id == id) }
    | none => w
  | .delete id =>
    match w.locate id with
    | some z => { tree := w.tree.delete z, detached := z.val :: w.detached }
    | none => w
  | .acceptReplace offset length textLength forceMoveMarkers =>
    { w with tree := w.tree.acceptReplace offset length textLength forceMoveMarkers }
  | .intervalSearch start stop owner validation version margin =>
    { w with tree := (w.tree.intervalSearch start stop owner validation version margin).2 }
  | .search owner validation version margin => { w with tree := (w.tree.search owner validation version margin).2 }
  | .getAllInOrder => { w with tree := (getAllInOrder w.tree).2 }
  | .collectNodesFromOwner ownerId => { w with tree := (collectNodesFromOwner w.tree ownerId).2 }
  | .collectNodesPostOrder => { w with tree := (collectNodesPostOrder w.tree).2 }
  | .resolveNode id version =>
    match w.locate id with
    | some z => { w with tree := w.tree.resolveNode z version }
    | none => w

def run (actions : List Action) : World := actions.foldl step {}

end World

/-! ## What a step keeps -/

variable {e : Bool}

variable {T : IntervalTree}

section SetVal

/-- Values that are the same for the tree. -/
structure Keeps (v v' : IntervalNode) : Prop where
  id : v'.id = v.id
  isVisited : v'.isVisited = v.isVisited
  start : v'.start = v.start
  stop : v'.stop = v.stop
  delta : v'.delta = v.delta
  maxEnd : v'.maxEnd = v.maxEnd

/-- What the order of entries depends on. -/
def Entry.key (i : Entry) : Int × Int := (i.interval.start, i.interval.stop)

theorem sorted_of_keys {l l' : List Entry} (h : l'.map Entry.key = l.map Entry.key) (hs : l.Pairwise Entry.Le) :
    l'.Pairwise Entry.Le := by
  have hkey : ∀ l : List Entry, l.Pairwise Entry.Le ↔
      (l.map Entry.key).Pairwise fun a b => a.1 < b.1 ∨ (a.1 = b.1 ∧ a.2 ≤ b.2) := by
    intro l
    rw [pairwise_map]
    exact Iff.rfl
  rw [hkey] at hs ⊢
  rw [h]
  exact hs

variable {z : Loc IntervalNode} {v : IntervalNode}

theorem entries_setVal {β : Type} (hv : Keeps z.val v) (f : Entry → β)
    (hf : ∀ d, f (v.entry d) = f (z.val.entry d)) :
    (entries 0 (setVal z v)).map f = (entries 0 z.root).map f := by
  rw [setVal, Loc.root, entries_plug, entries_plug]
  simp only [Loc.focus, entries, map_append, map_cons, hf, hv.delta]

theorem ok_setVal (h : Ok e z.root) (hv : Keeps z.val v) : Ok e (setVal z v) := by
  refine ⟨?_, ?_, ?_⟩
  · obtain ⟨n, hn⟩ := h.redBlack
    refine ⟨n, hn.congr ?_⟩
    rw [setVal, Loc.root, Path.erase_plug, Path.erase_plug]
    rfl
  · have hgood := h.good
    rw [Loc.root, Augment.good_plug, goodPath_iff] at hgood
    obtain ⟨⟨⟨hvis, hle, hmax⟩, hlr⟩, hpath⟩ := hgood
    rw [setVal, Augment.good_plug, goodPath_iff]
    refine ⟨⟨⟨hv.isVisited.trans hvis, ?_, ?_⟩, hlr⟩, ?_⟩
    · rw [hv.start, hv.stop]
      exact hle
    · unfold maxOf at *
      rw [hv.stop, hv.delta, hv.maxEnd]
      exact hmax
    · rw [fold_fst] at hpath ⊢
      rw [rootMaxEnd_node, hv.maxEnd]
      exact hpath
  · refine sorted_of_keys (entries_setVal hv Entry.key ?_) h.sorted
    intro d
    simp only [Entry.key, IntervalNode.entry, Interval.shift, hv.start, hv.stop]

theorem nodeIds_setVal (hroot : z.root = T.root) (hv : Keeps z.val v) :
    nodeIds { T with root := setVal z v } = nodeIds T := by
  rw [nodeIds, nodeIds, ← hroot]
  refine entries_setVal hv _ ?_
  intro d
  exact hv.id

end SetVal

/-- The invariant of runs. -/
structure WorldOk (e : Bool) (w : World) : Prop where
  tree : TreeOk e w.tree
  detached : ∀ v ∈ w.detached, NodeOk v
  ids : w.ids.Nodup

theorem nodeIds_eq (T : IntervalTree) : nodeIds T = (absolute T).map fun i => i.id := by
  simp [nodeIds, absolute]

section Step

variable {w : World}

theorem WorldOk.setTree (h : WorldOk e w) (hT : TreeOk e T) (hids : (nodeIds T).Perm (nodeIds w.tree)) :
    WorldOk e { w with tree := T } :=
  ⟨hT, h.detached, (hids.append_right _).nodup_iff.mpr h.ids⟩

theorem WorldOk.reads (h : WorldOk e w)
    (hT : TreeOk e T ∧ (entries 0 T.root).map Entry.interval = (entries 0 w.tree.root).map Entry.interval) :
    WorldOk e { w with tree := T } := by
  refine h.setTree hT.1 ?_
  rw [nodeIds_eq, nodeIds_eq, absolute, absolute, hT.2]

theorem WorldOk.update (h : WorldOk e w) (id : Nat) {f : IntervalNode → IntervalNode} (hid : ∀ v, (f v).id = v.id)
    (hf : ∀ v, NodeOk v → NodeOk (f v)) : WorldOk e (w.update id f) := by
  refine ⟨h.tree, ?_, ?_⟩
  · intro v hv
    obtain ⟨u, hu, rfl⟩ := mem_map.mp hv
    split
    · exact hf u (h.detached u hu)
    · exact h.detached u hu
  · have hsame : (w.update id f).ids = w.ids := by
      simp only [World.ids, World.update, map_map]
      congr 1
      apply map_congr_left
      intro v _
      simp only [Function.comp_apply]
      split
      · exact hid v
      · rfl
    rw [hsame]
    exact h.ids

variable {id : Nat} {z : Loc IntervalNode}

theorem locate_root (h : w.locate id = some z) :
    z.root = w.tree.root ∧ z.val.id = id := by
  obtain ⟨hroot, hid⟩ := locate_some _ h
  exact ⟨hroot, by simpa using hid⟩

variable {v : IntervalNode}

section

variable (h : WorldOk e w)
include h

theorem WorldOk.setVal (hz : w.locate id = some z) (hv : Keeps z.val v) :
    WorldOk e { w with tree := { w.tree with root := Editor.setVal z v } } := by
  obtain ⟨hroot, -⟩ := locate_root hz
  have hok : Ok e z.root := by
    rw [hroot]
    exact h.tree.ok
  refine h.setTree ⟨ok_setVal hok hv, h.tree.sentinel⟩ ?_
  rw [nodeIds_setVal hroot hv]

theorem WorldOk.new (hv : NodeOk v) (hid : v.id ∉ w.ids) :
    WorldOk e { w with detached := v :: w.detached } := by
  refine ⟨h.tree, ?_, ?_⟩
  · intro u hu
    rcases mem_cons.mp hu with rfl | hu
    · exact hv
    · exact h.detached u hu
  · have hperm : (World.ids { w with detached := v :: w.detached }).Perm (v.id :: w.ids) := perm_middle
    exact hperm.nodup_iff.mpr (nodup_cons.mpr ⟨hid, h.ids⟩)

theorem WorldOk.insert (hv : w.find id = some v) (hmax : e = true → v.maxEnd = v.stop) :
    WorldOk e { tree := w.tree.insert v, detached := w.detached.filter fun v => !(v.id == id) } := by
  have hmem : v ∈ w.detached := mem_of_find?_eq_some hv
  have hvid : v.id = id := by simpa using find?_some hv
  have hok := h.detached v hmem
  obtain ⟨hT, l1, l2, hbefore, hafter⟩ := rbTreeInsert_spec h.tree.ok hok.isVisited hok.le ⟨hok.maxEnd, hmax⟩
  have hTok : TreeOk e (rbTreeInsert w.tree v) := ⟨hT, by rw [rbTreeInsert_sentinel, h.tree.sentinel]⟩
  obtain ⟨hTok', hlist⟩ := normalizeDeltaIfNecessary_spec hTok
  have hids : (nodeIds (w.tree.insert v)).Perm (v.id :: nodeIds w.tree) := by
    rw [nodeIds, IntervalTree.insert, hlist, hafter, nodeIds, hbefore, map_append, map_append]
    exact perm_middle
  refine ⟨hTok', fun u hu => h.detached u (mem_of_mem_filter hu), ?_⟩
  obtain ⟨hn1, hn2, hdisj⟩ := nodup_append.mp h.ids
  have hnew : v.id ∉ nodeIds w.tree := fun hin => hdisj _ hin _ (mem_map_of_mem hmem) rfl
  refine nodup_append.mpr ⟨hids.nodup_iff.mpr (nodup_cons.mpr ⟨hnew, hn1⟩),
    hn2.sublist (List.Sublist.map _ filter_sublist), ?_⟩
  intro a ha b hb
  obtain ⟨u, hu, rfl⟩ := mem_map.mp hb
  obtain ⟨hu, hne⟩ := mem_filter.mp hu
  rcases mem_cons.mp (hids.mem_iff.mp ha) with rfl | ha
  · rintro heq
    rw [← heq, hvid] at hne
    simp at hne
  · exact hdisj a ha u.id (mem_map_of_mem hu)

theorem WorldOk.delete (hz : w.locate id = some z) :
    WorldOk e { tree := w.tree.delete z, detached := z.val :: w.detached } := by
  obtain ⟨hroot, -⟩ := locate_root hz
  have hzok : Ok e z.root := by
    rw [hroot]
    exact h.tree.ok
  obtain ⟨hok, l1, l2, hbefore, hafter⟩ := rbTreeDelete_spec w.tree hzok
  have hTok : TreeOk e (rbTreeDelete w.tree z) := ⟨hok, by rw [rbTreeDelete_sentinel, h.tree.sentinel]⟩
  obtain ⟨hTok', hlist⟩ := normalizeDeltaIfNecessary_spec hTok
  have hids : (nodeIds w.tree).Perm (z.val.id :: nodeIds (w.tree.delete z)) := by
    rw [nodeIds, nodeIds, IntervalTree.delete, hlist, hafter, ← hroot, hbefore, map_append, map_append]
    exact perm_middle
  refine ⟨hTok', ?_, ?_⟩
  · intro u hu
    rcases mem_cons.mp hu with rfl | hu
    · have hgood := hzok.good
      rw [Loc.root, Augment.good_plug] at hgood
      exact nodeOk_of_good hgood.1
    · exact h.detached u hu
  · have hperm : (World.ids { tree := w.tree.delete z, detached := z.val :: w.detached }).Perm w.ids :=
      perm_middle.trans (hids.symm.append_right _)
    exact hperm.nodup_iff.mpr h.ids

theorem WorldOk.acceptReplace (offset length textLength : Nat) (forceMoveMarkers : Bool) :
    WorldOk e { w with tree := w.tree.acceptReplace offset length textLength forceMoveMarkers } := by
  obtain ⟨hok, hperm⟩ := acceptReplace_spec h.tree (nodup_append.mp h.ids).1 offset length textLength
    forceMoveMarkers
  refine h.setTree hok ?_
  rw [nodeIds_eq, nodeIds_eq]
  refine (hperm.map _).trans ?_
  rw [map_map]
  exact .refl _

omit h in
/-- An insertion finds the `maxEnd` of the node equal to its end, as the constructor and `reset` leave it. -/
def World.insertsReset (w : World) : Action → Bool
  | .insert id => (w.find id).all fun v => v.maxEnd = v.stop
  | _ => true

theorem step_worldOk (a : Action) (ha : e = true → w.insertsReset a = true) :
    WorldOk e (w.step a) := by
  cases a with
  | new id ownerId start stop =>
    rw [World.step]
    split
    · next hnew => exact h.new ⟨rfl, hnew.1, Int.le_refl _⟩ hnew.2
    · exact h
  | reset id versionId start stop =>
    rw [World.step]
    split
    · next hle => exact h.update id (fun _ => rfl) fun v hv => ⟨hv.isVisited, hle, Int.le_refl _⟩
    · exact h
  | setOptions id options =>
    rw [World.step]
    split
    · next z hz => exact h.setVal hz ⟨rfl, rfl, rfl, rfl, rfl, rfl⟩
    · exact h.update id (fun _ => rfl) fun v hv => ⟨hv.isVisited, hv.le, hv.maxEnd⟩
  | insert id =>
    rw [World.step]
    split
    · next v hv =>
      refine h.insert hv fun he => ?_
      have := ha he
      simpa [World.insertsReset, hv] using this
    · exact h
  | delete id =>
    rw [World.step]
    split
    · next z hz => exact h.delete hz
    · exact h
  | acceptReplace offset length textLength force => exact h.acceptReplace offset length textLength force
  | intervalSearch start stop owner validation version margin =>
    refine h.reads ?_
    unfold IntervalTree.intervalSearch
    split
    · exact ⟨h.tree, rfl⟩
    · exact traverse_reads h.tree (overlapVisitor_reads _ _ _ _) []
  | search owner validation version margin =>
    refine h.reads ?_
    unfold IntervalTree.search
    split
    · exact ⟨h.tree, rfl⟩
    · exact search_reads owner validation version margin h.tree
  | getAllInOrder => exact h.reads (search_reads 0 false 0 false h.tree)
  | collectNodesFromOwner ownerId =>
    exact h.reads (traverse_reads h.tree ⟨rfl, fun _ _ => rfl, fun _ _ _ => .inl rfl⟩ [])
  | collectNodesPostOrder =>
    have hloop := postOrderLoop_root h.tree.noMarks
    simp only [Prod.mk.injEq] at hloop
    refine h.reads ?_
    simp only [collectNodesPostOrder, h.tree.sentinel, hloop.1, hloop.2.2, Bool.false_and]
    exact ⟨⟨h.tree.ok, rfl⟩, trivial⟩
  | resolveNode id version =>
    rw [World.step]
    split
    · next z hz => exact h.setVal hz ⟨rfl, rfl, rfl, rfl, rfl, rfl⟩
    · exact h

end

/-- Every insertion of a run from `w` on finds the `maxEnd` of its node equal to its end. -/
def World.resetsBeforeInsert (w : World) : List Action → Bool
  | [] => true
  | a :: actions => w.insertsReset a && (w.step a).resetsBeforeInsert actions

theorem foldl_worldOk (actions : List Action) : ∀ {w : World}, WorldOk e w →
    (e = true → w.resetsBeforeInsert actions = true) → WorldOk e (actions.foldl World.step w) := by
  induction actions with
  | nil => intro w h _; exact h
  | cons a actions ih =>
    intro w h hreset
    have hboth : e = true → w.insertsReset a = true ∧ (w.step a).resetsBeforeInsert actions = true := by
      intro he
      rw [← Bool.and_eq_true]
      exact hreset he
    exact ih (step_worldOk h a fun he => (hboth he).1) fun he => (hboth he).2

theorem worldOk_empty : WorldOk e {} :=
  ⟨⟨⟨⟨0, .nil⟩, trivial, .nil⟩, rfl⟩, by simp, by simp [World.ids, nodeIds, entries]⟩

end Step

/-! ## Results -/

/-- **Edits act on each node alone.**  In every run `acceptReplace` keeps the nodes of the tree and changes
their absolute intervals as `nodeAcceptEdit` does. -/
theorem acceptReplace_acts_pointwise (actions : List Action) (offset length textLength : Nat)
    (forceMoveMarkers : Bool) :
    let T := (World.run actions).tree
    let T' := T.acceptReplace offset length textLength forceMoveMarkers
    (nodeIds T).Nodup ∧ (nodeIds T').Perm (nodeIds T) ∧
      (absolute T').Perm ((absolute T).map
        (nodeAcceptEdit offset (offset + length) textLength forceMoveMarkers)) := by
  have h : WorldOk false (World.run actions) := foldl_worldOk actions worldOk_empty (by simp)
  have hnodup := (nodup_append.mp h.ids).1
  have hperm := (acceptReplace_spec h.tree hnodup offset length textLength forceMoveMarkers).2
  refine ⟨hnodup, ?_, hperm⟩
  rw [nodeIds_eq, nodeIds_eq]
  refine (hperm.map _).trans ?_
  rw [map_map]
  exact .refl _

/-- **Searches are exact.**  In every run, also one that spoils `maxEnd`, a search finds what a filter of all
intervals finds, and keeps them. -/
theorem intervalSearch_exact (actions : List Action) (start stop : Int) (filterOwnerId : Nat) (filterOutValidation : Bool)
    (cachedVersionId : Nat) (onlyMarginDecorations : Bool) :
    let T := (World.run actions).tree
    let found := T.intervalSearch start stop filterOwnerId filterOutValidation cachedVersionId onlyMarginDecorations
    (nodeIds T).Nodup ∧ (absolute T).Pairwise Interval.Le ∧ absolute found.2 = absolute T ∧
      found.1 = ((absolute T).filter fun i => i.overlaps start stop &&
        isIncluded filterOwnerId filterOutValidation onlyMarginDecorations i).map Interval.id := by
  intro T found
  have h : WorldOk false (World.run actions) := foldl_worldOk actions worldOk_empty (by simp)
  refine ⟨(nodup_append.mp h.ids).1, (sorted_iff _).mp h.tree.ok.sorted, ?_⟩
  dsimp only [found]
  unfold IntervalTree.intervalSearch
  split
  · next hnil =>
    have hroot : T.root = .nil := by
      cases hT : T.root with
      | nil => rfl
      | node c l v r => rw [hT] at hnil; cases hnil
    simp [absolute, hroot, entries]
  · refine ⟨(traverse_reads h.tree (overlapVisitor_reads _ _ _ _) []).2, ?_⟩
    unfold intervalSearch
    rw [traverse_eq h.tree, (walk_overlapVisitor start stop cachedVersionId _ (fun _ _ => rfl) _ 0 [] h.tree.ok.good
      h.tree.ok.sorted).2, nil_append, collected, absolute, filter_map, map_map]
    rfl

/-- What holds of a tree between two operations, in terms of absolute intervals. -/
structure Invariant (T : IntervalTree) : Prop where
  redBlack : RedBlack T.root
  sorted : (absolute T).Pairwise Interval.Le
  /-- `maxEnd` is the maximum of the ends in the subtree of a node. -/
  maxEnd : ∀ z : Loc IntervalNode, z.root = T.root →
    (∃ i ∈ entries (holeDelta z.path) z.focus, i.interval.stop = z.val.maxEnd + holeDelta z.path) ∧
      ∀ i ∈ entries (holeDelta z.path) z.focus, i.interval.stop ≤ z.val.maxEnd + holeDelta z.path
  isVisited : ∀ v ∈ T.root.toList, v.isVisited = false
  sentinelIsVisited : T.sentinelIsVisited = false

theorem maxEnd_attained (t : Tree IntervalNode) : (intervalAugment true).Good t → ∀ {m : Int}, rootMaxEnd t = some m →
    ∀ d, ∃ i ∈ entries d t, i.interval.stop = m + d := by
  induction t with
  | nil => intro _ m hm; cases hm
  | node c l v r ihl ihr =>
    rintro ⟨⟨-, -, hmax⟩, hgl, hgr⟩ m hm d
    cases hm
    have heq := hmax.2 rfl
    rw [fold_fst, fold_fst] at heq
    -- the maximum is the end of the node or comes from one of its subtrees
    have hcases : v.maxEnd = v.stop ∨ rootMaxEnd l = some v.maxEnd ∨ rootMaxEnd r = some (v.maxEnd - v.delta) := by
      rw [heq]
      unfold maxOf
      cases rootMaxEnd l <;> cases rootMaxEnd r <;> simp only [Option.getD, Option.map, Option.some.injEq] <;> omega
    rcases hcases with h | h | h
    · refine ⟨v.entry d, by simp [entries], ?_⟩
      simp only [IntervalNode.entry, Interval.shift, h]
    · obtain ⟨i, hi, hstop⟩ := ihl hgl h d
      exact ⟨i, mem_append_left _ hi, hstop⟩
    · obtain ⟨i, hi, hstop⟩ := ihr hgr h (d + v.delta)
      refine ⟨i, mem_append_right _ (mem_cons_of_mem _ hi), ?_⟩
      omega

theorem isVisited_of_noMarks (t : Tree IntervalNode) : NoMarks t → ∀ v ∈ t.toList, v.isVisited = false := by
  induction t with
  | nil => intro _ v hv; cases hv
  | node c l u r ihl ihr =>
    rintro ⟨hu, hl, hr⟩ v hv
    rcases mem_append.mp hv with hv | hv
    · exact ihl hl v hv
    · rcases mem_cons.mp hv with rfl | hv
      · exact hu
      · exact ihr hr v hv

theorem TreeOk.invariant (h : TreeOk true T) : Invariant T := by
  refine ⟨h.ok.redBlack, (sorted_iff _).mp h.ok.sorted, ?_, isVisited_of_noMarks _ h.noMarks, h.sentinel⟩
  intro z hz
  have hgood := h.ok.good
  rw [← hz, Loc.root, Augment.good_plug] at hgood
  refine ⟨maxEnd_attained _ hgood.1 rfl _, ?_⟩
  intro i hi
  obtain ⟨-, m, hm, hle⟩ := stop_le_maxEnd _ hgood.1 _ i hi
  cases hm
  omega

theorem resetsBeforeInsert_take (actions : List Action) : ∀ {w : World} (n : Nat),
    w.resetsBeforeInsert actions = true → w.resetsBeforeInsert (actions.take n) = true := by
  induction actions with
  | nil => intro w n h; simpa using h
  | cons a actions ih =>
    intro w n h
    cases n with
    | zero => rfl
    | succ n =>
      rw [World.resetsBeforeInsert, Bool.and_eq_true] at h
      rw [take_succ_cons, World.resetsBeforeInsert, Bool.and_eq_true]
      exact ⟨h.1, ih n h.2⟩

/-- **The invariant of the tree.**  It holds in every state of a run that inserts no node with the `maxEnd`
of an earlier place. -/
theorem run_invariant (actions : List Action) (h : World.resetsBeforeInsert {} actions = true) (n : Nat) :
    Invariant (World.run (actions.take n)).tree :=
  (foldl_worldOk (actions.take n) worldOk_empty fun _ => resetsBeforeInsert_take actions n h).tree.invariant

theorem run_invariant_reset :
    let actions : List Action := [.new 1 0 0 10, .insert 1, .new 2 0 5 20, .insert 2, .acceptReplace 3 4 1 false,
      .delete 1, .reset 1 1 0 4, .insert 1]
    World.resetsBeforeInsert {} actions = true ∧ Invariant (World.run (actions.take 8)).tree :=
  ⟨by decide +kernel, run_invariant _ (by decide +kernel) 8⟩

/-- A node deleted and inserted again keeps a `maxEnd` that came from another node. -/
theorem reinsert_breaks_maxEnd : ¬ ∀ actions : List Action, Invariant (World.run actions).tree := by
  intro h
  let d1 : IntervalNode := { IntervalNode.new 1 0 10 with maxEnd := 20 }
  let z : Loc IntervalNode := ⟨.red, .nil, d1, .nil, [.left .black (IntervalNode.new 2 5 20) .nil]⟩
  have hz : z.root = (World.run [.new 1 0 0 10, .insert 1, .new 2 0 5 20, .insert 2, .delete 1,
    .insert 1]).tree.root := by decide +kernel
  obtain ⟨i, hi, hstop⟩ := ((h _).maxEnd z hz).1
  have hentry : i = d1.entry 0 := by simpa [z, Loc.focus, entries, holeDelta] using hi
  rw [hentry] at hstop
  revert hstop
  decide

end TongjiCode.Editor
