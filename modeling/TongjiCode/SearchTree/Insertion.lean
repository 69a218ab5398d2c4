import TongjiCode.SearchTree.Rotations

/-!
# Insertion

`set` goes down the tree with a stack and balances on the way back.  The same as a recursion on the tree (`insert`)
gives what it does: one entry is put at its place in the order of the ranks, and the tree stays ordered and balanced
(`insert_spec`).
-/

open List

namespace TongjiCode.SearchTree

namespace Node

section Insert

variable {K V : Type}

/-- A node after the change of a child, and the direction of the change. -/
def grow (node : Node K V) (dir : Dir) (changed : Option (Node K V × Option Dir)) : Option (Node K V × Option Dir) :=
  changed.bind fun child => ((node.patch dir child.1).rebalance dir child.2).map fun root => (root, some dir)

def insertNew (entry : K × V) (step : Step) (steps : List Step) : Option (Node K V × Option Dir) :=
  match step.cmp step.value with
  | some .eq =>
    match steps with
    | [] => some ((new step.value).setEntry entry, none)
    | next :: steps => (new step.value).grow .mid (insertNew entry next steps)
  | _ => none

/-- `set` as a recursion on the tree. -/
def insert (entry : K × V) : Node K V → Step → List Step → Option (Node K V × Option Dir)
  | nil, step, steps => insertNew entry step steps
  | node height segment value left mid right, step, steps =>
    let this := node height segment value left mid right
    match step.cmp segment with
    | none => none
    | some .gt => this.grow .left (left.insert entry step steps)
    | some .lt => this.grow .right (right.insert entry step steps)
    | some .eq =>
      match steps with
      | [] => some (this.setEntry entry, none)
      | next :: steps => this.grow .mid (mid.insert entry next steps)

theorem balance_grow (above : Node K V) (dir : Dir) (changed : Option (Node K V × Option Dir))
    (stack : List (Dir × Node K V)) :
    (changed.bind fun child => balance child.1 child.2 ((dir, above) :: stack)) =
      (above.grow dir changed).bind fun child => balance child.1 child.2 stack := by
  unfold grow
  cases changed with
  | none => rfl
  | some child =>
    show ((above.patch dir child.1).rebalance dir child.2).bind _ = _
    simp only [Option.bind_some, Option.bind_map]
    rfl

theorem newNodes_insertNew (entry : K × V) (steps : List Step) : ∀ (step : Step) (stack : List (Dir × Node K V)),
    ((newNodes step steps stack).bind fun found => balance (found.1.setEntry entry) none found.2) =
      (insertNew entry step steps).bind fun child => balance child.1 child.2 stack := by
  induction steps with
  | nil =>
    intro step stack
    unfold newNodes insertNew
    rcases step.cmp step.value with _ | _ | _ | _ <;> rfl
  | cons next steps ih =>
    intro step stack
    unfold newNodes insertNew
    rcases step.cmp step.value with _ | _ | _ | _
    · rfl
    · rfl
    · dsimp only
      rw [← balance_grow, ← ih]
    · rfl

theorem findInsertNode_insert (entry : K × V) (tree : Node K V) : ∀ (step : Step) (steps : List Step)
    (stack : List (Dir × Node K V)),
    ((tree.findInsertNode step steps stack).bind fun found => balance (found.1.setEntry entry) none found.2) =
      (tree.insert entry step steps).bind fun child => balance child.1 child.2 stack := by
  induction tree with
  | nil => exact fun step steps stack => newNodes_insertNew entry steps step stack
  | node height segment value left mid right ihl ihm ihr =>
    intro step steps stack
    unfold findInsertNode insert
    rcases step.cmp segment with _ | _ | _ | _
    · rfl
    · dsimp only
      rw [← balance_grow, ← ihr]
    · cases steps with
      | nil => rfl
      | cons next steps =>
        rw [← balance_grow, ← ihm]
    · dsimp only
      rw [← balance_grow, ← ihl]

theorem set_eq_insert (entry : K × V) (root : Node K V) (step : Step) (steps : List Step) :
    root.set step steps entry = (root.insert entry step steps).map Prod.fst := by
  unfold set
  rw [findInsertNode_insert]
  cases root.insert entry step steps <;> rfl

end Insert

end Node

/-! ## Ranks of a key -/

section Keys

variable {ρ : Type} (rank : List ρ → Segment → ρ)

def rankList (path : List ρ) : List Step → List ρ
  | [] => []
  | step :: steps => rank path step.value :: rankList (path ++ [rank path step.value]) steps

/-- The comparisons of the steps of a key with the segments of another one are those of the ranks, as long as the
segments are equal. -/
def Agree [LinearOrder ρ] (path : List ρ) : List Step → List Step → Prop
  | step :: steps, other :: others =>
    step.cmp other.value = some (cmp (rank path other.value) (rank path step.value)) ∧
      (rank path other.value = rank path step.value → Agree (path ++ [rank path other.value]) steps others)
  | _, _ => True

end Keys

/-! ## Lists of items -/

section Items

variable {ρ : Type} [LinearOrder ρ] {α : Type}

/-- An item at its place in the order, instead of one with the same ranks. -/
def insertItem (ranks : List ρ) (entry : α) (items : List (List ρ × α)) : List (List ρ × α) :=
  items.filter (fun item => item.1 < ranks) ++ (ranks, entry) :: items.filter fun item => ranks < item.1

variable {ranks : List ρ} {entry : α} {items items' : List (List ρ × α)}

theorem insertItem_append_right (h : ∀ item ∈ items', ranks < item.1) :
    insertItem ranks entry (items ++ items') = insertItem ranks entry items ++ items' := by
  have hbelow : items'.filter (fun item => item.1 < ranks) = [] :=
    filter_eq_nil_iff.mpr fun item hitem hlt => lt_asymm (h item hitem) (of_decide_eq_true hlt)
  have habove : items'.filter (fun item => ranks < item.1) = items' :=
    filter_eq_self.mpr fun item hitem => decide_eq_true (h item hitem)
  unfold insertItem
  rw [filter_append, filter_append, hbelow, habove, append_nil, append_assoc]
  rfl

theorem insertItem_append_left (h : ∀ item ∈ items, item.1 < ranks) :
    insertItem ranks entry (items ++ items') = items ++ insertItem ranks entry items' := by
  have hbelow : items.filter (fun item => item.1 < ranks) = items :=
    filter_eq_self.mpr fun item hitem => decide_eq_true (h item hitem)
  have habove : items.filter (fun item => ranks < item.1) = [] :=
    filter_eq_nil_iff.mpr fun item hitem hlt => lt_asymm (h item hitem) (of_decide_eq_true hlt)
  unfold insertItem
  rw [filter_append, filter_append, hbelow, habove, nil_append, append_assoc]

theorem insertItem_cons (x : ρ) :
    insertItem (x :: ranks) entry (items.map fun item => (x :: item.1, item.2)) =
      (insertItem ranks entry items).map fun item => (x :: item.1, item.2) := by
  have hlt : ∀ l l' : List ρ, x :: l < x :: l' ↔ l < l' := fun l l' => by
    simp
  unfold insertItem
  rw [filter_map, filter_map, map_append, map_cons]
  simp only [Function.comp_def, hlt]

end Items

/-! ## What insertion does -/

namespace Node

section InsertSpec

variable {ρ : Type} {rank : List ρ → Segment → ρ} {K V : Type} {path : List ρ} {entry : K × V}

theorem items_head (tree : Node K V) {item : List ρ × K × V} (h : item ∈ tree.items rank path) :
    ∃ x ∈ tree.ranks rank path, ∃ ranks, item.1 = x :: ranks := by
  induction tree with
  | nil => cases h
  | node height segment value left mid right ihl ihm ihr =>
    simp only [items, mem_append, mem_map] at h
    simp only [ranks, mem_append, mem_cons]
    rcases h with ((h | ⟨_, -, rfl⟩) | ⟨_, -, rfl⟩) | h
    · obtain ⟨x, hx, hitem⟩ := ihl h
      exact ⟨x, .inl hx, hitem⟩
    · exact ⟨_, .inr (.inl rfl), [], rfl⟩
    · exact ⟨_, .inr (.inl rfl), _, rfl⟩
    · obtain ⟨x, hx, hitem⟩ := ihr h
      exact ⟨x, .inr (.inr hx), hitem⟩

/-- The entries at a node and below its middle child begin with the rank of the node. -/
theorem items_at (segment : Segment) (value : Option (K × V)) (mid : Node K V) (item : List ρ × K × V)
    (h : item ∈ value.toList.map (fun entry => ([rank path segment], entry)) ++
      (mid.items rank (path ++ [rank path segment])).map (fun item => (rank path segment :: item.1, item.2))) :
    ∃ ranks, item.1 = rank path segment :: ranks := by
  rcases mem_append.mp h with h | h
  · obtain ⟨entry, -, rfl⟩ := mem_map.mp h
    exact ⟨[], rfl⟩
  · obtain ⟨item, -, rfl⟩ := mem_map.mp h
    exact ⟨item.1, rfl⟩

variable [LinearOrder ρ]

theorem items_lt {tree : Node K V} {x : ρ} (h : ∀ y ∈ tree.ranks rank path, y < x) (ranks : List ρ) :
    ∀ item ∈ tree.items rank path, item.1 < x :: ranks := by
  intro item hitem
  obtain ⟨y, hy, ranks', heq⟩ := items_head tree hitem
  rw [heq]
  exact cons_lt_cons_iff.mpr (.inl (h y hy))

theorem lt_items {tree : Node K V} {x : ρ} (h : ∀ y ∈ tree.ranks rank path, x < y) (ranks : List ρ) :
    ∀ item ∈ tree.items rank path, x :: ranks < item.1 := by
  intro item hitem
  obtain ⟨y, hy, ranks', heq⟩ := items_head tree hitem
  rw [heq]
  exact cons_lt_cons_iff.mpr (.inl (h y hy))

theorem insertItem_mid {left mid right : Node K V} {segment : Segment} {value : Option (K × V)} {x : ρ} {ranks : List ρ}
    (hleft : ∀ y ∈ left.ranks rank path, y < rank path segment)
    (hright : ∀ y ∈ right.ranks rank path, rank path segment < y) :
    insertItem (rank path segment :: x :: ranks) entry
        (left.items rank path ++ value.toList.map (fun entry => ([rank path segment], entry)) ++
          (mid.items rank (path ++ [rank path segment])).map (fun item => (rank path segment :: item.1, item.2)) ++
          right.items rank path) =
      left.items rank path ++ value.toList.map (fun entry => ([rank path segment], entry)) ++
        (insertItem (x :: ranks) entry (mid.items rank (path ++ [rank path segment]))).map
          (fun item => (rank path segment :: item.1, item.2)) ++ right.items rank path := by
  rw [insertItem_append_right (lt_items hright _), insertItem_append_left, insertItem_cons]
  intro item hitem
  rcases mem_append.mp hitem with hitem | hitem
  · exact items_lt hleft _ item hitem
  · obtain ⟨entry, -, rfl⟩ := mem_map.mp hitem
    exact cons_lt_cons_iff.mpr (.inr ⟨rfl, nil_lt_cons _ _⟩)

theorem insertItem_here {left mid right : Node K V} {segment : Segment} {value : Option (K × V)}
    (hleft : ∀ y ∈ left.ranks rank path, y < rank path segment)
    (hright : ∀ y ∈ right.ranks rank path, rank path segment < y) :
    insertItem [rank path segment] entry
        (left.items rank path ++ value.toList.map (fun entry => ([rank path segment], entry)) ++
          (mid.items rank (path ++ [rank path segment])).map (fun item => (rank path segment :: item.1, item.2)) ++
          right.items rank path) =
      left.items rank path ++ [([rank path segment], entry)] ++
        (mid.items rank (path ++ [rank path segment])).map (fun item => (rank path segment :: item.1, item.2)) ++
        right.items rank path := by
  have hmid : ∀ item ∈ (mid.items rank (path ++ [rank path segment])).map
      (fun item => (rank path segment :: item.1, item.2)), [rank path segment] < item.1 := by
    intro item hitem
    obtain ⟨item', hitem', rfl⟩ := mem_map.mp hitem
    obtain ⟨y, -, ranks, heq⟩ := items_head mid hitem'
    show [rank path segment] < rank path segment :: item'.1
    rw [heq]
    exact cons_lt_cons_iff.mpr (.inr ⟨rfl, nil_lt_cons _ _⟩)
  rw [insertItem_append_right (lt_items hright _), insertItem_append_right hmid,
    insertItem_append_left (items_lt hleft _)]
  cases value with
  | none => rfl
  | some value =>
    unfold insertItem
    simp

/-- What the insertion of an entry makes of a tree. -/
structure Inserted (rank : List ρ → Segment → ρ) (path : List ρ) (entry : K × V) (tree : Node K V) (step : Step)
    (steps : List Step) (tree' : Node K V) (d : Option Dir) : Prop where
  balanced : tree'.Balanced
  grown : Grown tree.height tree' d
  ordered : tree'.Ordered rank path
  full : tree.Full → tree'.Full
  ranks : ∀ x, x ∈ tree'.ranks rank path ↔ x ∈ tree.ranks rank path ∨ x = rank path step.value
  items : tree'.items rank path = insertItem (rankList rank path (step :: steps)) entry (tree.items rank path)
  answers : ∀ other, tree.Answers rank path other → Agree rank path other (step :: steps) →
    tree'.Answers rank path other

/-- Rotations do not change what an insertion does, but the balance. -/
theorem Inserted.of_rotated {tree tree' tree'' : Node K V} {step : Step} {steps : List Step} {d : Option Dir}
    (hrotated : Rotated tree' tree'') (hbalanced : tree''.Balanced) (hgrown : Grown tree.height tree'' d)
    (hordered : tree'.Ordered rank path) (hfull : tree.Full → tree'.Full)
    (hranks : ∀ x, x ∈ tree'.ranks rank path ↔ x ∈ tree.ranks rank path ∨ x = rank path step.value)
    (hitems : tree'.items rank path = insertItem (rankList rank path (step :: steps)) entry (tree.items rank path))
    (hanswers : ∀ other, tree.Answers rank path other → Agree rank path other (step :: steps) →
      tree'.Answers rank path other) :
    Inserted rank path entry tree step steps tree'' d := by
  refine ⟨hbalanced, hgrown, hrotated.ordered_iff.mp hordered, fun h => hrotated.full_iff.mp (hfull h), ?_, ?_, ?_⟩
  · rw [← hrotated.ranks_eq]
    exact hranks
  · rw [← hrotated.items_eq]
    exact hitems
  · exact fun other hother hagree => hrotated.answers_iff.mp (hanswers other hother hagree)

theorem Inserted.ne_nil {tree tree' : Node K V} {step : Step} {steps : List Step} {d : Option Dir}
    (h : Inserted rank path entry tree step steps tree' d) : tree' ≠ nil := by
  rintro rfl
  have hmem := (h.ranks (rank path step.value)).mpr (.inr rfl)
  exact (nomatch hmem)

theorem grow_some {above child tree : Node K V} {dir : Dir} {d : Option Dir}
    (h : (above.patch dir child).rebalance dir d = some tree) :
    above.grow dir (some (child, d)) = some (tree, some dir) := by
  unfold grow
  rw [Option.bind_some, h, Option.map_some]

theorem insertNew_spec (entry : K × V) (steps : List Step) : ∀ (path : List ρ) (step : Step),
    Agree rank path (step :: steps) (step :: steps) →
    ∃ tree d, insertNew entry step steps = some (tree, d) ∧ Inserted rank path entry nil step steps tree d := by
  induction steps with
  | nil =>
    intro path step hself
    obtain ⟨hcmp, -⟩ := hself
    rw [cmp_self_eq_eq] at hcmp
    unfold insertNew
    rw [hcmp]
    refine ⟨_, _, rfl, ⟨?_, ?_, ?_, ?_, ?_, ?_, ?_⟩⟩
    · exact ⟨rfl, Int.zero_le_ofNat 1, Int.zero_le_ofNat 1, trivial, trivial, trivial⟩
    · exact .inr ⟨rfl, .inl rfl⟩
    · exact ⟨fun x hx => (nomatch hx), fun x hx => (nomatch hx), trivial, trivial, trivial⟩
    · exact fun _ => ⟨.inl (Option.some_ne_none _), trivial, trivial, trivial⟩
    · simp [new, setEntry, ranks]
    · rfl
    · rintro (_ | ⟨other, others⟩) - hagree
      · trivial
      · exact ⟨hagree.1, by cases others <;> trivial, by cases others <;> trivial, fun _ => by cases others <;> trivial⟩
  | cons next steps ih =>
    intro path step hself
    obtain ⟨hcmp, hrest⟩ := hself
    rw [cmp_self_eq_eq] at hcmp
    obtain ⟨child, d, hchild, hinserted⟩ := ih (path ++ [rank path step.value]) next (hrest rfl)
    have hnil : (nil : Node K V).Balanced := trivial
    obtain ⟨tree, htree, hbalanced, hgrown⟩ : ∃ tree, (node 1 step.value none nil child nil).rebalance .mid d = some tree ∧
        tree.Balanced ∧ Grown (1 + max (nil : Node K V).height (nil : Node K V).height) tree (some .mid) :=
      rebalance_mid hnil hinserted.balanced hnil (by omega) (by omega)
    refine ⟨tree, some .mid, ?_, Inserted.of_rotated (rebalance_rotated htree) hbalanced ?_ ?_ ?_ ?_ ?_ ?_⟩
    · unfold insertNew
      rw [hcmp]
      dsimp only
      rw [hchild]
      exact grow_some htree
    · rcases hgrown with heq | ⟨-, hzero | ⟨hd, -⟩ | ⟨hd, -⟩⟩
      · exact .inr ⟨heq, .inl rfl⟩
      · cases hzero
      · cases hd
      · cases hd
    · exact ⟨fun x hx => (nomatch hx), fun x hx => (nomatch hx), trivial, hinserted.ordered, trivial⟩
    · exact fun _ => ⟨.inr hinserted.ne_nil, trivial, hinserted.full trivial, trivial⟩
    · simp [ranks]
    · show ((items rank _ child).map _ ++ []) = insertItem _ entry []
      rw [hinserted.items, append_nil]
      rfl
    · rintro (_ | ⟨other, others⟩) - hagree
      · trivial
      · exact ⟨hagree.1, trivial, trivial, fun heq => hinserted.answers others (by cases others <;> trivial) (hagree.2 heq)⟩

theorem insert_spec (entry : K × V) (tree : Node K V) : ∀ (path : List ρ) (step : Step) (steps : List Step),
    tree.Balanced → tree.Ordered rank path → tree.Answers rank path (step :: steps) →
    Agree rank path (step :: steps) (step :: steps) →
    ∃ tree' d, tree.insert entry step steps = some (tree', d) ∧ Inserted rank path entry tree step steps tree' d := by
  induction tree with
  | nil => exact fun path step steps _ _ _ hself => insertNew_spec entry steps path step hself
  | node height segment value left mid right ihl ihm ihr =>
    intro path step steps hbalanced hordered hanswers hself
    obtain ⟨hheight, hlr, hrl, hbl, hbm, hbr⟩ := hbalanced
    obtain ⟨hleft, hright, hol, hom, hor⟩ := hordered
    obtain ⟨hcmp, hal, har, ham⟩ := hanswers
    unfold insert
    rw [hcmp]
    rcases lt_trichotomy (rank path segment) (rank path step.value) with hlt | heq | hgt
    · -- the segment of the node comes first: right
      rw [(cmp_eq_lt_iff _ _).mpr hlt]
      obtain ⟨child, d, hchild, hinserted⟩ := ihr path step steps hbr hor har hself
      obtain ⟨tree, htree, hbal, hgrown⟩ : ∃ tree, (node height segment value left mid child).rebalance .right d = some tree ∧
          tree.Balanced ∧ Grown (1 + max left.height right.height) tree (some .right) :=
        rebalance_right hbl hbm hinserted.balanced hinserted.grown hlr hrl
      rw [hchild]
      refine ⟨tree, _, grow_some htree, Inserted.of_rotated (rebalance_rotated htree) hbal ?_ ?_ ?_ ?_ ?_ ?_⟩
      · show Grown height tree _
        rw [hheight]
        exact hgrown
      · refine ⟨hleft, fun x hx => ?_, hol, hom, hinserted.ordered⟩
        rcases (hinserted.ranks x).mp hx with hx | rfl
        · exact hright x hx
        · exact hlt
      · exact fun hfull => ⟨hfull.1, hfull.2.1, hfull.2.2.1, hinserted.full hfull.2.2.2⟩
      · intro x
        simp only [ranks, mem_append, mem_cons, hinserted.ranks]
        simp only [or_assoc]
      · show _ ++ child.items rank path = insertItem _ _ _
        rw [hinserted.items]
        symm
        apply insertItem_append_left
        intro item hitem
        rw [append_assoc] at hitem
        rcases mem_append.mp hitem with hitem | hitem
        · exact items_lt (fun y hy => (hleft y hy).trans hlt) _ item hitem
        · obtain ⟨ranks, hranks⟩ := items_at segment value mid item hitem
          rw [hranks]
          exact cons_lt_cons_iff.mpr (.inl hlt)
      · rintro (_ | ⟨other, others⟩) hother hagree
        · trivial
        · exact ⟨hother.1, hother.2.1, hinserted.answers _ hother.2.2.1 hagree, hother.2.2.2⟩
    · -- the segments are equal: mid
      rw [(cmp_eq_eq_iff _ _).mpr heq]
      cases steps with
      | nil =>
        refine ⟨_, _, rfl, ⟨⟨hheight, hlr, hrl, hbl, hbm, hbr⟩, .inl rfl, ⟨hleft, hright, hol, hom, hor⟩, ?_, ?_, ?_, ?_⟩⟩
        · exact fun hfull => ⟨.inl (Option.some_ne_none _), hfull.2⟩
        · intro x
          simp only [ranks, setEntry, mem_append, mem_cons, heq]
          exact ⟨.inl, fun h => h.elim id fun h => .inr (.inl h)⟩
        · show _ = insertItem [rank path step.value] entry _
          rw [← heq]
          exact (insertItem_here hleft hright).symm
        · rintro (_ | ⟨other, others⟩) hother -
          · trivial
          · exact hother
      | cons next steps =>
        obtain ⟨child, d, hchild, hinserted⟩ := ihm (path ++ [rank path segment]) next steps hbm hom (ham heq)
          (by rw [heq]; exact hself.2 rfl)
        obtain ⟨tree, htree, hbal, hgrown⟩ : ∃ tree, (node height segment value left child right).rebalance .mid d = some tree ∧
            tree.Balanced ∧ Grown (1 + max left.height right.height) tree (some .mid) :=
          rebalance_mid hbl hinserted.balanced hbr hlr hrl
        dsimp only
        rw [hchild]
        refine ⟨tree, _, grow_some htree, Inserted.of_rotated (rebalance_rotated htree) hbal ?_ ?_ ?_ ?_ ?_ ?_⟩
        · show Grown height tree _
          rw [hheight]
          exact hgrown
        · exact ⟨hleft, hright, hol, hinserted.ordered, hor⟩
        · exact fun hfull => ⟨.inr hinserted.ne_nil, hfull.2.1, hinserted.full hfull.2.2.1, hfull.2.2.2⟩
        · intro x
          simp only [ranks, mem_append, mem_cons, heq]
          exact ⟨.inl, fun h => h.elim id fun h => .inr (.inl h)⟩
        · show _ ++ (child.items rank _).map _ ++ _ = insertItem (rank path step.value :: rankList rank _ (next :: steps)) _ _
          rw [hinserted.items, ← heq]
          exact (insertItem_mid hleft hright).symm
        · rintro (_ | ⟨other, others⟩) hother hagree
          · trivial
          · refine ⟨hother.1, hother.2.1, hother.2.2.1, fun heq' => ?_⟩
            exact hinserted.answers others (hother.2.2.2 heq') (by rw [heq]; exact hagree.2 (heq.symm.trans heq'))
    · -- the segment of the node comes later: left
      rw [(cmp_eq_gt_iff _ _).mpr hgt]
      obtain ⟨child, d, hchild, hinserted⟩ := ihl path step steps hbl hol hal hself
      obtain ⟨tree, htree, hbal, hgrown⟩ : ∃ tree, (node height segment value child mid right).rebalance .left d = some tree ∧
          tree.Balanced ∧ Grown (1 + max left.height right.height) tree (some .left) :=
        rebalance_left hinserted.balanced hbm hbr hinserted.grown hrl hlr
      rw [hchild]
      refine ⟨tree, _, grow_some htree, Inserted.of_rotated (rebalance_rotated htree) hbal ?_ ?_ ?_ ?_ ?_ ?_⟩
      · show Grown height tree _
        rw [hheight]
        exact hgrown
      · refine ⟨fun x hx => ?_, hright, hinserted.ordered, hom, hor⟩
        rcases (hinserted.ranks x).mp hx with hx | rfl
        · exact hleft x hx
        · exact hgt
      · exact fun hfull => ⟨hfull.1, hinserted.full hfull.2.1, hfull.2.2.1, hfull.2.2.2⟩
      · intro x
        simp only [ranks, mem_append, mem_cons, hinserted.ranks]
        constructor
        · rintro ((h | h) | h | h)
          · exact .inl (.inl h)
          · exact .inr h
          · exact .inl (.inr (.inl h))
          · exact .inl (.inr (.inr h))
        · rintro ((h | h | h) | h)
          · exact .inl (.inl h)
          · exact .inr (.inl h)
          · exact .inr (.inr h)
          · exact .inl (.inr h)
      · simp only [items, hinserted.items, append_assoc]
        symm
        apply insertItem_append_right
        intro item hitem
        rw [← append_assoc] at hitem
        rcases mem_append.mp hitem with hitem | hitem
        · obtain ⟨ranks, hranks⟩ := items_at segment value mid item hitem
          rw [hranks]
          exact cons_lt_cons_iff.mpr (.inl hgt)
        · exact lt_items (fun y hy => hgt.trans (hright y hy)) _ item hitem
      · rintro (_ | ⟨other, others⟩) hother hagree
        · trivial
        · exact ⟨hother.1, hinserted.answers _ hother.2.1 hagree, hother.2.2.1, hother.2.2.2⟩

end InsertSpec

end Node

end TongjiCode.SearchTree
