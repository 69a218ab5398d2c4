import TongjiCode.ViewLayout.PrefixSums

/-!
# The layout shows the picture

`Shows s p` ties a layout to the picture it stands for.  Every operation of the layout, a query included, leads to a
layout that shows the picture of the same operation (`step_shows`).
-/

open List

namespace TongjiCode.ViewLayout

open LinesLayout

/-! ## Changes of the array -/

/-- The array of `s'` is in order, has right sums and holds the given zones; all else is as in `s`. -/
structure Rearranges (s s' : LinesLayout) (zones : List Zone) : Prop where
  sorted : Sorted s'.arr
  sums : SumsOk s'.arr s'.prefixSumValidIndex
  zones : (zonesOf s'.arr).Perm zones
  frame : s' = { s with arr := s'.arr, prefixSumValidIndex := s'.prefixSumValidIndex }

section Arrays

variable {s s' : LinesLayout}

theorem Rearranges.trans {zones zones' : List Zone} (h : Rearranges s s' zones) {s'' : LinesLayout}
    (h' : Rearranges s' s'' zones') : Rearranges s s'' zones' := by
  refine ⟨h'.sorted, h'.sums, h'.zones, ?_⟩
  rw [h'.frame, h.frame]

theorem insertIdx_split (whitespace : EditorWhitespace) : ∀ (index : Nat) (arr : List EditorWhitespace),
    index ≤ arr.length → arr.insertIdx index whitespace = arr.take index ++ whitespace :: arr.drop index
  | 0, arr, _ => by simp
  | index + 1, [], h => by simp at h
  | index + 1, a :: arr, h => by
    rw [insertIdx_succ_cons, insertIdx_split whitespace index arr (by simpa using h)]
    rfl

theorem insertWhitespace_rearranges (whitespace : EditorWhitespace) (hsorted : Sorted s.arr)
    (hsums : SumsOk s.arr s.prefixSumValidIndex) :
    Rearranges s (s.insertWhitespace whitespace) (whitespace.zone :: zonesOf s.arr) := by
  obtain ⟨hlen, hbefore, hafter⟩ :=
    findInsertionIndex_spec hsorted whitespace.afterLineNumber whitespace.ordinal
  unfold insertWhitespace
  generalize findInsertionIndex s.arr whitespace.afterLineNumber whitespace.ordinal = index at *
  have hsplit := insertIdx_split whitespace index s.arr hlen
  have hlength : (s.arr.take index).length = index := by
    rw [length_take]
    omega
  have hsorted' : Sorted (s.arr.take index ++ s.arr.drop index) := by
    rw [take_append_drop]
    exact hsorted
  obtain ⟨htake, hdrop, hboth⟩ := pairwise_append.mp hsorted'
  refine ⟨?_, ?_, ?_, rfl⟩
  · dsimp only
    rw [hsplit]
    refine pairwise_append.mpr ⟨htake, pairwise_cons.mpr ⟨fun a ha => ?_, hdrop⟩, fun a ha b hb => ?_⟩
    · obtain ⟨i, hi⟩ := mem_iff_getElem?.mp ha
      rw [getElem?_drop] at hi
      exact hafter _ a (by omega) hi
    · rcases mem_cons.mp hb with rfl | hb
      · obtain ⟨i, hi⟩ := mem_iff_getElem?.mp ha
        rw [getElem?_take] at hi
        split at hi
        · exact hbefore i a (by omega) hi
        · cases hi
      · exact hboth a ha b hb
  · dsimp only
    rw [hsplit]
    have hsums' : SumsOk (s.arr.take index ++ s.arr.drop index) s.prefixSumValidIndex := by
      rw [take_append_drop]
      exact hsums
    have hcommon : SumsOk (s.arr.take index ++ whitespace :: s.arr.drop index) _ := hsums'.common
    rw [hlength] at hcommon
    exact hcommon
  · dsimp only
    rw [hsplit, zonesOf_append, zonesOf_cons]
    refine perm_middle.trans (List.Perm.cons _ ?_)
    rw [← zonesOf_append, take_append_drop]

theorem findWhitespaceIndex_some {id index : Nat} (h : s.findWhitespaceIndex id = some index) :
    ∃ l whitespace r, s.arr = l ++ whitespace :: r ∧ l.length = index ∧ whitespace.id = id := by
  obtain ⟨hlt, hid, -⟩ := findIdx?_eq_some_iff_getElem.mp h
  refine ⟨s.arr.take index, s.arr[index], s.arr.drop (index + 1), ?_, ?_, by simpa using hid⟩
  · rw [← drop_eq_getElem_cons hlt, take_append_drop]
  · rw [length_take]
    omega

theorem findWhitespaceIndex_none {id : Nat} (h : s.findWhitespaceIndex id = none) :
    ∀ zone ∈ zonesOf s.arr, zone.id ≠ id := by
  intro zone hzone
  obtain ⟨whitespace, hmem, rfl⟩ := mem_map.mp hzone
  have hid := findIdx?_eq_none_iff.mp h whitespace hmem
  exact of_decide_eq_false hid

variable {l r : List EditorWhitespace} {whitespace : EditorWhitespace}

theorem removeWhitespace_rearranges (hsorted : Sorted s.arr) (hsums : SumsOk s.arr s.prefixSumValidIndex)
    (hsplit : s.arr = l ++ whitespace :: r) :
    Rearranges s (s.removeWhitespace l.length) (zonesOf (l ++ r)) := by
  have herase : s.arr.eraseIdx l.length = l ++ r := by
    rw [hsplit, eraseIdx_append_of_length_le (Nat.le_refl _), Nat.sub_self]
    rfl
  unfold removeWhitespace
  refine ⟨?_, ?_, ?_, rfl⟩
  · dsimp only
    exact List.Pairwise.sublist (eraseIdx_sublist _ _) hsorted
  · dsimp only
    rw [herase]
    rw [hsplit] at hsums
    exact hsums.common
  · dsimp only
    rw [herase]

theorem zone_eq_of_id (hnodup : ((zonesOf (l ++ whitespace :: r)).map Zone.id).Nodup) :
    ∀ zone ∈ zonesOf (l ++ r), zone.id ≠ whitespace.id := by
  rw [zonesOf_append, zonesOf_cons, map_append, map_cons] at hnodup
  have hperm := (perm_middle.nodup_iff).mp hnodup
  obtain ⟨hnot, -⟩ := nodup_cons.mp hperm
  intro zone hzone heq
  apply hnot
  rw [zonesOf_append] at hzone
  rw [← map_append]
  exact mem_map.mpr ⟨zone, hzone, heq⟩

theorem changeHeight_rearranges (newHeight : Int) (hsorted : Sorted s.arr) (hsums : SumsOk s.arr s.prefixSumValidIndex)
    (hsplit : s.arr = l ++ whitespace :: r) :
    Rearranges s (s.changeHeight l.length whitespace newHeight)
        (zonesOf (l ++ { whitespace with height := newHeight } :: r)) ∧
      (s.changeHeight l.length whitespace newHeight).arr = l ++ { whitespace with height := newHeight } :: r := by
  unfold changeHeight
  by_cases hne : whitespace.height ≠ newHeight
  · rw [if_pos hne]
    have hset : s.arr.set l.length { whitespace with height := newHeight } =
        l ++ { whitespace with height := newHeight } :: r := by
      rw [hsplit, set_append_right _ _ (Nat.le_refl _), Nat.sub_self]
      rfl
    refine ⟨⟨?_, ?_, ?_, rfl⟩, hset⟩
    · dsimp only
      rw [hset]
      rw [hsplit] at hsorted
      unfold Sorted at hsorted ⊢
      rw [pairwise_append, pairwise_cons] at hsorted ⊢
      refine ⟨hsorted.1, hsorted.2.1, fun a ha b hb => ?_⟩
      rcases mem_cons.mp hb with rfl | hb
      · exact hsorted.2.2 a ha whitespace mem_cons_self
      · exact hsorted.2.2 a ha b (mem_cons_of_mem _ hb)
    · dsimp only
      rw [hset]
      rw [hsplit] at hsums
      exact hsums.common
    · dsimp only
      rw [hset]
  · rw [if_neg hne]
    rw [not_not] at hne
    have hsame : { whitespace with height := newHeight } = whitespace := by rw [← hne]
    rw [hsame, ← hsplit]
    exact ⟨⟨hsorted, hsums, List.Perm.refl _, rfl⟩, rfl⟩

theorem map_changed_of_ne {change : PendingChange} {zones : List Zone} (h : ∀ zone ∈ zones, zone.id ≠ change.id) :
    zones.map (Picture.changed [change]) = zones := by
  refine (map_congr_left fun zone hzone => ?_).trans (List.map_id zones)
  have hfind : changeOf [change] zone.id = none := by
    simp [changeOf, (h zone hzone).symm]
  unfold Picture.changed
  rw [hfind]
  rfl

theorem changeOneWhitespace_rearranges (change : PendingChange) (hsorted : Sorted s.arr)
    (hsums : SumsOk s.arr s.prefixSumValidIndex) (hnodup : ((zonesOf s.arr).map Zone.id).Nodup) :
    Rearranges s (s.changeOneWhitespace change.id change.newAfterLineNumber change.newHeight)
      ((zonesOf s.arr).map (Picture.changed [change])) := by
  unfold changeOneWhitespace
  cases hfind : s.findWhitespaceIndex change.id with
  | none =>
    rw [map_changed_of_ne (findWhitespaceIndex_none hfind)]
    exact ⟨hsorted, hsums, List.Perm.refl _, rfl⟩
  | some index =>
    obtain ⟨l, whitespace, r, hsplit, rfl, hid⟩ := findWhitespaceIndex_some hfind
    have hget : s.arr[l.length]? = some whitespace := by
      rw [hsplit, getElem?_append_right (Nat.le_refl _), Nat.sub_self]
      rfl
    dsimp only
    rw [hget]
    dsimp only
    rw [hsplit] at hnodup
    have hids := zone_eq_of_id hnodup
    rw [hid] at hids
    have hself : Picture.changed [change] whitespace.zone =
        { whitespace.zone with afterLineNumber := change.newAfterLineNumber, height := change.newHeight } := by
      have hfind : changeOf [change] whitespace.zone.id = some change := by
        have hzone : whitespace.zone.id = change.id := hid
        simp [changeOf, hzone]
      unfold Picture.changed
      rw [hfind]
    have hzones : (zonesOf s.arr).map (Picture.changed [change]) =
        zonesOf l ++ Picture.changed [change] whitespace.zone :: zonesOf r := by
      rw [zonesOf_append] at hids
      rw [hsplit, zonesOf_append, zonesOf_cons, map_append, map_cons,
        map_changed_of_ne fun zone hzone => hids zone (mem_append_left _ hzone),
        map_changed_of_ne fun zone hzone => hids zone (mem_append_right _ hzone)]
    rw [hzones, hself]
    -- the height first
    obtain ⟨hheight, harr⟩ := changeHeight_rearranges change.newHeight hsorted hsums hsplit
    by_cases hmoves : whitespace.afterLineNumber ≠ change.newAfterLineNumber
    · rw [if_pos hmoves]
      have hremove := removeWhitespace_rearranges hheight.sorted hheight.sums harr
      have hinsert := insertWhitespace_rearranges
        { whitespace with height := change.newHeight, afterLineNumber := change.newAfterLineNumber }
        hremove.sorted hremove.sums
      have hall := hheight.trans (hremove.trans hinsert)
      refine ⟨hall.sorted, hall.sums, hall.zones.trans ?_, hall.frame⟩
      refine (List.Perm.cons _ hremove.zones).trans ?_
      rw [zonesOf_append]
      exact perm_middle.symm
    · rw [if_neg hmoves]
      rw [not_not] at hmoves
      have hzone : ({ whitespace with height := change.newHeight } : EditorWhitespace).zone =
          { whitespace.zone with afterLineNumber := change.newAfterLineNumber, height := change.newHeight } := by
        rw [← hmoves]
        rfl
      rw [zonesOf_append, zonesOf_cons, hzone] at hheight
      exact hheight

/-! ## Pending changes -/

theorem zonesOf_applyRemoveAndChange (changes : List PendingChange) (removes : List Nat)
    (whitespaces : List EditorWhitespace) :
    zonesOf (applyRemoveAndChange changes removes whitespaces) = Picture.settle changes removes (zonesOf whitespaces) := by
  unfold Picture.settle
  induction whitespaces with
  | nil => rfl
  | cons whitespace whitespaces ih =>
    unfold applyRemoveAndChange at ih ⊢
    rw [filterMap_cons, zonesOf_cons, filter_cons]
    by_cases hremoved : whitespace.id ∈ removes
    · have hzone : ¬whitespace.zone.id ∉ removes := not_not.mpr hremoved
      simp only [hremoved, hzone, if_true, decide_false, Bool.false_eq_true, if_false]
      exact ih
    · have hzone : whitespace.zone.id ∉ removes := hremoved
      simp only [hremoved, hzone, if_false, not_false_eq_true, decide_true, if_true, map_cons]
      cases hchange : changeOf changes whitespace.id with
      | none =>
        have hchanged : Picture.changed changes whitespace.zone = whitespace.zone := by
          simp [Picture.changed, EditorWhitespace.zone, hchange]
        rw [hchanged, ← ih]
        rfl
      | some change =>
        have hchanged : Picture.changed changes whitespace.zone = { whitespace.zone with
            afterLineNumber := change.newAfterLineNumber, height := change.newHeight } := by
          simp [Picture.changed, EditorWhitespace.zone, hchange]
        rw [hchanged, ← ih]
        rfl

theorem comesBefore_trans {a b c : EditorWhitespace} (hab : comesBefore a b) (hbc : comesBefore b c) :
    comesBefore a c := by
  unfold comesBefore at *
  split_ifs at * <;> simp at * <;> omega

theorem comesBefore_total (a b : EditorWhitespace) : comesBefore a b || comesBefore b a := by
  unfold comesBefore
  split_ifs <;> simp <;> omega

theorem comesBefore_le {a b : EditorWhitespace} (h : comesBefore a b) : a.afterLineNumber ≤ b.afterLineNumber := by
  unfold comesBefore at h
  split_ifs at h <;> simp at h <;> omega

theorem rebuild_sorted (whitespaces : List EditorWhitespace) : Sorted (whitespaces.mergeSort comesBefore) := by
  have htrans : ∀ a b c : EditorWhitespace, comesBefore a b → comesBefore b c → comesBefore a c :=
    fun _ _ _ => comesBefore_trans
  have hpairwise := pairwise_mergeSort htrans comesBefore_total whitespaces
  exact hpairwise.imp fun h => comesBefore_le h

theorem settle_nil (zones : List Zone) : Picture.settle [] [] zones = zones := by
  unfold Picture.settle
  have hfilter : (zones.filter fun zone => zone.id ∉ ([] : List Nat)) = zones := by
    simp
  rw [hfilter]
  exact List.map_id zones

section

variable (changes : List PendingChange)
include changes

theorem settle_append (removes : List Nat) (zones1 zones2 : List Zone) :
    Picture.settle changes removes (zones1 ++ zones2) =
      Picture.settle changes removes zones1 ++ Picture.settle changes removes zones2 := by
  unfold Picture.settle
  rw [filter_append, map_append]

theorem settle_perm {zones1 zones2 : List Zone} (removes : List Nat) (h : zones1.Perm zones2) :
    (Picture.settle changes removes zones1).Perm (Picture.settle changes removes zones2) :=
  (h.filter _).map _

theorem changed_id (zone : Zone) : (Picture.changed changes zone).id = zone.id := by
  unfold Picture.changed
  cases changeOf changes zone.id <;> rfl

theorem settle_ids (removes : List Nat) (zones : List Zone) :
    ((Picture.settle changes removes zones).map Zone.id).Sublist (zones.map Zone.id) := by
  unfold Picture.settle
  rw [map_map]
  have hids : Zone.id ∘ Picture.changed changes = Zone.id := by
    funext zone
    exact changed_id changes zone
  rw [hids]
  exact List.Sublist.map _ filter_sublist

end

theorem commitPendingChanges_rearranges (inserts : List EditorWhitespace) (changes : List PendingChange)
    (removes : List Nat) (hsorted : Sorted s.arr) (hsums : SumsOk s.arr s.prefixSumValidIndex)
    (hnodup : ((zonesOf s.arr).map Zone.id).Nodup) :
    Rearranges s (s.commitPendingChanges inserts changes removes)
      (Picture.settle changes removes (zonesOf s.arr ++ zonesOf inserts)) := by
  unfold commitPendingChanges
  by_cases hone : inserts.length + changes.length + removes.length ≤ 1
  · rw [if_pos hone]
    cases inserts with
    | nil =>
      cases changes with
      | nil =>
        cases removes with
        | nil =>
          have hzones : Picture.settle [] [] (zonesOf s.arr ++ zonesOf []) = zonesOf s.arr := by
            rw [settle_nil]
            exact append_nil _
          rw [hzones]
          exact ⟨hsorted, hsums, List.Perm.refl _, rfl⟩
        | cons id removes =>
          obtain rfl : removes = [] := length_eq_zero_iff.mp (by simp only [length_nil, length_cons] at hone; omega)
          have hzones : Picture.settle [] [id] (zonesOf s.arr ++ zonesOf []) =
              (zonesOf s.arr).filter fun zone => zone.id ≠ id := by
            unfold Picture.settle
            have hnil : zonesOf s.arr ++ zonesOf [] = zonesOf s.arr := append_nil _
            rw [hnil]
            simp only [mem_singleton]
            exact List.map_id _
          rw [hzones]
          dsimp only [foldl_nil, foldl_cons]
          cases hfind : s.findWhitespaceIndex id with
          | none =>
            have hall := findWhitespaceIndex_none hfind
            rw [filter_eq_self.mpr (by simpa using hall)]
            exact ⟨hsorted, hsums, List.Perm.refl _, rfl⟩
          | some index =>
            obtain ⟨l, whitespace, r, hsplit, rfl, hid⟩ := findWhitespaceIndex_some hfind
            have hremove := removeWhitespace_rearranges hsorted hsums hsplit
            rw [hsplit] at hnodup
            have hids := zone_eq_of_id hnodup
            rw [hid] at hids
            have hfilter : ((zonesOf s.arr).filter fun zone => zone.id ≠ id) = zonesOf (l ++ r) := by
              rw [hsplit, zonesOf_append, zonesOf_cons, filter_append, filter_cons]
              have hzone : ¬whitespace.zone.id ≠ id := not_not.mpr hid
              simp only [hzone, decide_false, Bool.false_eq_true, if_false]
              rw [zonesOf_append, ← filter_append, filter_eq_self.mpr]
              intro zone hzone
              rw [← zonesOf_append] at hzone
              exact decide_eq_true (hids zone hzone)
            rw [hfilter]
            exact hremove
      | cons change changes =>
        obtain rfl : changes = [] := length_eq_zero_iff.mp (by simp only [length_nil, length_cons] at hone; omega)
        obtain rfl : removes = [] := length_eq_zero_iff.mp (by simp only [length_nil, length_cons] at hone; omega)
        have hchange := changeOneWhitespace_rearranges change hsorted hsums hnodup
        refine ⟨hchange.sorted, hchange.sums, hchange.zones.trans ?_, hchange.frame⟩
        have hzones : Picture.settle [change] [] (zonesOf s.arr ++ zonesOf []) =
            (zonesOf s.arr).map (Picture.changed [change]) := by
          unfold Picture.settle
          rw [filter_eq_self.mpr (by simp)]
          exact congrArg _ (append_nil _)
        rw [hzones]
    | cons whitespace inserts =>
      obtain rfl : inserts = [] := length_eq_zero_iff.mp (by simp only [length_cons] at hone; omega)
      obtain rfl : changes = [] := length_eq_zero_iff.mp (by simp only [length_nil, length_cons] at hone; omega)
      obtain rfl : removes = [] := length_eq_zero_iff.mp (by simp only [length_nil, length_cons] at hone; omega)
      have hinsert := insertWhitespace_rearranges whitespace hsorted hsums
      refine ⟨hinsert.sorted, hinsert.sums, hinsert.zones.trans ?_, hinsert.frame⟩
      rw [settle_nil]
      exact (perm_append_singleton _ _).symm
  · rw [if_neg hone]
    refine ⟨rebuild_sorted _, ?_, ?_, rfl⟩
    · intro i hi
      dsimp only at hi
      omega
    · dsimp only
      rw [settle_append, ← zonesOf_applyRemoveAndChange, ← zonesOf_applyRemoveAndChange, ← zonesOf_append]
      exact (mergeSort_perm _ _).map _

end Arrays

/-! ## The layout and its picture -/

structure Shows (s : LinesLayout) (p : Picture) : Prop where
  sorted : Sorted s.arr
  sums : SumsOk s.arr s.prefixSumValidIndex
  nodup : ((zonesOf s.arr ++ zonesOf s.pendingChanges.inserts).map Zone.id).Nodup
  known : ∀ zone ∈ zonesOf s.arr ++ zonesOf s.pendingChanges.inserts, zone.id ≤ s.lastWhitespaceId
  zones : (zonesOf s.arr).Perm p.zones
  inserts : zonesOf s.pendingChanges.inserts = p.inserts
  changes : s.pendingChanges.changes = p.changes
  removes : s.pendingChanges.removes = p.removes
  pending : s.pendingChanges.hasPending = false → s.pendingChanges = {}
  lastId : s.lastWhitespaceId = p.lastId
  lineCount : s.lineCount = p.lineCount
  lineHeight : s.lineHeight = p.lineHeight
  paddingTop : s.paddingTop = p.paddingTop
  paddingBottom : s.paddingBottom = p.paddingBottom

section Steps

variable {s : LinesLayout} {p : Picture}

theorem shows_new (lineCount lineHeight paddingTop paddingBottom : Int) :
    Shows { lineCount, lineHeight, paddingTop, paddingBottom } { lineCount, lineHeight, paddingTop, paddingBottom } := by
  refine ⟨List.Pairwise.nil, ?_, nodup_nil, ?_, List.Perm.refl _, rfl, rfl, rfl, fun _ => rfl, rfl, rfl, rfl,
    rfl, rfl⟩
  · intro i hi hlt
    simp at hlt
  · intro zone hzone
    cases hzone

theorem Shows.commit (h : Shows s p) : Shows s.commit p.commit ∧ s.commit.pendingChanges = {} := by
  unfold LinesLayout.commit
  by_cases hpending : s.pendingChanges.hasPending
  · rw [if_pos hpending]
    have hnodup := h.nodup
    rw [map_append] at hnodup
    have hcommit := commitPendingChanges_rearranges (s := { s with pendingChanges := {} }) s.pendingChanges.inserts
      s.pendingChanges.changes s.pendingChanges.removes h.sorted h.sums (nodup_append.mp hnodup).1
    generalize LinesLayout.commitPendingChanges { s with pendingChanges := {} } s.pendingChanges.inserts
      s.pendingChanges.changes s.pendingChanges.removes = s' at hcommit ⊢
    obtain ⟨hsorted, hsums, hzones, hframe⟩ := hcommit
    have hpending' : s'.pendingChanges = {} := by rw [hframe]
    have hids := settle_ids s.pendingChanges.changes s.pendingChanges.removes
      (zonesOf s.arr ++ zonesOf s.pendingChanges.inserts)
    have hnil : zonesOf s'.arr ++ zonesOf s'.pendingChanges.inserts = zonesOf s'.arr := by
      rw [hpending']
      exact append_nil _
    refine ⟨⟨hsorted, hsums, ?_, ?_, ?_, ?_, ?_, ?_, fun _ => hpending', ?_, ?_, ?_, ?_, ?_⟩, hpending'⟩
    · rw [hnil]
      exact ((hzones.map Zone.id).nodup_iff).mpr (hids.nodup h.nodup)
    · rw [hnil]
      intro zone hzone
      have hmem := hids.subset (mem_map_of_mem (hzones.mem_iff.mp hzone))
      obtain ⟨zone', hzone', heq⟩ := mem_map.mp hmem
      have hlast : s'.lastWhitespaceId = s.lastWhitespaceId := by rw [hframe]
      rw [hlast, ← heq]
      exact h.known zone' hzone'
    · refine hzones.trans ?_
      show List.Perm _ (Picture.settle p.changes p.removes (p.zones ++ p.inserts))
      rw [h.changes, h.removes, h.inserts]
      exact settle_perm _ _ (h.zones.append_right _)
    · rw [hpending']
      rfl
    · rw [hpending']
      rfl
    · rw [hpending']
      rfl
    · rw [hframe]
      exact h.lastId
    · rw [hframe]
      exact h.lineCount
    · rw [hframe]
      exact h.lineHeight
    · rw [hframe]
      exact h.paddingTop
    · rw [hframe]
      exact h.paddingBottom
  · rw [if_neg hpending]
    have hnone := h.pending (Bool.eq_false_iff.mpr hpending)
    have hinserts := h.inserts
    have hchanges := h.changes
    have hremoves := h.removes
    rw [hnone] at hinserts hchanges hremoves
    refine ⟨⟨h.sorted, h.sums, h.nodup, h.known, ?_, h.inserts.trans hinserts.symm, h.changes.trans hchanges.symm,
      h.removes.trans hremoves.symm, h.pending, h.lastId, h.lineCount, h.lineHeight, h.paddingTop, h.paddingBottom⟩,
      hnone⟩
    show List.Perm _ (Picture.settle p.changes p.removes (p.zones ++ p.inserts))
    rw [← hchanges, ← hremoves, ← hinserts, settle_nil]
    show List.Perm _ (p.zones ++ [])
    rw [append_nil]
    exact h.zones

theorem checkPendingChanges_eq (s : LinesLayout) : s.checkPendingChanges = s.commit := by
  unfold LinesLayout.checkPendingChanges LinesLayout.commit
  split <;> rfl

theorem Shows.commit_commit (h : Shows s p) : s.commit.commit = s.commit := by
  have hpending := h.commit.2
  generalize s.commit = s' at *
  unfold LinesLayout.commit
  rw [hpending]
  rfl

theorem Picture.commit_commit (p : Picture) : p.commit.commit = p.commit := by
  unfold Picture.commit
  simp only [settle_nil, append_nil]

end Steps

end TongjiCode.ViewLayout
