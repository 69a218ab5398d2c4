import TongjiCode.EditorGroup.GroupRuns

/-!
# Stickiness of the other editors

One index says which editors are sticky, so each operation has to move it along with the editors.  An operation keeps
the others (`Keeps`) when the ones that stay do so in their order, sticky or not as before.  All do (`others_kept`), but
for an editor that replaces the one in preview behind the last sticky one and is itself put between the sticky ones
(`ReplacesBorder`).
-/

open List

namespace TongjiCode.EditorGroup

namespace EditorGroupModel

variable {g g' g'' : EditorGroupModel} {editor s : EditorInput}

def isStickyEditor (g : EditorGroupModel) (editor : EditorInput) : Bool := g.isSticky (indexOf (some editor) g.editors)

/-- The editor that an operation is about: the one in the group that matches, where `openEditor` finds one. -/
def subject (g : EditorGroupModel) : Operation → Option EditorInput
  | .openEditor candidate options =>
    match g.findEditorWith options.supportSideBySide candidate with
    | none => some candidate
    | some (existingEditor, _) => some existingEditor
  | .closeEditor candidate => some candidate
  | .moveEditor candidate _ => some candidate
  | .setActive candidate => candidate
  | .pin candidate => some candidate
  | .unpin candidate => some candidate
  | .stick candidate => some candidate
  | .unstick candidate => some candidate

/-- The others that are in both groups are sticky in both or in none, and come in the same order. -/
structure Undisturbed (g g' : EditorGroupModel) (subject : Option EditorInput) : Prop where
  sticky : ∀ y, subject ≠ some y → y ∈ g.editors → y ∈ g'.editors → g'.isStickyEditor y = g.isStickyEditor y
  order : g'.editors.filter (fun y => subject ≠ some y ∧ y ∈ g.editors) =
    g.editors.filter (fun y => subject ≠ some y ∧ y ∈ g'.editors)

/-- A new editor is opened neither pinned nor sticky, at a sticky index, and the editor in preview is the first one that
is not sticky. -/
def ReplacesBorder (g : EditorGroupModel) : Operation → Prop
  | .openEditor candidate options =>
    g.findEditorWith options.supportSideBySide candidate = none ∧ makePinned options = false ∧
      (∃ index : Nat, options.index = some index ∧ g.isSticky index = true) ∧
      ∃ preview, g.preview = some preview ∧ g.editors[(g.sticky + 1).toNat]? = some preview
  | _ => False

theorem isStickyEditor_iff (h : g.Sound) (hmem : editor ∈ g.editors) :
    g.isStickyEditor editor = true ↔ editor ∈ g.stickyEditors := by
  unfold isStickyEditor
  rw [indexOf_mem hmem]
  exact isSticky_idxOf h hmem

/-! ## Keeping the others -/

/-- Every editor but `s` that is in the second group was in the first one, in this order, and just as sticky. -/
structure Keeps (g g' : EditorGroupModel) (s : EditorInput) : Prop where
  sticky : ∀ y ∈ g'.editors, y ≠ s → (y ∈ g'.stickyEditors ↔ y ∈ g.stickyEditors)
  order : (g'.editors.erase s).Sublist (g.editors.erase s)

theorem Keeps.of_fields (heditors : g'.editors = g.editors) (hsticky : g'.sticky = g.sticky) (s : EditorInput) :
    Keeps g g' s := by
  refine ⟨fun y _ _ => ?_, ?_⟩
  · unfold stickyEditors
    rw [heditors, hsticky]
  · rw [heditors]

theorem Keeps.trans (h1 : Keeps g g' s) (h2 : Keeps g' g'' s) : Keeps g g'' s := by
  refine ⟨fun y hy hne => ?_, h2.order.trans h1.order⟩
  have hy' : y ∈ g'.editors := mem_of_mem_erase (h2.order.mem ((mem_erase_of_ne hne).mpr hy))
  exact (h2.sticky y hy hne).trans (h1.sticky y hy' hne)

theorem filter_mem_sublist {l l' : List EditorInput} (h : l'.Sublist l) (hnodup : l.Nodup) :
    l.filter (fun y => y ∈ l') = l' := by
  induction h with
  | slnil => rfl
  | cons x hsub ih =>
    rw [nodup_cons] at hnodup
    rw [filter_cons_of_neg (by simpa using fun hx => hnodup.1 (hsub.mem hx)), ih hnodup.2]
  | cons_cons x hsub ih =>
    rw [nodup_cons] at hnodup
    rw [filter_cons_of_pos (by simp)]
    congr 1
    rw [← ih hnodup.2]
    apply filter_congr
    intro y hy
    have hne : y ≠ x := fun heq => hnodup.1 (heq ▸ hy)
    simp [hne, ih hnodup.2]

theorem Keeps.undisturbed (h : g.Sound) (h' : g'.Sound) (hkeeps : Keeps g g' s) : Undisturbed g g' (some s) := by
  constructor
  · intro y hne hy hy'
    rw [Bool.eq_iff_iff, isStickyEditor_iff h' hy', isStickyEditor_iff h hy]
    exact hkeeps.sticky y hy' fun heq => hne (by rw [heq])
  · have hleft : g'.editors.filter (fun y => some s ≠ some y ∧ y ∈ g.editors) = g'.editors.erase s := by
      rw [h'.nodup.erase_eq_filter]
      apply filter_congr
      intro y hy
      by_cases hne : y = s
      · simp [hne]
      · have hmem : y ∈ g.editors :=
          mem_of_mem_erase (hkeeps.order.mem ((mem_erase_of_ne hne).mpr hy))
        simp [hne, Ne.symm hne, hmem]
    have hright : g.editors.filter (fun y => some s ≠ some y ∧ y ∈ g'.editors) =
        (g.editors.erase s).filter (fun y => y ∈ g'.editors.erase s) := by
      rw [h.nodup.erase_eq_filter, filter_filter]
      apply filter_congr
      intro y _
      by_cases hne : y = s
      · simp [hne]
      · simp [hne, Ne.symm hne, mem_erase_of_ne hne]
    rw [hleft, hright, filter_mem_sublist hkeeps.order (h.nodup.erase s)]

/-! ## Operations on the editors of the group -/

theorem erase_insert {l : List EditorInput} {x : EditorInput} (hx : x ∉ l) (t : Nat) :
    (l.take t ++ x :: l.drop t).erase x = l := by
  rw [erase_append_right _ fun hin => hx (mem_of_mem_take hin), erase_cons_head, take_append_drop]

theorem keeps_moveEditor (h : g.Sound) (editor : EditorInput) (toIndex : Int) :
    Keeps g (g.moveEditor editor toIndex) editor := by
  by_cases hmem : editor ∈ g.editors
  swap
  · rw [moveEditor_not_mem hmem]
    exact .of_fields rfl rfl editor
  refine ⟨fun y _ hne => ?_, ?_⟩
  · rw [mem_stickyEditors_moveEditor h hmem]
    split <;> simp [hne]
  · by_cases heq : g.boundedIndex toIndex = g.editors.idxOf editor
    · rw [moveEditor_same hmem heq]
    · rw [moveEditor_eq h hmem toIndex heq]
      rw [erase_insert, eraseIdx_idxOf_eq_erase]
      rw [eraseIdx_idxOf_eq_erase]
      exact h.nodup.not_mem_erase

theorem keeps_closeEditor (configuration : Configuration) (h : g.Sound) (editor s : EditorInput) (openNext : Bool) :
    Keeps g (g.closeEditor configuration editor openNext) s := by
  by_cases hmem : editor ∈ g.editors
  swap
  · rw [closeEditor_not_mem configuration hmem]
    exact .of_fields rfl rfl s
  obtain ⟨heditors, -⟩ := closeEditor_spec configuration h.toCoherent hmem openNext
  obtain ⟨hsticky, -⟩ := closeEditor_sticky configuration h hmem openNext
  refine ⟨fun y hy _ => ?_, ?_⟩
  · rw [heditors] at hy
    have hne : y ≠ editor := (h.nodup.mem_erase_iff.mp hy).1
    rw [hsticky]
    simp [hne]
  · rw [heditors, erase_comm]
    exact erase_sublist

/-- An editor that becomes sticky was moved right behind the sticky ones. -/
theorem keeps_doStick (h : g.Sound) (hmem : editor ∈ g.editors) :
    Keeps g (g.doStick editor (g.editors.idxOf editor)) editor := by
  by_cases hin : g.isSticky (g.editors.idxOf editor) = true
  · unfold doStick
    rw [if_pos hin]
    exact .of_fields rfl rfl editor
  obtain ⟨hdef, -, hsame, hget, hmembers⟩ := stickMove_spec h hmem hin
  have hlow := h.stickyLow
  refine ⟨fun y _ hne => ?_, ?_⟩
  · have hcount : (g.sticky + 1 + 1).toNat = (g.sticky + 1).toNat + 1 := by omega
    have hy := hmembers y
    unfold stickyEditors at hy
    rw [hsame] at hy
    rw [hdef]
    unfold stickyEditors
    rw [hcount, take_add_one, hget, mem_append, hy]
    simp [hne]
  · rw [hdef]
    refine ((keeps_moveEditor (h.doPin editor) editor (g.sticky + 1)).order).trans ?_
    rw [doPin_eq]

/-- An editor that is no longer sticky was moved to the end of the sticky ones. -/
theorem keeps_doUnstick (h : g.Sound) (hmem : editor ∈ g.editors) :
    Keeps g (g.doUnstick editor (g.editors.idxOf editor)) editor := by
  by_cases hin : g.isSticky (g.editors.idxOf editor) = true
  swap
  · unfold doUnstick
    rw [if_pos (by simpa using hin)]
    exact .of_fields rfl rfl editor
  obtain ⟨hdef, hmoved, hsame, hget, hmembers⟩ := unstickMove_spec h hmem hin
  have hidx := (isSticky_iff _).mp hin
  refine ⟨fun y _ hne => ?_, ?_⟩
  · have hcount : (g.sticky + 1).toNat = g.sticky.toNat + 1 := by omega
    have hcount' : (g.sticky - 1 + 1).toNat = g.sticky.toNat := by omega
    have hy := hmembers y
    unfold stickyEditors at hy
    rw [hsame, hcount, take_add_one, hget, mem_append] at hy
    rw [hdef]
    unfold stickyEditors
    rw [hcount', hcount]
    simpa [hne] using hy
  · rw [hdef]
    exact (keeps_moveEditor h editor g.sticky).order

theorem keeps_doUnpin (configuration : Configuration) (h : g.Sound) (hmem : editor ∈ g.editors) :
    Keeps g (g.doUnpin configuration editor) editor := by
  have hset : ({ g with preview := some editor } : EditorGroupModel).Sound :=
    ⟨⟨h.nodup, h.mru, h.active⟩, fun editor' heq => Option.some.inj heq ▸ hmem, h.stickyLow, h.stickyHigh⟩
  have hsame : Keeps g { g with preview := some editor } editor := by
    refine .of_fields ?_ ?_ editor
    · rfl
    · rfl
  unfold EditorGroupModel.doUnpin
  split
  · exact .of_fields rfl rfl editor
  · dsimp only
    split
    · exact hsame
    · exact hsame.trans (keeps_closeEditor configuration hset _ editor true)

theorem keeps_openExisting (h : g.Sound) (hmem : editor ∈ g.editors) (options : EditorOpenOptions) :
    Keeps g (g.openExisting editor options) editor := by
  obtain ⟨h2, heditors, hsticky, -⟩ := prepareExisting_spec h hmem options
  rw [openExisting_def]
  dsimp only
  generalize g.prepareExisting editor options = g2 at h2 heditors hsticky ⊢
  have hfirst : Keeps g g2 editor := .of_fields heditors hsticky editor
  have hmoved : (g2.moveTo editor options.index).Sound ∧ editor ∈ (g2.moveTo editor options.index).editors ∧
      Keeps g2 (g2.moveTo editor options.index) editor := by
    have hmem2 : editor ∈ g2.editors := by
      rw [heditors]
      exact hmem
    cases options.index with
    | none => exact ⟨h2, hmem2, .of_fields rfl rfl editor⟩
    | some index =>
      exact ⟨h2.moveEditor editor index, (moveEditor_perm h2 editor index).1.mem_iff.mpr hmem2,
        keeps_moveEditor h2 editor index⟩
  obtain ⟨h3, hmem3, hkeeps⟩ := hmoved
  split
  · rw [indexOf_mem hmem3]
    exact (hfirst.trans hkeeps).trans (keeps_doStick h3 hmem3)
  · exact hfirst.trans hkeeps

/-! ## New editors -/

variable {options : EditorOpenOptions}

section

variable (configuration : Configuration) (h : g.Sound) (hnew : editor ∉ g.editors)
variable (hindex : ∀ index, options.index = some index → index ≤ g.editors.length)
include configuration h hnew hindex

theorem keeps_inserted :
    Keeps g ((g.stickied options).splice (g.newIndex configuration options) false (some editor)) editor := by
  obtain ⟨hlow, hhigh, -, -⟩ := newIndex_bounds configuration h hindex
  obtain ⟨heditors, hmru, -⟩ := stickied_frame g options
  obtain ⟨hinsert, -⟩ := splice_insert (g := g.stickied options) (by rw [heditors]; exact h.nodup)
    (by rw [hmru, heditors]; exact h.mru) (by rw [heditors]; exact hnew) hlow (by rw [heditors]; exact hhigh)
  rw [heditors] at hinsert
  refine ⟨fun y _ hne => ?_, ?_⟩
  · rw [mem_stickyEditors_inserted configuration h hnew hindex]
    simp [hne]
  · rw [hinsert, erase_insert hnew, erase_of_not_mem hnew]

theorem replaced_eq {preview : EditorInput} (hpreview : g.preview = some preview) (openNext : Bool) :
    let r := if g.newIndex configuration options > g.editors.idxOf preview then g.newIndex configuration options - 1
      else g.newIndex configuration options
    let sticky := if g.makeSticky options then g.sticky + 1 else g.sticky
    let replaced := (g.stickied options).replaceEditor configuration preview editor
      (g.replaceIndex configuration options preview) openNext
    replaced.editors = (g.editors.eraseIdx (g.editors.idxOf preview)).take r.toNat ++
        editor :: (g.editors.eraseIdx (g.editors.idxOf preview)).drop r.toNat ∧
      replaced.sticky = if (g.editors.idxOf preview : Int) ≤ sticky then sticky - 1 else sticky := by
  intro r sticky replaced
  have hmem := h.preview preview hpreview
  have hlt := idxOf_lt_length_of_mem hmem
  obtain ⟨hlow, hhigh, -, -⟩ := newIndex_bounds configuration h hindex
  obtain ⟨heditors1, hmru1, -, hactive1, hsticky1⟩ := stickied_frame g options
  have hcoherent1 : (g.stickied options).Coherent := by
    refine ⟨?_, ?_, ?_⟩
    · rw [heditors1]
      exact h.nodup
    · rw [hmru1, heditors1]
      exact h.mru
    · rw [hactive1, hmru1]
      exact h.active
  obtain ⟨heditors2, hperm2, -, hsticky2, -⟩ := closeEditor_spec configuration hcoherent1
    (by rw [heditors1]; exact hmem : preview ∈ (g.stickied options).editors) openNext
  rw [heditors1] at heditors2 hperm2 hsticky2
  have hlength2 : (g.editors.erase preview).length = g.editors.length - 1 := length_erase_of_mem hmem
  have hr : g.replaceIndex configuration options preview = r := by
    unfold replaceIndex
    rw [indexOf_mem hmem]
  have hrBounds : 0 ≤ r ∧ r ≤ (g.editors.erase preview).length := by
    show 0 ≤ (if g.newIndex configuration options > g.editors.idxOf preview then g.newIndex configuration options - 1
      else g.newIndex configuration options) ∧ (if g.newIndex configuration options > g.editors.idxOf preview then
        g.newIndex configuration options - 1 else g.newIndex configuration options) ≤ _
    split <;> omega
  have hnew2 : editor ∉ g.editors.erase preview := fun hin => hnew (mem_of_mem_erase hin)
  obtain ⟨hinsert, -⟩ := splice_insert (g := (g.stickied options).closeEditor configuration preview openNext)
    (by rw [heditors2]; exact h.nodup.erase preview) (by rw [heditors2]; exact hperm2)
    (by rw [heditors2]; exact hnew2) hrBounds.1 (by rw [heditors2]; exact hrBounds.2)
  constructor
  · show ((((g.stickied options).closeEditor configuration preview openNext).splice _ false (some editor))).editors = _
    rw [hr, hinsert, heditors2, eraseIdx_idxOf_eq_erase]
  · show ((((g.stickied options).closeEditor configuration preview openNext).splice _ false (some editor))).sticky = _
    rw [(splice_insert_frame _ _ _).2.2, hsticky2, hsticky1]
    have hstickyIff : (g.stickied options).isSticky (g.editors.idxOf preview) = true ↔
        (g.editors.idxOf preview : Int) ≤ sticky := by
      unfold isSticky
      rw [hsticky1]
      simp only [Bool.and_eq_true, Bool.not_eq_true', decide_eq_false_iff_not, decide_eq_true_eq]
      show _ ∧ (g.editors.idxOf preview : Int) ≤ sticky ↔ _
      omega
    simp only [hstickyIff]
    rfl

theorem keeps_replaced {preview : EditorInput} (hpreview : g.preview = some preview) (openNext : Bool)
    (hborder : g.makeSticky options = true → (g.editors.idxOf preview : Int) ≠ g.sticky + 1) :
    Keeps g ((g.stickied options).replaceEditor configuration preview editor
      (g.replaceIndex configuration options preview) openNext) editor := by
  have hmem := h.preview preview hpreview
  have hlt := idxOf_lt_length_of_mem hmem
  have hget := getElem?_idxOf hmem
  obtain ⟨hlow', hhigh', hbehind, hfront⟩ := newIndex_bounds configuration h hindex
  obtain ⟨heditors, hsticky⟩ := replaced_eq configuration h hnew hindex hpreview openNext
  have hlen : (g.editors.eraseIdx (g.editors.idxOf preview)).length = g.editors.length - 1 :=
    length_eraseIdx_of_lt hlt
  have hnew' : editor ∉ g.editors.eraseIdx (g.editors.idxOf preview) :=
    fun hin => hnew (mem_of_mem_eraseIdx hin)
  refine ⟨fun y hy hne => ?_, ?_⟩
  · -- whether the others are sticky is decided without the editor in preview
    have hyne : y ≠ preview := by
      rintro rfl
      rw [heditors, mem_append, mem_cons, eraseIdx_idxOf_eq_erase] at hy
      rcases hy with hin | hin | hin
      · exact h.nodup.not_mem_erase (mem_of_mem_take hin)
      · exact hne hin
      · exact h.nodup.not_mem_erase (mem_of_mem_drop hin)
    have hbefore : ∀ n : Nat, g.editors.idxOf preview < n →
        (y ∈ (g.editors.eraseIdx (g.editors.idxOf preview)).take (n - 1) ↔ y ∈ g.editors.take n) := by
      intro n hn
      rw [mem_take_eraseIdx h.nodup hn hget]
      simp [hyne]
    have hafter : ∀ n : Nat, n ≤ g.editors.idxOf preview →
        (y ∈ (g.editors.eraseIdx (g.editors.idxOf preview)).take n ↔ y ∈ g.editors.take n) := by
      intro n hn
      rw [take_eraseIdx hn hlt]
    unfold stickyEditors
    rw [heditors, hsticky]
    cases hmake : g.makeSticky options with
    | false =>
      have := hbehind hmake
      rw [if_neg (by decide : ¬ false = true)]
      by_cases hidx : (g.editors.idxOf preview : Int) ≤ g.sticky
      · rw [if_pos hidx, ← hbefore (g.sticky + 1).toNat (by omega)]
        have hcount : (g.sticky - 1 + 1).toNat = (g.sticky + 1).toNat - 1 := by omega
        rw [hcount, take_insert (by split <;> omega) (by rw [hlen]; split <;> omega)]
      · rw [if_neg hidx, ← hafter (g.sticky + 1).toNat (by omega),
          take_insert (by split <;> omega) (by rw [hlen]; split <;> omega)]
    | true =>
      have := hfront hmake
      have := hborder hmake
      rw [if_pos rfl]
      by_cases hidx : (g.editors.idxOf preview : Int) ≤ g.sticky
      · rw [if_pos (by omega), ← hbefore (g.sticky + 1).toNat (by omega)]
        have hcount : (g.sticky + 1 - 1 + 1).toNat = (g.sticky + 1).toNat - 1 + 1 := by omega
        rw [hcount, mem_take_insert (by split <;> omega) (by rw [hlen]; split <;> omega)]
        simp [hne]
      · rw [if_neg (by omega), ← hafter (g.sticky + 1).toNat (by omega)]
        have hcount : (g.sticky + 1 + 1).toNat = (g.sticky + 1).toNat + 1 := by omega
        rw [hcount, mem_take_insert (by split <;> omega) (by rw [hlen]; split <;> omega)]
        simp [hne]
  · rw [heditors, erase_insert hnew', erase_of_not_mem hnew]
    exact eraseIdx_sublist _ _

theorem keeps_openNew
    (hborder : makePinned options = false → g.makeSticky options = true → ∀ preview, g.preview = some preview → g.editors[(g.sticky + 1).toNat]? ≠ some preview) :
    Keeps g (g.openNew configuration editor options) editor := by
  have hplaced : Keeps g (g.placeNew configuration editor options) editor := by
    have hinserted := keeps_inserted configuration h hnew hindex
    unfold placeNew
    split
    · exact hinserted
    · next hpin =>
      cases hcase : g.preview with
      | none =>
        refine hinserted.trans (.of_fields ?_ ?_ editor)
        · rfl
        · rfl
      | some preview =>
        have hkeeps := keeps_replaced configuration h hnew hindex hcase (!g.makeActive options) (by
          intro hmake hidx
          refine hborder (Bool.eq_false_iff.mpr hpin) hmake preview hcase ?_
          have hcast : (g.sticky + 1).toNat = g.editors.idxOf preview := by omega
          rw [hcast]
          exact getElem?_idxOf (h.preview preview hcase))
        refine hkeeps.trans (.of_fields ?_ ?_ editor)
        · rfl
        · rfl
  rw [openNew_def]
  split
  · obtain ⟨heditors, -, hsticky⟩ := doSetActive_frame (g.placeNew configuration editor options) editor
    exact hplaced.trans (.of_fields heditors hsticky editor)
  · exact hplaced

end

/-! ## Indices behind the end -/

/-- An index behind the end, limited to the end. -/
def limited (g : EditorGroupModel) (options : EditorOpenOptions) : EditorOpenOptions :=
  { options with index := options.index.map fun index => min index g.editors.length }

theorem isSticky_limited (h : g.Sound) (index : Nat) :
    g.isSticky (min index g.editors.length : Nat) = g.isSticky (index : Int) := by
  have := h.stickyHigh
  rw [Bool.eq_iff_iff, isSticky_iff, isSticky_iff]
  omega

theorem makeSticky_limited (h : g.Sound) (options : EditorOpenOptions) :
    g.makeSticky (g.limited options) = g.makeSticky options := by
  unfold makeSticky limited
  cases options.index with
  | none => rfl
  | some index =>
    simp only [Option.map_some, Option.getD_some]
    rw [isSticky_limited h]

theorem splice_limited (g : EditorGroupModel) (editor : EditorInput) {i j : Int} (hi : g.editors.length ≤ i)
    (hj : g.editors.length ≤ j) : g.splice i false (some editor) = g.splice j false (some editor) := by
  have hsplice : spliceArray g.editors i 0 [editor] = spliceArray g.editors j 0 [editor] := by
    unfold spliceArray
    rw [if_neg (by omega), if_neg (by omega), Nat.min_eq_right (by omega), Nat.min_eq_right (by omega)]
  unfold splice
  simp only [Bool.false_and, Bool.false_eq_true, if_false, Option.toList_some]
  rw [hsplice]

section

variable (configuration : Configuration) (h : g.Sound)
include configuration h

theorem newIndex_limited (options : EditorOpenOptions) :
    g.newIndex configuration (g.limited options) = g.newIndex configuration options ∨
      g.newIndex configuration (g.limited options) = g.editors.length ∧
        g.editors.length ≤ g.newIndex configuration options := by
  have hhigh := h.stickyHigh
  have hmake := makeSticky_limited h options
  cases hcase : options.index with
  | none =>
    left
    have hsame : g.limited options = options := by
      unfold limited
      rw [hcase, Option.map_none, ← hcase]
    rw [hsame]
  | some index =>
    have hlimited : (g.limited options).index = some (min index g.editors.length) := by
      unfold limited
      rw [hcase]
      rfl
    have hstickied : g.stickied (g.limited options) = g.stickied options := by
      unfold stickied
      rw [hmake]
    unfold newIndex targetIndex
    dsimp only
    rw [hmake, hstickied, hcase, hlimited]
    by_cases hle : index ≤ g.editors.length
    · left
      rw [Nat.min_eq_left hle]
    · have hmin : min index g.editors.length = g.editors.length := by omega
      rw [hmin]
      cases hsticky : g.makeSticky options with
      | false => exact .inr ⟨rfl, by simp; omega⟩
      | true =>
        left
        have hvalue : (g.stickied options).sticky = g.sticky + 1 := by
          rw [(stickied_frame g options).2.2.2.2, hsticky, if_pos rfl]
        have hout : (g.stickied options).isSticky (index : Int) = false := by
          unfold isSticky
          simp
          omega
        rw [hout, hvalue]
        simp only [Bool.not_false, Bool.and_true, if_true]
        split
        · rfl
        · next hin =>
          have : (g.stickied options).isSticky (g.editors.length : Int) = true := by simpa using hin
          unfold isSticky at this
          simp only [Bool.and_eq_true, decide_eq_true_eq] at this
          omega

theorem openNew_limited (options : EditorOpenOptions) :
    g.openNew configuration editor (g.limited options) = g.openNew configuration editor options := by
  have hmake := makeSticky_limited h options
  have hstickied : g.stickied (g.limited options) = g.stickied options := by
    unfold stickied
    rw [hmake]
  have hactive : g.makeActive (g.limited options) = g.makeActive options := rfl
  have hpinned : makePinned (g.limited options) = makePinned options := rfl
  obtain ⟨heditors, -⟩ := stickied_frame g options
  have hinserted : (g.stickied options).splice (g.newIndex configuration (g.limited options)) false (some editor) =
      (g.stickied options).splice (g.newIndex configuration options) false (some editor) := by
    rcases newIndex_limited configuration h options with heq | ⟨heq, hle⟩
    · rw [heq]
    · exact splice_limited _ editor (Int.le_of_eq (by rw [heq, heditors])) (by rw [heditors]; exact hle)
  have hreplaced : ∀ preview, g.preview = some preview → ∀ openNext,
      (g.stickied options).replaceEditor configuration preview editor
          (g.replaceIndex configuration (g.limited options) preview) openNext =
        (g.stickied options).replaceEditor configuration preview editor
          (g.replaceIndex configuration options preview) openNext := by
    intro preview hpreview openNext
    rcases newIndex_limited configuration h options with heq | ⟨heq, hle⟩
    · unfold replaceIndex
      rw [heq]
    · have hmem := h.preview preview hpreview
      have hlt := idxOf_lt_length_of_mem hmem
      obtain ⟨heditors1, hmru1, -, hactive1, -⟩ := stickied_frame g options
      have hcoherent : (g.stickied options).Coherent := by
        refine ⟨?_, ?_, ?_⟩
        · rw [heditors1]
          exact h.nodup
        · rw [hmru1, heditors1]
          exact h.mru
        · rw [hactive1, hmru1]
          exact h.active
      obtain ⟨hclosed, -⟩ := closeEditor_spec configuration hcoherent
        (by rw [heditors1]; exact hmem : preview ∈ (g.stickied options).editors) openNext
      have hlength : ((g.stickied options).closeEditor configuration preview openNext).editors.length =
          g.editors.length - 1 := by
        rw [hclosed, heditors1, length_erase_of_mem hmem]
      unfold replaceEditor replaceIndex
      exact splice_limited _ editor (by rw [hlength]; omega) (by rw [hlength]; omega)
  rw [openNew_def, openNew_def, hactive]
  have hplace : g.placeNew configuration editor (g.limited options) = g.placeNew configuration editor options := by
    unfold placeNew
    rw [hpinned, hstickied, hactive, hinserted]
    cases hcase : g.preview with
    | none => rfl
    | some preview =>
      dsimp only
      rw [hreplaced preview hcase]
  rw [hplace]

omit configuration h in
theorem openExisting_limited (h : g.Sound) (hmem : editor ∈ g.editors) (options : EditorOpenOptions) :
    g.openExisting editor (g.limited options) = g.openExisting editor options := by
  obtain ⟨-, heditors, -, -⟩ := prepareExisting_spec h hmem options
  have hprepare : g.prepareExisting editor (g.limited options) = g.prepareExisting editor options := rfl
  have hmoved : (g.prepareExisting editor options).moveTo editor (g.limited options).index =
      (g.prepareExisting editor options).moveTo editor options.index := by
    have hindex : (g.limited options).index = options.index.map fun index => min index g.editors.length := rfl
    rw [hindex]
    unfold moveTo
    cases options.index with
    | none => rfl
    | some index =>
      dsimp only [Option.map_some]
      rw [moveEditor_def, moveEditor_def]
      have hbounded : (g.prepareExisting editor options).boundedIndex (min index g.editors.length : Nat) =
          (g.prepareExisting editor options).boundedIndex (index : Int) := by
        unfold boundedIndex
        rw [heditors]
        split_ifs <;> omega
      rw [hbounded]
  rw [openExisting_def, openExisting_def, makeSticky_limited h, hprepare]
  rw [hmoved]

omit configuration h in
def limitedOperation (g : EditorGroupModel) : Operation → Operation
  | .openEditor candidate options => .openEditor candidate (g.limited options)
  | operation => operation

theorem perform_limited (operation : Operation) :
    g.perform configuration (g.limitedOperation operation) = g.perform configuration operation ∧
      g.InRange (g.limitedOperation operation) := by
  cases operation with
  | openEditor candidate options =>
    constructor
    · show g.openEditor configuration candidate (g.limited options) = g.openEditor configuration candidate options
      unfold openEditor
      have hside : (g.limited options).supportSideBySide = options.supportSideBySide := rfl
      rw [hside]
      rcases findEditorWith_cases g options.supportSideBySide candidate with ⟨hfind, -⟩ | ⟨editor, i, hfind, hmem⟩
      · rw [hfind]
        exact openNew_limited configuration h options
      · rw [hfind]
        exact openExisting_limited h hmem options
    · intro index hindex
      unfold limited at hindex
      cases hcase : options.index with
      | none =>
        rw [hcase] at hindex
        cases hindex
      | some i =>
        rw [hcase] at hindex
        cases hindex
        exact Nat.min_le_right _ _
  | _ => exact ⟨rfl, trivial⟩

omit configuration h in
/-- Every group is sound, whatever indices are asked for. -/
theorem run_sound (h : g.Sound) (operations : List (Configuration × Operation)) : (g.run operations).Sound := by
  induction operations generalizing g with
  | nil => exact h
  | cons operation operations ih =>
    obtain ⟨configuration, operation⟩ := operation
    obtain ⟨heq, hindex⟩ := perform_limited configuration h operation
    have hsound := (perform_spec configuration h hindex).1
    rw [heq] at hsound
    exact ih hsound

/-! ## Operations -/

theorem keeps_openEditor (candidate : EditorInput) (hindex : g.InRange (.openEditor candidate options))
    (hborder : ¬ g.ReplacesBorder (.openEditor candidate options)) :
    ∃ s, g.subject (.openEditor candidate options) = some s ∧
      Keeps g (g.openEditor configuration candidate options) s := by
  unfold openEditor subject
  dsimp only
  rcases findEditorWith_cases g options.supportSideBySide candidate with ⟨hfind, hnew⟩ | ⟨editor, i, hfind, hmem⟩
  · rw [hfind]
    refine ⟨candidate, rfl, keeps_openNew configuration h hnew hindex ?_⟩
    intro hpin hmake preview hpreview hget
    refine hborder ⟨hfind, hpin, ?_, preview, hpreview, hget⟩
    unfold makePinned at hpin
    rw [Bool.or_eq_false_iff] at hpin
    unfold makeSticky at hmake
    rw [hpin.2, Bool.false_or] at hmake
    cases hcase : options.index with
    | none =>
      rw [hcase] at hmake
      cases hmake
    | some index =>
      rw [hcase] at hmake
      exact ⟨index, rfl, hmake⟩
  · rw [hfind]
    exact ⟨editor, rfl, keeps_openExisting h hmem options⟩

theorem perform_keeps {operation : Operation} (hindex : g.InRange operation) (hborder : ¬ g.ReplacesBorder operation) :
    g.perform configuration operation = g ∨
      ∃ s, g.subject operation = some s ∧ Keeps g (g.perform configuration operation) s := by
  cases operation with
  | openEditor candidate options => exact .inr (keeps_openEditor configuration h candidate hindex hborder)
  | closeEditor candidate => exact .inr ⟨candidate, rfl, keeps_closeEditor configuration h candidate candidate true⟩
  | moveEditor candidate toIndex => exact .inr ⟨candidate, rfl, keeps_moveEditor h candidate toIndex⟩
  | setActive candidate =>
    cases candidate with
    | none => exact .inl rfl
    | some candidate =>
      refine .inr ⟨candidate, rfl, ?_⟩
      show Keeps g (g.setActive (some candidate)) candidate
      unfold EditorGroupModel.setActive
      dsimp only
      split
      · exact .of_fields rfl rfl candidate
      · obtain ⟨heditors, -, hsticky⟩ := doSetActive_frame g ‹EditorInput›
        exact .of_fields heditors hsticky candidate
  | pin candidate =>
    refine .inr ⟨candidate, rfl, ?_⟩
    show Keeps g (g.pin candidate) candidate
    unfold EditorGroupModel.pin
    split
    · exact .of_fields rfl rfl candidate
    · refine .of_fields ?_ ?_ candidate
      · rw [doPin_eq]
      · rw [doPin_eq]
  | unpin candidate =>
    refine .inr ⟨candidate, rfl, ?_⟩
    show Keeps g (g.unpin configuration candidate) candidate
    unfold EditorGroupModel.unpin
    by_cases hmem : candidate ∈ g.editors
    · rw [findEditor_mem hmem]
      exact keeps_doUnpin configuration h hmem
    · rw [findEditor_not_mem hmem]
      exact .of_fields rfl rfl candidate
  | stick candidate =>
    refine .inr ⟨candidate, rfl, ?_⟩
    show Keeps g (g.stick candidate) candidate
    unfold EditorGroupModel.stick
    by_cases hmem : candidate ∈ g.editors
    · rw [findEditor_mem hmem]
      exact keeps_doStick h hmem
    · rw [findEditor_not_mem hmem]
      exact .of_fields rfl rfl candidate
  | unstick candidate =>
    refine .inr ⟨candidate, rfl, ?_⟩
    show Keeps g (g.unstick candidate) candidate
    unfold EditorGroupModel.unstick
    by_cases hmem : candidate ∈ g.editors
    · rw [findEditor_mem hmem]
      exact keeps_doUnstick h hmem
    · rw [findEditor_not_mem hmem]
      exact .of_fields rfl rfl candidate

end

theorem Undisturbed.refl (g : EditorGroupModel) (subject : Option EditorInput) : Undisturbed g g subject :=
  ⟨fun _ _ _ _ => rfl, rfl⟩

theorem replacesBorder_limited (h : g.Sound) (operation : Operation) :
    g.ReplacesBorder (g.limitedOperation operation) → g.ReplacesBorder operation := by
  cases operation with
  | openEditor candidate options =>
    rintro ⟨hfind, hpin, ⟨index, hindex, hsticky⟩, hpreview⟩
    refine ⟨hfind, hpin, ?_, hpreview⟩
    unfold limited at hindex
    cases hcase : options.index with
    | none =>
      rw [hcase] at hindex
      cases hindex
    | some i =>
      rw [hcase] at hindex
      cases hindex
      exact ⟨i, rfl, by rw [← isSticky_limited h]; exact hsticky⟩
  | _ => exact id

theorem perform_undisturbed (configuration : Configuration) (h : g.Sound) {operation : Operation}
    (hborder : ¬ g.ReplacesBorder operation) :
    Undisturbed g (g.perform configuration operation) (g.subject operation) := by
  obtain ⟨heq, hindex⟩ := perform_limited configuration h operation
  have hsubject : g.subject (g.limitedOperation operation) = g.subject operation := by
    cases operation <;> rfl
  have hsound := (perform_spec configuration h hindex).1
  rcases perform_keeps configuration h hindex (fun hin => hborder (replacesBorder_limited h operation hin))
    with hsame | ⟨s, hs, hkeeps⟩
  · rw [← heq, hsame]
    exact .refl g _
  · rw [hsubject] at hs
    rw [heq] at hkeeps hsound
    rw [hs]
    exact hkeeps.undisturbed h hsound

theorem stick_last (h : g.Sound) (hmem : editor ∈ g.editors) (hout : g.isStickyEditor editor = false) :
    indexOf (some editor) (g.stick editor).editors = (g.stick editor).sticky := by
  have hin : ¬ g.isSticky (g.editors.idxOf editor) = true := by
    unfold isStickyEditor at hout
    rw [indexOf_mem hmem] at hout
    rw [hout]
    exact Bool.false_ne_true
  obtain ⟨hdef, hmoved, -, hget, -⟩ := stickMove_spec h hmem hin
  have hlow := h.stickyLow
  have hstick : g.stick editor = { (g.doPin editor).moveEditor editor (g.sticky + 1) with sticky := g.sticky + 1 } := by
    unfold EditorGroupModel.stick
    rw [findEditor_mem hmem]
    exact hdef
  obtain ⟨hlt, hget'⟩ := List.getElem?_eq_some_iff.mp hget
  have hidx : ((g.doPin editor).moveEditor editor (g.sticky + 1)).editors.idxOf editor = (g.sticky + 1).toNat := by
    have := hmoved.nodup.idxOf_getElem _ hlt
    rwa [hget'] at this
  rw [hstick]
  dsimp only
  rw [indexOf_mem (mem_of_getElem? hget), hidx]
  omega

theorem unstick_first (h : g.Sound) (hmem : editor ∈ g.editors) (hin : g.isStickyEditor editor = true) :
    indexOf (some editor) (g.unstick editor).editors = (g.unstick editor).sticky + 1 := by
  have hin' : g.isSticky (g.editors.idxOf editor) = true := by
    unfold isStickyEditor at hin
    rw [indexOf_mem hmem] at hin
    exact hin
  obtain ⟨hdef, hmoved, -, hget, -⟩ := unstickMove_spec h hmem hin'
  have hidx' := (isSticky_iff _).mp hin'
  have hunstick : g.unstick editor = { g.moveEditor editor g.sticky with sticky := g.sticky - 1 } := by
    unfold EditorGroupModel.unstick
    rw [findEditor_mem hmem]
    exact hdef
  obtain ⟨hlt, hget'⟩ := List.getElem?_eq_some_iff.mp hget
  have hidx : (g.moveEditor editor g.sticky).editors.idxOf editor = g.sticky.toNat := by
    have := hmoved.nodup.idxOf_getElem _ hlt
    rwa [hget'] at this
  rw [hunstick]
  dsimp only
  rw [indexOf_mem (mem_of_getElem? hget), hidx]
  omega

/-- In every group, an operation leaves the stickiness and the order of the other editors as they are, unless it
replaces the editor in preview at the border; an editor that becomes sticky is the last sticky one, and one that is no
longer sticky the first one that is not. -/
theorem others_kept (operations : List (Configuration × Operation)) (configuration : Configuration)
    (operation : Operation) :
    let g := run {} operations
    (¬ g.ReplacesBorder operation → Undisturbed g (g.perform configuration operation) (g.subject operation)) ∧
      (∀ candidate ∈ g.editors, g.isStickyEditor candidate = false →
        indexOf (some candidate) (g.stick candidate).editors = (g.stick candidate).sticky) ∧
      ∀ candidate ∈ g.editors, g.isStickyEditor candidate = true →
        indexOf (some candidate) (g.unstick candidate).editors = (g.unstick candidate).sticky + 1 := by
  intro g
  have h : g.Sound := run_sound sound_empty operations
  exact ⟨perform_undisturbed configuration h, fun _ => stick_last h, fun _ => unstick_first h⟩

/-- Two sticky editors, of which the second is moved to the front. -/
theorem others_kept_two_editors :
    let configuration : Configuration := ⟨.right, true⟩
    let operations : List (Configuration × Operation) :=
      [(configuration, .openEditor (.input 1) { sticky := true }),
        (configuration, .openEditor (.input 2) { sticky := true })]
    let g := run {} operations
    Undisturbed g (g.perform configuration (.moveEditor (.input 2) 0)) (some (.input 2)) ∧
      indexOf (some (.input 2)) (g.unstick (.input 2)).editors = (g.unstick (.input 2)).sticky + 1 := by
  intro configuration operations g
  have h := others_kept operations configuration (.moveEditor (.input 2) 0)
  exact ⟨h.1 id, h.2.2 (.input 2) (by decide) (by decide)⟩

/-- An editor that is sticky already stays where it is, here in front of another sticky one. -/
theorem stick_not_last :
    let configuration : Configuration := ⟨.right, true⟩
    let operations : List (Configuration × Operation) :=
      [(configuration, .openEditor (.input 1) { sticky := true }),
        (configuration, .openEditor (.input 2) { sticky := true })]
    let g := run {} operations
    g.stick (.input 1) = g ∧ indexOf (some (.input 1)) (g.stick (.input 1)).editors = 0 ∧
      (g.stick (.input 1)).sticky = 1 := by
  decide

end EditorGroupModel

end TongjiCode.EditorGroup
