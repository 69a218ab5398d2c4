import TongjiCode.EditorGroup.Operations

/-!
# Opening editors

`openEditor` in three parts: the editor is placed, in the place of the one in preview if there is one, and becomes active.
-/

open List

namespace TongjiCode.EditorGroup

namespace EditorGroupModel

variable {g : EditorGroupModel} {editor : EditorInput}

/-! ## Existing editors -/

/-- The step of `openEditor` that respects the index. -/
def moveTo (g : EditorGroupModel) (editor : EditorInput) : Option Nat → EditorGroupModel
  | none => g
  | some index => g.moveEditor editor index

/-- The steps of `openEditor` before an existing editor is moved. -/
def prepareExisting (g : EditorGroupModel) (editor : EditorInput) (options : EditorOpenOptions) : EditorGroupModel :=
  let pinned := if makePinned options then g.doPin editor else g
  if g.makeActive options then pinned.doSetActive editor else pinned

theorem openExisting_def (g : EditorGroupModel) (editor : EditorInput) (options : EditorOpenOptions) :
    g.openExisting editor options =
      let moved := (g.prepareExisting editor options).moveTo editor options.index
      if g.makeSticky options then moved.doStick editor (indexOf (some editor) moved.editors) else moved := by
  unfold openExisting prepareExisting moveTo
  cases options.index <;> rfl

theorem prepareExisting_spec (h : g.Sound) (hmem : editor ∈ g.editors) (options : EditorOpenOptions) :
    (g.prepareExisting editor options).Sound ∧ (g.prepareExisting editor options).editors = g.editors ∧
      (g.prepareExisting editor options).sticky = g.sticky ∧
      (g.prepareExisting editor options).preview =
        (if makePinned options = true ∧ g.preview = some editor then none else g.preview) := by
  have hpinned : ∀ g1 : EditorGroupModel, g1 = (if makePinned options then g.doPin editor else g) →
      g1.Sound ∧ g1.editors = g.editors ∧ g1.sticky = g.sticky ∧
        g1.preview = (if makePinned options = true ∧ g.preview = some editor then none else g.preview) := by
    rintro g1 rfl
    by_cases hpin : makePinned options = true
    · rw [if_pos hpin]
      refine ⟨h.doPin editor, by rw [doPin_eq], by rw [doPin_eq], ?_⟩
      rw [doPin_eq]
      simp [hpin]
    · rw [if_neg hpin]
      exact ⟨h, rfl, rfl, by rw [if_neg fun hboth => hpin hboth.1]⟩
  unfold prepareExisting
  obtain ⟨h1, heditors1, hsticky1, hpreview1⟩ := hpinned _ rfl
  generalize (if makePinned options then g.doPin editor else g) = g1 at h1 heditors1 hsticky1 hpreview1 ⊢
  split
  · obtain ⟨heditors, hpreview, hsticky⟩ := doSetActive_frame g1 editor
    refine ⟨h1.doSetActive ?_, heditors.trans heditors1, hsticky.trans hsticky1, hpreview.trans hpreview1⟩
    rw [heditors1]
    exact hmem
  · exact ⟨h1, heditors1, hsticky1, hpreview1⟩

theorem openExisting_spec (h : g.Sound) (hmem : editor ∈ g.editors) (options : EditorOpenOptions) :
    (g.openExisting editor options).Sound ∧
      (g.PreviewFree → (makePinned options = true ∨ ∀ index : Nat, options.index = some index → g.isSticky index = true →
        g.preview ≠ some editor) → (g.openExisting editor options).PreviewFree) := by
  obtain ⟨h2, heditors, hsticky, hpreview⟩ := prepareExisting_spec h hmem options
  rw [openExisting_def]
  dsimp only
  generalize g.prepareExisting editor options = g2 at h2 heditors hsticky hpreview ⊢
  have hmem2 : editor ∈ g2.editors := by
    rw [heditors]
    exact hmem
  have hfree2 : g.PreviewFree → g2.PreviewFree := by
    intro hfree preview hpreview'
    unfold stickyEditors
    rw [heditors, hsticky]
    rw [hpreview] at hpreview'
    split at hpreview'
    · cases hpreview'
    · exact hfree preview hpreview'
  have hmoved : (g2.moveTo editor options.index).Sound ∧ editor ∈ (g2.moveTo editor options.index).editors ∧
      (g.PreviewFree → (makePinned options = true ∨ ∀ index : Nat, options.index = some index → g.isSticky index = true →
        g.preview ≠ some editor) → (g2.moveTo editor options.index).PreviewFree) := by
    cases hindex : options.index with
    | none => exact ⟨h2, hmem2, fun hfree _ => hfree2 hfree⟩
    | some index =>
      refine ⟨h2.moveEditor editor index, (moveEditor_perm h2 editor index).1.mem_iff.mpr hmem2, fun hfree hcareful => ?_⟩
      refine (hfree2 hfree).moveEditor h2 fun ⟨hpreview', hat⟩ => ?_
      rw [hpreview] at hpreview'
      split at hpreview'
      · cases hpreview'
      next hnot =>
      rcases hcareful with hpin | hcareful
      · exact hnot ⟨hpin, hpreview'⟩
      · refine hcareful index rfl ?_ hpreview'
        -- an index behind the end is limited to a sticky one only if all editors are sticky
        have hout := hfree editor hpreview'
        rw [← isSticky_idxOf h hmem, isSticky_iff] at hout
        have hlt := idxOf_lt_length_of_mem hmem
        rw [isSticky_iff]
        unfold boundedIndex at hat
        rw [heditors, hsticky] at hat
        split at hat
        · omega
        · split at hat <;> omega
  obtain ⟨h3, hmem3, hfree3⟩ := hmoved
  split
  · rw [indexOf_mem hmem3]
    exact ⟨(doStick_spec h3 hmem3).1, fun hfree hcareful => (doStick_spec h3 hmem3).2 (hfree3 hfree hcareful)⟩
  · exact ⟨h3, hfree3⟩

/-! ## New editors -/

theorem splice_insert (hnodup : g.editors.Nodup) (hperm : g.mru.Perm g.editors) (hnew : editor ∉ g.editors) {index : Int}
    (hlow : 0 ≤ index) (hhigh : index ≤ g.editors.length) :
    (g.splice index false (some editor)).editors =
        g.editors.take index.toNat ++ editor :: g.editors.drop index.toNat ∧
      (g.splice index false (some editor)).editors.Nodup ∧
      (g.splice index false (some editor)).mru.Perm (g.splice index false (some editor)).editors ∧
      (g.mru ≠ [] → (g.splice index false (some editor)).mru.head? = g.mru.head?) ∧
      (∀ y, y ∈ (g.splice index false (some editor)).editors ↔ y = editor ∨ y ∈ g.editors) := by
  have heditors : (g.splice index false (some editor)).editors =
      g.editors.take index.toNat ++ editor :: g.editors.drop index.toNat := by
    unfold splice
    rw [if_neg (by decide), Option.toList_some, spliceArray_insert hlow hhigh]
  have hinsert : (g.splice index false (some editor)).editors.Perm (editor :: g.editors) := by
    rw [heditors]
    refine perm_middle.trans (List.Perm.cons _ ?_)
    rw [take_append_drop]
  have hmru : (g.splice index false (some editor)).mru.Perm (editor :: g.mru) ∧
      (g.mru ≠ [] → (g.splice index false (some editor)).mru.head? = g.mru.head?) := by
    unfold splice
    cases hcase : g.mru with
    | nil => exact ⟨List.Perm.refl _, fun hne => absurd rfl hne⟩
    | cons first rest =>
      exact ⟨List.Perm.swap _ _ _, fun _ => rfl⟩
  refine ⟨heditors, ?_, ?_, hmru.2, fun y => ?_⟩
  · rw [hinsert.nodup_iff]
    exact nodup_cons.mpr ⟨hnew, hnodup⟩
  · exact (hmru.1.trans (hperm.cons editor)).trans hinsert.symm
  · rw [hinsert.mem_iff, mem_cons]

theorem splice_insert_frame (g : EditorGroupModel) (index : Int) (editor : EditorInput) :
    (g.splice index false (some editor)).preview = g.preview ∧ (g.splice index false (some editor)).active = g.active ∧
      (g.splice index false (some editor)).sticky = g.sticky := by
  exact ⟨rfl, rfl, rfl⟩

variable {options : EditorOpenOptions}

theorem targetIndex_bounds (configuration : Configuration) (h : g.Sound)
    (hindex : ∀ index, options.index = some index → index ≤ g.editors.length) :
    0 ≤ g.targetIndex configuration options (g.makeSticky options) ∧
      g.targetIndex configuration options (g.makeSticky options) ≤ g.editors.length ∧
      (g.makeSticky options = false → g.sticky < g.targetIndex configuration options (g.makeSticky options)) := by
  have hlow := h.stickyLow
  have hhigh := h.stickyHigh
  have hactive : (indexOf g.active g.editors = -1 ∧ g.editors.length = 0) ∨
      (0 ≤ indexOf g.active g.editors ∧ indexOf g.active g.editors < g.editors.length) := by
    cases hcase : g.active with
    | none =>
      rw [h.active_eq_none_iff.mp hcase]
      exact .inl ⟨rfl, rfl⟩
    | some active =>
      have hmem := h.active_mem hcase
      have := idxOf_lt_length_of_mem hmem
      rw [indexOf_mem hmem]
      exact .inr (by omega)
  have hafter : ∀ (sticky : Bool) (index : Int), 0 ≤ index → index ≤ g.editors.length →
      0 ≤ (if !sticky && g.isSticky index then g.sticky + 1 else index) ∧
        (if !sticky && g.isSticky index then g.sticky + 1 else index) ≤ g.editors.length ∧
        (sticky = false → g.sticky < (if !sticky && g.isSticky index then g.sticky + 1 else index)) := by
    intro sticky index hpos hle
    by_cases hboth : (!sticky && g.isSticky index) = true
    · rw [if_pos hboth]
      exact ⟨by omega, by omega, fun _ => by omega⟩
    · rw [if_neg hboth]
      refine ⟨hpos, hle, fun hsticky => ?_⟩
      rw [hsticky] at hboth
      have hnot : ¬ g.isSticky index.toNat = true := by
        rw [Int.toNat_of_nonneg hpos]
        simpa using hboth
      rw [isSticky_iff] at hnot
      omega
  generalize hsticky : g.makeSticky options = sticky
  unfold targetIndex
  cases hcase : options.index with
  | some index =>
    have := hindex index hcase
    refine ⟨by dsimp only; omega, by dsimp only; omega, fun hfalse => ?_⟩
    unfold makeSticky at hsticky
    rw [hcase, hfalse] at hsticky
    have hnot : ¬ g.isSticky (index : Int) = true := by
      intro htrue
      simp [htrue] at hsticky
    rw [isSticky_iff] at hnot
    dsimp only
    omega
  | none =>
    cases configuration.editorOpenPositioning with
    | first => exact hafter sticky 0 (by omega) (by omega)
    | last => exact ⟨by dsimp only; omega, by dsimp only; omega, fun _ => by dsimp only; omega⟩
    | left =>
      apply hafter
      · split <;> omega
      · split <;> omega
    | right =>
      apply hafter
      · omega
      · omega

/-- The group with the sticky index of a new editor. -/
def stickied (g : EditorGroupModel) (options : EditorOpenOptions) : EditorGroupModel :=
  if g.makeSticky options then { g with sticky := g.sticky + 1 } else g

def newIndex (configuration : Configuration) (g : EditorGroupModel) (options : EditorOpenOptions) : Int :=
  let targetIndex := g.targetIndex configuration options (g.makeSticky options)
  if g.makeSticky options && !(g.stickied options).isSticky targetIndex then (g.stickied options).sticky else targetIndex

/-- The index, when the editor in preview is closed before. -/
def replaceIndex (configuration : Configuration) (g : EditorGroupModel) (options : EditorOpenOptions) (preview : EditorInput) : Int :=
  if g.newIndex configuration options > indexOf (some preview) g.editors then g.newIndex configuration options - 1
  else g.newIndex configuration options

/-- The steps of `openEditor` before a new editor becomes active. -/
def placeNew (configuration : Configuration) (g : EditorGroupModel) (editor : EditorInput) (options : EditorOpenOptions) :
    EditorGroupModel :=
  if makePinned options then (g.stickied options).splice (g.newIndex configuration options) false (some editor)
  else
    match g.preview with
    | none => { (g.stickied options).splice (g.newIndex configuration options) false (some editor) with preview := some editor }
    | some preview =>
      { (g.stickied options).replaceEditor configuration preview editor (g.replaceIndex configuration options preview)
          (!g.makeActive options) with
        preview := some editor }

theorem stickied_frame (g : EditorGroupModel) (options : EditorOpenOptions) :
    (g.stickied options).editors = g.editors ∧ (g.stickied options).mru = g.mru ∧ (g.stickied options).preview = g.preview ∧
      (g.stickied options).active = g.active ∧
      (g.stickied options).sticky = (if g.makeSticky options then g.sticky + 1 else g.sticky) := by
  unfold stickied
  split <;> exact ⟨rfl, rfl, rfl, rfl, rfl⟩

theorem openNew_def (configuration : Configuration) (g : EditorGroupModel) (editor : EditorInput) (options : EditorOpenOptions) :
    g.openNew configuration editor options =
      if g.makeActive options then (g.placeNew configuration editor options).doSetActive editor
      else g.placeNew configuration editor options := by
  obtain ⟨heditors, -, hpreview, -, -⟩ := stickied_frame g options
  have hplace : g.openNew configuration editor options =
      let placed :=
        let inserted :=
          if makePinned options || (g.stickied options).preview.isNone then
            (g.stickied options).splice (g.newIndex configuration options) false (some editor)
          else g.stickied options
        if makePinned options then inserted
        else
          { (match inserted.preview with
            | none => inserted
            | some preview =>
              inserted.replaceEditor configuration preview editor
                (if g.newIndex configuration options > indexOf (some preview) inserted.editors then
                  g.newIndex configuration options - 1
                else g.newIndex configuration options) (!g.makeActive options)) with
            preview := some editor }
      if g.makeActive options then placed.doSetActive editor else placed := rfl
  rw [hplace]
  unfold placeNew
  by_cases hpin : makePinned options = true
  · rw [hpin]
    rfl
  · rw [if_neg hpin, Bool.eq_false_iff.mpr hpin, hpreview]
    cases hcase : g.preview with
    | none =>
      simp only [Option.isNone_none, Bool.or_true, if_true, Bool.false_eq_true, if_false]
      rw [(splice_insert_frame _ _ _).1, hpreview, hcase]
    | some preview =>
      simp only [Option.isNone_some, Bool.or_self, Bool.false_eq_true, if_false]
      rw [hpreview, hcase]
      unfold replaceIndex
      rw [heditors]

theorem newIndex_bounds (configuration : Configuration) (h : g.Sound)
    (hindex : ∀ index, options.index = some index → index ≤ g.editors.length) :
    0 ≤ g.newIndex configuration options ∧ g.newIndex configuration options ≤ g.editors.length ∧
      (g.makeSticky options = false → g.sticky < g.newIndex configuration options) ∧
      (g.makeSticky options = true → g.newIndex configuration options ≤ g.sticky + 1) := by
  obtain ⟨hlow, hhigh, hbehind⟩ := targetIndex_bounds configuration h hindex
  obtain ⟨-, -, -, -, hsticky⟩ := stickied_frame g options
  have hstickyLow := h.stickyLow
  have hstickyHigh := h.stickyHigh
  unfold newIndex
  dsimp only
  generalize g.targetIndex configuration options (g.makeSticky options) = index at hlow hhigh hbehind ⊢
  cases hmake : g.makeSticky options with
  | false =>
    exact ⟨hlow, hhigh, fun _ => hbehind hmake, fun hfalse => nomatch hfalse⟩
  | true =>
    rw [Bool.true_and, hsticky]
    split
    · exact ⟨by omega, by omega, fun hfalse => (nomatch hfalse), fun _ => by omega⟩
    · next hin =>
      refine ⟨hlow, hhigh, fun hfalse => (nomatch hfalse), fun _ => ?_⟩
      unfold isSticky at hin
      simp only [Bool.not_eq_true', Bool.eq_false_iff, ne_eq, not_not, Bool.and_eq_true, decide_eq_true_eq] at hin
      omega

/-- A group into which an editor was put. -/
structure Placed (g : EditorGroupModel) (editor : EditorInput) : Prop where
  nodup : g.editors.Nodup
  mru : g.mru.Perm g.editors
  mem : editor ∈ g.editors
  inactive : g.active ≠ some editor
  preview : ∀ editor', g.preview = some editor' → editor' ∈ g.editors
  stickyLow : -1 ≤ g.sticky
  stickyHigh : g.sticky < g.editors.length

theorem Placed.activate (h : g.Placed editor) : (g.doSetActive editor).Sound := by
  obtain ⟨hperm, hactive, hhead⟩ := doSetActive_mru h.mru h.mem fun hactive => absurd hactive h.inactive
  obtain ⟨heditors, hpreview, hsticky⟩ := doSetActive_frame g editor
  refine ⟨⟨?_, ?_, ?_⟩, ?_, ?_, ?_⟩
  · rw [heditors]
    exact h.nodup
  · rw [heditors]
    exact hperm
  · rw [hactive, hhead]
  · rw [hpreview, heditors]
    exact h.preview
  · rw [hsticky]
    exact h.stickyLow
  · rw [hsticky, heditors]
    exact h.stickyHigh

section

variable (configuration : Configuration) (h : g.Sound) (hnew : editor ∉ g.editors)
variable (hindex : ∀ index, options.index = some index → index ≤ g.editors.length)
include configuration h hnew hindex

theorem mem_stickyEditors_inserted (y : EditorInput) :
    y ∈ ((g.stickied options).splice (g.newIndex configuration options) false (some editor)).stickyEditors ↔
      y ∈ g.stickyEditors ∨ (g.makeSticky options = true ∧ y = editor) := by
  obtain ⟨hlow, hhigh, hbehind, hfront⟩ := newIndex_bounds configuration h hindex
  obtain ⟨heditors, hmru, -, -, hsticky⟩ := stickied_frame g options
  obtain ⟨hinsert, -⟩ := splice_insert (g := g.stickied options) (by rw [heditors]; exact h.nodup)
    (by rw [hmru, heditors]; exact h.mru) (by rw [heditors]; exact hnew) hlow (by rw [heditors]; exact hhigh)
  unfold stickyEditors
  rw [(splice_insert_frame _ _ _).2.2, hsticky, hinsert, heditors]
  cases hmake : g.makeSticky options with
  | false =>
    have := hbehind hmake
    rw [if_neg (by decide), take_insert (by omega) (by omega)]
    simp
  | true =>
    have := hfront hmake
    have hcount : (g.sticky + 1 + 1).toNat = (g.sticky + 1).toNat + 1 := by omega
    rw [if_pos rfl, hcount, mem_take_insert (by omega) (by omega)]
    simp [or_comm]

theorem placed_insert :
    ((g.stickied options).splice (g.newIndex configuration options) false (some editor)).Placed editor ∧
      (g.mru ≠ [] → ((g.stickied options).splice (g.newIndex configuration options) false (some editor)).active =
        ((g.stickied options).splice (g.newIndex configuration options) false (some editor)).mru.head?) ∧
      (∀ y, y ∈ ((g.stickied options).splice (g.newIndex configuration options) false (some editor)).stickyEditors →
        y ∈ g.stickyEditors ∨ (g.makeSticky options = true ∧ y = editor)) := by
  have hstickyEditors := fun y => (mem_stickyEditors_inserted configuration h hnew hindex y).mp
  obtain ⟨hlow, hhigh, -, -⟩ := newIndex_bounds configuration h hindex
  obtain ⟨heditors, hmru, hpreview, hactive, hsticky⟩ := stickied_frame g options
  have hstickyLow := h.stickyLow
  have hstickyHigh := h.stickyHigh
  generalize g.stickied options = g1 at heditors hmru hpreview hactive hsticky hstickyEditors ⊢
  rw [← heditors] at hhigh
  obtain ⟨hpreview', hactive', hsticky'⟩ := splice_insert_frame g1 (g.newIndex configuration options) editor
  obtain ⟨hinsert, hnodup, hperm, hhead, hmem⟩ := splice_insert (by rw [heditors]; exact h.nodup)
    (by rw [hmru, heditors]; exact h.mru) (by rw [heditors]; exact hnew) hlow hhigh
  generalize g1.splice (g.newIndex configuration options) false (some editor) = g2
    at hpreview' hactive' hsticky' hinsert hnodup hperm hhead hmem hstickyEditors ⊢
  have hlength : g2.editors.length = g.editors.length + 1 := by
    rw [hinsert, heditors]
    simp only [length_append, length_take, length_cons, length_drop]
    omega
  refine ⟨⟨hnodup, hperm, (hmem editor).mpr (.inl rfl), ?_, ?_, ?_, ?_⟩, fun hne => ?_, fun y hy => ?_⟩
  · rw [hactive', hactive]
    exact fun heq => hnew (h.active_mem heq)
  · rw [hpreview', hpreview]
    intro editor' heq
    rw [hmem, heditors]
    exact .inr (h.preview editor' heq)
  · rw [hsticky', hsticky]
    split <;> omega
  · rw [hsticky', hsticky, hlength]
    split <;> omega
  · rw [hactive', hhead (by rw [hmru]; exact hne), hmru, hactive]
    exact h.active
  · exact hstickyEditors y hy

theorem placed_replace {preview : EditorInput} (hpreview : g.preview = some preview) (g' : EditorGroupModel)
    (heq : g' = { (g.stickied options).replaceEditor configuration preview editor (g.replaceIndex configuration options preview) (!g.makeActive options) with preview := some editor }) :
    g'.Placed editor ∧ (g.makeActive options = false → g.active ≠ some preview → g.mru ≠ [] → g'.active = g'.mru.head?) ∧
      (g.makeSticky options = false → editor ∉ g'.stickyEditors) := by
  have hmem := h.preview preview hpreview
  have hlt := idxOf_lt_length_of_mem hmem
  obtain ⟨hlow, hhigh, hbehind, -⟩ := newIndex_bounds configuration h hindex
  obtain ⟨heditors1, hmru1, hpreview1, hactive1, hsticky1⟩ := stickied_frame g options
  have hstickyLow := h.stickyLow
  have hstickyHigh := h.stickyHigh
  unfold replaceEditor at heq
  generalize g.stickied options = g1 at heditors1 hmru1 hpreview1 hactive1 hsticky1 heq
  have hcoherent1 : g1.Coherent := by
    refine ⟨?_, ?_, ?_⟩
    · rw [heditors1]
      exact h.nodup
    · rw [hmru1, heditors1]
      exact h.mru
    · rw [hactive1, hmru1]
      exact h.active
  obtain ⟨heditors2, hperm2, -, hsticky2, hactive2, hkept2⟩ := closeEditor_spec configuration hcoherent1
    (by rw [heditors1]; exact hmem : preview ∈ g1.editors) (!g.makeActive options)
  rw [heditors1] at heditors2 hperm2 hsticky2
  rw [hactive1] at hactive2 hkept2
  generalize g1.closeEditor configuration preview (!g.makeActive options) = g2
    at heditors2 hperm2 hsticky2 hactive2 hkept2 heq
  have hlength2 : g2.editors.length = g.editors.length - 1 := by
    rw [heditors2]
    exact length_erase_of_mem hmem
  have hnew2 : editor ∉ g2.editors := by
    rw [heditors2]
    exact fun hin => hnew (mem_of_mem_erase hin)
  -- the index after the editor in preview is gone
  have hreplaceDef : g.replaceIndex configuration options preview =
      if g.newIndex configuration options > g.editors.idxOf preview then g.newIndex configuration options - 1
      else g.newIndex configuration options := by
    unfold replaceIndex
    rw [indexOf_mem hmem]
  have hreplace : 0 ≤ g.replaceIndex configuration options preview ∧
      g.replaceIndex configuration options preview ≤ g2.editors.length := by
    rw [hreplaceDef, hlength2]
    split <;> omega
  obtain ⟨hpreview3, hactive3, hsticky3⟩ := splice_insert_frame g2 (g.replaceIndex configuration options preview) editor
  obtain ⟨hinsert, hnodup, hperm, hhead, hmem3⟩ := splice_insert (by rw [heditors2]; exact h.nodup.erase preview)
    (by rw [heditors2]; exact hperm2) hnew2 hreplace.1 hreplace.2
  generalize g2.splice (g.replaceIndex configuration options preview) false (some editor) = g3
    at hpreview3 hactive3 hsticky3 hinsert hnodup hperm hhead hmem3 heq
  subst heq
  have hlength3 : g3.editors.length = g.editors.length := by
    rw [hinsert]
    simp only [length_append, length_take, length_cons, length_drop]
    omega
  -- the sticky index, before and after the editor in preview is gone
  have hstickyIff : g1.isSticky (g.editors.idxOf preview) = true ↔ (g.editors.idxOf preview : Int) ≤ g1.sticky := by
    unfold isSticky
    simp only [Bool.and_eq_true, Bool.not_eq_true', decide_eq_false_iff_not, decide_eq_true_eq]
    omega
  have hstickyBounds : -1 ≤ g2.sticky ∧ g2.sticky < g.editors.length ∧
      (g.makeSticky options = false → g2.sticky < g.replaceIndex configuration options preview) := by
    rw [hsticky2, hreplaceDef]
    by_cases hin : g1.isSticky (g.editors.idxOf preview) = true
    · have := hstickyIff.mp hin
      rw [if_pos hin]
      cases hmake : g.makeSticky options with
      | false =>
        have := hbehind hmake
        rw [hmake, if_neg (by decide)] at hsticky1
        exact ⟨by omega, by omega, fun _ => by split <;> omega⟩
      | true =>
        exact ⟨by omega, by omega, fun hfalse => nomatch hfalse⟩
    · have : ¬(g.editors.idxOf preview : Int) ≤ g1.sticky := fun hle => hin (hstickyIff.mpr hle)
      rw [if_neg hin]
      cases hmake : g.makeSticky options with
      | false =>
        have := hbehind hmake
        rw [hmake, if_neg (by decide)] at hsticky1
        exact ⟨by omega, by omega, fun _ => by split <;> omega⟩
      | true =>
        exact ⟨by omega, by omega, fun hfalse => nomatch hfalse⟩
  refine ⟨⟨hnodup, hperm, (hmem3 editor).mpr (.inl rfl), ?_, ?_, ?_, ?_⟩, fun hmake hne hmru => ?_, fun hmake => ?_⟩
  · dsimp only
    rw [hactive3]
    intro heq
    cases hmake : g.makeActive options with
    | false =>
      rw [hactive2 (.inl (by rw [hmake]; rfl))] at heq
      have := hperm2.mem_iff.mp (mem_of_mem_head? heq)
      rw [← heditors2] at this
      exact hnew2 this
    | true =>
      rw [hkept2 (by rw [hmake]; rfl)] at heq
      exact hnew (h.active_mem heq)
  · intro editor' heq
    rw [← Option.some.inj heq]
    exact (hmem3 editor).mpr (.inl rfl)
  · dsimp only
    rw [hsticky3]
    exact hstickyBounds.1
  · dsimp only
    rw [hsticky3, hlength3]
    exact hstickyBounds.2.1
  · dsimp only
    have hnonempty : g2.mru ≠ [] := by
      obtain ⟨active, rest, hcons⟩ := exists_cons_of_ne_nil hmru
      have hactive := h.active
      rw [hcons, head?_cons] at hactive
      have hin : active ∈ g2.mru :=
        hperm2.mem_iff.mpr ((mem_erase_of_ne fun hsame => hne (by rw [hactive, hsame])).mpr (h.active_mem hactive))
      exact ne_nil_of_mem hin
    rw [hactive3, hhead hnonempty]
    exact hactive2 (.inl (by rw [hmake]; rfl))
  · unfold stickyEditors
    rw [hsticky3, hinsert, take_insert (by have := hstickyBounds.2.2 hmake; omega) (by omega)]
    exact fun hin => hnew2 (mem_of_mem_take hin)

theorem openNew_spec :
    (g.openNew configuration editor options).Sound ∧
      (g.PreviewFree → (makePinned options = true ∨ g.makeSticky options = false) →
        (g.openNew configuration editor options).PreviewFree) := by
  have hplaced : (g.placeNew configuration editor options).Placed editor ∧
      (g.makeActive options = false → (g.placeNew configuration editor options).active =
        (g.placeNew configuration editor options).mru.head?) ∧
      (g.PreviewFree → (makePinned options = true ∨ g.makeSticky options = false) →
        (g.placeNew configuration editor options).PreviewFree) := by
    obtain ⟨hinsert, hhead, hsticky⟩ := placed_insert configuration h hnew hindex
    have hnonempty : g.makeActive options = false → g.mru ≠ [] := by
      intro hmake hnil
      have hactive := h.active
      rw [hnil] at hactive
      unfold makeActive at hmake
      rw [hactive] at hmake
      simp at hmake
    have hpreview := (splice_insert_frame (g.stickied options) (g.newIndex configuration options) editor).1
    rw [(stickied_frame g options).2.2.1] at hpreview
    unfold placeNew
    by_cases hpin : makePinned options = true
    · rw [if_pos hpin]
      refine ⟨hinsert, fun hmake => hhead (hnonempty hmake), fun hfree _ preview heq hin => ?_⟩
      rw [hpreview] at heq
      rcases hsticky preview hin with hin | ⟨-, rfl⟩
      · exact hfree preview heq hin
      · exact hnew (h.preview _ heq)
    · rw [if_neg hpin]
      cases hcase : g.preview with
      | none =>
        refine ⟨⟨hinsert.nodup, hinsert.mru, hinsert.mem, hinsert.inactive, ?_, hinsert.stickyLow, hinsert.stickyHigh⟩,
          fun hmake => hhead (hnonempty hmake), fun _ hcareful preview heq hin => ?_⟩
        · intro editor' heq
          rw [← Option.some.inj heq]
          exact hinsert.mem
        · have hmake := hcareful.resolve_left hpin
          rw [← Option.some.inj heq] at hin
          rcases hsticky editor hin with hin | ⟨htrue, -⟩
          · exact hnew (mem_of_mem_take hin)
          · rw [hmake] at htrue
            cases htrue
      | some preview =>
        obtain ⟨hreplaced, hhead', hout⟩ := placed_replace configuration h hnew hindex hcase _ rfl
        refine ⟨hreplaced, fun hmake => hhead' hmake (fun hactive => ?_) (hnonempty hmake), fun _ hcareful preview' heq => ?_⟩
        · -- the editor in preview would make the new one active
          unfold makeActive at hmake
          rw [Bool.eq_false_iff.mpr hpin, hactive, hcase] at hmake
          simp at hmake
        · rw [← Option.some.inj heq]
          exact hout (hcareful.resolve_left hpin)
  obtain ⟨hplaced, hactive, hfree⟩ := hplaced
  rw [openNew_def]
  split
  · exact ⟨hplaced.activate, fun hg hcareful => (hfree hg hcareful).doSetActive editor⟩
  · next hmake =>
    exact ⟨⟨⟨hplaced.nodup, hplaced.mru, hactive (Bool.eq_false_iff.mpr hmake)⟩, hplaced.preview, hplaced.stickyLow,
      hplaced.stickyHigh⟩, hfree⟩

end

end EditorGroupModel

end TongjiCode.EditorGroup
