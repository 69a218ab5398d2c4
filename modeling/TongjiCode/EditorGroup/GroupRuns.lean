import TongjiCode.EditorGroup.Opening

/-!
# Runs of an editor group

A group starts empty and the configuration may change between two operations.
-/

namespace TongjiCode.EditorGroup

open EditorGroupModel

inductive Operation where
  | openEditor (candidate : EditorInput) (options : EditorOpenOptions)
  | closeEditor (candidate : EditorInput)
  | moveEditor (candidate : EditorInput) (toIndex : Int)
  | setActive (candidate : Option EditorInput)
  | pin (candidate : EditorInput)
  | unpin (candidate : EditorInput)
  | stick (candidate : EditorInput)
  | unstick (candidate : EditorInput)
deriving DecidableEq, Repr

namespace EditorGroupModel

def perform (configuration : Configuration) (g : EditorGroupModel) : Operation → EditorGroupModel
  | .openEditor candidate options => g.openEditor configuration candidate options
  | .closeEditor candidate => g.closeEditor configuration candidate true
  | .moveEditor candidate toIndex => g.moveEditor candidate toIndex
  | .setActive candidate => g.setActive candidate
  | .pin candidate => g.pin candidate
  | .unpin candidate => g.unpin configuration candidate
  | .stick candidate => g.stick candidate
  | .unstick candidate => g.unstick candidate

def run (g : EditorGroupModel) (operations : List (Configuration × Operation)) : EditorGroupModel :=
  operations.foldl (fun g operation => g.perform operation.1 operation.2) g

/-- Each operation of the run meets the condition in the group that it finds. -/
def Along (condition : EditorGroupModel → Operation → Prop) (g : EditorGroupModel) :
    List (Configuration × Operation) → Prop
  | [] => True
  | (configuration, operation) :: operations =>
    condition g operation ∧ Along condition (g.perform configuration operation) operations

/-- An index that is asked for is between 0 and the editor count. -/
def InRange (g : EditorGroupModel) : Operation → Prop
  | .openEditor _ options => ∀ index, options.index = some index → index ≤ g.editors.length
  | _ => True

/-- An editor does not become sticky unpinned: it is not opened in preview at a sticky index, not moved between the sticky
editors while it is in preview, and not unpinned while it is sticky. -/
def Careful (g : EditorGroupModel) : Operation → Prop
  | .openEditor candidate options =>
    makePinned options = true ∨
      ∀ index : Nat, options.index = some index → g.isSticky index = true →
        ∃ existing i, g.findEditorWith options.supportSideBySide candidate = some (existing, i) ∧ g.preview ≠ some existing
  | .moveEditor candidate toIndex => ¬(g.preview = some candidate ∧ g.boundedIndex toIndex ≤ g.sticky)
  | .unpin candidate => candidate ∉ g.stickyEditors
  | _ => True

section Steps

variable {g : EditorGroupModel} (configuration : Configuration)

theorem openEditor_spec (h : g.Sound) (candidate : EditorInput) {options : EditorOpenOptions}
    (hindex : g.InRange (.openEditor candidate options)) :
    (g.openEditor configuration candidate options).Sound ∧
      (g.PreviewFree → g.Careful (.openEditor candidate options) →
        (g.openEditor configuration candidate options).PreviewFree) := by
  unfold EditorGroupModel.openEditor
  rcases findEditorWith_cases g options.supportSideBySide candidate with ⟨hfind, hnew⟩ | ⟨editor, i, hfind, hmem⟩
  · rw [hfind]
    obtain ⟨hsound, hfree⟩ := openNew_spec configuration h hnew hindex
    refine ⟨hsound, fun hg hcareful => hfree hg ?_⟩
    rcases hcareful with hpin | hcareful
    · exact .inl hpin
    by_cases hpin : makePinned options = true
    · exact .inl hpin
    · refine .inr ?_
      have hsticky : options.sticky = false := by
        unfold makePinned at hpin
        simp only [Bool.or_eq_true, not_or, Bool.not_eq_true] at hpin
        exact hpin.2
      unfold makeSticky
      rw [hsticky, Bool.false_or]
      cases hcase : options.index with
      | none => rfl
      | some index =>
        refine Bool.eq_false_iff.mpr fun htrue => ?_
        obtain ⟨existing, i, hsome, -⟩ := hcareful index hcase htrue
        rw [hfind] at hsome
        cases hsome
  · rw [hfind]
    obtain ⟨hsound, hfree⟩ := openExisting_spec h hmem options
    refine ⟨hsound, fun hg hcareful => hfree hg ?_⟩
    refine hcareful.imp_right fun hcareful index hcase htrue => ?_
    obtain ⟨existing, i', hsome, hne⟩ := hcareful index hcase htrue
    rw [hfind] at hsome
    cases hsome
    exact hne

theorem perform_spec (h : g.Sound) {operation : Operation} (hindex : g.InRange operation) :
    (g.perform configuration operation).Sound ∧
      (g.PreviewFree → g.Careful operation → (g.perform configuration operation).PreviewFree) := by
  cases operation with
  | openEditor candidate options => exact openEditor_spec configuration h candidate hindex
  | closeEditor candidate =>
    exact ⟨h.closeEditor configuration candidate, fun hfree _ => hfree.closeEditor configuration h candidate⟩
  | moveEditor candidate toIndex =>
    exact ⟨h.moveEditor candidate toIndex, fun hfree hcareful => hfree.moveEditor h hcareful⟩
  | setActive candidate =>
    cases candidate with
    | none => exact ⟨h, fun hfree _ => hfree⟩
    | some candidate =>
      unfold perform EditorGroupModel.setActive
      by_cases hmem : candidate ∈ g.editors
      · dsimp only
        rw [findEditor_mem hmem]
        exact ⟨h.doSetActive hmem, fun hfree _ => hfree.doSetActive candidate⟩
      · dsimp only
        rw [findEditor_not_mem hmem]
        exact ⟨h, fun hfree _ => hfree⟩
  | pin candidate =>
    unfold perform EditorGroupModel.pin
    by_cases hmem : candidate ∈ g.editors
    · dsimp only
      rw [findEditor_mem hmem]
      exact ⟨h.doPin candidate, fun hfree _ => hfree.doPin candidate⟩
    · dsimp only
      rw [findEditor_not_mem hmem]
      exact ⟨h, fun hfree _ => hfree⟩
  | unpin candidate =>
    unfold perform EditorGroupModel.unpin
    by_cases hmem : candidate ∈ g.editors
    · dsimp only
      rw [findEditor_mem hmem]
      exact ⟨h.doUnpin configuration hmem, fun hfree hcareful => hfree.doUnpin configuration h hmem hcareful⟩
    · dsimp only
      rw [findEditor_not_mem hmem]
      exact ⟨h, fun hfree _ => hfree⟩
  | stick candidate =>
    unfold perform EditorGroupModel.stick
    by_cases hmem : candidate ∈ g.editors
    · dsimp only
      rw [findEditor_mem hmem]
      exact ⟨(doStick_spec h hmem).1, fun hfree _ => (doStick_spec h hmem).2 hfree⟩
    · dsimp only
      rw [findEditor_not_mem hmem]
      exact ⟨h, fun hfree _ => hfree⟩
  | unstick candidate =>
    unfold perform EditorGroupModel.unstick
    by_cases hmem : candidate ∈ g.editors
    · dsimp only
      rw [findEditor_mem hmem]
      exact ⟨(doUnstick_spec h hmem).1, fun hfree _ => (doUnstick_spec h hmem).2 hfree⟩
    · dsimp only
      rw [findEditor_not_mem hmem]
      exact ⟨h, fun hfree _ => hfree⟩

end Steps

theorem run_spec {g : EditorGroupModel} (h : g.Sound) {operations : List (Configuration × Operation)}
    (hindex : g.Along InRange operations) :
    (g.run operations).Sound ∧ (g.PreviewFree → g.Along Careful operations → (g.run operations).PreviewFree) := by
  induction operations generalizing g with
  | nil => exact ⟨h, fun hfree _ => hfree⟩
  | cons operation operations ih =>
    obtain ⟨configuration, operation⟩ := operation
    obtain ⟨hsound, hfree⟩ := perform_spec configuration h hindex.1
    obtain ⟨hrun, hrunFree⟩ := ih hsound hindex.2
    exact ⟨hrun, fun hg hcareful => hrunFree (hfree hg hcareful.1) hcareful.2⟩

theorem sound_empty : ({} : EditorGroupModel).Sound where
  nodup := List.nodup_nil
  mru := List.Perm.refl _
  active := rfl
  preview := fun _ heq => nomatch heq
  stickyLow := by decide
  stickyHigh := by decide

/-- The editors, the order in which they were active, the active one, the one in preview and the sticky ones fit together
in every group, and the one in preview is not sticky if all operations were careful. -/
theorem group_invariant (operations : List (Configuration × Operation)) (hindex : Along InRange {} operations) :
    let g := run {} operations
    g.mru.Perm g.editors ∧ g.mru.Nodup ∧ (g.active = none ↔ g.editors = []) ∧ g.active = g.mru[0]? ∧
      (∀ preview, g.preview = some preview → preview ∈ g.editors) ∧ -1 ≤ g.sticky ∧ g.sticky ≤ g.editors.length - 1 ∧
      (Along Careful {} operations → ∀ preview (index : Nat), g.preview = some preview → g.editors[index]? = some preview →
        g.isSticky index = false) := by
  obtain ⟨h, hfree⟩ := run_spec sound_empty hindex
  have hhigh := h.stickyHigh
  refine ⟨h.mru, h.mru.nodup_iff.mpr h.nodup, h.active_eq_none_iff, ?_, h.preview, h.stickyLow, by omega,
    fun hcareful preview index hpreview hget => ?_⟩
  · rw [h.active, List.head?_eq_getElem?]
  · have hout := hfree (fun _ heq => nomatch heq) hcareful preview hpreview
    refine Bool.eq_false_iff.mpr fun hsticky => hout ?_
    rw [isSticky_iff] at hsticky
    exact List.mem_iff_getElem?.mpr ⟨index, by unfold stickyEditors; rw [List.getElem?_take, if_pos hsticky, hget]⟩

theorem group_invariant_of_three_editors :
    let configuration : Configuration := ⟨.right, true⟩
    let operations : List (Configuration × Operation) :=
      [(configuration, .openEditor (.input 1) { sticky := true }), (configuration, .openEditor (.input 2) { pinned := true }),
        (configuration, .closeEditor (.input 2)), (configuration, .openEditor (.input 3) { index := some 1 })]
    let g := run {} operations
    g.editors = [.input 1, .input 3] ∧ g.mru.Perm g.editors ∧ g.active = some (.input 1) ∧ g.sticky = 0 ∧
      g.preview = some (.input 3) ∧ g.isSticky 1 = false := by
  intro configuration operations g
  have h := group_invariant operations (by
    refine ⟨?_, ?_, trivial, ?_, trivial⟩
    · intro index heq
      cases heq
    · intro index heq
      cases heq
    · intro index heq
      cases heq
      decide)
  have hcareful : Along Careful {} operations := by
    refine ⟨.inl (by decide), .inl (by decide), trivial, .inr fun index heq hsticky => ?_, trivial⟩
    cases heq
    exact absurd hsticky (by decide)
  exact ⟨by decide, h.1, by decide, by decide, by decide, h.2.2.2.2.2.2.2 hcareful (.input 3) 1 (by decide) (by decide)⟩

theorem sticky_preview :
    let configuration : Configuration := ⟨.right, true⟩
    let operations : List (Configuration × Operation) :=
      [(configuration, .openEditor (.input 1) { sticky := true }),
        (configuration, .openEditor (.input 2) { index := some 0 })]
    let g := run {} operations
    Along InRange {} operations ∧ g.preview = some (.input 2) ∧ g.editors[0]? = some (.input 2) ∧
      g.isSticky ((0 : Nat) : Int) = true := by
  intro configuration operations g
  refine ⟨⟨?_, ?_, trivial⟩, by decide, by decide, by decide⟩
  · intro index heq
    cases heq
  · intro index heq
    cases heq
    decide

end EditorGroupModel

end TongjiCode.EditorGroup
