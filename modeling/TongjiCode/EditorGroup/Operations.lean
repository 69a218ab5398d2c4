import Mathlib.Data.List.Nodup
import TongjiCode.EditorGroup.EditorGroupModel

/-!
# Invariants of editor groups

What each operation does to the editors, to the list of most recent ones and to the sticky ones.
-/

open List

namespace TongjiCode.EditorGroup

/-! ## Arrays -/

section Arrays

variable {α : Type} {l : List α} {x y : α}

theorem spliceArray_insert {i : Int} (h : 0 ≤ i) (hi : i ≤ l.length) (x : α) :
    spliceArray l i 0 [x] = l.take i.toNat ++ x :: l.drop i.toNat := by
  unfold spliceArray
  dsimp only
  rw [if_neg (by omega), Nat.min_eq_left (by omega), Nat.add_zero, append_assoc]
  rfl

theorem spliceArray_erase {i : Int} (h : 0 ≤ i) (hi : i < l.length) : spliceArray l i 1 [] = l.eraseIdx i.toNat := by
  unfold spliceArray
  dsimp only
  rw [if_neg (by omega), Nat.min_eq_left (by omega), append_nil, eraseIdx_eq_take_drop_succ]

theorem mem_take_insert {t n : Nat} (ht : t ≤ n) (hl : t ≤ l.length) :
    y ∈ (l.take t ++ x :: l.drop t).take (n + 1) ↔ y = x ∨ y ∈ l.take n := by
  have hlen : (l.take t).length = t := by
    rw [length_take]
    omega
  have hsucc : n + 1 - t = n - t + 1 := by omega
  rw [take_append, hlen, take_of_length_le (by omega), hsucc, take_succ_cons, mem_append,
    mem_cons]
  have hsplit : l.take n = l.take t ++ (l.drop t).take (n - t) := by
    conv_lhs => rw [← List.take_append_drop t l, take_append, hlen, take_of_length_le (by omega)]
  rw [hsplit, mem_append]
  constructor
  · rintro (h | rfl | h)
    · exact .inr (.inl h)
    · exact .inl rfl
    · exact .inr (.inr h)
  · rintro (rfl | h | h)
    · exact .inr (.inl rfl)
    · exact .inl h
    · exact .inr (.inr h)

theorem take_insert {t n : Nat} (ht : n ≤ t) (hl : t ≤ l.length) (x : α) :
    (l.take t ++ x :: l.drop t).take n = l.take n := by
  have hlen : (l.take t).length = t := by
    rw [length_take]
    omega
  rw [take_append_of_le_length (by omega), take_take, Nat.min_eq_left ht]

theorem take_eraseIdx {i n : Nat} (hi : n ≤ i) (hlen : i < l.length) : (l.eraseIdx i).take n = l.take n := by
  rw [eraseIdx_eq_take_drop_succ, take_append_of_le_length (by rw [length_take]; omega), take_take,
    Nat.min_eq_left hi]

theorem mem_take_eraseIdx {i n : Nat} (hnodup : l.Nodup) (hi : i < n) (hx : l[i]? = some x) :
    y ∈ (l.eraseIdx i).take (n - 1) ↔ y ∈ l.take n ∧ y ≠ x := by
  obtain ⟨hlen, rfl⟩ := List.getElem?_eq_some_iff.mp hx
  have hsplit : l = l.take i ++ l[i] :: l.drop (i + 1) := by rw [List.getElem_cons_drop, List.take_append_drop]
  have htake : (l.take i).length = i := by
    rw [length_take]
    omega
  rw [eraseIdx_eq_take_drop_succ]
  generalize l[i] = x at hsplit ⊢
  generalize l.take i = a at hsplit htake ⊢
  generalize l.drop (i + 1) = b at hsplit ⊢
  subst hsplit
  rw [nodup_append, nodup_cons] at hnodup
  obtain ⟨-, ⟨hxb, -⟩, hdisjoint⟩ := hnodup
  have hsub : n - i = n - 1 - i + 1 := by omega
  have hlong : ∀ m, i ≤ m → a.take m = a := fun m hm => take_of_length_le (by omega)
  rw [take_append, take_append, htake, hlong n (by omega), hlong (n - 1) (by omega), hsub, take_succ_cons,
    mem_append, mem_append, mem_cons]
  constructor
  · rintro (h | h)
    · exact ⟨.inl h, fun hyx => hdisjoint y h x mem_cons_self hyx⟩
    · exact ⟨.inr (.inr h), fun hyx => hxb (hyx ▸ mem_of_mem_take h)⟩
  · rintro ⟨h | rfl | h, hne⟩
    · exact .inl h
    · exact absurd rfl hne
    · exact .inr h

end Arrays

/-! ## Finding editors -/

attribute [local simp] EditorInput.matchesWith

section Finding

variable {candidate editor : EditorInput} {editors : List EditorInput}

theorem matchesWith_self (supportSideBySide : Option SideBySideEditor) (candidate : EditorInput) :
    EditorInput.matchesWith supportSideBySide candidate candidate = true := by
  cases candidate with
  | input id => simp
  | sideBySide id primary secondary => simp

theorem matchesWith_none : EditorInput.matchesWith none candidate editor = decide (editor = candidate) := by
  cases editor with
  | input id => simp [Bool.beq_eq_decide_eq]
  | sideBySide id primary secondary => simp [Bool.beq_eq_decide_eq]

theorem indexOfLoop_cases (supportSideBySide : Option SideBySideEditor) (i : Nat) (index : Int) :
    (indexOfLoop supportSideBySide candidate i index editors = index ∧
        ∀ editor ∈ editors, EditorInput.matchesWith supportSideBySide candidate editor = false) ∨
      ∃ j, j < editors.length ∧ indexOfLoop supportSideBySide candidate i index editors = i + j := by
  induction editors generalizing i index with
  | nil => exact .inl ⟨rfl, fun _ hmem => by cases hmem⟩
  | cons first editors ih =>
    unfold indexOfLoop
    by_cases hmatch : EditorInput.matchesWith supportSideBySide candidate first = true
    · rw [if_pos hmatch]
      refine .inr ?_
      split
      · rcases ih (i + 1) i with ⟨heq, -⟩ | ⟨j, hj, heq⟩
        · exact ⟨0, by simp, by rw [heq]; simp⟩
        · refine ⟨j + 1, by simp; omega, ?_⟩
          omega
      · exact ⟨0, by simp, by simp⟩
    · rw [if_neg hmatch]
      rcases ih (i + 1) index with ⟨heq, hnone⟩ | ⟨j, hj, heq⟩
      · refine .inl ⟨heq, fun editor hmem => ?_⟩
        rcases mem_cons.mp hmem with rfl | hmem
        · exact Bool.eq_false_iff.mpr hmatch
        · exact hnone editor hmem
      · refine .inr ⟨j + 1, by simp; omega, ?_⟩
        omega

theorem indexOfLoop_none (i : Nat) (index : Int) :
    indexOfLoop none candidate i index editors =
      if candidate ∈ editors then (i : Int) + editors.idxOf candidate else index := by
  induction editors generalizing i with
  | nil => rfl
  | cons first editors ih =>
    unfold indexOfLoop
    rw [matchesWith_none]
    by_cases hfirst : first = candidate
    · subst hfirst
      simp
    · rw [if_neg (by simpa using hfirst), ih, idxOf_cons_ne _ hfirst]
      by_cases hmem : candidate ∈ editors
      · rw [if_pos hmem, if_pos (mem_cons_of_mem _ hmem)]
        omega
      · rw [if_neg hmem, if_neg (fun h => (mem_cons.mp h).elim (fun h => hfirst h.symm) hmem)]

theorem indexOf_mem (h : candidate ∈ editors) : indexOf (some candidate) editors = editors.idxOf candidate := by
  unfold indexOf indexOfWith
  dsimp only
  rw [indexOfLoop_none, if_pos h]
  simp

theorem indexOf_not_mem (h : candidate ∉ editors) : indexOf (some candidate) editors = -1 := by
  unfold indexOf indexOfWith
  dsimp only
  rw [indexOfLoop_none, if_neg h]

theorem getElem?_idxOf (h : candidate ∈ editors) : editors[editors.idxOf candidate]? = some candidate := by
  rw [getElem?_eq_getElem (idxOf_lt_length_of_mem h), getElem_idxOf]

/-- An editor that is not found is not there, and one that is found is. -/
theorem findEditorWith_cases (g : EditorGroupModel) (supportSideBySide : Option SideBySideEditor) (candidate : EditorInput) :
    g.findEditorWith supportSideBySide candidate = none ∧ candidate ∉ g.editors ∨
      ∃ editor index, g.findEditorWith supportSideBySide candidate = some (editor, index) ∧ editor ∈ g.editors := by
  unfold EditorGroupModel.findEditorWith indexOfWith
  dsimp only
  rcases @indexOfLoop_cases candidate g.editors supportSideBySide 0 (-1) with ⟨heq, hnone⟩ | ⟨j, hj, heq⟩
  · rw [heq, if_pos rfl]
    refine .inl ⟨rfl, fun hmem => ?_⟩
    have hself := hnone candidate hmem
    rw [matchesWith_self] at hself
    cases hself
  · rw [heq, if_neg (by omega)]
    have hnat : ((0 : Nat) + (j : Int)).toNat = j := by omega
    refine .inr ⟨g.editors[j], 0 + j, ?_, getElem_mem hj⟩
    rw [hnat, getElem?_eq_getElem hj]
    rfl

theorem findEditor_mem {g : EditorGroupModel} (h : candidate ∈ g.editors) :
    g.findEditor candidate = some (candidate, (g.editors.idxOf candidate : Int)) := by
  unfold EditorGroupModel.findEditor EditorGroupModel.findEditorWith
  have hindex : indexOfWith none (some candidate) g.editors = g.editors.idxOf candidate := indexOf_mem h
  rw [hindex, if_neg (by omega), Int.toNat_natCast, getElem?_idxOf h]
  rfl

theorem findEditor_not_mem {g : EditorGroupModel} (h : candidate ∉ g.editors) : g.findEditor candidate = none := by
  unfold EditorGroupModel.findEditor EditorGroupModel.findEditorWith
  have hindex : indexOfWith none (some candidate) g.editors = -1 := indexOf_not_mem h
  rw [hindex, if_pos rfl]

end Finding

/-! ## Sound groups -/

namespace EditorGroupModel

def stickyEditors (g : EditorGroupModel) : List EditorInput := g.editors.take (g.sticky + 1).toNat

/-- The editors and the order in which they were active. -/
structure Coherent (g : EditorGroupModel) : Prop where
  nodup : g.editors.Nodup
  mru : g.mru.Perm g.editors
  active : g.active = g.mru.head?

/-- What holds in a group whatever is sticky and whatever is in preview. -/
structure Sound (g : EditorGroupModel) : Prop extends Coherent g where
  preview : ∀ editor, g.preview = some editor → editor ∈ g.editors
  stickyLow : -1 ≤ g.sticky
  stickyHigh : g.sticky < g.editors.length

def PreviewFree (g : EditorGroupModel) : Prop := ∀ editor, g.preview = some editor → editor ∉ g.stickyEditors

section Operations

variable {g : EditorGroupModel} {editor candidate : EditorInput}

theorem Sound.active_mem (h : g.Sound) (hactive : g.active = some editor) : editor ∈ g.editors := by
  rw [h.active] at hactive
  exact h.mru.mem_iff.mp (mem_of_mem_head? hactive)

theorem Sound.active_eq_none_iff (h : g.Sound) : g.active = none ↔ g.editors = [] := by
  rw [h.active, head?_eq_none_iff]
  constructor
  · intro hnil
    have hperm := h.mru
    rw [hnil] at hperm
    exact hperm.nil_eq.symm
  · intro hnil
    have hperm := h.mru
    rw [hnil] at hperm
    exact hperm.eq_nil

theorem isSticky_iff (i : Nat) : g.isSticky i = true ↔ i < (g.sticky + 1).toNat := by
  unfold isSticky
  simp only [Bool.and_eq_true, Bool.not_eq_true', decide_eq_false_iff_not, decide_eq_true_eq]
  omega

theorem isSticky_idxOf (h : g.Sound) (hmem : editor ∈ g.editors) :
    g.isSticky (g.editors.idxOf editor) = true ↔ editor ∈ g.stickyEditors := by
  rw [isSticky_iff]
  unfold stickyEditors
  constructor
  · intro hlt
    exact mem_iff_getElem?.mpr ⟨_, by rw [getElem?_take, if_pos hlt, getElem?_idxOf hmem]⟩
  · intro hsticky
    obtain ⟨i, hi⟩ := mem_iff_getElem?.mp hsticky
    rw [getElem?_take] at hi
    split at hi
    · next hlt =>
      obtain ⟨hlen, hget⟩ := List.getElem?_eq_some_iff.mp hi
      have hidx : g.editors.idxOf editor = i := by
        rw [← hget]
        exact h.nodup.idxOf_getElem i hlen
      omega
    · cases hi

/-! ### Active editor and preview -/

theorem mru_erase (hmem : editor ∈ g.mru) :
    spliceArray g.mru (indexOf (some editor) g.mru) 1 [] = g.mru.erase editor := by
  rw [indexOf_mem hmem, spliceArray_erase (by omega) (by have := idxOf_lt_length_of_mem hmem; omega), Int.toNat_natCast,
    eraseIdx_idxOf_eq_erase]

theorem doSetActive_frame (g : EditorGroupModel) (editor : EditorInput) :
    (g.doSetActive editor).editors = g.editors ∧ (g.doSetActive editor).preview = g.preview ∧
      (g.doSetActive editor).sticky = g.sticky := by
  unfold doSetActive
  split <;> exact ⟨rfl, rfl, rfl⟩

theorem doSetActive_mru (hperm : g.mru.Perm g.editors) (hmem : editor ∈ g.editors)
    (hactive : g.active = some editor → g.mru.head? = some editor) :
    (g.doSetActive editor).mru.Perm g.editors ∧ (g.doSetActive editor).active = some editor ∧
      (g.doSetActive editor).mru.head? = some editor := by
  unfold doSetActive
  by_cases hat : g.active = some editor
  · rw [if_pos hat]
    exact ⟨hperm, hat, hactive hat⟩
  · have hmru := hperm.mem_iff.mpr hmem
    rw [if_neg hat]
    rw [mru_erase hmru]
    exact ⟨(perm_cons_erase hmru).symm.trans hperm, rfl, rfl⟩

theorem Sound.doSetActive (h : g.Sound) (hmem : editor ∈ g.editors) : (g.doSetActive editor).Sound := by
  obtain ⟨hperm, hactive, hhead⟩ := doSetActive_mru h.mru hmem fun hactive => by rw [← h.active]; exact hactive
  obtain ⟨heditors, hpreview, hsticky⟩ := doSetActive_frame g editor
  refine ⟨⟨?_, ?_, ?_⟩, ?_, ?_, ?_⟩
  · rw [heditors]
    exact h.nodup
  · rw [heditors]
    exact hperm
  · rw [hactive, hhead]
  · rw [hpreview, heditors]
    exact h.preview
  · rw [hsticky]
    exact h.stickyLow
  · rw [hsticky, heditors]
    exact h.stickyHigh

theorem stickyEditors_doSetActive (g : EditorGroupModel) (editor : EditorInput) :
    (g.doSetActive editor).stickyEditors = g.stickyEditors := by
  obtain ⟨heditors, -, hsticky⟩ := doSetActive_frame g editor
  unfold stickyEditors
  rw [heditors, hsticky]

theorem PreviewFree.doSetActive (h : g.PreviewFree) (editor : EditorInput) : (g.doSetActive editor).PreviewFree := by
  unfold PreviewFree
  rw [(doSetActive_frame g editor).2.1, stickyEditors_doSetActive]
  exact h

theorem doPin_eq (g : EditorGroupModel) (editor : EditorInput) :
    g.doPin editor = { g with preview := if g.preview = some editor then none else g.preview } := by
  unfold doPin isPinned
  by_cases hpreview : g.preview = some editor
  · simp [hpreview]
  · simp [hpreview]

theorem Sound.doPin (h : g.Sound) (editor : EditorInput) : (g.doPin editor).Sound := by
  rw [doPin_eq]
  refine ⟨⟨h.nodup, h.mru, h.active⟩, fun editor' heq => ?_, h.stickyLow, h.stickyHigh⟩
  split at heq
  · cases heq
  · exact h.preview editor' heq

theorem PreviewFree.doPin (h : g.PreviewFree) (editor : EditorInput) : (g.doPin editor).PreviewFree := by
  rw [doPin_eq]
  intro editor' heq
  split at heq
  · cases heq
  · exact h editor' heq

theorem pin_eq (hmem : editor ∈ g.editors) : g.pin editor = g.doPin editor := by
  unfold pin
  rw [findEditor_mem hmem]

/-! ### Moves -/

/-- The index that a move is limited to. -/
def boundedIndex (g : EditorGroupModel) (toIndex : Int) : Int :=
  if toIndex ≥ g.editors.length then (g.editors.length : Int) - 1 else if toIndex < 0 then 0 else toIndex

theorem boundedIndex_bounds (g : EditorGroupModel) (hmem : editor ∈ g.editors) (toIndex : Int) :
    0 ≤ g.boundedIndex toIndex ∧ g.boundedIndex toIndex < g.editors.length := by
  have := length_pos_of_mem hmem
  unfold boundedIndex
  split_ifs <;> omega

theorem moveEditor_def (g : EditorGroupModel) (candidate : EditorInput) (toIndex : Int) :
    g.moveEditor candidate toIndex =
      if indexOf (some candidate) g.editors < 0 ∨ g.boundedIndex toIndex = indexOf (some candidate) g.editors then g
      else
        match g.editors[(indexOf (some candidate) g.editors).toNat]? with
        | none => g
        | some editor =>
          { g with
            sticky :=
              if g.isSticky (indexOf (some candidate) g.editors) && g.boundedIndex toIndex > g.sticky then g.sticky - 1
              else if !g.isSticky (indexOf (some candidate) g.editors) && g.boundedIndex toIndex ≤ g.sticky then g.sticky + 1
              else g.sticky
            editors := spliceArray (spliceArray g.editors (indexOf (some candidate) g.editors) 1 []) (g.boundedIndex toIndex) 0
              [editor] } := rfl

theorem moveEditor_same (hmem : editor ∈ g.editors) {toIndex : Int}
    (heq : g.boundedIndex toIndex = g.editors.idxOf editor) : g.moveEditor editor toIndex = g := by
  rw [moveEditor_def, indexOf_mem hmem, if_pos (.inr heq)]

theorem moveEditor_not_mem (hmem : editor ∉ g.editors) (toIndex : Int) : g.moveEditor editor toIndex = g := by
  rw [moveEditor_def, indexOf_not_mem hmem, if_pos (.inl (by omega))]

theorem moveEditor_eq (h : g.Sound) (hmem : editor ∈ g.editors) (toIndex : Int)
    (hne : g.boundedIndex toIndex ≠ g.editors.idxOf editor) :
    g.moveEditor editor toIndex =
      { g with
        sticky :=
          if editor ∈ g.stickyEditors ∧ g.boundedIndex toIndex > g.sticky then g.sticky - 1
          else if editor ∉ g.stickyEditors ∧ g.boundedIndex toIndex ≤ g.sticky then g.sticky + 1
          else g.sticky
        editors := (g.editors.eraseIdx (g.editors.idxOf editor)).take (g.boundedIndex toIndex).toNat ++
          editor :: (g.editors.eraseIdx (g.editors.idxOf editor)).drop (g.boundedIndex toIndex).toNat } := by
  obtain ⟨hlow, hhigh⟩ := boundedIndex_bounds g hmem toIndex
  have hlt := idxOf_lt_length_of_mem hmem
  have hsticky := isSticky_idxOf h hmem
  rw [moveEditor_def, indexOf_mem hmem, if_neg (by omega), Int.toNat_natCast, getElem?_idxOf hmem]
  dsimp only
  rw [spliceArray_erase (by omega) (by omega), Int.toNat_natCast, spliceArray_insert]
  · congr 1
    simp only [Bool.and_eq_true, hsticky, decide_eq_true_eq, Bool.not_eq_true', Bool.eq_false_iff, ne_eq]
  · exact hlow
  · rw [length_eraseIdx_of_lt hlt]
    omega

theorem mem_stickyEditors_moveEditor (h : g.Sound) (hmem : editor ∈ g.editors) (toIndex : Int) (y : EditorInput) :
    y ∈ (g.moveEditor editor toIndex).stickyEditors ↔
      if g.boundedIndex toIndex ≤ g.sticky then y = editor ∨ y ∈ g.stickyEditors else y ∈ g.stickyEditors ∧ y ≠ editor := by
  obtain ⟨hlow, hhigh⟩ := boundedIndex_bounds g hmem toIndex
  have hlt := idxOf_lt_length_of_mem hmem
  have hsticky := isSticky_idxOf h hmem
  rw [isSticky_iff] at hsticky
  by_cases heq : g.boundedIndex toIndex = g.editors.idxOf editor
  · rw [moveEditor_same hmem heq]
    by_cases hat : g.boundedIndex toIndex ≤ g.sticky
    · rw [if_pos hat]
      have hin := hsticky.mp (by omega)
      exact ⟨.inr, fun hor => hor.elim (fun heq => heq ▸ hin) id⟩
    · rw [if_neg hat]
      have hout : editor ∉ g.stickyEditors := fun hin => by
        have := hsticky.mpr hin
        omega
      exact ⟨fun hy => ⟨hy, fun heq => hout (heq ▸ hy)⟩, fun hy => hy.1⟩
  · rw [moveEditor_eq h hmem toIndex heq]
    have hlen : (g.boundedIndex toIndex).toNat ≤ (g.editors.eraseIdx (g.editors.idxOf editor)).length := by
      rw [length_eraseIdx_of_lt hlt]
      omega
    have hget := getElem?_idxOf hmem
    unfold stickyEditors at hsticky ⊢
    dsimp only
    by_cases hin : editor ∈ g.editors.take (g.sticky + 1).toNat
    · have hidx := hsticky.mpr hin
      by_cases hat : g.boundedIndex toIndex ≤ g.sticky
      · -- it stays sticky
        rw [if_neg (by omega), if_neg (fun hboth => hboth.1 hin), if_pos hat]
        have hcount : (g.sticky + 1).toNat = ((g.sticky + 1).toNat - 1) + 1 := by omega
        rw [hcount, mem_take_insert (by omega) hlen, ← hcount, mem_take_eraseIdx h.nodup hidx hget]
        by_cases hy : y = editor
        · exact ⟨fun _ => .inl hy, fun _ => .inl hy⟩
        · simp [hy]
      · -- it leaves the sticky ones
        rw [if_pos ⟨hin, by omega⟩, if_neg hat]
        have hcount : (g.sticky - 1 + 1).toNat = (g.sticky + 1).toNat - 1 := by omega
        rw [hcount, take_insert (by omega) hlen, mem_take_eraseIdx h.nodup hidx hget]
    · have hidx : (g.sticky + 1).toNat ≤ g.editors.idxOf editor := Nat.le_of_not_lt fun hlt' => hin (hsticky.mp hlt')
      rw [if_neg (fun hboth => hin hboth.1)]
      by_cases hat : g.boundedIndex toIndex ≤ g.sticky
      · -- it joins the sticky ones
        rw [if_pos ⟨hin, hat⟩, if_pos hat]
        have hcount : (g.sticky + 1 + 1).toNat = (g.sticky + 1).toNat + 1 := by omega
        rw [hcount, mem_take_insert (by omega) hlen, take_eraseIdx hidx hlt]
      · rw [if_neg (fun hboth => hat hboth.2), if_neg hat, take_insert (by omega) hlen, take_eraseIdx hidx hlt]
        exact ⟨fun hy => ⟨hy, fun heq => hin (heq ▸ hy)⟩, fun hy => hy.1⟩

theorem moveEditor_frame (g : EditorGroupModel) (editor : EditorInput) (toIndex : Int) :
    (g.moveEditor editor toIndex).mru = g.mru ∧ (g.moveEditor editor toIndex).preview = g.preview ∧
      (g.moveEditor editor toIndex).active = g.active := by
  rw [moveEditor_def]
  split
  · exact ⟨rfl, rfl, rfl⟩
  · split <;> exact ⟨rfl, rfl, rfl⟩

theorem moveEditor_perm (h : g.Sound) (editor : EditorInput) (toIndex : Int) :
    (g.moveEditor editor toIndex).editors.Perm g.editors ∧ -1 ≤ (g.moveEditor editor toIndex).sticky ∧
      (g.moveEditor editor toIndex).sticky < g.editors.length := by
  have hstickyLow := h.stickyLow
  have hstickyHigh := h.stickyHigh
  by_cases hmem : editor ∈ g.editors
  swap
  · rw [moveEditor_not_mem hmem]
    exact ⟨List.Perm.refl _, hstickyLow, hstickyHigh⟩
  by_cases heq : g.boundedIndex toIndex = g.editors.idxOf editor
  · rw [moveEditor_same hmem heq]
    exact ⟨List.Perm.refl _, hstickyLow, hstickyHigh⟩
  · rw [moveEditor_eq h hmem toIndex heq]
    dsimp only
    have hlt := idxOf_lt_length_of_mem hmem
    have hsticky := isSticky_idxOf h hmem
    rw [isSticky_iff] at hsticky
    refine ⟨?_, ?_, ?_⟩
    · refine perm_middle.trans ?_
      rw [List.take_append_drop, eraseIdx_idxOf_eq_erase]
      exact (perm_cons_erase hmem).symm
    · by_cases hin : editor ∈ g.stickyEditors
      · have hidx := hsticky.mpr hin
        split_ifs <;> omega
      · rw [if_neg (fun hboth => hin hboth.1)]
        split_ifs <;> omega
    · by_cases hin : editor ∈ g.stickyEditors
      · split_ifs with h1 h2
        · omega
        · exact absurd hin h2.1
        · exact hstickyHigh
      · have hidx : (g.sticky + 1).toNat ≤ g.editors.idxOf editor := Nat.le_of_not_lt fun hlt' => hin (hsticky.mp hlt')
        split_ifs <;> omega

theorem Sound.moveEditor (h : g.Sound) (editor : EditorInput) (toIndex : Int) : (g.moveEditor editor toIndex).Sound := by
  obtain ⟨hmru, hpreview, hactive⟩ := moveEditor_frame g editor toIndex
  obtain ⟨hperm, hlow, hhigh⟩ := moveEditor_perm h editor toIndex
  refine ⟨⟨hperm.symm.nodup h.nodup, ?_, ?_⟩, ?_, hlow, ?_⟩
  · rw [hmru]
    exact h.mru.trans hperm.symm
  · rw [hactive, hmru]
    exact h.active
  · rw [hpreview]
    exact fun editor' heq => hperm.mem_iff.mpr (h.preview editor' heq)
  · rw [hperm.length_eq]
    exact hhigh

theorem PreviewFree.moveEditor (hfree : g.PreviewFree) (h : g.Sound) {toIndex : Int}
    (hnot : ¬(g.preview = some editor ∧ g.boundedIndex toIndex ≤ g.sticky)) : (g.moveEditor editor toIndex).PreviewFree := by
  by_cases hmem : editor ∈ g.editors
  swap
  · rw [moveEditor_not_mem hmem]
    exact hfree
  intro preview hpreview hsticky
  rw [(moveEditor_frame g editor toIndex).2.1] at hpreview
  rw [mem_stickyEditors_moveEditor h hmem] at hsticky
  split at hsticky
  · next hat =>
    rcases hsticky with rfl | hsticky
    · exact hnot ⟨hpreview, hat⟩
    · exact hfree preview hpreview hsticky
  · exact hfree preview hpreview hsticky.1

/-! ### Closing -/

theorem head?_erase_of_ne {l : List EditorInput} (hne : l.head? ≠ some editor) : (l.erase editor).head? = l.head? := by
  cases l with
  | nil => rfl
  | cons first l =>
    have hfirst : first ≠ editor := fun heq => hne (by rw [heq]; rfl)
    rw [erase_cons_tail (by simpa using hfirst)]
    rfl

/-- The first part of `doCloseEditor`: another editor becomes active. -/
def activateNext (configuration : Configuration) (g : EditorGroupModel) (index : Int) (editor : EditorInput) (openNext : Bool) :
    EditorGroupModel :=
  if openNext && g.active = some editor then
    if g.mru.length > 1 then
      match if configuration.focusRecentEditorAfterClose then g.mru[1]?
        else if index = g.editors.length - 1 then g.editors[(index - 1).toNat]?
        else g.editors[(index + 1).toNat]? with
      | none => g
      | some newActive => g.doSetActive newActive
    else { g with active := none }
  else g

section

variable (configuration : Configuration)
include configuration

theorem closeEditor_def (hmem : editor ∈ g.editors) (openNext : Bool) :
    g.closeEditor configuration editor openNext =
      let g' := g.activateNext configuration (g.editors.idxOf editor) editor openNext
      (if g'.preview = some editor then { g' with preview := none } else g').splice (g.editors.idxOf editor) true none := by
  unfold closeEditor
  rw [indexOf_mem hmem]
  rw [if_neg (by omega), Int.toNat_natCast, getElem?_idxOf hmem]
  rfl

theorem activateNext_spec (h : g.Coherent) (hmem : editor ∈ g.editors) (openNext : Bool) :
    (g.activateNext configuration (g.editors.idxOf editor) editor openNext).editors = g.editors ∧
      (g.activateNext configuration (g.editors.idxOf editor) editor openNext).preview = g.preview ∧
      (g.activateNext configuration (g.editors.idxOf editor) editor openNext).sticky = g.sticky ∧
      (g.activateNext configuration (g.editors.idxOf editor) editor openNext).mru.Perm g.editors ∧
      (openNext = true ∨ g.active ≠ some editor →
        (g.activateNext configuration (g.editors.idxOf editor) editor openNext).active =
          ((g.activateNext configuration (g.editors.idxOf editor) editor openNext).mru.erase editor).head?) ∧
      (openNext = false → (g.activateNext configuration (g.editors.idxOf editor) editor openNext).active = g.active) := by
  have hlt := idxOf_lt_length_of_mem hmem
  have hlength := h.mru.length_eq
  unfold activateNext
  by_cases hactive : (openNext && g.active = some editor) = true
  swap
  · rw [if_neg hactive]
    refine ⟨rfl, rfl, rfl, h.mru, fun hor => ?_, fun _ => rfl⟩
    have hne : g.active ≠ some editor := by
      rcases hor with hopen | hne
      · intro hat
        rw [hopen, hat] at hactive
        exact hactive (by simp)
      · exact hne
    rw [h.active] at hne ⊢
    exact (head?_erase_of_ne hne).symm
  rw [if_pos hactive]
  rw [Bool.and_eq_true, decide_eq_true_eq] at hactive
  obtain ⟨hopen, hactive⟩ := hactive
  have hnot : ¬openNext = false := by rw [hopen]; exact Bool.noConfusion
  have hhead := hactive
  rw [h.active] at hhead
  by_cases hmore : g.mru.length > 1
  · rw [if_pos hmore]
    -- the next editor is not the one that closes
    have hnext : ∃ newActive, (if configuration.focusRecentEditorAfterClose then g.mru[1]?
        else if (g.editors.idxOf editor : Int) = g.editors.length - 1 then g.editors[((g.editors.idxOf editor : Int) - 1).toNat]?
        else g.editors[((g.editors.idxOf editor : Int) + 1).toNat]?) = some newActive ∧ newActive ∈ g.editors ∧
        newActive ≠ editor := by
      have hother : ∀ i : Nat, i < g.editors.length → i ≠ g.editors.idxOf editor →
          ∃ newActive, g.editors[i]? = some newActive ∧ newActive ∈ g.editors ∧ newActive ≠ editor := by
        intro i hi hne
        refine ⟨g.editors[i], getElem?_eq_getElem hi, getElem_mem hi, fun heq => hne ?_⟩
        rw [← heq]
        exact (h.nodup.idxOf_getElem i hi).symm
      split_ifs with hfocus hlast
      · refine ⟨g.mru[1], getElem?_eq_getElem hmore, h.mru.mem_iff.mp (getElem_mem _), fun heq => ?_⟩
        have hzero : g.mru[0]? = some editor := by rw [← List.head?_eq_getElem?]; exact hhead
        obtain ⟨hpos, hzero⟩ := List.getElem?_eq_some_iff.mp hzero
        have := (List.Nodup.getElem_inj_iff (h.mru.nodup_iff.mpr h.nodup)).mp (heq.trans hzero.symm)
        omega
      · exact hother _ (by omega) (by omega)
      · exact hother _ (by omega) (by omega)
    obtain ⟨newActive, hsome, hnew, hne⟩ := hnext
    rw [hsome]
    obtain ⟨heditors, hpreview, hsticky⟩ := doSetActive_frame g newActive
    obtain ⟨hperm, hactive', hhead'⟩ := doSetActive_mru h.mru hnew fun heq => by
      rw [hactive] at heq
      exact absurd (Option.some.inj heq).symm hne
    refine ⟨heditors, hpreview, hsticky, hperm, fun _ => ?_, fun hclosed => absurd hclosed hnot⟩
    rw [hactive', head?_erase_of_ne]
    · exact hhead'.symm
    · rw [hhead']
      exact fun heq => hne (Option.some.inj heq)
  · rw [if_neg hmore]
    refine ⟨rfl, rfl, rfl, h.mru, fun _ => ?_, fun hclosed => absurd hclosed hnot⟩
    obtain ⟨rest, hrest⟩ := head?_eq_some_iff.mp hhead
    rw [hrest, length_cons] at hmore
    rw [hrest, erase_cons_head, eq_nil_of_length_eq_zero (by omega : rest.length = 0)]
    rfl

theorem closeEditor_spec (h : g.Coherent) (hmem : editor ∈ g.editors) (openNext : Bool) :
    (g.closeEditor configuration editor openNext).editors = g.editors.erase editor ∧
      (g.closeEditor configuration editor openNext).mru.Perm (g.editors.erase editor) ∧
      (g.closeEditor configuration editor openNext).preview = (if g.preview = some editor then none else g.preview) ∧
      (g.closeEditor configuration editor openNext).sticky =
        (if g.isSticky (g.editors.idxOf editor) then g.sticky - 1 else g.sticky) ∧
      (openNext = true ∨ g.active ≠ some editor → (g.closeEditor configuration editor openNext).active =
        (g.closeEditor configuration editor openNext).mru.head?) ∧
      (openNext = false → (g.closeEditor configuration editor openNext).active = g.active) := by
  have hlt := idxOf_lt_length_of_mem hmem
  obtain ⟨heditors, hpreview, hsticky, hperm, hactive, hstale⟩ := activateNext_spec configuration h hmem openNext
  rw [closeEditor_def configuration hmem]
  generalize g.activateNext configuration (g.editors.idxOf editor) editor openNext = g' at heditors hpreview hsticky hperm hactive hstale
  dsimp only
  have hget : g'.editors[g.editors.idxOf editor]? = some editor := by
    rw [heditors]
    exact getElem?_idxOf hmem
  have hmru : spliceArray g'.mru (indexOf g'.editors[g.editors.idxOf editor]? g'.mru) 1 [] = g'.mru.erase editor := by
    rw [hget]
    exact mru_erase (hperm.mem_iff.mpr hmem)
  have hsplice : spliceArray g'.editors (g.editors.idxOf editor) 1 [] = g.editors.erase editor := by
    rw [heditors, spliceArray_erase (by omega) (by omega), Int.toNat_natCast, eraseIdx_idxOf_eq_erase]
  have hpermErase : (g'.mru.erase editor).Perm (g.editors.erase editor) := hperm.erase editor
  have hisSticky : ∀ preview, ({ g' with preview } : EditorGroupModel).isSticky (g.editors.idxOf editor) =
      g.isSticky (g.editors.idxOf editor) := by
    intro preview
    unfold isSticky
    rw [hsticky]
  have hresult : (if g'.preview = some editor then { g' with preview := none } else g') =
      { g' with preview := if g.preview = some editor then none else g.preview } := by
    rw [hpreview]
    split
    · rfl
    · rw [← hpreview]
  rw [hresult]
  unfold splice
  dsimp only
  rw [hisSticky, Int.toNat_natCast, hsticky]
  refine ⟨hsplice, ?_, rfl, ?_, fun hor => ?_, hstale⟩
  · rw [hmru]
    exact hpermErase
  · rw [Bool.true_and]
  · rw [hmru]
    exact hactive hor

theorem closeEditor_not_mem (hmem : editor ∉ g.editors) (openNext : Bool) :
    g.closeEditor configuration editor openNext = g := by
  unfold closeEditor
  rw [indexOf_not_mem hmem]
  rfl

theorem closeEditor_sticky (h : g.Sound) (hmem : editor ∈ g.editors) (openNext : Bool) :
    (∀ y, y ∈ (g.closeEditor configuration editor openNext).stickyEditors ↔ y ∈ g.stickyEditors ∧ y ≠ editor) ∧
      -1 ≤ (g.closeEditor configuration editor openNext).sticky ∧
      (g.closeEditor configuration editor openNext).sticky < (g.editors.erase editor).length := by
  have hlt := idxOf_lt_length_of_mem hmem
  have hlow := h.stickyLow
  have hhigh := h.stickyHigh
  have hlength := length_erase_of_mem hmem
  obtain ⟨heditors, -, -, hsticky, -, -⟩ := closeEditor_spec configuration h.toCoherent hmem openNext
  unfold stickyEditors
  rw [heditors, hsticky, hlength]
  have hiff := isSticky_iff (g := g) (g.editors.idxOf editor)
  by_cases hin : g.isSticky (g.editors.idxOf editor) = true
  · rw [if_pos hin]
    have hidx := hiff.mp hin
    have hcount : (g.sticky - 1 + 1).toNat = (g.sticky + 1).toNat - 1 := by omega
    refine ⟨fun y => ?_, by omega, by omega⟩
    rw [hcount, ← eraseIdx_idxOf_eq_erase]
    exact mem_take_eraseIdx h.nodup hidx (getElem?_idxOf hmem)
  · rw [if_neg hin]
    have hidx : (g.sticky + 1).toNat ≤ g.editors.idxOf editor := Nat.le_of_not_lt fun hlt' => hin (hiff.mpr hlt')
    refine ⟨fun y => ?_, hlow, by omega⟩
    rw [← eraseIdx_idxOf_eq_erase, take_eraseIdx hidx hlt]
    refine ⟨fun hy => ⟨hy, fun heq => hin ((isSticky_idxOf h hmem).mpr ?_)⟩, fun hy => hy.1⟩
    rw [← heq]
    exact hy

theorem Sound.closeEditor (h : g.Sound) (editor : EditorInput) :
    (g.closeEditor configuration editor true).Sound := by
  by_cases hmem : editor ∈ g.editors
  swap
  · rw [closeEditor_not_mem configuration hmem]
    exact h
  obtain ⟨heditors, hperm, hpreview, -, hactive, -⟩ := closeEditor_spec configuration h.toCoherent hmem true
  obtain ⟨-, hlow, hhigh⟩ := closeEditor_sticky configuration h hmem true
  refine ⟨⟨?_, ?_, hactive (.inl rfl)⟩, fun editor' heq => ?_, hlow, ?_⟩
  · rw [heditors]
    exact h.nodup.erase editor
  · rw [heditors]
    exact hperm
  · rw [hpreview] at heq
    rw [heditors]
    split at heq
    · cases heq
    · next hne =>
      refine (mem_erase_of_ne fun hsame => hne ?_).mpr (h.preview editor' heq)
      rw [← hsame]
      exact heq
  · rw [heditors]
    exact hhigh

theorem PreviewFree.closeEditor (hfree : g.PreviewFree) (h : g.Sound) (editor : EditorInput) :
    (g.closeEditor configuration editor true).PreviewFree := by
  by_cases hmem : editor ∈ g.editors
  swap
  · rw [closeEditor_not_mem configuration hmem]
    exact hfree
  obtain ⟨-, -, hpreview, -, -, -⟩ := closeEditor_spec configuration h.toCoherent hmem true
  intro editor' heq hsticky
  rw [hpreview] at heq
  split at heq
  · cases heq
  · exact hfree editor' heq (((closeEditor_sticky configuration h hmem true).1 editor').mp hsticky).1

/-! ### Pinning and sticking -/

theorem Sound.doUnpin (h : g.Sound) (hmem : editor ∈ g.editors) :
    (g.doUnpin configuration editor).Sound := by
  have hset : ({ g with preview := some editor } : EditorGroupModel).Sound :=
    ⟨⟨h.nodup, h.mru, h.active⟩, fun editor' heq => Option.some.inj heq ▸ hmem, h.stickyLow, h.stickyHigh⟩
  unfold EditorGroupModel.doUnpin
  split
  · exact h
  · dsimp only
    split
    · exact hset
    · exact hset.closeEditor configuration _

theorem PreviewFree.doUnpin (hfree : g.PreviewFree) (h : g.Sound) (hmem : editor ∈ g.editors)
    (hnot : editor ∉ g.stickyEditors) : (g.doUnpin configuration editor).PreviewFree := by
  have hset : ({ g with preview := some editor } : EditorGroupModel).Sound :=
    ⟨⟨h.nodup, h.mru, h.active⟩, fun editor' heq => Option.some.inj heq ▸ hmem, h.stickyLow, h.stickyHigh⟩
  have hsetFree : ({ g with preview := some editor } : EditorGroupModel).PreviewFree := by
    intro editor' heq
    rw [← Option.some.inj heq]
    exact hnot
  unfold EditorGroupModel.doUnpin
  split
  · exact hfree
  · dsimp only
    split
    · exact hsetFree
    · exact hsetFree.closeEditor configuration hset _

end

section

variable (h : g.Sound) (hmem : editor ∈ g.editors)
include h hmem

theorem getElem?_moveEditor {i : Nat} (hi : i < g.editors.length) :
    (g.moveEditor editor i).editors[i]? = some editor := by
  have hbounded : g.boundedIndex i = i := by
    unfold boundedIndex
    rw [if_neg (by omega), if_neg (by omega)]
  by_cases heq : g.boundedIndex i = g.editors.idxOf editor
  · rw [moveEditor_same hmem heq]
    have hidx : i = g.editors.idxOf editor := by omega
    rw [hidx]
    exact getElem?_idxOf hmem
  · rw [moveEditor_eq h hmem i heq, hbounded]
    have hlen : ((g.editors.eraseIdx (g.editors.idxOf editor)).take (i : Int).toNat).length = i := by
      rw [length_take, length_eraseIdx_of_lt (idxOf_lt_length_of_mem hmem), Int.toNat_natCast]
      omega
    rw [getElem?_append_right (by omega), hlen, Nat.sub_self]
    rfl

theorem stickMove_spec (hin : ¬ g.isSticky (g.editors.idxOf editor) = true) :
    g.doStick editor (g.editors.idxOf editor) =
        { (g.doPin editor).moveEditor editor (g.sticky + 1) with sticky := g.sticky + 1 } ∧
      ((g.doPin editor).moveEditor editor (g.sticky + 1)).Sound ∧
      ((g.doPin editor).moveEditor editor (g.sticky + 1)).sticky = g.sticky ∧
      ((g.doPin editor).moveEditor editor (g.sticky + 1)).editors[(g.sticky + 1).toNat]? = some editor ∧
      ∀ y, y ∈ ((g.doPin editor).moveEditor editor (g.sticky + 1)).stickyEditors ↔ y ∈ g.stickyEditors ∧ y ≠ editor := by
  have hpinned := h.doPin editor
  have hmem' : editor ∈ (g.doPin editor).editors := by
    rw [doPin_eq]
    exact hmem
  have hfields : (g.doPin editor).editors = g.editors ∧ (g.doPin editor).sticky = g.sticky := by
    rw [doPin_eq]
    exact ⟨rfl, rfl⟩
  have hidx : (g.sticky + 1).toNat ≤ g.editors.idxOf editor :=
    Nat.le_of_not_lt fun hlt' => hin ((isSticky_iff _).mpr hlt')
  have hlt := idxOf_lt_length_of_mem hmem
  have hlow := h.stickyLow
  have hcast : g.sticky + 1 = ((g.sticky + 1).toNat : Int) := by omega
  have hget := getElem?_moveEditor hpinned hmem' (by rw [hfields.1]; omega : (g.sticky + 1).toNat < (g.doPin editor).editors.length)
  rw [← hcast] at hget
  have hbounded : (g.doPin editor).boundedIndex (g.sticky + 1) = g.sticky + 1 := by
    unfold boundedIndex
    rw [hfields.1, if_neg (by omega), if_neg (by omega)]
  have hmembers := mem_stickyEditors_moveEditor hpinned hmem' (g.sticky + 1)
  have hsame : ((g.doPin editor).moveEditor editor (g.sticky + 1)).sticky = g.sticky := by
    by_cases heq : (g.doPin editor).boundedIndex (g.sticky + 1) = (g.doPin editor).editors.idxOf editor
    · rw [moveEditor_same hmem' heq, hfields.2]
    · rw [moveEditor_eq hpinned hmem' _ heq]
      rw [hbounded, hfields.2]
      have hout : editor ∉ (g.doPin editor).stickyEditors := by
        unfold stickyEditors
        rw [hfields.1, hfields.2]
        exact fun hsticky => hin ((isSticky_idxOf h hmem).mpr hsticky)
      rw [if_neg (fun hboth => hout hboth.1), if_neg (by omega)]
  refine ⟨?_, hpinned.moveEditor editor (g.sticky + 1), hsame, hget, fun y => ?_⟩
  · unfold doStick
    rw [if_neg hin, pin_eq hmem]
    dsimp only
    rw [hfields.2, hsame]
  · rw [hmembers, if_neg (by omega)]
    unfold stickyEditors
    rw [hfields.1, hfields.2]

theorem doStick_spec :
    (g.doStick editor (g.editors.idxOf editor)).Sound ∧
      (g.PreviewFree → (g.doStick editor (g.editors.idxOf editor)).PreviewFree) := by
  by_cases hin : g.isSticky (g.editors.idxOf editor) = true
  · unfold doStick
    rw [if_pos hin]
    exact ⟨h, id⟩
  obtain ⟨hdef, hmoved, hsame, hget, hmembers⟩ := stickMove_spec h hmem hin
  have hidx : (g.sticky + 1).toNat ≤ g.editors.idxOf editor :=
    Nat.le_of_not_lt fun hlt' => hin ((isSticky_iff _).mpr hlt')
  have hlt := idxOf_lt_length_of_mem hmem
  have hlow := h.stickyLow
  have hlength : ((g.doPin editor).moveEditor editor (g.sticky + 1)).editors.length = g.editors.length := by
    rw [(moveEditor_perm (h.doPin editor) editor (g.sticky + 1)).1.length_eq, doPin_eq]
  have hpreviewNe : (g.doPin editor).preview ≠ some editor := by
    rw [doPin_eq]
    split
    · exact fun heq => nomatch heq
    · assumption
  rw [hdef]
  refine ⟨⟨⟨hmoved.nodup, hmoved.mru, hmoved.active⟩, hmoved.preview, ?_, ?_⟩, fun hfree => ?_⟩
  · dsimp only
    omega
  · dsimp only
    omega
  · intro preview hpreview hsticky
    rw [(moveEditor_frame _ editor _).2.1] at hpreview
    have hfree' := hfree.doPin editor preview hpreview
    unfold stickyEditors at hsticky
    have hcount : (g.sticky + 1 + 1).toNat = (g.sticky + 1).toNat + 1 := by omega
    rw [hcount, take_add_one, hget, mem_append] at hsticky
    rcases hsticky with hsticky | hlast
    · have hin' := ((hmembers preview).mp (by unfold stickyEditors; rw [hsame]; exact hsticky)).1
      rw [doPin_eq] at hfree'
      exact hfree' hin'
    · rw [mem_singleton.mp hlast] at hpreview
      exact hpreviewNe hpreview

theorem unstickMove_spec (hin : g.isSticky (g.editors.idxOf editor) = true) :
    g.doUnstick editor (g.editors.idxOf editor) =
        { g.moveEditor editor g.sticky with sticky := g.sticky - 1 } ∧
      (g.moveEditor editor g.sticky).Sound ∧ (g.moveEditor editor g.sticky).sticky = g.sticky ∧
      (g.moveEditor editor g.sticky).editors[g.sticky.toNat]? = some editor ∧
      ∀ y, y ∈ (g.moveEditor editor g.sticky).stickyEditors ↔ y = editor ∨ y ∈ g.stickyEditors := by
  have hidx := (isSticky_iff _).mp hin
  have hsticky := (isSticky_idxOf h hmem).mp hin
  have hhigh := h.stickyHigh
  have hcast : g.sticky = (g.sticky.toNat : Int) := by omega
  have hget := getElem?_moveEditor h hmem (by omega : g.sticky.toNat < g.editors.length)
  rw [← hcast] at hget
  have hbounded : g.boundedIndex g.sticky = g.sticky := by
    unfold boundedIndex
    rw [if_neg (by omega), if_neg (by omega)]
  have hmembers := mem_stickyEditors_moveEditor h hmem g.sticky
  rw [hbounded] at hmembers
  have hsame : (g.moveEditor editor g.sticky).sticky = g.sticky := by
    by_cases heq : g.boundedIndex g.sticky = g.editors.idxOf editor
    · rw [moveEditor_same hmem heq]
    · rw [moveEditor_eq h hmem _ heq]
      rw [hbounded, if_neg (by omega), if_neg (fun hboth => hboth.1 hsticky)]
  refine ⟨?_, h.moveEditor editor g.sticky, hsame, hget, fun y => ?_⟩
  · unfold doUnstick
    rw [if_neg (by simpa using hin)]
    dsimp only
    rw [hsame]
  · rw [hmembers, if_pos (Int.le_refl _)]

theorem doUnstick_spec :
    (g.doUnstick editor (g.editors.idxOf editor)).Sound ∧
      (g.PreviewFree → (g.doUnstick editor (g.editors.idxOf editor)).PreviewFree) := by
  by_cases hin : g.isSticky (g.editors.idxOf editor) = true
  swap
  · unfold doUnstick
    rw [if_pos (by simpa using hin)]
    exact ⟨h, id⟩
  obtain ⟨hdef, hmoved, hsame, -, hmembers⟩ := unstickMove_spec h hmem hin
  have hidx := (isSticky_iff _).mp hin
  have hhigh := h.stickyHigh
  have hlength := (moveEditor_perm h editor g.sticky).1.length_eq
  rw [hdef]
  refine ⟨⟨⟨hmoved.nodup, hmoved.mru, hmoved.active⟩, hmoved.preview, ?_, ?_⟩, fun hfree => ?_⟩
  · dsimp only
    omega
  · dsimp only
    omega
  · intro preview hpreview hsticky'
    rw [(moveEditor_frame _ editor _).2.1] at hpreview
    unfold stickyEditors at hsticky'
    dsimp only at hsticky'
    have hmem' : preview ∈ (g.moveEditor editor g.sticky).stickyEditors := by
      exact (take_subset_take_left _ (by omega)) hsticky'
    rw [hmembers] at hmem'
    rcases hmem' with rfl | hmem'
    · exact hfree preview hpreview ((isSticky_idxOf h hmem).mp hin)
    · exact hfree preview hpreview hmem'

end

end Operations

end EditorGroupModel

end TongjiCode.EditorGroup
