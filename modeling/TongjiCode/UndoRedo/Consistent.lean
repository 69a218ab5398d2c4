import TongjiCode.UndoRedo.Exact

/-!
# Workspace elements across the stacks

A workspace element that is on the stack of one of its resources is on the same side of the stacks of all the
others, but for the resources it has recorded as removed (`Consistent`).  A step keeps this if it does not drop
a workspace element from one stack unrecorded: a flush does, `restoreSnapshot` does with the elements before
the first that does not match, and a split that ignores the invalidated resources does with the others
(`Action.Tidy`).
-/

open List

namespace TongjiCode.UndoRedo

namespace UndoRedoService

variable {s s' : UndoRedoService}

structure Consistent (s : UndoRedoService) : Prop where
  together : ∀ {strResource place side element}, s.get strResource = some place → element ∈ (s.stackAt place).elements side →
    element.type = .workspace → ∀ strResource' ∈ element.strResources,
      (∃ place', s.get strResource' = some place' ∧ element ∈ (s.stackAt place').elements side) ∨ s.Recorded element strResource'
  alone : ∀ {strResource place element}, s.get strResource = some place → element ∈ (s.stackAt place).all →
    element.type = .workspace → s.Recorded element strResource → ∀ strResource' ∈ element.strResources, s.Recorded element strResource'
  fresh : ∀ {strResource element}, s.Recorded element strResource → element.id ≤ s.stackElementCounter
  found : ∀ strResource, .missingEditStack strResource ∉ s.errors

variable {element : StackElement} {strResource : String}

theorem Quiet.recorded (h : Quiet s s') :
    s'.Recorded element strResource ↔ s.Recorded element strResource := by
  rw [Recorded, Recorded, h.removedResources]

theorem Quiet.consistent (h : Quiet s s') (hs : Consistent s) : Consistent s' := by
  refine ⟨fun {strResource place side element} hget hmem hworkspace strResource' hstr => ?_, fun hget hmem hworkspace hrecorded strResource' hstr => ?_,
    fun hrecorded => ?_, fun strResource herror => hs.found strResource (h.errors strResource herror)⟩
  · rw [h.get] at hget
    rw [(h.stackAt place).elements] at hmem
    refine (hs.together hget hmem hworkspace strResource' hstr).imp ?_ h.recorded.mpr
    rintro ⟨place', hget', hmem'⟩
    exact ⟨place', by rw [h.get]; exact hget', by rw [(h.stackAt place').elements]; exact hmem'⟩
  · rw [h.get] at hget
    rw [(h.stackAt _).all] at hmem
    exact h.recorded.mpr (hs.alone hget hmem hworkspace (h.recorded.mp hrecorded) strResource' hstr)
  · rw [h.stackElementCounter]
    exact hs.fresh (h.recorded.mp hrecorded)

/-! ## Removing -/

variable {place : Nat}

theorem Removed.elements (h : Removed s strResource place s') (place' : Nat) (side : Side) :
    (s'.stackAt place').elements side = (s.stackAt place').elements side :=
  ResourceEditStack.elements_congr (h.stackAt place').1 (h.stackAt place').2.1 side

theorem Removed.consistent (h : Removed s strResource place s') (hsane : Sane s) (hget : s.get strResource = some place)
    (hs : Consistent s) : Consistent s' := by
  have hhome := (hsane.home hget).1
  refine ⟨fun {strResource1 place1 side element} hget1 hmem hworkspace strResource' hstr => ?_,
    fun {strResource1 place1 element} hget1 hmem hworkspace hrecorded strResource' hstr => ?_, fun hrecorded => ?_, fun _ => ?_⟩
  · obtain ⟨-, hget1⟩ := h.get_of hget1
    rw [h.elements] at hmem
    rcases hs.together hget1 hmem hworkspace strResource' hstr with ⟨place', hget', hmem'⟩ | hrecorded
    · by_cases heq : strResource' = strResource
      · subst heq
        obtain rfl := Option.some.inj (hget.symm.trans hget')
        exact .inr ((h.recorded _ _).mpr (.inr ⟨ResourceEditStack.mem_all.mpr ⟨side, hmem'⟩, hworkspace, hhome.symm⟩))
      · refine .inl ⟨place', ?_, by rw [h.elements]; exact hmem'⟩
        rw [h.get, if_neg heq]
        exact hget'
    · exact .inr ((h.recorded _ _).mpr (.inl hrecorded))
  · obtain ⟨hne, hget1⟩ := h.get_of hget1
    rw [h.all] at hmem
    rcases (h.recorded _ _).mp hrecorded with hold | ⟨-, -, heq⟩
    · exact (h.recorded _ _).mpr (.inl (hs.alone hget1 hmem hworkspace hold strResource' hstr))
    · exact (hne (heq.trans hhome)).elim
  · rw [h.stackElementCounter]
    rcases (h.recorded _ _).mp hrecorded with hold | ⟨hmem, -, -⟩
    · exact hs.fresh hold
    · exact hsane.known place _ hmem
  · rw [h.errors]
    exact hs.found _

theorem removeElements_consistent (hsane : Sane s) (hs : Consistent s) (strResource : String) :
    Consistent (s.removeElements strResource) := by
  rcases removeElements_cases s strResource with ⟨-, heq⟩ | ⟨place, hget, hremoved⟩
  · rw [heq]
    exact hs
  · exact hremoved.consistent hsane hget hs

theorem removeAllElements_consistent (strResources : List String) : ∀ {s : UndoRedoService}, Sane s → Consistent s →
    Consistent (removeAllElements strResources s) := by
  induction strResources with
  | nil => exact fun _ hs => hs
  | cons strResource strResources ih =>
    intro s hsane hs
    exact ih (removeElements_still hsane strResource).sane (removeElements_consistent hsane hs strResource)

theorem onError_consistent (hsane : Sane s) (hs : Consistent s) (element : StackElement) : Consistent (s.onError element) :=
  (notify_quiet _ _).consistent (removeAllElements_consistent element.strResources hsane hs)

/-! ## Pushing -/

theorem Pushes.consistent (h : Pushes s element element.strResources s') (hsane : Sane s)
    (hnew : ∀ place, element ∉ (s.stackAt place).all) (hrecorded : ∀ strResource, ¬ s.Recorded element strResource)
    (hs : Consistent s) : Consistent s' := by
  -- an old element of the past stays there
  have hpast : ∀ {strResource place} {element' : StackElement}, s.get strResource = some place → element' ∈ (s.stackAt place).past →
      element' ∈ (s'.stackAt place).past := by
    intro strResource place element' hget hmem
    by_cases hstr : strResource ∈ element.strResources
    · obtain ⟨place', hget', hpast, -⟩ := h.placed strResource hstr
      obtain rfl := Option.some.inj ((h.gets hget).symm.trans hget')
      rw [hpast]
      exact mem_append_left _ hmem
    · rw [(h.others place fun strResource' hstr' hget' => hstr (h.sane.inj (h.gets hget) hget' ▸ hstr')).1]
      exact hmem
  -- where the elements of a stack come from
  have hold : ∀ {strResource place side} {element' : StackElement}, s'.get strResource = some place →
      element' ∈ (s'.stackAt place).elements side → element' = element ∧ side = .past ∨
        s.get strResource = some place ∧ element' ∈ (s.stackAt place).elements side ∧ (strResource ∈ element.strResources → side = .past) := by
    intro strResource place side element' hget hmem
    by_cases hstr : strResource ∈ element.strResources
    · obtain ⟨place', hget', hpast, hfuture, hknown⟩ := h.placed strResource hstr
      obtain rfl := Option.some.inj (hget.symm.trans hget')
      cases side with
      | past =>
        have hmem : element' ∈ (s'.stackAt place).past := hmem
        rw [hpast, mem_append, mem_singleton] at hmem
        rcases hmem with hmem | rfl
        · refine .inr ⟨hknown.resolve_right fun hempty => ?_, hmem, fun _ => rfl⟩
          have : element' ∈ (s.stackAt place).all := mem_append_left _ hmem
          rw [hempty] at this
          cases this
        · exact .inl ⟨rfl, rfl⟩
      | future =>
        have hmem : element' ∈ (s'.stackAt place).future := hmem
        rw [hfuture] at hmem
        cases hmem
    · have hothers := h.others place fun strResource' hstr' hget' => hstr (h.sane.inj hget hget' ▸ hstr')
      rw [ResourceEditStack.elements_congr hothers.1 hothers.2] at hmem
      exact .inr ⟨h.gets' hget hstr, hmem, fun hstr' => (hstr hstr').elim⟩
  refine ⟨fun {strResource place side element'} hget hmem hworkspace strResource' hstr' => ?_,
    fun {strResource place element'} hget hmem hworkspace hrec strResource' hstr' => ?_, fun {strResource element'} hrec => ?_, fun _ => ?_⟩
  · rcases hold hget hmem with ⟨rfl, rfl⟩ | ⟨hget0, hmem0, -⟩
    · obtain ⟨place', hget', hpast', -⟩ := h.placed strResource' hstr'
      refine .inl ⟨place', hget', ?_⟩
      show element' ∈ (s'.stackAt place').past
      rw [hpast']
      exact mem_append_right _ (mem_singleton.mpr rfl)
    · rcases hs.together hget0 hmem0 hworkspace strResource' hstr' with ⟨place', hget', hmem'⟩ | hrec
      · cases side with
        | past => exact .inl ⟨place', h.gets hget', hpast hget' hmem'⟩
        | future =>
          by_cases hdropped : strResource' ∈ element.strResources
          · exact .inr ((h.recorded _ _).mpr (.inr ⟨hdropped, hworkspace, place', hget', hmem'⟩))
          · have hothers := h.others place' fun strResource'' hstr'' hget'' => hdropped (h.sane.inj (h.gets hget') hget'' ▸ hstr'')
            rw [← ResourceEditStack.elements_congr hothers.1 hothers.2] at hmem'
            exact .inl ⟨place', h.gets hget', hmem'⟩
      · exact .inr ((h.recorded _ _).mpr (.inl hrec))
  · obtain ⟨side, hmem⟩ := ResourceEditStack.mem_all.mp hmem
    have hnot : ¬ (element' = element ∧ side = .past) := by
      rintro ⟨rfl, -⟩
      rcases (h.recorded _ _).mp hrec with hrec | ⟨-, -, place', -, hmem'⟩
      · exact hrecorded strResource hrec
      · exact hnew place' (mem_append_right _ hmem')
    obtain ⟨hget0, hmem0, hside⟩ := (hold hget hmem).resolve_left hnot
    refine (h.recorded _ _).mpr (.inl (hs.alone hget0 (ResourceEditStack.mem_all.mpr ⟨side, hmem0⟩) hworkspace ?_ strResource' hstr'))
    rcases (h.recorded _ _).mp hrec with hrec | ⟨hstr, -, place', hget', hmem'⟩
    · exact hrec
    · -- a dropped element is not on the past of the stack as well
      obtain rfl := Option.some.inj (hget0.symm.trans hget')
      obtain rfl := hside hstr
      exact ((nodup_append.mp (hsane.nodup place)).2.2 _ hmem0 _ hmem' rfl).elim
  · rw [h.stackElementCounter]
    rcases (h.recorded _ _).mp hrec with hrec | ⟨-, -, place', -, hmem'⟩
    · exact hs.fresh hrec
    · exact hsane.known place' element' (mem_append_right _ hmem')
  · rw [h.errors]
    exact hs.found _

theorem pushElement_consistent (hsane : Sane s) (hs : Consistent s) (element : UndoRedoElement) (groupId sourceId : Nat) :
    Consistent (s.pushElement element groupId sourceId) := by
  have hcounted : Sane (s.counted groupId sourceId) := counted_sane hsane groupId sourceId
  refine (pushElement_pushes hsane element groupId sourceId).consistent hcounted (fun place hmem => ?_) (fun strResource hrecorded => ?_)
    ⟨hs.together, hs.alone, fun hrecorded => Nat.le_succ_of_le (hs.fresh hrecorded), hs.found⟩
  · exact absurd (hsane.known place _ hmem) (Nat.not_succ_le_self _)
  · exact absurd (hs.fresh hrecorded) (Nat.not_succ_le_self _)

/-! ## Splitting -/

section Split

variable {side : Side} {toRemove : StackElement} {individualMap : String → Option StackElement} {stack : ResourceEditStack}

theorem mem_replaceLast_of_ne {replacement : Option StackElement} {elements : List StackElement} (h : element ∈ elements)
    (hne : element ≠ toRemove) : element ∈ replaceLast toRemove replacement elements := by
  by_cases hmem : toRemove ∈ elements
  · obtain ⟨before, after, helements, hreplace⟩ := replaceLast_of_mem replacement hmem
    rw [helements] at h
    rw [hreplace]
    simp only [mem_append, mem_cons] at h ⊢
    rcases h with h | h | h
    · exact .inl (.inl h)
    · exact (hne h).elim
    · exact .inr h
  · rw [replaceLast_of_not_mem replacement hmem]
    exact h

theorem not_mem_replaceLast {replacement : Option StackElement} {elements : List StackElement} (hnodup : elements.Nodup)
    (hne : replacement ≠ some toRemove) : toRemove ∉ replaceLast toRemove replacement elements := by
  by_cases hmem : toRemove ∈ elements
  · obtain ⟨before, after, helements, hreplace⟩ := replaceLast_of_mem replacement hmem
    rw [helements, nodup_append] at hnodup
    rw [hreplace]
    simp only [mem_append, Option.mem_toList, not_or]
    refine ⟨⟨fun h => hnodup.2.2 _ h _ mem_cons_self rfl, hne⟩, ?_⟩
    exact (nodup_cons.mp hnodup.2.1).1
  · rw [replaceLast_of_not_mem replacement hmem]
    exact hmem

/-- A split stack has no other elements than before, on the same sides, but for the part. -/
theorem mem_split_elements {side' : Side}
    (h : element ∈ (stack.splitWorkspaceElement side toRemove individualMap).elements side') :
    element ∈ stack.elements side' ∨ individualMap stack.strResource = some element := by
  cases side <;> cases side'
  · exact mem_replaceLast _ h
  · exact .inl h
  · exact .inl h
  · exact mem_replaceLast _ h

theorem split_keeps {side' : Side} (h : element ∈ stack.elements side') (hne : element ≠ toRemove ∨ side' ≠ side) :
    element ∈ (stack.splitWorkspaceElement side toRemove individualMap).elements side' := by
  cases side <;> cases side'
  · exact mem_replaceLast_of_ne h (hne.resolve_right fun hside => hside rfl)
  · exact h
  · exact h
  · exact mem_replaceLast_of_ne h (hne.resolve_right fun hside => hside rfl)

theorem split_removes (hnodup : stack.all.Nodup) (hne : individualMap stack.strResource ≠ some toRemove) :
    toRemove ∉ (stack.splitWorkspaceElement side toRemove individualMap).elements side := by
  have hnodup := nodup_append.mp hnodup
  cases side with
  | past => exact not_mem_replaceLast hnodup.1 hne
  | future => exact not_mem_replaceLast hnodup.2.1 hne

end Split

def OnStack (s : UndoRedoService) (element : StackElement) : Prop :=
  ∃ strResource place, s.get strResource = some place ∧ element ∈ (s.stackAt place).all

/-- An element that is on some stack, or off all of them with the record of that, knows its missing stacks. -/
def Traceable (s : UndoRedoService) (element : StackElement) : Prop :=
  s.OnStack element ∨ ∀ strResource ∈ element.strResources, s.Recorded element strResource

theorem Traceable.get (h : s.Traceable element) (hs : Consistent s) (hworkspace : element.type = .workspace)
    (hstr : strResource ∈ element.strResources) (hnot : ¬ s.Recorded element strResource) :
    s.get strResource ≠ none := by
  rcases h with ⟨strResource0, place0, hget0, hmem0⟩ | hall
  · obtain ⟨side, hmem0⟩ := ResourceEditStack.mem_all.mp hmem0
    obtain ⟨place, hget, -⟩ := (hs.together hget0 hmem0 hworkspace strResource hstr).resolve_right hnot
    rw [hget]
    exact Option.some_ne_none _
  · exact (hnot (hall strResource hstr)).elim

variable {side : Side}

section

variable (hsane : Sane s) (hs : Consistent s) (hworkspace : element.type = .workspace)
variable (hdistinct : element.strResources.Nodup) (htraceable : s.Traceable element)
include hsane hs hworkspace hdistinct htraceable

/-- A split that ignores just the recorded resources keeps the others together. -/
theorem splitWorkspaceElement_consistent (parts : List ResourceUndoRedoElement) :
    Consistent (s.splitWorkspaceElement side element parts (s.removedResources element)).1 ∧
      (s.splitWorkspaceElement side element parts (s.removedResources element)).2 = true := by
  have h : Splits _ side element _ (s.removedResources element) _ _ _ := splitWorkspaceElement_splits hsane hworkspace hdistinct parts
  have hparts := individualMap_parts s parts
  obtain ⟨hok, herrors⟩ := h.complete fun strResource hstr hnot => htraceable.get hs hworkspace hstr hnot
  generalize (s.splitWorkspaceElement side element parts (s.removedResources element)).1 = s1 at *
  have hget : s1.get = s.get := by
    funext strResource
    rw [UndoRedoService.get, h.editStacks]
    rfl
  have hrecorded : ∀ {element' strResource}, s1.Recorded element' strResource ↔ s.Recorded element' strResource := by
    intro element' strResource
    rw [Recorded, h.removedResources]
    rfl
  have hmem : ∀ {place side'} {element' : StackElement}, element' ∈ (s1.stackAt place).elements side' → element'.type = .workspace →
      element' ∈ (s.stackAt place).elements side' := by
    intro place side' element' hmem' hworkspace'
    rcases h.stackAt place with heq | heq
    · rw [heq] at hmem'
      exact hmem'
    · rw [heq] at hmem'
      refine (mem_split_elements hmem').resolve_right fun hpart => ?_
      rw [hparts.resource hpart] at hworkspace'
      cases hworkspace'
  have hkeeps : ∀ {place side'} {element' : StackElement}, element' ∈ (s.stackAt place).elements side' →
      element' ≠ element ∨ side' ≠ side → element' ∈ (s1.stackAt place).elements side' := by
    intro place side' element' hmem' hne
    rcases h.stackAt place with heq | heq
    · rw [heq]
      exact hmem'
    · rw [heq]
      exact split_keeps hmem' hne
  refine ⟨⟨fun {strResource place side' element'} hget1 hmem1 hworkspace1 strResource' hstr' => ?_,
    fun {strResource place element'} hget1 hmem1 hworkspace1 hrec strResource' hstr' => ?_, fun {strResource element'} hrec => ?_,
    fun strResource => ?_⟩, hok⟩
  · rw [hget] at hget1
    by_cases hsame : element' = element ∧ side' = side
    · -- the element is left only on stacks that are ignored
      obtain ⟨rfl, rfl⟩ := hsame
      have hstr := (hsane.home hget1).2 element' (ResourceEditStack.mem_all.mpr ⟨side', hmem hmem1 hworkspace1⟩)
      have hignored : s.Recorded element' strResource := by
        by_contra hnot
        rw [h.split hok strResource hstr hnot place hget1] at hmem1
        refine split_removes (hsane.nodup place) (fun hpart => ?_) hmem1
        have := hparts.resource hpart
        rw [hworkspace] at this
        cases this
      exact .inr (hrecorded.mpr (hs.alone hget1 (ResourceEditStack.mem_all.mpr ⟨side', hmem hmem1 hworkspace1⟩) hworkspace1 hignored
        strResource' hstr'))
    · rw [hget]
      refine (hs.together hget1 (hmem hmem1 hworkspace1) hworkspace1 strResource' hstr').imp ?_ hrecorded.mpr
      rintro ⟨place', hget', hmem'⟩
      exact ⟨place', hget', hkeeps hmem' (not_and_or.mp hsame)⟩
  · rw [hget] at hget1
    obtain ⟨side', hmem1⟩ := ResourceEditStack.mem_all.mp hmem1
    exact hrecorded.mpr (hs.alone hget1 (ResourceEditStack.mem_all.mpr ⟨side', hmem hmem1 hworkspace1⟩) hworkspace1 (hrecorded.mp hrec)
      strResource' hstr')
  · rw [h.stackElementCounter]
    exact Nat.le_add_right_of_le (hs.fresh (hrecorded.mp hrec))
  · rw [herrors]
    exact hs.found strResource

theorem tryToSplit_consistent (strResource message : String) :
    Consistent (s.tryToSplit side strResource element (s.removedResources element) message) := by
  unfold tryToSplit
  split
  · next parts _ =>
    have hsplit : Consistent (s.splitWorkspaceElement side element parts (s.removedResources element)).1 :=
      (splitWorkspaceElement_consistent hsane hs hworkspace hdistinct htraceable parts).1
    split
    · next s' heq =>
      rw [heq] at hsplit
      refine (schedule_quiet ?_).consistent ((notify_quiet _ _).consistent hsplit)
      cases side <;> trivial
    · next s' heq =>
      rw [heq] at hsplit
      exact hsplit
  · exact (notify_quiet _ _).consistent (removeAllElements_consistent element.strResources hsane hs)

end

/-- The branch of a check that splits off the resources that are invalidated. -/
def SplitsInvalidated (s : UndoRedoService) (element : StackElement) : Prop :=
  s.removedResources element = none ∧ s.invalidatedResources element ≠ none

section Check

variable {side : Side} {element : StackElement} {strResource : String} {editStackSnapshot : EditStackSnapshot} {checkInvalidated : Bool}

theorem verificationError_ignores {ignoreResources : Option RemovedResources} {message : String}
    (hcheck : s.verificationError side element editStackSnapshot checkInvalidated = some (ignoreResources, message))
    (hinvalidated : checkInvalidated = true → ¬ s.SplitsInvalidated element) : ignoreResources = s.removedResources element := by
  unfold verificationError at hcheck
  split at hcheck
  · next removed hremoved =>
    rw [hremoved, ← (Prod.mk.inj (Option.some.inj hcheck)).1]
  · next hremoved =>
    rw [hremoved]
    split at hcheck
    · next invalidated hsome =>
      split at hsome
      · next hflag => exact (hinvalidated hflag ⟨hremoved, by rw [hsome]; exact Option.some_ne_none _⟩).elim
      · cases hsome
    · dsimp only at hcheck
      split at hcheck
      · exact (Prod.mk.inj (Option.some.inj hcheck)).1.symm
      · split at hcheck
        · exact (Prod.mk.inj (Option.some.inj hcheck)).1.symm
        · split at hcheck
          · exact (Prod.mk.inj (Option.some.inj hcheck)).1.symm
          · cases hcheck

theorem checkWorkspace_consistent (hsane : Sane s) (hs : Consistent s) (hworkspace : element.type = .workspace)
    (hdistinct : element.strResources.Nodup) (htraceable : s.Traceable element)
    (hinvalidated : checkInvalidated = true → ¬ s.SplitsInvalidated element)
    (hcheck : s.checkWorkspace side strResource element editStackSnapshot checkInvalidated = some s') : Consistent s' := by
  obtain ⟨⟨ignoreResources, message⟩, herror, rfl⟩ := Option.map_eq_some_iff.mp hcheck
  obtain rfl := verificationError_ignores herror hinvalidated
  exact tryToSplit_consistent hsane hs hworkspace hdistinct htraceable strResource message

end Check

/-! ## Moving and flushing -/

/-- A step that changes neither the resources nor the records keeps the elements together if it does so for
each of them. -/
theorem Consistent.of_elements (hs : Consistent s) (hget : s'.get = s.get) (hremoved : s'.removedResources = s.removedResources)
    (hcounter : s'.stackElementCounter = s.stackElementCounter) (herrors : s'.errors = s.errors)
    (hmem : ∀ {strResource place side} {element : StackElement}, s.get strResource = some place →
      element ∈ (s'.stackAt place).elements side → element.type = .workspace →
      ∃ side0, element ∈ (s.stackAt place).elements side0 ∧ ∀ {strResource' place'}, s.get strResource' = some place' →
        element ∈ (s.stackAt place').elements side0 → element ∈ (s'.stackAt place').elements side) : Consistent s' := by
  have hrecorded : ∀ {element strResource}, s'.Recorded element strResource ↔ s.Recorded element strResource := by
    intro element strResource
    rw [Recorded, hremoved]
    rfl
  refine ⟨fun {strResource place side element} hget1 hmem1 hworkspace strResource' hstr' => ?_,
    fun {strResource place element} hget1 hmem1 hworkspace hrec strResource' hstr' => ?_, fun hrec => ?_, fun _ => ?_⟩
  · rw [hget] at hget1
    obtain ⟨side0, hmem0, hkeeps⟩ := hmem hget1 hmem1 hworkspace
    refine (hs.together hget1 hmem0 hworkspace strResource' hstr').imp ?_ hrecorded.mpr
    rintro ⟨place', hget', hmem'⟩
    exact ⟨place', by rw [hget]; exact hget', hkeeps hget' hmem'⟩
  · rw [hget] at hget1
    obtain ⟨side, hmem1⟩ := ResourceEditStack.mem_all.mp hmem1
    obtain ⟨side0, hmem0, -⟩ := hmem hget1 hmem1 hworkspace
    exact hrecorded.mpr (hs.alone hget1 (ResourceEditStack.mem_all.mpr ⟨side0, hmem0⟩) hworkspace (hrecorded.mp hrec) strResource' hstr')
  · rw [hcounter]
    exact hs.fresh (hrecorded.mp hrec)
  · rw [herrors]
    exact hs.found _

section Move

variable {stack : ResourceEditStack} {side side' : Side} {element element' : StackElement}

theorem mem_move_iff (hnodup : stack.all.Nodup) (hclosest : stack.getClosest side = some element) :
    element' ∈ (stack.move side element).elements side' ↔
      if element' = element then side' = side.other else element' ∈ stack.elements side' := by
  have hnodup := nodup_append.mp hnodup
  have hpush : ∀ {l : List StackElement}, element' ∈ l ++ [element] ↔ element' = element ∨ element' ∈ l := by
    simp [or_comm]
  have hpop : ∀ {l : List StackElement}, l.Nodup → l.getLast? = some element →
      (element' ∈ l.dropLast ↔ element' ≠ element ∧ element' ∈ l) := by
    intro l hl hlast
    obtain ⟨front, rfl⟩ := getLast?_eq_some_iff.mp hlast
    rw [dropLast_concat, hpush]
    constructor
    · intro hmem
      have hne : element' ≠ element := (nodup_append.mp hl).2.2 _ hmem _ (mem_singleton.mpr rfl)
      exact ⟨hne, .inr hmem⟩
    · rintro ⟨hne, hmem⟩
      exact hmem.resolve_left hne
  cases side with
  | past =>
    cases side' with
    | past =>
      refine (hpop hnodup.1 hclosest).trans ?_
      split <;> simp [Side.other, ResourceEditStack.elements, *]
    | future =>
      refine hpush.trans ?_
      split <;> simp [Side.other, ResourceEditStack.elements, *]
  | future =>
    cases side' with
    | past =>
      refine hpush.trans ?_
      split <;> simp [Side.other, ResourceEditStack.elements, *]
    | future =>
      refine (hpop hnodup.2.1 hclosest).trans ?_
      split <;> simp [Side.other, ResourceEditStack.elements, *]

end Move

theorem move_consistent (hsane : Sane s) (hs : Consistent s) (hresource : element.type = .resource)
    (hclosest : (s.stackAt place).getClosest side = some element) :
    Consistent (s.updateStack place fun stack => stack.move side element) := by
  refine hs.of_elements rfl rfl rfl rfl fun {strResource place1 side1 element1} hget1 hmem1 hworkspace1 => ?_
  have hne : element1 ≠ element := by
    rintro rfl
    rw [hresource] at hworkspace1
    cases hworkspace1
  have hiff : ∀ place' side', element1 ∈ ((s.updateStack place fun stack => stack.move side element).stackAt place').elements side' ↔
      element1 ∈ (s.stackAt place').elements side' := by
    intro place' side'
    rw [updateStack_stackAt]
    split
    · next heq =>
      subst heq
      rw [mem_move_iff (hsane.nodup place') hclosest, if_neg hne]
    · rfl
  exact ⟨side1, (hiff _ _).mp hmem1, fun _ hmem' => (hiff _ _).mpr hmem'⟩

variable {direction : Direction}

theorem moveAndInvoke_consistent (hsane : Sane s) (hs : Consistent s) (hresource : element.type = .resource)
    (hclosest : (s.stackAt place).getClosest direction.side = some element) :
    Consistent (s.moveAndInvoke direction place element) :=
  (safeInvokeWithLocks_quiet ..).consistent (move_consistent hsane hs hresource hclosest)

theorem moveAll_consistent {editStackSnapshot : EditStackSnapshot} (hsane : Sane s) (hs : Consistent s)
    (hdistinct : element.strResources.Nodup)
    (hgets : List.Forall₂ (fun strResource entry => s.get strResource = some entry.1) element.strResources editStackSnapshot)
    (hclosest : ∀ entry ∈ editStackSnapshot, (s.stackAt entry.1).getClosest side = some element) :
    Consistent (editStackSnapshot.foldl (fun s entry => s.updateStack entry.1 fun stack => stack.move side element) s) := by
  have hnodup := places_nodup hsane hdistinct hgets
  rw [foldl_updateStack _ _ _ hnodup]
  -- the stacks that move are those of the resources of the element
  have hplaces : ∀ {strResource place}, s.get strResource = some place → strResource ∈ element.strResources →
      place ∈ editStackSnapshot.map Prod.fst := by
    intro strResource place hget hstr
    obtain ⟨entry, hentry, hget'⟩ := exists_entry hgets hstr
    obtain rfl := Option.some.inj (hget.symm.trans hget')
    exact mem_map.mpr ⟨entry, hentry, rfl⟩
  have hmoved : ∀ {place side'} {element' : StackElement}, place ∈ editStackSnapshot.map Prod.fst →
      (element' ∈ ((s.stackAt place).move side element).elements side' ↔
        if element' = element then side' = side.other else element' ∈ (s.stackAt place).elements side') := by
    intro place side' element' hmem
    obtain ⟨entry, hentry, rfl⟩ := mem_map.mp hmem
    exact mem_move_iff (hsane.nodup _) (hclosest entry hentry)
  refine hs.of_elements rfl rfl rfl rfl fun {strResource place1 side1 element1} hget1 hmem1 hworkspace1 => ?_
  dsimp only at hmem1
  by_cases heq : element1 = element
  · subst heq
    have hin : place1 ∈ editStackSnapshot.map Prod.fst := by
      by_contra hout
      rw [if_neg hout] at hmem1
      exact hout (hplaces hget1 ((hsane.home hget1).2 _ (ResourceEditStack.mem_all.mpr ⟨side1, hmem1⟩)))
    rw [if_pos hin, hmoved hin, if_pos rfl] at hmem1
    obtain ⟨entry, hentry, rfl⟩ := mem_map.mp hin
    refine ⟨side, mem_of_getLast? (hclosest entry hentry), fun {strResource' place'} hget' hmem' => ?_⟩
    have hin' := hplaces hget' ((hsane.home hget').2 _ (ResourceEditStack.mem_all.mpr ⟨side, hmem'⟩))
    dsimp only
    rw [if_pos hin', hmoved hin', if_pos rfl]
    exact hmem1
  · have hiff : ∀ place' side', element1 ∈ (if place' ∈ editStackSnapshot.map Prod.fst then (s.stackAt place').move side element
        else s.stackAt place').elements side' ↔ element1 ∈ (s.stackAt place').elements side' := by
      intro place' side'
      split
      · next hin => rw [hmoved hin, if_neg heq]
      · rfl
    exact ⟨side1, (hiff _ _).mp hmem1, fun _ hmem' => (hiff _ _).mpr hmem'⟩

/-- The element is on the stack of another place too. -/
def Shared (s : UndoRedoService) (place : Nat) (element : StackElement) : Prop :=
  ∃ strResource place', s.get strResource = some place' ∧ place' ≠ place ∧ element ∈ (s.stackAt place').all

theorem flush_consistent (hs : Consistent s)
    (hshared : ∀ element ∈ (s.stackAt place).all, element.type = .workspace → ¬ s.Shared place element) :
    Consistent (s.updateStack place ResourceEditStack.flushAllElements) := by
  refine hs.of_elements rfl rfl rfl rfl fun {strResource place1 side1 element1} hget1 hmem1 hworkspace1 => ?_
  have hne : place1 ≠ place := by
    rintro rfl
    rw [updateStack_stackAt_self] at hmem1
    cases side1 <;> cases hmem1
  rw [updateStack_stackAt_of_ne hne] at hmem1
  refine ⟨side1, hmem1, fun {strResource' place'} hget' hmem' => ?_⟩
  have hne' : place' ≠ place := by
    rintro rfl
    exact hshared element1 (ResourceEditStack.mem_all.mpr ⟨side1, hmem'⟩) hworkspace1
      ⟨strResource, place1, hget1, hne, ResourceEditStack.mem_all.mpr ⟨side1, hmem1⟩⟩
  rw [updateStack_stackAt_of_ne hne']
  exact hmem'

/-! ## Snapshots -/

section Restore

variable {stack : ResourceEditStack} {snapshot : List Nat} {element : StackElement}

theorem mismatched_suffix (elements : List StackElement) : ∀ ids : List Nat,
    ∃ matched, elements = matched ++ ResourceEditStack.mismatched elements ids := by
  induction elements with
  | nil => exact fun ids => ⟨[], rfl⟩
  | cons element elements ih =>
    intro ids
    cases ids with
    | nil => exact ⟨[], rfl⟩
    | cons id ids =>
      rw [ResourceEditStack.mismatched]
      split
      · obtain ⟨matched, hmatched⟩ := ih ids
        exact ⟨element :: matched, by rw [cons_append, ← hmatched]⟩
      · exact ⟨[], rfl⟩

theorem mem_past_of_mismatched (h : element ∈ stack.mismatchedPast snapshot) : element ∈ stack.past := by
  obtain ⟨matched, hmatched⟩ := mismatched_suffix stack.past snapshot
  rw [hmatched]
  exact mem_append_right _ h

/-- The future is what a restored stack keeps of it behind what does not match. -/
theorem future_eq_of_matched (h : stack.mismatchedPast snapshot = []) :
    stack.future = (stack.mismatchedFuture snapshot).reverse ++ (stack.restoreSnapshot snapshot).future := by
  obtain ⟨matched, hmatched⟩ := mismatched_suffix stack.future.reverse (snapshot.drop stack.past.length)
  have hmismatched : stack.mismatchedFuture snapshot = ResourceEditStack.mismatched stack.future.reverse (snapshot.drop stack.past.length) :=
    if_pos h
  rw [← hmismatched] at hmatched
  have hfuture : stack.future = (stack.mismatchedFuture snapshot).reverse ++ matched.reverse := by
    rw [← reverse_append, ← hmatched, reverse_reverse]
  have hrestored : (stack.restoreSnapshot snapshot).future = stack.future.drop (stack.mismatchedFuture snapshot).length := if_pos h
  rw [hrestored]
  conv_rhs => rw [hfuture]
  rw [drop_left' (length_reverse), ← hfuture]

theorem mem_future_of_mismatched (h : element ∈ stack.mismatchedFuture snapshot) : element ∈ stack.future := by
  by_cases hmatched : stack.mismatchedPast snapshot = []
  · rw [future_eq_of_matched hmatched, mem_append, mem_reverse]
    exact .inl h
  · have hall : stack.mismatchedFuture snapshot = stack.future.reverse := if_neg hmatched
    rw [hall, mem_reverse] at h
    exact h

theorem restored_past (h : stack.mismatchedPast snapshot = []) : (stack.restoreSnapshot snapshot).past = stack.past := if_pos h

theorem restored_past_of_ne (h : stack.mismatchedPast snapshot ≠ []) : (stack.restoreSnapshot snapshot).past = [] := if_neg h

theorem restored_future_of_ne (h : stack.mismatchedPast snapshot ≠ []) : (stack.restoreSnapshot snapshot).future = stack.future := if_neg h

theorem restored_sublist (stack : ResourceEditStack) (snapshot : List Nat) :
    (stack.restoreSnapshot snapshot).past.Sublist stack.past ∧ (stack.restoreSnapshot snapshot).future.Sublist stack.future := by
  by_cases h : stack.mismatchedPast snapshot = []
  · rw [restored_past h]
    refine ⟨List.Sublist.refl _, ?_⟩
    conv_rhs => rw [future_eq_of_matched h]
    exact sublist_append_right _ _
  · rw [restored_past_of_ne h, restored_future_of_ne h]
    exact ⟨nil_sublist _, List.Sublist.refl _⟩

theorem mem_of_restored (h : element ∈ (stack.restoreSnapshot snapshot).elements side) : element ∈ stack.elements side := by
  cases side with
  | past => exact (restored_sublist stack snapshot).1.subset h
  | future => exact (restored_sublist stack snapshot).2.subset h

/-- An element is dropped with a mark, or from the past where some other element does not match. -/
theorem dropped_cases (h : element ∈ stack.elements side)
    (hnot : element ∉ (stack.restoreSnapshot snapshot).elements side) :
    element ∈ stack.mismatchedPast snapshot ∨ element ∈ stack.mismatchedFuture snapshot ∨ stack.mismatchedPast snapshot ≠ [] := by
  by_cases hmatched : stack.mismatchedPast snapshot = []
  · right
    left
    cases side with
    | past => exact (hnot (by show element ∈ (stack.restoreSnapshot snapshot).past; rw [restored_past hmatched]; exact h)).elim
    | future =>
      have h : element ∈ stack.future := h
      rw [future_eq_of_matched hmatched, mem_append, mem_reverse] at h
      exact h.resolve_right hnot
  · exact .inr (.inr hmatched)

/-- An element is kept with a mark only in a future that is left alone. -/
theorem marked_kept (hnodup : stack.all.Nodup) (h : element ∈ (stack.restoreSnapshot snapshot).all)
    (hmarked : element ∈ stack.mismatchedPast snapshot ∨ element ∈ stack.mismatchedFuture snapshot) :
    stack.mismatchedPast snapshot ≠ [] ∧ element ∈ stack.future := by
  have hdisjoint := (nodup_append.mp hnodup).2.2
  by_cases hmatched : stack.mismatchedPast snapshot = []
  · rw [hmatched] at hmarked
    have hmarked := hmarked.resolve_left not_mem_nil
    have hfuture := future_eq_of_matched hmatched
    have hmem : element ∈ stack.future := by
      rw [hfuture, mem_append, mem_reverse]
      exact .inl hmarked
    rcases mem_append.mp h with h | h
    · rw [restored_past hmatched] at h
      exact (hdisjoint _ h _ hmem rfl).elim
    · have hnodup := (nodup_append.mp hnodup).2.1
      rw [hfuture, nodup_append] at hnodup
      exact (hnodup.2.2 _ (mem_reverse.mpr hmarked) _ h rfl).elim
  · refine ⟨hmatched, ?_⟩
    rw [ResourceEditStack.all, restored_past_of_ne hmatched, restored_future_of_ne hmatched] at h
    exact h

end Restore

/-- What a snapshot drops from the past unmarked, or marks and leaves, is on no other stack. -/
def RestoreTidy (s : UndoRedoService) (place : Nat) (snapshot : List Nat) : Prop :=
  (s.stackAt place).mismatchedPast snapshot ≠ [] → ∀ element ∈ (s.stackAt place).all, element.type = .workspace →
    element ∉ (s.stackAt place).mismatchedPast snapshot → ¬ s.Shared place element

/-- The service after the loops of `restoreSnapshot`. -/
def restored (s : UndoRedoService) (place : Nat) (snapshot : List Nat) : UndoRedoService :=
  (removeResources (s.stackAt place) .externalRemoval ((s.stackAt place).mismatchedFuture snapshot)
    (removeResources (s.stackAt place) .externalRemoval ((s.stackAt place).mismatchedPast snapshot) s)).updateStack place
      fun stack => stack.restoreSnapshot snapshot

theorem restored_eq (s : UndoRedoService) (place : Nat) (snapshot : List Nat) : ∃ removed, s.restored place snapshot =
    { s with removedResources := removed }.updateStack place fun stack => stack.restoreSnapshot snapshot := by
  obtain ⟨removed, heq⟩ := removeResources_eq (s.stackAt place) .externalRemoval ((s.stackAt place).mismatchedPast snapshot) s
  obtain ⟨removed', heq'⟩ := removeResources_eq (s.stackAt place) .externalRemoval ((s.stackAt place).mismatchedFuture snapshot)
    { s with removedResources := removed }
  refine ⟨removed', ?_⟩
  rw [restored, heq, heq']

theorem restored_recorded (s : UndoRedoService) (place : Nat) (snapshot : List Nat) (element : StackElement) (strResource : String) :
    (s.restored place snapshot).Recorded element strResource ↔ s.Recorded element strResource ∨
      ((element ∈ (s.stackAt place).mismatchedPast snapshot ∨ element ∈ (s.stackAt place).mismatchedFuture snapshot) ∧
        element.type = .workspace ∧ strResource = (s.stackAt place).strResource) := by
  have hpast := removeResources_recorded (s.stackAt place) .externalRemoval ((s.stackAt place).mismatchedPast snapshot) s element strResource
  have hfuture := removeResources_recorded (s.stackAt place) .externalRemoval ((s.stackAt place).mismatchedFuture snapshot)
    (removeResources (s.stackAt place) .externalRemoval ((s.stackAt place).mismatchedPast snapshot) s) element strResource
  refine hfuture.trans ?_
  rw [hpast, or_assoc, ← or_and_right]

theorem restored_sane (hsane : Sane s) (hget : s.get strResource = some place) (snapshot : List Nat) :
    Sane (s.restored place snapshot) := by
  obtain ⟨removed, heq⟩ := restored_eq s place snapshot
  have hsublist := restored_sublist (s.stackAt place) snapshot
  rw [heq]
  refine (hsane.marked removed).updateStack (hsane.bounds hget) rfl (Nat.le_succ _) ?_ fun element hmem => .inl ?_
  · exact (hsane.nodup place).sublist (hsublist.1.append hsublist.2)
  · exact (hsublist.1.append hsublist.2).subset hmem

theorem restored_consistent {snapshot : List Nat} (hsane : Sane s) (hs : Consistent s)
    (hget : s.get strResource = some place) (htidy : s.RestoreTidy place snapshot) :
    Consistent (s.restored place snapshot) := by
  have hrecorded := restored_recorded s place snapshot
  rw [(hsane.home hget).1] at hrecorded
  have hself : (s.restored place snapshot).stackAt place = (s.stackAt place).restoreSnapshot snapshot := by
    obtain ⟨removed, heq⟩ := restored_eq s place snapshot
    rw [heq, updateStack_stackAt_self]
  have hother : ∀ {place'}, place' ≠ place → (s.restored place snapshot).stackAt place' = s.stackAt place' := by
    intro place' hne
    obtain ⟨removed, heq⟩ := restored_eq s place snapshot
    rw [heq, updateStack_stackAt_of_ne hne]
  have hgets : (s.restored place snapshot).get = s.get := by
    obtain ⟨removed, heq⟩ := restored_eq s place snapshot
    rw [heq]
    rfl
  have hmem : ∀ {place' side} {element : StackElement}, element ∈ ((s.restored place snapshot).stackAt place').elements side →
      element ∈ (s.stackAt place').elements side := by
    intro place' side element hmem
    by_cases heq : place' = place
    · subst heq
      rw [hself] at hmem
      exact mem_of_restored hmem
    · rw [hother heq] at hmem
      exact hmem
  refine ⟨fun {strResource1 place1 side element} hget1 hmem1 hworkspace strResource' hstr' => ?_,
    fun {strResource1 place1 element} hget1 hmem1 hworkspace hrec strResource' hstr' => ?_, fun {strResource1 element} hrec => ?_,
    fun strResource1 => ?_⟩
  · rw [hgets] at hget1 ⊢
    rcases hs.together hget1 (hmem hmem1) hworkspace strResource' hstr' with ⟨place', hget', hmem'⟩ | hrec
    · by_cases heq : place' = place
      · subst heq
        obtain rfl := hsane.inj hget hget'
        by_cases hkept : element ∈ ((s.stackAt place').restoreSnapshot snapshot).elements side
        · exact .inl ⟨place', hget', by rw [hself]; exact hkept⟩
        · right
          rw [hrecorded]
          right
          rcases dropped_cases hmem' hkept with hmarked | hmarked | hmismatched
          · exact ⟨.inl hmarked, hworkspace, rfl⟩
          · exact ⟨.inr hmarked, hworkspace, rfl⟩
          · by_cases hmarked : element ∈ (s.stackAt place').mismatchedPast snapshot
            · exact ⟨.inl hmarked, hworkspace, rfl⟩
            · have hne : place1 ≠ place' := by
                rintro rfl
                rw [hself] at hmem1
                exact hkept hmem1
              exact (htidy hmismatched element (ResourceEditStack.mem_all.mpr ⟨side, hmem'⟩) hworkspace hmarked
                ⟨strResource1, place1, hget1, hne, ResourceEditStack.mem_all.mpr ⟨side, hmem hmem1⟩⟩).elim
      · exact .inl ⟨place', hget', by rw [hother heq]; exact hmem'⟩
    · exact .inr ((hrecorded _ _).mpr (.inl hrec))
  · rw [hgets] at hget1
    obtain ⟨side, hmem1⟩ := ResourceEditStack.mem_all.mp hmem1
    have hmem0 := ResourceEditStack.mem_all.mpr ⟨side, hmem hmem1⟩
    rcases (hrecorded _ _).mp hrec with hrec | ⟨hmarked, -, rfl⟩
    · exact (hrecorded _ _).mpr (.inl (hs.alone hget1 hmem0 hworkspace hrec strResource' hstr'))
    · -- marked but kept: the element is on no other stack
      obtain rfl := Option.some.inj (hget.symm.trans hget1)
      rw [hself] at hmem1
      obtain ⟨hmismatched, hfuture⟩ := marked_kept (hsane.nodup place) (ResourceEditStack.mem_all.mpr ⟨side, hmem1⟩) hmarked
      have hpast : element ∉ (s.stackAt place).mismatchedPast snapshot := fun hpast =>
        (nodup_append.mp (hsane.nodup place)).2.2 _ (mem_past_of_mismatched hpast) _ hfuture rfl
      rw [hrecorded]
      rcases hs.together hget (show element ∈ (s.stackAt place).elements .future from hfuture) hworkspace strResource' hstr' with
        ⟨place', hget', hmem'⟩ | hrec
      · by_cases heq : place' = place
        · subst heq
          exact .inr ⟨hmarked, hworkspace, hsane.inj hget' hget⟩
        · exact (htidy hmismatched element hmem0 hworkspace hpast
            ⟨strResource', place', hget', heq, ResourceEditStack.mem_all.mpr ⟨.future, hmem'⟩⟩).elim
      · exact .inl hrec
  · have hcounter : (s.restored place snapshot).stackElementCounter = s.stackElementCounter := by
      obtain ⟨removed, heq⟩ := restored_eq s place snapshot
      rw [heq]
      rfl
    rw [hcounter]
    rcases (hrecorded _ _).mp hrec with hrec | ⟨hmarked, -, -⟩
    · exact hs.fresh hrec
    · refine hsane.known place element ?_
      rcases hmarked with hmarked | hmarked
      · exact mem_append_left _ (mem_past_of_mismatched hmarked)
      · exact mem_append_right _ (mem_future_of_mismatched hmarked)
  · have herrors : (s.restored place snapshot).errors = s.errors := by
      obtain ⟨removed, heq⟩ := restored_eq s place snapshot
      rw [heq]
      rfl
    rw [herrors]
    exact hs.found strResource1

theorem restoreSnapshot_keeps {snapshot : List Nat} (hsane : Sane s) (hs : Consistent s)
    (htidy : ∀ place, s.get strResource = some place → s.RestoreTidy place snapshot) :
    Sane (s.restoreSnapshot strResource snapshot) ∧ Consistent (s.restoreSnapshot strResource snapshot) := by
  unfold restoreSnapshot
  split
  · exact ⟨hsane, hs⟩
  · next place hget =>
    have hsane' := restored_sane hsane hget snapshot
    have hs' := restored_consistent hsane hs hget (htidy place hget)
    have hget' : (s.restored place snapshot).get strResource = some place := by
      obtain ⟨removed, heq⟩ := restored_eq s place snapshot
      rw [heq]
      exact hget
    show Sane (if _ then ((s.restored place snapshot).dispose place).delete strResource else s.restored place snapshot) ∧
      Consistent (if _ then ((s.restored place snapshot).dispose place).delete strResource else s.restored place snapshot)
    split
    · have hremoved := Removed.of_dispose (s.restored place snapshot) strResource place
      exact ⟨hremoved.sane hget' hsane', hremoved.consistent hsane' hget' hs'⟩
    · exact ⟨hsane', hs'⟩

/-! ## Validity -/

theorem setElementsValidFlag_eq (s : UndoRedoService) (strResource : String) (isValid : Bool) (filter : UndoRedoElement → Bool) :
    ∃ valid invalidated, s.setElementsValidFlag strResource isValid filter =
      { s with
        isValid := valid
        invalidatedResources := invalidated } := by
  have hfold : ∀ (stack : ResourceEditStack) (elements : List StackElement) (s : UndoRedoService), ∃ valid invalidated,
      elements.foldl (fun s element => s.setElementValidFlag stack element isValid) s =
        { s with
          isValid := valid
          invalidatedResources := invalidated } := by
    intro stack elements
    induction elements with
    | nil => exact fun s => ⟨s.isValid, s.invalidatedResources, rfl⟩
    | cons element elements ih =>
      intro s
      obtain ⟨valid, invalidated, heq⟩ := ih (s.setElementValidFlag stack element isValid)
      refine ⟨valid, invalidated, heq.trans ?_⟩
      unfold setElementValidFlag
      split <;> rfl
  unfold setElementsValidFlag
  split
  · exact ⟨s.isValid, s.invalidatedResources, rfl⟩
  · exact hfold _ _ s

/-! ## Undo and redo -/

/-- The workspace elements of a stack that is flushed are on no other stack. -/
def FlushTidy (s : UndoRedoService) (place : Nat) : Prop :=
  ∀ element ∈ (s.stackAt place).all, element.type = .workspace → ¬ s.Shared place element

theorem resourceUndoRedo_consistent (hsane : Sane s) (hs : Consistent s) (hresource : element.type = .resource)
    (hclosest : (s.stackAt place).getClosest direction.side = some element)
    (htidy : s.isValid element = false → s.FlushTidy place) : Consistent (s.resourceUndoRedo direction place element) := by
  unfold resourceUndoRedo
  split
  · next hinvalid => exact flush_consistent hs (htidy (by simpa using hinvalid))
  · split
    · exact (notify_quiet ..).consistent hs
    · split
      · exact Quiet.consistent (schedule_quiet hresource) hs
      · exact moveAndInvoke_consistent hsane hs hresource hclosest

/-- An undo that goes ahead with an invalid element flushes a stack that has nothing to share. -/
def UndoTidy (s : UndoRedoService) (strResource : String) (sourceId : Nat) (undoConfirmed : Bool) : Prop :=
  ∀ place element, s.get strResource = some place → (s.stackAt place).getClosestPastElement = some element →
    s.findBefore (.undo undoConfirmed) element = none →
    ¬ ((element.sourceId ≠ sourceId ∨ element.actual.confirmBeforeUndo) ∧ !undoConfirmed) →
    element.type = .resource → s.isValid element = false → s.FlushTidy place

def RedoTidy (s : UndoRedoService) (strResource : String) : Prop :=
  ∀ place element, s.get strResource = some place → (s.stackAt place).getClosestFutureElement = some element →
    s.findBefore .redo element = none → element.type = .resource → s.isValid element = false → s.FlushTidy place

section

variable (hsane : Sane s) (hs : Consistent s) (hworkspace : element.type = .workspace)
variable (hdistinct : element.strResources.Nodup) (hon : s.OnStack element)
include hsane hs hworkspace hdistinct hon

theorem workspaceUndo_consistent (undoConfirmed : Bool) :
    Consistent (s.workspaceUndo strResource element undoConfirmed) := by
  unfold workspaceUndo
  dsimp only
  split
  · next hcheck =>
    exact checkWorkspace_consistent hsane hs hworkspace hdistinct (.inl hon) (fun hflag => Bool.noConfusion hflag) hcheck
  · unfold confirmAndExecuteWorkspaceUndo
    split
    · exact Quiet.consistent (schedule_quiet ⟨hworkspace, hdistinct, getAffectedEditStacks_ok s element⟩) hs
    · exact Quiet.consistent (schedule_quiet ⟨hworkspace, hdistinct, getAffectedEditStacks_ok s element⟩) hs

theorem workspaceRedo_consistent :
    Consistent (s.workspaceRedo strResource element) := by
  unfold workspaceRedo
  dsimp only
  split
  · next hcheck =>
    exact checkWorkspace_consistent hsane hs hworkspace hdistinct (.inl hon) (fun hflag => Bool.noConfusion hflag) hcheck
  · exact Quiet.consistent (schedule_quiet ⟨hworkspace, hdistinct, getAffectedEditStacks_ok s element⟩) hs

end

section

variable (hsane : Sane s) (hs : Consistent s)
include hsane hs

theorem undoResource_consistent {sourceId : Nat} {undoConfirmed : Bool}
    (htidy : s.UndoTidy strResource sourceId undoConfirmed) :
    Consistent (s.undoResource strResource sourceId undoConfirmed) := by
  unfold undoResource
  split
  · exact hs
  · next place hget =>
    split
    · exact hs
    · next element hclosest =>
      split
      · exact Quiet.consistent (schedule_quiet trivial) hs
      · next hbefore =>
        split
        · exact Quiet.consistent (schedule_quiet trivial) hs
        · next hprompt =>
          have hmem := ResourceEditStack.mem_of_getClosest hclosest
          split
          · next hworkspace =>
            exact workspaceUndo_consistent hsane hs hworkspace (hsane.distinct place element hmem) ⟨strResource, place, hget, hmem⟩ _
          · next hresource =>
            exact resourceUndoRedo_consistent hsane hs hresource hclosest (htidy place element hget hclosest hbefore hprompt hresource)

theorem redoResource_consistent (htidy : s.RedoTidy strResource) :
    Consistent (s.redoResource strResource) := by
  unfold redoResource
  split
  · exact hs
  · next place hget =>
    split
    · exact hs
    · next element hclosest =>
      split
      · exact Quiet.consistent (schedule_quiet trivial) hs
      · next hbefore =>
        have hmem := ResourceEditStack.mem_of_getClosest hclosest
        split
        · next hworkspace =>
          exact workspaceRedo_consistent hsane hs hworkspace (hsane.distinct place element hmem) ⟨strResource, place, hget, hmem⟩
        · next hresource =>
          exact resourceUndoRedo_consistent hsane hs hresource hclosest (htidy place element hget hclosest hbefore hresource)

omit hsane hs in
/-- What has waited goes on about an element that is still there. -/
def Task.Tidy (s : UndoRedoService) : Task → Answer → Prop
  | .undo strResource sourceId undoConfirmed, _ => s.UndoTidy strResource sourceId undoConfirmed
  | .redo strResource, _ => s.RedoTidy strResource
  | .confirmWorkspaceUndo _ element _, .choice .this => s.OnStack element ∧ s.removedResources element = none
  | .confirmWorkspaceUndo _ element _, .choice .all => s.Traceable element
  | .prepareWorkspace _ _ element _, .resolved => s.Traceable element ∧ ¬ s.SplitsInvalidated element
  | .prepareResource direction place element, .resolved => (s.stackAt place).getClosest direction.side = some element
  | _, _ => True

omit hsane hs in
theorem Task.Tidy.prompt {task : Task} {answer : Answer} (h : Task.Tidy s task answer) : Task.Prompt s task answer := by
  unfold Task.Prompt
  split
  · exact h
  · trivial

theorem executeWorkspace_consistent {editStackSnapshot : EditStackSnapshot}
    (htask : s.TaskOk (.prepareWorkspace direction strResource element editStackSnapshot))
    (htraceable : s.Traceable element) (hinvalidated : ¬ s.SplitsInvalidated element) :
    Consistent (s.executeWorkspace direction strResource element editStackSnapshot) := by
  obtain ⟨hworkspace, hdistinct, hentries⟩ := htask
  unfold executeWorkspace
  split
  · next hcheck => exact checkWorkspace_consistent hsane hs hworkspace hdistinct htraceable (fun _ => hinvalidated) hcheck
  · next hcheck =>
    obtain ⟨-, hclosest, hversions⟩ := checkWorkspace_none hcheck
    have hgets := checked_gets hsane hentries hclosest hversions
    exact (safeInvokeWithLocks_quiet ..).consistent (moveAll_consistent hsane hs hdistinct hgets hclosest)

theorem resume_consistent {task : Task} {answer : Answer} (htask : s.TaskOk task) (htidy : Task.Tidy s task answer) :
    Consistent (s.resume task answer) := by
  unfold resume
  split
  · exact undoResource_consistent hsane hs htidy
  · exact redoResource_consistent hsane hs htidy
  · exact Quiet.consistent (schedule_quiet trivial) hs
  · next strResource element editStackSnapshot =>
    have hsplit : Consistent (s.splitWorkspaceElement .past element (element.actual.split.getD []) (s.removedResources element)).1 :=
      (splitWorkspaceElement_consistent hsane hs htask.1 htask.2.1 (.inl htidy.1) _).1
    rw [htidy.2] at hsplit
    split
    · next s' heq =>
      rw [heq] at hsplit
      exact Quiet.consistent (schedule_quiet trivial) hsplit
    · next s' heq =>
      rw [heq] at hsplit
      exact hsplit
  · split
    · next hcheck =>
      exact checkWorkspace_consistent hsane hs htask.1 htask.2.1 htidy (fun hflag => Bool.noConfusion hflag) hcheck
    · exact Quiet.consistent (schedule_quiet htask) hs
  · exact executeWorkspace_consistent hsane hs htask htidy.1 htidy.2
  · exact onError_consistent hsane hs _
  · exact moveAndInvoke_consistent hsane hs htask htidy
  · exact ((setLocks_quiet _ _ s).trans (continueInGroup_quiet ..)).consistent hs
  · next element editStackSnapshot =>
    have hlocks := setLocks_quiet editStackSnapshot false s
    exact onError_consistent (hlocks.sane hsane) (hlocks.consistent hs) _
  · exact hs

/-! ## Runs -/

omit hsane hs in
def Action.Tidy (s : UndoRedoService) : Action → Prop
  | .undo strResource => s.UndoTidy strResource 0 false
  | .undoSource sourceId => ∀ element strResource, s.findClosestUndoElementWithSource sourceId = some (element, strResource) →
      s.UndoTidy strResource sourceId false
  | .redo strResource => s.RedoTidy strResource
  | .redoSource sourceId => ∀ element strResource, s.findClosestRedoElementWithSource sourceId = some (element, strResource) →
      s.RedoTidy strResource
  | .restoreSnapshot strResource snapshot => ∀ place, s.get strResource = some place → s.RestoreTidy place snapshot
  | .resume index answer => ∀ task ∈ s.tasks[index]?, Task.Tidy s task answer
  | _ => True

omit hsane hs in
def AllTidy : UndoRedoService → List Action → Prop
  | _, [] => True
  | s, action :: actions => action.Tidy s ∧ AllTidy (s.step action) actions

theorem step_sane {action : Action} (htidy : action.Tidy s) : Sane (s.step action) := by
  have hplain : action.isPlain = true → action.Prompt s → Sane (s.step action) := by
    intro hplain hprompt
    have hevolves : Evolves True (s.actionDoing action) s (s.step action) := step_evolves hsane (fun _ => trivial) hplain hprompt
    exact hevolves.sane
  cases action with
  | setElementsValidFlag strResource isValid filter =>
    obtain ⟨valid, invalidated, heq⟩ := setElementsValidFlag_eq s strResource isValid filter
    rw [step, heq]
    exact ⟨hsane.nodup, hsane.known, hsane.distinct, hsane.missing, hsane.counter, hsane.unused, hsane.inj, hsane.bounds, hsane.home,
      hsane.tasks⟩
  | restoreSnapshot strResource snapshot => exact (restoreSnapshot_keeps hsane hs htidy).1
  | resume index answer => exact hplain rfl fun task htask => (htidy task htask).prompt
  | pushElement | undo | undoSource | redo | redoSource | removeElements => exact hplain rfl trivial

theorem step_consistent {action : Action} (htidy : action.Tidy s) : Consistent (s.step action) := by
  cases action with
  | pushElement element groupId sourceId => exact pushElement_consistent hsane hs element groupId sourceId
  | undo strResource => exact undoResource_consistent hsane hs htidy
  | undoSource sourceId =>
    rw [step]
    split
    · next element strResource hfound =>
      split
      · exact hs
      · exact undoResource_consistent hsane hs (htidy element strResource hfound)
    · exact hs
  | redo strResource => exact redoResource_consistent hsane hs htidy
  | redoSource sourceId =>
    rw [step]
    split
    · next element strResource hfound =>
      split
      · exact hs
      · exact redoResource_consistent hsane hs (htidy element strResource hfound)
    · exact hs
  | removeElements strResource => exact removeElements_consistent hsane hs strResource
  | setElementsValidFlag strResource isValid filter =>
    obtain ⟨valid, invalidated, heq⟩ := setElementsValidFlag_eq s strResource isValid filter
    rw [step, heq]
    exact ⟨hs.together, hs.alone, hs.fresh, hs.found⟩
  | restoreSnapshot strResource snapshot => exact (restoreSnapshot_keeps hsane hs htidy).2
  | resume index answer =>
    rw [step]
    split
    · exact hs
    · next task htask =>
      have hs' : Consistent { s with tasks := s.tasks.eraseIdx index } := ⟨hs.together, hs.alone, hs.fresh, hs.found⟩
      refine resume_consistent (hsane.erase index) hs' (hsane.tasks task (mem_of_getElem? htask)) ?_
      have htidy := htidy task htask
      cases task <;> cases answer <;> exact htidy

end

theorem run_consistent (actions : List Action) : ∀ {s : UndoRedoService}, Sane s → Consistent s → AllTidy s actions →
    Consistent (s.run actions) := by
  induction actions with
  | nil => exact fun _ hs _ => hs
  | cons action actions ih =>
    intro s hsane hs htidy
    exact ih (step_sane hsane hs htidy.1) (step_consistent hsane hs htidy.1) htidy.2

theorem Consistent.initial : Consistent {} := by
  refine ⟨fun hget => ?_, fun hget => ?_, fun hrecorded => ?_, fun _ herror => ?_⟩
  · cases hget
  · cases hget
  · cases hrecorded
  · cases herror

/-- Each workspace element on the stack of a resource is on the same side of the stacks of all its resources that
it has not recorded as removed. -/
def Together (s : UndoRedoService) : Prop :=
  ∀ strResource place side element, s.get strResource = some place → element ∈ (s.stackAt place).elements side →
    element.type = .workspace → ∀ strResource' ∈ element.strResources,
      (∃ place', s.get strResource' = some place' ∧ element ∈ (s.stackAt place').elements side) ∨ s.Recorded element strResource'

theorem workspace_elements_together (actions : List Action) (htidy : AllTidy {} actions) :
    (run {} actions).Together ∧ ∀ strResource, .missingEditStack strResource ∉ (run {} actions).errors := by
  have hs := run_consistent actions Sane.initial Consistent.initial htidy
  exact ⟨fun _ _ _ _ hget hmem hworkspace => hs.together hget hmem hworkspace, hs.found⟩

/-- A rename in two files. -/
def renamed : UndoRedoElement :=
  .workspace
    { resources := [fileA, ⟨"/b", "file:///b"⟩]
      label := "rename"
      split := some [{ resource := fileA, label := "rename" }, { resource := ⟨"/b", "file:///b"⟩, label := "rename" }] }

def renamedAndRemoved : List Action := [.pushElement renamed 0 0, .removeElements "file:///a", .undo "file:///b"]

theorem workspace_elements_together_removed : AllTidy {} renamedAndRemoved ∧ (run {} renamedAndRemoved).Together := by
  have htidy : AllTidy {} renamedAndRemoved := by
    refine ⟨trivial, trivial, fun place element hget hclosest _ _ hresource => ?_, trivial⟩
    obtain rfl := Option.some.inj hget
    obtain rfl := Option.some.inj hclosest
    cases hresource
  exact ⟨htidy, (workspace_elements_together renamedAndRemoved htidy).1⟩

/-- The snapshot of a file with the rename only is restored behind some typing. -/
def renamedAndRestored : List Action :=
  [.pushElement renamed 0 0, .pushElement typing 0 0, .restoreSnapshot "file:///a" [1], .undo "file:///b"]

/-- The rename is dropped from the first file unrecorded, and the undo in the second one misses its edit stack. -/
theorem missing_edit_stack : ¬ ∀ actions : List Action,
    (run {} actions).Together ∧ ∀ strResource, .missingEditStack strResource ∉ (run {} actions).errors := by
  intro h
  have := (h renamedAndRestored).2 "file:///a"
  revert this
  decide

end UndoRedoService

end TongjiCode.UndoRedo
