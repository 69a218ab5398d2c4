import Mathlib.Data.List.Nodup
import TongjiCode.UndoRedo.Service

/-!
# The edit stacks of a service

What every state of the service has (`Sane`): no element is twice on a stack, the stacks of the resources are
different objects, and a snapshot of edit stacks whose versions are still those of the stacks is about the
stacks that the resources have now.
-/

open List

namespace TongjiCode.UndoRedo

/-! ## Stacks -/

def Side.other : Side → Side
  | .past => .future
  | .future => .past

namespace ResourceEditStack

variable {stack stack' : ResourceEditStack} {side : Side} {element : StackElement}

/-- The same stack but for its lock. -/
structure Same (stack stack' : ResourceEditStack) : Prop where
  past : stack'.past = stack.past
  future : stack'.future = stack.future
  strResource : stack'.strResource = stack.strResource
  versionId : stack'.versionId = stack.versionId

theorem Same.refl (stack : ResourceEditStack) : Same stack stack := ⟨rfl, rfl, rfl, rfl⟩

theorem Same.trans {stack'' : ResourceEditStack} (h : Same stack stack') (h' : Same stack' stack'') : Same stack stack'' :=
  ⟨h'.past.trans h.past, h'.future.trans h.future, h'.strResource.trans h.strResource, h'.versionId.trans h.versionId⟩

theorem Same.all (h : Same stack stack') : stack'.all = stack.all := by
  rw [ResourceEditStack.all, ResourceEditStack.all, h.past, h.future]

theorem elements_congr (hpast : stack'.past = stack.past) (hfuture : stack'.future = stack.future) (side : Side) :
    stack'.elements side = stack.elements side := by
  cases side with
  | past => exact hpast
  | future => exact hfuture

theorem Same.elements (h : Same stack stack') (side : Side) : stack'.elements side = stack.elements side :=
  elements_congr h.past h.future side

theorem mem_all : element ∈ stack.all ↔ ∃ side, element ∈ stack.elements side := by
  rw [ResourceEditStack.all, mem_append]
  constructor
  · rintro (h | h)
    · exact ⟨.past, h⟩
    · exact ⟨.future, h⟩
  · rintro ⟨side | side, h⟩
    · exact .inl h
    · exact .inr h

theorem mem_of_getClosest (h : stack.getClosest side = some element) : element ∈ stack.all :=
  mem_all.mpr ⟨side, mem_of_getLast? h⟩

theorem all_perm (stack : ResourceEditStack) (side : Side) :
    stack.all.Perm (stack.elements side ++ stack.elements side.other) := by
  cases side with
  | past => exact .refl _
  | future => exact List.perm_append_comm

/-- The closest element of a side is now the closest one of the other side, and the others are where they were. -/
structure Moved (side : Side) (element : StackElement) (before after : ResourceEditStack) : Prop where
  leaves : before.elements side = after.elements side ++ [element]
  arrives : after.elements side.other = before.elements side.other ++ [element]

theorem Moved.perm {before after : ResourceEditStack} (h : Moved side element before after) : after.all.Perm before.all := by
  refine (after.all_perm side).trans (.trans ?_ (before.all_perm side).symm)
  rw [h.arrives, h.leaves, append_assoc]
  exact List.perm_append_comm.append_left _

theorem moved_move (h : stack.getClosest side = some element) : Moved side element stack (stack.move side element) := by
  obtain ⟨rest, hrest⟩ := getLast?_eq_some_iff.mp h
  have hleft : (stack.move side element).elements side = (stack.elements side).dropLast := by cases side <;> rfl
  refine ⟨?_, by cases side <;> rfl⟩
  rw [hleft, hrest, dropLast_concat]

theorem move_strResource : (stack.move side element).strResource = stack.strResource := by
  cases side <;> rfl

theorem move_versionId : (stack.move side element).versionId = stack.versionId + 1 := by
  cases side <;> rfl

end ResourceEditStack

variable {element : StackElement}

section replaceLast

variable {toRemove : StackElement} (replacement : Option StackElement)

variable {elements : List StackElement}

theorem replaceLast_of_not_mem (h : toRemove ∉ elements) :
    replaceLast toRemove replacement elements = elements := by
  cases elements with
  | nil => rfl
  | cons element elements =>
    rw [mem_cons, not_or] at h
    rw [replaceLast, if_neg h.2, if_neg (Ne.symm h.1)]

theorem replaceLast_of_mem (h : toRemove ∈ elements) :
    ∃ before after, elements = before ++ toRemove :: after ∧
      replaceLast toRemove replacement elements = before ++ replacement.toList ++ after := by
  induction elements with
  | nil => cases h
  | cons element elements ih =>
    by_cases hrest : toRemove ∈ elements
    · obtain ⟨before, after, helements, hreplace⟩ := ih hrest
      refine ⟨element :: before, after, by rw [helements]; rfl, ?_⟩
      rw [replaceLast, if_pos hrest, hreplace]
      rfl
    · obtain rfl : toRemove = element := (mem_cons.mp h).resolve_right hrest
      exact ⟨[], elements, rfl, by rw [replaceLast, if_neg hrest, if_pos rfl]; rfl⟩

/-- The other elements of a side stay, the replacement may come in. -/
theorem mem_replaceLast (h : element ∈ replaceLast toRemove replacement elements) :
    element ∈ elements ∨ replacement = some element := by
  by_cases hmem : toRemove ∈ elements
  · obtain ⟨before, after, helements, hreplace⟩ := replaceLast_of_mem replacement hmem
    rw [hreplace] at h
    rw [helements]
    simp only [mem_append, Option.mem_toList, mem_cons] at h ⊢
    rcases h with (h | h) | h
    · exact .inl (.inl h)
    · exact .inr h
    · exact .inl (.inr (.inr h))
  · rw [replaceLast_of_not_mem replacement hmem] at h
    exact .inl h

end replaceLast

/-! ## The service -/

namespace UndoRedoService

variable {s s' s'' : UndoRedoService} {place : Nat} {f : ResourceEditStack → ResourceEditStack}

/-- The stack of the place `entry.1` at the version `entry.2` is that of the resource, unless it has changed. -/
def Entry (s : UndoRedoService) (strResource : String) (entry : Nat × Nat) : Prop :=
  entry.1 = 0 ∨ (entry.2 ≤ (s.stackAt entry.1).versionId ∧
    ((s.stackAt entry.1).versionId = entry.2 → s.get strResource = some entry.1))

def TaskOk (s : UndoRedoService) : Task → Prop
  | .confirmWorkspaceUndo _ element editStackSnapshot | .prepareWorkspace _ _ element editStackSnapshot =>
    element.type = .workspace ∧ element.strResources.Nodup ∧ List.Forall₂ s.Entry element.strResources editStackSnapshot
  | .prepareResource _ _ element => element.type = .resource
  | _ => True

structure Sane (s : UndoRedoService) : Prop where
  nodup : ∀ place, (s.stackAt place).all.Nodup
  known : ∀ place, ∀ element ∈ (s.stackAt place).all, element.id ≤ s.stackElementCounter
  distinct : ∀ place, ∀ element ∈ (s.stackAt place).all, element.strResources.Nodup
  missing : (s.stackAt 0).all = []
  counter : 0 < s.stackCounter
  unused : ∀ place, s.stackCounter ≤ place → (s.stackAt place).all = [] ∧ (s.stackAt place).versionId = 1
  inj : ∀ {strResource strResource' : String} {place : Nat}, s.get strResource = some place →
    s.get strResource' = some place → strResource = strResource'
  bounds : ∀ {strResource : String} {place : Nat}, s.get strResource = some place → 0 < place ∧ place < s.stackCounter
  home : ∀ {strResource : String} {place : Nat}, s.get strResource = some place →
    (s.stackAt place).strResource = strResource ∧ ∀ element ∈ (s.stackAt place).all, strResource ∈ element.strResources
  tasks : ∀ task ∈ s.tasks, s.TaskOk task

/-- Versions only grow, and the stack of a resource stays its stack as long as its version does. -/
structure Later (s s' : UndoRedoService) : Prop where
  versions : ∀ place, (s.stackAt place).versionId ≤ (s'.stackAt place).versionId
  gets : ∀ {strResource : String} {place : Nat}, s.get strResource = some place →
    (s'.stackAt place).versionId = (s.stackAt place).versionId → s'.get strResource = some place

theorem Later.refl (s : UndoRedoService) : Later s s := ⟨fun _ => Nat.le_refl _, fun h _ => h⟩

theorem Later.trans (h : Later s s') (h' : Later s' s'') : Later s s'' := by
  refine ⟨fun place => Nat.le_trans (h.versions place) (h'.versions place), fun {strResource place} hget hversion => ?_⟩
  have h1 := h.versions place
  have h2 := h'.versions place
  exact h'.gets (h.gets hget (by omega)) (by omega)

theorem Entry.later {strResource : String} {entry : Nat × Nat} (h : Later s s') (hentry : s.Entry strResource entry) :
    s'.Entry strResource entry := by
  rcases hentry with hzero | ⟨hle, hget⟩
  · exact .inl hzero
  · have hversions := h.versions entry.1
    refine .inr ⟨Nat.le_trans hle hversions, fun hversion => ?_⟩
    exact h.gets (hget (by omega)) (by omega)

theorem TaskOk.later (h : Later s s') {task : Task} (htask : s.TaskOk task) : s'.TaskOk task := by
  cases task with
  | confirmWorkspaceUndo | prepareWorkspace =>
    exact ⟨htask.1, htask.2.1, List.Forall₂.imp (fun _ _ hentry => hentry.later h) htask.2.2⟩
  | prepareResource => exact htask
  | undo | redo | confirmUndo | invoke => trivial

/-! ### Updates of a stack -/

theorem updateStack_stackAt (s : UndoRedoService) (place : Nat) (f : ResourceEditStack → ResourceEditStack) (place' : Nat) :
    (s.updateStack place f).stackAt place' = if place' = place then f (s.stackAt place) else s.stackAt place' := by
  by_cases h : place' = place
  · subst h
    rw [if_pos rfl]
    exact Function.update_self ..
  · rw [if_neg h]
    exact Function.update_of_ne h ..

theorem updateStack_stackAt_self : (s.updateStack place f).stackAt place = f (s.stackAt place) := by
  rw [updateStack_stackAt, if_pos rfl]

theorem updateStack_stackAt_of_ne {place' : Nat} (h : place' ≠ place) :
    (s.updateStack place f).stackAt place' = s.stackAt place' := by
  rw [updateStack_stackAt, if_neg h]

theorem Later.updateStack (h : (s.stackAt place).versionId ≤ (f (s.stackAt place)).versionId) :
    Later s (s.updateStack place f) := by
  refine ⟨fun place' => ?_, fun hget _ => hget⟩
  rw [updateStack_stackAt]
  split
  · next heq =>
    subst heq
    exact h
  · exact Nat.le_refl _

theorem Sane.used (h : Sane s) (hmem : element ∈ (s.stackAt place).all) :
    0 < place ∧ place < s.stackCounter := by
  constructor
  · refine Nat.pos_of_ne_zero fun hzero => ?_
    subst hzero
    rw [h.missing] at hmem
    cases hmem
  · refine Nat.lt_of_not_le fun hle => ?_
    rw [(h.unused place hle).1] at hmem
    cases hmem

/-- An element that may come on the stack at this place. -/
def Welcome (s : UndoRedoService) (place : Nat) (element : StackElement) : Prop :=
  element.id ≤ s.stackElementCounter ∧ (s.stackAt place).strResource ∈ element.strResources ∧ element.strResources.Nodup

theorem Sane.updateStack (h : Sane s) (hused : 0 < place ∧ place < s.stackCounter)
    (hstr : (f (s.stackAt place)).strResource = (s.stackAt place).strResource)
    (hversion : (s.stackAt place).versionId ≤ (f (s.stackAt place)).versionId) (hnodup : (f (s.stackAt place)).all.Nodup)
    (hmem : ∀ element ∈ (f (s.stackAt place)).all, element ∈ (s.stackAt place).all ∨ s.Welcome place element) :
    Sane (s.updateStack place f) := by
  refine ⟨fun place' => ?_, fun place' => ?_, fun place' => ?_, ?_, h.counter, fun place' hplace => ?_, h.inj, h.bounds, fun {strResource place'} hget => ?_,
    fun task htask => (h.tasks task htask).later (Later.updateStack hversion)⟩
  · rw [updateStack_stackAt]
    split
    · exact hnodup
    · exact h.nodup place'
  · rw [updateStack_stackAt]
    split
    · intro element helement
      rcases hmem element helement with hold | hnew
      · exact h.known place element hold
      · exact hnew.1
    · exact h.known place'
  · rw [updateStack_stackAt]
    split
    · intro element helement
      rcases hmem element helement with hold | hnew
      · exact h.distinct place element hold
      · exact hnew.2.2
    · exact h.distinct place'
  · rw [updateStack_stackAt_of_ne (by omega)]
    exact h.missing
  · have hplace : s.stackCounter ≤ place' := hplace
    rw [updateStack_stackAt_of_ne (by omega)]
    exact h.unused place' hplace
  · have hhome := h.home hget
    rw [updateStack_stackAt]
    split
    · next heq =>
      subst heq
      refine ⟨hstr.trans hhome.1, fun element helement => ?_⟩
      rcases hmem element helement with hold | hnew
      · exact hhome.2 element hold
      · rw [← hhome.1]
        exact hnew.2.1
    · exact hhome

/-! ### Steps that leave the stacks alone -/

/-- Only locks, messages and tasks change. -/
structure Quiet (s s' : UndoRedoService) : Prop where
  stackAt : ∀ place, (s.stackAt place).Same (s'.stackAt place)
  stackCounter : s'.stackCounter = s.stackCounter
  editStacks : s'.editStacks = s.editStacks
  stackElementCounter : s'.stackElementCounter = s.stackElementCounter
  isValid : s'.isValid = s.isValid
  removedResources : s'.removedResources = s.removedResources
  errors : ∀ strResource, .missingEditStack strResource ∈ s'.errors → .missingEditStack strResource ∈ s.errors
  tasks : ∀ task ∈ s'.tasks, task ∈ s.tasks ∨ s.TaskOk task

theorem Quiet.refl (s : UndoRedoService) : Quiet s s :=
  ⟨fun _ => .refl _, rfl, rfl, rfl, rfl, rfl, fun _ h => h, fun _ => .inl⟩

theorem Quiet.get (h : Quiet s s') : s'.get = s.get := by
  funext strResource
  rw [UndoRedoService.get, UndoRedoService.get, h.editStacks]

theorem Quiet.later (h : Quiet s s') : Later s s' :=
  ⟨fun place => Nat.le_of_eq (h.stackAt place).versionId.symm, fun hget _ => by rw [h.get]; exact hget⟩

theorem Quiet.symm_later (h : Quiet s s') : Later s' s :=
  ⟨fun place => Nat.le_of_eq (h.stackAt place).versionId, fun hget _ => by rw [← h.get]; exact hget⟩

theorem Quiet.trans (h : Quiet s s') (h' : Quiet s' s'') : Quiet s s'' := by
  refine ⟨fun place => (h.stackAt place).trans (h'.stackAt place), h'.stackCounter.trans h.stackCounter,
    h'.editStacks.trans h.editStacks, h'.stackElementCounter.trans h.stackElementCounter, h'.isValid.trans h.isValid,
    h'.removedResources.trans h.removedResources, fun _ herror => h.errors _ (h'.errors _ herror), fun task htask => ?_⟩
  rcases h'.tasks task htask with hold | hnew
  · exact h.tasks task hold
  · exact .inr (hnew.later h.symm_later)

theorem Quiet.sane (h : Quiet s s') (hsane : Sane s) : Sane s' := by
  refine ⟨fun place => ?_, fun place => ?_, fun place => ?_, ?_, ?_, fun place hplace => ?_, fun hget hget' => ?_, fun hget => ?_,
    fun hget => ?_, fun task htask => ?_⟩
  · rw [(h.stackAt place).all]
    exact hsane.nodup place
  · rw [(h.stackAt place).all, h.stackElementCounter]
    exact hsane.known place
  · rw [(h.stackAt place).all]
    exact hsane.distinct place
  · rw [(h.stackAt 0).all]
    exact hsane.missing
  · rw [h.stackCounter]
    exact hsane.counter
  · rw [h.stackCounter] at hplace
    rw [(h.stackAt place).all, (h.stackAt place).versionId]
    exact hsane.unused place hplace
  · rw [h.get] at hget hget'
    exact hsane.inj hget hget'
  · rw [h.get] at hget
    rw [h.stackCounter]
    exact hsane.bounds hget
  · rw [h.get] at hget
    rw [(h.stackAt _).all, (h.stackAt _).strResource]
    exact hsane.home hget
  · rcases h.tasks task htask with hold | hnew
    · exact (hsane.tasks task hold).later h.later
    · exact hnew.later h.later

theorem schedule_quiet {task : Task} (h : s.TaskOk task) : Quiet s (s.schedule task) := by
  refine ⟨fun _ => .refl _, rfl, rfl, rfl, rfl, rfl, fun _ h => h, fun task' htask => ?_⟩
  rcases mem_append.mp htask with hold | hnew
  · exact .inl hold
  · obtain rfl := mem_singleton.mp hnew
    exact .inr h

theorem notify_quiet (s : UndoRedoService) (notification : Notification) : Quiet s (s.notify notification) :=
  ⟨fun _ => .refl _, rfl, rfl, rfl, rfl, rfl, fun _ h => h, fun _ => .inl⟩

theorem throwing_quiet (s : UndoRedoService) : Quiet s (s.throwing .cannotAcquireEditStackLock) := by
  refine ⟨fun _ => .refl _, rfl, rfl, rfl, rfl, rfl, fun _ herror => ?_, fun _ => .inl⟩
  rcases mem_append.mp herror with hold | hnew
  · exact hold
  · simp at hnew

theorem setLocks_quiet (editStackSnapshot : EditStackSnapshot) (locked : Bool) :
    ∀ s : UndoRedoService, Quiet s (s.setLocks editStackSnapshot locked) := by
  induction editStackSnapshot with
  | nil => exact fun s => .refl s
  | cons entry editStackSnapshot ih =>
    intro s
    refine Quiet.trans ?_ (ih (s.updateStack entry.1 fun stack => { stack with locked }))
    refine ⟨fun place => ?_, rfl, rfl, rfl, rfl, rfl, fun _ h => h, fun _ => .inl⟩
    rw [updateStack_stackAt]
    split
    · next heq =>
      subst heq
      exact ⟨rfl, rfl, rfl, rfl⟩
    · exact .refl _

theorem safeInvokeWithLocks_quiet (s : UndoRedoService) (direction : Direction) (element : StackElement)
    (editStackSnapshot : EditStackSnapshot) : Quiet s (s.safeInvokeWithLocks direction element editStackSnapshot) := by
  unfold safeInvokeWithLocks
  split
  · exact throwing_quiet s
  · exact (setLocks_quiet _ _ s).trans (schedule_quiet trivial)

theorem taskOk_call (direction : Direction) (strResource : String) : s.TaskOk (direction.call strResource) := by
  cases direction <;> trivial

theorem continueInGroup_quiet (s : UndoRedoService) (direction : Direction) (groupId : Nat) :
    Quiet s (s.continueInGroup direction groupId) := by
  unfold continueInGroup
  split
  · split
    · exact .refl s
    · exact schedule_quiet (taskOk_call ..)
  · exact .refl s

/-! ### Marks -/

theorem removeResources_eq (stack : ResourceEditStack) (reason : RemovedResourceReason) (elements : List StackElement) :
    ∀ s : UndoRedoService, ∃ removed, removeResources stack reason elements s = { s with removedResources := removed } := by
  induction elements with
  | nil => exact fun s => ⟨s.removedResources, rfl⟩
  | cons element elements ih =>
    intro s
    rw [removeResources]
    split
    · obtain ⟨removed, heq⟩ := ih (s.removeResource element stack.resourceLabel stack.strResource reason)
      exact ⟨removed, heq⟩
    · exact ih s

theorem Sane.marked (h : Sane s) (removed : StackElement → Option RemovedResources) :
    Sane { s with removedResources := removed } :=
  ⟨h.nodup, h.known, h.distinct, h.missing, h.counter, h.unused, h.inj, h.bounds, h.home, h.tasks⟩

def Recorded (s : UndoRedoService) (element : StackElement) (strResource : String) : Prop :=
  (s.removedResources element).any (fun removed => removed.has strResource) = true

theorem RemovedResources.has_set (removed : RemovedResources) (strResource strResource' : String) (pair : ResourceReasonPair) :
    (removed.set strResource pair).has strResource' = true ↔ removed.has strResource' = true ∨ strResource' = strResource := by
  simp only [RemovedResources.has, RemovedResources.set, any_append, any_cons, any_nil, Bool.or_false, Bool.or_eq_true,
    decide_eq_true_eq]
  rw [@eq_comm _ strResource]

theorem removeResource_recorded (s : UndoRedoService) (element : StackElement) (label strResource : String)
    (reason : RemovedResourceReason) (element' : StackElement) (strResource' : String) :
    (s.removeResource element label strResource reason).Recorded element' strResource' ↔
      s.Recorded element' strResource' ∨ (element' = element ∧ strResource' = strResource) := by
  unfold Recorded removeResource
  by_cases heq : element' = element
  · subst heq
    simp only [Function.update_self, Option.any_some, true_and]
    cases hremoved : s.removedResources element' with
    | none =>
      rw [Option.getD_none, Option.any_none, if_neg (by simp [RemovedResources.has]), RemovedResources.has_set]
      simp [RemovedResources.has]
    | some removed =>
      split
      · next hhas =>
        constructor
        · exact .inl
        · rintro (h | rfl)
          · exact h
          · exact hhas
      · exact RemovedResources.has_set ..
  · simp only [Function.update_of_ne heq, heq, false_and, or_false]

theorem removeResources_recorded (stack : ResourceEditStack) (reason : RemovedResourceReason) (elements : List StackElement) :
    ∀ (s : UndoRedoService) (element : StackElement) (strResource : String),
      (removeResources stack reason elements s).Recorded element strResource ↔ s.Recorded element strResource ∨
        (element ∈ elements ∧ element.type = .workspace ∧ strResource = stack.strResource) := by
  induction elements with
  | nil => simp [removeResources]
  | cons first elements ih =>
    intro s element strResource
    rw [removeResources, ih, mem_cons]
    split
    · next hworkspace =>
      rw [removeResource_recorded]
      constructor
      · rintro ((h | ⟨rfl, h⟩) | h)
        · exact .inl h
        · exact .inr ⟨.inl rfl, hworkspace, h⟩
        · exact .inr ⟨.inr h.1, h.2⟩
      · rintro (h | ⟨rfl | hmem, h⟩)
        · exact .inl (.inl h)
        · exact .inl (.inr ⟨rfl, h.2⟩)
        · exact .inr ⟨hmem, h⟩
    · next hresource =>
      constructor
      · rintro (h | h)
        · exact .inl h
        · exact .inr ⟨.inr h.1, h.2⟩
      · rintro (h | ⟨rfl | hmem, h⟩)
        · exact .inl h
        · exact (hresource h.1).elim
        · exact .inr ⟨hmem, h⟩

/-! ### Removing -/

theorem lookup_filter (entries : List (String × Nat)) (strResource strResource' : String) :
    (entries.filter fun entry => entry.1 ≠ strResource).lookup strResource' =
      if strResource' = strResource then none else entries.lookup strResource' := by
  induction entries with
  | nil => simp
  | cons entry entries ih =>
    have hcons : ∀ rest : List (String × Nat), strResource' ≠ entry.1 → (entry :: rest).lookup strResource' = rest.lookup strResource' := by
      intro rest hne
      rw [lookup_cons, beq_eq_false_iff_ne.mpr hne]
    by_cases heq : entry.1 = strResource
    · rw [filter_cons_of_neg (by simpa using heq), ih]
      split
      · rfl
      · next hne => rw [hcons _ (by rw [heq]; exact hne)]
    · rw [filter_cons_of_pos (by simpa using heq)]
      by_cases hentry : strResource' = entry.1
      · subst hentry
        rw [if_neg heq, lookup_cons, lookup_cons, beq_self_eq_true]
      · rw [hcons _ hentry, hcons _ hentry, ih]

theorem delete_stacks (strResource : String) : (s.delete strResource).stackAt = s.stackAt := rfl

/-- What `removeElements` does where there is a stack: the stack leaves the map with its version changed. -/
structure Removed (s : UndoRedoService) (strResource : String) (place : Nat) (s' : UndoRedoService) : Prop where
  get : ∀ strResource', s'.get strResource' = if strResource' = strResource then none else s.get strResource'
  stackAt : ∀ place', (s'.stackAt place').past = (s.stackAt place').past ∧ (s'.stackAt place').future = (s.stackAt place').future ∧
    (s'.stackAt place').strResource = (s.stackAt place').strResource
  versions : ∀ place', (s'.stackAt place').versionId = (s.stackAt place').versionId + if place' = place then 1 else 0
  stackCounter : s'.stackCounter = s.stackCounter
  stackElementCounter : s'.stackElementCounter = s.stackElementCounter
  isValid : s'.isValid = s.isValid
  recorded : ∀ element strResource', s'.Recorded element strResource' ↔ s.Recorded element strResource' ∨
    (element ∈ (s.stackAt place).all ∧ element.type = .workspace ∧ strResource' = (s.stackAt place).strResource)
  errors : s'.errors = s.errors
  tasks : s'.tasks = s.tasks

theorem dispose_eq (s : UndoRedoService) (place : Nat) : ∃ removed, s.dispose place =
    { s with removedResources := removed }.updateStack place fun stack => { stack with versionId := stack.versionId + 1 } := by
  obtain ⟨removed, heq⟩ := removeResources_eq (s.stackAt place) .externalRemoval (s.stackAt place).past s
  obtain ⟨removed', heq'⟩ := removeResources_eq (s.stackAt place) .externalRemoval (s.stackAt place).future
    { s with removedResources := removed }
  refine ⟨removed', ?_⟩
  simp only [dispose]
  rw [heq, heq']

theorem dispose_recorded (s : UndoRedoService) (place : Nat) (element : StackElement) (strResource : String) :
    (s.dispose place).Recorded element strResource ↔ s.Recorded element strResource ∨
      (element ∈ (s.stackAt place).all ∧ element.type = .workspace ∧ strResource = (s.stackAt place).strResource) := by
  have hpast := removeResources_recorded (s.stackAt place) .externalRemoval (s.stackAt place).past s element strResource
  have hfuture := removeResources_recorded (s.stackAt place) .externalRemoval (s.stackAt place).future
    (removeResources (s.stackAt place) .externalRemoval (s.stackAt place).past s) element strResource
  refine hfuture.trans ?_
  rw [hpast, or_assoc, ← or_and_right, ResourceEditStack.all, mem_append]

theorem Removed.of_dispose (s : UndoRedoService) (strResource : String) (place : Nat) :
    Removed s strResource place ((s.dispose place).delete strResource) := by
  have hrecorded := dispose_recorded s place
  obtain ⟨removed, heq⟩ := dispose_eq s place
  rw [heq] at hrecorded ⊢
  refine ⟨fun strResource' => lookup_filter .., fun place' => ?_, fun place' => ?_, rfl, rfl, rfl, hrecorded, rfl, rfl⟩
  · rw [delete_stacks, updateStack_stackAt]
    split
    · next h =>
      subst h
      exact ⟨rfl, rfl, rfl⟩
    · exact ⟨rfl, rfl, rfl⟩
  · rw [delete_stacks, updateStack_stackAt]
    split
    · next h =>
      subst h
      rfl
    · rfl

theorem removeElements_cases (s : UndoRedoService) (strResource : String) :
    s.get strResource = none ∧ s.removeElements strResource = s ∨
      ∃ place, s.get strResource = some place ∧ Removed s strResource place (s.removeElements strResource) := by
  unfold removeElements
  cases hget : s.get strResource with
  | none => exact .inl ⟨rfl, rfl⟩
  | some place => exact .inr ⟨place, rfl, .of_dispose s strResource place⟩

variable {strResource : String} {place : Nat}

section

variable (h : Removed s strResource place s')
include h

theorem Removed.later (hget : s.get strResource = some place) : Later s s' := by
  refine ⟨fun place' => ?_, fun {strResource' place'} hget' hversion => ?_⟩
  · rw [h.versions]
    omega
  · rw [h.get]
    split
    · next heq =>
      subst heq
      obtain rfl := Option.some.inj (hget.symm.trans hget')
      have := h.versions place
      rw [if_pos rfl] at this
      omega
    · exact hget'

theorem Removed.all (place' : Nat) : (s'.stackAt place').all = (s.stackAt place').all := by
  rw [ResourceEditStack.all, (h.stackAt place').1, (h.stackAt place').2.1]
  rfl

theorem Removed.get_of {strResource' : String} {place' : Nat} (hget : s'.get strResource' = some place') :
    strResource' ≠ strResource ∧ s.get strResource' = some place' := by
  rw [h.get] at hget
  split at hget
  · cases hget
  · next hne => exact ⟨hne, hget⟩

theorem Removed.sane (hget : s.get strResource = some place) (hsane : Sane s) : Sane s' := by
  refine ⟨fun place' => ?_, fun place' => ?_, fun place' => ?_, ?_, ?_, fun place' hplace => ?_, fun hget' hget'' => ?_, fun hget' => ?_,
    fun hget' => ?_, fun task htask => ?_⟩
  · rw [h.all]
    exact hsane.nodup place'
  · rw [h.all, h.stackElementCounter]
    exact hsane.known place'
  · rw [h.all]
    exact hsane.distinct place'
  · rw [h.all]
    exact hsane.missing
  · rw [h.stackCounter]
    exact hsane.counter
  · rw [h.stackCounter] at hplace
    have hbounds := hsane.bounds hget
    rw [h.all, h.versions, if_neg (by omega)]
    exact hsane.unused place' hplace
  · exact hsane.inj (h.get_of hget').2 (h.get_of hget'').2
  · rw [h.stackCounter]
    exact hsane.bounds (h.get_of hget').2
  · rw [h.all, (h.stackAt _).2.2]
    exact hsane.home (h.get_of hget').2
  · rw [h.tasks] at htask
    exact (hsane.tasks task htask).later (h.later hget)

end

end UndoRedoService

/-! ## Changes of a stack -/

/-- What a step is to do with a stack: the element that is to change its side, the one that is to be pushed, and the one
that a part of it may take the place of. -/
structure Doing where
  moves : Side → StackElement → Prop := fun _ _ => False
  pushes : StackElement → Prop := fun _ => False
  splits : Side → StackElement → Prop := fun _ _ => False

def Doing.Rests (doing : Doing) : Prop := (∀ side element, ¬ doing.moves side element) ∧ ∀ element, ¬ doing.pushes element

/-- A workspace element goes from a side, or a new element comes in its place. -/
structure SplitOff (side : Side) (toRemove : StackElement) (counter : Nat) (before after : ResourceEditStack) : Prop where
  workspace : toRemove.type = .workspace
  replaced : ∃ front replacement back, (∀ element ∈ replacement, counter < element.id) ∧
    before.elements side = front ++ toRemove :: back ∧ after.elements side = front ++ Option.toList replacement ++ back
  other : after.elements side.other = before.elements side.other

/-- What a step does to a stack that is to do `doing` with it: the element that is to move moves, and the one that is to be
pushed is pushed.  Otherwise every element stays where it is, unless one is split or the stack is flushed.  New elements
have ids above `counter`, and `flushing` tells if stacks are flushed. -/
structure Change (flushing : Prop) (doing : Doing) (counter : Nat) (before after : ResourceEditStack) : Prop where
  moved : ∀ side element, doing.moves side element → before.Moved side element after
  pushed : ∀ element, doing.pushes element → counter < element.id ∧ after.past = before.past ++ [element] ∧ after.future = []
  rests : doing.Rests → (after.past = before.past ∧ after.future = before.future) ∨
    (∃ side toRemove, doing.splits side toRemove ∧ SplitOff side toRemove counter before after) ∨
      flushing ∧ after.past = [] ∧ after.future = []

namespace Change

variable {flushing : Prop} {doing : Doing} {counter : Nat} {before after after' : ResourceEditStack} {side : Side}

theorem of_rests (h : doing.Rests) (hafter : (after.past = before.past ∧ after.future = before.future) ∨
    (∃ side toRemove, doing.splits side toRemove ∧ SplitOff side toRemove counter before after) ∨
      flushing ∧ after.past = [] ∧ after.future = []) : Change flushing doing counter before after :=
  ⟨fun side element hmoves => absurd hmoves (h.1 side element), fun element hpushes => absurd hpushes (h.2 element), fun _ => hafter⟩

theorem same (h : doing.Rests) (hpast : after.past = before.past) (hfuture : after.future = before.future) :
    Change flushing doing counter before after := of_rests h (.inl ⟨hpast, hfuture⟩)

theorem of_moves (hmoves : ∀ side' element', doing.moves side' element' ↔ side' = side ∧ element' = element)
    (hpushes : ∀ element, ¬ doing.pushes element) (hclosest : before.getClosest side = some element) :
    Change flushing doing counter before (before.move side element) := by
  refine ⟨fun side' element' h => ?_, fun element' h => absurd h (hpushes element'), fun h => ?_⟩
  · obtain ⟨rfl, rfl⟩ := (hmoves side' element').mp h
    exact ResourceEditStack.moved_move hclosest
  · exact absurd ((hmoves side element).mpr ⟨rfl, rfl⟩) (h.1 side element)

theorem congr (h : Change flushing doing counter before after) (hpast : after'.past = after.past)
    (hfuture : after'.future = after.future) : Change flushing doing counter before after' := by
  have helements := ResourceEditStack.elements_congr hpast hfuture
  refine ⟨fun side element hmoves => ?_, fun element hpushes => ?_, fun hrests => ?_⟩
  · have hmoved := h.moved side element hmoves
    exact ⟨by rw [helements]; exact hmoved.leaves, by rw [helements]; exact hmoved.arrives⟩
  · rw [hpast, hfuture]
    exact h.pushed element hpushes
  · rw [hpast, hfuture]
    refine (h.rests hrests).imp_right (.imp_left ?_)
    rintro ⟨side, toRemove, hsplits, hworkspace, hreplaced, hother⟩
    exact ⟨side, toRemove, hsplits, hworkspace, by rw [helements]; exact hreplaced, by rw [helements]; exact hother⟩

theorem split {toRemove : StackElement} {individualMap : String → Option StackElement} (side : Side) (hrests : doing.Rests)
    (hsplits : doing.splits side toRemove) (hworkspace : toRemove.type = .workspace)
    (hfresh : ∀ element ∈ individualMap before.strResource, counter < element.id) :
    Change flushing doing counter before (before.splitWorkspaceElement side toRemove individualMap) := by
  have hside : (before.splitWorkspaceElement side toRemove individualMap).elements side =
      replaceLast toRemove (individualMap before.strResource) (before.elements side) := by cases side <;> rfl
  have hother : (before.splitWorkspaceElement side toRemove individualMap).elements side.other = before.elements side.other := by
    cases side <;> rfl
  by_cases hmem : toRemove ∈ before.elements side
  · obtain ⟨front, back, hbefore, hreplace⟩ := replaceLast_of_mem (individualMap before.strResource) hmem
    exact of_rests hrests (.inr (.inl ⟨side, toRemove, hsplits, hworkspace,
      ⟨front, _, back, hfresh, hbefore, hside.trans hreplace⟩, hother⟩))
  · have hkept := hside.trans (replaceLast_of_not_mem _ hmem)
    cases side with
    | past => exact same hrests hkept hother
    | future => exact same hrests hother hkept

theorem nodup (h : Change flushing doing counter before after) (hbefore : before.all.Nodup)
    (hknown : ∀ element ∈ before.all, element.id ≤ counter) : after.all.Nodup := by
  have hnew : ∀ element, counter < element.id → element ∉ before.all := fun element hfresh hmem =>
    absurd (hknown element hmem) (Nat.not_le.mpr hfresh)
  by_cases hmoves : ∃ side element, doing.moves side element
  · obtain ⟨side, element, hmoves⟩ := hmoves
    exact (h.moved side element hmoves).perm.nodup_iff.mpr hbefore
  by_cases hpushes : ∃ element, doing.pushes element
  · obtain ⟨element, hpushes⟩ := hpushes
    obtain ⟨hfresh, hpast, hfuture⟩ := h.pushed element hpushes
    rw [ResourceEditStack.all, hpast, hfuture, append_nil, ← concat_eq_append]
    exact (nodup_append.mp hbefore).1.concat fun hmem => hnew element hfresh (mem_append_left _ hmem)
  have hrests : doing.Rests := ⟨fun side element h => hmoves ⟨side, element, h⟩, fun element h => hpushes ⟨element, h⟩⟩
  rcases h.rests hrests with ⟨hpast, hfuture⟩ | ⟨side, toRemove, -, hsplit⟩ | ⟨-, hpast, hfuture⟩
  · rw [ResourceEditStack.all, hpast, hfuture]
    exact hbefore
  · obtain ⟨front, replacement, back, hfresh, hold, hreplaced⟩ := hsplit.replaced
    have hnew' : ∀ element ∈ replacement, element ∉ before.elements side ++ before.elements side.other := fun element helement hmem =>
      hnew element (hfresh element helement) ((before.all_perm side).mem_iff.mpr hmem)
    rw [(after.all_perm side).nodup_iff, hreplaced, hsplit.other]
    rw [(before.all_perm side).nodup_iff] at hbefore
    rw [hold] at hbefore hnew'
    cases replacement with
    | none =>
      rw [Option.toList_none, append_nil]
      refine hbefore.sublist (Sublist.append_right ?_ _)
      exact (sublist_cons_self _ _).append_left front
    | some element =>
      have hnot := hnew' element rfl
      simp only [Option.toList_some, append_assoc, nodup_append, nodup_cons, mem_append, mem_cons, cons_append] at hbefore hnot ⊢
      grind
  · rw [ResourceEditStack.all, hpast, hfuture]
    exact nodup_nil

end Change

namespace UndoRedoService

variable {s s' s'' : UndoRedoService} {flushing : Prop} {doing : Nat → Doing}

/-! ## Steps of the service -/

/-- The same elements on the stacks. -/
structure Still (s s' : UndoRedoService) : Prop where
  sane : Sane s'
  later : Later s s'
  stackAt : ∀ place, (s'.stackAt place).past = (s.stackAt place).past ∧ (s'.stackAt place).future = (s.stackAt place).future
  stackElementCounter : s'.stackElementCounter = s.stackElementCounter
  isValid : s'.isValid = s.isValid

theorem Quiet.still (h : Quiet s s') (hsane : Sane s) : Still s s' :=
  ⟨h.sane hsane, h.later, fun place => ⟨(h.stackAt place).past, (h.stackAt place).future⟩, h.stackElementCounter, h.isValid⟩

theorem Still.trans (h : Still s s') (h' : Still s' s'') : Still s s'' :=
  ⟨h'.sane, h.later.trans h'.later,
    fun place => ⟨(h'.stackAt place).1.trans (h.stackAt place).1, (h'.stackAt place).2.trans (h.stackAt place).2⟩,
    h'.stackElementCounter.trans h.stackElementCounter, h'.isValid.trans h.isValid⟩

theorem Still.quiet (h : Still s s') (h' : Quiet s' s'') : Still s s'' := h.trans (h'.still h.sane)

theorem removeElements_still (h : Sane s) (strResource : String) : Still s (s.removeElements strResource) := by
  rcases removeElements_cases s strResource with ⟨-, heq⟩ | ⟨place, hget, hremoved⟩
  · rw [heq]
    exact (Quiet.refl s).still h
  · exact ⟨hremoved.sane hget h, hremoved.later hget, fun place' => ⟨(hremoved.stackAt place').1, (hremoved.stackAt place').2.1⟩,
      hremoved.stackElementCounter, hremoved.isValid⟩

theorem removeAllElements_still (strResources : List String) :
    ∀ {s : UndoRedoService}, Sane s → Still s (removeAllElements strResources s) := by
  induction strResources with
  | nil => exact fun h => (Quiet.refl _).still h
  | cons strResource strResources ih =>
    intro s h
    have hfirst := removeElements_still h strResource
    exact hfirst.trans (ih hfirst.sane)

theorem onError_still (h : Sane s) (element : StackElement) : Still s (s.onError element) :=
  (removeAllElements_still element.strResources h).quiet (notify_quiet _ _)

/-- A step that does with each stack what it is to do with it. -/
structure Evolves (flushing : Prop) (doing : Nat → Doing) (s s' : UndoRedoService) : Prop where
  sane : Sane s'
  later : Later s s'
  change : ∀ place, Change flushing (doing place) s.stackElementCounter (s.stackAt place) (s'.stackAt place)
  isValid : s'.isValid = s.isValid

def Resting (doing : Nat → Doing) : Prop := ∀ place, (doing place).Rests

theorem Still.evolves (h : Still s s') (hrests : Resting doing) : Evolves flushing doing s s' :=
  ⟨h.sane, h.later, fun place => .same (hrests place) (h.stackAt place).1 (h.stackAt place).2, h.isValid⟩

theorem Evolves.still (h : Evolves flushing doing s s') (h' : Still s' s'') : Evolves flushing doing s s'' :=
  ⟨h'.sane, h.later.trans h'.later, fun place => (h.change place).congr (h'.stackAt place).1 (h'.stackAt place).2,
    h'.isValid.trans h.isValid⟩

theorem Evolves.quiet (h : Evolves flushing doing s s') (h' : Quiet s' s'') : Evolves flushing doing s s'' := h.still (h'.still h.sane)

theorem foldl_updateStack (f : ResourceEditStack → ResourceEditStack) (places : List (Nat × Nat)) :
    ∀ s : UndoRedoService, (places.map Prod.fst).Nodup →
      places.foldl (fun s entry => s.updateStack entry.1 f) s =
        { s with stackAt := fun place => if place ∈ places.map Prod.fst then f (s.stackAt place) else s.stackAt place } := by
  induction places with
  | nil => intro s _; simp
  | cons entry places ih =>
    intro s hnodup
    rw [map_cons, nodup_cons] at hnodup
    rw [foldl_cons, ih _ hnodup.2]
    have hstacks : (fun place => if place ∈ places.map Prod.fst then f ((s.updateStack entry.1 f).stackAt place)
        else (s.updateStack entry.1 f).stackAt place) =
        fun place => if place ∈ (entry :: places).map Prod.fst then f (s.stackAt place) else s.stackAt place := by
      funext place
      rw [updateStack_stackAt]
      by_cases heq : place = entry.1
      · subst heq
        rw [if_neg hnodup.1, if_pos rfl, if_pos (by simp)]
      · have hmem : place ∈ (entry :: places).map Prod.fst ↔ place ∈ places.map Prod.fst := by
          rw [map_cons, mem_cons, or_iff_right heq]
        simp only [heq, hmem, if_false]
    rw [hstacks]
    rfl

variable {place : Nat}

theorem Evolves.updateStack {f : ResourceEditStack → ResourceEditStack} (h : Sane s)
    (hused : 0 < place ∧ place < s.stackCounter)
    (hchange : Change flushing (doing place) s.stackElementCounter (s.stackAt place) (f (s.stackAt place)))
    (hothers : ∀ place', place' ≠ place → (doing place').Rests)
    (hstr : (f (s.stackAt place)).strResource = (s.stackAt place).strResource)
    (hversion : (s.stackAt place).versionId ≤ (f (s.stackAt place)).versionId)
    (hmem : ∀ element ∈ (f (s.stackAt place)).all, element ∈ (s.stackAt place).all ∨ s.Welcome place element) :
    Evolves flushing doing s (s.updateStack place f) := by
  refine ⟨h.updateStack hused hstr hversion (hchange.nodup (h.nodup place) (h.known place)) hmem, Later.updateStack hversion,
    fun place' => ?_, rfl⟩
  rw [updateStack_stackAt]
  split
  · next heq =>
    subst heq
    exact hchange
  · next hne => exact .same (hothers place' hne) rfl rfl

section

variable (h : Sane s) (hpushes : ∀ place element, ¬ (doing place).pushes element)
include h hpushes

theorem move_evolves {side : Side}
    (hmoves : ∀ place' side' element', (doing place').moves side' element' ↔ place' = place ∧ side' = side ∧ element' = element)
    (hclosest : (s.stackAt place).getClosest side = some element) :
    Evolves flushing doing s (s.updateStack place fun stack => stack.move side element) := by
  refine .updateStack h (h.used (ResourceEditStack.mem_of_getClosest hclosest)) ?_ (fun place' hne => ?_)
    ResourceEditStack.move_strResource ?_ fun _ hmem => .inl ((ResourceEditStack.moved_move hclosest).perm.mem_iff.mp hmem)
  · refine .of_moves (fun side' element' => ?_) (hpushes place) hclosest
    rw [hmoves, eq_self_iff_true, true_and]
  · exact ⟨fun side' element' hm => hne ((hmoves place' side' element').mp hm).1, hpushes place'⟩
  · rw [ResourceEditStack.move_versionId]
    exact Nat.le_add_right _ _

theorem moveAndInvoke_evolves {direction : Direction}
    (hmoves : ∀ place' side' element', (doing place').moves side' element' ↔
      place' = place ∧ side' = direction.side ∧ element' = element)
    (hclosest : (s.stackAt place).getClosest direction.side = some element) :
    Evolves flushing doing s (s.moveAndInvoke direction place element) :=
  (move_evolves h hpushes hmoves hclosest).quiet (safeInvokeWithLocks_quiet ..)

omit h hpushes in
/-- `_resourceUndo` and `_resourceRedo` move the element without waiting. -/
structure AtOnce (s : UndoRedoService) (place : Nat) (element : StackElement) : Prop where
  valid : s.isValid element = true
  unlocked : (s.stackAt place).locked = false
  unprepared : element.actual.prepareUndoRedo = false

theorem resourceUndoRedo_evolves {direction : Direction} (htype : element.type = .resource)
    (hmoves : ∀ place' side' element', (doing place').moves side' element' ↔
      (place' = place ∧ side' = direction.side ∧ element' = element) ∧ s.AtOnce place element)
    (hclosest : (s.stackAt place).getClosest direction.side = some element)
    (hflush : s.isValid element = false → flushing) :
    Evolves flushing doing s (s.resourceUndoRedo direction place element) := by
  have hrests : ¬ s.AtOnce place element → Resting doing := fun hnot place' =>
    ⟨fun side' element' hm => hnot ((hmoves place' side' element').mp hm).2, hpushes place'⟩
  unfold resourceUndoRedo
  split
  · next hinvalid =>
    have hinvalid : s.isValid element = false := by simpa using hinvalid
    have hresting : Resting doing := hrests fun hat => by simp [hat.valid] at hinvalid
    exact .updateStack h (h.used (ResourceEditStack.mem_of_getClosest hclosest))
      (.of_rests (hresting place) (.inr (.inr ⟨hflush hinvalid, rfl, rfl⟩))) (fun place' _ => hresting place') rfl
      (Nat.le_add_right _ _) fun _ hmem => by cases hmem
  · next hvalid =>
    split
    · next hlocked => exact ((notify_quiet ..).still h).evolves (hrests fun hat => by simp [hat.unlocked] at hlocked)
    · next hunlocked =>
      split
      · next hprepare =>
        exact Still.evolves (Quiet.still (schedule_quiet htype) h) (hrests fun hat => by simp [hat.unprepared] at hprepare)
      · next hunprepared =>
        have hat : s.AtOnce place element := ⟨by simpa using hvalid, by simpa using hunlocked, by simpa using hunprepared⟩
        exact moveAndInvoke_evolves h hpushes (fun place' side' element' => (hmoves place' side' element').trans (and_iff_left hat)) hclosest

end

end UndoRedoService

end TongjiCode.UndoRedo
