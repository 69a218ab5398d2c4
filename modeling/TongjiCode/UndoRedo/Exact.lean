import TongjiCode.UndoRedo.Pushing

/-!
# Undo and redo move the closest element

`Action.doing` says, from the state before a step, what the step is to do with each stack: the element that changes
its side, the one that is pushed and the one that may be split.  Every step does just that (`step_evolves`), so no
element is lost or doubled by an undo or a redo.  There is one exception: `_resourceUndo` and `_resourceRedo` move
the element they have got before the preparation of the element, without another look at the stack when it is over.
-/

open List

namespace TongjiCode.UndoRedo

namespace UndoRedoService

variable {s s' : UndoRedoService} {flushing : Prop} {doing : Nat → Doing}

/-! ## Pushing -/

theorem distinctResources_nodup (resources : List Uri) : ∀ seen : List String,
    ((distinctResources resources seen).map Uri.key).Nodup ∧
      ∀ strResource ∈ (distinctResources resources seen).map Uri.key, strResource ∉ seen := by
  induction resources with
  | nil => intro seen; simp [distinctResources]
  | cons resource resources ih =>
    intro seen
    rw [distinctResources]
    split
    · exact ih seen
    · next hnot =>
      obtain ⟨hnodup, hseen⟩ := ih (resource.key :: seen)
      rw [map_cons, nodup_cons]
      refine ⟨⟨fun hmem => hseen _ hmem mem_cons_self, hnodup⟩, fun strResource hmem => ?_⟩
      rcases mem_cons.mp hmem with rfl | hmem
      · exact hnot
      · exact fun hold => hseen strResource hmem (mem_cons_of_mem _ hold)

theorem newStackElement_distinct (s : UndoRedoService) (element : UndoRedoElement) (groupId sourceId : Nat) :
    (s.newStackElement element groupId sourceId).strResources.Nodup := by
  cases element with
  | resource element => exact nodup_singleton _
  | workspace element => exact (distinctResources_nodup element.resources []).1

/-- The resources of the element are those the loop of `_pushElement` goes through. -/
theorem newStackElement_resources (s : UndoRedoService) (element : UndoRedoElement) (groupId sourceId : Nat) :
    ((s.newStackElement element groupId sourceId).resourceLabels.zip
      (s.newStackElement element groupId sourceId).strResources).map Prod.snd =
      (s.newStackElement element groupId sourceId).strResources := by
  refine map_snd_zip ?_
  show (List.map Uri.key _).length ≤ (List.map Uri.label _).length
  exact Nat.le_of_eq (by rw [length_map, length_map])

/-- The service with the counters that a push of an element leaves. -/
def counted (s : UndoRedoService) (groupId sourceId : Nat) : UndoRedoService :=
  { s with
    stackElementCounter := s.stackElementCounter + 1
    groupOrders := (nextOrder s.groupOrders groupId).2
    sourceOrders := (nextOrder s.sourceOrders sourceId).2 }

theorem counted_sane (h : Sane s) (groupId sourceId : Nat) : Sane (s.counted groupId sourceId) :=
  ⟨h.nodup, fun place element hmem => Nat.le_succ_of_le (h.known place element hmem), h.distinct, h.missing, h.counter, h.unused,
    h.inj, h.bounds, h.home, h.tasks⟩

theorem pushElement_pushes (h : Sane s) (element : UndoRedoElement) (groupId sourceId : Nat) :
    Pushes (s.counted groupId sourceId) (s.newStackElement element groupId sourceId)
      (s.newStackElement element groupId sourceId).strResources (s.pushElement element groupId sourceId) := by
  have hresources := newStackElement_resources s element groupId sourceId
  have hdistinct := newStackElement_distinct s element groupId sourceId
  have hpushes := pushStackElement_pushes hdistinct _ (counted_sane h groupId sourceId) (by rw [hresources]; exact hdistinct)
    (fun strResource hmem => by rw [hresources] at hmem; exact hmem) (Nat.le_refl _) fun _ _ place _ hmem =>
      absurd (h.known place _ hmem) (Nat.not_succ_le_self _)
  rw [hresources] at hpushes
  exact hpushes

/-- A new element is pushed on the stacks that its resources have then. -/
def pushDoing (s : UndoRedoService) (element : UndoRedoElement) (groupId sourceId place : Nat) : Doing where
  pushes stackElement := stackElement = s.newStackElement element groupId sourceId ∧
    ∃ strResource ∈ stackElement.strResources, (s.pushElement element groupId sourceId).get strResource = some place

theorem pushElement_evolves (h : Sane s) (element : UndoRedoElement) (groupId sourceId : Nat) :
    Evolves flushing (s.pushDoing element groupId sourceId) s (s.pushElement element groupId sourceId) := by
  have hpushes := pushElement_pushes h element groupId sourceId
  refine ⟨hpushes.sane, ⟨hpushes.later.versions, hpushes.later.gets⟩, fun place => ⟨fun _ _ => False.elim, ?_, fun hrests => ?_⟩,
    hpushes.isValid⟩
  · rintro stackElement ⟨rfl, strResource, hmem, hget⟩
    obtain ⟨place', hget', hpast, hfuture, -⟩ := hpushes.placed strResource hmem
    obtain rfl := Option.some.inj (hget.symm.trans hget')
    exact ⟨Nat.lt_succ_self _, hpast, hfuture⟩
  · exact .inl (hpushes.others place fun strResource hmem hget => hrests.2 _ ⟨rfl, strResource, hmem, hget⟩)

/-! ## Splitting -/

variable {side : Side} {element : StackElement} {ignoreResources : Option RemovedResources}

section

variable (h : Sane s) (hrests : Resting doing) (hworkspace : element.type = .workspace) (hdistinct : element.strResources.Nodup)
include h hrests hworkspace hdistinct

section

variable (hsplits : ∀ place, (doing place).splits side element)
include hsplits

theorem splitWorkspaceElement_evolves (parts : List ResourceUndoRedoElement) :
    Evolves flushing doing s (s.splitWorkspaceElement side element parts ignoreResources).1 := by
  have hsplit : Splits _ side element _ ignoreResources _ _ _ := splitWorkspaceElement_splits h hworkspace hdistinct parts
  refine ⟨hsplit.sane, ⟨hsplit.later.versions, hsplit.later.gets⟩, fun place => ?_, hsplit.isValid⟩
  rcases hsplit.stackAt place with heq | heq
  · rw [heq]
    exact .same (hrests place) rfl rfl
  · rw [heq]
    exact .split side (hrests place) (hsplits place) hworkspace fun part hpart => (individualMap_parts s parts).fresh hpart

theorem tryToSplit_evolves (strResource message : String) :
    Evolves flushing doing s (s.tryToSplit side strResource element ignoreResources message) := by
  unfold tryToSplit
  split
  · next parts _ =>
    have hsplit : Evolves flushing doing s (s.splitWorkspaceElement side element parts ignoreResources).1 :=
      splitWorkspaceElement_evolves h hrests hworkspace hdistinct hsplits parts
    split
    · next s' heq =>
      rw [heq] at hsplit
      refine (hsplit.quiet (notify_quiet _ _)).quiet (schedule_quiet ?_)
      cases side <;> trivial
    · next s' heq =>
      rw [heq] at hsplit
      exact hsplit
  · exact ((removeAllElements_still element.strResources h).quiet (notify_quiet _ _)).evolves hrests

end

variable {strResource : String} {editStackSnapshot : EditStackSnapshot} {checkInvalidated : Bool}

theorem checkWorkspace_evolves
    (hsplits : s.verificationError side element editStackSnapshot checkInvalidated ≠ none → ∀ place, (doing place).splits side element)
    (hcheck : s.checkWorkspace side strResource element editStackSnapshot checkInvalidated = some s') :
    Evolves flushing doing s s' := by
  obtain ⟨⟨ignoreResources, message⟩, herror, rfl⟩ := Option.map_eq_some_iff.mp hcheck
  exact tryToSplit_evolves h hrests hworkspace hdistinct (hsplits (by simp [herror])) strResource message

end

variable {strResource : String} {editStackSnapshot : EditStackSnapshot} {checkInvalidated : Bool}

theorem inTheWay_eq_nil {isBad : ResourceEditStack → Bool} (h : ¬ (s.inTheWay editStackSnapshot isBad).length > 0) :
    ∀ entry ∈ editStackSnapshot, isBad (s.stackAt entry.1) = false := by
  intro entry hentry
  have hnil : s.inTheWay editStackSnapshot isBad = [] := length_eq_zero_iff.mp (by omega)
  unfold inTheWay at hnil
  rw [map_eq_nil_iff, filter_eq_nil_iff] at hnil
  simpa using hnil entry hentry

theorem checkWorkspace_none (hcheck : s.checkWorkspace side strResource element editStackSnapshot checkInvalidated = none) :
    s.removedResources element = none ∧ (∀ entry ∈ editStackSnapshot, (s.stackAt entry.1).getClosest side = some element) ∧
      ∀ entry ∈ editStackSnapshot, (s.stackAt entry.1).versionId = entry.2 := by
  have hcheck := Option.map_eq_none_iff.mp hcheck
  unfold verificationError at hcheck
  split at hcheck
  · cases hcheck
  · next hremoved =>
    split at hcheck
    · cases hcheck
    · dsimp only at hcheck
      split at hcheck
      · cases hcheck
      · next hchanged =>
        split at hcheck
        · cases hcheck
        · split at hcheck
          · cases hcheck
          · next hvalid =>
            refine ⟨hremoved, fun entry hentry => ?_, fun entry hentry => ?_⟩
            · simpa using inTheWay_eq_nil hchanged entry hentry
            · simp only [Bool.not_eq_true', Bool.not_eq_false, snapshotIsValid, all_eq_true, decide_eq_true_eq] at hvalid
              exact hvalid entry hentry

/-! ## Undo and redo of workspace elements -/

theorem getAffectedEditStacks_ok (s : UndoRedoService) (element : StackElement) :
    List.Forall₂ s.Entry element.strResources (s.getAffectedEditStacks element) := by
  refine forall₂_map_right_iff.mpr (forall₂_same.mpr fun strResource _ => ?_)
  cases hget : s.get strResource with
  | none => exact .inl rfl
  | some place => exact .inr ⟨Nat.le_refl _, fun _ => hget⟩

section

variable (h : Sane s) (hrests : Resting doing) (hworkspace : element.type = .workspace) (hdistinct : element.strResources.Nodup)
include h hrests hworkspace hdistinct

theorem workspaceUndo_evolves (undoConfirmed : Bool)
    (hsplits : s.verificationError .past element (s.getAffectedEditStacks element) false ≠ none →
      ∀ place, (doing place).splits .past element) :
    Evolves flushing doing s (s.workspaceUndo strResource element undoConfirmed) := by
  unfold workspaceUndo
  dsimp only
  split
  · next hcheck => exact checkWorkspace_evolves h hrests hworkspace hdistinct hsplits hcheck
  · have hok := getAffectedEditStacks_ok s element
    unfold confirmAndExecuteWorkspaceUndo
    split
    · exact Still.evolves (Quiet.still (schedule_quiet ⟨hworkspace, hdistinct, hok⟩) h) hrests
    · exact Still.evolves (Quiet.still (schedule_quiet ⟨hworkspace, hdistinct, hok⟩) h) hrests

theorem workspaceRedo_evolves
    (hsplits : s.verificationError .future element (s.getAffectedEditStacks element) false ≠ none →
      ∀ place, (doing place).splits .future element) :
    Evolves flushing doing s (s.workspaceRedo strResource element) := by
  unfold workspaceRedo
  dsimp only
  split
  · next hcheck => exact checkWorkspace_evolves h hrests hworkspace hdistinct hsplits hcheck
  · exact Still.evolves (Quiet.still (schedule_quiet ⟨hworkspace, hdistinct, getAffectedEditStacks_ok s element⟩) h) hrests

end

variable {strResources : List String}

theorem checked_gets (h : Sane s) (hentries : List.Forall₂ s.Entry strResources editStackSnapshot)
    (hclosest : ∀ entry ∈ editStackSnapshot, (s.stackAt entry.1).getClosest side = some element)
    (hversions : ∀ entry ∈ editStackSnapshot, (s.stackAt entry.1).versionId = entry.2) :
    List.Forall₂ (fun strResource entry => s.get strResource = some entry.1) strResources editStackSnapshot := by
  induction hentries with
  | nil => exact .nil
  | @cons strResource entry strResources entries hentry _ ih =>
    refine .cons ?_ (ih (fun entry' hmem => hclosest entry' (mem_cons_of_mem _ hmem))
      fun entry' hmem => hversions entry' (mem_cons_of_mem _ hmem))
    rcases hentry with hzero | ⟨-, hget⟩
    · have hmissing := ResourceEditStack.mem_of_getClosest (hclosest entry mem_cons_self)
      rw [hzero, h.missing] at hmissing
      cases hmissing
    · exact hget (hversions entry mem_cons_self)

theorem exists_strResource
    (hgets : List.Forall₂ (fun strResource (entry : Nat × Nat) => s.get strResource = some entry.1) strResources editStackSnapshot)
    {entry : Nat × Nat} (hentry : entry ∈ editStackSnapshot) :
    ∃ strResource ∈ strResources, s.get strResource = some entry.1 := by
  induction hgets with
  | nil => cases hentry
  | cons hfirst _ ih =>
    rcases mem_cons.mp hentry with rfl | hentry
    · exact ⟨_, mem_cons_self, hfirst⟩
    · obtain ⟨strResource, hmem, hget⟩ := ih hentry
      exact ⟨strResource, mem_cons_of_mem _ hmem, hget⟩

theorem exists_entry
    (hgets : List.Forall₂ (fun strResource (entry : Nat × Nat) => s.get strResource = some entry.1) strResources editStackSnapshot)
    {strResource : String} (hstr : strResource ∈ strResources) :
    ∃ entry ∈ editStackSnapshot, s.get strResource = some entry.1 := by
  induction hgets with
  | nil => cases hstr
  | cons hfirst _ ih =>
    rcases mem_cons.mp hstr with rfl | hstr
    · exact ⟨_, mem_cons_self, hfirst⟩
    · obtain ⟨entry, hmem, hget⟩ := ih hstr
      exact ⟨entry, mem_cons_of_mem _ hmem, hget⟩

theorem places_nodup (h : Sane s) (hdistinct : strResources.Nodup)
    (hgets : List.Forall₂ (fun strResource (entry : Nat × Nat) => s.get strResource = some entry.1) strResources editStackSnapshot) :
    (editStackSnapshot.map Prod.fst).Nodup := by
  induction hgets with
  | nil => exact nodup_nil
  | cons hget hgets ih =>
    rw [nodup_cons] at hdistinct
    rw [map_cons, nodup_cons]
    refine ⟨fun hmem => ?_, ih hdistinct.2⟩
    obtain ⟨entry', hentry', heq⟩ := mem_map.mp hmem
    obtain ⟨strResource', hmem', hget'⟩ := exists_strResource hgets hentry'
    rw [heq] at hget'
    exact hdistinct.1 (h.inj hget hget' ▸ hmem')

theorem moveAll_sane (side : Side) (element : StackElement) (editStackSnapshot : EditStackSnapshot) :
    ∀ {s : UndoRedoService}, Sane s → (editStackSnapshot.map Prod.fst).Nodup →
      (∀ entry ∈ editStackSnapshot, (s.stackAt entry.1).getClosest side = some element) →
      Sane (editStackSnapshot.foldl (fun s entry => s.updateStack entry.1 fun stack => stack.move side element) s) ∧
        Later s (editStackSnapshot.foldl (fun s entry => s.updateStack entry.1 fun stack => stack.move side element) s) := by
  induction editStackSnapshot with
  | nil => exact fun h _ _ => ⟨h, .refl _⟩
  | cons entry editStackSnapshot ih =>
    intro s h hnodup hclosest
    rw [map_cons, nodup_cons] at hnodup
    let doing (place : Nat) : Doing := { moves := fun side' element' => place = entry.1 ∧ side' = side ∧ element' = element }
    have hfirst : Evolves False doing s (s.updateStack entry.1 fun stack => stack.move side element) :=
      move_evolves h (fun _ _ => id) (fun _ _ _ => Iff.rfl) (hclosest entry mem_cons_self)
    obtain ⟨hsane, hlater⟩ := ih hfirst.sane hnodup.2 fun entry' hentry' => by
      rw [updateStack_stackAt_of_ne fun heq => hnodup.1 (mem_map.mpr ⟨entry', hentry', heq⟩)]
      exact hclosest entry' (mem_cons_of_mem _ hentry')
    exact ⟨hsane, hfirst.later.trans hlater⟩

theorem moveAll_evolves (h : Sane s) (hpushes : ∀ place element, ¬ (doing place).pushes element)
    (hmoves : ∀ place side' element', (doing place).moves side' element' ↔
      place ∈ editStackSnapshot.map Prod.fst ∧ side' = side ∧ element' = element)
    (hnodup : (editStackSnapshot.map Prod.fst).Nodup)
    (hclosest : ∀ entry ∈ editStackSnapshot, (s.stackAt entry.1).getClosest side = some element) :
    Evolves flushing doing s
      (editStackSnapshot.foldl (fun s entry => s.updateStack entry.1 fun stack => stack.move side element) s) := by
  obtain ⟨hsane, hlater⟩ := moveAll_sane side element editStackSnapshot h hnodup hclosest
  refine ⟨hsane, hlater, fun place => ?_, ?_⟩
  · rw [foldl_updateStack _ _ _ hnodup]
    dsimp only
    split
    · next hmem =>
      have hplace := fun side' element' => (hmoves place side' element').trans (and_iff_right hmem)
      obtain ⟨entry, hentry, rfl⟩ := mem_map.mp hmem
      exact .of_moves hplace (hpushes _) (hclosest entry hentry)
    · next hnot => exact .same ⟨fun side' element' hm => hnot ((hmoves place side' element').mp hm).1, hpushes place⟩ rfl rfl
  · rw [foldl_updateStack _ _ _ hnodup]

/-- The element moves on all its stacks if nothing stands in the way; otherwise it may be split. -/
def executeDoing (s : UndoRedoService) (direction : Direction) (element : StackElement) (editStackSnapshot : EditStackSnapshot)
    (place : Nat) : Doing where
  moves side' element' := (place ∈ editStackSnapshot.map Prod.fst ∧ side' = direction.side ∧ element' = element) ∧
    s.verificationError direction.side element editStackSnapshot true = none
  splits side' element' := side' = direction.side ∧ element' = element ∧
    s.verificationError direction.side element editStackSnapshot true ≠ none

theorem executeWorkspace_evolves {direction : Direction} (h : Sane s)
    (htask : s.TaskOk (.prepareWorkspace direction strResource element editStackSnapshot)) :
    Evolves flushing (s.executeDoing direction element editStackSnapshot) s
      (s.executeWorkspace direction strResource element editStackSnapshot) := by
  obtain ⟨hworkspace, hdistinct, hentries⟩ := htask
  unfold executeWorkspace
  split
  · next s' hcheck =>
    have herror : s.verificationError direction.side element editStackSnapshot true ≠ none := by
      obtain ⟨error, herror, -⟩ := Option.map_eq_some_iff.mp hcheck
      rw [herror]
      exact Option.some_ne_none error
    exact checkWorkspace_evolves h (fun _ => ⟨fun _ _ hm => herror hm.2, fun _ => id⟩) hworkspace hdistinct
      (fun _ _ => ⟨rfl, rfl, herror⟩) hcheck
  · next hcheck =>
    obtain ⟨-, hclosest, hversions⟩ := checkWorkspace_none hcheck
    have hnodup := places_nodup h hdistinct (checked_gets h hentries hclosest hversions)
    have hmoves := fun place side' element' => and_iff_left (a := place ∈ editStackSnapshot.map Prod.fst ∧
      side' = direction.side ∧ element' = element) (Option.map_eq_none_iff.mp hcheck)
    exact (moveAll_evolves h (fun _ _ => id) hmoves hnodup hclosest).quiet (safeInvokeWithLocks_quiet ..)

/-! ## Undo and redo -/

def AsksFirst (sourceId : Nat) (element : StackElement) : Direction → Prop
  | .undo undoConfirmed => (element.sourceId ≠ sourceId ∨ element.actual.confirmBeforeUndo) ∧ !undoConfirmed
  | .redo => False

/-- A call of `_undo` or `_redo` goes on with the closest element of the resource: no other element of its group comes first,
and it needs no confirmation. -/
structure Reached (s : UndoRedoService) (direction : Direction) (sourceId : Nat) (strResource : String) (place : Nat)
    (element : StackElement) : Prop where
  get : s.get strResource = some place
  closest : (s.stackAt place).getClosest direction.side = some element
  first : s.findBefore direction element = none
  confirmed : ¬ AsksFirst sourceId element direction

theorem Reached.unique {direction : Direction} {sourceId place place' : Nat} {element' : StackElement}
    (h : s.Reached direction sourceId strResource place element) (hget : s.get strResource = some place')
    (hclosest : (s.stackAt place').getClosest direction.side = some element') : place = place' ∧ element = element' := by
  obtain rfl := Option.some.inj (h.get.symm.trans hget)
  exact ⟨rfl, Option.some.inj (h.closest.symm.trans hclosest)⟩

/-- An undo or a redo moves the closest element of the resource, if it is on this resource alone and nothing has to be waited
for; an element on several ones may be split. -/
def callDoing (s : UndoRedoService) (direction : Direction) (sourceId : Nat) (strResource : String) (place : Nat) : Doing where
  moves side element := side = direction.side ∧ s.Reached direction sourceId strResource place element ∧
    element.type = .resource ∧ s.AtOnce place element
  splits side element := side = direction.side ∧ element.type = .workspace ∧
    (∃ place, s.Reached direction sourceId strResource place element) ∧
      s.verificationError side element (s.getAffectedEditStacks element) false ≠ none

theorem callDoing_rests {direction : Direction} {sourceId : Nat}
    (h : ∀ place element, s.Reached direction sourceId strResource place element → element.type = .workspace) :
    Resting (s.callDoing direction sourceId strResource) := by
  refine fun place => ⟨fun side element hmoves => ?_, fun _ => id⟩
  obtain ⟨-, hreached, htype, -⟩ := hmoves
  rw [h place element hreached] at htype
  cases htype

theorem callDoing_moves {direction : Direction} {sourceId place : Nat} (h : s.Reached direction sourceId strResource place element)
    (htype : element.type = .resource) (place' : Nat) (side' : Side) (element' : StackElement) :
    (s.callDoing direction sourceId strResource place').moves side' element' ↔
      (place' = place ∧ side' = direction.side ∧ element' = element) ∧ s.AtOnce place element := by
  constructor
  · rintro ⟨hside, hreached, -, hat⟩
    obtain ⟨rfl, rfl⟩ := hreached.unique h.get h.closest
    exact ⟨⟨rfl, hside, rfl⟩, hat⟩
  · rintro ⟨⟨rfl, hside, rfl⟩, hat⟩
    exact ⟨hside, h, htype, hat⟩

theorem evolves_quiet (h : Sane s) {direction : Direction} {sourceId : Nat} {s' : UndoRedoService}
    (hnot : ∀ place element, ¬ s.Reached direction sourceId strResource place element) (hq : Quiet s s') :
    Evolves flushing (s.callDoing direction sourceId strResource) s s' :=
  (hq.still h).evolves (callDoing_rests fun place element hreached => absurd hreached (hnot place element))

section

variable (h : Sane s) (hflush : (∃ element, s.isValid element = false) → flushing)
include h hflush

theorem undoResource_evolves (sourceId : Nat) (undoConfirmed : Bool) :
    Evolves flushing (s.callDoing (.undo undoConfirmed) sourceId strResource) s
      (s.undoResource strResource sourceId undoConfirmed) := by
  unfold undoResource
  split
  · next hget => exact evolves_quiet h (fun _ _ hreached => by cases hget.symm.trans hreached.get) (.refl s)
  · next place hget =>
    split
    · next hclosest =>
      refine evolves_quiet h (fun place' _ hreached => ?_) (.refl s)
      obtain rfl := Option.some.inj (hget.symm.trans hreached.get)
      cases hclosest.symm.trans hreached.closest
    · next element hclosest =>
      have hunique := fun place' element' (hreached : s.Reached (.undo undoConfirmed) sourceId strResource place' element') =>
        hreached.unique hget hclosest
      split
      · next hbefore =>
        refine evolves_quiet h (fun place' element' hreached => ?_) (schedule_quiet trivial)
        obtain ⟨rfl, rfl⟩ := hunique place' element' hreached
        cases hbefore.symm.trans hreached.first
      · next hfirst =>
        split
        · next hasks =>
          refine evolves_quiet h (fun place' element' hreached => ?_) (schedule_quiet trivial)
          obtain ⟨rfl, rfl⟩ := hunique place' element' hreached
          exact hreached.confirmed hasks
        · next hconfirmed =>
          have hreached : s.Reached (.undo undoConfirmed) sourceId strResource place element := ⟨hget, hclosest, hfirst, hconfirmed⟩
          split
          · next hworkspace =>
            refine workspaceUndo_evolves h (callDoing_rests fun place' element' hreached' => ?_) hworkspace
              (h.distinct place element (ResourceEditStack.mem_of_getClosest hclosest)) _
              fun herror _ => ⟨rfl, hworkspace, ⟨place, hreached⟩, herror⟩
            rw [(hunique place' element' hreached').2, hworkspace]
          · next hresource =>
            exact resourceUndoRedo_evolves h (fun _ _ => id) hresource (callDoing_moves hreached hresource) hclosest
              fun hinvalid => hflush ⟨element, hinvalid⟩

theorem redoResource_evolves (sourceId : Nat) :
    Evolves flushing (s.callDoing .redo sourceId strResource) s (s.redoResource strResource) := by
  unfold redoResource
  split
  · next hget => exact evolves_quiet h (fun _ _ hreached => by cases hget.symm.trans hreached.get) (.refl s)
  · next place hget =>
    split
    · next hclosest =>
      refine evolves_quiet h (fun place' _ hreached => ?_) (.refl s)
      obtain rfl := Option.some.inj (hget.symm.trans hreached.get)
      cases hclosest.symm.trans hreached.closest
    · next element hclosest =>
      have hunique := fun place' element' (hreached : s.Reached .redo sourceId strResource place' element') =>
        hreached.unique hget hclosest
      split
      · next hbefore =>
        refine evolves_quiet h (fun place' element' hreached => ?_) (schedule_quiet trivial)
        obtain ⟨rfl, rfl⟩ := hunique place' element' hreached
        cases hbefore.symm.trans hreached.first
      · next hfirst =>
        have hreached : s.Reached .redo sourceId strResource place element := ⟨hget, hclosest, hfirst, id⟩
        split
        · next hworkspace =>
          refine workspaceRedo_evolves h (callDoing_rests fun place' element' hreached' => ?_) hworkspace
            (h.distinct place element (ResourceEditStack.mem_of_getClosest hclosest))
            fun herror _ => ⟨rfl, hworkspace, ⟨place, hreached⟩, herror⟩
          rw [(hunique place' element' hreached').2, hworkspace]
        · next hresource =>
          exact resourceUndoRedo_evolves h (fun _ _ => id) hresource (callDoing_moves hreached hresource) hclosest
            fun hinvalid => hflush ⟨element, hinvalid⟩

omit h hflush in
/-- What a task that goes on is to do.  An element that had something to prepare moves now; the user may have asked for a split. -/
def taskDoing (s : UndoRedoService) : Task → Answer → Nat → Doing
  | .undo strResource sourceId undoConfirmed, _, place => s.callDoing (.undo undoConfirmed) sourceId strResource place
  | .redo strResource, _, place => s.callDoing .redo 0 strResource place
  | .confirmWorkspaceUndo _ element _, .choice .this, _ => { splits := fun side' element' => side' = .past ∧ element' = element }
  | .confirmWorkspaceUndo _ element editStackSnapshot, .choice .all, _ =>
    { splits := fun side' element' => side' = .past ∧ element' = element ∧
        s.verificationError .past element editStackSnapshot false ≠ none }
  | .prepareWorkspace direction _ element editStackSnapshot, .resolved, place => s.executeDoing direction element editStackSnapshot place
  | .prepareResource direction editStack element, .resolved, place =>
    { moves := fun side' element' => place = editStack ∧ side' = direction.side ∧ element' = element }
  | _, _, _ => {}

omit h hflush in
/-- The element of a preparation that is over is still the closest one of its stack. -/
def Task.Prompt (s : UndoRedoService) : Task → Answer → Prop
  | .prepareResource direction place element, .resolved => (s.stackAt place).getClosest direction.side = some element
  | _, _ => True

theorem resume_evolves {task : Task} {answer : Answer} (htask : s.TaskOk task) (hprompt : Task.Prompt s task answer) :
    Evolves flushing (s.taskDoing task answer) s (s.resume task answer) := by
  unfold resume
  split
  · exact undoResource_evolves h hflush _ _
  · exact redoResource_evolves h hflush 0
  · exact Still.evolves (Quiet.still (schedule_quiet trivial) h) fun _ => ⟨fun _ _ => id, fun _ => id⟩
  · next strResource element editStackSnapshot =>
    have hsplits : ∀ place, (s.taskDoing (.confirmWorkspaceUndo strResource element editStackSnapshot) (.choice .this) place).splits
        .past element := fun _ => ⟨rfl, rfl⟩
    have hsplit : Evolves flushing (s.taskDoing (.confirmWorkspaceUndo strResource element editStackSnapshot) (.choice .this)) s
        (s.splitWorkspaceElement .past element (element.actual.split.getD []) none).1 :=
      splitWorkspaceElement_evolves h (fun _ => ⟨fun _ _ => id, fun _ => id⟩) htask.1 htask.2.1 hsplits _
    split
    · next s' heq =>
      rw [heq] at hsplit
      exact hsplit.quiet (schedule_quiet trivial)
    · next s' heq =>
      rw [heq] at hsplit
      exact hsplit
  · next strResource element editStackSnapshot =>
    have hrests : Resting (s.taskDoing (.confirmWorkspaceUndo strResource element editStackSnapshot) (.choice .all)) :=
      fun _ => ⟨fun _ _ => id, fun _ => id⟩
    split
    · next hcheck =>
      exact checkWorkspace_evolves h hrests htask.1 htask.2.1 (fun herror _ => ⟨rfl, rfl, herror⟩) hcheck
    · exact Still.evolves (Quiet.still (schedule_quiet htask) h) hrests
  · exact executeWorkspace_evolves h htask
  · exact (onError_still h _).evolves fun _ => ⟨fun _ _ => id, fun _ => id⟩
  · exact moveAndInvoke_evolves h (fun _ _ => id) (fun _ _ _ => Iff.rfl) hprompt
  · exact Still.evolves (((setLocks_quiet _ _ s).trans (continueInGroup_quiet ..)).still h) fun _ => ⟨fun _ _ => id, fun _ => id⟩
  · have hlocks := setLocks_quiet ‹EditStackSnapshot› false s
    exact Still.evolves ((hlocks.still h).trans (onError_still (hlocks.sane h) _)) fun _ => ⟨fun _ _ => id, fun _ => id⟩
  · -- nothing comes of the other answers
    refine ((Quiet.refl s).still h).evolves fun place => ?_
    cases task <;> rcases answer with _ | (_ | _ | _) | _ | _ <;>
      first
        | exact ⟨fun _ _ => id, fun _ => id⟩
        | exact absurd rfl (by solve_by_elim)

end

/-! ## Runs -/

/-- `pushElement`, `undo`, `redo`, `removeElements` and what goes on with an answer. -/
def Action.isPlain : Action → Bool
  | .setElementsValidFlag .. | .restoreSnapshot .. => false
  | _ => true

/-- What a call with a source is to do: that of the resource that was found for it. -/
def sourceDoing (s : UndoRedoService) (direction : Direction) (sourceId : Nat) : Option (StackElement × String) → Nat → Doing
  | some (_, strResource) => if strResource = "" then fun _ => {} else s.callDoing direction sourceId strResource
  | none => fun _ => {}

/-- What each of the operations is to do with the stack at a place.  A task that goes on is no longer among the tasks. -/
def actionDoing (s : UndoRedoService) : Action → Nat → Doing
  | .pushElement element groupId sourceId => s.pushDoing element groupId sourceId
  | .undo strResource => s.callDoing (.undo false) 0 strResource
  | .undoSource sourceId => s.sourceDoing (.undo false) sourceId (s.findClosestUndoElementWithSource sourceId)
  | .redo strResource => s.callDoing .redo 0 strResource
  | .redoSource sourceId => s.sourceDoing .redo sourceId (s.findClosestRedoElementWithSource sourceId)
  | .resume index answer =>
    match s.tasks[index]? with
    | none => fun _ => {}
    | some task => { s with tasks := s.tasks.eraseIdx index }.taskDoing task answer
  | .removeElements _ | .setElementsValidFlag .. | .restoreSnapshot .. => fun _ => {}

def Action.Prompt (s : UndoRedoService) : Action → Prop
  | .resume index answer => ∀ task ∈ s.tasks[index]?, Task.Prompt s task answer
  | _ => True

def AllPrompt : UndoRedoService → List Action → Prop
  | _, [] => True
  | s, action :: actions => action.Prompt s ∧ AllPrompt (s.step action) actions

theorem Sane.erase (h : Sane s) (index : Nat) : Sane { s with tasks := s.tasks.eraseIdx index } :=
  ⟨h.nodup, h.known, h.distinct, h.missing, h.counter, h.unused, h.inj, h.bounds, h.home,
    fun task htask => h.tasks task (mem_of_mem_eraseIdx htask)⟩

section

variable (h : Sane s) (hflush : (∃ element, s.isValid element = false) → flushing)
include h hflush

theorem step_resume_evolves {index : Nat} {answer : Answer} (hprompt : Action.Prompt s (.resume index answer)) :
    Evolves flushing (s.actionDoing (.resume index answer)) s (s.step (.resume index answer)) := by
  simp only [actionDoing, step]
  cases htask : s.tasks[index]? with
  | none => exact ((Quiet.refl s).still h).evolves fun _ => ⟨fun _ _ => id, fun _ => id⟩
  | some task =>
    have hprompt := hprompt task htask
    have hevolves : Evolves flushing ({ s with tasks := s.tasks.eraseIdx index }.taskDoing task answer)
        { s with tasks := s.tasks.eraseIdx index } ({ s with tasks := s.tasks.eraseIdx index }.resume task answer) := by
      refine resume_evolves (h.erase index) hflush (h.tasks task (mem_of_getElem? htask)) ?_
      cases task with
      | prepareResource => exact hprompt
      | undo | redo | confirmUndo | confirmWorkspaceUndo | prepareWorkspace | invoke => trivial
    exact ⟨hevolves.sane, ⟨hevolves.later.versions, hevolves.later.gets⟩, hevolves.change, hevolves.isValid⟩

theorem step_evolves {action : Action} (hplain : action.isPlain = true) (hprompt : action.Prompt s) :
    Evolves flushing (s.actionDoing action) s (s.step action) := by
  have hquiet : Evolves flushing (fun _ => {}) s s := ((Quiet.refl s).still h).evolves fun _ => ⟨fun _ _ => id, fun _ => id⟩
  cases action with
  | pushElement element groupId sourceId => exact pushElement_evolves h element groupId sourceId
  | undo strResource => exact undoResource_evolves h hflush _ _
  | undoSource sourceId =>
    simp only [actionDoing, step]
    rcases s.findClosestUndoElementWithSource sourceId with _ | ⟨found, strResource⟩
    · exact hquiet
    · unfold sourceDoing
      dsimp only
      split
      · exact hquiet
      · exact undoResource_evolves h hflush _ _
  | redo strResource => exact redoResource_evolves h hflush 0
  | redoSource sourceId =>
    simp only [actionDoing, step]
    rcases s.findClosestRedoElementWithSource sourceId with _ | ⟨found, strResource⟩
    · exact hquiet
    · unfold sourceDoing
      dsimp only
      split
      · exact hquiet
      · exact redoResource_evolves h hflush sourceId
  | removeElements strResource => exact (removeElements_still h strResource).evolves fun _ => ⟨fun _ _ => id, fun _ => id⟩
  | setElementsValidFlag => cases hplain
  | restoreSnapshot => cases hplain
  | resume index answer => exact step_resume_evolves h hflush hprompt

end

theorem Sane.initial : Sane {} := by
  refine ⟨fun _ => nodup_nil, fun _ _ hmem => ?_, fun _ _ hmem => ?_, rfl, Nat.one_pos, fun _ _ => ⟨rfl, rfl⟩, fun hget => ?_,
    fun hget => ?_, fun hget => ?_, fun _ hmem => ?_⟩
  · cases hmem
  · cases hmem
  · cases hget
  · cases hget
  · cases hget
  · cases hmem

theorem run_sane (actions : List Action) : ∀ {s : UndoRedoService}, Sane s → (∀ element, s.isValid element = true) →
    (∀ action ∈ actions, action.isPlain = true) → AllPrompt s actions →
      Sane (s.run actions) ∧ ∀ element, (s.run actions).isValid element = true := by
  induction actions with
  | nil => exact fun h hvalid _ _ => ⟨h, hvalid⟩
  | cons action actions ih =>
    intro s h hvalid hplain hprompt
    obtain ⟨hfirst, hrest⟩ := forall_mem_cons.mp hplain
    have hevolves : Evolves True (s.actionDoing action) s (s.step action) := step_evolves h (fun _ => trivial) hfirst hprompt.1
    refine ih hevolves.sane (fun element => ?_) hrest hprompt.2
    rw [hevolves.isValid]
    exact hvalid element

theorem allPrompt_append (actions actions' : List Action) : ∀ s : UndoRedoService,
    AllPrompt s (actions ++ actions') ↔ AllPrompt s actions ∧ AllPrompt (s.run actions) actions' := by
  induction actions with
  | nil => intro s; exact ⟨fun h => ⟨trivial, h⟩, fun h => h.2⟩
  | cons action actions ih =>
    intro s
    rw [cons_append, AllPrompt, AllPrompt, ih, and_assoc]
    rfl

/-- In a run no stack has an element twice, and every step does with every stack what it is to do with it: the element that an undo
or a redo is about moves to the other side, and everything else stays, unless an element is pushed or split. -/
theorem elements_kept (actions : List Action) (action : Action) (hplain : ∀ a ∈ actions ++ [action], a.isPlain = true)
    (hprompt : AllPrompt {} (actions ++ [action])) :
    (∀ place, ((run {} actions).stackAt place).all.Nodup) ∧
      (∀ place, ((run {} (actions ++ [action])).stackAt place).all.Nodup) ∧
      ∀ place, Change False ((run {} actions).actionDoing action place) (run {} actions).stackElementCounter
        ((run {} actions).stackAt place) ((run {} (actions ++ [action])).stackAt place) := by
  rw [allPrompt_append] at hprompt
  obtain ⟨hsane, hvalid⟩ := run_sane actions Sane.initial (fun _ => rfl)
    (fun a ha => hplain a (mem_append_left _ ha)) hprompt.1
  have hevolves : Evolves False ((run {} actions).actionDoing action) (run {} actions) ((run {} actions).step action) := by
    refine step_evolves hsane (fun ⟨element, hinvalid⟩ => ?_) (hplain action (by simp)) hprompt.2.1
    rw [hvalid] at hinvalid
    cases hinvalid
  have hrun : run {} (actions ++ [action]) = (run {} actions).step action := by
    rw [run, foldl_append]
    rfl
  rw [hrun]
  exact ⟨hsane.nodup, hevolves.sane.nodup, hevolves.change⟩

/-- Typing in a file, then an element of the same file that has something to prepare. -/
def fileA : Uri := ⟨"/a", "file:///a"⟩

def typing : UndoRedoElement := .resource { resource := fileA, label := "typing" }

def prepared : UndoRedoElement := .workspace { resources := [fileA], label := "format", prepareUndoRedo := true }

/-- One undo, before the answer of its preparation. -/
def preparedOnce : List Action := [.pushElement typing 0 0, .pushElement prepared 0 0, .undo "file:///a"]

/-- With the answer the element moves. -/
theorem elements_kept_prepared : ∃ element, element.actual = prepared ∧
    ((run {} preparedOnce).stackAt 1).Moved .past element ((run {} (preparedOnce ++ [.resume 0 .resolved])).stackAt 1) := by
  have hplain : ∀ a ∈ preparedOnce ++ [.resume 0 .resolved], a.isPlain = true := by simp [preparedOnce, Action.isPlain]
  have hprompt : AllPrompt {} (preparedOnce ++ [.resume 0 .resolved]) := by
    refine ⟨trivial, trivial, trivial, fun task htask => ?_, trivial⟩
    obtain rfl := Option.some.inj htask
    rfl
  have hchange := (elements_kept preparedOnce (.resume 0 .resolved) hplain hprompt).2.2 1
  exact ⟨_, rfl, hchange.moved .past _ ⟨rfl, rfl, rfl⟩⟩

/-- Two undos of the same file before the first preparation is over. -/
def preparedTwice : List Action :=
  [.pushElement typing 0 0, .pushElement prepared 0 0, .undo "file:///a", .undo "file:///a", .resume 0 .resolved,
    .resume 1 .resolved, .resume 0 .resolved]

/-- The second undo loses the typing and has the other element twice in the future. -/
theorem element_doubled : ¬ ∀ actions : List Action, (∀ a ∈ actions, a.isPlain = true) →
    ∀ place, ((run {} actions).stackAt place).all.Nodup := by
  intro h
  have := h preparedTwice (by simp [preparedTwice, Action.isPlain]) 1
  revert this
  decide

end UndoRedoService

end TongjiCode.UndoRedo
