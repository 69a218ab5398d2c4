import TongjiCode.UndoRedo.Sane

/-!
# Pushing and splitting

A push brings an element on the stacks of its resources (`Pushes`), a split takes a workspace element off one
side of them (`Splits`).  Both go through the resources one after the other; the stacks of different resources
are different ones, so each stack is seen at most once.
-/

open List

namespace TongjiCode.UndoRedo

namespace UndoRedoService

variable {s s' s'' : UndoRedoService}

/-! ### Pushing -/

/-- What a new stack for a resource does: it is empty, and the others stay. -/
structure Added (s : UndoRedoService) (strResource : String) (s' : UndoRedoService) : Prop where
  sane : Sane s'
  later : Later s s'
  get : ∀ strResource', s'.get strResource' = if strResource' = strResource then some s.stackCounter else s.get strResource'
  stackAt : ∀ place, (s'.stackAt place).past = (s.stackAt place).past ∧ (s'.stackAt place).future = (s.stackAt place).future
  empty : (s.stackAt s.stackCounter).all = []
  strResource : (s'.stackAt s.stackCounter).strResource = strResource
  stackCounter : s'.stackCounter = s.stackCounter + 1

theorem addEditStack_spec (h : Sane s) (resourceLabel : String) {strResource : String} (hget : s.get strResource = none) :
    Added s strResource (s.addEditStack resourceLabel strResource) := by
  obtain ⟨hempty, hversion⟩ := h.unused s.stackCounter (Nat.le_refl _)
  have hlists : (s.stackAt s.stackCounter).past = [] ∧ (s.stackAt s.stackCounter).future = [] := append_eq_nil_iff.mp hempty
  have hnew : (s.addEditStack resourceLabel strResource).stackAt s.stackCounter = { resourceLabel, strResource } :=
    Function.update_self ..
  have hold : ∀ place, place ≠ s.stackCounter →
      (s.addEditStack resourceLabel strResource).stackAt place = s.stackAt place := fun place hne => Function.update_of_ne hne ..
  have hgets : ∀ strResource', (s.addEditStack resourceLabel strResource).get strResource' =
      if strResource' = strResource then some s.stackCounter else s.get strResource' := by
    intro strResource'
    show (s.editStacks ++ [(strResource, s.stackCounter)]).lookup strResource' = _
    rw [lookup_append]
    by_cases heq : strResource' = strResource
    · subst heq
      have hnone : s.editStacks.lookup strResource' = none := hget
      rw [hnone, if_pos rfl, lookup_cons, beq_self_eq_true]
      rfl
    · rw [if_neg heq, lookup_cons, beq_eq_false_iff_ne.mpr heq, lookup_nil, Option.or_none]
      rfl
  have hstacks : ∀ place, ((s.addEditStack resourceLabel strResource).stackAt place).past = (s.stackAt place).past ∧
      ((s.addEditStack resourceLabel strResource).stackAt place).future = (s.stackAt place).future := by
    intro place
    by_cases heq : place = s.stackCounter
    · subst heq
      rw [hnew, hlists.1, hlists.2]
      exact ⟨rfl, rfl⟩
    · rw [hold place heq]
      exact ⟨rfl, rfl⟩
  have hcases : ∀ {strResource' place}, (s.addEditStack resourceLabel strResource).get strResource' = some place →
      strResource' = strResource ∧ place = s.stackCounter ∨ place < s.stackCounter ∧ s.get strResource' = some place := by
    intro strResource' place hget'
    rw [hgets] at hget'
    split at hget'
    · next heq => exact .inl ⟨heq, (Option.some.inj hget').symm⟩
    · exact .inr ⟨(h.bounds hget').2, hget'⟩
  have hlater : Later s (s.addEditStack resourceLabel strResource) := by
    refine ⟨fun place => ?_, fun {strResource' place} hget' _ => ?_⟩
    · by_cases heq : place = s.stackCounter
      · subst heq
        exact Nat.le_of_eq (by rw [hnew, hversion])
      · exact Nat.le_of_eq (by rw [hold place heq])
    · rw [hgets, if_neg fun heq => by rw [heq, hget] at hget'; cases hget']
      exact hget'
  have hall : ∀ place, ((s.addEditStack resourceLabel strResource).stackAt place).all = (s.stackAt place).all := by
    intro place
    rw [ResourceEditStack.all, (hstacks place).1, (hstacks place).2]
    rfl
  have hcounter : (s.addEditStack resourceLabel strResource).stackCounter = s.stackCounter + 1 := rfl
  refine ⟨⟨fun place => ?_, fun place => ?_, fun place => ?_, ?_, ?_, fun place hplace => ?_, fun hget' hget'' => ?_, fun hget' => ?_,
    fun hget' => ?_, fun task htask => (h.tasks task htask).later hlater⟩, hlater, hgets, hstacks, hempty, by rw [hnew], rfl⟩
  · rw [hall]
    exact h.nodup place
  · rw [hall]
    exact h.known place
  · rw [hall]
    exact h.distinct place
  · rw [hall]
    exact h.missing
  · rw [hcounter]
    omega
  · rw [hcounter] at hplace
    rw [hold place (by omega)]
    exact h.unused place (by omega)
  · rcases hcases hget' with ⟨heq, hp⟩ | ⟨hlt, hg⟩ <;> rcases hcases hget'' with ⟨heq', hp'⟩ | ⟨hlt', hg'⟩
    · rw [heq, heq']
    · omega
    · omega
    · exact h.inj hg hg'
  · have hpos := h.counter
    rcases hcases hget' with ⟨-, rfl⟩ | ⟨hlt, hg⟩
    · omega
    · have := h.bounds hg
      omega
  · rcases hcases hget' with ⟨rfl, rfl⟩ | ⟨hlt, hg⟩
    · rw [hall, hempty, hnew]
      exact ⟨rfl, fun _ hmem => by cases hmem⟩
    · rw [hold _ (by omega)]
      exact h.home hg

/-- What a push of an element for the resources `strResources` does: it comes on the past of each of them,
whose future is dropped with its workspace elements marked. -/
structure Pushes (s : UndoRedoService) (element : StackElement) (strResources : List String) (s' : UndoRedoService) : Prop where
  sane : Sane s'
  later : Later s s'
  gets : ∀ {strResource place}, s.get strResource = some place → s'.get strResource = some place
  gets' : ∀ {strResource place}, s'.get strResource = some place → strResource ∉ strResources → s.get strResource = some place
  placed : ∀ strResource ∈ strResources, ∃ place, s'.get strResource = some place ∧
    (s'.stackAt place).past = (s.stackAt place).past ++ [element] ∧ (s'.stackAt place).future = [] ∧
    (s.get strResource = some place ∨ (s.stackAt place).all = [])
  others : ∀ place, (∀ strResource ∈ strResources, s'.get strResource ≠ some place) →
    (s'.stackAt place).past = (s.stackAt place).past ∧ (s'.stackAt place).future = (s.stackAt place).future
  recorded : ∀ element strResource, s'.Recorded element strResource ↔ s.Recorded element strResource ∨
    (strResource ∈ strResources ∧ element.type = .workspace ∧
      ∃ place, s.get strResource = some place ∧ element ∈ (s.stackAt place).future)
  stackElementCounter : s'.stackElementCounter = s.stackElementCounter
  isValid : s'.isValid = s.isValid
  errors : s'.errors = s.errors

variable {element : StackElement} {strResource : String} {place : Nat}

theorem pushOnto_pushes (h : Sane s) (hget : s.get strResource = some place) (hmem : element ∉ (s.stackAt place).all)
    (hknown : element.id ≤ s.stackElementCounter) (hhome : strResource ∈ element.strResources)
    (hdistinct : element.strResources.Nodup) : Pushes s element [strResource] (s.pushOnto place element) := by
  have hrecorded := removeResources_recorded (s.stackAt place) .noParallelUniverses (s.stackAt place).future s
  obtain ⟨removed, heq⟩ := removeResources_eq (s.stackAt place) .noParallelUniverses (s.stackAt place).future s
  have hpush : s.pushOnto place element =
      { s with removedResources := removed }.updateStack place fun stack => stack.pushElement element := by
    simp only [pushOnto]
    rw [heq]
  rw [heq] at hrecorded
  rw [hpush]
  have hstr := (h.home hget).1
  have hnodup : ((s.stackAt place).pushElement element).all.Nodup := by
    show ((s.stackAt place).past ++ [element] ++ []).Nodup
    rw [append_nil, ← concat_eq_append]
    exact (nodup_append.mp (h.nodup place)).1.concat fun hpast => hmem (mem_append_left _ hpast)
  have hmarked : Later s { s with removedResources := removed } := ⟨fun _ => Nat.le_refl _, fun hget _ => hget⟩
  refine ⟨(h.marked removed).updateStack (h.bounds hget) rfl (Nat.le_succ _) hnodup fun element' helement' => ?_,
    hmarked.trans
      (Later.updateStack (Nat.le_succ _)), fun hget => hget, fun hget _ => hget, fun strResource' hstrResource' => ?_, fun place' hplace' => ?_,
    fun element' strResource' => ?_, rfl, rfl, rfl⟩
  · have helement' : element' ∈ (s.stackAt place).past ++ [element] ++ [] := helement'
    rw [append_nil, mem_append, mem_singleton] at helement'
    rcases helement' with hold | rfl
    · exact .inl (mem_append_left _ hold)
    · refine .inr ⟨hknown, ?_, hdistinct⟩
      show (s.stackAt place).strResource ∈ element'.strResources
      rw [hstr]
      exact hhome
  · obtain rfl := mem_singleton.mp hstrResource'
    refine ⟨place, hget, ?_, ?_, .inl hget⟩
    · rw [updateStack_stackAt_self]
      rfl
    · rw [updateStack_stackAt_self]
      rfl
  · have hne : place' ≠ place := by
      rintro rfl
      exact hplace' strResource (mem_singleton.mpr rfl) hget
    rw [updateStack_stackAt_of_ne hne]
    exact ⟨rfl, rfl⟩
  · refine (hrecorded element' strResource').trans (or_congr_right ?_)
    rw [hstr, mem_singleton]
    constructor
    · rintro ⟨hmem', hworkspace, rfl⟩
      exact ⟨rfl, hworkspace, place, hget, hmem'⟩
    · rintro ⟨rfl, hworkspace, place', hget', hmem'⟩
      obtain rfl := Option.some.inj (hget.symm.trans hget')
      exact ⟨hmem', hworkspace, rfl⟩

theorem Added.pushes {s1 : UndoRedoService} (h : Added s strResource s1) (hget : s.get strResource = none)
    (hcounter : s1.stackElementCounter = s.stackElementCounter) (hvalid : s1.isValid = s.isValid) (herrors : s1.errors = s.errors)
    (hremoved : s1.removedResources = s.removedResources) (hpushes : Pushes s1 element [strResource] s') :
    Pushes s element [strResource] s' := by
  have hget1 : s1.get strResource = some s.stackCounter := by rw [h.get, if_pos rfl]
  have hlists : (s.stackAt s.stackCounter).past = [] ∧ (s.stackAt s.stackCounter).future = [] := append_eq_nil_iff.mp h.empty
  have hne : ∀ {strResource' place}, s.get strResource' = some place → strResource' ≠ strResource := by
    rintro strResource' place hget' rfl
    rw [hget] at hget'
    cases hget'
  refine ⟨hpushes.sane, h.later.trans hpushes.later, fun hget' => hpushes.gets ?_, fun hget' hnot => ?_, fun strResource' hmem => ?_,
    fun place hplace => ?_, fun element' strResource' => ?_, hpushes.stackElementCounter.trans hcounter, hpushes.isValid.trans hvalid,
    hpushes.errors.trans herrors⟩
  · rw [h.get, if_neg (hne hget')]
    exact hget'
  · have := hpushes.gets' hget' hnot
    rw [h.get, if_neg fun heq => hnot (by rw [heq]; exact mem_singleton.mpr rfl)] at this
    exact this
  · obtain ⟨place, hget', hpast, hfuture, -⟩ := hpushes.placed strResource' hmem
    obtain rfl := mem_singleton.mp hmem
    have hplace := hpushes.gets hget1
    rw [hget'] at hplace
    obtain rfl := Option.some.inj hplace
    rw [(h.stackAt _).1] at hpast
    exact ⟨s.stackCounter, hget', hpast, hfuture, .inr h.empty⟩
  · rw [← (h.stackAt place).1, ← (h.stackAt place).2]
    exact hpushes.others place hplace
  · rw [hpushes.recorded, Recorded, hremoved]
    refine or_congr_right (and_congr_right fun hmem => and_congr_right fun _ => ?_)
    obtain rfl := mem_singleton.mp hmem
    rw [hget]
    constructor
    · rintro ⟨place, hget', hmem'⟩
      rw [hget1] at hget'
      obtain rfl := Option.some.inj hget'
      rw [(h.stackAt _).2, hlists.2] at hmem'
      cases hmem'
    · rintro ⟨place, hget', -⟩
      cases hget'

theorem Pushes.cons {s1 : UndoRedoService} {strResources : List String} (h : Pushes s element [strResource] s1)
    (h' : Pushes s1 element strResources s') (hnot : strResource ∉ strResources) :
    Pushes s element (strResource :: strResources) s' := by
  have hone : ∀ {place}, s1.get strResource = some place → ∀ strResource' ∈ strResources, s'.get strResource' ≠ some place := by
    intro place hget strResource' hmem hget'
    exact hnot (h'.sane.inj (h'.gets hget) hget' ▸ hmem)
  have htwo : ∀ strResource' ∈ strResources, ∀ {place}, s'.get strResource' = some place →
      ∀ strResource'' ∈ [strResource], s1.get strResource'' ≠ some place := by
    intro strResource' hmem place hget strResource'' hmem'' hget''
    obtain rfl := mem_singleton.mp hmem''
    exact hone hget'' strResource' hmem hget
  have hother : ∀ strResource' ∈ strResources, strResource' ∉ [strResource] := by
    intro strResource' hmem hmem'
    exact hnot (mem_singleton.mp hmem' ▸ hmem)
  refine ⟨h'.sane, h.later.trans h'.later, fun hget => h'.gets (h.gets hget), fun hget hmem => ?_, fun strResource' hmem => ?_,
    fun place hplace => ?_, fun element' strResource' => ?_, h'.stackElementCounter.trans h.stackElementCounter,
    h'.isValid.trans h.isValid, h'.errors.trans h.errors⟩
  · rw [mem_cons, not_or] at hmem
    exact h.gets' (h'.gets' hget hmem.2) (by rw [mem_singleton]; exact hmem.1)
  · rcases mem_cons.mp hmem with rfl | hmem
    · obtain ⟨place, hget, hpast, hfuture, hknown⟩ := h.placed strResource' (mem_singleton.mpr rfl)
      have hothers := h'.others place (hone hget)
      exact ⟨place, h'.gets hget, hothers.1.trans hpast, hothers.2.trans hfuture, hknown⟩
    · obtain ⟨place, hget, hpast, hfuture, hknown⟩ := h'.placed strResource' hmem
      have hothers := h.others place (htwo strResource' hmem hget)
      rw [hothers.1] at hpast
      refine ⟨place, hget, hpast, hfuture, ?_⟩
      rcases hknown with hknown | hempty
      · exact .inl (h.gets' hknown (hother strResource' hmem))
      · right
        rw [ResourceEditStack.all, ← hothers.1, ← hothers.2]
        exact hempty
  · have hfirst : ∀ strResource' ∈ [strResource], s1.get strResource' ≠ some place := by
      intro strResource' hmem hget
      rw [mem_singleton] at hmem
      subst hmem
      exact hplace strResource' mem_cons_self (h'.gets hget)
    have h1 := h.others place hfirst
    have h2 := h'.others place fun strResource' hmem => hplace strResource' (mem_cons_of_mem _ hmem)
    exact ⟨h2.1.trans h1.1, h2.2.trans h1.2⟩
  · rw [h'.recorded, h.recorded, mem_singleton, mem_cons]
    constructor
    · rintro ((hold | ⟨heq, hrest⟩) | ⟨hmem, hworkspace, place, hget, hfuture⟩)
      · exact .inl hold
      · exact .inr ⟨.inl heq, hrest⟩
      · rw [(h.others place (htwo strResource' hmem (h'.gets hget))).2] at hfuture
        exact .inr ⟨.inr hmem, hworkspace, place, h.gets' hget (hother strResource' hmem), hfuture⟩
    · rintro (hold | ⟨rfl | hmem, hworkspace, place, hget, hfuture⟩)
      · exact .inl (.inl hold)
      · exact .inl (.inr ⟨rfl, hworkspace, place, hget, hfuture⟩)
      · refine .inr ⟨hmem, hworkspace, place, h.gets hget, ?_⟩
        rw [(h.others place (htwo strResource' hmem (h'.gets (h.gets hget)))).2]
        exact hfuture

theorem pushStackElement_pushes (hdistinct : element.strResources.Nodup) (resources : List (String × String)) :
    ∀ {s : UndoRedoService}, Sane s → (resources.map Prod.snd).Nodup → (∀ strResource ∈ resources.map Prod.snd, strResource ∈ element.strResources) →
      element.id ≤ s.stackElementCounter →
      (∀ strResource ∈ resources.map Prod.snd, ∀ place, s.get strResource = some place → element ∉ (s.stackAt place).all) →
      Pushes s element (resources.map Prod.snd) (pushStackElement element resources s) := by
  induction resources with
  | nil =>
    intro s h _ _ _ _
    refine ⟨h, .refl s, fun hget => hget, fun hget _ => hget, fun _ hmem => (not_mem_nil hmem).elim, fun _ _ => ⟨rfl, rfl⟩,
      fun _ _ => ?_, rfl, rfl, rfl⟩
    simp [pushStackElement]
  | cons resource resources ih =>
    obtain ⟨resourceLabel, strResource⟩ := resource
    intro s h hnodup hhome hknown hnew
    rw [map_cons] at hnodup hhome hnew ⊢
    rw [nodup_cons] at hnodup
    have hstr : strResource ∈ element.strResources := hhome strResource mem_cons_self
    have hrest : ∀ {s1 : UndoRedoService}, Pushes s element [strResource] s1 →
        Pushes s element (strResource :: resources.map Prod.snd) (pushStackElement element resources s1) := by
      intro s1 hfirst
      refine hfirst.cons (ih hfirst.sane hnodup.2 (fun strResource' hmem => hhome strResource' (mem_cons_of_mem _ hmem))
        (by rw [hfirst.stackElementCounter]; exact hknown) fun strResource' hmem place hget => ?_) hnodup.1
      have hne : strResource' ∉ [strResource] := fun hmem' => hnodup.1 (mem_singleton.mp hmem' ▸ hmem)
      have hothers := hfirst.others place fun strResource'' hmem'' hget'' => by
        rw [mem_singleton] at hmem''
        subst hmem''
        exact hne (mem_singleton.mpr (hfirst.sane.inj hget hget''))
      rw [ResourceEditStack.all, hothers.1, hothers.2]
      exact hnew strResource' (mem_cons_of_mem _ hmem) place (hfirst.gets' hget hne)
    rw [pushStackElement]
    split
    · next place hget =>
      exact hrest (pushOnto_pushes h hget (hnew strResource mem_cons_self place hget) hknown hstr hdistinct)
    · next hget =>
      have hadded := addEditStack_spec h resourceLabel hget
      have hget1 : (s.addEditStack resourceLabel strResource).get strResource = some s.stackCounter := by
        rw [hadded.get, if_pos rfl]
      have hempty : ((s.addEditStack resourceLabel strResource).stackAt s.stackCounter).all = [] := by
        rw [ResourceEditStack.all, (hadded.stackAt _).1, (hadded.stackAt _).2]
        exact hadded.empty
      refine hrest (hadded.pushes hget rfl rfl rfl rfl (pushOnto_pushes hadded.sane hget1 ?_ hknown hstr hdistinct))
      rw [hempty]
      exact not_mem_nil

/-! ## Splitting -/

def Ignored (ignoreResources : Option RemovedResources) (strResource : String) : Prop :=
  ignoreResources.any (fun resources => resources.has strResource) = true

/-- The parts that may replace an element: new ones, each for its own resource. -/
structure Parts (s : UndoRedoService) (counter : Nat) (individualMap : String → Option StackElement) : Prop where
  fresh : ∀ {strResource element}, individualMap strResource = some element → counter < element.id
  known : ∀ {strResource element}, individualMap strResource = some element → element.id ≤ s.stackElementCounter
  home : ∀ {strResource element}, individualMap strResource = some element → element.strResources = [strResource]
  resource : ∀ {strResource element}, individualMap strResource = some element → element.type = .resource

/-- What a split does to the stacks of the resources that are not ignored, up to the first one that is missing. -/
structure Splits (s : UndoRedoService) (side : Side) (toRemove : StackElement) (individualMap : String → Option StackElement)
    (ignoreResources : Option RemovedResources) (strResources : List String) (s' : UndoRedoService) (ok : Bool) : Prop where
  sane : Sane s'
  later : Later s s'
  editStacks : s'.editStacks = s.editStacks
  removedResources : s'.removedResources = s.removedResources
  stackElementCounter : s'.stackElementCounter = s.stackElementCounter
  isValid : s'.isValid = s.isValid
  tasks : s'.tasks = s.tasks
  stackAt : ∀ place, s'.stackAt place = s.stackAt place ∨
    s'.stackAt place = (s.stackAt place).splitWorkspaceElement side toRemove individualMap
  split : ok = true → ∀ strResource ∈ strResources, ¬ Ignored ignoreResources strResource →
    ∀ place, s.get strResource = some place → s'.stackAt place = (s.stackAt place).splitWorkspaceElement side toRemove individualMap
  others : ∀ place, (∀ strResource ∈ strResources, s.get strResource = some place → Ignored ignoreResources strResource) →
    s'.stackAt place = s.stackAt place
  complete : (∀ strResource ∈ strResources, ¬ Ignored ignoreResources strResource → s.get strResource ≠ none) →
    ok = true ∧ s'.errors = s.errors

variable {side : Side} {toRemove : StackElement} {individualMap : String → Option StackElement} {counter : Nat}
  {ignoreResources : Option RemovedResources}

theorem mem_splitWorkspaceElement {stack : ResourceEditStack} {element : StackElement}
    (h : element ∈ (stack.splitWorkspaceElement side toRemove individualMap).all) :
    element ∈ stack.all ∨ individualMap stack.strResource = some element := by
  cases side with
  | past =>
    rcases mem_append.mp h with h | h
    · rcases mem_replaceLast _ h with h | h
      · exact .inl (mem_append_left _ h)
      · exact .inr h
    · exact .inl (mem_append_right _ h)
  | future =>
    rcases mem_append.mp h with h | h
    · exact .inl (mem_append_left _ h)
    · rcases mem_replaceLast _ h with h | h
      · exact .inl (mem_append_right _ h)
      · exact .inr h

theorem splitWorkspaceElement_strResource (stack : ResourceEditStack) :
    (stack.splitWorkspaceElement side toRemove individualMap).strResource = stack.strResource := by
  cases side <;> rfl

theorem splitWorkspaceElement_versionId (stack : ResourceEditStack) :
    (stack.splitWorkspaceElement side toRemove individualMap).versionId = stack.versionId + 1 := by
  cases side <;> rfl

theorem splitOne_sane {strResource : String} {place : Nat} (h : Sane s) (hparts : Parts s counter individualMap)
    (hworkspace : toRemove.type = .workspace) (hget : s.get strResource = some place)
    (hold : ∀ element ∈ (s.stackAt place).all, element.id ≤ counter) :
    Sane (s.updateStack place fun stack => stack.splitWorkspaceElement side toRemove individualMap) := by
  have hchange : Change False { splits := fun _ _ => True } counter (s.stackAt place)
      ((s.stackAt place).splitWorkspaceElement side toRemove individualMap) :=
    .split side ⟨fun _ _ => id, fun _ => id⟩ trivial hworkspace fun element helement => hparts.fresh helement
  refine h.updateStack (h.bounds hget) (splitWorkspaceElement_strResource _) ?_ (hchange.nodup (h.nodup place) hold)
    fun element helement => ?_
  · rw [splitWorkspaceElement_versionId]
    exact Nat.le_succ _
  · rcases mem_splitWorkspaceElement helement with hmem | hnew
    · exact .inl hmem
    · rw [Welcome, hparts.home hnew]
      exact .inr ⟨hparts.known hnew, mem_singleton.mpr rfl, nodup_singleton _⟩

theorem splitStacks_splits (hworkspace : toRemove.type = .workspace) (strResources : List String) :
    ∀ {s : UndoRedoService}, Sane s → strResources.Nodup → Parts s counter individualMap →
      (∀ strResource ∈ strResources, ∀ place, s.get strResource = some place → ∀ element ∈ (s.stackAt place).all, element.id ≤ counter) →
      Splits s side toRemove individualMap ignoreResources strResources
        (splitStacks side toRemove individualMap ignoreResources strResources s).1
        (splitStacks side toRemove individualMap ignoreResources strResources s).2 := by
  induction strResources with
  | nil =>
    intro s h _ _ _
    exact ⟨h, .refl s, rfl, rfl, rfl, rfl, rfl, fun _ => .inl rfl, fun _ _ hmem => (not_mem_nil hmem).elim, fun _ _ => rfl,
      fun _ => ⟨rfl, rfl⟩⟩
  | cons strResource strResources ih =>
    intro s h hnodup hparts hold
    rw [nodup_cons] at hnodup
    have hold' : ∀ strResource' ∈ strResources, ∀ place, s.get strResource' = some place →
        ∀ element ∈ (s.stackAt place).all, element.id ≤ counter :=
      fun strResource' hmem => hold strResource' (mem_cons_of_mem _ hmem)
    rw [splitStacks]
    split
    · next hignored =>
      have hrest := ih h hnodup.2 hparts hold'
      refine ⟨hrest.sane, hrest.later, hrest.editStacks, hrest.removedResources, hrest.stackElementCounter, hrest.isValid, hrest.tasks, hrest.stackAt,
        fun hok strResource' hmem hnot => ?_, fun place hplace => ?_, fun hgets => ?_⟩
      · rcases mem_cons.mp hmem with rfl | hmem
        · exact (hnot hignored).elim
        · exact hrest.split hok strResource' hmem hnot
      · exact hrest.others place fun strResource' hmem => hplace strResource' (mem_cons_of_mem _ hmem)
      · exact hrest.complete fun strResource' hmem => hgets strResource' (mem_cons_of_mem _ hmem)
    · next hnotIgnored =>
      cases hget : s.get strResource with
      | none =>
        -- the loop stops with an exception
        refine ⟨⟨h.nodup, h.known, h.distinct, h.missing, h.counter, h.unused, h.inj, h.bounds, h.home, h.tasks⟩,
          ⟨fun _ => Nat.le_refl _, fun hget _ => hget⟩, rfl, rfl, rfl, rfl, rfl, fun _ => .inl rfl, fun hok => Bool.noConfusion hok,
          fun _ _ => rfl, fun hgets => ?_⟩
        exact (hgets strResource mem_cons_self hnotIgnored hget).elim
      | some place =>
        have hversion : (s.stackAt place).versionId ≤
            ((s.stackAt place).splitWorkspaceElement side toRemove individualMap).versionId := by
          rw [splitWorkspaceElement_versionId]
          exact Nat.le_succ _
        have hsane : Sane (s.updateStack place fun stack => stack.splitWorkspaceElement side toRemove individualMap) :=
          splitOne_sane h hparts hworkspace hget (hold strResource mem_cons_self place hget)
        have hne : ∀ strResource' ∈ strResources, ∀ place', s.get strResource' = some place' → place' ≠ place := by
          rintro strResource' hmem place' hget' rfl
          exact hnodup.1 (h.inj hget hget' ▸ hmem)
        have hrest := ih hsane hnodup.2 ⟨hparts.fresh, hparts.known, hparts.home, hparts.resource⟩ fun strResource' hmem place' hget' => by
          rw [updateStack_stackAt_of_ne (hne strResource' hmem place' hget')]
          exact hold' strResource' hmem place' hget'
        have hself := hrest.others place fun strResource' hmem hget' => (hne strResource' hmem place hget' rfl).elim
        rw [updateStack_stackAt_self] at hself
        refine ⟨hrest.sane, (Later.updateStack hversion).trans hrest.later, hrest.editStacks, hrest.removedResources,
          hrest.stackElementCounter, hrest.isValid, hrest.tasks, fun place' => ?_, fun hok strResource' hmem hnot place' hget' => ?_, fun place' hplace => ?_, fun hgets => ?_⟩
        · by_cases heq : place' = place
          · subst heq
            exact .inr hself
          · have := hrest.stackAt place'
            rw [updateStack_stackAt_of_ne heq] at this
            exact this
        · rcases mem_cons.mp hmem with rfl | hmem
          · obtain rfl := Option.some.inj (hget.symm.trans hget')
            exact hself
          · have := hrest.split hok strResource' hmem hnot place' hget'
            rw [updateStack_stackAt_of_ne (hne strResource' hmem place' hget')] at this
            exact this
        · have hneq : place' ≠ place := by
            rintro rfl
            exact hnotIgnored (hplace strResource mem_cons_self hget)
          rw [hrest.others place' fun strResource' hmem => hplace strResource' (mem_cons_of_mem _ hmem),
            updateStack_stackAt_of_ne hneq]
        · exact hrest.complete fun strResource' hmem => hgets strResource' (mem_cons_of_mem _ hmem)

/-! ### The parts of an element -/

theorem mem_individuals {parts : List ResourceUndoRedoElement} : ∀ {counter : Nat} {element : StackElement},
    element ∈ individuals parts counter →
      counter < element.id ∧ element.id ≤ counter + parts.length ∧ element.type = .resource := by
  induction parts with
  | nil => intro counter element h; cases h
  | cons part parts ih =>
    intro counter element h
    rw [individuals, mem_cons] at h
    rw [length_cons]
    rcases h with rfl | h
    · exact ⟨Nat.lt_succ_self _, by show counter + 1 ≤ _; omega, rfl⟩
    · obtain ⟨hlt, hle, htype⟩ := ih h
      exact ⟨by omega, by omega, htype⟩

theorem individualMap_parts (s : UndoRedoService) (parts : List ResourceUndoRedoElement) :
    Parts { s with stackElementCounter := s.stackElementCounter + parts.length } s.stackElementCounter
      (UndoRedoService.individualMap (individuals parts s.stackElementCounter)) := by
  have hmem : ∀ {strResource element}, UndoRedoService.individualMap (individuals parts s.stackElementCounter) strResource = some element →
      element ∈ individuals parts s.stackElementCounter ∧ element.strResources = [strResource] := by
    intro strResource element h
    refine ⟨mem_reverse.mp (mem_of_find?_eq_some h), ?_⟩
    simpa using find?_some h
  exact ⟨fun h => (mem_individuals (hmem h).1).1, fun h => (mem_individuals (hmem h).1).2.1, fun h => (hmem h).2,
    fun h => (mem_individuals (hmem h).1).2.2⟩

theorem splitWorkspaceElement_splits (h : Sane s) (hworkspace : toRemove.type = .workspace) (hnodup : toRemove.strResources.Nodup)
    (parts : List ResourceUndoRedoElement) :
    Splits { s with stackElementCounter := s.stackElementCounter + parts.length } side toRemove
      (UndoRedoService.individualMap (individuals parts s.stackElementCounter)) ignoreResources toRemove.strResources
      (s.splitWorkspaceElement side toRemove parts ignoreResources).1
      (s.splitWorkspaceElement side toRemove parts ignoreResources).2 :=
  splitStacks_splits hworkspace toRemove.strResources
    ⟨h.nodup, fun place element hmem => Nat.le_add_right_of_le (h.known place element hmem), h.distinct, h.missing, h.counter, h.unused, h.inj, h.bounds,
      h.home, h.tasks⟩
    hnodup (individualMap_parts s parts) fun _ _ place _ => h.known place

end UndoRedoService

end TongjiCode.UndoRedo
