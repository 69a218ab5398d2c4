import TongjiCode.Async.Throttler

/-!
# Runs of the throttler

One task runs at a time, the last one queued is started when it is settled, and each call gets the outcome of the first task
started from then on.  This needs that no task that was queued is rejected, and that `queue` is not called between the two
callbacks of a task that is settled.
-/

open List

namespace TongjiCode.Async.Throttler

variable {α ε : Type}

/-! ## What the throttler has registered -/

/-- The callbacks that change what the throttler does next. -/
def isControl : Reaction → Bool
  | .clear _ => true
  | .onComplete _ => true
  | _ => false

def controls (links : List (Nat × Reaction)) : List (Nat × Reaction) := links.filter fun link => isControl link.2

theorem controls_append (links links' : List (Nat × Reaction)) :
    controls (links ++ links') = controls links ++ controls links' :=
  filter_append ..

theorem controls_filter (links : List (Nat × Reaction)) (p : Nat × Reaction → Bool) :
    controls (links.filter p) = (controls links).filter p := by
  unfold controls
  rw [filter_filter, filter_filter]
  exact filter_congr fun link _ => Bool.and_comm ..

variable {link : Nat × Reaction}

theorem mem_of_mem_controls {links : List (Nat × Reaction)} (h : link ∈ controls links) :
    link ∈ links :=
  (mem_filter.mp h).1

/-- The callback that waits if a promise is queued; `completed` is the promise that it settles. -/
def onCompletes (source : Nat) (completed : Option Nat) : List (Nat × Reaction) :=
  completed.toList.map fun promise => (source, .onComplete promise)

/-- The queued promise, with the promise that its `onComplete` settles. -/
inductive Slot (t : Throttler α ε) : Option Nat → Prop
  | empty (queued : t.queuedPromise = none) : Slot t none
  | full (completed queued : Nat) (hqueued : t.queuedPromise = some queued)
      (link : (completed, .resolve queued) ∈ t.promises.reactions) : Slot t (some completed)

/-- Where the throttler is between two tasks. -/
inductive Phase (t : Throttler α ε) : Option Nat → Prop
  | idle (active : t.activePromise = none) (reactions : controls t.promises.reactions = [])
      (jobs : controls t.promises.jobs = []) : Phase t none
  | waking (source completed : Nat) (active : t.activePromise = none) (reactions : controls t.promises.reactions = [])
      (jobs : controls t.promises.jobs = [(source, .onComplete completed)]) : Phase t (some completed)
  | running (completed : Option Nat) (task result : Nat) (active : t.activePromise = some task)
      (outcome : t.promises.outcome task = none)
      (reactions : controls t.promises.reactions = (task, .clear result) :: onCompletes task completed)
      (jobs : controls t.promises.jobs = []) : Phase t completed
  | ended (completed : Option Nat) (task result : Nat) (active : t.activePromise = some task)
      (outcome : t.promises.outcome task ≠ none) (reactions : controls t.promises.reactions = [])
      (jobs : controls t.promises.jobs = (task, .clear result) :: onCompletes task completed) : Phase t completed

/-- The promises when a microtask is taken and these are left. -/
abbrev taken (t : Throttler α ε) (jobs : List (Nat × Reaction)) : Promises Reaction (Outcome α ε) := { t.promises with jobs }

abbrev Gets (t : Throttler α ε) (task promise : Nat) : Prop := t.promises.Follows Reaction.target Reaction.carries task promise

/-- What the throttler has registered is what it needs. -/
structure Wired (t : Throttler α ε) : Prop where
  good : t.promises.Good Reaction.target
  /-- Jobs react to promises that are settled, but for `then` being called. -/
  ready : ∀ link ∈ t.promises.jobs, (∀ promise, link.2 ≠ .adopt promise) → t.promises.outcome link.1 ≠ none
  phase : ∃ completed, t.Slot completed ∧ t.Phase completed
  tasks : ∀ task ∈ t.started, task.promise < t.promises.outcomes.length ∧ ∀ link ∈ t.promises.links, link.2.target ≠ task.promise
  pending : ∀ task ∈ t.started, t.promises.outcome task.promise = none → t.activePromise = some task.promise
  active : ∀ promise, t.activePromise = some promise → ∃ task ∈ t.started, task.promise = promise
  distinct : (t.started.map (·.promise)).Nodup
  kind : ∀ task ∈ t.started, task.queued = true → ∀ e, t.promises.outcome task.promise ≠ some (.rejected e)
  resolves : ∀ completed queued, (completed, .resolve queued) ∈ t.promises.links →
    t.queuedPromise = some queued ∨ ∃ task ∈ t.started, task.queued = true ∧ t.Gets task.promise completed
  calls : ∀ call ∈ t.calls, (∃ task, t.started[call.before]? = some task ∧ t.Gets task.promise call.promise) ∨
    (call.before = t.started.length ∧
      ∃ queued, t.queuedPromise = some queued ∧ (queued, .forward call.promise) ∈ t.promises.reactions)

structure Inv (t : Throttler α ε) : Prop extends Wired t where
  /-- The queued factory is that of the last call, and no task was started after that call. -/
  factory : ∀ queued, t.queuedPromise = some queued → ∃ factory, t.queuedPromiseFactory = some factory ∧
    factory.call + 1 = t.calls.length ∧ ∃ call, t.calls[factory.call]? = some call ∧ call.before = t.started.length
  /-- Of the calls made before a task is started the last one has brought it. -/
  last : ∀ (k : Nat) (task : Started), t.started[k]? = some task →
    (∃ call, t.calls[task.call]? = some call ∧ call.before = k) ∧
      ∀ (i : Nat) (call : Called), t.calls[i]? = some call → task.call < i → k < call.before

theorem inv_empty : ({} : Throttler α ε).Inv where
  good := .empty
  ready := fun _ h => nomatch h
  phase := ⟨none, .empty rfl, .idle rfl rfl rfl⟩
  tasks := fun _ h => nomatch h
  pending := fun _ h => nomatch h
  active := fun _ h => nomatch h
  distinct := nodup_nil
  kind := fun _ h => nomatch h
  resolves := fun _ _ h => nomatch h
  calls := fun _ h => nomatch h
  factory := fun _ h => nomatch h
  last := fun _ _ h => nomatch h

section Steps

variable {t : Throttler α ε} {completed : Option Nat}

theorem Phase.onComplete_mem {completed : Nat} (h : t.Phase (some completed)) :
    ∃ source, (source, .onComplete completed) ∈ t.promises.links := by
  cases h with
  | waking source _ _ _ jobs =>
    refine ⟨source, mem_append_right _ (mem_of_mem_controls ?_)⟩
    rw [jobs]
    exact mem_cons_self
  | running _ task result _ _ reactions =>
    refine ⟨task, mem_append_left _ (mem_of_mem_controls ?_)⟩
    rw [reactions]
    exact mem_cons_of_mem _ mem_cons_self
  | ended _ task result _ _ _ jobs =>
    refine ⟨task, mem_append_right _ (mem_of_mem_controls ?_)⟩
    rw [jobs]
    exact mem_cons_of_mem _ mem_cons_self

theorem Phase.source (h : t.Phase completed) (hlink : link ∈ controls t.promises.reactions) :
    t.activePromise = some link.1 := by
  cases h with
  | idle _ reactions => rw [reactions] at hlink; cases hlink
  | waking _ _ _ reactions => rw [reactions] at hlink; cases hlink
  | running _ task result active _ reactions =>
    rw [reactions] at hlink
    rcases mem_cons.mp hlink with rfl | hlink
    · exact active
    · obtain ⟨promise, -, rfl⟩ := mem_map.mp hlink
      exact active
  | ended _ _ _ _ _ reactions => rw [reactions] at hlink; cases hlink

theorem Slot.frame (h : t.Slot completed) {promises : Promises Reaction (Outcome α ε)} {active : Option Nat}
    (hkept : ∀ link ∈ t.promises.reactions, completed = some link.1 → link ∈ promises.reactions) :
    ({ t with promises, activePromise := active } : Throttler α ε).Slot completed := by
  cases h with
  | empty queued => exact .empty queued
  | full completed queued hqueued link => exact .full completed queued hqueued (hkept _ link rfl)

theorem Phase.frame (h : t.Phase completed) {promises : Promises Reaction (Outcome α ε)}
    (houtcome : ∀ task, t.activePromise = some task → promises.outcome task = t.promises.outcome task)
    (hreactions : controls promises.reactions = controls t.promises.reactions)
    (hjobs : controls promises.jobs = controls t.promises.jobs) :
    ({ t with promises } : Throttler α ε).Phase completed := by
  cases h with
  | idle active reactions jobs => exact .idle active (hreactions.trans reactions) (hjobs.trans jobs)
  | waking source completed active reactions jobs =>
    exact .waking source completed active (hreactions.trans reactions) (hjobs.trans jobs)
  | running _ task result active outcome reactions jobs =>
    exact .running _ task result active ((houtcome task active).trans outcome) (hreactions.trans reactions) (hjobs.trans jobs)
  | ended _ task result active outcome reactions jobs =>
    exact .ended _ task result active (by rw [houtcome task active]; exact outcome) (hreactions.trans reactions)
      (hjobs.trans jobs)

theorem Slot.queued_link (h : t.Slot completed) {queued : Nat} (hqueued : t.queuedPromise = some queued) :
    ∃ promise, completed = some promise ∧ (promise, .resolve queued) ∈ t.promises.reactions := by
  cases h with
  | empty hnone => rw [hnone] at hqueued; cases hqueued
  | full completed queued' hqueued' link =>
    rw [hqueued'] at hqueued
    cases hqueued
    exact ⟨completed, rfl, link⟩

/-! ## A task is settled -/

theorem Wired.free (h : t.Wired) {task : Started} (htask : task ∈ t.started) (hlink : link ∈ t.promises.links) :
    link.2.target ≠ task.promise :=
  (h.tasks task htask).2 link hlink

theorem Wired.settleTask (h : t.Wired) {task : Started} {o : Outcome α ε} (htask : task ∈ t.started)
    (hkind : task.queued = true → ∀ e, o ≠ .rejected e) :
    ({ t with promises := t.promises.settle task.promise o } : Throttler α ε).Wired := by
  by_cases hpending : t.promises.outcome task.promise = none
  swap
  · rw [Promises.settle_of_settled hpending]
    exact h
  obtain ⟨completed, hslot, hphase⟩ := h.phase
  have hactive := h.pending task htask hpending
  have hself : (t.promises.settle task.promise o).outcome task.promise = some o :=
    Promises.settle_outcome_self (h.tasks task htask).1 hpending
  have hlinks : ∀ link ∈ (t.promises.settle task.promise o).links, link ∈ t.promises.links :=
    fun link hlink => Promises.settle_links.mem_iff.mp hlink
  -- what the callbacks settle is not the task
  have hwaits : ∀ completed', completed = some completed' → completed' ≠ task.promise := by
    rintro completed' rfl
    obtain ⟨source, hsource⟩ := hphase.onComplete_mem
    exact h.free htask hsource
  refine ⟨h.good.settle fun link hlink => h.free htask hlink, fun link hlink hadopt => ?_, ⟨completed, ?_, ?_⟩,
    fun task' htask' => ⟨?_, fun link hlink => h.free htask' (hlinks link hlink)⟩, fun task' htask' hnone => ?_, h.active,
    h.distinct, fun task' htask' hqueued e hrejected => ?_, fun completed' queued hlink => ?_, fun call hcall => ?_⟩
  · rcases Promises.mem_settle_jobs hlink with hlink | hsource
    · obtain ⟨o', ho'⟩ := Option.ne_none_iff_exists'.mp (h.ready link hlink hadopt)
      rw [Promises.settle_outcome_of_settled ho']
      exact fun hnone => nomatch hnone
    · rw [hsource, hself]
      exact fun hnone => nomatch hnone
  · exact hslot.frame fun link hlink heq => Promises.mem_settle_reactions hlink (hwaits link.1 heq)
  · cases hphase with
    | idle active => rw [active] at hactive; cases hactive
    | waking _ _ active => rw [active] at hactive; cases hactive
    | running _ task' result active outcome reactions jobs =>
      obtain rfl : task' = task.promise := Option.some.inj (active.symm.trans hactive)
      have hall : ∀ link ∈ (task.promise, Reaction.clear result) :: onCompletes task.promise completed,
          link.1 = task.promise := by
        intro link hlink
        rcases mem_cons.mp hlink with rfl | hlink
        · rfl
        · obtain ⟨promise, -, rfl⟩ := mem_map.mp hlink
          rfl
      refine .ended completed task.promise result active (by rw [hself]; exact fun hnone => nomatch hnone) ?_ ?_
      · rw [Promises.settle_of_pending hpending]
        show controls (t.promises.reactions.filter _) = []
        rw [controls_filter, reactions]
        exact filter_eq_nil_iff.mpr fun link hlink => by simpa using hall link hlink
      · rw [Promises.settle_of_pending hpending]
        show controls (t.promises.jobs ++ t.promises.reactions.filter _) = _
        rw [controls_append, controls_filter, jobs, reactions, nil_append]
        exact filter_eq_self.mpr fun link hlink => by simpa using hall link hlink
    | ended _ task' result active outcome =>
      obtain rfl : task' = task.promise := Option.some.inj (active.symm.trans hactive)
      exact absurd hpending outcome
  · rw [Promises.settle_length]
    exact (h.tasks task' htask').1
  · by_cases hsame : task'.promise = task.promise
    · rw [hsame, hself] at hnone
      cases hnone
    · rw [Promises.settle_outcome_ne hsame] at hnone
      exact h.pending task' htask' hnone
  · by_cases hsame : task'.promise = task.promise
    · obtain rfl : task' = task := inj_on_of_nodup_map h.distinct htask' htask hsame
      rw [hself] at hrejected
      cases hrejected
      exact hkind hqueued e rfl
    · rw [Promises.settle_outcome_ne hsame] at hrejected
      exact h.kind task' htask' hqueued e hrejected
  · exact (h.resolves completed' queued (hlinks _ hlink)).imp_right fun ⟨task', htask', hqueued, hgets⟩ =>
      ⟨task', htask', hqueued, hgets.settle⟩
  · refine (h.calls call hcall).imp (fun ⟨task', htask', hgets⟩ => ⟨task', htask', hgets.settle⟩) ?_
    rintro ⟨hbefore, queued, hqueued, hforward⟩
    refine ⟨hbefore, queued, hqueued, Promises.mem_settle_reactions hforward ?_⟩
    obtain ⟨promise, -, hlink⟩ := hslot.queued_link hqueued
    exact h.free htask (mem_append_left _ hlink)

/-! ## A callback is run -/

theorem Wired.pass (h : t.Wired) {link : Nat × Reaction} {jobs : List (Nat × Reaction)} {o : Outcome α ε} {active : Option Nat}
    (hjobs : t.promises.jobs = link :: jobs) (ho : t.promises.outcome link.1 = some o)
    (hcompleted : ∀ source p, link ≠ (source, .onComplete p))
    (hphase : ∀ completed, t.Slot completed → t.Phase completed →
      ({ t with
          promises := (t.taken jobs).settle link.2.target o
          activePromise := active } : Throttler α ε).Phase completed)
    (hpending : ∀ task ∈ t.started, t.promises.outcome task.promise = none → active = some task.promise)
    (hactive : ∀ promise, active = some promise → t.activePromise = some promise) :
    ({ t with
        promises := (t.taken jobs).settle link.2.target o
        activePromise := active } : Throttler α ε).Wired := by
  obtain ⟨hgood, hdistinct, hmem⟩ := h.good.pop hjobs
  obtain ⟨completed, hslot, hphase'⟩ := h.phase
  have hlink : link ∈ t.promises.links := (hmem link).mpr (.inl rfl)
  have hlinks : ∀ link' ∈ ((t.taken jobs).settle link.2.target o).links,
      link' ∈ t.promises.links := fun link' hlink' => (hmem link').mpr (.inr (Promises.settle_links.mem_iff.mp hlink'))
  have hself := Promises.settle_outcome_self (s := t.taken jobs) (o := o)
    (h.good.bounded link hlink).2 (h.good.unsettled link hlink)
  have hkept : ∀ p o', t.promises.outcome p = some o' →
      ((t.taken jobs).settle link.2.target o).outcome p = some o' :=
    fun p o' hp => Promises.settle_outcome_of_settled (s := t.taken jobs) hp
  have htask : ∀ task ∈ t.started,
      ((t.taken jobs).settle link.2.target o).outcome task.promise =
        t.promises.outcome task.promise :=
    fun task htask => Promises.settle_outcome_ne fun heq => h.free htask hlink heq.symm
  have hreaction : ∀ link' ∈ t.promises.reactions, link'.1 ≠ link.2.target →
      link' ∈ ((t.taken jobs).settle link.2.target o).reactions :=
    fun link' hlink' hne => Promises.mem_settle_reactions hlink' hne
  refine ⟨hgood.settle hdistinct, fun link' hlink' hadopt => ?_, ⟨completed, ?_, hphase completed hslot hphase'⟩,
    fun task htask' => ⟨?_, fun link' hlink' => h.free htask' (hlinks link' hlink')⟩, fun task htask' hnone => ?_,
    fun promise hpromise => h.active promise (hactive promise hpromise), h.distinct, fun task htask' hqueued e => ?_,
    fun completed' queued hlink' => ?_, fun call hcall => ?_⟩
  · rcases Promises.mem_settle_jobs hlink' with hlink' | hsource
    · obtain ⟨o', ho'⟩ := Option.ne_none_iff_exists'.mp
        (h.ready link' (by rw [hjobs]; exact mem_cons_of_mem _ hlink') hadopt)
      rw [hkept _ o' ho']
      exact fun hnone => nomatch hnone
    · rw [hsource, hself]
      exact fun hnone => nomatch hnone
  · refine hslot.frame fun link' hlink' heq => hreaction link' hlink' fun hsource => ?_
    rw [hsource] at heq
    subst heq
    obtain ⟨source, hsource⟩ := hphase'.onComplete_mem
    exact hcompleted source link.2.target (h.good.eq_of_target hlink hsource rfl)
  · rw [Promises.settle_length]
    exact (h.tasks task htask').1
  · rw [htask task htask'] at hnone
    exact hpending task htask' hnone
  · rw [htask task htask']
    exact h.kind task htask' hqueued e
  · exact (h.resolves completed' queued (hlinks _ hlink')).imp_right fun ⟨task, htask', hqueued, hgets⟩ =>
      ⟨task, htask', hqueued, hgets.run h.good hjobs ho⟩
  · refine (h.calls call hcall).imp (fun ⟨task, htask', hgets⟩ => ⟨task, htask', hgets.run h.good hjobs ho⟩) ?_
    rintro ⟨hbefore, queued, hqueued, hforward⟩
    refine ⟨hbefore, queued, hqueued, hreaction _ hforward ?_⟩
    obtain ⟨promise, -, hresolve⟩ := hslot.queued_link hqueued
    exact hdistinct _ (mem_append_left _ hresolve)

theorem Wired.pass_on (h : t.Wired) {link : Nat × Reaction} {jobs : List (Nat × Reaction)} {o : Outcome α ε}
    (hjobs : t.promises.jobs = link :: jobs) (ho : t.promises.outcome link.1 = some o) (hcontrol : isControl link.2 = false) :
    ({ t with promises := (t.taken jobs).settle link.2.target o } :
      Throttler α ε).Wired := by
  obtain ⟨-, hdistinct, hmem⟩ := h.good.pop hjobs
  have hlink : link ∈ t.promises.links := (hmem link).mpr (.inl rfl)
  refine h.pass hjobs ho (fun source p heq => ?_) (fun completed hslot hphase => ?_) h.pending fun _ => id
  · rw [heq] at hcontrol
    cases hcontrol
  · have hpending : (t.taken jobs).outcome link.2.target = none :=
      h.good.unsettled link hlink
    -- what waits for the active task does not wait for this promise
    have hsource : ∀ link' ∈ controls t.promises.reactions, link'.1 ≠ link.2.target := by
      intro link' hlink' heq
      obtain ⟨task, htask, hpromise⟩ := h.active _ (hphase.source hlink')
      exact h.free htask hlink (by rw [hpromise]; exact heq.symm)
    refine hphase.frame (fun task hactive => ?_) ?_ ?_
    · obtain ⟨task', htask', hpromise⟩ := h.active _ hactive
      exact Promises.settle_outcome_ne fun heq => h.free htask' hlink (by rw [hpromise]; exact heq.symm)
    · rw [Promises.settle_of_pending hpending]
      show controls (t.promises.reactions.filter _) = _
      rw [controls_filter]
      exact filter_eq_self.mpr fun link' hlink' => by simpa using hsource link' hlink'
    · rw [Promises.settle_of_pending hpending, hjobs]
      show controls (jobs ++ t.promises.reactions.filter _) = controls (link :: jobs)
      rw [controls_append, controls_filter, filter_eq_nil_iff.mpr fun link' hlink' => by simpa using hsource link' hlink',
        append_nil]
      unfold controls
      rw [filter_cons, if_neg (by rw [hcontrol]; decide)]

variable {jobs : List (Nat × Reaction)}

theorem Phase.of_clear (h : t.Phase completed) {source result : Nat}
    (hjobs : t.promises.jobs = (source, .clear result) :: jobs) :
    t.activePromise = some source ∧ controls t.promises.reactions = [] ∧ controls jobs = onCompletes source completed := by
  have hcontrols : controls t.promises.jobs = (source, .clear result) :: controls jobs := by
    rw [hjobs]
    rfl
  cases h with
  | idle _ _ hnone => rw [hnone] at hcontrols; cases hcontrols
  | waking _ _ _ _ hone => rw [hone] at hcontrols; cases hcontrols
  | running _ _ _ _ _ _ hnone => rw [hnone] at hcontrols; cases hcontrols
  | ended _ task result' active outcome reactions hended =>
    rw [hended] at hcontrols
    obtain ⟨hfirst, hrest⟩ := List.cons.inj hcontrols
    obtain rfl : task = source := congrArg Prod.fst hfirst
    exact ⟨active, reactions, hrest.symm⟩

/-- The active promise is set to null, and the promise that was returned for the task is settled. -/
theorem Wired.clear (h : t.Wired) {source result : Nat} {jobs : List (Nat × Reaction)} {o : Outcome α ε}
    (hjobs : t.promises.jobs = (source, .clear result) :: jobs) (ho : t.promises.outcome source = some o) :
    ({ t with
        promises := (t.taken jobs).settle result o
        activePromise := none } : Throttler α ε).Wired := by
  obtain ⟨-, -, hmem⟩ := h.good.pop hjobs
  have hlink : (source, Reaction.clear result) ∈ t.promises.links := (hmem _).mpr (.inl rfl)
  have hpending : (t.taken jobs).outcome result = none :=
    h.good.unsettled _ hlink
  obtain ⟨completed, -, hphase⟩ := h.phase
  have hactive := (hphase.of_clear hjobs).1
  refine h.pass hjobs ho (fun _ _ heq => nomatch heq) (fun completed hslot hphase => ?_) (fun task htask hnone => ?_)
    fun _ hnone => nomatch hnone
  · obtain ⟨-, hreactions, hafter⟩ := hphase.of_clear hjobs
    have hreactions' : controls ((t.taken jobs).settle result o).reactions = [] := by
      rw [Promises.settle_of_pending hpending]
      show controls (t.promises.reactions.filter _) = []
      rw [controls_filter, hreactions]
      rfl
    have hjobs' : controls ((t.taken jobs).settle result o).jobs =
        onCompletes source completed := by
      rw [Promises.settle_of_pending hpending]
      show controls (jobs ++ t.promises.reactions.filter _) = _
      rw [controls_append, controls_filter, hreactions, hafter]
      exact append_nil _
    cases completed with
    | none => exact .idle rfl hreactions' hjobs'
    | some completed => exact .waking source completed rfl hreactions' hjobs'
  · -- the only task that could run has ended
    have hsame := h.pending task htask hnone
    rw [hactive] at hsame
    rw [← Option.some.inj hsame, ho] at hnone
    cases hnone

variable {source promise : Nat}

theorem Wired.adopt (h : t.Wired) (hjobs : t.promises.jobs = (source, .adopt promise) :: jobs) :
    ({ t with promises := (t.taken jobs).andThen source (.forward promise) } :
      Throttler α ε).Wired := by
  obtain ⟨hgood, hdistinct, hmem⟩ := h.good.pop hjobs
  obtain ⟨completed, hslot, hphase⟩ := h.phase
  have hlink : (source, Reaction.adopt promise) ∈ t.promises.links := (hmem _).mpr (.inl rfl)
  obtain ⟨hsource, htarget⟩ := h.good.bounded _ hlink
  have hgrows : (t.taken jobs).Grows
      ((t.taken jobs).andThen source (.forward promise)) :=
    Promises.grows_andThen
  have hlinks : ∀ link, link ∈ ((t.taken jobs).andThen source
      (.forward promise)).links → link = (source, .forward promise) ∨ link ∈ t.promises.links := fun link hlink' =>
    (mem_cons.mp (Promises.andThen_links.mem_iff.mp hlink')).imp_right fun hlink' => (hmem link).mpr (.inr hlink')
  have hgets : ∀ task p, t.Gets task p →
      ({ t with promises := (t.taken jobs).andThen source (.forward promise) } :
        Throttler α ε).Gets task p := by
    intro task p hgets
    refine hgets.mono (fun p => hgrows.outcome p) fun link hlink' hcarries => ?_
    rcases (hmem link).mp hlink' with rfl | hrest
    · exact ⟨.forward promise, Promises.andThen_links.mem_iff.mpr mem_cons_self, rfl, rfl⟩
    · exact ⟨link.2, hgrows.links link hrest, rfl, hcarries⟩
  refine ⟨hgood.andThen hsource htarget (h.good.unsettled _ hlink) hdistinct, fun link hlink' hadopt => ?_, ⟨completed, ?_, ?_⟩,
    fun task htask => ⟨?_, fun link hlink' => ?_⟩, fun task htask hnone => ?_, h.active, h.distinct,
    fun task htask hqueued e => ?_, fun completed' queued hlink' => ?_, fun call hcall => ?_⟩
  · rw [hgrows.outcome]
    unfold Promises.andThen at hlink'
    split at hlink'
    · next hsettled =>
      rcases mem_append.mp hlink' with hlink' | hlink'
      · exact h.ready link (by rw [hjobs]; exact mem_cons_of_mem _ hlink') hadopt
      · obtain rfl := List.mem_singleton.mp hlink'
        exact Option.isSome_iff_ne_none.mp hsettled
    · exact h.ready link (by rw [hjobs]; exact mem_cons_of_mem _ hlink') hadopt
  · exact hslot.frame fun link hlink' _ => hgrows.reactions link hlink'
  · refine hphase.frame (fun task _ => hgrows.outcome task) ?_ ?_
    · unfold Promises.andThen
      split
      · rfl
      · show controls (t.promises.reactions ++ [(source, .forward promise)]) = _
        rw [controls_append]
        exact append_nil _
    · rw [hjobs]
      unfold Promises.andThen
      split
      · show controls (jobs ++ [(source, .forward promise)]) = controls jobs
        rw [controls_append]
        exact append_nil _
      · rfl
  · exact Nat.lt_of_lt_of_le (h.tasks task htask).1 hgrows.length
  · rcases hlinks link hlink' with rfl | hlink'
    · show promise ≠ task.promise
      exact h.free htask hlink
    · exact h.free htask hlink'
  · exact h.pending task htask ((hgrows.outcome _).symm.trans hnone)
  · rw [hgrows.outcome]
    exact h.kind task htask hqueued e
  · rcases hlinks _ hlink' with heq | hlink'
    · cases heq
    · exact (h.resolves completed' queued hlink').imp_right fun ⟨task, htask, hqueued, hg⟩ =>
        ⟨task, htask, hqueued, hgets _ _ hg⟩
  · refine (h.calls call hcall).imp (fun ⟨task, htask, hg⟩ => ⟨task, htask, hgets _ _ hg⟩) ?_
    rintro ⟨hbefore, queued, hqueued, hforward⟩
    exact ⟨hbefore, queued, hqueued, hgrows.reactions _ hforward⟩

/-! ## A task is started -/

/-- The promises after the promises of a task and of its call are made. -/
def begun (s : Promises Reaction (Outcome α ε)) (already : Option (Outcome α ε)) : Promises Reaction (Outcome α ε) :=
  let created := s.create.1
  let settled := match already with
    | some o => created.settle s.outcomes.length o
    | none => created
  settled.create.1.andThen s.outcomes.length (.clear (s.outcomes.length + 1))

theorem start_eq (t : Throttler α ε) (factory : Factory α ε) (queued : Bool) :
    t.start factory queued =
      ({ t with
          promises := begun t.promises factory.already
          activePromise := some t.promises.outcomes.length
          started := t.started ++ [⟨factory.call, t.promises.outcomes.length, queued⟩] },
        t.promises.outcomes.length + 1) := by
  unfold start begun
  cases factory.already with
  | none => simp [Promises.create]
  | some o => simp only [Promises.create, Promises.settle_length, length_append, length_singleton]

section Begun

variable {s : Promises Reaction (Outcome α ε)} {already : Option (Outcome α ε)}

section

variable (h : s.Good Reaction.target)
include h

theorem begun_eq :
    begun s already =
      ({ s with outcomes := s.outcomes ++ [already, none] } : Promises Reaction (Outcome α ε)).andThen s.outcomes.length
        (.clear (s.outcomes.length + 1)) := by
  unfold begun
  cases already with
  | none => simp [Promises.create]
  | some o =>
    have hnone : s.create.1.outcome s.outcomes.length = none := by
      rw [Promises.create_outcome, Promises.outcome_of_length_le (Nat.le_refl _)]
    have hother : ∀ link ∈ s.reactions, link.1 ≠ s.outcomes.length := fun link hlink =>
      Nat.ne_of_lt (h.bounded link (mem_append_left _ hlink)).1
    dsimp only
    rw [Promises.settle_of_pending hnone]
    have hreactions : (s.create.1.reactions.filter fun link => link.1 ≠ s.outcomes.length) = s.reactions :=
      filter_eq_self.mpr fun link hlink => by simpa using hother link hlink
    have hjobs : (s.create.1.reactions.filter fun link => link.1 = s.outcomes.length) = [] :=
      filter_eq_nil_iff.mpr fun link hlink => by simpa using hother link hlink
    rw [hreactions, hjobs, append_nil]
    simp [Promises.create]

theorem begun_outcome_self : (begun s already).outcome s.outcomes.length = already := by
  rw [begun_eq h, Promises.andThen_outcome]
  simp [Promises.outcome]

theorem begun_outcome_ne {p : Nat} (hne : p ≠ s.outcomes.length) :
    (begun s already).outcome p = s.outcome p := by
  rw [begun_eq h, Promises.andThen_outcome]
  unfold Promises.outcome
  by_cases hlt : p < s.outcomes.length
  · rw [List.getElem?_append_left hlt]
  · rw [getElem?_append_right (Nat.le_of_not_lt hlt), getElem?_eq_none (Nat.le_of_not_lt hlt)]
    obtain ⟨k, hk⟩ : ∃ k, p - s.outcomes.length = k + 1 := ⟨p - s.outcomes.length - 1, by omega⟩
    rw [hk]
    cases k <;> rfl

theorem begun_length :
    (begun s already).outcomes.length = s.outcomes.length + 2 := by
  rw [begun_eq h, Promises.andThen_length]
  simp

theorem begun_links :
    (begun s already).links.Perm ((s.outcomes.length, .clear (s.outcomes.length + 1)) :: s.links) := by
  rw [begun_eq h]
  exact Promises.andThen_links

/-- The callback waits for the task, or is run soon if the task is settled. -/
theorem begun_cases (already : Option (Outcome α ε)) :
    (already = none ∧ (begun s already).reactions = s.reactions ++ [(s.outcomes.length, .clear (s.outcomes.length + 1))] ∧
        (begun s already).jobs = s.jobs) ∨
      (already ≠ none ∧ (begun s already).reactions = s.reactions ∧
        (begun s already).jobs = s.jobs ++ [(s.outcomes.length, .clear (s.outcomes.length + 1))]) := by
  have houtcome : ({ s with outcomes := s.outcomes ++ [already, none] } : Promises Reaction (Outcome α ε)).outcome
      s.outcomes.length = already := by
    simp [Promises.outcome]
  rw [begun_eq h]
  unfold Promises.andThen
  rw [houtcome]
  cases already with
  | none => exact .inl ⟨rfl, rfl, rfl⟩
  | some o => exact .inr ⟨Option.some_ne_none o, rfl, rfl⟩

theorem begun_good (already : Option (Outcome α ε)) : (begun s already).Good Reaction.target where
  waiting link hlink := by
    rcases begun_cases h already with ⟨hnone, hreactions, -⟩ | ⟨-, hreactions, -⟩
    · rw [hreactions] at hlink
      rcases mem_append.mp hlink with hlink | hlink
      · rw [begun_outcome_ne h (Nat.ne_of_lt (h.bounded link (mem_append_left _ hlink)).1)]
        exact h.waiting link hlink
      · obtain rfl := List.mem_singleton.mp hlink
        exact (begun_outcome_self h).trans hnone
    · rw [hreactions] at hlink
      rw [begun_outcome_ne h (Nat.ne_of_lt (h.bounded link (mem_append_left _ hlink)).1)]
      exact h.waiting link hlink
  bounded link hlink := by
    rw [begun_length h]
    rcases mem_cons.mp ((begun_links h).mem_iff.mp hlink) with rfl | hlink
    · exact ⟨Nat.lt_add_of_pos_right (by decide), Nat.lt_succ_self _⟩
    · have := h.bounded link hlink
      omega
  unsettled link hlink := by
    rcases mem_cons.mp ((begun_links h).mem_iff.mp hlink) with rfl | hlink
    · rw [begun_outcome_ne h (by simp [Reaction.target])]
      exact Promises.outcome_of_length_le (Nat.le_succ _)
    · rw [begun_outcome_ne h (Nat.ne_of_lt (h.bounded link hlink).2)]
      exact h.unsettled link hlink
  distinct := by
    refine (((begun_links h).map fun link => link.2.target).nodup_iff).mpr (nodup_cons.mpr ⟨fun hmem => ?_, h.distinct⟩)
    obtain ⟨link, hlink, heq⟩ := mem_map.mp hmem
    have hlt := (h.bounded link hlink).2
    rw [heq] at hlt
    exact absurd hlt (by simp [Reaction.target])

end

theorem begun_follows {task p : Nat}
    (hfollows : s.Follows Reaction.target Reaction.carries task p) :
    (begun s already).Follows Reaction.target Reaction.carries task p := by
  refine Promises.Follows.grows ?_ Promises.grows_andThen
  refine Promises.Follows.grows ?_ Promises.grows_create
  cases already with
  | none => exact hfollows.grows Promises.grows_create
  | some o => exact (hfollows.grows Promises.grows_create).settle

end Begun

variable {s promises : Promises Reaction (Outcome α ε)}

theorem Wired.start_tasks (h : t.Wired) (call : Nat) (queued : Bool) (hactive : t.activePromise = none)
    {already : Option (Outcome α ε)} (hgood : s.Good Reaction.target) (hsame : s.outcomes = t.promises.outcomes)
    (hgrows : (begun s already).Grows promises)
    (hlinks : ∀ link ∈ promises.links, link.2.target = s.outcomes.length + 1 ∨ ∃ link' ∈ t.promises.links, link'.2.target = link.2.target)
    (hkind : queued = true → ∀ e, already ≠ some (.rejected e)) :
    let started := t.started ++ [⟨call, s.outcomes.length, queued⟩]
    (∀ task ∈ started, task.promise < promises.outcomes.length ∧ ∀ link ∈ promises.links, link.2.target ≠ task.promise) ∧
      (∀ task ∈ started, promises.outcome task.promise = none → some s.outcomes.length = some task.promise) ∧
      (started.map (·.promise)).Nodup ∧
      ∀ task ∈ started, task.queued = true → ∀ e, promises.outcome task.promise ≠ some (.rejected e) := by
  have hlength : s.outcomes.length = t.promises.outcomes.length := by rw [hsame]
  have hgrown := hgrows.length
  rw [begun_length hgood] at hgrown
  have hold : ∀ task ∈ t.started, task.promise < s.outcomes.length := fun task htask => by
    rw [hlength]
    exact (h.tasks task htask).1
  have houtcome : ∀ task ∈ t.started, promises.outcome task.promise = t.promises.outcome task.promise := by
    intro task htask
    rw [hgrows.outcome, begun_outcome_ne hgood (Nat.ne_of_lt (hold task htask))]
    unfold Promises.outcome
    rw [hsame]
  have hself : promises.outcome s.outcomes.length = already := (hgrows.outcome _).trans (begun_outcome_self hgood)
  intro started
  refine ⟨fun task htask => ?_, fun task htask hnone => ?_, ?_, fun task htask hqueued e => ?_⟩
  · rcases mem_append.mp htask with htask | htask
    · have hlt := hold task htask
      refine ⟨by omega, fun link hlink => ?_⟩
      rcases hlinks link hlink with heq | ⟨link', hlink', heq⟩
      · omega
      · rw [← heq]
        exact h.free htask hlink'
    · obtain rfl := List.mem_singleton.mp htask
      refine ⟨by show s.outcomes.length < _; omega, fun link hlink => ?_⟩
      show link.2.target ≠ s.outcomes.length
      rcases hlinks link hlink with heq | ⟨link', hlink', heq⟩
      · omega
      · have := (h.good.bounded link' hlink').2
        omega
  · rcases mem_append.mp htask with htask | htask
    · rw [houtcome task htask] at hnone
      have := h.pending task htask hnone
      rw [hactive] at this
      cases this
    · rw [List.mem_singleton.mp htask]
  · rw [map_append, nodup_append]
    refine ⟨h.distinct, by simp, fun p hp q hq heq => ?_⟩
    obtain ⟨task, htask, rfl⟩ := mem_map.mp hp
    obtain rfl : q = s.outcomes.length := by simpa using hq
    exact absurd heq (Nat.ne_of_lt (hold task htask))
  · rcases mem_append.mp htask with htask | htask
    · rw [houtcome task htask]
      exact h.kind task htask hqueued e
    · obtain rfl := List.mem_singleton.mp htask
      show promises.outcome s.outcomes.length ≠ _
      rw [hself]
      exact hkind hqueued e

theorem phase_begun {t' : Throttler α ε} (already : Option (Outcome α ε)) (hgood : s.Good Reaction.target)
    (hactive : t'.activePromise = some s.outcomes.length) (houtcome : t'.promises.outcome s.outcomes.length = already)
    (hreactions : controls t'.promises.reactions = controls (begun s already).reactions)
    (hjobs : controls t'.promises.jobs = controls (begun s already).jobs) (hnoReactions : controls s.reactions = [])
    (hnoJobs : controls s.jobs = []) : t'.Phase none := by
  rcases begun_cases hgood already with ⟨hnone, hreactions', hjobs'⟩ | ⟨hsome, hreactions', hjobs'⟩
  · refine .running none _ (s.outcomes.length + 1) hactive (houtcome.trans hnone) ?_ ?_
    · rw [hreactions, hreactions', controls_append, hnoReactions]
      rfl
    · rw [hjobs, hjobs', hnoJobs]
  · refine .ended none _ (s.outcomes.length + 1) hactive (by rw [houtcome]; exact hsome) ?_ ?_
    · rw [hreactions, hreactions', hnoReactions]
    · rw [hjobs, hjobs', controls_append, hnoJobs]
      rfl

theorem Phase.of_onComplete (h : t.Phase completed) (hjobs : t.promises.jobs = (source, .onComplete promise) :: jobs) :
    t.activePromise = none ∧ completed = some promise ∧ controls t.promises.reactions = [] ∧ controls jobs = [] := by
  have hcontrols : controls t.promises.jobs = (source, .onComplete promise) :: controls jobs := by
    rw [hjobs]
    rfl
  cases h with
  | idle _ _ hnone => rw [hnone] at hcontrols; cases hcontrols
  | waking source' completed active reactions hone =>
    rw [hone] at hcontrols
    obtain ⟨hfirst, hrest⟩ := List.cons.inj hcontrols
    obtain rfl : completed = promise := Reaction.onComplete.inj (congrArg Prod.snd hfirst)
    exact ⟨active, rfl, reactions, hrest.symm⟩
  | running _ _ _ _ _ _ hnone => rw [hnone] at hcontrols; cases hcontrols
  | ended _ task result active outcome reactions hended =>
    rw [hended] at hcontrols
    have hfirst := congrArg Prod.snd (List.cons.inj hcontrols).1
    cases hfirst

theorem onComplete_eq {t : Throttler α ε} {factory : Factory α ε} (hactive : t.activePromise = none)
    (hfactory : t.queuedPromiseFactory = some factory) (typeError : ε) (promise : Nat) :
    t.onComplete typeError promise =
      { t with
        promises := (begun t.promises factory.already).enqueue (t.promises.outcomes.length + 1) (.adopt promise)
        activePromise := some t.promises.outcomes.length
        queuedPromise := none
        queuedPromiseFactory := none
        started := t.started ++ [⟨factory.call, t.promises.outcomes.length, true⟩] } := by
  unfold Throttler.onComplete
  rw [hfactory]
  simp only [queue, hactive, start_eq]

theorem Inv.onComplete (h : t.Inv) (typeError : ε) (hjobs : t.promises.jobs = (source, .onComplete promise) :: jobs)
    (hkind : ∀ factory, t.queuedPromiseFactory = some factory → ∀ e, factory.already ≠ some (.rejected e)) :
    (({ t with promises := { t.promises with jobs } } : Throttler α ε).onComplete typeError promise).Inv := by
  obtain ⟨hgood, hdistinct, hmem⟩ := h.good.pop hjobs
  obtain ⟨completed, hslot, hphase⟩ := h.phase
  obtain ⟨hactive, rfl, hnoReactions, hnoJobs⟩ := hphase.of_onComplete hjobs
  have hlink : (source, Reaction.onComplete promise) ∈ t.promises.links := (hmem _).mpr (.inl rfl)
  cases hslot with | full _ queued hqueued hresolve =>
  obtain ⟨factory, hfactory, hlast, hbefore⟩ := h.factory queued hqueued
  rw [onComplete_eq (t := { t with promises := { t.promises with jobs } }) hactive hfactory]
  dsimp only
  have hs : ∀ p, ({ t.promises with jobs } : Promises Reaction (Outcome α ε)).outcome p = t.promises.outcome p := fun _ => rfl
  generalize hsdef : ({ t.promises with jobs } : Promises Reaction (Outcome α ε)) = s at hgood hdistinct hmem hs ⊢
  have hreactions : s.reactions = t.promises.reactions := by rw [← hsdef]
  have hsjobs : s.jobs = jobs := by rw [← hsdef]
  have houtcomes : s.outcomes = t.promises.outcomes := by rw [← hsdef]
  rw [← houtcomes]
  have hpromise : promise < s.outcomes.length := by
    rw [houtcomes]
    exact (h.good.bounded _ hlink).2
  have hbegun := begun_good hgood factory.already
  have hgrows : (begun s factory.already).Grows
      ((begun s factory.already).enqueue (s.outcomes.length + 1) (.adopt promise)) := Promises.grows_enqueue
  have hadopt : (s.outcomes.length + 1, Reaction.adopt promise) ∈
      ((begun s factory.already).enqueue (s.outcomes.length + 1) (.adopt promise)).links :=
    Promises.enqueue_links.mem_iff.mpr mem_cons_self
  have hclear : (s.outcomes.length, Reaction.clear (s.outcomes.length + 1)) ∈
      ((begun s factory.already).enqueue (s.outcomes.length + 1) (.adopt promise)).links :=
    hgrows.links _ ((begun_links hgood).mem_iff.mpr mem_cons_self)
  have hrest : ∀ link ∈ s.links,
      link ∈ ((begun s factory.already).enqueue (s.outcomes.length + 1) (.adopt promise)).links :=
    fun link hlink => hgrows.links _ ((begun_links hgood).mem_iff.mpr (mem_cons_of_mem _ hlink))
  have hlinks : ∀ link ∈ ((begun s factory.already).enqueue (s.outcomes.length + 1) (.adopt promise)).links,
      link = (s.outcomes.length + 1, .adopt promise) ∨ link = (s.outcomes.length, .clear (s.outcomes.length + 1)) ∨
        link ∈ s.links := fun link hlink' =>
    (mem_cons.mp (Promises.enqueue_links.mem_iff.mp hlink')).imp_right fun hlink' =>
      mem_cons.mp ((begun_links hgood).mem_iff.mp hlink')
  have hgets : ∀ task p, t.Gets task p →
      ((begun s factory.already).enqueue (s.outcomes.length + 1) (.adopt promise)).Follows Reaction.target Reaction.carries
        task p := by
    intro task p hgets
    refine (begun_follows ?_).grows hgrows
    refine hgets.mono hs fun link hlink' hcarries => ?_
    rcases (hmem link).mp hlink' with rfl | hlink'
    · cases hcarries
    · exact ⟨link.2, hlink', rfl, hcarries⟩
  -- the outcome of the new task reaches the promise of `onComplete`, and from there the queued promise
  have hcompleted : ((begun s factory.already).enqueue (s.outcomes.length + 1) (.adopt promise)).Follows Reaction.target
      Reaction.carries s.outcomes.length promise :=
    .link hadopt rfl (.link hclear rfl .self)
  have hresolve' : (promise, Reaction.resolve queued) ∈ s.links := mem_append_left _ (by rw [hreactions]; exact hresolve)
  have hwaits : ((begun s factory.already).enqueue (s.outcomes.length + 1) (.adopt promise)).Follows Reaction.target
      Reaction.carries s.outcomes.length queued :=
    .link (hrest _ hresolve') rfl hcompleted
  obtain ⟨htasks, hpending, hnodup, hkind'⟩ := h.start_tasks factory.call true hactive hgood houtcomes
    hgrows (fun link hlink' => by
      rcases hlinks link hlink' with rfl | rfl | hlink'
      · exact .inr ⟨_, hlink, rfl⟩
      · exact .inl rfl
      · exact .inr ⟨link, (hmem link).mpr (.inr hlink'), rfl⟩)
    (fun _ => hkind factory hfactory)
  refine ⟨⟨hbegun.enqueue ?_ ?_ ?_ ?_, fun link hlink' hnot => ?_, ⟨none, .empty rfl, ?_⟩, htasks, hpending,
    fun p hp => ⟨⟨factory.call, s.outcomes.length, true⟩, by simp, Option.some.inj hp⟩, hnodup, hkind',
    fun completed' queued' hlink' => ?_, fun call hcall => ?_⟩, fun _ hnone => (nomatch hnone), fun k task htask => ?_⟩
  · rw [begun_length hgood]
    exact Nat.lt_succ_self _
  · rw [begun_length hgood]
    exact Nat.lt_add_right 2 hpromise
  · show (begun s factory.already).outcome promise = none
    rw [begun_outcome_ne hgood (by omega), hs]
    exact h.good.unsettled _ hlink
  · intro link hlink'
    rcases mem_cons.mp ((begun_links hgood).mem_iff.mp hlink') with rfl | hlink'
    · show s.outcomes.length + 1 ≠ promise
      omega
    · exact hdistinct link hlink'
  · rw [hgrows.outcome]
    rcases mem_append.mp hlink' with hlink' | hlink'
    · rcases begun_cases hgood factory.already with ⟨-, -, hj⟩ | ⟨hsome, -, hj⟩
      · rw [hj, hsjobs] at hlink'
        have hmem' : link ∈ t.promises.jobs := by rw [hjobs]; exact mem_cons_of_mem _ hlink'
        have hlt := (h.good.bounded link (mem_append_right _ hmem')).1
        rw [begun_outcome_ne hgood (by rw [houtcomes]; exact Nat.ne_of_lt hlt), hs]
        exact h.ready link hmem' hnot
      · rw [hj, hsjobs] at hlink'
        rcases mem_append.mp hlink' with hlink' | hlink'
        · have hmem' : link ∈ t.promises.jobs := by rw [hjobs]; exact mem_cons_of_mem _ hlink'
          have hlt := (h.good.bounded link (mem_append_right _ hmem')).1
          rw [begun_outcome_ne hgood (by rw [houtcomes]; exact Nat.ne_of_lt hlt), hs]
          exact h.ready link hmem' hnot
        · obtain rfl := List.mem_singleton.mp hlink'
          rw [begun_outcome_self hgood]
          exact hsome
    · obtain rfl := List.mem_singleton.mp hlink'
      exact absurd rfl (hnot promise)
  · refine phase_begun factory.already hgood rfl ?_ rfl ?_ (by rw [hreactions]; exact hnoReactions)
      (by rw [hsjobs]; exact hnoJobs)
    · exact (hgrows.outcome _).trans (begun_outcome_self hgood)
    · show controls ((begun s factory.already).jobs ++ [_]) = _
      rw [controls_append]
      exact append_nil _
  · right
    rcases hlinks _ hlink' with heq | heq | hlink'
    · cases heq
    · cases heq
    · rcases h.resolves completed' queued' ((hmem _).mpr (.inr hlink')) with hsame | ⟨task, htask, hq, hg⟩
      · -- this is the promise that was queued
        rw [hqueued] at hsame
        cases hsame
        obtain rfl : completed' = promise := congrArg Prod.fst (hgood.eq_of_target hlink' hresolve' rfl)
        exact ⟨⟨factory.call, s.outcomes.length, true⟩, by simp, rfl, hcompleted⟩
      · exact ⟨task, mem_append_left _ htask, hq, hgets _ _ hg⟩
  · left
    rcases h.calls call hcall with ⟨task, htask, hg⟩ | ⟨hcount, queued', hqueued', hforward⟩
    · exact ⟨task, by rw [List.getElem?_append_left (List.getElem?_eq_some_iff.mp htask).1]; exact htask, hgets _ _ hg⟩
    · rw [hqueued] at hqueued'
      cases hqueued'
      have hforward' : (queued, Reaction.forward call.promise) ∈ s.links :=
        mem_append_left _ (by rw [hreactions]; exact hforward)
      exact ⟨⟨factory.call, s.outcomes.length, true⟩, by simp [hcount], .link (hrest _ hforward') rfl hwaits⟩
  · by_cases hk : k < t.started.length
    · rw [List.getElem?_append_left hk] at htask
      exact h.last k task htask
    · have hk' : k = t.started.length := by
        have := (List.getElem?_eq_some_iff.mp htask).1
        simp at this
        omega
      subst hk'
      obtain rfl : task = ⟨factory.call, s.outcomes.length, true⟩ := by simpa using htask.symm
      refine ⟨hbefore, fun i call hcall hi => ?_⟩
      have hi' : i < t.calls.length := (List.getElem?_eq_some_iff.mp hcall).1
      have hlater : factory.call < i := hi
      omega

/-! ## A factory is queued -/

variable {active : Nat}

theorem Wired.makeQueued (h : t.Wired) (hactive : t.activePromise = some active) (hqueued : t.queuedPromise = none) :
    (t.queuedPromiseFor active).1.Wired ∧
      (t.queuedPromiseFor active).1.queuedPromise = some (t.queuedPromiseFor active).2 := by
  obtain ⟨completed, hslot, hphase⟩ := h.phase
  have hnone : completed = none := by
    cases hslot with
    | empty => rfl
    | full _ queued hsome => rw [hqueued] at hsome; cases hsome
  subst hnone
  obtain ⟨task, htask, rfl⟩ := h.active active hactive
  have hlt := (h.tasks task htask).1
  generalize hn : t.promises.outcomes.length = n at hlt
  have hcreated : (t.promises.create.1.create.1).outcomes.length = n + 2 := by
    rw [Promises.create_length, Promises.create_length, hn]
  have heq : t.queuedPromiseFor task.promise =
      ({ t with
          promises := (t.promises.create.1.create.1.andThen task.promise (.onComplete n)).andThen n (.resolve (n + 1))
          queuedPromise := some (n + 1) },
        n + 1) := by
    unfold queuedPromiseFor
    rw [hqueued]
    simp [Promises.create, hn]
  rw [heq]
  refine ⟨?_, rfl⟩
  have hfresh : ∀ link ∈ t.promises.links, link.2.target < n := fun link hlink => by
    rw [← hn]
    exact (h.good.bounded link hlink).2
  have hgrows1 : t.promises.Grows t.promises.create.1.create.1 := Promises.grows_create.trans Promises.grows_create
  have hgrows2 : t.promises.Grows (t.promises.create.1.create.1.andThen task.promise (.onComplete n)) :=
    hgrows1.trans Promises.grows_andThen
  have hgood1 : (t.promises.create.1.create.1).Good Reaction.target := h.good.create.create
  have hunsettled : ∀ p, n ≤ p → t.promises.outcome p = none :=
    fun p hp => Promises.outcome_of_length_le (by rw [hn]; exact hp)
  have hgood2 : (t.promises.create.1.create.1.andThen task.promise (.onComplete n)).Good Reaction.target := by
    refine hgood1.andThen (by omega) (by show n < _; omega) ?_ fun link hlink => ?_
    · rw [hgrows1.outcome]
      exact hunsettled n (Nat.le_refl n)
    · exact Nat.ne_of_lt (hfresh link hlink)
  have hlinks2 : ∀ link ∈ (t.promises.create.1.create.1.andThen task.promise (.onComplete n)).links,
      link = (task.promise, .onComplete n) ∨ link ∈ t.promises.links := fun link hlink =>
    mem_cons.mp ((Promises.andThen_links (s := t.promises.create.1.create.1)).mem_iff.mp hlink)
  have hlength2 : (t.promises.create.1.create.1.andThen task.promise (.onComplete n)).outcomes.length = n + 2 := by
    rw [Promises.andThen_length, hcreated]
  have hpending2 : (t.promises.create.1.create.1.andThen task.promise (.onComplete n)).outcome n = none := by
    rw [hgrows2.outcome]
    exact hunsettled n (Nat.le_refl n)
  -- the promise of `onComplete` is not settled, so the last callback waits
  generalize hp : t.promises.create.1.create.1.andThen task.promise (.onComplete n) = p2 at *
  have hlast : p2.andThen n (.resolve (n + 1)) = { p2 with reactions := p2.reactions ++ [(n, .resolve (n + 1))] } := by
    unfold Promises.andThen
    rw [hpending2]
    rfl
  have hgrows : t.promises.Grows (p2.andThen n (.resolve (n + 1))) := hgrows2.trans Promises.grows_andThen
  have hlinks : ∀ link ∈ (p2.andThen n (.resolve (n + 1))).links,
      link = (n, .resolve (n + 1)) ∨ link = (task.promise, .onComplete n) ∨ link ∈ t.promises.links := fun link hlink =>
    (mem_cons.mp (Promises.andThen_links.mem_iff.mp hlink)).imp_right (hlinks2 link)
  refine ⟨hgood2.andThen (by omega) (by show n + 1 < _; omega) ?_ fun link hlink => ?_, fun link hlink hadopt => ?_,
    ⟨some n, .full n (n + 1) rfl ?_, ?_⟩, fun task' htask' => ⟨?_, fun link hlink => ?_⟩, fun task' htask' hnone => ?_, h.active,
    h.distinct, fun task' htask' hq e => ?_, fun completed' queued' hlink => ?_, fun call hcall => ?_⟩
  · rw [hgrows2.outcome]
    exact hunsettled (n + 1) (Nat.le_succ n)
  · show link.2.target ≠ n + 1
    rcases hlinks2 link hlink with rfl | hlink
    · show n ≠ n + 1
      omega
    · have := hfresh link hlink
      omega
  · rw [hgrows.outcome]
    rw [hlast] at hlink
    rw [← hp] at hlink
    unfold Promises.andThen at hlink
    split at hlink
    · next hsettled =>
      rcases mem_append.mp hlink with hlink | hlink
      · exact h.ready link hlink hadopt
      · obtain rfl := List.mem_singleton.mp hlink
        rw [hgrows1.outcome] at hsettled
        exact Option.isSome_iff_ne_none.mp hsettled
    · exact h.ready link hlink hadopt
  · rw [hlast]
    exact mem_append_right _ mem_cons_self
  · -- `onComplete` stands behind the callback of the task
    cases hphase with
    | idle none => rw [none] at hactive; cases hactive
    | running _ task' result active' outcome reactions jobs =>
      obtain rfl : task' = task.promise := Option.some.inj (active'.symm.trans hactive)
      have hwaits : p2 = { t.promises.create.1.create.1 with
          reactions := t.promises.reactions ++ [(task.promise, .onComplete n)] } := by
        rw [← hp]
        unfold Promises.andThen
        rw [hgrows1.outcome, outcome]
        rfl
      refine .running (some n) task.promise result hactive ((hgrows.outcome _).trans outcome) ?_ ?_
      · rw [hlast, hwaits]
        show controls ((t.promises.reactions ++ [_]) ++ [_]) = _
        rw [controls_append, controls_append, reactions]
        rfl
      · rw [hlast, hwaits]
        exact jobs
    | ended _ task' result active' outcome reactions jobs =>
      obtain rfl : task' = task.promise := Option.some.inj (active'.symm.trans hactive)
      have hwaits : p2 = { t.promises.create.1.create.1 with jobs := t.promises.jobs ++ [(task.promise, .onComplete n)] } := by
        rw [← hp]
        unfold Promises.andThen
        rw [hgrows1.outcome, if_pos (Option.isSome_iff_ne_none.mpr outcome)]
        rfl
      refine .ended (some n) task.promise result hactive (by rw [hgrows.outcome]; exact outcome) ?_ ?_
      · rw [hlast, hwaits]
        show controls (t.promises.reactions ++ [_]) = _
        rw [controls_append, reactions]
        rfl
      · rw [hlast, hwaits]
        show controls (t.promises.jobs ++ [_]) = _
        rw [controls_append, jobs]
        rfl
  · exact Nat.lt_of_lt_of_le (h.tasks task' htask').1 hgrows.length
  · have hlt' := (h.tasks task' htask').1
    rcases hlinks link hlink with rfl | rfl | hlink
    · show n + 1 ≠ task'.promise
      omega
    · show n ≠ task'.promise
      omega
    · exact h.free htask' hlink
  · exact h.pending task' htask' ((hgrows.outcome _).symm.trans hnone)
  · rw [hgrows.outcome]
    exact h.kind task' htask' hq e
  · rcases hlinks _ hlink with heq | heq | hlink
    · cases heq
      exact .inl rfl
    · cases heq
    · right
      obtain hsome | ⟨task', htask', hq, hg⟩ := h.resolves completed' queued' hlink
      · rw [hqueued] at hsome
        cases hsome
      · exact ⟨task', htask', hq, hg.grows hgrows⟩
  · left
    obtain ⟨task', htask', hg⟩ | ⟨-, queued', hsome, -⟩ := h.calls call hcall
    · exact ⟨task', htask', hg.grows hgrows⟩
    · rw [hqueued] at hsome
      cases hsome

theorem Wired.waitForQueued (h : t.Wired) {queued before : Nat} (hqueued : t.queuedPromise = some queued)
    (hbefore : before = t.started.length) (factory : Option (Factory α ε)) :
    ({ t with
        promises := t.promises.create.1.andThen queued (.forward t.promises.outcomes.length)
        queuedPromiseFactory := factory
        calls := t.calls ++ [⟨t.promises.outcomes.length, before⟩] } : Throttler α ε).Wired := by
  obtain ⟨completed, hslot, hphase⟩ := h.phase
  obtain ⟨promise, rfl, hresolve⟩ := hslot.queued_link hqueued
  have hlink : (promise, Reaction.resolve queued) ∈ t.promises.links := mem_append_left _ hresolve
  have hpending : t.promises.create.1.outcome queued = none := by
    rw [Promises.create_outcome]
    exact h.good.unsettled _ hlink
  have heq : t.promises.create.1.andThen queued (.forward t.promises.outcomes.length) =
      { t.promises.create.1 with
        reactions := t.promises.reactions ++ [(queued, .forward t.promises.outcomes.length)] } := by
    unfold Promises.andThen
    rw [hpending]
    rfl
  have hgrows : t.promises.Grows (t.promises.create.1.andThen queued (.forward t.promises.outcomes.length)) :=
    Promises.grows_create.trans Promises.grows_andThen
  have hlinks : ∀ link ∈ (t.promises.create.1.andThen queued (.forward t.promises.outcomes.length)).links,
      link = (queued, .forward t.promises.outcomes.length) ∨ link ∈ t.promises.links := fun link hlink' =>
    mem_cons.mp ((Promises.andThen_links (s := t.promises.create.1)).mem_iff.mp hlink')
  have hlt : queued < t.promises.outcomes.length := (h.good.bounded _ hlink).2
  have hjobs : (t.promises.create.1.andThen queued (.forward t.promises.outcomes.length)).jobs = t.promises.jobs := by
    rw [heq]
    rfl
  refine ⟨h.good.create.andThen ?_ ?_ ?_ fun link hlink' => ?_, fun link hlink' hadopt => ?_, ⟨some promise, ?_, ?_⟩,
    fun task htask => ⟨?_, fun link hlink' => ?_⟩, fun task htask hnone => ?_, h.active, h.distinct,
    fun task htask hq e => ?_, fun completed' queued' hlink' => ?_, fun call hcall => ?_⟩
  · rw [Promises.create_length]
    exact Nat.lt_succ_of_lt hlt
  · rw [Promises.create_length]
    exact Nat.lt_succ_self _
  · rw [Promises.create_outcome]
    exact Promises.outcome_of_length_le (Nat.le_refl _)
  · exact Nat.ne_of_lt (h.good.bounded link hlink').2
  · rw [hgrows.outcome]
    exact h.ready link (hjobs ▸ hlink') hadopt
  · exact .full promise queued hqueued (hgrows.reactions _ hresolve)
  · have hframe := @Phase.frame _ _ _ _ hphase (t.promises.create.1.andThen queued (.forward t.promises.outcomes.length))
      (fun task _ => hgrows.outcome task) ?_ (congrArg controls hjobs)
    · cases hframe with
      | waking source _ active reactions jobs => exact .waking source promise active reactions jobs
      | running _ task result active outcome reactions jobs => exact .running _ task result active outcome reactions jobs
      | ended _ task result active outcome reactions jobs => exact .ended _ task result active outcome reactions jobs
    · rw [heq]
      show controls (t.promises.reactions ++ [_]) = _
      rw [controls_append]
      exact append_nil _
  · exact Nat.lt_of_lt_of_le (h.tasks task htask).1 hgrows.length
  · rcases hlinks link hlink' with rfl | hlink'
    · exact Nat.ne_of_gt (h.tasks task htask).1
    · exact h.free htask hlink'
  · exact h.pending task htask ((hgrows.outcome _).symm.trans hnone)
  · rw [hgrows.outcome]
    exact h.kind task htask hq e
  · rcases hlinks _ hlink' with heq | hlink'
    · cases heq
    · exact (h.resolves completed' queued' hlink').imp_right fun ⟨task, htask, hq, hg⟩ => ⟨task, htask, hq, hg.grows hgrows⟩
  · rcases mem_append.mp hcall with hcall | hcall
    · refine (h.calls call hcall).imp (fun ⟨task, htask, hg⟩ => ⟨task, htask, hg.grows hgrows⟩) ?_
      rintro ⟨hcount, queued', hqueued', hforward⟩
      exact ⟨hcount, queued', hqueued', hgrows.reactions _ hforward⟩
    · obtain rfl := List.mem_singleton.mp hcall
      refine .inr ⟨hbefore, queued, hqueued, ?_⟩
      rw [heq]
      exact mem_append_right _ mem_cons_self

/-! ## Calls and runs -/

theorem Wired.queuedPromiseFor (h : t.Wired) (hactive : t.activePromise = some active) :
    (t.queuedPromiseFor active).1.Wired ∧
      (t.queuedPromiseFor active).1.queuedPromise = some (t.queuedPromiseFor active).2 := by
  cases hqueued : t.queuedPromise with
  | none => exact h.makeQueued hactive hqueued
  | some queued =>
    have heq : t.queuedPromiseFor active = (t, queued) := by
      unfold Throttler.queuedPromiseFor
      rw [hqueued]
    rw [heq]
    exact ⟨h, hqueued⟩

theorem queuedPromiseFor_frame (t : Throttler α ε) (active : Nat) (factory : Option (Factory α ε)) :
    ({ t with queuedPromiseFactory := factory } : Throttler α ε).queuedPromiseFor active =
        ({ (t.queuedPromiseFor active).1 with queuedPromiseFactory := factory }, (t.queuedPromiseFor active).2) ∧
      (t.queuedPromiseFor active).1.calls = t.calls ∧ (t.queuedPromiseFor active).1.started = t.started := by
  cases hqueued : t.queuedPromise with
  | none => simp [Throttler.queuedPromiseFor, hqueued]
  | some queued => simp [Throttler.queuedPromiseFor, hqueued]

theorem Inv.last_append (h : t.Inv) {new : Called} (hbefore : new.before = t.started.length) (k : Nat) (task : Started)
    (htask : t.started[k]? = some task) :
    (∃ call, (t.calls ++ [new])[task.call]? = some call ∧ call.before = k) ∧
      ∀ (i : Nat) (call : Called), (t.calls ++ [new])[i]? = some call → task.call < i → k < call.before := by
  obtain ⟨⟨call, hcall, hk⟩, hall⟩ := h.last k task htask
  refine ⟨⟨call, ?_, hk⟩, fun i call' hcall' hi => ?_⟩
  · rw [List.getElem?_append_left (List.getElem?_eq_some_iff.mp hcall).1]
    exact hcall
  · by_cases hlt : i < t.calls.length
    · rw [List.getElem?_append_left hlt] at hcall'
      exact hall i call' hcall' hi
    · rw [getElem?_append_right (by omega)] at hcall'
      rw [List.mem_singleton.mp (List.mem_of_getElem? hcall'), hbefore]
      exact (List.getElem?_eq_some_iff.mp htask).1

theorem Inv.call_active (h : t.Inv) (hactive : t.activePromise = some active) (already : Option (Outcome α ε)) :
    (t.call already).Inv := by
  obtain ⟨hwired, hqueued⟩ := h.toWired.queuedPromiseFor hactive
  obtain ⟨hframe, hcalls, hstarted⟩ := queuedPromiseFor_frame t active (some ⟨t.calls.length, already⟩)
  have heq : t.call already =
      { (t.queuedPromiseFor active).1 with
        promises := (t.queuedPromiseFor active).1.promises.create.1.andThen (t.queuedPromiseFor active).2
          (.forward (t.queuedPromiseFor active).1.promises.outcomes.length)
        queuedPromiseFactory := some ⟨t.calls.length, already⟩
        calls := (t.queuedPromiseFor active).1.calls ++
          [⟨(t.queuedPromiseFor active).1.promises.outcomes.length, t.started.length⟩] } := by
    rw [hactive] at hframe
    rw [hcalls]
    unfold Throttler.call queue
    rw [hactive]
    dsimp only
    rw [hframe]
    rfl
  rw [heq]
  refine ⟨hwired.waitForQueued hqueued (by rw [hstarted]) _, fun queued _ => ⟨_, rfl, ?_, ?_⟩, fun k task htask => ?_⟩
  · show t.calls.length + 1 = ((t.queuedPromiseFor active).1.calls ++ [_]).length
    rw [hcalls]
    simp
  · show ∃ call, ((t.queuedPromiseFor active).1.calls ++ [_])[t.calls.length]? = some call ∧
      call.before = (t.queuedPromiseFor active).1.started.length
    rw [hcalls, hstarted]
    simp
  · show (∃ call, ((t.queuedPromiseFor active).1.calls ++ [_])[task.call]? = some call ∧ _) ∧ _
    rw [hcalls]
    exact h.last_append rfl k task (hstarted ▸ htask)

theorem Inv.call_idle (h : t.Inv) (hactive : t.activePromise = none) (hqueued : t.queuedPromise = none)
    (already : Option (Outcome α ε)) : (t.call already).Inv := by
  have heq : t.call already =
      { t with
        promises := begun t.promises already
        activePromise := some t.promises.outcomes.length
        started := t.started ++ [⟨t.calls.length, t.promises.outcomes.length, false⟩]
        calls := t.calls ++ [⟨t.promises.outcomes.length + 1, t.started.length⟩] } := by
    simp only [Throttler.call, queue, hactive, start_eq, Option.getD_some]
  obtain ⟨completed, hslot, hphase⟩ := h.phase
  have hcontrols : controls t.promises.reactions = [] ∧ controls t.promises.jobs = [] := by
    cases hphase with
    | idle _ reactions jobs => exact ⟨reactions, jobs⟩
    | waking source completed =>
      cases hslot with
      | full _ queued hsome => rw [hqueued] at hsome; cases hsome
    | running _ task _ hsome => rw [hactive] at hsome; cases hsome
    | ended _ task _ hsome => rw [hactive] at hsome; cases hsome
  have hclear : (t.promises.outcomes.length, Reaction.clear (t.promises.outcomes.length + 1)) ∈
      (begun t.promises already).links := (begun_links h.good).mem_iff.mpr mem_cons_self
  have hlinks : ∀ link ∈ (begun t.promises already).links,
      link = (t.promises.outcomes.length, .clear (t.promises.outcomes.length + 1)) ∨ link ∈ t.promises.links :=
    fun link hlink => mem_cons.mp ((begun_links h.good).mem_iff.mp hlink)
  have hrefl : (begun t.promises already).Grows (begun t.promises already) :=
    ⟨fun _ => rfl, fun _ => id, fun _ => id, Nat.le_refl _⟩
  obtain ⟨htasks, hpending, hnodup, hkind⟩ := h.start_tasks t.calls.length false hactive h.good rfl
    hrefl (fun link hlink => (hlinks link hlink).imp (fun heq => by rw [heq]; rfl) fun hlink => ⟨link, hlink, rfl⟩)
    fun hfalse => by cases hfalse
  rw [heq]
  refine ⟨⟨begun_good h.good already, fun link hlink hadopt => ?_, ⟨none, .empty hqueued, ?_⟩, htasks, hpending,
    fun p hp => ⟨⟨t.calls.length, t.promises.outcomes.length, false⟩, by simp, Option.some.inj hp⟩, hnodup, hkind,
    fun completed' queued' hlink => ?_, fun call hcall => ?_⟩, fun queued hsome => ?_, fun k task htask => ?_⟩
  · have hold : ∀ link ∈ t.promises.jobs, (∀ promise, link.2 ≠ .adopt promise) →
        (begun t.promises already).outcome link.1 ≠ none := fun link hlink hadopt => by
      have hlt := (h.good.bounded link (mem_append_right _ hlink)).1
      rw [begun_outcome_ne h.good (Nat.ne_of_lt hlt)]
      exact h.ready link hlink hadopt
    rcases begun_cases h.good already with ⟨-, -, hj⟩ | ⟨hsome, -, hj⟩
    · exact hold link (hj ▸ hlink) hadopt
    · rcases mem_append.mp (hj ▸ hlink) with hlink | hlink
      · exact hold link hlink hadopt
      · obtain rfl := List.mem_singleton.mp hlink
        rw [begun_outcome_self h.good]
        exact hsome
  · exact phase_begun already h.good rfl (begun_outcome_self h.good) rfl rfl hcontrols.1 hcontrols.2
  · rcases hlinks _ hlink with heq | hlink
    · cases heq
    · rcases h.resolves completed' queued' hlink with hsome | ⟨task, htask, hq, hg⟩
      · exact .inl hsome
      · exact .inr ⟨task, mem_append_left _ htask, hq, begun_follows hg⟩
  · left
    rcases mem_append.mp hcall with hcall | hcall
    · rcases h.calls call hcall with ⟨task, htask, hg⟩ | ⟨-, queued, hsome, -⟩
      · exact ⟨task, by rw [List.getElem?_append_left (List.getElem?_eq_some_iff.mp htask).1]; exact htask, begun_follows hg⟩
      · rw [hqueued] at hsome
        cases hsome
    · obtain rfl := List.mem_singleton.mp hcall
      exact ⟨⟨t.calls.length, t.promises.outcomes.length, false⟩, by simp, .link hclear rfl .self⟩
  · have hsome : t.queuedPromise = some queued := hsome
    rw [hqueued] at hsome
    cases hsome
  · by_cases hk : k < t.started.length
    · rw [List.getElem?_append_left hk] at htask
      exact h.last_append rfl k task htask
    · have hk' : k = t.started.length := by
        have := (List.getElem?_eq_some_iff.mp htask).1
        simp at this
        omega
      subst hk'
      obtain rfl : task = ⟨t.calls.length, t.promises.outcomes.length, false⟩ := by simpa using htask.symm
      refine ⟨⟨⟨t.promises.outcomes.length + 1, t.started.length⟩, by simp, rfl⟩, fun i call hcall hi => ?_⟩
      have hi' : i < (t.calls ++ [(⟨t.promises.outcomes.length + 1, t.started.length⟩ : Called)]).length :=
        (List.getElem?_eq_some_iff.mp hcall).1
      have hlater : t.calls.length < i := hi
      simp at hi'
      omega

/-- No task that was queued is rejected, and `queue` is not called between the two callbacks of a task that is settled. -/
def Allowed (t : Throttler α ε) : Step α ε → Prop
  | .queue _ => t.activePromise = none → t.queuedPromise = none
  | .settle index o => ∀ task, t.started[index]? = some task → task.queued = true → ∀ e, o ≠ .rejected e
  | .job => ∀ source promise jobs, t.promises.jobs = (source, .onComplete promise) :: jobs →
      ∀ factory, t.queuedPromiseFactory = some factory → ∀ e, factory.already ≠ some (.rejected e)

def AllAllowed (typeError : ε) (t : Throttler α ε) : List (Step α ε) → Prop
  | [] => True
  | step :: steps => t.Allowed step ∧ AllAllowed typeError (t.step typeError step) steps

theorem Inv.of_wired (h : t.Inv) {active : Option Nat}
    (hwired : ({ t with promises, activePromise := active } : Throttler α ε).Wired) :
    ({ t with promises, activePromise := active } : Throttler α ε).Inv := ⟨hwired, h.factory, h.last⟩

theorem Inv.runJob (h : t.Inv) (typeError : ε) (hallowed : t.Allowed .job) : (t.runJob typeError).Inv := by
  unfold Throttler.runJob
  split
  · exact h
  next source reaction jobs hjobs =>
  have hmem : (source, reaction) ∈ t.promises.jobs := by
    rw [hjobs]
    exact mem_cons_self
  have hready : (∀ promise, reaction ≠ .adopt promise) → ∃ o, t.promises.outcome source = some o := fun hadopt =>
    Option.ne_none_iff_exists'.mp (h.ready _ hmem hadopt)
  cases reaction with
  | clear result =>
    obtain ⟨o, ho⟩ := hready fun _ heq => nomatch heq
    have hclear := h.of_wired (h.toWired.clear hjobs ho)
    unfold react pass
    rw [show (t.taken jobs).outcome source = some o from ho]
    exact hclear
  | onComplete promise => exact h.onComplete typeError hjobs (hallowed source promise jobs hjobs)
  | resolve promise =>
    obtain ⟨o, ho⟩ := hready fun _ heq => nomatch heq
    -- a queued task is not rejected
    have hkind : ∀ e, o ≠ .rejected e := by
      rintro e rfl
      obtain ⟨-, hdistinct, -⟩ := h.good.pop hjobs
      rcases h.resolves source promise (mem_append_right _ hmem) with hqueued | ⟨task, htask, hq, hg⟩
      · obtain ⟨completed, hslot, -⟩ := h.phase
        obtain ⟨completed', -, hlink⟩ := hslot.queued_link hqueued
        exact hdistinct _ (mem_append_left _ hlink) rfl
      · have hsame := hg.outcome h.good (by rw [ho]; exact fun hnone => nomatch hnone)
        exact h.kind task htask hq e (hsame.symm.trans ho)
    obtain ⟨v, rfl⟩ : ∃ v, o = .fulfilled v := by
      cases o with
      | fulfilled v => exact ⟨v, rfl⟩
      | rejected e => exact absurd rfl (hkind e)
    have hresolve := h.of_wired (h.toWired.pass_on hjobs ho rfl)
    unfold react pass
    rw [show (t.taken jobs).outcome source = some (.fulfilled v) from ho]
    exact hresolve
  | forward promise =>
    obtain ⟨o, ho⟩ := hready fun _ heq => nomatch heq
    have hforward := h.of_wired (h.toWired.pass_on hjobs ho rfl)
    unfold react pass
    rw [show (t.taken jobs).outcome source = some o from ho]
    exact hforward
  | adopt promise => exact h.of_wired (h.toWired.adopt hjobs)

theorem Inv.step (h : t.Inv) (typeError : ε) {step : Step α ε} (hallowed : t.Allowed step) : (t.step typeError step).Inv := by
  cases step with
  | queue already =>
    cases hactive : t.activePromise with
    | none => exact h.call_idle hactive (hallowed hactive) already
    | some active => exact h.call_active hactive already
  | settle index o =>
    show (t.settleTask index o).Inv
    unfold Throttler.settleTask
    split
    · exact h
    · next task htask => exact h.of_wired (h.toWired.settleTask (List.mem_of_getElem? htask) (hallowed task htask))
  | job => exact h.runJob typeError hallowed

theorem Inv.run (h : t.Inv) (typeError : ε) {steps : List (Step α ε)} (hallowed : AllAllowed typeError t steps) :
    (t.run typeError steps).Inv := by
  induction steps generalizing t with
  | nil => exact h
  | cons step steps ih => exact ih (h.step typeError hallowed.1) hallowed.2

theorem Inv.nothing_queued (h : t.Inv) (hidle : t.promises.jobs = []) (hruns : ∀ task, ¬ t.Runs task) :
    t.queuedPromise = none := by
  obtain ⟨completed, hslot, hphase⟩ := h.phase
  cases hphase with
  | idle =>
    cases hslot with
    | empty queued => exact queued
  | waking _ _ _ _ jobs => rw [hidle] at jobs; cases jobs
  | running _ task _ active outcome =>
    obtain ⟨task', htask', rfl⟩ := h.active task active
    exact absurd ⟨htask', outcome⟩ (hruns task')
  | ended _ _ _ _ _ _ jobs => rw [hidle] at jobs; cases jobs

/-- Each call gets the outcome of the first task started from then on. -/
theorem Inv.settled (h : t.Inv) (hidle : t.promises.jobs = []) (hruns : ∀ task, ¬ t.Runs task) {call : Called}
    (hcall : call ∈ t.calls) : ∃ task o, t.started[call.before]? = some task ∧
      t.promises.outcome task.promise = some o ∧ t.promises.outcome call.promise = some o := by
  rcases h.calls call hcall with ⟨task, htask, hg⟩ | ⟨-, queued, hqueued, -⟩
  · obtain ⟨o, ho⟩ : ∃ o, t.promises.outcome task.promise = some o :=
      Option.ne_none_iff_exists'.mp fun hnone => hruns task ⟨List.mem_of_getElem? htask, hnone⟩
    exact ⟨task, o, htask, ho, (hg.idle h.good hidle (by rw [ho]; exact fun hnone => nomatch hnone)).trans ho⟩
  · rw [h.nothing_queued hidle hruns] at hqueued
    cases hqueued

end Steps

/-- In a run in which no task that was queued is rejected, and `queue` is not called between the two callbacks of a task that
is settled: one task runs at most; each task that was started was brought by the last of the calls made while as many tasks
had been started; and when the event loop is idle and no task runs, no task is queued and each promise that `queue` returned
is settled as the first task started from then on. -/
theorem throttles (typeError : ε) (steps : List (Step α ε)) (h : AllAllowed typeError {} steps) :
    let t := run typeError {} steps
    (∀ task task', t.Runs task → t.Runs task' → task = task') ∧
      (∀ (k : Nat) (task : Started), t.started[k]? = some task →
        (∃ call, t.calls[task.call]? = some call ∧ call.before = k) ∧
          ∀ (i : Nat) (call : Called), t.calls[i]? = some call → task.call < i → k < call.before) ∧
      (t.promises.jobs = [] → (∀ task, ¬ t.Runs task) → t.queuedPromise = none ∧
        ∀ call ∈ t.calls, ∃ task o, t.started[call.before]? = some task ∧ t.promises.outcome task.promise = some o ∧
          t.promises.outcome call.promise = some o) := by
  intro t
  have hinv : t.Inv := inv_empty.run typeError h
  refine ⟨fun task task' hruns hruns' => ?_, hinv.last, fun hidle hruns => ⟨hinv.nothing_queued hidle hruns, ?_⟩⟩
  · have hsame := (hinv.pending task hruns.1 hruns.2).symm.trans (hinv.pending task' hruns'.1 hruns'.2)
    exact inj_on_of_nodup_map hinv.distinct hruns.1 hruns'.1 (Option.some.inj hsame)
  · exact fun call hcall => hinv.settled hidle hruns hcall

theorem allowed_job {t : Throttler α ε} (h : ∀ factory ∈ t.queuedPromiseFactory, factory.already = none) : t.Allowed .job := by
  intro _ _ _ _ factory hfactory e he
  rw [h factory hfactory] at he
  cases he

/-- The first task is rejected, and the task that was queued last is fulfilled. -/
def lastQueued : List (Step Nat String) :=
  [.queue none, .queue none, .queue none, .settle 0 (.rejected "failed"), .job, .job, .settle 1 (.fulfilled 8), .job, .job,
    .job, .job, .job, .job, .job]

theorem throttles_lastQueued : AllAllowed "TypeError" {} lastQueued ∧ (run "TypeError" {} lastQueued).queuedPromise = none ∧
    ∀ call ∈ (run "TypeError" {} lastQueued).calls, ∃ task o,
      (run "TypeError" {} lastQueued).started[call.before]? = some task ∧
        (run "TypeError" {} lastQueued).promises.outcome task.promise = some o ∧
        (run "TypeError" {} lastQueued).promises.outcome call.promise = some o := by
  have hallowed : AllAllowed "TypeError" {} lastQueued := by
    refine ⟨fun _ => rfl, fun h => (nomatch h), fun h => (nomatch h), fun task htask hqueued => ?_, allowed_job (by decide),
      allowed_job (by decide), fun _ _ _ e he => (nomatch he), allowed_job (by decide), allowed_job (by decide),
      allowed_job (by decide), allowed_job (by decide), allowed_job (by decide), allowed_job (by decide),
      allowed_job (by decide), trivial⟩
    cases htask
    cases hqueued
  refine ⟨hallowed, (throttles "TypeError" lastQueued hallowed).2.2 (by decide) ?_⟩
  rintro task ⟨htask, hpending⟩
  have hsettled : ∀ task ∈ (run "TypeError" {} lastQueued).started,
      (run "TypeError" {} lastQueued).promises.outcome task.promise ≠ none := by decide
  exact hsettled task htask hpending

/-- The task that was queued is rejected. -/
def queuedRejected : List (Step Nat String) :=
  [.queue none, .queue none, .settle 0 (.fulfilled 7), .job, .job, .settle 1 (.rejected "failed"), .job, .job, .job, .job, .job]

/-- `queue` is called after `activePromise` is set to null and before `onComplete` runs. -/
def queuedBetween : List (Step Nat String) :=
  [.queue none, .queue none, .settle 0 (.fulfilled 7), .job, .queue none, .job, .settle 1 (.fulfilled 8), .job, .job, .job, .job,
    .job]

/-- Every task is settled and no callback is left, but the promise of the second call is not settled. -/
theorem promise_left_pending :
    ((run "TypeError" {} queuedRejected).promises.jobs = [] ∧ (run "TypeError" {} queuedRejected).queuedPromise = none ∧
      (run "TypeError" {} queuedRejected).started.map (·.call) = [0, 1] ∧
      (∀ task ∈ (run "TypeError" {} queuedRejected).started,
        (run "TypeError" {} queuedRejected).promises.outcome task.promise ≠ none) ∧
      ∃ call ∈ (run "TypeError" {} queuedRejected).calls,
        (run "TypeError" {} queuedRejected).promises.outcome call.promise = none) ∧
    (run "TypeError" {} queuedBetween).promises.jobs = [] ∧ (run "TypeError" {} queuedBetween).queuedPromise = none ∧
      (run "TypeError" {} queuedBetween).started.map (·.call) = [0, 2] ∧
      (∀ task ∈ (run "TypeError" {} queuedBetween).started,
        (run "TypeError" {} queuedBetween).promises.outcome task.promise ≠ none) ∧
      ∃ call ∈ (run "TypeError" {} queuedBetween).calls,
        (run "TypeError" {} queuedBetween).promises.outcome call.promise = none := by
  decide

end TongjiCode.Async.Throttler
