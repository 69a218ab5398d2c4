import TongjiCode.Persistence.ThrottledDelayer

/-!
# What a throttled delayer guarantees

One task runs at a time, and a promise that `trigger` has returned is not resolved before a run of the task that began
after it was returned has ended.
-/

open List

namespace TongjiCode.Persistence

namespace ThrottledDelayer

/-- The callback that waits if a factory is queued. -/
def queuedJobs (d : ThrottledDelayer) : List Job := if d.queuedPromise.isSome then [.onComplete] else []

/-- The job of the delayer that the timer has scheduled. -/
inductive Fired (d : ThrottledDelayer) : List Job → Prop
  | no : Fired d []
  | yes (completion : Nat) (h : d.completionPromise = some completion) : Fired d [.complete completion]

/-- What the throttler does, with the jobs of the delayer and of the throttler. -/
inductive Phase (d : ThrottledDelayer) : List Job → List Job → Prop
  | idle (fired : List Job) (active : d.activePromise = none) (queued : d.queuedPromise = none) (reactions : d.reactions = []) :
      Phase d fired []
  | waking (active : d.activePromise = none) (queued : d.queuedPromise.isSome) (reactions : d.reactions = []) :
      Phase d [] [.onComplete]
  | running (fired : List Job) (active : Nat) (hactive : d.activePromise = some active)
      (outcome : d.outcome active = some .pending) (reactions : d.reactions = .activeDone :: d.queuedJobs) : Phase d fired []
  | ended (fired : List Job) (active : Nat) (hactive : d.activePromise = some active)
      (outcome : d.outcome active = some .resolved) (reactions : d.reactions = []) :
      Phase d fired (.activeDone :: d.queuedJobs)

structure Good (d : ThrottledDelayer) : Prop where
  schedule : ∃ fired throttled, d.jobs = fired ++ throttled ∧ d.Fired fired ∧ d.Phase fired throttled
  task : d.completionPromise.isSome = true → d.task = true
  factory : d.queuedPromiseFactory = d.queuedPromise.isSome
  completion : ∀ promise, d.completionPromise = some promise → d.outcome promise = some .pending
  queued : ∀ promise, d.queuedPromise = some promise → d.outcome promise = some .pending
  active : ∀ promise, d.activePromise = some promise → promise < d.promises.length
  completionApart : ∀ promise, d.completionPromise = some promise →
    d.activePromise ≠ some promise ∧ d.queuedPromise ≠ some promise
  queuedApart : ∀ promise, d.queuedPromise = some promise → d.activePromise ≠ some promise

/-- The promise is resolved only after a run of the task that has not begun. -/
def AwaitsStart (d : ThrottledDelayer) (promise : Nat) : Prop :=
  d.completionPromise = some promise ∨
    ∃ queued, d.queuedPromise = some queued ∧ d.outcome promise = some (.follows queued)

/-- The promise is resolved only after the run of the task that has begun. -/
def AwaitsEnd (d : ThrottledDelayer) (promise : Nat) : Prop :=
  ∃ active, d.activePromise = some active ∧ d.outcome active = some .pending ∧
    (d.outcome promise = some (.follows active) ∨
      ∃ queued, d.outcome promise = some (.follows queued) ∧ d.outcome queued = some (.follows active))

theorem good_empty : ({} : ThrottledDelayer).Good where
  schedule := ⟨[], [], rfl, .no, .idle [] rfl rfl rfl⟩
  task := fun h => nomatch h
  factory := rfl
  completion := fun _ h => nomatch h
  queued := fun _ h => nomatch h
  active := fun _ h => nomatch h
  completionApart := fun _ h => nomatch h
  queuedApart := fun _ h => nomatch h

section Promises

variable {d : ThrottledDelayer} {promise other : Nat} {o : Outcome}

theorem outcome_lt (h : d.outcome promise = some o) : promise < d.promises.length :=
  (List.getElem?_eq_some_iff.mp h).1

theorem outcome_settleWith_self (h : promise < d.promises.length) : (d.settleWith promise o).outcome promise = some o := by
  unfold outcome settleWith
  rw [getElem?_set_self h]

theorem outcome_settleWith_ne (h : promise ≠ other) : (d.settleWith promise o).outcome other = d.outcome other := by
  unfold outcome settleWith
  rw [getElem?_set_ne h]

theorem outcome_append (h : d.outcome promise = some o) : (d.promises ++ [Outcome.pending])[promise]? = some o := by
  rw [getElem?_append_left (outcome_lt h)]
  exact h

theorem AwaitsStart.unresolved (h : d.Good) (hawaits : d.AwaitsStart promise) : d.outcome promise ≠ some .resolved := by
  rcases hawaits with hcompletion | ⟨queued, -, houtcome⟩
  · rw [h.completion promise hcompletion]
    decide
  · rw [houtcome]
    exact fun heq => nomatch heq

theorem AwaitsEnd.unresolved (hawaits : d.AwaitsEnd promise) : d.outcome promise ≠ some .resolved := by
  obtain ⟨active, -, -, houtcome | ⟨queued, houtcome, -⟩⟩ := hawaits
  · rw [houtcome]
    exact fun heq => nomatch heq
  · rw [houtcome]
    exact fun heq => nomatch heq

end Promises

section Steps

variable {d d' : ThrottledDelayer} {promise : Nat} {o : Outcome}

/-- The run of the task with this promise has not ended. -/
def Runs (d : ThrottledDelayer) (active : Nat) : Prop := d.activePromise = some active ∧ d.outcome active = some .pending

theorem Phase.mono {fired throttled : List Job} (h : d.Phase fired throttled) (hactive : d'.activePromise = d.activePromise)
    (hqueued : d'.queuedPromise = d.queuedPromise) (hreactions : d'.reactions = d.reactions)
    (houtcome : ∀ active o, d.activePromise = some active → d.outcome active = some o → d'.outcome active = some o) :
    d'.Phase fired throttled := by
  have hjobs : d'.queuedJobs = d.queuedJobs := by
    unfold queuedJobs
    rw [hqueued]
  cases h with
  | idle fired active queued reactions =>
    exact .idle _ (hactive.trans active) (hqueued.trans queued) (hreactions.trans reactions)
  | waking active queued reactions =>
    exact .waking (hactive.trans active) (by rw [hqueued]; exact queued) (hreactions.trans reactions)
  | running fired active hactive' outcome reactions =>
    refine .running _ active (hactive.trans hactive') (houtcome active _ hactive' outcome) ?_
    rw [hreactions, hjobs]
    exact reactions
  | ended fired active hactive' outcome reactions =>
    rw [← hjobs]
    exact .ended _ active (hactive.trans hactive') (houtcome active _ hactive' outcome) (hreactions.trans reactions)

theorem Runs.not_idle {active : Nat} (h : d.Runs active) : d.activePromise ≠ none := by
  rw [h.1]
  exact fun heq => nomatch heq

/-! ### Timers -/

theorem trigger_spec (h : d.Good) (heq : d.trigger = (d', promise)) :
    d'.Good ∧ d'.completionPromise = some promise ∧ (∀ p, d.Runs p → d'.Runs p) ∧ (∀ p, d.AwaitsStart p → d'.AwaitsStart p) ∧
      (∀ p, d.AwaitsEnd p → d'.AwaitsEnd p) := by
  obtain ⟨fired, throttled, hjobs, hfired, hphase⟩ := h.schedule
  unfold trigger at heq
  split at heq
  · next completion hcompletion =>
    cases heq
    refine ⟨⟨⟨fired, throttled, hjobs, ?_, ?_⟩, fun _ => rfl, h.factory, ?_, h.queued, h.active, ?_, h.queuedApart⟩,
      hcompletion, fun _ => id, fun _ => id, fun _ => id⟩
    · cases hfired with
      | no => exact .no
      | yes completion h => exact .yes completion h
    · exact hphase.mono rfl rfl rfl fun _ _ _ houtcome => houtcome
    · exact h.completion
    · exact h.completionApart
  · next hcompletion =>
    cases heq
    have hnew : ∀ promise, d.activePromise = some promise ∨ d.queuedPromise = some promise → promise ≠ d.promises.length := by
      rintro promise (heq | heq)
      · exact Nat.ne_of_lt (h.active promise heq)
      · exact Nat.ne_of_lt (outcome_lt (h.queued promise heq))
    refine ⟨⟨⟨fired, throttled, hjobs, ?_, ?_⟩, fun _ => rfl, h.factory, ?_, ?_, ?_, ?_, h.queuedApart⟩, rfl, ?_, ?_, ?_⟩
    · cases hfired with
      | no => exact .no
      | yes completion h =>
        rw [hcompletion] at h
        cases h
    · exact hphase.mono rfl rfl rfl fun _ _ _ => outcome_append
    · intro promise heq
      cases heq
      unfold outcome
      rw [getElem?_append_right (Nat.le_refl _), Nat.sub_self]
      rfl
    · exact fun promise heq => outcome_append (h.queued promise heq)
    · intro promise heq
      have := h.active promise heq
      rw [length_append]
      omega
    · intro promise heq
      cases heq
      exact ⟨fun heq => hnew _ (.inl heq) rfl, fun heq => hnew _ (.inr heq) rfl⟩
    · rintro active ⟨hactive, hpending⟩
      exact ⟨hactive, outcome_append hpending⟩
    · rintro promise (heq | ⟨queued, hqueued, hfollows⟩)
      · rw [hcompletion] at heq
        cases heq
      · exact .inr ⟨queued, hqueued, outcome_append hfollows⟩
    · rintro promise ⟨active, hactive, hpending, hfollows | ⟨queued, hfollows, hqueued⟩⟩
      · exact ⟨active, hactive, outcome_append hpending, .inl (outcome_append hfollows)⟩
      · exact ⟨active, hactive, outcome_append hpending, .inr ⟨queued, outcome_append hfollows, outcome_append hqueued⟩⟩

theorem fire_spec (h : d.Good) :
    d.fire.Good ∧ (∀ p, d.Runs p → d.fire.Runs p) ∧ (∀ promise, d.AwaitsStart promise → d.fire.AwaitsStart promise) ∧
      (∀ promise, d.AwaitsEnd promise → d.fire.AwaitsEnd promise) := by
  obtain ⟨fired, throttled, hjobs, hfired, hphase⟩ := h.schedule
  unfold fire
  split
  · next hcond =>
    rw [Bool.and_eq_true, List.isEmpty_iff, hjobs, List.append_eq_nil_iff] at hcond
    obtain ⟨-, rfl, rfl⟩ := hcond
    have hsame : ∀ jobs, ({ d with deferred := false, jobs } : ThrottledDelayer).Phase jobs [] := by
      intro jobs
      cases hphase with
      | idle _ active queued reactions => exact .idle _ active queued reactions
      | running _ active hactive outcome reactions => exact .running _ active hactive outcome reactions
    refine ⟨⟨⟨_, [], by rw [append_nil], ?_, hsame _⟩, h.task, h.factory, h.completion, h.queued, h.active,
      h.completionApart, h.queuedApart⟩, fun _ => id, fun _ => id, fun _ => id⟩
    rcases hcompletion : d.completionPromise with _ | completion
    · exact .no
    · exact .yes completion rfl
  · exact ⟨h, fun _ => id, fun _ => id, fun _ => id⟩

/-! ### Promises -/

/-- A promise that nothing waits for any more gets its outcome. -/
theorem Good.settleWith (h : d.Good) (hcompletion : d.completionPromise ≠ some promise)
    (hqueued : d.queuedPromise ≠ some promise) (hactive : d.activePromise ≠ some promise) (o : Outcome) :
    (d.settleWith promise o).Good := by
  obtain ⟨fired, throttled, hjobs, hfired, hphase⟩ := h.schedule
  refine ⟨⟨fired, throttled, hjobs, ?_, ?_⟩, h.task, h.factory, ?_, ?_, ?_, h.completionApart, h.queuedApart⟩
  · cases hfired with
    | no => exact .no
    | yes completion h => exact .yes completion h
  · refine hphase.mono rfl rfl rfl fun active o' heq houtcome => ?_
    rw [outcome_settleWith_ne fun hsame => hactive (by rw [hsame]; exact heq)]
    exact houtcome
  · intro completion heq
    rw [outcome_settleWith_ne fun hsame => hcompletion (by rw [hsame]; exact heq)]
    exact h.completion completion heq
  · intro queued heq
    rw [outcome_settleWith_ne fun hsame => hqueued (by rw [hsame]; exact heq)]
    exact h.queued queued heq
  · intro active heq
    unfold ThrottledDelayer.settleWith
    rw [length_set]
    exact h.active active heq

theorem follow_spec (h : d.Good) (promise : Nat) :
    (d.follow promise).Good ∧ (∀ p, d.Runs p → (d.follow promise).Runs p) ∧
      (∀ p, d.AwaitsStart p → (d.follow promise).AwaitsStart p) ∧ (∀ p, d.AwaitsEnd p → (d.follow promise).AwaitsEnd p) := by
  unfold follow
  split
  · next followed hfollows =>
    split
    · next hresolved =>
      have hpending : ∀ p, d.outcome p = some .pending → promise ≠ p := by
        rintro p hp rfl
        rw [hfollows] at hp
        cases hp
      have hkept : ∀ p o, d.outcome p = some o → promise ≠ p →
          (d.settleWith promise .resolved).outcome p = some o := fun p o hp hne => (outcome_settleWith_ne hne).trans hp
      have hwaits : ∀ p q, d.outcome p = some (.follows q) → d.outcome q ≠ some .resolved → promise ≠ p := by
        rintro p q hp hq rfl
        rw [hfollows] at hp
        cases hp
        exact hq hresolved
      by_cases hactive : d.activePromise = some promise
      · -- the active promise follows none
        obtain ⟨fired, throttled, -, -, hphase⟩ := h.schedule
        cases hphase with
        | idle _ active => rw [hactive] at active; cases active
        | waking active => rw [hactive] at active; cases active
        | running _ active heq outcome =>
          rw [hactive] at heq
          cases heq
          rw [hfollows] at outcome
          cases outcome
        | ended _ active heq outcome =>
          rw [hactive] at heq
          cases heq
          rw [hfollows] at outcome
          cases outcome
      · refine ⟨h.settleWith ?_ ?_ hactive _, ?_, ?_, ?_⟩
        · exact fun heq => hpending promise (h.completion promise heq) rfl
        · exact fun heq => hpending promise (h.queued promise heq) rfl
        · rintro active ⟨heq, houtcome⟩
          exact ⟨heq, hkept _ _ houtcome (hpending _ houtcome)⟩
        · rintro p (heq | ⟨queued, hqueued, houtcome⟩)
          · exact .inl heq
          · refine .inr ⟨queued, hqueued, hkept _ _ houtcome (hwaits _ _ houtcome ?_)⟩
            rw [h.queued queued hqueued]
            decide
        · rintro p ⟨active, heq, hactive', houtcome | ⟨queued, houtcome, hqueued⟩⟩
          · refine ⟨active, heq, hkept _ _ hactive' (hpending _ hactive'), .inl (hkept _ _ houtcome (hwaits _ _ houtcome ?_))⟩
            rw [hactive']
            decide
          · refine ⟨active, heq, hkept _ _ hactive' (hpending _ hactive'),
              .inr ⟨queued, hkept _ _ houtcome (hwaits _ _ houtcome ?_), hkept _ _ hqueued (hwaits _ _ hqueued ?_)⟩⟩
            · rw [hqueued]
              exact fun heq => nomatch heq
            · rw [hactive']
              decide
    · exact ⟨h, fun _ => id, fun _ => id, fun _ => id⟩
  · exact ⟨h, fun _ => id, fun _ => id, fun _ => id⟩

theorem settleActive_spec (h : d.Good) :
    d.settleActive.Good ∧ (∀ p, ¬d.settleActive.Runs p) ∧ (∀ p, d.AwaitsStart p → d.settleActive.AwaitsStart p) := by
  obtain ⟨fired, throttled, hjobs, hfired, hphase⟩ := h.schedule
  unfold settleActive
  split
  · next hactive => exact ⟨h, fun _ hruns => hruns.not_idle hactive, fun _ => id⟩
  next active hactive =>
  split
  swap
  · next hsettled =>
    refine ⟨h, ?_, fun _ => id⟩
    rintro other ⟨heq, houtcome⟩
    rw [hactive] at heq
    cases heq
    exact hsettled houtcome
  next hpending =>
  have hlt := outcome_lt hpending
  have hself : (d.settleWith active .resolved).outcome active = some .resolved := outcome_settleWith_self hlt
  have hother : ∀ p, p ≠ active → (d.settleWith active .resolved).outcome p = d.outcome p :=
    fun p hne => outcome_settleWith_ne fun heq => hne heq.symm
  refine ⟨⟨⟨fired, .activeDone :: d.queuedJobs, ?_, ?_, ?_⟩, h.task, h.factory, ?_, ?_, ?_, h.completionApart, h.queuedApart⟩,
    ?_, ?_⟩
  · cases hphase with
    | idle _ heq => rw [hactive] at heq; cases heq
    | waking heq => rw [hactive] at heq; cases heq
    | running _ other heq outcome reactions =>
      rw [hjobs, reactions, append_nil]
    | ended _ other heq outcome =>
      rw [hactive] at heq
      cases heq
      rw [hpending] at outcome
      cases outcome
  · cases hfired with
    | no => exact .no
    | yes completion h => exact .yes completion h
  · exact .ended _ active hactive hself rfl
  · intro completion heq
    have hne : completion ≠ active := by
      rintro rfl
      exact (h.completionApart _ heq).1 hactive
    exact (hother completion hne).trans (h.completion completion heq)
  · intro queued heq
    have hne : queued ≠ active := by
      rintro rfl
      exact h.queuedApart _ heq hactive
    exact (hother queued hne).trans (h.queued queued heq)
  · intro other heq
    unfold ThrottledDelayer.settleWith
    rw [length_set]
    exact h.active other heq
  · rintro other ⟨heq, houtcome⟩
    have hsame : other = active := Option.some.inj (heq.symm.trans hactive)
    rw [hsame] at houtcome
    have := houtcome.symm.trans hself
    cases this
  · rintro p (heq | ⟨queued, hqueued, houtcome⟩)
    · exact .inl heq
    · refine .inr ⟨queued, hqueued, (hother p ?_).trans houtcome⟩
      rintro rfl
      rw [hpending] at houtcome
      cases houtcome

/-! ### Jobs -/

variable {result : Option Nat} {called : Bool}

/-- Calling `queue` with a factory, unless a job is about to wake the throttler. -/
theorem queue_spec (h : d.Good) (hwaking : d.activePromise = none → d.queuedPromise = none)
    (heq : d.queue true = (d', result, called)) :
    d'.Good ∧ d'.completionPromise = d.completionPromise ∧ (∀ p o, d.outcome p = some o → d'.outcome p = some o) ∧
      (∀ p, d.queuedPromise = some p → d'.queuedPromise = some p) ∧
      (∀ p, d.activePromise = some p → d'.activePromise = some p) ∧
      (∀ p, p < d.promises.length → d'.activePromise = some p ∨ d'.queuedPromise = some p →
        d.activePromise = some p ∨ d.queuedPromise = some p) ∧
      ∃ r, result = some r ∧ (called = false ∧ d'.queuedPromise = some r ∨
        called = true ∧ d.activePromise = none ∧ d'.activePromise = some r ∧ d'.outcome r = some .pending) := by
  obtain ⟨fired, throttled, hjobs, hfired, hphase⟩ := h.schedule
  have hfired' : ∀ d' : ThrottledDelayer, d'.completionPromise = d.completionPromise → d'.Fired fired := by
    intro d' hsame
    cases hfired with
    | no => exact .no
    | yes completion h => exact .yes completion (hsame.trans h)
  have hnew : (d.promises ++ [Outcome.pending])[d.promises.length]? = some .pending := by
    rw [getElem?_append_right (Nat.le_refl _), Nat.sub_self]
    rfl
  have hfresh : ∀ p, d.completionPromise = some p → p ≠ d.promises.length :=
    fun p hp => Nat.ne_of_lt (outcome_lt (h.completion p hp))
  have hgrown : (d.promises ++ [Outcome.pending]).length = d.promises.length + 1 := by rw [length_append]; rfl
  unfold queue at heq
  split at heq
  · next active hactive =>
    split at heq
    · next queued hqueued =>
      cases heq
      refine ⟨⟨⟨fired, throttled, hjobs, hfired' _ rfl, ?_⟩, h.task, ?_, h.completion, h.queued, h.active, h.completionApart,
        h.queuedApart⟩, rfl, fun _ _ hp => hp, fun _ hp => hp, fun _ hp => hp, fun _ _ hp => hp, queued, rfl, .inl ⟨rfl, hqueued⟩⟩
      · exact hphase.mono rfl rfl rfl fun _ _ _ houtcome => houtcome
      · dsimp only
        rw [hqueued]
        rfl
    · next hqueued =>
      cases heq
      refine ⟨⟨?_, h.task, rfl, ?_, ?_, ?_, ?_, ?_⟩, rfl, fun _ _ => outcome_append, ?_, fun _ hp => hp, ?_, _, rfl, .inl ⟨rfl, rfl⟩⟩
      · have hnone : d.queuedJobs = [] := by
          unfold queuedJobs
          rw [hqueued]
          rfl
        cases hphase with
        | idle _ heq => rw [hactive] at heq; cases heq
        | waking heq => rw [hactive] at heq; cases heq
        | running _ other heq outcome reactions =>
          rw [hactive] at heq
          cases heq
          -- the callback waits for the run
          refine ⟨fired, [], ?_, hfired' _ rfl, .running _ active hactive (outcome_append outcome) ?_⟩
          · dsimp only
            rw [outcome, if_neg (by decide)]
            exact hjobs
          · dsimp only
            rw [outcome, if_neg (by decide), reactions, hnone]
            rfl
        | ended _ other heq outcome reactions =>
          rw [hactive] at heq
          cases heq
          -- the run has ended and the callback comes right after that job
          refine ⟨fired, [.activeDone, .onComplete], ?_, hfired' _ rfl,
            .ended fired active hactive (outcome_append outcome) ?_⟩
          · dsimp only
            rw [outcome, if_pos (by decide), hjobs, hnone, append_assoc]
            rfl
          · dsimp only
            rw [outcome, if_pos (by decide)]
            exact reactions
      · exact fun p hp => outcome_append (h.completion p hp)
      · intro p hp
        cases hp
        exact hnew
      · intro p hp
        have := h.active p hp
        dsimp only
        omega
      · refine fun p hp => ⟨(h.completionApart p hp).1, fun hsame => hfresh p hp ?_⟩
        exact (Option.some.inj hsame).symm
      · intro p hp hsame
        cases hp
        have := h.active _ hsame
        omega
      · intro p hp
        rw [hqueued] at hp
        cases hp
      · rintro p hlt (hp | hp)
        · exact .inl hp
        · cases hp
          omega
  · next hactive =>
    have hqueued := hwaking hactive
    cases heq
    refine ⟨⟨⟨fired, throttled, hjobs, hfired' _ rfl, ?_⟩, h.task, h.factory, ?_, ?_, ?_, ?_, ?_⟩, rfl,
      fun _ _ => outcome_append, fun _ hp => hp, ?_, ?_, _, rfl, .inr ⟨rfl, hactive, rfl, hnew⟩⟩
    · cases hphase with
      | idle =>
        refine .running _ _ rfl hnew ?_
        rw [hqueued]
        rfl
      | waking _ queued =>
        rw [hqueued] at queued
        cases queued
      | running _ _ heq =>
        rw [hactive] at heq
        cases heq
      | ended _ _ heq =>
        rw [hactive] at heq
        cases heq
    · exact fun p hp => outcome_append (h.completion p hp)
    · exact fun p hp => outcome_append (h.queued p hp)
    · intro p hp
      cases hp
      dsimp only
      omega
    · refine fun p hp => ⟨fun hsame => hfresh p hp (Option.some.inj hsame).symm, (h.completionApart p hp).2⟩
    · intro p hp
      rw [hqueued] at hp
      cases hp
    · intro p hp
      rw [hactive] at hp
      cases hp
    · rintro p hlt (hp | hp)
      · cases hp
        omega
      · exact .inr hp

variable {jobs : List Job}

theorem Good.complete (h : d.Good) {completion : Nat} (hcons : d.jobs = .complete completion :: jobs) :
    d.completionPromise = some completion ∧ d.Phase [.complete completion] jobs := by
  obtain ⟨fired, throttled, hjobs, hfired, hphase⟩ := h.schedule
  rw [hcons] at hjobs
  cases hfired with
  | no =>
    cases hphase with
    | idle => cases hjobs
    | waking => cases hjobs
    | running => cases hjobs
    | ended => cases hjobs
  | yes other hcompletion =>
    obtain ⟨rfl, rfl⟩ := hjobs
    exact ⟨hcompletion, hphase⟩

theorem runComplete_spec (h : d.Good) {completion : Nat} (hcons : d.jobs = .complete completion :: jobs)
    (heq : ({ d with jobs, completionPromise := none, task := false } : ThrottledDelayer).queue true = (d', result, called)) :
    ∃ r, result = some r ∧ (d'.settleWith completion (.follows r)).Good ∧
      (∀ p, d.Runs p → (d'.settleWith completion (.follows r)).Runs p) ∧
      (called = true → (∀ p, ¬d.Runs p) ∧ ∃ p, (d'.settleWith completion (.follows r)).Runs p) ∧
      (∀ p, d.AwaitsStart p → (d'.settleWith completion (.follows r)).AwaitsStart p ∨
        called = true ∧ (d'.settleWith completion (.follows r)).AwaitsEnd p) ∧
      (∀ p, d.AwaitsEnd p → (d'.settleWith completion (.follows r)).AwaitsEnd p) := by
  obtain ⟨hcompletion, hphase⟩ := h.complete hcons
  obtain ⟨hactiveApart, hqueuedApart⟩ := h.completionApart completion hcompletion
  have hpending := h.completion completion hcompletion
  have hgood : ({ d with jobs, completionPromise := none, task := false } : ThrottledDelayer).Good := by
    refine ⟨⟨[], jobs, rfl, .no, ?_⟩, fun hnone => (nomatch hnone), h.factory, fun _ hp => (nomatch hp), h.queued, h.active,
      fun _ hp => (nomatch hp), h.queuedApart⟩
    cases hphase with
    | idle _ active queued reactions => exact .idle _ active queued reactions
    | running _ active hactive outcome reactions => exact .running _ active hactive outcome reactions
    | ended _ active hactive outcome reactions => exact .ended _ active hactive outcome reactions
  have hwaking : d.activePromise = none → d.queuedPromise = none := by
    intro hnone
    cases hphase with
    | idle _ _ queued => exact queued
    | running _ _ hactive => rw [hnone] at hactive; cases hactive
    | ended _ _ hactive => rw [hnone] at hactive; cases hactive
  obtain ⟨hgood', hcompletion', houtcome, hqueued, hactive, hold, r, rfl, hresult⟩ := queue_spec hgood hwaking heq
  have hlt := outcome_lt hpending
  have hlt' := outcome_lt (houtcome completion .pending hpending)
  have hself : (d'.settleWith completion (.follows r)).outcome completion = some (.follows r) :=
    outcome_settleWith_self hlt'
  have hkept : ∀ p o, d'.outcome p = some o → completion ≠ p →
      (d'.settleWith completion (.follows r)).outcome p = some o := fun p o hp hne => (outcome_settleWith_ne hne).trans hp
  have hnotActive : ∀ p, d'.activePromise = some p → completion ≠ p := by
    rintro p hp rfl
    exact (hold completion hlt (.inl hp)).elim hactiveApart hqueuedApart
  have hfollows : ∀ p q, d.outcome p = some (.follows q) → completion ≠ p := by
    rintro p q hp rfl
    rw [hpending] at hp
    cases hp
  refine ⟨r, rfl, hgood'.settleWith ?_ ?_ ?_ _, ?_, fun hcalled => ?_, ?_, ?_⟩
  · rw [hcompletion']
    exact fun hnone => nomatch hnone
  · exact fun hp => (hold completion hlt (.inr hp)).elim hactiveApart hqueuedApart
  · exact fun hp => hnotActive completion hp rfl
  · rintro active ⟨hp, hpending'⟩
    exact ⟨hactive active hp, hkept _ _ (houtcome _ _ hpending') (hnotActive active (hactive active hp))⟩
  · rcases hresult with ⟨hfalse, -⟩ | ⟨-, hnone, hr, hpending'⟩
    · rw [hcalled] at hfalse
      cases hfalse
    · exact ⟨fun _ hruns => hruns.not_idle hnone, r, hr, hkept _ _ hpending' (hnotActive r hr)⟩
  · rintro p (hp | ⟨queued, hp, hfollows'⟩)
    · have hsame : completion = p := Option.some.inj (hcompletion.symm.trans hp)
      subst hsame
      rcases hresult with ⟨-, hr⟩ | ⟨hcalled, -, hr, hpending'⟩
      · exact .inl (.inr ⟨r, hr, hself⟩)
      · exact .inr ⟨hcalled, r, hr, hkept _ _ hpending' (hnotActive r hr), .inl hself⟩
    · exact .inl (.inr ⟨queued, hqueued queued hp, hkept _ _ (houtcome _ _ hfollows') (hfollows p queued hfollows')⟩)
  · rintro p ⟨active, hp, hpending', hfollows' | ⟨queued, hfollows', hqueued'⟩⟩
    · exact ⟨active, hactive active hp, hkept _ _ (houtcome _ _ hpending') (hnotActive active (hactive active hp)),
        .inl (hkept _ _ (houtcome _ _ hfollows') (hfollows p _ hfollows'))⟩
    · exact ⟨active, hactive active hp, hkept _ _ (houtcome _ _ hpending') (hnotActive active (hactive active hp)),
        .inr ⟨queued, hkept _ _ (houtcome _ _ hfollows') (hfollows p _ hfollows'),
          hkept _ _ (houtcome _ _ hqueued') (hfollows queued _ hqueued')⟩⟩

theorem runActiveDone_spec (h : d.Good) (hcons : d.jobs = .activeDone :: jobs) :
    ({ d with jobs, activePromise := none } : ThrottledDelayer).Good ∧ ∀ p, ¬d.Runs p := by
  obtain ⟨fired, throttled, hjobs, hfired, hphase⟩ := h.schedule
  rw [hcons] at hjobs
  cases hfired with
  | yes => cases hjobs
  | no =>
    cases hphase with
    | idle => cases hjobs
    | waking => cases hjobs
    | running => cases hjobs
    | ended _ active hactive outcome reactions =>
      cases hjobs
      refine ⟨⟨⟨[], d.queuedJobs, rfl, .no, ?_⟩, h.task, h.factory, h.completion, h.queued, fun _ hp => (nomatch hp),
        fun p hp => ⟨fun hnone => (nomatch hnone), (h.completionApart p hp).2⟩, fun _ _ hnone => nomatch hnone⟩, ?_⟩
      · unfold queuedJobs
        split
        · next hqueued => exact .waking rfl hqueued reactions
        · next hqueued => exact .idle _ rfl (Option.not_isSome_iff_eq_none.mp hqueued) reactions
      · rintro other ⟨heq, hpending⟩
        rw [hactive] at heq
        cases heq
        rw [outcome] at hpending
        cases hpending

theorem runOnComplete_spec (h : d.Good) (hcons : d.jobs = .onComplete :: jobs)
    (heq : ({ d with jobs, queuedPromise := none } : ThrottledDelayer).queue d.queuedPromiseFactory = (d', result, called)) :
    ∃ queued r, d.queuedPromise = some queued ∧ result = some r ∧ called = true ∧
      ({ d' with queuedPromiseFactory := false }.settleWith queued (.follows r)).Good ∧ (∀ p, ¬d.Runs p) ∧
      (∃ p, ({ d' with queuedPromiseFactory := false }.settleWith queued (.follows r)).Runs p) ∧
      (∀ p, d.AwaitsStart p → ({ d' with queuedPromiseFactory := false }.settleWith queued (.follows r)).AwaitsStart p ∨
        ({ d' with queuedPromiseFactory := false }.settleWith queued (.follows r)).AwaitsEnd p) := by
  obtain ⟨fired, throttled, hjobs, hfired, hphase⟩ := h.schedule
  rw [hcons] at hjobs
  cases hfired with
  | yes => cases hjobs
  | no =>
    cases hphase with
    | idle => cases hjobs
    | running => cases hjobs
    | ended => cases hjobs
    | waking hactive hsome reactions =>
      cases hjobs
      obtain ⟨queued, hqueued⟩ := Option.isSome_iff_exists.mp hsome
      have hfactory := h.factory
      rw [hsome] at hfactory
      unfold queue at heq
      dsimp only at heq
      rw [hfactory, if_pos rfl] at heq
      split at heq
      · next hactive' =>
        rw [hactive] at hactive'
        cases hactive'
      cases heq
      have hpending := h.queued queued hqueued
      have hlt := outcome_lt hpending
      have hnew : (d.promises ++ [Outcome.pending])[d.promises.length]? = some .pending := by
        rw [getElem?_append_right (Nat.le_refl _), Nat.sub_self]
        rfl
      refine ⟨queued, _, hqueued, rfl, rfl, ?_⟩
      generalize hd' : ThrottledDelayer.settleWith _ queued (.follows d.promises.length) = d'
      have hkept : ∀ p o, d.outcome p = some o → queued ≠ p → d'.outcome p = some o := by
        rintro p o hp hne
        rw [← hd', outcome_settleWith_ne hne]
        exact outcome_append hp
      have hself : d'.outcome queued = some (.follows d.promises.length) := by
        rw [← hd']
        refine outcome_settleWith_self ?_
        rw [length_append]
        omega
      have hrun : d'.outcome d.promises.length = some .pending := by
        rw [← hd', outcome_settleWith_ne (Nat.ne_of_lt hlt)]
        exact hnew
      have hcompletion' : d'.completionPromise = d.completionPromise := by rw [← hd']; rfl
      have hactive' : d'.activePromise = some d.promises.length := by rw [← hd']; rfl
      have hqueued' : d'.queuedPromise = none := by rw [← hd']; rfl
      refine ⟨⟨⟨[], [], by rw [← hd']; rfl, .no, .running [] _ hactive' hrun ?_⟩, ?_, ?_, ?_, ?_, ?_, ?_, ?_⟩,
        fun _ hruns => hruns.not_idle hactive, ⟨_, hactive', hrun⟩, ?_⟩
      · unfold queuedJobs
        rw [hqueued', ← hd']
        rfl
      · rw [hcompletion', ← hd']
        exact h.task
      · rw [hqueued', ← hd']
        rfl
      · intro p hp
        rw [hcompletion'] at hp
        refine hkept p _ (h.completion p hp) ?_
        rintro rfl
        exact (h.completionApart _ hp).2 hqueued
      · intro p hp
        rw [hqueued'] at hp
        cases hp
      · intro p hp
        rw [hactive'] at hp
        cases hp
        exact outcome_lt hrun
      · intro p hp
        rw [hcompletion'] at hp
        rw [hactive', hqueued']
        refine ⟨fun hsame => ?_, fun hnone => nomatch hnone⟩
        have hplt := outcome_lt (h.completion p hp)
        have := Option.some.inj hsame
        omega
      · intro p hp
        rw [hqueued'] at hp
        cases hp
      · rintro p (hp | ⟨other, hp, hfollows⟩)
        · exact .inl (.inl (hcompletion'.trans hp))
        · rw [hqueued] at hp
          cases hp
          refine .inr ⟨_, hactive', hrun, .inr ⟨queued, hkept p _ hfollows ?_, hself⟩⟩
          rintro rfl
          rw [hpending] at hfollows
          cases hfollows

theorem runJob_spec (h : d.Good) (heq : d.runJob = (d', called)) :
    d'.Good ∧ (∀ p, d.Runs p → d'.Runs p) ∧ (called = true → (∀ p, ¬d.Runs p) ∧ ∃ p, d'.Runs p) ∧
      (∀ p, d.AwaitsStart p → d'.AwaitsStart p ∨ called = true ∧ d'.AwaitsEnd p) ∧
      (∀ p, d.AwaitsEnd p → d'.AwaitsEnd p) := by
  unfold runJob at heq
  split at heq
  · cases heq
    exact ⟨h, fun _ => id, fun hfalse => (by cases hfalse), fun _ hp => .inl hp, fun _ => id⟩
  · next completion jobs hcons =>
    have htask : d.task = true := h.task (by rw [(h.complete hcons).1]; rfl)
    rw [if_pos htask] at heq
    rcases hqueue : ({ d with jobs, completionPromise := none, task := false } : ThrottledDelayer).queue true with
      ⟨d2, result, called'⟩
    rw [hqueue] at heq
    obtain ⟨r, rfl, hspec⟩ := runComplete_spec h hcons hqueue
    cases heq
    exact hspec
  · next jobs hcons =>
    cases heq
    obtain ⟨hgood, hnot⟩ := runActiveDone_spec h hcons
    refine ⟨hgood, fun p hruns => (hnot p hruns).elim, fun hfalse => (by cases hfalse), fun _ hp => .inl hp, ?_⟩
    rintro p ⟨active, hactive, hpending, -⟩
    exact (hnot active ⟨hactive, hpending⟩).elim
  · next jobs hcons =>
    rcases hqueue : ({ d with jobs, queuedPromise := none } : ThrottledDelayer).queue d.queuedPromiseFactory with
      ⟨d2, result, called'⟩
    rw [hqueue] at heq
    obtain ⟨queued, r, hqueued, rfl, rfl, hgood, hnot, hruns, hstart⟩ := runOnComplete_spec h hcons hqueue
    rw [hqueued] at heq
    cases heq
    refine ⟨hgood, fun p hp => (hnot p hp).elim, fun _ => ⟨hnot, hruns⟩, fun p hp => (hstart p hp).imp_right fun hp => ⟨rfl, hp⟩, ?_⟩
    rintro p ⟨active, hactive, hpending, -⟩
    exact (hnot active ⟨hactive, hpending⟩).elim

end Steps

end ThrottledDelayer

end TongjiCode.Persistence
