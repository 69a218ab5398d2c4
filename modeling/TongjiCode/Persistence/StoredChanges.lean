import TongjiCode.Persistence.StorageCalls

/-!
# Changes are stored

As long as no update fails and no call returns early while changes are pending or in flight, a promise that is fulfilled
says the truth: the changes that were made before it are in the database.
-/

open List

namespace TongjiCode.Persistence

theorem after_append (items : Items) (changes : List Change) (change : Change) :
    after items (changes ++ [change]) = Function.update (after items changes) change.key change.value := by
  unfold after
  rw [foldl_append]
  rfl

theorem take_append_change {changes : List Change} {n : Nat} (h : n ≤ changes.length) (change : Change) :
    (changes ++ [change]).take n = changes.take n := by
  rw [take_append_of_le_length h]

variable {key : String} {value : Option String}

namespace Storage

/-- The value of a key was changed, in the cache and in what will be written. -/
structure Changed (s s' : Storage) (key : String) (value : Option String) : Prop where
  cache : s'.cache = Function.update s.cache key value
  pending : ∀ items, overlay items s'.pending = Function.update (overlay items s.pending) key value
  database : s'.database = s.database
  inFlight : s'.inFlight = s.inFlight
  flushDelayer : s'.flushDelayer = s.flushDelayer
  state : s'.state = s.state

theorem delete_spec (s : Storage) (key : String) (hstate : s.state ≠ .closed) (hkey : s.cache key ≠ none) :
    s.Changed (s.delete key) key none := by
  have hsome : ¬ (s.cache key).isNone = true := by
    rw [Option.isNone_iff_eq_none]
    exact hkey
  unfold Storage.delete
  rw [if_neg hstate, if_neg hsome]
  exact ⟨rfl, fun items => overlay_delete items s.pending key, rfl, rfl, rfl, rfl⟩

theorem set_spec (s : Storage) (key : String) (value : Option String) (hstate : s.state ≠ .closed)
    (hkey : s.cache key ≠ value) : s.Changed (s.set key value) key value := by
  unfold Storage.set
  rw [if_neg hstate]
  cases value with
  | none => exact s.delete_spec key hstate hkey
  | some value =>
    dsimp only
    rw [if_neg hkey]
    exact ⟨rfl, fun items => overlay_set items s.pending key value, rfl, rfl, rfl, rfl⟩

theorem Changed.flown {s s' : Storage} (h : s.Changed s' key value) :
    s'.flown = s.flown := by
  unfold Storage.flown
  rw [h.inFlight, h.database]

/-- One update is in flight at most, and then the throttler waits for it. -/
structure Serial (s : Storage) : Prop where
  good : s.flushDelayer.Good
  inFlight : s.inFlight = [] ∨ ∃ call, s.inFlight = [call] ∧ s.flushDelayer.Runs call.promise

theorem Changed.serial {s s' : Storage} (h : s.Changed s' key value) (hserial : s.Serial) : s'.Serial := by
  refine ⟨?_, ?_⟩
  · rw [h.flushDelayer]
    exact hserial.good
  · rw [h.inFlight, h.flushDelayer]
    exact hserial.inFlight

variable {s : Storage}

theorem Serial.call (h : s.Serial) {index : Nat} {call : Call} (hcall : s.inFlight[index]? = some call) :
    index = 0 ∧ s.inFlight = [call] := by
  rcases h.inFlight with hnone | ⟨other, hone, -⟩
  · rw [hnone] at hcall
    cases hcall
  · rw [hone] at hcall ⊢
    cases index with
    | zero => exact ⟨rfl, by rw [Option.some.inj hcall]⟩
    | succ index => cases hcall

theorem flown_of_inFlight (h : s.inFlight = []) : s.flown = s.database := by
  unfold Storage.flown
  rw [h]
  rfl

theorem flown_of_call {call : Call} (h : s.inFlight = [call]) :
    s.flown = overlay s.database call.request := by
  unfold Storage.flown
  rw [h]
  rfl

theorem overlay_of_flushed (h : s.Flushed) (items : Items) : overlay items s.pending = items := by
  unfold Storage.pending
  rw [h.1, h.2]
  exact overlay_empty items

end Storage

namespace StorageCalls

/-- What the promise waits for, when the database holds `stored` changes and will hold `sent` after the update in flight. -/
def Sound (d : ThrottledDelayer) (stored sent : Nat) (p : Promised) : Prop :=
  match p.waits with
  | .nothing => p.made ≤ stored
  | .flush promise => d.AwaitsStart promise ∨ (p.made ≤ sent ∧ d.AwaitsEnd promise) ∨ p.made ≤ stored
  | _ => True

structure Inv (items : Items) (stored sent : Nat) (s : StorageCalls) : Prop where
  serial : s.storage.Serial
  cache : s.storage.cache = after items s.changes
  kept : s.Kept items
  database : s.storage.database = after items (s.changes.take stored)
  flown : s.storage.flown = after items (s.changes.take sent)
  stored_le : stored ≤ sent
  sent_le : sent ≤ s.changes.length
  due : s.finallyDue = true → s.storage.inFlight = [] ∧ ∃ promise, s.storage.flushDelayer.Runs promise
  made : ∀ p ∈ s.promised, p.made ≤ s.changes.length
  sound : ∀ p ∈ s.promised, Sound s.storage.flushDelayer stored sent p

theorem inv_initial (items : Items) : Inv items 0 0 (initial items) where
  serial := ⟨ThrottledDelayer.good_empty, .inl rfl⟩
  cache := rfl
  kept := overlay_empty items
  database := rfl
  flown := rfl
  stored_le := Nat.le_refl 0
  sent_le := Nat.le_refl 0
  due := fun h => nomatch h
  made := fun _ h => nomatch h
  sound := fun _ h => nomatch h

section Steps

variable {items : Items} {stored sent : Nat} {s : StorageCalls}

theorem Sound.mono {d d' : ThrottledDelayer} {stored' sent' : Nat} {p : Promised} (h : Sound d stored sent p)
    (hstart : ∀ promise, d.AwaitsStart promise → d'.AwaitsStart promise)
    (hend : ∀ promise, d.AwaitsEnd promise → d'.AwaitsEnd promise) (hstored : stored ≤ stored') (hsent : sent ≤ sent') :
    Sound d' stored' sent' p := by
  unfold Sound at h ⊢
  split at h
  · omega
  · rcases h with hawaits | ⟨hmade, hawaits⟩ | hmade
    · exact .inl (hstart _ hawaits)
    · exact .inr (.inl ⟨Nat.le_trans hmade hsent, hend _ hawaits⟩)
    · omega
  · trivial

section

variable (h : Inv items stored sent s)
include h

theorem Inv.settled (hflushed : s.storage.Flushed) (hidle : s.storage.inFlight = []) :
    Inv items s.changes.length s.changes.length s := by
  have hall : s.storage.database = after items (s.changes.take s.changes.length) := by
    have hkept := h.kept
    unfold Kept at hkept
    rw [Storage.overlay_of_flushed hflushed, Storage.flown_of_inFlight hidle] at hkept
    rw [take_length]
    exact hkept
  have hstored := Nat.le_trans h.stored_le h.sent_le
  refine ⟨h.serial, h.cache, h.kept, hall, ?_, Nat.le_refl _, Nat.le_refl _, h.due, h.made, fun p hp => ?_⟩
  · rw [Storage.flown_of_inFlight hidle]
    exact hall
  · exact (h.sound p hp).mono (fun _ => id) (fun _ => id) hstored h.sent_le

theorem Inv.returned {waits : Waits}
    (hsound : s.storage.state ≠ .closed → Sound s.storage.flushDelayer stored sent ⟨s.changes.length, waits⟩) :
    Inv items stored sent (s.returned waits) := by
  unfold StorageCalls.returned
  split
  · exact h
  · next hstate =>
    refine ⟨h.serial, h.cache, h.kept, h.database, h.flown, h.stored_le, h.sent_le, h.due, fun p hp => ?_, fun p hp => ?_⟩
    · rcases mem_append.mp hp with hp | hp
      · exact h.made p hp
      · obtain rfl := mem_singleton.mp hp
        exact Nat.le_refl _
    · rcases mem_append.mp hp with hp | hp
      · exact h.sound p hp
      · rw [mem_singleton.mp hp]
        exact hsound hstate

theorem Inv.changed {storage : Storage} (hchanged : s.storage.Changed storage key value) :
    Inv items stored sent (s.changed storage key value) where
  serial := hchanged.serial h.serial
  cache := by
    show storage.cache = after items (s.changes ++ [(⟨key, value⟩ : Change)])
    rw [hchanged.cache, after_append, h.cache]
  kept := by
    show overlay storage.flown storage.pending = after items (s.changes ++ [(⟨key, value⟩ : Change)])
    rw [hchanged.flown, hchanged.pending, after_append]
    exact congrArg (fun items => Function.update items key value) h.kept
  database := by
    show storage.database = after items ((s.changes ++ [(⟨key, value⟩ : Change)]).take stored)
    rw [hchanged.database, take_append_change (Nat.le_trans h.stored_le h.sent_le)]
    exact h.database
  flown := by
    show storage.flown = after items ((s.changes ++ [(⟨key, value⟩ : Change)]).take sent)
    rw [hchanged.flown, take_append_change h.sent_le]
    exact h.flown
  stored_le := h.stored_le
  sent_le := by
    show sent ≤ (s.changes ++ [(⟨key, value⟩ : Change)]).length
    rw [length_append]
    exact Nat.le_add_right_of_le h.sent_le
  due := by
    show s.finallyDue = true → storage.inFlight = [] ∧ ∃ promise, storage.flushDelayer.Runs promise
    rw [hchanged.inFlight, hchanged.flushDelayer]
    exact h.due
  made p hp := by
    show p.made ≤ (s.changes ++ [(⟨key, value⟩ : Change)]).length
    rw [length_append]
    exact Nat.le_add_right_of_le (h.made p hp)
  sound p hp := by
    show Sound storage.flushDelayer stored sent p
    rw [hchanged.flushDelayer]
    exact h.sound p hp

/-- The event loop and the timers, apart from calls of `flushPending`. -/
theorem Inv.schedule {d : ThrottledDelayer} (hgood : d.Good)
    (hruns : ∀ promise, s.storage.flushDelayer.Runs promise → d.Runs promise)
    (hstart : ∀ promise, s.storage.flushDelayer.AwaitsStart promise → d.AwaitsStart promise)
    (hend : ∀ promise, s.storage.flushDelayer.AwaitsEnd promise → d.AwaitsEnd promise) :
    Inv items stored sent { s with storage := { s.storage with flushDelayer := d } } := by
  refine ⟨⟨hgood, ?_⟩, h.cache, h.kept, h.database, h.flown, h.stored_le, h.sent_le, fun hdue => ?_, h.made, fun p hp => ?_⟩
  · exact h.serial.inFlight.imp_right fun ⟨call, hcall, hcallRuns⟩ => ⟨call, hcall, hruns _ hcallRuns⟩
  · obtain ⟨hidle, promise, hpromise⟩ := h.due hdue
    exact ⟨hidle, promise, hruns promise hpromise⟩
  · exact (h.sound p hp).mono hstart hend (Nat.le_refl _) (Nat.le_refl _)

/-! ### Calls -/

theorem Inv.delete (key : String) : Inv items stored sent (s.delete key) := by
  unfold StorageCalls.delete
  split
  · exact h
  · next hnot =>
    obtain ⟨hstate, hkey⟩ := not_or.mp hnot
    have hchanged := h.changed (s.storage.delete_spec key hstate (by simpa [returnsEarly] using hkey))
    exact ⟨hchanged.serial, hchanged.cache, hchanged.kept, hchanged.database, hchanged.flown, hchanged.stored_le,
      hchanged.sent_le, hchanged.due, hchanged.made, hchanged.sound⟩

end

/-- Nothing is pending and no update is in flight. -/
def Settled (s : StorageCalls) : Prop := s.storage.hasPending = false ∧ s.storage.inFlight = []

section

variable (h : Inv items stored sent s)
include h

/-- A promise that is returned resolved, when nothing is pending or in flight. -/
theorem Inv.returned_nothing (hsettled : s.storage.state ≠ .closed → s.Settled) :
    ∃ stored sent, Inv items stored sent (s.returned .nothing) := by
  by_cases hstate : s.storage.state = .closed
  · refine ⟨stored, sent, ?_⟩
    unfold StorageCalls.returned
    rw [if_pos hstate]
    exact h
  · obtain ⟨hpending, hidle⟩ := hsettled hstate
    have hall := h.settled (Storage.hasPending_eq_false.mp hpending) hidle
    exact ⟨_, _, hall.returned fun _ => Nat.le_refl _⟩

theorem Inv.set (key : String) (value : Option String)
    (hearly : s.storage.state ≠ .closed → s.returnsEarly key value = true → s.Settled) :
    ∃ stored sent, Inv items stored sent (s.set key value) := by
  unfold StorageCalls.set
  split
  · exact ⟨stored, sent, h⟩
  next hstate =>
  split
  · next hsame => exact h.returned_nothing fun _ => hearly hstate hsame
  · next hdiffers =>
    have hchanged := h.changed (s.storage.set_spec key value hstate (by simpa [returnsEarly] using hdiffers))
    have hreturned := @Inv.returned _ _ _ _ hchanged .firing fun _ => trivial
    exact ⟨stored, sent, ⟨hreturned.serial, hreturned.cache, hreturned.kept, hreturned.database, hreturned.flown,
      hreturned.stored_le, hreturned.sent_le, hreturned.due, hreturned.made, hreturned.sound⟩⟩

theorem Inv.doFlush :
    Inv items stored sent { s with storage := s.storage.doFlush } ∧
      s.storage.doFlush.flushDelayer.AwaitsStart s.storage.flushDelayer.trigger.2 := by
  rcases heq : s.storage.flushDelayer.trigger with ⟨d, promise⟩
  obtain ⟨hgood, hcompletion, hruns, hstart, hend⟩ := ThrottledDelayer.trigger_spec h.serial.good heq
  unfold Storage.doFlush
  rw [heq]
  exact ⟨h.schedule hgood hruns hstart hend, .inl hcompletion⟩

theorem Inv.fired : Inv items stored sent s.fired := by
  unfold StorageCalls.fired
  split
  · exact h
  next call firing hfiring =>
  have hreturned : Inv items stored sent { s with storage := { s.storage with firing := firing.length } } :=
    ⟨⟨h.serial.good, h.serial.inFlight⟩, h.cache, h.kept, h.database, h.flown, h.stored_le, h.sent_le, h.due, h.made, h.sound⟩
  obtain ⟨hflush, hawaits⟩ := hreturned.doFlush
  cases call with
  | none => exact ⟨hflush.serial, hflush.cache, hflush.kept, hflush.database, hflush.flown, hflush.stored_le, hflush.sent_le,
      hflush.due, hflush.made, hflush.sound⟩
  | some index =>
    -- the promise of the call now waits for the flush
    have hmodified : ∀ p ∈ s.promised.modify index fun p => { p with waits := .flush s.storage.flushDelayer.trigger.2 },
        p ∈ s.promised ∨ ∃ q ∈ s.promised, p = { q with waits := .flush s.storage.flushDelayer.trigger.2 } := by
      intro p hp
      obtain ⟨i, hi, rfl⟩ := mem_iff_getElem.mp hp
      rw [length_modify] at hi
      rw [getElem_modify]
      split
      · exact .inr ⟨_, getElem_mem hi, rfl⟩
      · exact .inl (getElem_mem hi)
    refine ⟨hflush.serial, hflush.cache, hflush.kept, hflush.database, hflush.flown, hflush.stored_le, hflush.sent_le,
      hflush.due, fun p hp => ?_, fun p hp => ?_⟩
    · rcases hmodified p hp with hp | ⟨q, hq, rfl⟩
      · exact h.made p hp
      · exact h.made q hq
    · rcases hmodified p hp with hp | ⟨q, hq, rfl⟩
      · exact hflush.sound p hp
      · exact .inl hawaits

section

variable (hearly : s.storage.state ≠ .closed → s.storage.hasPending = false → s.storage.inFlight = [])
include hearly

theorem Inv.flush :
    ∃ stored sent, Inv items stored sent s.flush := by
  unfold StorageCalls.flush Storage.flush
  split
  · next hpending =>
    obtain ⟨hflush, hawaits⟩ := h.doFlush
    exact ⟨stored, sent, hflush.returned fun _ => Or.inl hawaits⟩
  · next hpending =>
    have hpending' := Bool.eq_false_iff.mpr hpending
    exact h.returned_nothing fun hstate => ⟨hpending', hearly hstate hpending'⟩

theorem Inv.whenFlushed :
    ∃ stored sent, Inv items stored sent s.whenFlushed := by
  unfold StorageCalls.whenFlushed
  split
  · exact ⟨stored, sent, h.returned fun _ => trivial⟩
  · next hpending =>
    have hpending' := Bool.eq_false_iff.mpr hpending
    exact h.returned_nothing fun hstate => ⟨hpending', hearly hstate hpending'⟩

end

theorem Inv.close : Inv items stored sent { s with storage := s.storage.close } := by
  unfold Storage.close
  split
  · exact h
  · obtain ⟨hflush, -⟩ := h.doFlush
    exact ⟨⟨hflush.serial.good, hflush.serial.inFlight⟩, hflush.cache, hflush.kept, hflush.database, hflush.flown,
      hflush.stored_le, hflush.sent_le, hflush.due, hflush.made, hflush.sound⟩

/-! ### Updates -/

/-- `flushPending`, when the throttler has just begun a run. -/
theorem Inv.flushPending {promise : Nat} {d : ThrottledDelayer} (hgood : d.Good)
    (hnot : ∀ p, ¬s.storage.flushDelayer.Runs p) (hruns : d.Runs promise)
    (hstart : ∀ p, s.storage.flushDelayer.AwaitsStart p → d.AwaitsStart p ∨ d.AwaitsEnd p)
    (hend : ∀ p, s.storage.flushDelayer.AwaitsEnd p → d.AwaitsEnd p) :
    Inv items stored s.changes.length
      { s with storage := ({ s.storage with flushDelayer := d } : Storage).flushPending promise } := by
  have hidle : s.storage.inFlight = [] := h.serial.inFlight.resolve_right fun ⟨call, _, hcall⟩ => hnot _ hcall
  have hdue : s.finallyDue = false := by
    refine Bool.eq_false_iff.mpr fun hdue => ?_
    obtain ⟨-, p, hp⟩ := h.due hdue
    exact hnot p hp
  have hsound : ∀ p ∈ s.promised, Sound d stored s.changes.length p := by
    intro p hp
    have hsent := (h.sound p hp).mono (fun _ => id) (fun _ => id) (Nat.le_refl _) h.sent_le
    unfold Sound at hsent ⊢
    split at hsent
    · exact hsent
    · rcases hsent with hawaits | ⟨hmade, hawaits⟩ | hmade
      · exact (hstart _ hawaits).imp_right fun hawaits => .inl ⟨h.made p hp, hawaits⟩
      · exact .inr (.inl ⟨hmade, hend _ hawaits⟩)
      · exact .inr (.inr hmade)
    · trivial
  have hkept := h.kept
  have hstored := Nat.le_trans h.stored_le h.sent_le
  unfold Storage.flushPending
  split
  · refine ⟨⟨hgood, .inr ⟨⟨promise, s.storage.pending⟩, ?_, hruns⟩⟩, h.cache, ?_, h.database, ?_, hstored, Nat.le_refl _,
      fun htrue => ?_, h.made, hsound⟩
    · show s.storage.inFlight ++ [⟨promise, s.storage.pending⟩] = _
      rw [hidle]
      rfl
    · -- what was pending is now in flight
      show overlay (List.foldl _ s.storage.database (s.storage.inFlight ++ [⟨promise, s.storage.pending⟩])) ⟨∅, ∅⟩ = _
      rw [overlay_empty, foldl_append]
      exact hkept
    · show List.foldl _ s.storage.database (s.storage.inFlight ++ [⟨promise, s.storage.pending⟩]) = _
      rw [foldl_append, take_length]
      exact hkept
    · have htrue : s.finallyDue = true := htrue
      rw [hdue] at htrue
      cases htrue
  · next hpending =>
    have hflushed : s.storage.Flushed := Storage.hasPending_eq_false.mp (Bool.eq_false_iff.mpr hpending)
    refine ⟨⟨hgood, .inl hidle⟩, h.cache, h.kept, h.database, ?_, hstored, Nat.le_refl _, fun htrue => ?_, h.made, hsound⟩
    · show s.storage.flown = _
      rw [take_length, ← hkept, Storage.overlay_of_flushed hflushed]
    · have htrue : s.finallyDue = true := htrue
      rw [hdue] at htrue
      cases htrue

theorem Inv.job :
    ∃ sent, Inv items stored sent { s with storage := s.storage.step .job } := by
  unfold Storage.step
  dsimp only
  split
  swap
  · exact ⟨sent, h⟩
  rcases heq : s.storage.flushDelayer.runJob with ⟨d, called⟩
  obtain ⟨hgood, hruns, hcalled, hstart, hend⟩ := ThrottledDelayer.runJob_spec h.serial.good heq
  cases called with
  | false =>
    exact ⟨sent, h.schedule hgood hruns (fun p hp => (hstart p hp).resolve_right fun hfalse => by cases hfalse.1) hend⟩
  | true =>
    obtain ⟨hnot, promise, hpromise⟩ := hcalled rfl
    rw [hpromise.1]
    exact ⟨_, h.flushPending hgood hnot hpromise (fun p hp => (hstart p hp).imp_right And.right) hend⟩

theorem Inv.written (index : Nat) :
    ∃ stored, Inv items stored sent { s with storage := s.storage.step (.written index) } := by
  unfold Storage.step
  dsimp only
  split
  · exact ⟨stored, h⟩
  next call hcall =>
  obtain ⟨-, hone⟩ := h.serial.call hcall
  have hflown : ({ s.storage with database := overlay s.storage.database call.request } : Storage).flown = s.storage.flown := by
    unfold Storage.flown
    rw [hone]
    exact overlay_overlay _ _
  refine ⟨sent, ⟨h.serial.good, h.serial.inFlight⟩, h.cache, ?_, ?_, ?_, Nat.le_refl _, h.sent_le, h.due, h.made,
    fun p hp => ?_⟩
  · show overlay (Storage.flown _) s.storage.pending = _
    rw [hflown]
    exact h.kept
  · show overlay s.storage.database call.request = _
    rw [← Storage.flown_of_call hone]
    exact h.flown
  · rw [hflown]
    exact h.flown
  · exact (h.sound p hp).mono (fun _ => id) (fun _ => id) h.stored_le (Nat.le_refl _)

theorem Inv.completed (index : Nat) :
    ∃ stored, Inv items stored sent (s.step (.completed index)) := by
  cases hcall : s.storage.inFlight[index]? with
  | none =>
    unfold StorageCalls.step
    simp only [hcall]
    exact ⟨stored, h⟩
  | some call =>
  obtain ⟨rfl, hone⟩ := h.serial.call hcall
  have hempty : s.storage.inFlight.eraseIdx 0 = [] := by
    rw [hone]
    rfl
  have hruns : s.storage.flushDelayer.Runs call.promise := by
    rcases h.serial.inFlight with hnone | ⟨other, hother, hruns⟩
    · rw [hone] at hnone
      cases hnone
    · rw [hone] at hother
      cases hother
      exact hruns
  have hdatabase : overlay s.storage.database call.request = s.storage.flown := (Storage.flown_of_call hone).symm
  unfold StorageCalls.step Storage.step
  simp only [hcall, hempty]
  rw [hdatabase]
  refine ⟨sent, ⟨h.serial.good, .inl rfl⟩, h.cache, h.kept, h.flown, h.flown, Nat.le_refl _, h.sent_le,
    fun _ => ⟨rfl, _, hruns⟩, h.made, fun p hp => ?_⟩
  exact (h.sound p hp).mono (fun _ => id) (fun _ => id) h.stored_le (Nat.le_refl _)

theorem Inv.finallyCallback : ∃ stored sent, Inv items stored sent s.finallyCallback := by
  unfold StorageCalls.finallyCallback
  split
  swap
  · exact ⟨stored, sent, h⟩
  next hdue =>
  obtain ⟨hidle, -⟩ := h.due hdue
  by_cases hpending : s.storage.hasPending = true
  · rw [if_pos hpending]
    exact ⟨stored, sent, h.serial, h.cache, h.kept, h.database, h.flown, h.stored_le, h.sent_le, fun hfalse => (nomatch hfalse),
      h.made, h.sound⟩
  · rw [if_neg hpending]
    have hall := h.settled (Storage.hasPending_eq_false.mp (Bool.eq_false_iff.mpr hpending)) hidle
    have hreleased : ∀ p ∈ s.promised.map fun p => if p.waits = .callback then { p with waits := .nothing } else p,
        p ∈ s.promised ∨ ∃ q ∈ s.promised, p = { q with waits := .nothing } := by
      intro p hp
      obtain ⟨q, hq, rfl⟩ := mem_map.mp hp
      split
      · exact .inr ⟨q, hq, rfl⟩
      · exact .inl hq
    refine ⟨_, _, hall.serial, hall.cache, hall.kept, hall.database, hall.flown, hall.stored_le, hall.sent_le,
      fun hfalse => (nomatch hfalse), fun p hp => ?_, fun p hp => ?_⟩
    · rcases hreleased p hp with hp | ⟨q, hq, rfl⟩
      · exact h.made p hp
      · exact h.made q hq
    · rcases hreleased p hp with hp | ⟨q, hq, rfl⟩
      · exact hall.sound p hp
      · exact h.made q hq

theorem Inv.settle : ∃ stored, Inv items stored sent s.settle := by
  unfold StorageCalls.settle
  split
  · exact ⟨stored, h⟩
  next hnot =>
  obtain ⟨hdue, hnone⟩ := not_or.mp hnot
  obtain ⟨hgood, hruns, hstart⟩ := ThrottledDelayer.settleActive_spec h.serial.good
  have hidle : s.storage.inFlight = [] := by
    rcases h.serial.inFlight with hidle | ⟨call, hone, hcall⟩
    · exact hidle
    · rw [hone] at hnone
      exact absurd (by simp [hcall.1]) hnone
  have hstep : s.storage.step .settled = { s.storage with flushDelayer := s.storage.flushDelayer.settleActive } := by
    unfold Storage.step
    rw [if_neg hnone]
  rw [hstep]
  refine ⟨sent, ⟨hgood, .inl hidle⟩, h.cache, h.kept, ?_, h.flown, Nat.le_refl _, h.sent_le, fun htrue => absurd htrue hdue,
    h.made, fun p hp => ?_⟩
  · show s.storage.database = _
    rw [← Storage.flown_of_inFlight hidle]
    exact h.flown
  · -- the run has ended, and what it was to write is in the database
    have hsound := h.sound p hp
    unfold Sound at hsound ⊢
    split at hsound
    · exact Nat.le_trans hsound h.stored_le
    · rcases hsound with hawaits | ⟨hmade, -⟩ | hmade
      · exact .inl (hstart _ hawaits)
      · exact .inr (.inr hmade)
      · exact .inr (.inr (Nat.le_trans hmade h.stored_le))
    · trivial

end

/-! ### Runs -/

/-- No update fails, and a call returns early only when nothing is pending or in flight. -/
def Allowed (s : StorageCalls) : Step → Prop
  | .set key value => s.storage.state ≠ .closed → s.returnsEarly key value = true → s.Settled
  | .flush => s.storage.state ≠ .closed → s.storage.hasPending = false → s.storage.inFlight = []
  | .whenFlushed => s.storage.state ≠ .closed → s.storage.hasPending = false → s.storage.inFlight = []
  | .failed index => s.storage.inFlight[index]? = none
  | _ => True

def AllAllowed (s : StorageCalls) : List Step → Prop
  | [] => True
  | step :: steps => s.Allowed step ∧ AllAllowed (s.step step) steps

theorem Inv.step (h : Inv items stored sent s) {step : Step} (hallowed : s.Allowed step) :
    ∃ stored sent, Inv items stored sent (s.step step) := by
  cases step with
  | set key value => exact h.set key value hallowed
  | delete key => exact ⟨_, _, h.delete key⟩
  | fired => exact ⟨_, _, h.fired⟩
  | flush => exact h.flush hallowed
  | whenFlushed => exact h.whenFlushed hallowed
  | close => exact ⟨_, _, h.close⟩
  | timer =>
    refine ⟨stored, sent, ?_⟩
    unfold StorageCalls.step Storage.step
    dsimp only
    split
    · obtain ⟨hgood, hruns, hstart, hend⟩ := ThrottledDelayer.fire_spec h.serial.good
      exact h.schedule hgood hruns hstart hend
    · exact h
  | job => exact ⟨_, h.job⟩
  | written index =>
    obtain ⟨stored, h⟩ := h.written index
    exact ⟨stored, sent, h⟩
  | completed index =>
    obtain ⟨stored, h⟩ := h.completed index
    exact ⟨stored, sent, h⟩
  | failed index =>
    refine ⟨stored, sent, ?_⟩
    have hnone : s.storage.inFlight[index]? = none := hallowed
    show Inv items stored sent (s.fail index)
    unfold StorageCalls.fail
    rw [hnone]
    exact h
  | finallyCallback => exact h.finallyCallback
  | settled =>
    obtain ⟨stored, h⟩ := h.settle
    exact ⟨stored, sent, h⟩
  | followed promise =>
    refine ⟨stored, sent, ?_⟩
    unfold StorageCalls.step
    dsimp only
    split
    · exact h
    · obtain ⟨hgood, hruns, hstart, hend⟩ := ThrottledDelayer.follow_spec h.serial.good promise
      exact h.schedule hgood hruns hstart hend

theorem Inv.run (h : Inv items stored sent s) {steps : List Step} (hallowed : s.AllAllowed steps) :
    ∃ stored sent, Inv items stored sent (s.run steps) := by
  induction steps generalizing s stored sent with
  | nil => exact ⟨stored, sent, h⟩
  | cons step steps ih =>
    obtain ⟨stored, sent, hstep⟩ := h.step hallowed.1
    exact ih hstep hallowed.2

theorem Inv.stored_of_fulfilled (h : Inv items stored sent s) {p : Promised} (hp : p ∈ s.promised) (hfulfilled : s.Fulfilled p) :
    s.Stored items p := by
  have hmade : p.made ≤ stored := by
    have hsound := h.sound p hp
    unfold Sound at hsound
    rcases hfulfilled with hnothing | ⟨promise, hflush, hresolved, -⟩
    · rw [hnothing] at hsound
      exact hsound
    · rw [hflush] at hsound
      rcases hsound with hawaits | ⟨-, hawaits⟩ | hmade
      · exact absurd hresolved (hawaits.unresolved h.serial.good)
      · exact absurd hresolved hawaits.unresolved
      · exact hmade
  exact fun key => ⟨stored, hmade, Nat.le_trans h.stored_le h.sent_le, congrFun h.database key⟩

end Steps

/-- In a run in which no update fails, and `set`, `flush` and `whenFlushed` return early only when nothing is pending or in
flight, every change that was made before a call is in the database, or was overwritten there by a later change, once the
promise of the call is fulfilled; and no change is lost. -/
theorem fulfilled_promises_are_stored (items : Items) (steps : List Step) (h : (initial items).AllAllowed steps) :
    let s := (initial items).run steps
    (∀ p ∈ s.promised, s.Fulfilled p → s.Stored items p) ∧ s.Kept items := by
  intro s
  obtain ⟨stored, sent, hinv⟩ := (inv_initial items).run h
  exact ⟨fun p hp hfulfilled => hinv.stored_of_fulfilled hp hfulfilled, hinv.kept⟩

theorem fulfilled_promises_are_stored_after_two_updates :
    let s := (initial fun _ => none).run
      [.set "a" (some "1"), .fired, .whenFlushed, .timer, .job, .set "a" (some "2"), .fired, .completed 0, .finallyCallback,
        .settled, .job, .flush, .timer, .job, .completed 0, .finallyCallback, .settled, .job, .followed 2]
    (∀ p ∈ s.promised, s.Fulfilled p → s.Stored (fun _ => none) p) ∧ s.Kept fun _ => none :=
  fulfilled_promises_are_stored (fun _ => none) _
    ⟨fun _ h => absurd h (by decide), trivial, fun _ h => absurd h (by decide), trivial, trivial,
      fun _ h => absurd h (by decide), trivial, trivial, trivial, trivial, trivial, fun _ h => absurd h (by decide), trivial,
      trivial, trivial, trivial, trivial, trivial, trivial, trivial⟩

/-- `whenFlushed` is resolved at once while the first update is still in flight; and the promise of a `whenFlushed` that
waits is resolved when the update fails, which loses the change. -/
theorem fulfilled_promises_without_their_changes :
    (let s := (initial fun _ => none).run [.set "a" (some "1"), .fired, .timer, .job, .whenFlushed]
     s.Fulfilled ⟨1, .nothing⟩ ∧ ⟨1, .nothing⟩ ∈ s.promised ∧ ¬ s.Stored (fun _ => none) ⟨1, .nothing⟩) ∧
    (let s := (initial fun _ => none).run
      [.set "a" (some "1"), .fired, .whenFlushed, .timer, .job, .failed 0, .finallyCallback]
     s.Fulfilled ⟨1, .nothing⟩ ∧ ⟨1, .nothing⟩ ∈ s.promised ∧ ¬ s.Stored (fun _ => none) ⟨1, .nothing⟩ ∧
      ¬ s.Kept fun _ => none) := by
  have hnot : ∀ s : StorageCalls, s.storage.database "a" = none → s.changes = [⟨"a", some "1"⟩] →
      ¬ s.Stored (fun _ => none) ⟨1, .nothing⟩ := by
    intro s hdatabase hchanges hstored
    obtain ⟨n, hn, hlength, heq⟩ := hstored "a"
    rw [hchanges] at hlength heq
    have hone : n = 1 := Nat.le_antisymm hlength hn
    rw [hone, hdatabase] at heq
    exact absurd heq (by decide)
  refine ⟨⟨.inl rfl, by decide, hnot _ rfl rfl⟩, ⟨.inl rfl, by decide, hnot _ rfl rfl, fun hkept => ?_⟩⟩
  exact absurd (congrFun hkept "a") (by decide)

end StorageCalls

end TongjiCode.Persistence
