import TongjiCode.Persistence.Scheduling
import TongjiCode.Persistence.Storage

/-!
# Runs of a storage

The database with the update that is in flight and the pending changes is the cache, at every moment.
-/

namespace TongjiCode.Persistence

/-! ## Updates -/

variable (items : Items)

theorem overlay_empty : overlay items ⟨∅, ∅⟩ = items := by
  funext key
  unfold overlay
  rw [if_neg (Finset.notMem_empty key), Finmap.lookup_empty]

variable (request : UpdateRequest)

/-- An update that is written twice changes nothing the second time. -/
theorem overlay_overlay :
    overlay (overlay items request) request = overlay items request := by
  funext key
  unfold overlay
  by_cases hdelete : key ∈ request.delete
  · rw [if_pos hdelete, if_pos hdelete]
  · rw [if_neg hdelete, if_neg hdelete]
    cases request.insert.lookup key <;> rfl

theorem overlay_set (key value : String) :
    overlay items ⟨request.insert.insert key value, request.delete.erase key⟩ =
      Function.update (overlay items request) key (some value) := by
  funext other
  unfold overlay
  by_cases heq : other = key
  · subst heq
    rw [if_neg (Finset.notMem_erase other request.delete), Finmap.lookup_insert, Function.update_self]
  · have hmem : other ∈ request.delete.erase key ↔ other ∈ request.delete :=
      ⟨Finset.mem_of_mem_erase, fun hin => Finset.mem_erase.mpr ⟨heq, hin⟩⟩
    rw [Function.update_of_ne heq, Finmap.lookup_insert_of_ne _ heq]
    simp only [hmem]

variable (key : String)

theorem overlay_delete :
    overlay items ⟨request.insert.erase key, insert key request.delete⟩ = Function.update (overlay items request) key none := by
  funext other
  unfold overlay
  by_cases heq : other = key
  · subst heq
    rw [if_pos (Finset.mem_insert_self other request.delete), Function.update_self]
  · have hmem : other ∈ insert key request.delete ↔ other ∈ request.delete :=
      ⟨fun hin => (Finset.mem_insert.mp hin).resolve_left heq, Finset.mem_insert_of_mem⟩
    rw [Function.update_of_ne heq, Finmap.lookup_erase_ne heq]
    simp only [hmem]

namespace Storage

def flown (s : Storage) : Items := s.inFlight.foldl (fun items call => overlay items call.request) s.database

def Flushed (s : Storage) : Prop := s.pendingInserts = ∅ ∧ s.pendingDeletes = ∅

structure Inv (s : Storage) : Prop where
  good : s.flushDelayer.Good
  cache : s.cache = overlay s.flown s.pending
  disjoint : ∀ key ∈ s.pendingDeletes, key ∉ s.pendingInserts
  inFlight : s.inFlight = [] ∨ ∃ call, s.inFlight = [call] ∧ s.flushDelayer.Runs call.promise
  closing : ∀ promise, s.pendingClose = some promise → s.state = .closed ∧
    (s.flushDelayer.AwaitsStart promise ∨ s.Flushed ∧ (s.flushDelayer.AwaitsEnd promise ∨ s.inFlight = []))
  closed : s.closeResolved = true → (∃ promise, s.pendingClose = some promise) ∧ s.Flushed ∧ s.inFlight = []

section Steps

variable {s : Storage}

theorem hasPending_eq_false : s.hasPending = false ↔ s.Flushed := by
  unfold hasPending Flushed
  simp only [Bool.or_eq_false_iff, decide_eq_false_iff_not, ne_eq, not_not]

section

variable (h : s.Inv)
include h

theorem Inv.open (hstate : s.state ≠ .closed) : s.pendingClose = none ∧ s.closeResolved = false := by
  have hclose : s.pendingClose = none := by
    cases hcase : s.pendingClose with
    | none => rfl
    | some promise => exact absurd (h.closing promise hcase).1 hstate
  refine ⟨hclose, Bool.eq_false_iff.mpr fun htrue => ?_⟩
  obtain ⟨⟨promise, hsome⟩, -⟩ := h.closed htrue
  rw [hclose] at hsome
  cases hsome

theorem Inv.change (hstate : s.state ≠ .closed) {cache : Items} {request : UpdateRequest} {firing : Nat}
    (hcache : cache = overlay s.flown request) (hdisjoint : ∀ key ∈ request.delete, key ∉ request.insert) :
    ({ s with cache, pendingInserts := request.insert, pendingDeletes := request.delete, firing } : Storage).Inv := by
  obtain ⟨hclose, hresolved⟩ := h.open hstate
  refine ⟨h.good, hcache, hdisjoint, h.inFlight, fun promise hsome => ?_, fun htrue => ?_⟩
  · rw [hclose] at hsome
    cases hsome
  · rw [hresolved] at htrue
    cases htrue

theorem Inv.delete : (s.delete key).Inv := by
  unfold Storage.delete
  split
  · exact h
  next hstate =>
  split
  · exact h
  refine @Inv.change s h hstate _ ⟨s.pendingInserts.erase key, insert key s.pendingDeletes⟩ _ ?_ ?_
  · rw [h.cache]
    exact (overlay_delete s.flown s.pending key).symm
  · intro other hother hin
    obtain ⟨hne, hin⟩ := Finmap.mem_erase.mp hin
    exact h.disjoint other ((Finset.mem_insert.mp hother).resolve_left hne) hin

theorem Inv.set (value : Option String) : (s.set key value).Inv := by
  unfold Storage.set
  split
  · exact h
  next hstate =>
  split
  · exact h.delete key
  next value =>
  split
  · exact h
  refine @Inv.change s h hstate _ ⟨s.pendingInserts.insert key value, s.pendingDeletes.erase key⟩ _ ?_ ?_
  · rw [h.cache]
    exact (overlay_set s.flown s.pending key value).symm
  · intro other hother hin
    obtain ⟨hne, hother⟩ := Finset.mem_erase.mp hother
    exact h.disjoint other hother ((Finmap.mem_insert.mp hin).resolve_left hne)

/-- A step of the delayer that does not call `flushPending`. -/
theorem Inv.schedule {d : ThrottledDelayer} (hgood : d.Good)
    (hruns : ∀ promise, s.flushDelayer.Runs promise → d.Runs promise)
    (hstart : ∀ promise, s.flushDelayer.AwaitsStart promise → d.AwaitsStart promise)
    (hend : ∀ promise, s.flushDelayer.AwaitsEnd promise → d.AwaitsEnd promise) :
    ({ s with flushDelayer := d } : Storage).Inv := by
  refine ⟨hgood, h.cache, h.disjoint, ?_, fun promise hsome => ?_, h.closed⟩
  · exact h.inFlight.imp_right fun ⟨call, hcall, hcallRuns⟩ => ⟨call, hcall, hruns _ hcallRuns⟩
  · obtain ⟨hstate, hor⟩ := h.closing promise hsome
    refine ⟨hstate, hor.imp (hstart promise) fun ⟨hflushed, hor⟩ => ⟨hflushed, hor.imp_left (hend promise)⟩⟩

theorem Inv.doFlush : s.doFlush.Inv := by
  rcases heq : s.flushDelayer.trigger with ⟨d, promise⟩
  obtain ⟨hgood, -, hruns, hstart, hend⟩ := ThrottledDelayer.trigger_spec h.good heq
  unfold Storage.doFlush
  rw [heq]
  exact h.schedule hgood hruns hstart hend

theorem Inv.close : s.close.Inv := by
  unfold Storage.close
  split
  · exact h
  next hnone =>
  rcases heq : s.flushDelayer.trigger with ⟨d, promise⟩
  obtain ⟨hgood, hcompletion, hruns, hstart, hend⟩ := ThrottledDelayer.trigger_spec h.good heq
  have hschedule := h.schedule hgood hruns hstart hend
  refine ⟨hgood, h.cache, h.disjoint, hschedule.inFlight, fun other hsome => ?_, fun htrue => ?_⟩
  · cases hsome
    exact ⟨rfl, .inl (.inl hcompletion)⟩
  · obtain ⟨⟨other, hsome⟩, -⟩ := h.closed htrue
    rw [hnone] at hsome
    cases hsome

theorem Inv.returned (firing : Nat) : ({ s with firing } : Storage).Inv :=
  ⟨h.good, h.cache, h.disjoint, h.inFlight, h.closing, h.closed⟩

/-- `flushPending`, when the throttler has just begun a run. -/
theorem Inv.flushPending {promise : Nat} {d : ThrottledDelayer} (hgood : d.Good) (hidle : s.inFlight = [])
    (hruns : d.Runs promise) (hstart : ∀ p, s.flushDelayer.AwaitsStart p → d.AwaitsStart p ∨ d.AwaitsEnd p) :
    (({ s with flushDelayer := d } : Storage).flushPending promise).Inv := by
  have hclosing : ∀ p, s.pendingClose = some p → s.state = .closed ∧
      (d.AwaitsStart p ∨ d.AwaitsEnd p ∨ s.Flushed) := by
    intro p hsome
    obtain ⟨hstate, hor⟩ := h.closing p hsome
    refine ⟨hstate, ?_⟩
    rcases hor with hawaits | ⟨hflushed, -⟩
    · exact (hstart p hawaits).imp_right .inl
    · exact .inr (.inr hflushed)
  unfold Storage.flushPending
  split
  · next hpending =>
    have hnot : ¬s.Flushed := fun hflushed => by
      rw [← hasPending_eq_false] at hflushed
      rw [show s.hasPending = true from hpending] at hflushed
      cases hflushed
    refine ⟨hgood, ?_, ?_, .inr ⟨⟨promise, s.pending⟩, ?_, hruns⟩, fun p hsome => ?_, fun htrue => ?_⟩
    · -- what was pending is now in flight
      show s.cache = overlay (List.foldl _ s.database (s.inFlight ++ [⟨promise, s.pending⟩])) ⟨∅, ∅⟩
      rw [overlay_empty, List.foldl_append]
      exact h.cache
    · exact fun key hin => absurd hin (Finset.notMem_empty key)
    · show s.inFlight ++ [⟨promise, s.pending⟩] = _
      rw [hidle]
      rfl
    · obtain ⟨hstate, hawaits | hawaits | hflushed⟩ := hclosing p hsome
      · exact ⟨hstate, .inl hawaits⟩
      · exact ⟨hstate, .inr ⟨⟨rfl, rfl⟩, .inl hawaits⟩⟩
      · exact absurd hflushed hnot
    · exact absurd (h.closed htrue).2.1 hnot
  · next hpending =>
    have hflushed : s.Flushed := hasPending_eq_false.mp (Bool.eq_false_iff.mpr hpending)
    refine ⟨hgood, h.cache, h.disjoint, .inl hidle, fun p hsome => ?_, h.closed⟩
    exact ⟨(hclosing p hsome).1, .inr ⟨hflushed, .inr hidle⟩⟩

theorem Inv.job : (s.step .job).Inv := by
  unfold step
  dsimp only
  split
  swap
  · exact h
  rcases heq : s.flushDelayer.runJob with ⟨d, called⟩
  obtain ⟨hgood, hruns, hcalled, hstart, hend⟩ := ThrottledDelayer.runJob_spec h.good heq
  cases called with
  | false =>
    exact h.schedule hgood hruns (fun p hp => (hstart p hp).resolve_right fun hfalse => by cases hfalse.1) hend
  | true =>
    obtain ⟨hnone, promise, hpromise⟩ := hcalled rfl
    have hidle : s.inFlight = [] := h.inFlight.resolve_right fun hcall => hcall.elim fun call hcall => hnone _ hcall.2
    rw [hpromise.1]
    exact h.flushPending hgood hidle hpromise fun p hp => (hstart p hp).imp_right And.right

theorem Inv.call {index : Nat} {call : Call} (hcall : s.inFlight[index]? = some call) :
    index = 0 ∧ s.inFlight = [call] := by
  rcases h.inFlight with hnone | ⟨other, hone, -⟩
  · rw [hnone] at hcall
    cases hcall
  · rw [hone] at hcall ⊢
    cases index with
    | zero => exact ⟨rfl, by rw [Option.some.inj hcall]⟩
    | succ index => cases hcall

theorem Inv.written (index : Nat) : (s.step (.written index)).Inv := by
  unfold step
  dsimp only
  split
  · exact h
  next call hcall =>
  obtain ⟨-, hone⟩ := h.call hcall
  refine ⟨h.good, ?_, h.disjoint, h.inFlight, h.closing, h.closed⟩
  have hcache := h.cache
  unfold flown at hcache ⊢
  rw [hone] at hcache ⊢
  dsimp only [List.foldl_cons, List.foldl_nil] at hcache ⊢
  rw [overlay_overlay]
  exact hcache

theorem Inv.completed (index : Nat) : (s.step (.completed index)).Inv := by
  unfold step
  dsimp only
  split
  · exact h
  next call hcall =>
  obtain ⟨rfl, hone⟩ := h.call hcall
  have hempty : s.inFlight.eraseIdx 0 = [] := by
    rw [hone]
    rfl
  rw [hempty]
  refine ⟨h.good, ?_, h.disjoint, .inl rfl, fun promise hsome => ?_, fun htrue => ?_⟩
  · have hcache := h.cache
    unfold flown at hcache
    rw [hone] at hcache
    exact hcache
  · obtain ⟨hstate, hor⟩ := h.closing promise hsome
    exact ⟨hstate, hor.imp_right fun ⟨hflushed, _⟩ => ⟨hflushed, .inr rfl⟩⟩
  · obtain ⟨hclose, hflushed, -⟩ := h.closed htrue
    exact ⟨hclose, hflushed, rfl⟩

theorem Inv.settled : (s.step .settled).Inv := by
  unfold step
  dsimp only
  split
  · exact h
  next hnone =>
  obtain ⟨hgood, hruns, hstart⟩ := ThrottledDelayer.settleActive_spec h.good
  have hidle : s.inFlight = [] := by
    rcases h.inFlight with hidle | ⟨call, hone, hcall⟩
    · exact hidle
    · rw [hone] at hnone
      exact absurd (by simp [hcall.1]) hnone
  refine ⟨hgood, h.cache, h.disjoint, .inl hidle, fun promise hsome => ?_, h.closed⟩
  obtain ⟨hstate, hor⟩ := h.closing promise hsome
  exact ⟨hstate, hor.imp (hstart promise) fun ⟨hflushed, _⟩ => ⟨hflushed, .inr hidle⟩⟩

theorem Inv.closeResolved : (s.step .closeResolved).Inv := by
  unfold step
  dsimp only
  split
  · exact h
  next promise hsome =>
  split
  swap
  · exact h
  next hresolved =>
  obtain ⟨hstate, hor⟩ := h.closing promise hsome
  refine ⟨h.good, h.cache, h.disjoint, h.inFlight, h.closing, fun _ => ⟨⟨promise, hsome⟩, ?_⟩⟩
  rcases hor with hawaits | ⟨hflushed, hawaits | hidle⟩
  · exact absurd hresolved (hawaits.unresolved h.good)
  · exact absurd hresolved hawaits.unresolved
  · exact ⟨hflushed, hidle⟩

theorem Inv.step (step : Step) : (s.step step).Inv := by
  cases step with
  | set key value => exact h.set key value
  | delete key => exact h.delete key
  | fired =>
    show s.fired.Inv
    unfold Storage.fired
    split
    · exact h
    · exact (h.returned _).doFlush
  | flush =>
    show s.flush.Inv
    unfold Storage.flush
    split
    · exact h.doFlush
    · exact h
  | close => exact h.close
  | timer =>
    unfold Storage.step
    dsimp only
    split
    · obtain ⟨hgood, hruns, hstart, hend⟩ := ThrottledDelayer.fire_spec h.good
      exact h.schedule hgood hruns hstart hend
    · exact h
  | job => exact h.job
  | written index => exact h.written index
  | completed index => exact h.completed index
  | settled => exact h.settled
  | followed promise =>
    obtain ⟨hgood, hruns, hstart, hend⟩ := ThrottledDelayer.follow_spec h.good promise
    exact h.schedule hgood hruns hstart hend
  | closeResolved => exact h.closeResolved

end

end Steps

theorem inv_initial : (initial items).Inv where
  good := ThrottledDelayer.good_empty
  cache := (overlay_empty items).symm
  disjoint := fun key hin => absurd hin (Finset.notMem_empty key)
  inFlight := .inl rfl
  closing := fun _ hsome => nomatch hsome
  closed := fun htrue => nomatch htrue

theorem Inv.run {s : Storage} (h : s.Inv) (steps : List Step) : (s.run steps).Inv := by
  induction steps generalizing s with
  | nil => exact h
  | cons step steps ih => exact ih (h.step step)

/-- At every moment the items of the database, overlaid with the update in flight and then with the pending changes, are the
cache; at most one update is in flight; and after `close` has resolved the items of the database are the cache. -/
theorem writes_reach_database (items : Items) (steps : List Step) :
    let s := (initial items).run steps
    s.cache = overlay (s.inFlight.foldl (fun items call => overlay items call.request) s.database) s.pending ∧
      (∀ key ∈ s.pendingDeletes, key ∉ s.pendingInserts) ∧ s.inFlight.length ≤ 1 ∧
      (s.closeResolved = true → s.database = s.cache) := by
  intro s
  have h : s.Inv := (inv_initial items).run steps
  refine ⟨h.cache, h.disjoint, ?_, fun hresolved => ?_⟩
  · rcases h.inFlight with hnone | ⟨call, hone, -⟩
    · rw [hnone]
      decide
    · rw [hone]
      exact Nat.le_refl 1
  · obtain ⟨-, ⟨hinserts, hdeletes⟩, hidle⟩ := h.closed hresolved
    have hcache := h.cache
    unfold flown pending at hcache
    rw [hidle, hinserts, hdeletes, overlay_empty] at hcache
    exact hcache.symm

-- a key is set again while the first update is in flight, and close waits for both updates
example :
    let s := (initial fun _ => none).run
      [.set "a" (some "1"), .fired, .timer, .job, .set "a" (some "2"), .fired, .close, .timer, .job, .closeResolved,
        .completed 0, .settled, .job, .job, .closeResolved, .completed 0, .settled, .job, .followed 3, .followed 2,
        .closeResolved]
    s.closeResolved = true ∧ s.database "a" = some "2" := by
  decide

end Storage

end TongjiCode.Persistence
