import TongjiCode.Persistence.StoredChanges

/-!
# A storage whose database has another client

The other client writes to the database, and each of its writes is announced by `onDidChangeItemsExternal`, in order, some
time later.  The cache agrees with the database again when all is written and announced, unless an announcement brought
back a value that a local change of the key has replaced or will replace.
-/

open List

namespace TongjiCode.Persistence

/-- `IStorageItemsChangeEvent`. -/
structure ItemsChangeEvent where
  changed : List (String × String) := []
  deleted : List String := []

namespace ItemsChangeEvent

variable (e : ItemsChangeEvent)

/-- The items with the changes, and then without the deleted ones. -/
def apply (items : Items) : Items :=
  e.deleted.foldl (fun items key => Function.update items key none)
    (e.changed.foldl (fun items entry => Function.update items entry.1 (some entry.2)) items)

def Touches (key : String) : Prop := key ∈ e.changed.map (·.1) ∨ key ∈ e.deleted

end ItemsChangeEvent

namespace Storage

def acceptExternal (s : Storage) (key : String) (value : Option String) : Storage :=
  if s.state = .closed then s else { s with cache := Function.update s.cache key value }

def onDidChangeItemsExternal (s : Storage) (e : ItemsChangeEvent) : Storage :=
  e.deleted.foldl (fun s key => s.acceptExternal key none)
    (e.changed.foldl (fun s entry => s.acceptExternal entry.1 (some entry.2)) s)

end Storage

structure SharedStorage where
  storage : Storage
  /-- The update in flight has written its items. -/
  wrote : Bool := false
  /-- The writes of the other client that were not delivered. -/
  announcements : List ItemsChangeEvent := []

namespace SharedStorage

def initial (items : Items) : SharedStorage := { storage := Storage.initial items }

inductive Step where
  | set (key : String) (value : Option String)
  | delete (key : String)
  | fired
  | flush
  | timer
  | job
  | written
  | completed
  | settled
  | followed (promise : Nat)
  /-- The other client writes. -/
  | external (e : ItemsChangeEvent)
  /-- The first announcement is delivered. -/
  | deliver

/-- The call in flight has written its items. -/
def written (s : SharedStorage) : SharedStorage :=
  if s.storage.inFlight.isEmpty ∨ s.wrote then s else { s with storage := s.storage.step (.written 0), wrote := true }

def completed (s : SharedStorage) : SharedStorage :=
  { s.written with storage := { s.written.storage with inFlight := s.storage.inFlight.tail }, wrote := false }

/-- One step.  A step that is not possible changes nothing. -/
def step (s : SharedStorage) : Step → SharedStorage
  | .set key value => { s with storage := s.storage.set key value }
  | .delete key => { s with storage := s.storage.delete key }
  | .fired => { s with storage := s.storage.fired }
  | .flush => { s with storage := s.storage.flush }
  | .timer => { s with storage := s.storage.step .timer }
  | .job => { s with storage := s.storage.step .job }
  | .written => s.written
  | .completed => s.completed
  | .settled => { s with storage := s.storage.step .settled }
  | .followed promise => { s with storage := s.storage.step (.followed promise) }
  | .external e =>
    { s with
      storage := { s.storage with database := e.apply s.storage.database }
      announcements := s.announcements ++ [e] }
  | .deliver =>
    match s.announcements with
    | [] => s
    | e :: announcements => { s with storage := s.storage.onDidChangeItemsExternal e, announcements }

def run (s : SharedStorage) (steps : List Step) : SharedStorage := steps.foldl step s

/-- What the database will hold when the local changes are written. -/
def target (s : SharedStorage) : Items :=
  overlay (if s.wrote then s.storage.database else s.storage.flown) s.storage.pending

/-- Nothing is pending, no update is in flight and every announcement has been delivered. -/
def Quiet (s : SharedStorage) : Prop :=
  s.storage.hasPending = false ∧ s.storage.inFlight = [] ∧ s.announcements = []

/-- A key is announced again later, or the value announced is the one that the database will hold. -/
def Allowed (s : SharedStorage) : Step → Prop
  | .deliver => ∀ e announcements, s.announcements = e :: announcements → ∀ key, e.Touches key →
      (∃ e' ∈ announcements, e'.Touches key) ∨ e.apply s.storage.cache key = s.target key
  | _ => True

def AllAllowed (s : SharedStorage) : List Step → Prop
  | [] => True
  | step :: steps => s.Allowed step ∧ AllAllowed (s.step step) steps

end SharedStorage

/-! ## Events -/

section Events

variable {e : ItemsChangeEvent} {items items' : Items} {key : String}

theorem foldl_update_of_not_mem {α : Type} {entries : List α} (keyOf : α → String) (value : α → Option String)
    (h : key ∉ entries.map keyOf) :
    entries.foldl (fun (items : Items) entry => Function.update items (keyOf entry) (value entry)) items key =
      items key := by
  induction entries generalizing items with
  | nil => rfl
  | cons entry entries ih =>
    rw [map_cons, mem_cons, not_or] at h
    rw [foldl_cons, ih h.2, Function.update_of_ne h.1]

theorem ItemsChangeEvent.apply_of_not_touches (h : ¬ e.Touches key) : e.apply items key = items key := by
  obtain ⟨hchanged, hdeleted⟩ := not_or.mp h
  have hdeleted' : key ∉ e.deleted.map id := by rwa [List.map_id]
  exact (foldl_update_of_not_mem id (fun _ => none) hdeleted').trans
    (foldl_update_of_not_mem Prod.fst (fun entry : String × String => some entry.2) hchanged)

theorem overlay_congr {request : UpdateRequest} (h : items key = items' key) :
    overlay items request key = overlay items' request key := by
  unfold overlay
  split
  · rfl
  · split
    · rfl
    · exact h

end Events

namespace Storage

section

variable (s : Storage) (hstate : s.state ≠ .closed)
include s hstate

theorem acceptExternal_eq (key : String) (value : Option String) :
    s.acceptExternal key value = { s with cache := Function.update s.cache key value } := by
  unfold acceptExternal
  rw [if_neg hstate]

theorem foldl_acceptExternal {α : Type} (entries : List α) (key : α → String) (value : α → Option String) :
    entries.foldl (fun s entry => s.acceptExternal (key entry) (value entry)) s =
      { s with cache := entries.foldl (fun items entry => Function.update items (key entry) (value entry)) s.cache } := by
  induction entries generalizing s with
  | nil => rfl
  | cons entry entries ih =>
    rw [foldl_cons, foldl_cons, s.acceptExternal_eq hstate]
    exact ih _ hstate

theorem onDidChangeItemsExternal_eq (e : ItemsChangeEvent) :
    s.onDidChangeItemsExternal e = { s with cache := e.apply s.cache } := by
  unfold onDidChangeItemsExternal
  rw [s.foldl_acceptExternal hstate e.changed (·.1) fun entry => some entry.2]
  let s' : Storage :=
    { s with cache := e.changed.foldl (fun items entry => Function.update items entry.1 (some entry.2)) s.cache }
  exact s'.foldl_acceptExternal hstate e.deleted id fun _ => none

end

end Storage

namespace SharedStorage

variable {s : SharedStorage}

/-! ## The invariant -/

structure Inv (s : SharedStorage) : Prop where
  serial : s.storage.Serial
  opened : s.storage.state ≠ .closed
  wrote : s.wrote = true → s.storage.inFlight ≠ []
  agrees : ∀ key, (∃ e ∈ s.announcements, e.Touches key) ∨ s.storage.cache key = s.target key

theorem inv_initial (items : Items) : (initial items).Inv where
  serial := ⟨ThrottledDelayer.good_empty, .inl rfl⟩
  opened := fun h => nomatch h
  wrote := fun h => nomatch h
  agrees key := .inr (congrFun (overlay_empty items).symm key)

section

variable (h : s.Inv)
include h

/-- The scheduling does not matter for what is written. -/
theorem Inv.schedule {d : ThrottledDelayer} {firing : Nat} (hgood : d.Good)
    (hruns : ∀ promise, s.storage.flushDelayer.Runs promise → d.Runs promise) :
    ({ s with storage := { s.storage with flushDelayer := d, firing } } : SharedStorage).Inv := by
  refine ⟨⟨hgood, ?_⟩, h.opened, h.wrote, h.agrees⟩
  exact h.serial.inFlight.imp_right fun ⟨call, hcall, hcallRuns⟩ => ⟨call, hcall, hruns _ hcallRuns⟩

theorem Inv.changed {storage : Storage} {key : String} {value : Option String}
    (hchanged : s.storage.Changed storage key value) : ({ s with storage } : SharedStorage).Inv := by
  refine ⟨hchanged.serial h.serial, ?_, ?_, fun other => (h.agrees other).imp_right fun hsame => ?_⟩
  · show storage.state ≠ .closed
    rw [hchanged.state]
    exact h.opened
  · show s.wrote = true → storage.inFlight ≠ []
    rw [hchanged.inFlight]
    exact h.wrote
  · show storage.cache other = overlay (if s.wrote then storage.database else storage.flown) storage.pending other
    rw [hchanged.cache, hchanged.database, hchanged.flown, hchanged.pending]
    show _ = Function.update s.target key value other
    by_cases heq : other = key
    · rw [heq, Function.update_self, Function.update_self]
    · rw [Function.update_of_ne heq, Function.update_of_ne heq]
      exact hsame

theorem Inv.delete (key : String) : ({ s with storage := s.storage.delete key } : SharedStorage).Inv := by
  by_cases hkey : s.storage.cache key = none
  · have hsame : s.storage.delete key = s.storage := by
      unfold Storage.delete
      rw [if_neg h.opened, if_pos (Option.isNone_iff_eq_none.mpr hkey)]
    rw [hsame]
    exact h
  · exact h.changed (s.storage.delete_spec key h.opened hkey)

theorem Inv.set (key : String) (value : Option String) :
    ({ s with storage := s.storage.set key value } : SharedStorage).Inv := by
  by_cases hkey : s.storage.cache key = value
  · cases value with
    | none =>
      have hdelete : s.storage.set key none = s.storage.delete key := by
        unfold Storage.set
        rw [if_neg h.opened]
      rw [hdelete]
      exact h.delete key
    | some value =>
      have hsame : s.storage.set key (some value) = s.storage := by
        unfold Storage.set
        rw [if_neg h.opened]
        exact if_pos hkey
      rw [hsame]
      exact h
  · exact h.changed (s.storage.set_spec key value h.opened hkey)

theorem Inv.doFlush (firing : Nat) :
    ({ s with storage := ({ s.storage with firing } : Storage).doFlush } : SharedStorage).Inv := by
  rcases heq : s.storage.flushDelayer.trigger with ⟨d, promise⟩
  obtain ⟨hgood, -, hruns, -, -⟩ := ThrottledDelayer.trigger_spec h.serial.good heq
  unfold Storage.doFlush
  rw [heq]
  exact h.schedule hgood hruns

theorem Inv.job : ({ s with storage := s.storage.step .job } : SharedStorage).Inv := by
  unfold Storage.step
  dsimp only
  split
  swap
  · exact h
  rcases heq : s.storage.flushDelayer.runJob with ⟨d, called⟩
  obtain ⟨hgood, hruns, hcalled, -, -⟩ := ThrottledDelayer.runJob_spec h.serial.good heq
  cases called with
  | false => exact h.schedule hgood hruns
  | true =>
    obtain ⟨hnot, promise, hpromise⟩ := hcalled rfl
    rw [hpromise.1]
    dsimp only
    have hidle : s.storage.inFlight = [] := h.serial.inFlight.resolve_right fun ⟨call, _, hcall⟩ => hnot _ hcall
    have hwrote : s.wrote = false := Bool.eq_false_iff.mpr fun htrue => h.wrote htrue hidle
    unfold Storage.flushPending
    split
    · refine ⟨⟨hgood, .inr ⟨⟨promise, s.storage.pending⟩, ?_, hpromise⟩⟩, h.opened, fun htrue => ?_, fun key => ?_⟩
      · show s.storage.inFlight ++ [⟨promise, s.storage.pending⟩] = _
        rw [hidle]
        rfl
      · rw [show s.wrote = true from htrue] at hwrote
        cases hwrote
      · -- what was pending is now in flight
        have hagrees := h.agrees key
        unfold target at hagrees ⊢
        rw [hwrote] at hagrees ⊢
        show _ ∨ s.storage.cache key =
          overlay (List.foldl _ s.storage.database (s.storage.inFlight ++ [⟨promise, s.storage.pending⟩])) ⟨∅, ∅⟩ key
        rw [overlay_empty, foldl_append]
        exact hagrees
    · exact ⟨⟨hgood, .inl hidle⟩, h.opened, h.wrote, h.agrees⟩

theorem Inv.written : s.written.Inv := by
  unfold SharedStorage.written
  split
  · exact h
  next hnot =>
  obtain ⟨hempty, hwrote⟩ := not_or.mp hnot
  rw [Bool.not_eq_true] at hwrote
  rcases h.serial.inFlight with hidle | ⟨call, hone, hruns⟩
  · rw [hidle] at hempty
    exact absurd rfl hempty
  have hstep : s.storage.step (.written 0) = { s.storage with database := s.storage.flown } := by
    unfold Storage.step
    dsimp only
    rw [hone, Storage.flown_of_call hone]
    rfl
  rw [hstep]
  refine ⟨⟨h.serial.good, h.serial.inFlight⟩, h.opened, fun _ => ?_, fun key => ?_⟩
  · show s.storage.inFlight ≠ []
    rw [hone]
    exact cons_ne_nil _ _
  · have hagrees := h.agrees key
    unfold target at hagrees
    rw [hwrote] at hagrees
    exact hagrees

omit h in
/-- After the update in flight has written its items, it does not matter any more. -/
theorem target_of_wrote (s : SharedStorage) : s.written.target = overlay s.written.storage.database s.storage.pending := by
  unfold SharedStorage.written
  split
  · next hor =>
    unfold target
    split
    · rfl
    · next hwrote =>
      have hidle : s.storage.inFlight = [] := isEmpty_iff.mp (hor.resolve_right hwrote)
      rw [Storage.flown_of_inFlight hidle]
  · unfold Storage.step target
    dsimp only
    rw [if_pos rfl]
    split <;> rfl

theorem Inv.completed : s.completed.Inv := by
  have hwritten := h.written
  have hsame : s.written.storage.inFlight = s.storage.inFlight ∧ s.written.storage.pending = s.storage.pending := by
    unfold SharedStorage.written Storage.step
    split
    · exact ⟨rfl, rfl⟩
    · dsimp only
      split <;> exact ⟨rfl, rfl⟩
  have htail : s.storage.inFlight.tail = [] := by
    rcases h.serial.inFlight with hidle | ⟨call, hone, -⟩
    · rw [hidle]
      rfl
    · rw [hone]
      rfl
  refine ⟨⟨hwritten.serial.good, .inl htail⟩, hwritten.opened, fun hfalse => (nomatch hfalse), fun key => ?_⟩
  refine (hwritten.agrees key).imp_right fun hagrees => ?_
  show s.written.storage.cache key =
    overlay (List.foldl _ s.written.storage.database s.storage.inFlight.tail) s.written.storage.pending key
  rw [htail, hsame.2]
  exact hagrees.trans (congrFun (target_of_wrote s) key)

theorem Inv.external (e : ItemsChangeEvent) : (s.step (.external e)).Inv := by
  refine ⟨⟨h.serial.good, h.serial.inFlight⟩, h.opened, h.wrote, fun key => ?_⟩
  by_cases htouches : e.Touches key
  · exact .inl ⟨e, mem_append_right _ mem_cons_self, htouches⟩
  · rcases h.agrees key with ⟨e', he', htouches'⟩ | hagrees
    · exact .inl ⟨e', mem_append_left _ he', htouches'⟩
    · refine .inr (hagrees.trans (overlay_congr ?_))
      have hdatabase : s.storage.database key = e.apply s.storage.database key :=
        (ItemsChangeEvent.apply_of_not_touches htouches).symm
      show (if s.wrote then s.storage.database else s.storage.flown) key =
        (if s.wrote then e.apply s.storage.database
          else ({ s.storage with database := e.apply s.storage.database } : Storage).flown) key
      split
      · exact hdatabase
      · unfold Storage.flown
        rcases h.serial.inFlight with hidle | ⟨call, hone, -⟩
        · rw [hidle]
          exact hdatabase
        · rw [hone]
          exact overlay_congr hdatabase

theorem Inv.deliver (hallowed : s.Allowed .deliver) : (s.step .deliver).Inv := by
  unfold SharedStorage.step
  dsimp only
  split
  · exact h
  next e announcements hannouncements =>
  rw [s.storage.onDidChangeItemsExternal_eq h.opened]
  refine ⟨⟨h.serial.good, h.serial.inFlight⟩, h.opened, h.wrote, fun key => ?_⟩
  by_cases htouches : e.Touches key
  · exact hallowed e announcements hannouncements key htouches
  · rcases h.agrees key with ⟨e', he', htouches'⟩ | hagrees
    · rw [hannouncements] at he'
      rcases mem_cons.mp he' with rfl | he'
      · exact absurd htouches' htouches
      · exact .inl ⟨e', he', htouches'⟩
    · exact .inr ((ItemsChangeEvent.apply_of_not_touches htouches).trans hagrees)

theorem Inv.step {step : Step} (hallowed : s.Allowed step) : (s.step step).Inv := by
  cases step with
  | set key value => exact h.set key value
  | delete key => exact h.delete key
  | fired =>
    show ({ s with storage := s.storage.fired } : SharedStorage).Inv
    unfold Storage.fired
    split
    · exact h
    · exact h.doFlush _
  | flush =>
    show ({ s with storage := s.storage.flush } : SharedStorage).Inv
    unfold Storage.flush
    split
    · exact h.doFlush s.storage.firing
    · exact h
  | timer =>
    unfold SharedStorage.step Storage.step
    dsimp only
    split
    · obtain ⟨hgood, hruns, -, -⟩ := ThrottledDelayer.fire_spec h.serial.good
      exact h.schedule hgood hruns
    · exact h
  | job => exact h.job
  | written => exact h.written
  | completed => exact h.completed
  | settled =>
    unfold SharedStorage.step Storage.step
    dsimp only
    split
    · exact h
    · next hnone =>
      obtain ⟨hgood, -, -⟩ := ThrottledDelayer.settleActive_spec h.serial.good
      have hidle : s.storage.inFlight = [] := by
        rcases h.serial.inFlight with hidle | ⟨call, hone, hcall⟩
        · exact hidle
        · rw [hone] at hnone
          exact absurd (by simp [hcall.1]) hnone
      exact ⟨⟨hgood, .inl hidle⟩, h.opened, h.wrote, h.agrees⟩
  | followed promise =>
    obtain ⟨hgood, hruns, -, -⟩ := ThrottledDelayer.follow_spec h.serial.good promise
    exact h.schedule hgood hruns
  | external e => exact h.external e
  | deliver => exact h.deliver hallowed

theorem Inv.run {steps : List Step} (hallowed : s.AllAllowed steps) : (s.run steps).Inv := by
  induction steps generalizing s with
  | nil => exact h
  | cons step steps ih => exact ih (h.step hallowed.1) hallowed.2

end

/-- In a run in which no announcement brings back a value that a local change of the key has replaced, the cache is the
database whenever nothing is pending, in flight or waiting to be delivered. -/
theorem cache_agrees_when_quiet (items : Items) (steps : List Step) (h : (initial items).AllAllowed steps)
    (hquiet : ((initial items).run steps).Quiet) :
    ((initial items).run steps).storage.cache = ((initial items).run steps).storage.database := by
  have hinv := (inv_initial items).run h
  obtain ⟨hpending, hidle, hdelivered⟩ := hquiet
  have hwrote : ((initial items).run steps).wrote = false := Bool.eq_false_iff.mpr fun htrue => hinv.wrote htrue hidle
  funext key
  rcases hinv.agrees key with ⟨e, he, -⟩ | hagrees
  · rw [hdelivered] at he
    cases he
  · unfold target at hagrees
    rw [hwrote, Storage.overlay_of_flushed (Storage.hasPending_eq_false.mp hpending)] at hagrees
    exact hagrees.trans (congrFun (Storage.flown_of_inFlight hidle) key)

theorem cache_agrees_after_both_write :
    ((initial fun _ => none).run [.set "a" (some "1"), .fired, .timer, .job, .completed, .settled,
      .external { changed := [("a", "2")] }, .deliver]).storage.cache =
    ((initial fun _ => none).run [.set "a" (some "1"), .fired, .timer, .job, .completed, .settled,
      .external { changed := [("a", "2")] }, .deliver]).storage.database := by
  refine cache_agrees_when_quiet _ _ ⟨trivial, trivial, trivial, trivial, trivial, trivial, trivial, ?_, trivial⟩
    ⟨by decide, rfl, rfl⟩
  intro e announcements heq key htouches
  cases heq
  obtain rfl : key = "a" := by simpa [ItemsChangeEvent.Touches] using htouches
  exact .inr rfl

/-- The value announced is put in the cache while the local one is pending, which is then written. -/
theorem cache_differs_when_quiet :
    let s := (initial fun _ => none).run [.set "a" (some "1"), .fired, .external { changed := [("a", "2")] }, .deliver,
      .timer, .job, .completed, .settled]
    s.Quiet ∧ s.storage.cache "a" = some "2" ∧ s.storage.database "a" = some "1" :=
  ⟨⟨by decide, rfl, rfl⟩, rfl, rfl⟩

end SharedStorage

end TongjiCode.Persistence
