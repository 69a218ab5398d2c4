import TongjiCode.Sync.Dictionary

/-!
# Merge of the global state

The `merge` of `globalStateMerge.ts` and what it leaves at one key (`merge_at`).
-/

open List

namespace TongjiCode.Sync.GlobalState

/-- `IStorageValue`. -/
structure StorageValue where
  version : Int
  value : String
deriving DecidableEq, Repr

/-- `objects.equals` of two storage values. -/
def sameValue (value1 value2 : StorageValue) : Bool := value1 = value2

/-- The keys of the storage that are declared as machine scoped, and those that are not registered. -/
structure StorageKeys where
  machine : List String
  unregistered : List String

def SYNC_SERVICE_URL_TYPE : String := "sync.store.url.type"

structure LocalChanges where
  added : Dictionary StorageValue := ∅
  removed : List String := []
  updated : Dictionary StorageValue := ∅

/-- The changes to the remote storage; `all` is the new remote storage, `none` if it does not change. -/
structure RemoteChanges where
  added : List String := []
  removed : List String := []
  updated : List String := []
  all : Option (Dictionary StorageValue) := none

/-- `IMergeResult`. -/
structure MergeResult where
  «local» : LocalChanges
  remote : RemoteChanges

section Loops

variable (localStorage remoteStorage : Dictionary StorageValue) (baseStorage : Option (Dictionary StorageValue))
  (storageKeys : StorageKeys) (baseToLocal baseToRemote : CompareResult)

/-- One turn of the loop over the keys added in local. -/
def addedInLocal (remote : Dictionary StorageValue) (key : String) : Dictionary StorageValue :=
  -- if syncing for first time remote value gets precedence always, except for the sync service type key
  if key ≠ SYNC_SERVICE_URL_TYPE ∧ baseStorage.isNone ∧ key ∈ baseToRemote.added then remote
  else setFrom localStorage remote key

/-- One turn of the loop over the keys updated in local. -/
def updatedInLocal (remote : Dictionary StorageValue) (key : String) : Dictionary StorageValue :=
  setFrom localStorage remote key

/-- One turn of the loop over the keys removed in local. -/
def removedInLocal (remote : Dictionary StorageValue) (key : String) : Dictionary StorageValue :=
  if key ∈ storageKeys.unregistered then remote else remote.erase key

/-- `localValue && localValue.value === remoteValue.value`. -/
def hasSameText (localValue remoteValue : Option StorageValue) : Bool :=
  match localValue, remoteValue with
  | some localValue, some remoteValue => localValue.value = remoteValue.value
  | _, _ => false

/-- One turn of the loop over the keys added in remote. -/
def addedInRemote («local» : LocalChanges) (key : String) : LocalChanges :=
  let localValue := localStorage.lookup key
  if key ∈ storageKeys.machine then «local»
  -- skip if the value is also added in local from the time it is last synced
  else if baseStorage.isSome ∧ key ∈ baseToLocal.added then «local»
  else if hasSameText localValue (remoteStorage.lookup key) then «local»
  -- local sync service type value takes precedence if syncing for first time
  else if key = SYNC_SERVICE_URL_TYPE ∧ baseStorage.isNone ∧ key ∈ baseToLocal.added then «local»
  else if localValue.isSome then { «local» with updated := setFrom remoteStorage «local».updated key }
  else { «local» with added := setFrom remoteStorage «local».added key }

/-- One turn of the loop over the keys updated in remote. -/
def updatedInRemote («local» : LocalChanges) (key : String) : LocalChanges :=
  if key ∈ storageKeys.machine then «local»
  -- skip if the value is also updated or removed in local
  else if key ∈ baseToLocal.updated ∨ key ∈ baseToLocal.removed then «local»
  else if hasSameText (localStorage.lookup key) (remoteStorage.lookup key) then «local»
  else { «local» with updated := setFrom remoteStorage «local».updated key }

/-- One turn of the loop over the keys removed in remote. -/
def removedInRemote («local» : LocalChanges) (key : String) : LocalChanges :=
  if key ∈ storageKeys.machine then «local»
  else if key ∈ baseToLocal.updated ∨ key ∈ baseToLocal.removed then «local»
  else { «local» with removed := «local».removed ++ [key] }

/-- The loops over the changes in local, which build the new remote storage. -/
def mergeRemote : Dictionary StorageValue :=
  let remote := baseToLocal.added.foldl (addedInLocal localStorage baseStorage baseToRemote) remoteStorage
  let remote := baseToLocal.updated.foldl (updatedInLocal localStorage) remote
  baseToLocal.removed.foldl (removedInLocal storageKeys) remote

/-- The loops over the changes in remote, which collect the changes to the local storage. -/
def mergeLocal : LocalChanges :=
  let changes := baseToRemote.added.foldl
    (addedInRemote localStorage remoteStorage baseStorage storageKeys baseToLocal) {}
  let changes := baseToRemote.updated.foldl
    (updatedInRemote localStorage remoteStorage storageKeys baseToLocal) changes
  baseToRemote.removed.foldl (removedInRemote storageKeys baseToLocal) changes

end Loops

/-- The comparison with the base, with which everything is added if there is none. -/
def compareBase (baseStorage : Option (Dictionary StorageValue)) (storage : Dictionary StorageValue) : CompareResult :=
  match baseStorage with
  | some baseStorage => compare sameValue baseStorage storage
  | none => allAdded storage

def merge (localStorage : Dictionary StorageValue) (remoteStorage baseStorage : Option (Dictionary StorageValue))
    (storageKeys : StorageKeys) : MergeResult :=
  match remoteStorage with
  | none =>
    { «local» := {}
      remote := { added := localStorage.keys, all := if localStorage.keys.length > 0 then some localStorage else none } }
  | some remoteStorage =>
    -- no changes found between local and remote
    if (compare sameValue localStorage remoteStorage).isEmpty then { «local» := {}, remote := {} }
    else
      let baseToRemote := compareBase baseStorage remoteStorage
      let baseToLocal := compareBase baseStorage localStorage
      let changes := mergeLocal localStorage remoteStorage baseStorage storageKeys baseToLocal baseToRemote
      let remote := mergeRemote localStorage remoteStorage baseStorage storageKeys baseToLocal baseToRemote
      let result := compare sameValue remoteStorage remote
      { «local» := changes
        remote :=
          { added := result.added, updated := result.updated, removed := result.removed
            all := if result.isEmpty then none else some remote } }

def LocalChanges.apply (changes : LocalChanges) (localStorage : Dictionary StorageValue) : Dictionary StorageValue :=
  applyChanges changes.added changes.updated changes.removed localStorage

/-- The remote storage after the merge; where there was none, it is empty. -/
def RemoteChanges.apply (changes : RemoteChanges) (remoteStorage : Option (Dictionary StorageValue)) :
    Dictionary StorageValue :=
  (changes.all <|> remoteStorage).getD ∅

/-! ## One key of the result -/

section At

variable {localStorage remoteStorage : Dictionary StorageValue} {baseStorage : Option (Dictionary StorageValue)}
  {storageKeys : StorageKeys} {k : String}

/-- Whether the turn of a key that was added in local keeps the remote value. -/
def KeepsRemote (baseStorage : Option (Dictionary StorageValue)) (baseToRemote : CompareResult) (key : String) : Prop :=
  key ≠ SYNC_SERVICE_URL_TYPE ∧ baseStorage.isNone ∧ key ∈ baseToRemote.added

instance (baseToRemote : CompareResult) (key : String) : Decidable (KeepsRemote baseStorage baseToRemote key) :=
  inferInstanceAs (Decidable (_ ∧ _ ∧ _))

theorem addedInLocal_lookup {baseToRemote : CompareResult} {keys : List String} (hnodup : keys.Nodup)
    (remote : Dictionary StorageValue) :
    (keys.foldl (addedInLocal localStorage baseStorage baseToRemote) remote).lookup k =
      if k ∈ keys then
        if KeepsRemote baseStorage baseToRemote k then remote.lookup k
        else (localStorage.lookup k).or (remote.lookup k)
      else remote.lookup k := by
  refine foldl_pointwise (fun (d : Dictionary StorageValue) k => d.lookup k) _
    (fun key value => if KeepsRemote baseStorage baseToRemote key then value else (localStorage.lookup key).or value)
    (fun remote key => ?_) (fun remote key k hne => ?_) hnodup remote k
  · show (if KeepsRemote _ _ _ then _ else _ : Dictionary StorageValue).lookup key = _
    by_cases h : KeepsRemote baseStorage baseToRemote key
    · rw [if_pos h, if_pos h]
    · rw [if_neg h, if_neg h]
      exact lookup_setFrom_self _ _ _
  · show (if KeepsRemote _ _ _ then _ else _ : Dictionary StorageValue).lookup k = _
    split
    · rfl
    · exact lookup_setFrom_of_ne _ _ hne

theorem removedInLocal_lookup {keys : List String} (hnodup : keys.Nodup) (remote : Dictionary StorageValue) :
    (keys.foldl (removedInLocal storageKeys) remote).lookup k =
      if k ∈ keys then if k ∈ storageKeys.unregistered then remote.lookup k else none else remote.lookup k := by
  refine foldl_pointwise (fun (d : Dictionary StorageValue) k => d.lookup k) _
    (fun key value => if key ∈ storageKeys.unregistered then value else none) (fun remote key => ?_)
    (fun remote key k hne => ?_) hnodup remote k
  · show (removedInLocal storageKeys remote key).lookup key = _
    unfold removedInLocal
    by_cases h : key ∈ storageKeys.unregistered
    · rw [if_pos h, if_pos h]
    · rw [if_neg h, if_neg h]
      exact AList.lookup_erase _ _
  · show (removedInLocal storageKeys remote key).lookup k = _
    unfold removedInLocal
    split
    · rfl
    · exact AList.lookup_erase_ne hne

/-- What the changes to the local storage say about one key. -/
structure KeyChange where
  added : Option StorageValue := none
  updated : Option StorageValue := none
  removed : Bool := false

def LocalChanges.at («local» : LocalChanges) (k : String) : KeyChange :=
  { added := «local».added.lookup k, updated := «local».updated.lookup k, removed := k ∈ «local».removed }

section

variable (changes : LocalChanges) (source : Dictionary StorageValue)
include changes source

theorem at_setUpdated_self (key : String) :
    LocalChanges.at { changes with updated := setFrom source changes.updated key } key =
      { changes.at key with updated := (source.lookup key).or (changes.at key).updated } := by
  unfold LocalChanges.at
  rw [lookup_setFrom_self]

theorem at_setUpdated_of_ne {key k : String} (h : k ≠ key) :
    LocalChanges.at { changes with updated := setFrom source changes.updated key } k = changes.at k := by
  unfold LocalChanges.at
  rw [lookup_setFrom_of_ne _ _ h]

theorem at_setAdded_self (key : String) :
    LocalChanges.at { changes with added := setFrom source changes.added key } key =
      { changes.at key with added := (source.lookup key).or (changes.at key).added } := by
  unfold LocalChanges.at
  rw [lookup_setFrom_self]

theorem at_setAdded_of_ne {key k : String} (h : k ≠ key) :
    LocalChanges.at { changes with added := setFrom source changes.added key } k = changes.at k := by
  unfold LocalChanges.at
  rw [lookup_setFrom_of_ne _ _ h]

end

def addedTurn (localStorage remoteStorage : Dictionary StorageValue) (baseStorage : Option (Dictionary StorageValue))
    (storageKeys : StorageKeys) (baseToLocal : CompareResult) (key : String) (change : KeyChange) : KeyChange :=
  if key ∈ storageKeys.machine then change
  else if baseStorage.isSome ∧ key ∈ baseToLocal.added then change
  else if hasSameText (localStorage.lookup key) (remoteStorage.lookup key) then change
  else if key = SYNC_SERVICE_URL_TYPE ∧ baseStorage.isNone ∧ key ∈ baseToLocal.added then change
  else if (localStorage.lookup key).isSome then
    { change with updated := (remoteStorage.lookup key).or change.updated }
  else { change with added := (remoteStorage.lookup key).or change.added }

def updatedTurn (localStorage remoteStorage : Dictionary StorageValue) (storageKeys : StorageKeys)
    (baseToLocal : CompareResult) (key : String) (change : KeyChange) : KeyChange :=
  if key ∈ storageKeys.machine then change
  else if key ∈ baseToLocal.updated ∨ key ∈ baseToLocal.removed then change
  else if hasSameText (localStorage.lookup key) (remoteStorage.lookup key) then change
  else { change with updated := (remoteStorage.lookup key).or change.updated }

/-- A value that was removed in remote, at the key itself. -/
def removedTurn (storageKeys : StorageKeys) (baseToLocal : CompareResult) (key : String) (change : KeyChange) :
    KeyChange :=
  if key ∈ storageKeys.machine then change
  else if key ∈ baseToLocal.updated ∨ key ∈ baseToLocal.removed then change
  else { change with removed := true }

variable {baseToLocal baseToRemote : CompareResult} {keys : List String}

section

variable (hnodup : keys.Nodup) (changes : LocalChanges)
include hnodup changes

theorem addedInRemote_at :
    (keys.foldl (addedInRemote localStorage remoteStorage baseStorage storageKeys baseToLocal) changes).at k =
      if k ∈ keys then
        addedTurn localStorage remoteStorage baseStorage storageKeys baseToLocal k (changes.at k)
      else changes.at k := by
  refine foldl_pointwise LocalChanges.at _ _ (fun changes key => ?_) (fun changes key k hne => ?_) hnodup changes k
  · dsimp only [addedInRemote, addedTurn]
    split_ifs
    any_goals rfl
    · exact at_setUpdated_self changes remoteStorage key
    · exact at_setAdded_self changes remoteStorage key
  · dsimp only [addedInRemote]
    split_ifs
    any_goals rfl
    · exact at_setUpdated_of_ne changes remoteStorage hne
    · exact at_setAdded_of_ne changes remoteStorage hne

theorem updatedInRemote_at :
    (keys.foldl (updatedInRemote localStorage remoteStorage storageKeys baseToLocal) changes).at k =
      if k ∈ keys then updatedTurn localStorage remoteStorage storageKeys baseToLocal k (changes.at k)
      else changes.at k := by
  refine foldl_pointwise LocalChanges.at _ _ (fun changes key => ?_) (fun changes key k hne => ?_) hnodup changes k
  · unfold updatedInRemote updatedTurn
    split_ifs
    any_goals rfl
    exact at_setUpdated_self changes remoteStorage key
  · unfold updatedInRemote
    split_ifs
    any_goals rfl
    exact at_setUpdated_of_ne changes remoteStorage hne

theorem removedInRemote_at :
    (keys.foldl (removedInRemote storageKeys baseToLocal) changes).at k =
      if k ∈ keys then removedTurn storageKeys baseToLocal k (changes.at k) else changes.at k := by
  refine foldl_pointwise LocalChanges.at _ _ (fun changes key => ?_) (fun changes key k hne => ?_) hnodup changes k
  · unfold removedInRemote removedTurn
    split_ifs
    any_goals rfl
    simp [LocalChanges.at]
  · unfold removedInRemote
    split_ifs
    any_goals rfl
    simp [LocalChanges.at, hne]

end

theorem mergeLocal_at (hadded : baseToRemote.added.Nodup) (hupdated : baseToRemote.updated.Nodup)
    (hremoved : baseToRemote.removed.Nodup) :
    (mergeLocal localStorage remoteStorage baseStorage storageKeys baseToLocal baseToRemote).at k =
      let change := if k ∈ baseToRemote.added then
        addedTurn localStorage remoteStorage baseStorage storageKeys baseToLocal k {} else {}
      let change := if k ∈ baseToRemote.updated then
        updatedTurn localStorage remoteStorage storageKeys baseToLocal k change else change
      if k ∈ baseToRemote.removed then removedTurn storageKeys baseToLocal k change else change := by
  unfold mergeLocal
  rw [removedInRemote_at hremoved, updatedInRemote_at hupdated, addedInRemote_at hadded]
  rfl

theorem apply_lookup (changes : LocalChanges) :
    (changes.apply localStorage).lookup k =
      if (changes.at k).removed then none
      else ((changes.at k).updated.or ((changes.at k).added.or (localStorage.lookup k))) := by
  unfold LocalChanges.apply
  rw [applyChanges_lookup]
  simp [LocalChanges.at]

/-! ## The value that the two sides agree on -/

def baseAt (baseStorage : Option (Dictionary StorageValue)) (k : String) : Option StorageValue :=
  baseStorage.bind fun storage => storage.lookup k

end At

section Merged

variable (localStorage remoteStorage : Dictionary StorageValue) (baseStorage : Option (Dictionary StorageValue))
  (storageKeys : StorageKeys) (k : String)

/-- The value of the new remote storage at a key that is registered. -/
def merged : Option StorageValue :=
  match baseStorage with
  | some baseStorage =>
    if localStorage.lookup k = baseStorage.lookup k then remoteStorage.lookup k else localStorage.lookup k
  | none =>
    if k = SYNC_SERVICE_URL_TYPE then (localStorage.lookup k).or (remoteStorage.lookup k)
    else (remoteStorage.lookup k).or (localStorage.lookup k)

theorem compareBase_none : compareBase none localStorage = allAdded localStorage := rfl

theorem compareBase_some (base : Dictionary StorageValue) :
    compareBase (some base) localStorage = compare sameValue base localStorage := rfl

theorem compareBase_nodup :
    (compareBase baseStorage localStorage).added.Nodup ∧ (compareBase baseStorage localStorage).updated.Nodup ∧
      (compareBase baseStorage localStorage).removed.Nodup := by
  cases baseStorage with
  | none => exact ⟨AList.keys_nodup _, nodup_nil, nodup_nil⟩
  | some base => exact ⟨compare_added_nodup, compare_updated_nodup, compare_removed_nodup⟩

variable {storageKeys k}

theorem mergeRemote_lookup (hk : k ∉ storageKeys.unregistered) :
    (mergeRemote localStorage remoteStorage baseStorage storageKeys (compareBase baseStorage localStorage)
      (compareBase baseStorage remoteStorage)).lookup k = merged localStorage remoteStorage baseStorage k := by
  obtain ⟨hadded, hupdated, hremoved⟩ := compareBase_nodup localStorage baseStorage
  unfold mergeRemote
  rw [removedInLocal_lookup hremoved, if_neg hk]
  show (if _ then _ else (List.foldl (setFrom localStorage) _ _).lookup k) = _
  rw [setFrom_lookup hupdated, addedInLocal_lookup hadded]
  unfold merged KeepsRemote
  cases baseStorage with
  | none =>
    rw [compareBase_none, compareBase_none]
    simp only [allAdded, not_mem_nil, if_false, mem_keys_iff]
    cases hlocal : localStorage.lookup k <;> cases hremote : remoteStorage.lookup k <;> simp
  | some base =>
    rw [compareBase_some, compareBase_some]
    simp only [mem_compare_added, mem_compare_updated, mem_compare_removed]
    cases hbase : base.lookup k with
    | none => cases hlocal : localStorage.lookup k <;> simp
    | some baseValue =>
      cases hlocal : localStorage.lookup k with
      | none => simp
      | some localValue =>
        by_cases heq : baseValue = localValue
        · simp [sameAt, sameValue, heq]
        · simp [sameAt, sameValue, heq, Ne.symm heq]

theorem mergeLocal_lookup (hk : k ∉ storageKeys.machine) :
    ((mergeLocal localStorage remoteStorage baseStorage storageKeys (compareBase baseStorage localStorage)
      (compareBase baseStorage remoteStorage)).apply localStorage).lookup k =
      if hasSameText (localStorage.lookup k) (remoteStorage.lookup k) then localStorage.lookup k
      else merged localStorage remoteStorage baseStorage k := by
  obtain ⟨hadded, hupdated, hremoved⟩ := compareBase_nodup remoteStorage baseStorage
  rw [apply_lookup, mergeLocal_at hadded hupdated hremoved]
  unfold merged removedTurn updatedTurn addedTurn
  simp only [hk, if_false]
  cases baseStorage with
  | none =>
    rw [compareBase_none, compareBase_none]
    simp only [allAdded, not_mem_nil, if_false, mem_keys_iff]
    cases hlocal : localStorage.lookup k with
    | none => cases hremote : remoteStorage.lookup k <;> simp [hasSameText]
    | some localValue =>
      cases hremote : remoteStorage.lookup k with
      | none => simp [hasSameText]
      | some remoteValue =>
        by_cases htext : localValue.value = remoteValue.value
        · simp [hasSameText, htext]
        · by_cases hsync : k = SYNC_SERVICE_URL_TYPE <;> simp [hasSameText, htext, hsync]
  | some base =>
    rw [compareBase_some, compareBase_some]
    simp only [mem_compare_added, mem_compare_updated, mem_compare_removed]
    cases hbase : base.lookup k with
    | none =>
      cases hlocal : localStorage.lookup k <;> cases hremote : remoteStorage.lookup k <;> simp [hasSameText, sameAt]
    | some baseValue =>
      cases hlocal : localStorage.lookup k with
      | none => cases hremote : remoteStorage.lookup k <;> simp [hasSameText, sameAt]
      | some localValue =>
        by_cases hchanged : baseValue = localValue
        · subst hchanged
          cases hremote : remoteStorage.lookup k with
          | none => simp [hasSameText, sameAt, sameValue]
          | some remoteValue =>
            by_cases htext : baseValue.value = remoteValue.value
            · simp [hasSameText, sameAt, sameValue, htext]
            · have hne : baseValue ≠ remoteValue := fun heq => htext (by rw [heq])
              simp [hasSameText, sameAt, sameValue, htext, hne]
        · cases hremote : remoteStorage.lookup k <;>
            simp [hasSameText, sameAt, sameValue, hchanged, Ne.symm hchanged]

end Merged

/-! ## Convergence -/

section Converges

variable (localStorage : Dictionary StorageValue) (remoteStorage baseStorage : Option (Dictionary StorageValue))
  (storageKeys : StorageKeys) (k : String)

def MergeResult.Names (result : MergeResult) (k : String) : Prop :=
  k ∈ result.local.added.keys ∨ k ∈ result.local.updated.keys ∨ k ∈ result.local.removed ∨
    k ∈ result.remote.added ∨ k ∈ result.remote.updated ∨ k ∈ result.remote.removed

def newLocal : Dictionary StorageValue :=
  (merge localStorage remoteStorage baseStorage storageKeys).local.apply localStorage

def newRemote : Dictionary StorageValue :=
  (merge localStorage remoteStorage baseStorage storageKeys).remote.apply remoteStorage

/-- The key was changed in local since the base. -/
def LocalChanged : Prop := localStorage.lookup k ≠ baseAt baseStorage k

/-- The key was changed in remote since the base.  Where there is no remote storage nothing was changed in it. -/
def RemoteChanged : Prop := ∃ remote, remoteStorage = some remote ∧ remote.lookup k ≠ baseAt baseStorage k

/-- Both sides have the same value at a key after the merge, that of the side that changed if there is just one,
no side adds and removes it, and another merge leaves it alone. -/
structure Converges : Prop where
  agree : (newLocal localStorage remoteStorage baseStorage storageKeys).lookup k =
    (newRemote localStorage remoteStorage baseStorage storageKeys).lookup k
  localChange : LocalChanged localStorage baseStorage k → ¬RemoteChanged remoteStorage baseStorage k →
    (newLocal localStorage remoteStorage baseStorage storageKeys).lookup k = localStorage.lookup k
  remoteChange : ∀ remote, remoteStorage = some remote → ¬LocalChanged localStorage baseStorage k →
    RemoteChanged remoteStorage baseStorage k →
      (newLocal localStorage remoteStorage baseStorage storageKeys).lookup k = remote.lookup k
  localOnce : ¬(k ∈ (merge localStorage remoteStorage baseStorage storageKeys).local.added.keys ∧
    k ∈ (merge localStorage remoteStorage baseStorage storageKeys).local.removed)
  remoteOnce : ¬(k ∈ (merge localStorage remoteStorage baseStorage storageKeys).remote.added ∧
    k ∈ (merge localStorage remoteStorage baseStorage storageKeys).remote.removed)
  settled : ¬(merge (newLocal localStorage remoteStorage baseStorage storageKeys)
    (some (newRemote localStorage remoteStorage baseStorage storageKeys))
    (some (newRemote localStorage remoteStorage baseStorage storageKeys)) storageKeys).Names k

/-- Both sides have values of the key that differ in their version only, and the remote one is to be taken. -/
def VersionClash : Prop :=
  ∃ remote, remoteStorage = some remote ∧ localStorage.lookup k ≠ remote.lookup k ∧
    hasSameText (localStorage.lookup k) (remote.lookup k) ∧
    (localStorage.lookup k = baseAt baseStorage k ∨ baseStorage = none ∧ k ≠ SYNC_SERVICE_URL_TYPE)

variable {localStorage remoteStorage baseStorage storageKeys k} {remote : Dictionary StorageValue}

theorem sameValue_iff (value1 value2 : StorageValue) : sameValue value1 value2 = true ↔ value1 = value2 :=
  decide_eq_true_iff

theorem merged_of_eq (h : localStorage.lookup k = remote.lookup k) :
    merged localStorage remote baseStorage k = localStorage.lookup k := by
  unfold merged
  cases baseStorage with
  | none => cases hremote : remote.lookup k <;> simp [h, hremote]
  | some base => simp [h]

theorem newRemote_none : newRemote localStorage none baseStorage storageKeys = localStorage := by
  unfold newRemote RemoteChanges.apply merge
  by_cases h : localStorage.keys.length > 0
  · simp [h]
  · have hempty : localStorage = ∅ := by
      apply AList.ext
      have hentries : localStorage.entries.length = 0 := by
        rw [AList.keys, keys, length_map] at h
        omega
      exact length_eq_zero_iff.mp hentries
    simp [hempty]

theorem merge_same (h : (compare sameValue localStorage remote).isEmpty) :
    merge localStorage (some remote) baseStorage storageKeys = { «local» := {}, remote := {} } := if_pos h

/-- The remote storage that the loops over the changes in local build. -/
def builtRemote (localStorage remote : Dictionary StorageValue) (baseStorage : Option (Dictionary StorageValue))
    (storageKeys : StorageKeys) : Dictionary StorageValue :=
  mergeRemote localStorage remote baseStorage storageKeys (compareBase baseStorage localStorage)
    (compareBase baseStorage remote)

/-- The changes to the local storage that the loops over the changes in remote collect. -/
def collectedLocal (localStorage remote : Dictionary StorageValue) (baseStorage : Option (Dictionary StorageValue))
    (storageKeys : StorageKeys) : LocalChanges :=
  mergeLocal localStorage remote baseStorage storageKeys (compareBase baseStorage localStorage)
    (compareBase baseStorage remote)

theorem merge_differ (h : ¬(compare sameValue localStorage remote).isEmpty) :
    merge localStorage (some remote) baseStorage storageKeys =
      let built := builtRemote localStorage remote baseStorage storageKeys
      let result := compare sameValue remote built
      { «local» := collectedLocal localStorage remote baseStorage storageKeys
        remote := { added := result.added, updated := result.updated, removed := result.removed
                    all := if result.isEmpty then none else some built } } := if_neg h

theorem newRemote_some (hk : k ∉ storageKeys.unregistered) :
    (newRemote localStorage (some remote) baseStorage storageKeys).lookup k =
      merged localStorage remote baseStorage k := by
  unfold newRemote
  by_cases hsame : (compare sameValue localStorage remote).isEmpty
  · have heq := (compare_isEmpty_iff sameValue_iff).mp hsame k
    rw [merge_same hsame, merged_of_eq heq, heq]
    rfl
  · rw [merge_differ hsame, ← mergeRemote_lookup localStorage remote baseStorage hk]
    dsimp only [RemoteChanges.apply]
    by_cases hempty : (compare sameValue remote (builtRemote localStorage remote baseStorage storageKeys)).isEmpty
    · rw [if_pos hempty]
      exact (compare_isEmpty_iff sameValue_iff).mp hempty k
    · rw [if_neg hempty]
      rfl

theorem newLocal_none : newLocal localStorage none baseStorage storageKeys = localStorage := rfl

theorem newLocal_some (hk : k ∉ storageKeys.machine) :
    (newLocal localStorage (some remote) baseStorage storageKeys).lookup k =
      if hasSameText (localStorage.lookup k) (remote.lookup k) then localStorage.lookup k
      else merged localStorage remote baseStorage k := by
  unfold newLocal
  by_cases hsame : (compare sameValue localStorage remote).isEmpty
  · have heq := (compare_isEmpty_iff sameValue_iff).mp hsame k
    rw [merge_same hsame, merged_of_eq heq, ite_self]
    rfl
  · rw [merge_differ hsame]
    exact mergeLocal_lookup localStorage remote baseStorage hk

theorem collectedLocal_once : ¬(k ∈ (collectedLocal localStorage remote baseStorage storageKeys).added.keys ∧
    k ∈ (collectedLocal localStorage remote baseStorage storageKeys).removed) := by
  rintro ⟨hadds, hremoves⟩
  obtain ⟨hadded, hupdated, hremoved⟩ := compareBase_nodup remote baseStorage
  have hadds' : ((collectedLocal localStorage remote baseStorage storageKeys).at k).added.isSome = true :=
    mem_keys_iff.mp hadds
  have hremoves' : ((collectedLocal localStorage remote baseStorage storageKeys).at k).removed = true :=
    decide_eq_true hremoves
  unfold collectedLocal at hadds' hremoves'
  rw [mergeLocal_at hadded hupdated hremoved] at hadds' hremoves'
  by_cases h : k ∈ (compareBase baseStorage remote).removed
  · have hnot : k ∉ (compareBase baseStorage remote).added := by
      cases baseStorage with
      | none => exact absurd h not_mem_nil
      | some base => exact fun hmem => compare_once ⟨hmem, h⟩
    simp only [hnot, if_false, removedTurn, updatedTurn] at hadds'
    split_ifs at hadds' <;> cases hadds'
  · simp only [h, if_false, updatedTurn, addedTurn] at hremoves'
    split_ifs at hremoves'

theorem not_names_of_eq (hk : k ∉ storageKeys.unregistered) (h : localStorage.lookup k = remote.lookup k) :
    ¬(merge localStorage (some remote) (some remote) storageKeys).Names k := by
  have hbuilt : remote.lookup k = (builtRemote localStorage remote (some remote) storageKeys).lookup k := by
    unfold builtRemote
    rw [mergeRemote_lookup localStorage remote (some remote) hk, merged_of_eq h, h]
  have hcollected : collectedLocal localStorage remote (some remote) storageKeys = {} := by
    have hempty : (compare sameValue remote remote).isEmpty := (compare_isEmpty_iff sameValue_iff).mpr fun _ => rfl
    unfold CompareResult.isEmpty at hempty
    rw [Bool.and_eq_true, Bool.and_eq_true, List.isEmpty_iff, List.isEmpty_iff, List.isEmpty_iff] at hempty
    unfold collectedLocal mergeLocal
    rw [compareBase_some, compareBase_some, hempty.1.1, hempty.1.2, hempty.2]
    rfl
  unfold MergeResult.Names
  by_cases hsame : (compare sameValue localStorage remote).isEmpty
  · rw [merge_same hsame]
    simp
  · rw [merge_differ hsame, hcollected]
    rw [mem_compare_iff sameValue_iff]
    simp [hbuilt]

theorem merged_of_clash (htext : hasSameText (localStorage.lookup k) (remote.lookup k))
    (hwins : localStorage.lookup k = baseAt baseStorage k ∨ baseStorage = none ∧ k ≠ SYNC_SERVICE_URL_TYPE) :
    merged localStorage remote baseStorage k = remote.lookup k := by
  cases hlocal : localStorage.lookup k with
  | none =>
    rw [hlocal] at htext
    cases htext
  | some localValue =>
    cases hremote : remote.lookup k with
    | none =>
      rw [hlocal, hremote] at htext
      cases htext
    | some remoteValue =>
      unfold merged
      cases baseStorage with
      | none =>
        rcases hwins with hbase | ⟨-, hsync⟩
        · rw [hlocal] at hbase
          cases hbase
        · simp [hsync, hremote]
      | some base =>
        rcases hwins with hbase | ⟨hnone, -⟩
        · have hbase : localStorage.lookup k = base.lookup k := hbase
          simp [hbase, hremote]
        · cases hnone

/-- Without a clash a value of the same text is the one that both sides are left with. -/
theorem merged_of_not_clash (h : ¬VersionClash localStorage (some remote) baseStorage k)
    (htext : hasSameText (localStorage.lookup k) (remote.lookup k)) :
    merged localStorage remote baseStorage k = localStorage.lookup k := by
  by_cases heq : localStorage.lookup k = remote.lookup k
  · exact merged_of_eq heq
  · have hwins : ¬(localStorage.lookup k = baseAt baseStorage k ∨ baseStorage = none ∧ k ≠ SYNC_SERVICE_URL_TYPE) :=
      fun hwins => h ⟨remote, rfl, heq, htext, hwins⟩
    rw [not_or] at hwins
    obtain ⟨hbase, hnone⟩ := hwins
    unfold merged
    cases baseStorage with
    | some base => exact if_neg hbase
    | none =>
      have hsync : k = SYNC_SERVICE_URL_TYPE := by
        by_contra hsync
        exact hnone ⟨rfl, hsync⟩
      cases hlocal : localStorage.lookup k with
      | none =>
        rw [hlocal] at htext
        cases htext
      | some localValue =>
        rw [if_pos hsync]
        rfl

theorem newLocal_of_not_clash (hmachine : k ∉ storageKeys.machine)
    (h : ¬VersionClash localStorage (some remote) baseStorage k) :
    (newLocal localStorage (some remote) baseStorage storageKeys).lookup k =
      merged localStorage remote baseStorage k := by
  rw [newLocal_some hmachine]
  split
  · next htext => exact (merged_of_not_clash h htext).symm
  · rfl

theorem merged_of_local (hlocal : LocalChanged localStorage baseStorage k)
    (hremote : ¬RemoteChanged (some remote) baseStorage k) :
    merged localStorage remote baseStorage k = localStorage.lookup k := by
  have hbase : remote.lookup k = baseAt baseStorage k := by
    by_contra hne
    exact hremote ⟨remote, rfl, hne⟩
  unfold merged
  cases baseStorage with
  | none =>
    have hnone : remote.lookup k = none := hbase
    simp [hnone]
  | some base => exact if_neg hlocal

theorem merged_of_remote (hlocal : ¬LocalChanged localStorage baseStorage k) :
    merged localStorage remote baseStorage k = remote.lookup k := by
  have hbase : localStorage.lookup k = baseAt baseStorage k := not_not.mp hlocal
  unfold merged
  cases baseStorage with
  | none =>
    have hnone : localStorage.lookup k = none := hbase
    simp [hnone]
  | some base => exact if_pos hbase

theorem converges_none (hunregistered : k ∉ storageKeys.unregistered) :
    Converges localStorage none baseStorage storageKeys k := by
  refine ⟨?_, fun _ _ => rfl, fun remote hremote => ?_, ?_, ?_, ?_⟩
  · rw [newRemote_none, newLocal_none]
  · cases hremote
  · exact fun h => not_mem_nil h.2
  · exact fun h => not_mem_nil h.2
  · rw [newRemote_none, newLocal_none]
    exact not_names_of_eq hunregistered rfl

theorem converges_of_not_clash (hmachine : k ∉ storageKeys.machine) (hunregistered : k ∉ storageKeys.unregistered)
    (h : ¬VersionClash localStorage (some remote) baseStorage k) :
    Converges localStorage (some remote) baseStorage storageKeys k := by
  have hlocal := newLocal_of_not_clash hmachine h
  have hremote : (newRemote localStorage (some remote) baseStorage storageKeys).lookup k = _ :=
    newRemote_some hunregistered
  refine ⟨hlocal.trans hremote.symm, fun hchanged hnot => ?_, fun remote' heq hnot hchanged => ?_, ?_, ?_, ?_⟩
  · rw [hlocal, merged_of_local hchanged hnot]
  · cases heq
    rw [hlocal, merged_of_remote hnot]
  · by_cases hsame : (compare sameValue localStorage remote).isEmpty
    · rw [merge_same hsame]
      exact fun h => not_mem_nil h.2
    · rw [merge_differ hsame]
      exact collectedLocal_once
  · by_cases hsame : (compare sameValue localStorage remote).isEmpty
    · rw [merge_same hsame]
      exact fun h => not_mem_nil h.2
    · rw [merge_differ hsame]
      exact @compare_once _ sameValue _ _ _
  · exact not_names_of_eq hunregistered (hlocal.trans hremote.symm)

/-- The merge converges at a key if and only if no two values that differ in their version only clash there. -/
theorem converges_iff (hmachine : k ∉ storageKeys.machine) (hunregistered : k ∉ storageKeys.unregistered) :
    Converges localStorage remoteStorage baseStorage storageKeys k ↔
      ¬VersionClash localStorage remoteStorage baseStorage k := by
  cases remoteStorage with
  | none =>
    refine ⟨fun _ hclash => ?_, fun _ => converges_none hunregistered⟩
    obtain ⟨_, hremote, _⟩ := hclash
    cases hremote
  | some remote =>
    refine ⟨fun h hclash => ?_, converges_of_not_clash hmachine hunregistered⟩
    obtain ⟨remote', heq, hne, htext, hwins⟩ := hclash
    cases heq
    have hagree := h.agree
    rw [newLocal_some hmachine, newRemote_some hunregistered, if_pos htext,
      merged_of_clash htext hwins] at hagree
    exact hne hagree

end Converges

end TongjiCode.Sync.GlobalState
