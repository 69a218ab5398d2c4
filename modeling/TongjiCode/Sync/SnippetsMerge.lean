import TongjiCode.Sync.Dictionary

/-!
# Merge of the snippets

The `merge` of `snippetsMerge.ts` and its convergence at the keys that are not reported as conflicts
(`converges`).
-/

namespace TongjiCode.Sync.Snippets

structure Changes where
  added : Dictionary String := ∅
  updated : Dictionary String := ∅
  removed : KeySet := []

/-- `IMergeResult`. -/
structure MergeResult where
  «local» : Changes := {}
  remote : Changes := {}
  conflicts : KeySet := []

/-- `fromSnippet !== toSnippet`, negated. -/
def sameSnippet (snippet1 snippet2 : String) : Bool := snippet1 = snippet2

section Loops

variable («local» remote : Dictionary String) (localToRemote baseToLocal baseToRemote : CompareResult)

/-- One turn of the loop over the snippets removed in local. -/
def removedInLocal (result : MergeResult) (key : String) : MergeResult :=
  -- got updated in remote, so it is added to local again
  if key ∈ baseToRemote.updated then
    { result with «local» := { result.local with added := setFrom remote result.local.added key } }
  else { result with remote := { result.remote with removed := result.remote.removed.add key } }

/-- One turn of the loop over the snippets removed in remote. -/
def removedInRemote (result : MergeResult) (key : String) : MergeResult :=
  if key ∈ result.conflicts then result
  else if key ∈ baseToLocal.updated then { result with conflicts := result.conflicts.add key }
  else { result with «local» := { result.local with removed := result.local.removed.add key } }

/-- One turn of a loop over the snippets that one side has changed: a change of both sides is a conflict if the snippets
differ, and one of this side alone is taken over. -/
def changedOn (changed : KeySet) (take : MergeResult → String → MergeResult) (result : MergeResult) (key : String) :
    MergeResult :=
  if key ∈ result.conflicts then result
  else if key ∈ changed then
    if key ∈ localToRemote.updated then { result with conflicts := result.conflicts.add key } else result
  else take result key

/-- One turn of the loop over the snippets updated in local. -/
def updatedInLocal : MergeResult → String → MergeResult :=
  changedOn localToRemote baseToRemote.updated fun result key =>
    { result with remote := { result.remote with updated := setFrom «local» result.remote.updated key } }

/-- One turn of the loop over the snippets updated in remote. -/
def updatedInRemote : MergeResult → String → MergeResult :=
  changedOn localToRemote baseToLocal.updated fun result key =>
    if («local».lookup key).isSome then
      { result with «local» := { result.local with updated := setFrom remote result.local.updated key } }
    else result

/-- One turn of the loop over the snippets added in local. -/
def addedInLocal : MergeResult → String → MergeResult :=
  changedOn localToRemote baseToRemote.added fun result key =>
    { result with remote := { result.remote with added := setFrom «local» result.remote.added key } }

/-- One turn of the loop over the snippets added in remote. -/
def addedInRemote : MergeResult → String → MergeResult :=
  changedOn localToRemote baseToLocal.added fun result key =>
    { result with «local» := { result.local with added := setFrom remote result.local.added key } }

def mergeLoops : MergeResult :=
  let result := baseToLocal.removed.foldl (removedInLocal remote baseToRemote) {}
  let result := baseToRemote.removed.foldl (removedInRemote baseToLocal) result
  let result := baseToLocal.updated.foldl (updatedInLocal «local» localToRemote baseToRemote) result
  let result := baseToRemote.updated.foldl (updatedInRemote «local» remote localToRemote baseToLocal) result
  let result := baseToLocal.added.foldl (addedInLocal «local» localToRemote baseToRemote) result
  baseToRemote.added.foldl (addedInRemote remote localToRemote baseToLocal) result

end Loops

def merge («local» : Dictionary String) (remote base : Option (Dictionary String)) : MergeResult :=
  match remote with
  | none => { remote := { added := «local» } }
  | some remote =>
    let localToRemote := compare sameSnippet «local» remote
    -- no changes found between local and remote
    if localToRemote.isEmpty then {}
    else
      let baseToLocal := compare sameSnippet (base.getD ∅) «local»
      let baseToRemote := compare sameSnippet (base.getD ∅) remote
      mergeLoops «local» remote localToRemote baseToLocal baseToRemote

def Changes.apply (changes : Changes) (snippets : Dictionary String) : Dictionary String :=
  applyChanges changes.added changes.updated changes.removed snippets

/-! ## One key of the result -/

/-- What the result says about one key. -/
structure KeyResult where
  localAdded : Option String := none
  localUpdated : Option String := none
  localRemoved : Bool := false
  remoteAdded : Option String := none
  remoteUpdated : Option String := none
  remoteRemoved : Bool := false
  conflict : Bool := false

def MergeResult.at (result : MergeResult) (k : String) : KeyResult where
  localAdded := result.local.added.lookup k
  localUpdated := result.local.updated.lookup k
  localRemoved := k ∈ result.local.removed
  remoteAdded := result.remote.added.lookup k
  remoteUpdated := result.remote.updated.lookup k
  remoteRemoved := k ∈ result.remote.removed
  conflict := k ∈ result.conflicts

section Turns

variable («local» remote : Dictionary String) (localToRemote baseToLocal baseToRemote : CompareResult)

def removedInLocalTurn (key : String) (result : KeyResult) : KeyResult :=
  if key ∈ baseToRemote.updated then { result with localAdded := (remote.lookup key).or result.localAdded }
  else { result with remoteRemoved := true }

def removedInRemoteTurn (key : String) (result : KeyResult) : KeyResult :=
  if result.conflict then result
  else if key ∈ baseToLocal.updated then { result with conflict := true }
  else { result with localRemoved := true }

/-- What `changedOn` does at its key. -/
def changedOnTurn (changed : KeySet) (take : String → KeyResult → KeyResult) (key : String) (result : KeyResult) : KeyResult :=
  if result.conflict then result
  else if key ∈ changed then if key ∈ localToRemote.updated then { result with conflict := true } else result
  else take key result

def updatedInLocalTurn : String → KeyResult → KeyResult :=
  changedOnTurn localToRemote baseToRemote.updated fun key result =>
    { result with remoteUpdated := («local».lookup key).or result.remoteUpdated }

def updatedInRemoteTurn : String → KeyResult → KeyResult :=
  changedOnTurn localToRemote baseToLocal.updated fun key result =>
    if («local».lookup key).isSome then { result with localUpdated := (remote.lookup key).or result.localUpdated } else result

def addedInLocalTurn : String → KeyResult → KeyResult :=
  changedOnTurn localToRemote baseToRemote.added fun key result =>
    { result with remoteAdded := («local».lookup key).or result.remoteAdded }

def addedInRemoteTurn : String → KeyResult → KeyResult :=
  changedOnTurn localToRemote baseToLocal.added fun key result =>
    { result with localAdded := (remote.lookup key).or result.localAdded }

variable {«local» remote localToRemote baseToLocal baseToRemote} {keys : List String} {k : String}

section

variable (hnodup : keys.Nodup) (result : MergeResult)
include hnodup result

theorem removedInLocal_at :
    (keys.foldl (removedInLocal remote baseToRemote) result).at k =
      if k ∈ keys then removedInLocalTurn remote baseToRemote k (result.at k) else result.at k := by
  refine foldl_pointwise MergeResult.at _ _ (fun result key => ?_) (fun result key k hne => ?_) hnodup result k
  · unfold removedInLocal removedInLocalTurn
    split_ifs <;> simp [MergeResult.at, lookup_setFrom_self, KeySet.mem_add]
  · unfold removedInLocal
    split_ifs <;> simp [MergeResult.at, lookup_setFrom_of_ne _ _ hne, KeySet.mem_add, hne]

theorem removedInRemote_at :
    (keys.foldl (removedInRemote baseToLocal) result).at k =
      if k ∈ keys then removedInRemoteTurn baseToLocal k (result.at k) else result.at k := by
  refine foldl_pointwise MergeResult.at _ _ (fun result key => ?_) (fun result key k hne => ?_) hnodup result k
  · unfold removedInRemote removedInRemoteTurn
    split_ifs <;> simp_all [MergeResult.at, KeySet.mem_add]
  · unfold removedInRemote
    split_ifs <;> simp [MergeResult.at, KeySet.mem_add, hne]

/-- The loops over changed snippets: what a turn takes over is said at its key only. -/
theorem changedOn_at {changed : KeySet} {take : MergeResult → String → MergeResult} {takeTurn : String → KeyResult → KeyResult}
    (hself : ∀ result key, (take result key).at key = takeTurn key (result.at key))
    (hother : ∀ result key k, k ≠ key → (take result key).at k = result.at k) :
    (keys.foldl (changedOn localToRemote changed take) result).at k =
      if k ∈ keys then changedOnTurn localToRemote changed takeTurn k (result.at k) else result.at k := by
  refine foldl_pointwise MergeResult.at _ _ (fun result key => ?_) (fun result key k hne => ?_) hnodup result k
  · unfold changedOn changedOnTurn
    split_ifs <;> simp_all [MergeResult.at, KeySet.mem_add]
  · unfold changedOn
    split_ifs
    · rfl
    · simp [MergeResult.at, KeySet.mem_add, hne]
    · rfl
    · exact hother result key k hne

theorem updatedInLocal_at :
    (keys.foldl (updatedInLocal «local» localToRemote baseToRemote) result).at k =
      if k ∈ keys then updatedInLocalTurn «local» localToRemote baseToRemote k (result.at k) else result.at k :=
  changedOn_at hnodup result (fun _ _ => by simp [MergeResult.at, lookup_setFrom_self]) fun _ _ _ hne => by
    simp [MergeResult.at, lookup_setFrom_of_ne _ _ hne]

theorem updatedInRemote_at :
    (keys.foldl (updatedInRemote «local» remote localToRemote baseToLocal) result).at k =
      if k ∈ keys then updatedInRemoteTurn «local» remote localToRemote baseToLocal k (result.at k)
      else result.at k :=
  changedOn_at hnodup result (fun _ _ => by split <;> simp [MergeResult.at, lookup_setFrom_self]) fun _ _ _ hne => by
    split <;> simp [MergeResult.at, lookup_setFrom_of_ne _ _ hne]

theorem addedInLocal_at :
    (keys.foldl (addedInLocal «local» localToRemote baseToRemote) result).at k =
      if k ∈ keys then addedInLocalTurn «local» localToRemote baseToRemote k (result.at k) else result.at k :=
  changedOn_at hnodup result (fun _ _ => by simp [MergeResult.at, lookup_setFrom_self]) fun _ _ _ hne => by
    simp [MergeResult.at, lookup_setFrom_of_ne _ _ hne]

theorem addedInRemote_at :
    (keys.foldl (addedInRemote remote localToRemote baseToLocal) result).at k =
      if k ∈ keys then addedInRemoteTurn remote localToRemote baseToLocal k (result.at k) else result.at k :=
  changedOn_at hnodup result (fun _ _ => by simp [MergeResult.at, lookup_setFrom_self]) fun _ _ _ hne => by
    simp [MergeResult.at, lookup_setFrom_of_ne _ _ hne]

end

end Turns

/-! ## Convergence -/

section Converges

variable («local» : Dictionary String) (remote base : Option (Dictionary String)) (k : String)

def newLocal : Dictionary String := (merge «local» remote base).local.apply «local»

/-- The snippets of remote after the merge; where there were none, they start empty. -/
def newRemote : Dictionary String := (merge «local» remote base).remote.apply (remote.getD ∅)

def Changes.Names (changes : Changes) (k : String) : Prop :=
  k ∈ changes.added.keys ∨ k ∈ changes.updated.keys ∨ k ∈ changes.removed

/-- The snippet was changed in local since the base. -/
def LocalChanged : Prop := «local».lookup k ≠ (base.getD ∅).lookup k

/-- The snippet was changed in remote since the base.  Where there is no remote nothing was changed in it. -/
def RemoteChanged : Prop := ∃ snippets, remote = some snippets ∧ snippets.lookup k ≠ (base.getD ∅).lookup k

/-- Both sides have the same snippet after the merge, that of the side that changed if there is just one, no side
adds and removes it, and another merge leaves it alone. -/
structure Converges : Prop where
  agree : (newLocal «local» remote base).lookup k = (newRemote «local» remote base).lookup k
  localChange : LocalChanged «local» base k → ¬RemoteChanged remote base k →
    (newLocal «local» remote base).lookup k = «local».lookup k
  remoteChange : ∀ snippets, remote = some snippets → ¬LocalChanged «local» base k →
    RemoteChanged remote base k → (newLocal «local» remote base).lookup k = snippets.lookup k
  localOnce : ¬(k ∈ (merge «local» remote base).local.added.keys ∧ k ∈ (merge «local» remote base).local.removed)
  remoteOnce : ¬(k ∈ (merge «local» remote base).remote.added.keys ∧ k ∈ (merge «local» remote base).remote.removed)
  localSettled : ¬(merge (newLocal «local» remote base) (some (newRemote «local» remote base))
    (some (newRemote «local» remote base))).local.Names k
  remoteSettled : ¬(merge (newLocal «local» remote base) (some (newRemote «local» remote base))
    (some (newRemote «local» remote base))).remote.Names k

end Converges

section Loops

variable («local» remote base : Dictionary String) (k : String)

/-- What the loops leave at a key, from the snippets that base, local and remote have there. -/
def keyResult : Option String → Option String → Option String → KeyResult
  | none, none, none => {}
  | none, some snippet, none => { remoteAdded := some snippet }
  | none, none, some snippet => { localAdded := some snippet }
  | none, some snippet1, some snippet2 => { conflict := snippet1 ≠ snippet2 }
  | some _, none, none => { localRemoved := true, remoteRemoved := true }
  | some snippet, none, some snippet2 =>
    if snippet = snippet2 then { remoteRemoved := true } else { localAdded := some snippet2 }
  | some snippet, some snippet1, none => if snippet = snippet1 then { localRemoved := true } else { conflict := true }
  | some snippet, some snippet1, some snippet2 =>
    if snippet = snippet1 then if snippet = snippet2 then {} else { localUpdated := some snippet2 }
    else if snippet = snippet2 then { remoteUpdated := some snippet1 }
    else { conflict := snippet1 ≠ snippet2 }

theorem mergeLoops_at :
    (mergeLoops «local» remote (compare sameSnippet «local» remote) (compare sameSnippet base «local»)
      (compare sameSnippet base remote)).at k =
      keyResult (base.lookup k) («local».lookup k) (remote.lookup k) := by
  unfold mergeLoops
  rw [addedInRemote_at compare_added_nodup, addedInLocal_at compare_added_nodup,
    updatedInRemote_at compare_updated_nodup, updatedInLocal_at compare_updated_nodup,
    removedInRemote_at compare_removed_nodup, removedInLocal_at compare_removed_nodup]
  have hempty : MergeResult.at {} k = {} := rfl
  rw [hempty]
  cases hbase : base.lookup k with
  | none =>
    have hremoved1 : k ∉ (compare sameSnippet base «local»).removed := by simp [mem_compare_removed, hbase]
    have hremoved2 : k ∉ (compare sameSnippet base remote).removed := by simp [mem_compare_removed, hbase]
    have hupdated1 : k ∉ (compare sameSnippet base «local»).updated := by simp [mem_compare_updated, hbase, sameAt]
    have hupdated2 : k ∉ (compare sameSnippet base remote).updated := by simp [mem_compare_updated, hbase, sameAt]
    simp only [hremoved1, hremoved2, hupdated1, hupdated2, if_false, mem_compare_added, hbase, true_and]
    unfold addedInRemoteTurn addedInLocalTurn changedOnTurn
    simp only [mem_compare_added, mem_compare_updated, hbase, true_and]
    cases hlocal : «local».lookup k with
    | none => cases hremote : remote.lookup k <;> simp [keyResult]
    | some snippet1 =>
      cases hremote : remote.lookup k with
      | none => simp [keyResult]
      | some snippet2 => by_cases h : snippet1 = snippet2 <;> simp [keyResult, sameAt, sameSnippet, h]
  | some snippet =>
    have hadded1 : k ∉ (compare sameSnippet base «local»).added := by simp [mem_compare_added, hbase]
    have hadded2 : k ∉ (compare sameSnippet base remote).added := by simp [mem_compare_added, hbase]
    simp only [hadded1, hadded2, if_false]
    cases hlocal : «local».lookup k with
    | none =>
      have hupdated1 : k ∉ (compare sameSnippet base «local»).updated := by
        simp [mem_compare_updated, hbase, hlocal, sameAt]
      unfold updatedInRemoteTurn removedInRemoteTurn removedInLocalTurn changedOnTurn
      simp only [hupdated1, if_false, mem_compare_updated, mem_compare_removed, hbase, hlocal]
      cases hremote : remote.lookup k with
      | none => simp [keyResult, sameAt]
      | some snippet2 => by_cases h : snippet = snippet2 <;> simp [keyResult, sameAt, sameSnippet, h]
    | some snippet1 =>
      unfold updatedInRemoteTurn updatedInLocalTurn removedInRemoteTurn changedOnTurn
      simp only [mem_compare_updated, mem_compare_removed, hbase, hlocal]
      cases hremote : remote.lookup k with
      | none => by_cases h : snippet = snippet1 <;> simp [keyResult, sameAt, sameSnippet, h]
      | some snippet2 =>
        by_cases h1 : snippet = snippet1
        · subst h1
          by_cases h2 : snippet = snippet2 <;> simp [keyResult, sameAt, sameSnippet, h2]
        · by_cases h2 : snippet = snippet2
          · simp [keyResult, sameAt, sameSnippet, h2]
          · by_cases h : snippet1 = snippet2 <;> simp [keyResult, sameAt, sameSnippet, h1, h2, h]

end Loops

section Result

variable {«local» remote : Dictionary String} {base : Option (Dictionary String)} {k : String}

theorem sameSnippet_iff (snippet1 snippet2 : String) : sameSnippet snippet1 snippet2 = true ↔ snippet1 = snippet2 :=
  decide_eq_true_iff

theorem merge_same (h : (compare sameSnippet «local» remote).isEmpty) : merge «local» (some remote) base = {} :=
  if_pos h

theorem merge_at (h : ¬(compare sameSnippet «local» remote).isEmpty) :
    (merge «local» (some remote) base).at k =
      keyResult ((base.getD ∅).lookup k) («local».lookup k) (remote.lookup k) := by
  rw [← mergeLoops_at]
  exact congrArg (fun result => MergeResult.at result k) (if_neg h)

theorem local_apply_lookup (result : MergeResult) (d : Dictionary String) :
    (result.local.apply d).lookup k =
      if (result.at k).localRemoved then none
      else (result.at k).localUpdated.or ((result.at k).localAdded.or (d.lookup k)) := by
  unfold Changes.apply
  rw [applyChanges_lookup]
  simp [MergeResult.at]

theorem remote_apply_lookup (result : MergeResult) (d : Dictionary String) :
    (result.remote.apply d).lookup k =
      if (result.at k).remoteRemoved then none
      else (result.at k).remoteUpdated.or ((result.at k).remoteAdded.or (d.lookup k)) := by
  unfold Changes.apply
  rw [applyChanges_lookup]
  simp [MergeResult.at]

/-- The snippet that both sides are left with. -/
def merged (base «local» remote : Option String) : Option String :=
  if «local» = base then remote else if remote = base then «local» else if «local» = none then remote else «local»

/-- The loops write the merged snippet to both sides of a key without a conflict. -/
theorem keyResult_merged (base «local» remote : Option String) (h : (keyResult base «local» remote).conflict = false) :
    (if (keyResult base «local» remote).localRemoved then none
      else (keyResult base «local» remote).localUpdated.or
        ((keyResult base «local» remote).localAdded.or «local»)) = merged base «local» remote ∧
    (if (keyResult base «local» remote).remoteRemoved then none
      else (keyResult base «local» remote).remoteUpdated.or
        ((keyResult base «local» remote).remoteAdded.or remote)) = merged base «local» remote := by
  unfold merged
  cases base with
  | none => cases «local» <;> cases remote <;> simp_all [keyResult]
  | some snippet =>
    cases «local» with
    | none =>
      cases remote with
      | none => simp [keyResult]
      | some snippet2 =>
        by_cases h2 : snippet = snippet2
        · simp [keyResult, h2]
        · simp [keyResult, h2, Ne.symm h2]
    | some snippet1 =>
      cases remote with
      | none => by_cases h1 : snippet = snippet1 <;> simp_all [keyResult]
      | some snippet2 =>
        by_cases h1 : snippet = snippet1
        · subst h1
          by_cases h2 : snippet = snippet2 <;> simp [keyResult, h2]
        · by_cases h2 : snippet = snippet2
          · subst h2
            simp [keyResult, h1, Ne.symm h1]
          · have heq : snippet1 = snippet2 := by
              simpa [keyResult, h1, h2] using h
            simp [keyResult, h2, heq]

theorem keyResult_once (base «local» remote : Option String) :
    ¬((keyResult base «local» remote).localAdded.isSome ∧ (keyResult base «local» remote).localRemoved) ∧
      ¬((keyResult base «local» remote).remoteAdded.isSome ∧ (keyResult base «local» remote).remoteRemoved) := by
  fun_cases keyResult base «local» remote <;> simp

theorem merge_at_cases : («local».lookup k = remote.lookup k ∧ (merge «local» (some remote) base).at k = {}) ∨
    (merge «local» (some remote) base).at k =
      keyResult ((base.getD ∅).lookup k) («local».lookup k) (remote.lookup k) := by
  by_cases h : (compare sameSnippet «local» remote).isEmpty
  · left
    rw [merge_same h]
    exact ⟨(compare_isEmpty_iff sameSnippet_iff).mp h k, rfl⟩
  · exact .inr (merge_at h)

theorem merged_of_eq (base snippet : Option String) : merged base snippet snippet = snippet := by
  unfold merged
  split_ifs <;> rfl

theorem new_lookup (h : k ∉ (merge «local» (some remote) base).conflicts) :
    (newLocal «local» (some remote) base).lookup k =
        merged ((base.getD ∅).lookup k) («local».lookup k) (remote.lookup k) ∧
      (newRemote «local» (some remote) base).lookup k =
        merged ((base.getD ∅).lookup k) («local».lookup k) (remote.lookup k) := by
  have hconflict : ((merge «local» (some remote) base).at k).conflict = false := decide_eq_false h
  unfold newLocal newRemote
  rw [local_apply_lookup, remote_apply_lookup, Option.getD_some]
  rcases @merge_at_cases «local» remote base k with ⟨heq, hat⟩ | hat
  · rw [hat, heq, merged_of_eq]
    exact ⟨rfl, rfl⟩
  · rw [hat] at hconflict ⊢
    exact keyResult_merged _ _ _ hconflict

theorem not_names_of_at (result : MergeResult) (h : result.at k = {}) :
    ¬result.local.Names k ∧ ¬result.remote.Names k := by
  injection h with h1 h2 h3 h4 h5 h6
  unfold Changes.Names
  rw [mem_keys_iff, mem_keys_iff, mem_keys_iff, mem_keys_iff, h1, h2, h4, h5]
  simp_all

theorem not_names_of_eq (h : «local».lookup k = remote.lookup k) :
    ¬(merge «local» (some remote) (some remote)).local.Names k ∧
      ¬(merge «local» (some remote) (some remote)).remote.Names k := by
  apply not_names_of_at
  rcases @merge_at_cases «local» remote (some remote) k with ⟨-, hat⟩ | hat
  · exact hat
  · rw [hat, Option.getD_some, h]
    cases remote.lookup k <;> simp [keyResult]

theorem converges_none : Converges «local» none base k := by
  have hlocal : newLocal «local» none base = «local» := rfl
  have hremote : (newRemote «local» none base).lookup k = «local».lookup k := by
    show (applyChanges «local» ∅ [] ∅).lookup k = _
    rw [applyChanges_lookup]
    simp
  refine ⟨by rw [hlocal, hremote], fun _ _ => by rw [hlocal], fun snippets h => ?_, ?_, ?_, ?_, ?_⟩
  · cases h
  · exact fun h => List.not_mem_nil h.2
  · exact fun h => List.not_mem_nil h.2
  · rw [hlocal]
    exact (not_names_of_eq hremote.symm).1
  · rw [hlocal]
    exact (not_names_of_eq hremote.symm).2

theorem converges_some (h : k ∉ (merge «local» (some remote) base).conflicts) :
    Converges «local» (some remote) base k := by
  obtain ⟨hlocal, hremote⟩ := new_lookup h
  have honce := keyResult_once ((base.getD ∅).lookup k) («local».lookup k) (remote.lookup k)
  have hat : ¬(((merge «local» (some remote) base).at k).localAdded.isSome ∧
        ((merge «local» (some remote) base).at k).localRemoved) ∧
      ¬(((merge «local» (some remote) base).at k).remoteAdded.isSome ∧
        ((merge «local» (some remote) base).at k).remoteRemoved) := by
    rcases @merge_at_cases «local» remote base k with ⟨-, hat⟩ | hat
    · rw [hat]
      simp
    · rw [hat]
      exact honce
  refine ⟨hlocal.trans hremote.symm, fun hchanged hnot => ?_, fun snippets hsnippets hnot hchanged => ?_, ?_, ?_, ?_, ?_⟩
  · have hbase : remote.lookup k = (base.getD ∅).lookup k := by
      by_contra hne
      exact hnot ⟨remote, rfl, hne⟩
    rw [hlocal, merged, if_neg hchanged, if_pos hbase]
  · cases hsnippets
    rw [hlocal, merged, if_pos (not_not.mp hnot)]
  · rintro ⟨hadded, hremoved⟩
    exact hat.1 ⟨mem_keys_iff.mp hadded, decide_eq_true hremoved⟩
  · rintro ⟨hadded, hremoved⟩
    exact hat.2 ⟨mem_keys_iff.mp hadded, decide_eq_true hremoved⟩
  · exact (not_names_of_eq (hlocal.trans hremote.symm)).1
  · exact (not_names_of_eq (hlocal.trans hremote.symm)).2

end Result

theorem converges («local» : Dictionary String) (remote base : Option (Dictionary String)) {k : String}
    (h : k ∉ (merge «local» remote base).conflicts) : Converges «local» remote base k := by
  cases remote with
  | none => exact converges_none
  | some remote => exact converges_some h

end TongjiCode.Sync.Snippets
