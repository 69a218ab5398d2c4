import TongjiCode.Sync.GlobalStateMerge
import TongjiCode.Sync.SnippetsMerge

/-!
# Convergence of the state and snippet merges

After a merge of the snippets the two sides agree at every key without a conflict.  The merge of the global state
does the same for the keys that it synchronizes, but for one case: `compare` looks at the versions of the storage
values, while the loops over the changes in remote compare the texts only.

    (every synchronized key of the state converges ∧ every snippet without a conflict converges) ↔
      no synchronized key has a `VersionClash`                                (state_and_snippets_converge_iff)
-/

namespace TongjiCode.Sync

theorem state_and_snippets_converge_iff (localStorage : Dictionary GlobalState.StorageValue)
    (remoteStorage baseStorage : Option (Dictionary GlobalState.StorageValue)) (storageKeys : GlobalState.StorageKeys)
    (localSnippets : Dictionary String) (remoteSnippets baseSnippets : Option (Dictionary String)) :
    ((∀ k, k ∉ storageKeys.machine → k ∉ storageKeys.unregistered →
          GlobalState.Converges localStorage remoteStorage baseStorage storageKeys k) ∧
        ∀ k, k ∉ (Snippets.merge localSnippets remoteSnippets baseSnippets).conflicts →
          Snippets.Converges localSnippets remoteSnippets baseSnippets k) ↔
      ∀ k, k ∉ storageKeys.machine → k ∉ storageKeys.unregistered →
        ¬GlobalState.VersionClash localStorage remoteStorage baseStorage k := by
  constructor
  · rintro ⟨hstate, -⟩ k hmachine hunregistered
    exact (GlobalState.converges_iff hmachine hunregistered).mp (hstate k hmachine hunregistered)
  · intro h
    refine ⟨fun k hmachine hunregistered => ?_, fun k hk => Snippets.converges localSnippets remoteSnippets baseSnippets hk⟩
    exact (GlobalState.converges_iff hmachine hunregistered).mpr (h k hmachine hunregistered)

/-- Only the version of a value was changed, in remote.  Local keeps the old one, and the next merge with the new
remote as its base takes this for a change in local and uploads it. -/
theorem version_change_diverges :
    let old : Dictionary GlobalState.StorageValue := AList.singleton "a" ⟨1, "x"⟩
    let new : Dictionary GlobalState.StorageValue := AList.singleton "a" ⟨2, "x"⟩
    ¬GlobalState.Converges old (some new) (some old) ⟨[], []⟩ "a" ∧
      (GlobalState.newLocal old (some new) (some old) ⟨[], []⟩).lookup "a" = some ⟨1, "x"⟩ ∧
      (GlobalState.newRemote old (some new) (some old) ⟨[], []⟩).lookup "a" = some ⟨2, "x"⟩ ∧
      (GlobalState.merge old (some new) (some new) ⟨[], []⟩).remote.updated = ["a"] := by
  refine ⟨fun h => ?_, by decide, by decide, by decide⟩
  exact absurd h.agree (by decide)

end TongjiCode.Sync
