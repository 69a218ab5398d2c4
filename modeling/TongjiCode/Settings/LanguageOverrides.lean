import TongjiCode.Settings.ValueTrees

/-!
# Language overrides after updates

What `override(id).getValue(k)` gives in a model that was built by `setValue` and `removeValue`: the contents that the override keys
have stored, over the value of the model (`overrides_follow`).

What an override key has stored goes with the key as long as each removal finds one entry with the identifiers of the key.
-/

open List

namespace TongjiCode.Settings

/-- What an override key has stored. -/
structure Stored where
  key : JsString
  contents : Properties
deriving DecidableEq

def Stored.identifiers (stored : Stored) : List JsString := overrideIdentifiersFromKey stored.key

/-- What setting a key stores for its identifiers; to set `null` or a key with dots throws. -/
def storedFor (key : JsString) (value : Value) : Option Stored :=
  if isOverrideProperty key ∧ segments key = [key] ∧ value ≠ .null then
    (toValuesTree value.ownProperties .nil).map fun contents => { key, contents }
  else none

/-- A call: a key is set to a value, or removed. -/
abbrev Update := JsString × Option Value

/-- What is stored after a call. -/
def remember (stored : List Stored) : Update → List Stored
  | (key, some value) => stored ++ (storedFor key value).toList
  | (key, none) => stored.filter fun s => s.key ≠ key

/-- The entries of the model are what is stored. -/
structure Follows (m : IConfigurationModel) (stored : List Stored) : Prop where
  overrides : m.overrides.map (fun o => (o.identifiers, o.contents)) = stored.map fun s => (s.identifiers, s.contents)
  known : ∀ s ∈ stored, s.key ∈ m.keys ∧ isOverrideProperty s.key ∧ segments s.key = [s.key]
  nodup : m.keys.Nodup
  undotted : ∀ key ∈ m.contents.keys, segments key = [key]

/-- One stored entry has the identifiers of the key, and it is that of the key. -/
def StoredOnce (stored : List Stored) (key : JsString) : Prop :=
  ∃ before s after, stored = before ++ s :: after ∧ s.key = key ∧
    ∀ s' ∈ before ++ after, s'.identifiers ≠ overrideIdentifiersFromKey key

/-- An override key that is removed has one entry. -/
def Removes (m : IConfigurationModel) (stored : List Stored) : Update → Prop
  | (key, none) => key ∈ m.keys → isOverrideProperty key → StoredOnce stored key
  | (_, some _) => True

def AllRemove (m : IConfigurationModel) (stored : List Stored) : List Update → Prop
  | [] => True
  | update :: updates =>
    Removes m stored update ∧ AllRemove (m.update update.1 update.2).1 (remember stored update) updates

/-- The model after the calls. -/
def updated (m : IConfigurationModel) (updates : List Update) : IConfigurationModel :=
  updates.foldl (fun m update => (m.update update.1 update.2).1) m

/-- No key that is set, or that an override key sets, stops before the end of the path. -/
def Clear (path : List JsString) : Update → Prop
  | (key, some value) =>
    ¬ Above (segments key) path ∧
      (isOverrideProperty key → ∀ key' ∈ value.ownProperties.keys, ¬ Above (segments key') path)
  | (_, none) => True

instance (path : List JsString) : (update : Update) → Decidable (Clear path update)
  | (_, some _) => inferInstanceAs (Decidable (_ ∧ (_ → _)))
  | (_, none) => inferInstanceAs (Decidable True)

theorem segments_of_mem {key s : JsString} (h : s ∈ segments key) : segments s = [s] :=
  splitOn_eq_singleton (not_mem_of_splitOn 46 key s h)

/-- Only the first segment can become a new property. -/
theorem keys_addToValueTree {properties properties' : Properties} {path : List JsString} {value : Value}
    (h : addToValueTree properties path value = some properties') :
    ∀ key ∈ properties'.keys, key ∈ properties.keys ∨ key ∈ path := by
  have hset : ∀ (s : JsString) (value : Value), s ∈ path → ∀ key ∈ (properties.set s value).keys,
      key ∈ properties.keys ∨ key ∈ path := by
    intro s value hs key hkey
    rw [Properties.keys_set] at hkey
    split_ifs at hkey
    · exact .inl hkey
    · obtain hkey | hkey := mem_append.mp hkey
      · exact .inl hkey
      · exact .inr (mem_singleton.mp hkey ▸ hs)
  match path with
  | [] =>
    rw [addToValueTree, Option.some.injEq] at h
    exact fun key hkey => .inl (h ▸ hkey)
  | [last] =>
    rw [addToValueTree, Option.some.injEq] at h
    rw [← h]
    exact hset last value mem_cons_self
  | s :: next :: rest =>
    rw [addToValueTree] at h
    split at h
    · obtain ⟨obj, -, rfl⟩ := Option.map_eq_some_iff.mp h
      exact hset s _ mem_cons_self
    · obtain ⟨obj, -, rfl⟩ := Option.map_eq_some_iff.mp h
      exact hset s _ mem_cons_self
    · split_ifs at h
      rw [Option.some.injEq] at h
      exact fun key hkey => .inl (h ▸ hkey)
    · rw [Option.some.injEq] at h
      exact fun key hkey => .inl (h ▸ hkey)

theorem keys_removeFromValueTree {properties properties' : Properties} {path : List JsString}
    (h : removeFromValueTree properties path = some properties') : ∀ key ∈ properties'.keys, key ∈ properties.keys := by
  match path with
  | [] =>
    rw [removeFromValueTree, Option.some.injEq] at h
    exact fun key hkey => h ▸ hkey
  | [first] =>
    rw [removeFromValueTree, Option.some.injEq] at h
    rw [← h, Properties.keys_delete]
    exact fun key hkey => mem_of_mem_erase hkey
  | first :: next :: rest =>
    rw [removeFromValueTree] at h
    split at h
    · next value hget =>
      obtain ⟨value', -, rfl⟩ := Option.map_eq_some_iff.mp h
      split_ifs
      · rw [Properties.keys_delete]
        exact fun key hkey => mem_of_mem_erase hkey
      · have hmem : first ∈ properties.keys := (Properties.mem_keys_iff _ _).mpr (by rw [hget]; rfl)
        rw [Properties.keys_set, if_pos hmem]
        exact fun key hkey => hkey
    · cases h
    · rw [Option.some.injEq] at h
      exact fun key hkey => h ▸ hkey

theorem addedKey {keys : List JsString} (h : keys.Nodup) (key : JsString) :
    keys ⊆ (if key ∈ keys then keys else keys ++ [key]) ∧ key ∈ (if key ∈ keys then keys else keys ++ [key]) ∧
      (if key ∈ keys then keys else keys ++ [key]).Nodup := by
  split_ifs with hmem
  · exact ⟨List.Subset.refl _, hmem, h⟩
  · refine ⟨subset_append_left _ _, by simp, ?_⟩
    exact nodup_append.mpr ⟨h, by simp, fun a ha b hb heq => hmem (mem_singleton.mp hb ▸ heq ▸ ha)⟩

/-- The entry that an override key adds once its value is set. -/
theorem newOverride_eq {m : IConfigurationModel} {properties : Properties} {key : JsString} {value : Value}
    (hadd : addToValueTree properties (segments key) value = some m.contents)
    (hundotted : ∀ key' ∈ m.contents.keys, segments key' = [key']) (hoverride : isOverrideProperty key) :
    (m.newOverride key).map (fun o => (o.identifiers, o.contents)) =
      (storedFor key value).map fun s => (s.identifiers, s.contents) := by
  by_cases hone : segments key = [key]
  · rw [hone, addToValueTree, Option.some.injEq] at hadd
    have hget : m.contents.get? key = some value := by rw [← hadd, Properties.get?_set, if_pos rfl]
    rw [IConfigurationModel.newOverride, hget, storedFor]
    by_cases hnull : value = .null
    · simp [hnull]
    · rw [if_pos ⟨hoverride, hone, hnull⟩]
      cases value with
      | null => exact absurd rfl hnull
      | _ => simp only [Option.map_map]; rfl
  · have hget : m.contents.get? key = none := Properties.get?_eq_none fun hmem => hone (hundotted key hmem)
    simp [IConfigurationModel.newOverride, hget, storedFor, hone]

theorem Follows.setValue {m : IConfigurationModel} {stored : List Stored} (h : Follows m stored) (key : JsString) (value : Value) :
    Follows (m.setValue key value).1 (remember stored (key, some value)) := by
  rw [IConfigurationModel.setValue, remember]
  cases hadd : addToValueTree m.contents (segments key) value with
  | none =>
    have hdots : segments key ≠ [key] := fun hone => by
      rw [hone, addToValueTree] at hadd
      cases hadd
    have hnone : storedFor key value = none := by simp [storedFor, hdots]
    rw [hnone, Option.toList_none, append_nil]
    exact h
  | some contents =>
    obtain ⟨hsubset, hself, hnodup⟩ := addedKey h.nodup key
    dsimp only
    generalize (if key ∈ m.keys then m.keys else m.keys ++ [key]) = keys at hsubset hself hnodup ⊢
    have hundotted : ∀ key' ∈ contents.keys, segments key' = [key'] := fun key' hkey' =>
      (keys_addToValueTree hadd key' hkey').elim (h.undotted key') segments_of_mem
    have hfollows : Follows { m with contents, keys } stored :=
      ⟨h.overrides, fun s hs => ⟨hsubset (h.known s hs).1, (h.known s hs).2⟩, hnodup, hundotted⟩
    split_ifs with hoverride
    · have hnew := newOverride_eq (m := { m with contents, keys }) hadd hundotted hoverride
      cases hstored : storedFor key value with
      | none =>
        rw [hstored, Option.map_none, Option.map_eq_none_iff] at hnew
        rw [hnew, Option.toList_none, append_nil]
        exact hfollows
      | some s =>
        rw [hstored, Option.map_some, Option.map_eq_some_iff] at hnew
        obtain ⟨override, hnew, heq⟩ := hnew
        have hs : s.key = key ∧ segments key = [key] := by
          rw [storedFor] at hstored
          split_ifs at hstored with hfits
          obtain ⟨contents, -, rfl⟩ := Option.map_eq_some_iff.mp hstored
          exact ⟨rfl, hfits.2.1⟩
        rw [hnew]
        refine ⟨?_, fun s' hs' => ?_, hnodup, hundotted⟩
        · show (m.overrides ++ [override]).map _ = (stored ++ [s]).map _
          rw [map_append, map_append, h.overrides, map_singleton, map_singleton, heq]
        · obtain hs' | hs' := mem_append.mp hs'
          · exact hfollows.known s' hs'
          · rw [mem_singleton.mp hs', hs.1]
            exact ⟨hself, hoverride, hs.2⟩
    · have hnone : storedFor key value = none := by simp [storedFor, hoverride]
      rw [hnone, Option.toList_none, append_nil]
      exact hfollows

/-- The first entry with the identifiers is the only one. -/
theorem spliceOverride_eq {identifiers : List JsString} {before after : List IOverrides} {override : IOverrides}
    (hoverride : override.identifiers = identifiers) (hbefore : ∀ o ∈ before, o.identifiers ≠ identifiers) :
    IConfigurationModel.spliceOverride identifiers (before ++ override :: after) = before ++ after := by
  have hindex : (before ++ override :: after).findIdx? (fun o => o.identifiers = identifiers) = some before.length := by
    rw [findIdx?_append, findIdx?_eq_none_iff.mpr (by simpa using hbefore), findIdx?_cons]
    simp [hoverride]
  rw [IConfigurationModel.spliceOverride, hindex]
  simp [eraseIdx_append_of_length_le]

theorem filter_others {stored : List Stored} (key : JsString) (h : ∀ s ∈ stored, s.key ≠ key) :
    stored.filter (fun s => s.key ≠ key) = stored :=
  filter_eq_self.mpr fun s hs => decide_eq_true (h s hs)

theorem Follows.removeValue {m : IConfigurationModel} {stored : List Stored} (h : Follows m stored) {key : JsString}
    (hremoves : Removes m stored (key, none)) : Follows (m.removeValue key).1 (remember stored (key, none)) := by
  rw [IConfigurationModel.removeValue, remember]
  by_cases hmem : key ∈ m.keys
  · rw [if_pos hmem]
    dsimp only
    have hkeys : (m.keys.erase key).Nodup := h.nodup.erase key
    have hothers : ∀ s ∈ stored.filter (fun s => s.key ≠ key),
        s.key ∈ m.keys.erase key ∧ isOverrideProperty s.key ∧ segments s.key = [s.key] := by
      intro s hs
      obtain ⟨hs, hne⟩ := mem_filter.mp hs
      exact ⟨(mem_erase_of_ne (by simpa using hne)).mpr (h.known s hs).1, (h.known s hs).2⟩
    by_cases hoverride : isOverrideProperty key
    · obtain ⟨before, s, after, rfl, rfl, hsole⟩ := hremoves hmem hoverride
      have hone := (h.known s (by simp)).2.2
      have hfilter : (before ++ s :: after).filter (fun s' => s'.key ≠ s.key) = before ++ after := by
        have hne : ∀ s' ∈ before ++ after, s'.key ≠ s.key := fun s' hs' heq =>
          hsole s' hs' (congrArg overrideIdentifiersFromKey heq)
        rw [filter_append, filter_cons_of_neg (by simp), ← filter_append, filter_eq_self]
        simpa using hne
      rw [hfilter] at hothers ⊢
      obtain ⟨before', rest, hsplit, hbefore, hrest⟩ := map_eq_append_iff.mp (h.overrides.trans map_append)
      obtain ⟨override, after', rfl, hself, hafter⟩ := map_eq_cons_iff.mp hrest
      have hne : ∀ o ∈ before', o.identifiers ≠ overrideIdentifiersFromKey s.key := by
        intro o ho heq
        have hmem : (o.identifiers, o.contents) ∈ before.map fun s => (s.identifiers, s.contents) :=
          hbefore ▸ mem_map_of_mem ho
        obtain ⟨s', hs', heq'⟩ := mem_map.mp hmem
        exact hsole s' (mem_append_left _ hs') ((Prod.mk.inj heq').1.trans heq)
      rw [hone, removeFromValueTree]
      dsimp only
      have hidentifiers : override.identifiers = overrideIdentifiersFromKey s.key := (Prod.mk.inj hself).1
      rw [if_pos hoverride, hsplit, spliceOverride_eq hidentifiers hne]
      refine ⟨?_, hothers, hkeys, ?_⟩
      · rw [map_append, map_append, hbefore, hafter]
      · intro key' hkey'
        have hdelete : removeFromValueTree m.contents [s.key] = some (m.contents.delete s.key) := by rw [removeFromValueTree]
        exact h.undotted key' (keys_removeFromValueTree hdelete key' hkey')
    · have hfilter := filter_others key fun s hs heq => hoverride (heq ▸ (h.known s hs).2.1)
      rw [hfilter] at hothers ⊢
      cases hremove : removeFromValueTree m.contents (segments key) with
      | none => exact ⟨h.overrides, hothers, hkeys, h.undotted⟩
      | some contents =>
        dsimp only
        rw [if_neg hoverride]
        exact ⟨h.overrides, hothers, hkeys, fun key' hkey' => h.undotted key' (keys_removeFromValueTree hremove key' hkey')⟩
  · rw [if_neg hmem]
    have hfilter := filter_others key fun s hs heq => hmem (heq ▸ (h.known s hs).1)
    rw [hfilter]
    exact h

theorem Follows.run {m : IConfigurationModel} {stored : List Stored} {updates : List Update} (h : Follows m stored)
    (hremoves : AllRemove m stored updates) : Follows (updated m updates) (updates.foldl remember stored) := by
  induction updates generalizing m stored with
  | nil => exact h
  | cons update updates ih =>
    obtain ⟨key, value⟩ := update
    cases value with
    | none => exact ih (h.removeValue hremoves.1) hremoves.2
    | some value => exact ih (h.setValue key value) hremoves.2

/-! ## Open paths -/

/-- The path is open in the model and in what is stored. -/
structure AllOpen (m : IConfigurationModel) (stored : List Stored) (path : List JsString) : Prop where
  contents : Open (some (.object false m.contents)) path
  stored : ∀ s ∈ stored, Open (some (.object false s.contents)) path

theorem AllOpen.update {m : IConfigurationModel} {stored : List Stored} {path : List JsString} (h : AllOpen m stored path)
    {update : Update} (hclear : Clear path update) :
    AllOpen (m.update update.1 update.2).1 (remember stored update) path := by
  obtain ⟨key, value⟩ := update
  cases value with
  | none =>
    refine ⟨?_, fun s hs => h.stored s (mem_of_mem_filter hs)⟩
    show Open (some (.object false (m.removeValue key).1.contents)) path
    rw [IConfigurationModel.removeValue]
    by_cases hmem : key ∈ m.keys
    · rw [if_pos hmem]
      dsimp only
      cases hremove : removeFromValueTree m.contents (segments key) with
      | none => exact h.contents
      | some contents =>
        have := open_removeFromValueTree hremove h.contents
        dsimp only
        split_ifs <;> exact this
    · rw [if_neg hmem]
      exact h.contents
  | some value =>
    refine ⟨?_, fun s hs => ?_⟩
    · show Open (some (.object false (m.setValue key value).1.contents)) path
      rw [IConfigurationModel.setValue]
      cases hadd : addToValueTree m.contents (segments key) value with
      | none => exact h.contents
      | some contents =>
        have := open_addToValueTree hadd hclear.1 h.contents
        dsimp only
        split
        · split <;> exact this
        · exact this
    · rw [remember] at hs
      obtain hs | hs := mem_append.mp hs
      · exact h.stored s hs
      · rw [Option.mem_toList, storedFor] at hs
        split_ifs at hs with hfits
        obtain ⟨contents, hcontents, rfl⟩ := Option.map_eq_some_iff.mp hs
        exact open_toValuesTree hcontents (hclear.2 hfits.1) (open_emptyObject path)

/-- What merged contents say at a path. -/
def contentsAt (contents : Option Properties) (path : List JsString) : Option Value :=
  accessSetting (contents.map (.object false)) path

theorem open_mergeInto {contents : Option Properties} {contentsToMerge : Properties} {path : List JsString}
    (h : Open (contents.map (.object false)) path) (h' : Open (some (.object false contentsToMerge)) path) :
    Open ((IConfigurationModel.mergeInto contents contentsToMerge).map (.object false)) path ∧
    contentsAt (IConfigurationModel.mergeInto contents contentsToMerge) path =
      overlay (contentsAt contents path) (accessSetting (some (.object false contentsToMerge)) path) := by
  have hmerge : (IConfigurationModel.mergeInto contents contentsToMerge).map (Value.object false) =
      overlay (contents.map (.object false)) (some (.object false contentsToMerge)) := by
    cases contents with
    | none => rw [Option.map_none, none_overlay]; rfl
    | some contents => rw [Option.map_some, overlay_object]; rfl
  rw [contentsAt, hmerge]
  exact ⟨open_overlay h h', accessSetting_overlay h h'⟩

/-- What the loop over the entries collects for one identifier and for several ones. -/
theorem collected (identifier : JsString) (path : List JsString) (overrides : List IOverrides) (stored : List Stored)
    (hfollows : overrides.map (fun o => (o.identifiers, o.contents)) = stored.map fun s => (s.identifiers, s.contents))
    (hopen : ∀ s ∈ stored, Open (some (.object false s.contents)) path) (only contents : Option Properties)
    (hcontents : Open (contents.map (.object false)) path) :
    (overrides.foldl (IConfigurationModel.collectOverride identifier) (only, contents)).1 =
      ((stored.filter fun s => s.identifiers = [identifier]).getLast?.map Stored.contents).or only ∧
    Open ((overrides.foldl (IConfigurationModel.collectOverride identifier) (only, contents)).2.map (.object false)) path ∧
    contentsAt (overrides.foldl (IConfigurationModel.collectOverride identifier) (only, contents)).2 path =
      (stored.filter fun s => s.identifiers ≠ [identifier] ∧ identifier ∈ s.identifiers).foldl
        (fun value s => overlay value (accessSetting (some (.object false s.contents)) path)) (contentsAt contents path) := by
  induction overrides generalizing stored only contents with
  | nil =>
    obtain rfl : stored = [] := by simpa using hfollows.symm
    exact ⟨rfl, hcontents, rfl⟩
  | cons override overrides ih =>
    obtain ⟨s, rest, rfl, hself, hrest⟩ := map_eq_cons_iff.mp hfollows.symm
    obtain ⟨hidentifiers, hs⟩ := Prod.mk.inj hself
    have hrestOpen : ∀ s ∈ rest, Open (some (.object false s.contents)) path := fun s hs => hopen s (mem_cons_of_mem _ hs)
    rw [foldl_cons, IConfigurationModel.collectOverride, ← hidentifiers, ← hs]
    split_ifs with honly hmember
    · obtain ⟨hlast, hfold⟩ := ih rest hrest.symm hrestOpen (some s.contents) contents hcontents
      refine ⟨?_, ?_⟩
      · rw [hlast, filter_cons_of_pos (by simpa using honly), getLast?_cons]
        cases (rest.filter fun s => s.identifiers = [identifier]).getLast? <;> rfl
      · rw [filter_cons_of_neg (by simp [honly])]
        exact hfold
    · obtain ⟨hmergedOpen, hmerged⟩ := open_mergeInto hcontents (hopen s mem_cons_self)
      obtain ⟨hlast, hfoldOpen, hfold⟩ := ih rest hrest.symm hrestOpen only _ hmergedOpen
      refine ⟨?_, hfoldOpen, ?_⟩
      · rw [hlast, filter_cons_of_neg (by simpa using honly)]
      · rw [hfold, hmerged, filter_cons_of_pos (by simp [honly, hmember]), foldl_cons]
    · obtain ⟨hlast, hfold⟩ := ih rest hrest.symm hrestOpen only contents hcontents
      refine ⟨?_, ?_⟩
      · rw [hlast, filter_cons_of_neg (by simpa using honly)]
      · rw [filter_cons_of_neg (by simp [hmember])]
        exact hfold

end TongjiCode.Settings
