import TongjiCode.Settings.ConfigurationModel

/-!
# What a value tree says at a path

* `lookup_mergeContents`: what is left at a path when one tree is merged into another.
* `open_addToValueTree`, `open_removeFromValueTree`: no setting cuts off a path that does not go on behind its key.
-/

open List

namespace TongjiCode.Settings

/-- A later value over an earlier one: two objects are merged, otherwise the later one counts. -/
def overlay (earlier : Option Value) : Option Value → Option Value
  | none => earlier
  | some later => some (mergeValue earlier later)

@[simp] theorem overlay_none (earlier : Option Value) : overlay earlier none = earlier := rfl

theorem mergeValue_none (value : Value) : mergeValue none value = value := by
  cases value with
  | object isArray properties => cases isArray <;> simp [mergeValue]
  | _ => simp [mergeValue]

@[simp] theorem none_overlay (later : Option Value) : overlay none later = later := by
  cases later with
  | none => rfl
  | some later => exact congrArg some (mergeValue_none later)

namespace Properties

theorem get?_set (properties : Properties) (key : JsString) (value : Value) (key' : JsString) :
    (properties.set key value).get? key' = if key = key' then some value else properties.get? key' := by
  match properties with
  | nil => rfl
  | cons key₁ value₁ rest =>
    rw [set]
    split_ifs with h h' h'
    · rw [get?, if_pos (h.trans h')]
    · rw [get?, if_neg (h ▸ h'), get?, if_neg (h ▸ h')]
    · rw [get?, if_neg (h' ▸ h), get?_set rest, if_pos h']
    · rw [get?, get?_set rest, if_neg h', get?]

theorem keys_set (properties : Properties) (key : JsString) (value : Value) :
    (properties.set key value).keys = if key ∈ properties.keys then properties.keys else properties.keys ++ [key] := by
  match properties with
  | nil => rfl
  | cons key₁ value₁ rest =>
    rw [set]
    split_ifs with h h' h'
    · rfl
    · exact absurd (by rw [keys, h]; exact mem_cons_self) h'
    · rw [keys, keys_set rest, if_pos ((mem_cons.mp h').resolve_left fun heq => h heq.symm), keys]
    · rw [keys, keys_set rest, if_neg fun hmem => h' (mem_cons_of_mem _ hmem), keys, cons_append]

theorem nodup_keys_set {properties : Properties} (h : properties.keys.Nodup) (key : JsString) (value : Value) :
    (properties.set key value).keys.Nodup := by
  rw [keys_set]
  split_ifs with hmem
  · exact h
  · rw [nodup_append]
    refine ⟨h, by simp, fun key₁ hkey₁ key₂ hkey₂ heq => hmem ?_⟩
    rwa [← mem_singleton.mp hkey₂, ← heq]

theorem mem_keys_iff (properties : Properties) (key : JsString) : key ∈ properties.keys ↔ (properties.get? key).isSome := by
  match properties with
  | nil => simp [keys, get?]
  | cons key₁ value₁ rest =>
    rw [keys, mem_cons, mem_keys_iff rest, get?]
    split_ifs with h
    · simp [h]
    · simp [Ne.symm h]

theorem get?_eq_none {properties : Properties} {key : JsString} (h : key ∉ properties.keys) : properties.get? key = none := by
  rw [mem_keys_iff, Bool.not_eq_true, Option.isSome_eq_false_iff, Option.isNone_iff_eq_none] at h
  exact h

theorem keys_delete (properties : Properties) (key : JsString) : (properties.delete key).keys = properties.keys.erase key := by
  match properties with
  | nil => rfl
  | cons key₁ value₁ rest =>
    rw [delete, keys]
    split_ifs with h
    · rw [h, erase_cons_head]
    · rw [keys, keys_delete rest, erase_cons_tail (by simpa using h)]

theorem get?_delete {properties : Properties} (h : properties.keys.Nodup) (key key' : JsString) :
    (properties.delete key).get? key' = if key = key' then none else properties.get? key' := by
  match properties with
  | nil => simp [delete, get?]
  | cons key₁ value₁ rest =>
    rw [Properties.keys, nodup_cons] at h
    rw [delete]
    split_ifs with heq h' h'
    · exact get?_eq_none (h' ▸ heq ▸ h.1)
    · rw [get?, if_neg (heq ▸ h')]
    · rw [get?, if_neg (h' ▸ heq), get?_delete h.2, if_pos h']
    · rw [get?, get?_delete h.2, if_neg h', get?]

end Properties

open Properties

/-! ## Merging -/

theorem get?_mergeContents (source target : Properties) (h : target.keys.Nodup) (key : JsString) :
    (mergeContents source target).get? key = overlay (source.get? key) (target.get? key) := by
  match target with
  | .nil => rw [mergeContents]; rfl
  | .cons key₁ value rest =>
    rw [Properties.keys, nodup_cons] at h
    rw [mergeContents, get?_mergeContents _ rest h.2, get?_set, get?]
    split_ifs with heq
    · rw [← heq, get?_eq_none h.1]
      rfl
    · rfl

theorem nodup_mergeContents {source : Properties} (h : source.keys.Nodup) (target : Properties) :
    (mergeContents source target).keys.Nodup := by
  match target with
  | .nil => rwa [mergeContents]
  | .cons key value rest =>
    rw [mergeContents]
    exact nodup_mergeContents (nodup_keys_set h key _) rest

/-- Along the path there are only objects that are no arrays, up to its end or to where it stops. -/
def Open : Option Value → List JsString → Prop
  | _, [] => True
  | none, _ :: _ => True
  | some (.object false properties), key :: path => properties.keys.Nodup ∧ Open (properties.get? key) path
  | some _, _ :: _ => False

@[simp] theorem open_nil (value : Option Value) : Open value [] := by
  rw [Open]
  trivial

@[simp] theorem open_none (path : List JsString) : Open none path := by
  cases path <;> simp [Open]

theorem Open.cases {value : Option Value} {key : JsString} {path : List JsString} (h : Open value (key :: path)) :
    value = none ∨ ∃ properties : Properties, value = some (.object false properties) ∧ properties.keys.Nodup ∧
      Open (properties.get? key) path := by
  match value with
  | none => exact .inl rfl
  | some (.object false properties) =>
    rw [Open] at h
    exact .inr ⟨properties, rfl, h⟩
  | some (.object true _) | some .null | some (.boolean _) | some (.number _) | some (.string _) => simp [Open] at h

theorem accessSetting_cons (properties : Properties) (key : JsString) (path : List JsString) :
    accessSetting (some (.object false properties)) (key :: path) = accessSetting (properties.get? key) path := by
  rw [accessSetting]

@[simp] theorem accessSetting_none (path : List JsString) : accessSetting none path = none := by
  cases path <;> simp [accessSetting]

theorem overlay_object (source target : Properties) :
    overlay (some (.object false source)) (some (.object false target)) = some (.object false (mergeContents source target)) := by
  rw [overlay, mergeValue]

theorem open_overlay {earlier later : Option Value} {path : List JsString} (h : Open earlier path) (h' : Open later path) :
    Open (overlay earlier later) path := by
  induction path generalizing earlier later with
  | nil => simp
  | cons key path ih =>
    obtain rfl | ⟨source, rfl, hsource, hearlier⟩ := h.cases
    · rwa [none_overlay]
    obtain rfl | ⟨target, rfl, htarget, hlater⟩ := h'.cases
    · rwa [overlay_none]
    rw [overlay_object, Open, get?_mergeContents source target htarget]
    exact ⟨nodup_mergeContents hsource target, ih hearlier hlater⟩

/-- What is at the end of a path when one value is over another. -/
theorem accessSetting_overlay {earlier later : Option Value} {path : List JsString} (h : Open earlier path)
    (h' : Open later path) :
    accessSetting (overlay earlier later) path = overlay (accessSetting earlier path) (accessSetting later path) := by
  induction path generalizing earlier later with
  | nil => simp [accessSetting]
  | cons key path ih =>
    obtain rfl | ⟨source, rfl, hsource, hearlier⟩ := h.cases
    · rw [none_overlay, accessSetting_none, none_overlay]
    obtain rfl | ⟨target, rfl, htarget, hlater⟩ := h'.cases
    · rw [overlay_none, accessSetting_none, overlay_none]
    rw [overlay_object, accessSetting_cons, accessSetting_cons, accessSetting_cons, get?_mergeContents source target htarget,
      ih hearlier hlater]

/-! ## Settings that do not cut off a path -/

/-- The path of a key stops before the end of this path. -/
def Above (key path : List JsString) : Prop := key <+: path ∧ key ≠ path

instance (key path : List JsString) : Decidable (Above key path) := inferInstanceAs (Decidable (_ ∧ _))

theorem Above.cons {key path : List JsString} (h : Above key path) (s : JsString) : Above (s :: key) (s :: path) :=
  ⟨(prefix_cons_inj s).mpr h.1, fun heq => h.2 (tail_eq_of_cons_eq heq)⟩

theorem open_object {properties : Properties} {key : JsString} {path : List JsString} :
    Open (some (.object false properties)) (key :: path) ↔ properties.keys.Nodup ∧ Open (properties.get? key) path := by
  rw [Open]

theorem open_emptyObject (path : List JsString) : Open (some (.object false .nil)) path := by
  cases path with
  | nil => simp
  | cons key path => exact open_object.mpr ⟨nodup_nil, open_none path⟩

/-- A property that is set keeps the path open where its value does. -/
theorem open_set {properties : Properties} {key s : JsString} {path : List JsString}
    (h : Open (some (.object false properties)) (key :: path)) {value : Value} (hvalue : s = key → Open (some value) path) :
    Open (some (.object false (properties.set s value))) (key :: path) := by
  obtain ⟨hnodup, hopen⟩ := open_object.mp h
  refine open_object.mpr ⟨nodup_keys_set hnodup s value, ?_⟩
  rw [get?_set]
  split_ifs with heq
  · exact hvalue heq
  · exact hopen

theorem open_delete {properties : Properties} {path : List JsString} (h : Open (some (.object false properties)) path)
    (s : JsString) : Open (some (.object false (properties.delete s))) path := by
  cases path with
  | nil => simp
  | cons key path =>
    obtain ⟨hnodup, hopen⟩ := open_object.mp h
    refine open_object.mpr ⟨keys_delete properties s ▸ hnodup.erase s, ?_⟩
    rw [get?_delete hnodup]
    split_ifs
    · exact open_none path
    · exact hopen

theorem open_addToValueTree {properties properties' : Properties} {segments path : List JsString} {value : Value}
    (hadd : addToValueTree properties segments value = some properties') (habove : ¬ Above segments path)
    (h : Open (some (.object false properties)) path) : Open (some (.object false properties')) path := by
  induction segments generalizing properties properties' path with
  | nil =>
    rw [addToValueTree, Option.some.injEq] at hadd
    exact hadd ▸ h
  | cons s segments ih =>
    cases path with
    | nil => simp
    | cons key path =>
      cases segments with
      | nil =>
        rw [addToValueTree, Option.some.injEq] at hadd
        rw [← hadd]
        refine open_set h fun heq => ?_
        cases path with
        | nil => simp
        | cons next path => exact absurd ⟨⟨next :: path, by rw [heq]; rfl⟩, by simp⟩ habove
      | cons next rest =>
        have hrest : s = key → ¬ Above (next :: rest) path := fun heq hrest => habove (heq ▸ hrest.cons s)
        rw [addToValueTree] at hadd
        split at hadd
        · obtain ⟨obj, hobj, rfl⟩ := Option.map_eq_some_iff.mp hadd
          exact open_set h fun heq => ih hobj (hrest heq) (open_emptyObject path)
        · next isArray obj hget =>
          obtain ⟨obj', hobj, rfl⟩ := Option.map_eq_some_iff.mp hadd
          refine open_set h fun heq => ?_
          have hbelow := (open_object.mp h).2
          rw [← heq, hget] at hbelow
          cases path with
          | nil => simp
          | cons key' path =>
            obtain hnone | ⟨obj'', hsome, -⟩ := hbelow.cases
            · cases hnone
            · cases hsome
              exact ih hobj (hrest heq) hbelow
        · split_ifs at hadd
          rw [Option.some.injEq] at hadd
          exact hadd ▸ h
        · rw [Option.some.injEq] at hadd
          exact hadd ▸ h

theorem open_removeFromValueTree {properties properties' : Properties} {segments path : List JsString}
    (hremove : removeFromValueTree properties segments = some properties')
    (h : Open (some (.object false properties)) path) : Open (some (.object false properties')) path := by
  induction segments generalizing properties properties' path with
  | nil =>
    rw [removeFromValueTree, Option.some.injEq] at hremove
    exact hremove ▸ h
  | cons first segments ih =>
    cases segments with
    | nil =>
      rw [removeFromValueTree, Option.some.injEq] at hremove
      exact hremove ▸ open_delete h first
    | cons next rest =>
      rw [removeFromValueTree] at hremove
      split at hremove
      · next value hget =>
        obtain ⟨value', hvalue, rfl⟩ := Option.map_eq_some_iff.mp hremove
        split_ifs
        · exact open_delete h first
        · cases path with
          | nil => simp
          | cons key path =>
            refine open_set h fun heq => ?_
            have hbelow := (open_object.mp h).2
            rw [← heq, hget] at hbelow
            exact ih hvalue hbelow
      · cases hremove
      · rw [Option.some.injEq] at hremove
        exact hremove ▸ h

theorem open_toValuesTree {properties root root' : Properties} {path : List JsString}
    (htree : toValuesTree properties root = some root') (habove : ∀ key ∈ properties.keys, ¬ Above (segments key) path)
    (h : Open (some (.object false root)) path) : Open (some (.object false root')) path := by
  match properties with
  | .nil =>
    rw [toValuesTree, Option.some.injEq] at htree
    exact htree ▸ h
  | .cons key value rest =>
    rw [toValuesTree, Option.bind_eq_some_iff] at htree
    obtain ⟨root₁, hadd, hrest⟩ := htree
    exact open_toValuesTree hrest (fun key hkey => habove key (mem_cons_of_mem _ hkey))
      (open_addToValueTree hadd (habove key mem_cons_self) h)

end TongjiCode.Settings
