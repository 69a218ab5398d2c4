import Mathlib.Data.List.Induction
import Mathlib.Data.List.Nodup
import TongjiCode.Keybinding.KeybindingResolver

/-!
# What is dispatched and what is shown

A rule leaves the lookup map when a later rule overwrites it; `resolve` answers with the last rule that begins with the
pressed chords and that the context allows.  This module says which rules either side keeps, from the list of rules alone,
and when every rule that is dispatched is still shown.
-/

open List

namespace TongjiCode.Keybinding

def Identified (rules : List ResolvedKeybindingItem) : Prop :=
  ∀ x ∈ rules, ∀ y ∈ rules, x.id = y.id → x = y

/-- How often an object occurs. -/
def occurrences (id : Nat) (items : List ResolvedKeybindingItem) : Nat :=
  items.countP fun x => x.id = id

theorem occurrences_append (id : Nat) (items items' : List ResolvedKeybindingItem) :
    occurrences id (items ++ items') = occurrences id items + occurrences id items' :=
  countP_append

variable {x : ResolvedKeybindingItem}

theorem occurrences_pos {items : List ResolvedKeybindingItem} (h : x ∈ items) :
    0 < occurrences x.id items :=
  countP_pos_iff.mpr ⟨x, h, by simp⟩

namespace KeybindingResolver

variable {toNumber : JsString → Option Rat} {constants : Constants}

/-! ## Taking objects out of an array -/

theorem spliceItem_sublist (item : ResolvedKeybindingItem) (items : List ResolvedKeybindingItem) :
    (spliceItem item items).Sublist items := by
  induction items with
  | nil => exact List.Sublist.refl _
  | cons first items ih =>
    rw [spliceItem]
    by_cases hfirst : first.id = item.id
    · rw [if_pos hfirst]
      exact sublist_cons_self _ _
    · rw [if_neg hfirst]
      exact ih.cons_cons _

theorem occurrences_spliceItem (id : Nat) (item : ResolvedKeybindingItem) (items : List ResolvedKeybindingItem) :
    occurrences id (spliceItem item items) = occurrences id items - if item.id = id then 1 else 0 := by
  induction items with
  | nil => simp [occurrences, spliceItem]
  | cons first items ih =>
    unfold occurrences at ih ⊢
    rw [spliceItem]
    by_cases hfirst : first.id = item.id
    · rw [if_pos hfirst, countP_cons, hfirst]
      by_cases hid : item.id = id <;> simp [hid]
    · rw [if_neg hfirst, countP_cons, countP_cons, ih]
      by_cases hid : item.id = id
      · have hother : ¬ first.id = id := by rwa [hid] at hfirst
        simp [hid, hother]
      · simp [hid]

/-- The objects are taken out one after the other. -/
def spliceAll (removed items : List ResolvedKeybindingItem) : List ResolvedKeybindingItem :=
  removed.foldl (fun items item => spliceItem item items) items

theorem spliceAll_sublist (removed items : List ResolvedKeybindingItem) : (spliceAll removed items).Sublist items := by
  induction removed generalizing items with
  | nil => exact List.Sublist.refl _
  | cons item removed ih => exact (ih (spliceItem item items)).trans (spliceItem_sublist item items)

theorem occurrences_spliceAll (id : Nat) (removed items : List ResolvedKeybindingItem) :
    occurrences id (spliceAll removed items) = occurrences id items - occurrences id removed := by
  induction removed generalizing items with
  | nil => simp [spliceAll, occurrences]
  | cons item removed ih =>
    have hstep := ih (spliceItem item items)
    rw [occurrences_spliceItem] at hstep
    have hcons : occurrences id (item :: removed) = occurrences id removed + if item.id = id then 1 else 0 := by
      simp [occurrences, countP_cons]
    show occurrences id (spliceAll removed (spliceItem item items)) = _
    omega

/-- If every occurrence of an object is taken out or none is, the others stay. -/
theorem mem_spliceAll {removed items : List ResolvedKeybindingItem} (hsame : Identified (removed ++ items))
    (hall : ∀ x ∈ removed, occurrences x.id items ≤ occurrences x.id removed) :
    x ∈ spliceAll removed items ↔ x ∈ items ∧ x ∉ removed := by
  constructor
  · intro hx
    refine ⟨(spliceAll_sublist removed items).subset hx, fun hremoved => ?_⟩
    have hpos := occurrences_pos hx
    rw [occurrences_spliceAll] at hpos
    have := hall x hremoved
    omega
  · rintro ⟨hx, hkept⟩
    -- an object that is not removed keeps its occurrences, and it is the only rule with its number
    have hnone : occurrences x.id removed = 0 := by
      refine countP_eq_zero.mpr fun y hy hid => hkept ?_
      have : y = x := hsame y (mem_append_left _ hy) x (mem_append_right _ hx) (by simpa using hid)
      exact this ▸ hy
    have hpos : 0 < occurrences x.id (spliceAll removed items) := by
      rw [occurrences_spliceAll, hnone]
      exact occurrences_pos hx
    obtain ⟨y, hy, hid⟩ := countP_pos_iff.mp hpos
    have : y = x := hsame y (mem_append_right _ ((spliceAll_sublist removed items).subset hy)) x
      (mem_append_right _ hx) (by simpa using hid)
    exact this ▸ hy

/-! ## One rule more -/

/-- What a rule takes out of the array of a command. -/
def overwritten (toNumber : JsString → Option Rat) (item : ResolvedKeybindingItem) (command : JsString)
    (conflicts : List ResolvedKeybindingItem) : List ResolvedKeybindingItem :=
  conflicts.filter fun conflict =>
    overwrites toNumber item conflict && decide (conflict.command = some command ∧ command ≠ [])

section

variable (s : KeybindingResolver) (item : ResolvedKeybindingItem)
include s item

theorem removeFromLookupMap_lookupMap (command : JsString) :
    (s.removeFromLookupMap item).lookupMap command =
      if item.command = some command ∧ command ≠ [] then spliceItem item (s.lookupMap command) else s.lookupMap command := by
  unfold removeFromLookupMap
  split
  · next c rest hcommand =>
    by_cases hsame : command = c :: rest
    · subst hsame
      simp [hcommand]
    · rw [hcommand, if_neg (by simpa using fun h => absurd h.symm hsame)]
      exact Function.update_of_ne hsame _ _
  · next hcommand =>
    rw [if_neg]
    rintro ⟨hsame, hne⟩
    obtain ⟨c, rest, rfl⟩ := exists_cons_of_ne_nil hne
    exact hcommand c rest hsame

theorem addToLookupMap_lookupMap (command : JsString) :
    (s.addToLookupMap item).lookupMap command =
      s.lookupMap command ++ if item.command = some command ∧ command ≠ [] then [item] else [] := by
  unfold addToLookupMap
  split
  · next c rest hcommand =>
    by_cases hsame : command = c :: rest
    · subst hsame
      simp [hcommand]
    · rw [hcommand, if_neg (by simpa using fun h => absurd h.symm hsame), append_nil]
      exact Function.update_of_ne hsame _ _
  · next hcommand =>
    rw [if_neg, append_nil]
    rintro ⟨hsame, hne⟩
    obtain ⟨c, rest, rfl⟩ := exists_cons_of_ne_nil hne
    exact hcommand c rest hsame

@[simp] theorem removeFromLookupMap_map :
    (s.removeFromLookupMap item).map = s.map := by
  unfold removeFromLookupMap
  split <;> rfl

@[simp] theorem addToLookupMap_map :
    (s.addToLookupMap item).map = s.map := by
  unfold addToLookupMap
  split <;> rfl

theorem removeConflicts (conflicts : List ResolvedKeybindingItem) (command : JsString) :
    (conflicts.foldl (fun s conflict => if overwrites toNumber item conflict then s.removeFromLookupMap conflict else s)
        s).map = s.map ∧
      (conflicts.foldl (fun s conflict => if overwrites toNumber item conflict then s.removeFromLookupMap conflict else s)
        s).lookupMap command = spliceAll (overwritten toNumber item command conflicts) (s.lookupMap command) := by
  induction conflicts generalizing s with
  | nil => exact ⟨rfl, rfl⟩
  | cons conflict conflicts ih =>
    rw [foldl_cons, overwritten, filter_cons]
    by_cases hover : overwrites toNumber item conflict = true
    · obtain ⟨hmap, hlookup⟩ := ih (s.removeFromLookupMap conflict)
      rw [if_pos hover, hmap, hlookup, removeFromLookupMap_lookupMap]
      refine ⟨removeFromLookupMap_map s conflict, ?_⟩
      by_cases hcommand : conflict.command = some command ∧ command ≠ []
      · rw [if_pos hcommand, if_pos (by simp [hover, hcommand])]
        rfl
      · rw [if_neg hcommand, if_neg (by rw [hover, decide_eq_false hcommand]; decide)]
        rfl
    · rw [if_neg hover, if_neg (by simp [hover])]
      exact ih s

end

theorem addKeyPress_map (s : KeybindingResolver) (keypress : JsString) (item : ResolvedKeybindingItem) :
    (s.addKeyPress toNumber keypress item).map = Function.update s.map keypress (s.map keypress ++ [item]) := by
  unfold addKeyPress
  rw [addToLookupMap_map]
  show Function.update (List.foldl _ s _).map keypress _ = _
  rw [(removeConflicts s item _ []).1]

theorem addKeyPress_lookupMap (s : KeybindingResolver) (keypress : JsString) (item : ResolvedKeybindingItem)
    (command : JsString) :
    (s.addKeyPress toNumber keypress item).lookupMap command =
      spliceAll (overwritten toNumber item command (s.map keypress).reverse) (s.lookupMap command) ++
        if item.command = some command ∧ command ≠ [] then [item] else [] := by
  unfold addKeyPress
  rw [addToLookupMap_lookupMap]
  show (List.foldl _ s _).lookupMap command ++ _ = _
  rw [(removeConflicts s item _ command).2]

/-! ## What the maps hold -/

/-- `later` comes after `x` and overwrites it. -/
def IsOverwritten (toNumber : JsString → Option Rat) (x : ResolvedKeybindingItem) (later : List ResolvedKeybindingItem) :
    Prop :=
  ∃ item ∈ later, item.chords.head? = x.chords.head? ∧ overwrites toNumber item x = true

/-- The maps after the rules of `ks`. -/
structure Holds (toNumber : JsString → Option Rat) (ks : List ResolvedKeybindingItem) (s : KeybindingResolver) : Prop where
  map : ∀ keypress, s.map keypress = ks.filter fun x => x.chords.head? = some keypress
  occurrences : ∀ id command, occurrences id (s.lookupMap command) ≤ occurrences id ks
  lookupMap : ∀ command x, x ∈ s.lookupMap command ↔
    ∃ before later, ks = before ++ x :: later ∧ x.command = some command ∧ command ≠ [] ∧
      ¬ IsOverwritten toNumber x later

variable {ks : List ResolvedKeybindingItem} {s : KeybindingResolver} {command : JsString}

theorem Holds.mem (h : Holds toNumber ks s) (hx : x ∈ s.lookupMap command) : x ∈ ks := by
  obtain ⟨before, later, rfl, -⟩ := (h.lookupMap command x).mp hx
  simp

variable {item : ResolvedKeybindingItem} {later : List ResolvedKeybindingItem}

theorem isOverwritten_append :
    IsOverwritten toNumber x (later ++ [item]) ↔ IsOverwritten toNumber x later ∨
      (item.chords.head? = x.chords.head? ∧ overwrites toNumber item x = true) := by
  constructor
  · rintro ⟨y, hy, hrest⟩
    rcases mem_append.mp hy with hy | hy
    · exact .inl ⟨y, hy, hrest⟩
    · obtain rfl := mem_singleton.mp hy
      exact .inr hrest
  · rintro (⟨y, hy, hrest⟩ | hrest)
    · exact ⟨y, mem_append_left _ hy, hrest⟩
    · exact ⟨item, mem_append_right _ mem_cons_self, hrest⟩

theorem append_singleton_eq {α : Type} {ks before later : List α} {item x : α} :
    ks ++ [item] = before ++ x :: later ↔
      (ks = before ∧ item = x ∧ later = []) ∨ ∃ later', later = later' ++ [item] ∧ ks = before ++ x :: later' := by
  constructor
  · intro h
    rcases eq_nil_or_concat later with rfl | ⟨later', last, rfl⟩
    · left
      obtain ⟨hks, hitem⟩ := append_inj' h rfl
      exact ⟨hks, by simpa using hitem, rfl⟩
    · right
      rw [concat_eq_append, ← cons_append, ← append_assoc] at h
      obtain ⟨hks, hitem⟩ := append_inj' h rfl
      obtain rfl : item = last := by simpa using hitem
      exact ⟨later', by rw [concat_eq_append], hks⟩
  · rintro (⟨rfl, rfl, rfl⟩ | ⟨later', rfl, rfl⟩)
    · rfl
    · simp

section Step

variable {ks : List ResolvedKeybindingItem} {s : KeybindingResolver} {item : ResolvedKeybindingItem} {keypress : JsString}

theorem mem_overwritten (h : Holds toNumber ks s) :
    x ∈ overwritten toNumber item command (s.map keypress).reverse ↔
      x ∈ ks ∧ x.chords.head? = some keypress ∧ overwrites toNumber item x = true ∧ x.command = some command ∧
        command ≠ [] := by
  rw [overwritten, h.map]
  simp only [mem_filter, mem_reverse, Bool.and_eq_true, decide_eq_true_eq]
  constructor
  · rintro ⟨⟨hx, hhead⟩, hover, hcommand⟩
    exact ⟨hx, hhead, hover, hcommand⟩
  · rintro ⟨hx, hhead, hover, hcommand⟩
    exact ⟨⟨hx, hhead⟩, hover, hcommand⟩

section

variable (h : Holds toNumber ks s) (hsame : Identified ks)
include h hsame

theorem occurrences_overwritten (hx : x ∈ overwritten toNumber item command (s.map keypress).reverse) :
    occurrences x.id (s.lookupMap command) ≤
      occurrences x.id (overwritten toNumber item command (s.map keypress).reverse) := by
  obtain ⟨hmem, hhead, hover, hcommand⟩ := (mem_overwritten h).mp hx
  have hall : occurrences x.id (overwritten toNumber item command (s.map keypress).reverse) = occurrences x.id ks := by
    unfold occurrences overwritten
    rw [h.map, ← filter_reverse, filter_filter, countP_filter, countP_reverse]
    refine countP_congr fun y hy => ?_
    constructor
    · intro hid
      exact (Bool.and_eq_true_iff.mp hid).1
    · intro hid
      obtain rfl : y = x := hsame y hy x hmem (by simpa using hid)
      simp [hhead, hover, hcommand]
  rw [hall]
  exact h.occurrences x.id command

theorem mem_addKeyPress_lookupMap :
    x ∈ (s.addKeyPress toNumber keypress item).lookupMap command ↔
      (x ∈ s.lookupMap command ∧ ¬ (x.chords.head? = some keypress ∧ overwrites toNumber item x = true)) ∨
        (x = item ∧ item.command = some command ∧ command ≠ []) := by
  have hsame' : Identified (overwritten toNumber item command (s.map keypress).reverse ++ s.lookupMap command) := by
    have hmem : ∀ y ∈ overwritten toNumber item command (s.map keypress).reverse ++ s.lookupMap command, y ∈ ks := by
      intro y hy
      rcases mem_append.mp hy with hy | hy
      · exact ((mem_overwritten h).mp hy).1
      · exact h.mem hy
    exact fun y hy z hz => hsame y (hmem y hy) z (hmem z hz)
  rw [addKeyPress_lookupMap, mem_append,
    mem_spliceAll hsame' fun y hy => occurrences_overwritten h hsame hy, mem_overwritten h]
  refine or_congr ⟨?_, ?_⟩ ?_
  · rintro ⟨hx, hkept⟩
    obtain ⟨_, _, _, hcommand⟩ := (h.lookupMap command x).mp hx
    exact ⟨hx, fun hover => hkept ⟨h.mem hx, hover.1, hover.2, hcommand.1, hcommand.2.1⟩⟩
  · rintro ⟨hx, hkept⟩
    exact ⟨hx, fun hover => hkept ⟨hover.2.1, hover.2.2.1⟩⟩
  · by_cases hcommand : item.command = some command ∧ command ≠ []
    · simp [hcommand]
    · rw [if_neg hcommand]
      simp [hcommand]

theorem holds_addKeyPress (hhead : item.chords.head? = some keypress) :
    Holds toNumber (ks ++ [item]) (s.addKeyPress toNumber keypress item) where
  map keypress' := by
    rw [addKeyPress_map, filter_append, Function.update_apply]
    by_cases hkey : keypress' = keypress
    · subst hkey
      simp [hhead, h.map]
    · have hother : ¬ keypress = keypress' := fun heq => hkey heq.symm
      simp [hhead, hkey, hother, h.map]
  occurrences id command := by
    rw [addKeyPress_lookupMap, occurrences_append, occurrences_append, occurrences_spliceAll]
    have hold := h.occurrences id command
    have hnew : occurrences id (if item.command = some command ∧ command ≠ [] then [item] else []) ≤
        occurrences id [item] := by
      split
      · exact Nat.le_refl _
      · exact Nat.zero_le _
    omega
  lookupMap command x := by
    rw [mem_addKeyPress_lookupMap h hsame, h.lookupMap]
    constructor
    · rintro (⟨⟨before, later, hks, hcommand, hne, hkept⟩, hover⟩ | ⟨rfl, hcommand, hne⟩)
      · refine ⟨before, later ++ [item], by rw [hks]; simp, hcommand, hne, ?_⟩
        rw [isOverwritten_append, hhead]
        rintro (hlater | ⟨hkey, hitem⟩)
        · exact hkept hlater
        · exact hover ⟨hkey.symm, hitem⟩
      · exact ⟨ks, [], rfl, hcommand, hne, fun ⟨y, hy, _⟩ => absurd hy not_mem_nil⟩
    · rintro ⟨before, later, hks, hcommand, hne, hkept⟩
      rcases append_singleton_eq.mp hks with ⟨-, rfl, -⟩ | ⟨later', rfl, hks'⟩
      · exact .inr ⟨rfl, hcommand, hne⟩
      · rw [isOverwritten_append, hhead, not_or] at hkept
        exact .inl ⟨⟨before, later', hks', hcommand, hne, hkept.1⟩, fun hover => hkept.2 ⟨hover.1.symm, hover.2⟩⟩

end

end Step

/-! ## The constructor -/

/-- The rules that the constructor adds to the maps. -/
def isBound (constants : Constants) (k : ResolvedKeybindingItem) : Bool :=
  !k.chords.isEmpty && !k.whenExpr.any constants.isFalse

def boundKeybindings (constants : Constants) (defaultKeybindings overrides : List ResolvedKeybindingItem) :
    List ResolvedKeybindingItem :=
  (handleRemovals constants (defaultKeybindings ++ overrides)).filter (isBound constants)

variable {defaultKeybindings overrides : List ResolvedKeybindingItem}

theorem mem_boundKeybindings {k : ResolvedKeybindingItem}
    (h : k ∈ boundKeybindings constants defaultKeybindings overrides) :
    k ∈ defaultKeybindings ++ overrides ∧ k.chords ≠ [] := by
  obtain ⟨hk, hbound⟩ := mem_filter.mp h
  refine ⟨(mem_filter.mp hk).1, fun hnil => ?_⟩
  simp [isBound, hnil] at hbound

theorem holds_addKeybinding (h : Holds toNumber ks s) (hsame : Identified ks) (k : ResolvedKeybindingItem) :
    Holds toNumber (ks ++ [k].filter (isBound constants)) (s.addKeybinding toNumber constants k) := by
  unfold addKeybinding
  split
  · next hchords => simpa [isBound, hchords] using h
  · next keypress rest hchords =>
    by_cases hfalse : k.whenExpr.any constants.isFalse = true
    · rw [if_pos hfalse]
      simpa [isBound, hfalse] using h
    · have hbound : [k].filter (isBound constants) = [k] := by simp [isBound, hchords, hfalse]
      rw [if_neg hfalse, hbound]
      exact holds_addKeyPress h hsame (by rw [hchords]; rfl)

theorem holds_create (hsame : Identified (defaultKeybindings ++ overrides)) :
    Holds toNumber (boundKeybindings constants defaultKeybindings overrides)
      (create toNumber constants defaultKeybindings overrides) := by
  have hrules : Identified (handleRemovals constants (defaultKeybindings ++ overrides)) := fun x hx y hy =>
    hsame x (mem_filter.mp hx).1 y (mem_filter.mp hy).1
  unfold boundKeybindings create
  generalize handleRemovals constants (defaultKeybindings ++ overrides) = rules at hrules
  induction rules using reverseRecOn with
  | nil =>
    exact ⟨fun _ => rfl, fun _ _ => Nat.le_refl _, fun command x => by simp⟩
  | append_singleton rules k ih =>
    have hrules' : Identified rules := fun x hx y hy =>
      hrules x (mem_append_left _ hx) y (mem_append_left _ hy)
    rw [foldl_append, filter_append]
    exact holds_addKeybinding (ih hrules')
      (fun x hx y hy => hrules' x (mem_filter.mp hx).1 y (mem_filter.mp hy).1) k

/-! ## What is dispatched -/

section Resolve

variable {V : Type} {language : Language V} {context : JsString → V}

/-- The context allows the rule, and no later rule whose chords begin with its chords. -/
def IsLastAllowed (language : Language V) (context : JsString → V) (item : ResolvedKeybindingItem)
    (later : List ResolvedKeybindingItem) : Prop :=
  contextMatchesRules language context item.whenExpr = true ∧
    ∀ rule ∈ later, item.chords <+: rule.chords → contextMatchesRules language context rule.whenExpr = false

theorem filter_candidates (h : Holds toNumber ks s) (first : JsString) (others : List JsString) :
    (s.map first).filter (fun candidate => others.isPrefixOf candidate.chords.tail) =
      ks.filter fun candidate => (first :: others).isPrefixOf candidate.chords := by
  rw [h.map, filter_filter]
  refine filter_congr fun x _ => ?_
  cases hchords : x.chords with
  | nil => simp
  | cons chord chords =>
    by_cases hfirst : first = chord
    · simp [hfirst]
    · have hother : ¬ chord = first := fun heq => hfirst heq.symm
      simp [hother, List.isPrefixOf, beq_false_of_ne hfirst]

theorem candidates_eq (h : Holds toNumber ks s) (currentChords : List JsString) (keypress : JsString) :
    (if (currentChords ++ [keypress]).length < 2 then s.map ((currentChords ++ [keypress]).headD keypress)
      else (s.map ((currentChords ++ [keypress]).headD keypress)).filter fun candidate =>
        (currentChords ++ [keypress]).tail.isPrefixOf candidate.chords.tail) =
      ks.filter fun candidate => (currentChords ++ [keypress]).isPrefixOf candidate.chords := by
  cases currentChords with
  | nil =>
    have hfilter := filter_candidates h keypress []
    rw [filter_eq_self.mpr (fun x _ => by simp)] at hfilter
    exact hfilter
  | cons chord chords =>
    rw [if_neg (by simp)]
    exact filter_candidates h chord (chords ++ [keypress])

theorem findCommand_eq_some_iff {pressedChords : List JsString} :
    findCommand language context (ks.filter fun candidate => pressedChords.isPrefixOf candidate.chords) = some item ↔
      pressedChords <+: item.chords ∧ contextMatchesRules language context item.whenExpr = true ∧
        ∃ before later, ks = before ++ item :: later ∧ ∀ rule ∈ later, pressedChords <+: rule.chords →
          contextMatchesRules language context rule.whenExpr = false := by
  rw [findCommand, ← filter_reverse, find?_filter, find?_eq_some_iff_append]
  simp only [Bool.not_eq_true', isPrefixOf_iff_prefix, decide_eq_true_eq, decide_eq_false_iff_not, not_and,
    Bool.not_eq_true]
  constructor
  · rintro ⟨⟨hbegins, hallowed⟩, later, before, hks, hlater⟩
    refine ⟨hbegins, hallowed, before.reverse, later.reverse, ?_, fun rule hrule hstarts => ?_⟩
    · rw [← reverse_reverse ks, hks]
      simp
    · exact hlater rule (mem_reverse.mp hrule) hstarts
  · rintro ⟨hbegins, hallowed, before, later, rfl, hlater⟩
    exact ⟨⟨hbegins, hallowed⟩, later.reverse, before.reverse, by simp,
      fun rule hrule => hlater rule (mem_reverse.mp hrule)⟩

/-- What `resolve` finds, from the rules in force. -/
theorem resolve_eq_kbFound_iff (h : Holds toNumber ks s) {currentChords : List JsString} {keypress : JsString} :
    s.resolve language context currentChords keypress = .kbFound item ↔
      item.chords = currentChords ++ [keypress] ∧
        ∃ before later, ks = before ++ item :: later ∧ IsLastAllowed language context item later := by
  simp only [resolve]
  rw [candidates_eq h]
  constructor
  · intro hfound
    split at hfound
    · cases hfound
    · next result hresult =>
      obtain ⟨hbegins, hallowed, before, later, hks, hlater⟩ := findCommand_eq_some_iff.mp hresult
      split at hfound
      · cases hfound
      · next hlength =>
        obtain rfl : result = item := by simpa using hfound
        have hchords : currentChords ++ [keypress] = result.chords :=
          hbegins.eq_of_length (Nat.le_antisymm hbegins.length_le (Nat.le_of_not_lt hlength))
        rw [hchords] at hlater
        exact ⟨hchords.symm, before, later, hks, hallowed, hlater⟩
  · rintro ⟨hchords, before, later, hks, hallowed, hlater⟩
    rw [hchords] at hlater
    have hbegins : currentChords ++ [keypress] <+: item.chords := hchords.symm ▸ prefix_rfl
    have hresult := findCommand_eq_some_iff.mpr ⟨hbegins, hallowed, before, later, hks, hlater⟩
    rw [hresult]
    simp [hchords]

/-! ## Dispatched and shown -/

theorem all_beq_zip (xs ys : List JsString) :
    (xs.zip ys).all (fun (x, y) => x == y) = true ↔ xs <+: ys ∨ ys <+: xs := by
  induction xs generalizing ys with
  | nil => simp
  | cons x xs ih =>
    cases ys with
    | nil => simp
    | cons y ys =>
      rw [zip_cons_cons, all_cons, Bool.and_eq_true, ih, cons_prefix_cons, cons_prefix_cons]
      by_cases hxy : x = y
      · simp [hxy]
      · have hyx : ¬ y = x := fun heq => hxy heq.symm
        simp [hxy, hyx]

/-- Chords with the same first one are told to conflict just when one sequence begins with the other. -/
theorem isShorterKbPrefix_iff {chords1 chords2 : List JsString} (hne : chords1 ≠ [])
    (hhead : chords2.head? = chords1.head?) :
    isShorterKbPrefix chords1 chords2 = true ↔ chords1 <+: chords2 ∨ chords2 <+: chords1 := by
  obtain ⟨chord, chords1, rfl⟩ := exists_cons_of_ne_nil hne
  cases chords2 with
  | nil => cases hhead
  | cons chord2 chords2 =>
    obtain rfl : chord2 = chord := by simpa using hhead
    rw [isShorterKbPrefix, zip_cons_cons, drop_one, tail_cons, all_beq_zip]
    simp

/-- A rule is overwritten by one of another command that its condition is found to imply and whose chords begin with its
own, or the other way round. -/
theorem isOverwritten_iff (hne : x.chords ≠ []) (hlater : ∀ rule ∈ later, rule.chords ≠ []) :
    IsOverwritten toNumber x later ↔ ∃ rule ∈ later, rule.command ≠ x.command ∧
      whenIsEntirelyIncluded toNumber x.whenExpr rule.whenExpr = true ∧
        (x.chords <+: rule.chords ∨ rule.chords <+: x.chords) := by
  have hhead : ∀ rule ∈ later, x.chords <+: rule.chords ∨ rule.chords <+: x.chords →
      rule.chords.head? = x.chords.head? := by
    intro rule hrule hstarts
    obtain ⟨chord, chords, hx⟩ := exists_cons_of_ne_nil hne
    obtain ⟨chord', chords', hy⟩ := exists_cons_of_ne_nil (hlater rule hrule)
    rw [hx, hy, cons_prefix_cons, cons_prefix_cons] at hstarts
    rw [hx, hy]
    rcases hstarts with ⟨rfl, -⟩ | ⟨rfl, -⟩ <;> rfl
  constructor
  · rintro ⟨rule, hrule, hsame, hover⟩
    rw [overwrites, Bool.and_eq_true, Bool.and_eq_true, isShorterKbPrefix_iff hne hsame] at hover
    exact ⟨rule, hrule, fun heq => by simp [heq] at hover, hover.2, hover.1.2⟩
  · rintro ⟨rule, hrule, hcommand, hwhen, hstarts⟩
    refine ⟨rule, hrule, hhead rule hrule hstarts, ?_⟩
    rw [overwrites, Bool.and_eq_true, Bool.and_eq_true, isShorterKbPrefix_iff hne (hhead rule hrule hstarts)]
    exact ⟨⟨by simpa using fun heq : x.command = rule.command => hcommand heq.symm, hstarts⟩, hwhen⟩

theorem later_subset {before before' later later' : List ResolvedKeybindingItem}
    (heq : before ++ item :: later = before' ++ item :: later') (hlast : IsLastAllowed language context item later) :
    later ⊆ later' := by
  rcases append_eq_append_iff.mp heq with ⟨between, -, hrest⟩ | ⟨between, -, hrest⟩
  · cases between with
    | nil =>
      obtain rfl : later = later' := by simpa using hrest
      exact List.Subset.refl _
    | cons first between =>
      have hlater : later = between ++ item :: later' := by
        rw [cons_append, List.cons.injEq] at hrest
        exact hrest.2
      have hfalse := hlast.2 item (by rw [hlater]; simp) prefix_rfl
      rw [hlast.1] at hfalse
      cases hfalse
  · cases between with
    | nil =>
      obtain rfl : later' = later := by simpa using hrest
      exact List.Subset.refl _
    | cons first between =>
      have hlater : later' = between ++ item :: later := by
        rw [cons_append, List.cons.injEq] at hrest
        exact hrest.2
      rw [hlater]
      intro x hx
      exact mem_append_right _ (mem_cons_of_mem _ hx)

theorem mem_lookupKeybindings (h : Holds toNumber ks s) :
    item ∈ s.lookupKeybindings command ↔ ∃ before later, ks = before ++ item :: later ∧ item.command = some command ∧
      command ≠ [] ∧ ¬ IsOverwritten toNumber item later := by
  rw [lookupKeybindings, mem_reverse, h.lookupMap]

variable {before : List ResolvedKeybindingItem}

/-- The rule is dispatched in some context after some chords just if it is the last one allowed there. -/
theorem resolve_dropLast (h : Holds toNumber ks s) (hks : ks = before ++ item :: later) (hne : item.chords ≠ [])
    (hlast : IsLastAllowed language context item later) :
    s.resolve language context item.chords.dropLast (item.chords.getLast hne) = .kbFound item :=
  (resolve_eq_kbFound_iff h).mpr ⟨(dropLast_append_getLast hne).symm, before, later, hks, hlast⟩

def conditionAtoms (rules : List ResolvedKeybindingItem) : List ContextKeyExpr :=
  rules.flatMap fun rule => (rule.whenExpr.map ContextKeyExpr.atoms).getD []

variable {rules : List ResolvedKeybindingItem}

theorem contextMatchesRules_of_included
    (htells : ContextKeyExpr.TellsApart toNumber (conditionAtoms rules) (conditionAtoms rules))
    {x rule : ResolvedKeybindingItem} (hx : x ∈ rules) (hrule : rule ∈ rules)
    (hwhen : whenIsEntirelyIncluded toNumber x.whenExpr rule.whenExpr = true)
    (hallowed : contextMatchesRules language context x.whenExpr = true) :
    contextMatchesRules language context rule.whenExpr = true := by
  have hatoms : ∀ y ∈ rules, ∀ p, y.whenExpr = some p → ∀ atom ∈ p.atoms, atom ∈ conditionAtoms rules :=
    fun y hy p hp atom hatom => mem_flatMap.mpr ⟨y, hy, by simpa [hp] using hatom⟩
  unfold whenIsEntirelyIncluded at hwhen
  split at hwhen
  · next hnone => rw [hnone]; rfl
  · next htrue => rw [htrue]; rfl
  · cases hwhen
  · cases hwhen
  · next a b _ _ ha hb =>
    rw [hb]
    rw [ha] at hallowed
    exact ContextKeyExpr.evaluate_of_implies a b
      (fun p hp q hq => htells p (hatoms x hx a ha p hp) q (hatoms rule hrule b hb q hq))
      (fun p hp q hq => htells p (hatoms rule hrule b hb p hp) q (hatoms x hx a ha q hq)) hwhen hallowed

section Create

variable {defaultKeybindings overrides : List ResolvedKeybindingItem}

theorem chords_ne_nil (hks : boundKeybindings constants defaultKeybindings overrides = before ++ item :: later) :
    item.chords ≠ [] ∧ ∀ rule ∈ later, rule.chords ≠ [] := by
  constructor
  · exact (mem_boundKeybindings (by rw [hks]; simp)).2
  · intro rule hrule
    exact (mem_boundKeybindings (by rw [hks]; simp [hrule])).2

theorem mem_lookupKeybindings_of_last (hsame : Identified (defaultKeybindings ++ overrides))
    (hks : boundKeybindings constants defaultKeybindings overrides = before ++ item :: later)
    (hcommand : item.command = some command) (hlast : IsLastAllowed language context item later) :
    item ∈ (create toNumber constants defaultKeybindings overrides).lookupKeybindings command ↔
      command ≠ [] ∧ ∀ rule ∈ later, rule.command ≠ some command →
        whenIsEntirelyIncluded toNumber item.whenExpr rule.whenExpr = true →
        ¬ (rule.chords <+: item.chords ∧ rule.chords.length < item.chords.length) ∧
          ¬ (item.chords <+: rule.chords ∧ contextMatchesRules language context rule.whenExpr = false) := by
  obtain ⟨hne, hlater⟩ := chords_ne_nil hks
  rw [mem_lookupKeybindings (holds_create hsame)]
  constructor
  · rintro ⟨before', later', hks', -, hcommand', hkept⟩
    have hsubset := later_subset (hks.symm.trans hks') hlast
    have hkept' : ¬ IsOverwritten toNumber item later := fun ⟨rule, hrule, hover⟩ =>
      hkept ⟨rule, hsubset hrule, hover⟩
    rw [isOverwritten_iff hne hlater, hcommand] at hkept'
    refine ⟨hcommand', fun rule hrule hother hwhen => ⟨fun hshorter => ?_, fun hlonger => ?_⟩⟩
    · exact hkept' ⟨rule, hrule, hother, hwhen, .inr hshorter.1⟩
    · exact hkept' ⟨rule, hrule, hother, hwhen, .inl hlonger.1⟩
  · rintro ⟨hcommand', hrules⟩
    refine ⟨before, later, hks, hcommand, hcommand', ?_⟩
    rw [isOverwritten_iff hne hlater, hcommand]
    rintro ⟨rule, hrule, hother, hwhen, hstarts⟩
    obtain ⟨hshorter, hlonger⟩ := hrules rule hrule hother hwhen
    by_cases hbegins : item.chords <+: rule.chords
    · exact hlonger ⟨hbegins, hlast.2 rule hrule hbegins⟩
    · have hstarts' : rule.chords <+: item.chords := hstarts.resolve_left hbegins
      refine hshorter ⟨hstarts', Nat.lt_of_le_of_ne hstarts'.length_le fun hlength => hbegins ?_⟩
      exact (hstarts'.eq_of_length hlength).symm ▸ prefix_rfl

/-- Every rule that `resolve` finds is among those shown for its command, just if no rule that is the last one allowed in
a context has the empty command or a later rule of another command that its condition is found to imply and that has some
of its chords only, or begins with its chords although the context does not allow it. -/
theorem dispatched_are_shown_iff (language : Language V) (hsame : Identified (defaultKeybindings ++ overrides)) :
    (∀ context currentChords keypress item command,
        (create toNumber constants defaultKeybindings overrides).resolve language context currentChords keypress =
          .kbFound item →
        item.command = some command →
        item ∈ (create toNumber constants defaultKeybindings overrides).lookupKeybindings command) ↔
      ∀ context before item later command,
        boundKeybindings constants defaultKeybindings overrides = before ++ item :: later →
        item.command = some command →
        IsLastAllowed language context item later →
        command ≠ [] ∧ ∀ rule ∈ later, rule.command ≠ some command →
          whenIsEntirelyIncluded toNumber item.whenExpr rule.whenExpr = true →
          ¬ (rule.chords <+: item.chords ∧ rule.chords.length < item.chords.length) ∧
            ¬ (item.chords <+: rule.chords ∧ contextMatchesRules language context rule.whenExpr = false) := by
  constructor
  · intro hshown context before item later command hks hcommand hlast
    obtain ⟨hne, -⟩ := chords_ne_nil hks
    have hfound := resolve_dropLast (@holds_create toNumber constants _ _ hsame) hks hne hlast
    exact (mem_lookupKeybindings_of_last hsame hks hcommand hlast).mp (hshown context _ _ item command hfound hcommand)
  · intro hcondition context currentChords keypress item command hfound hcommand
    obtain ⟨-, before, later, hks, hlast⟩ := (resolve_eq_kbFound_iff (holds_create hsame)).mp hfound
    exact (mem_lookupKeybindings_of_last hsame hks hcommand hlast).mpr
      (hcondition context before item later command hks hcommand hlast)

/-- Values that are strings, numbers, null or undefined. -/
def literals : Language Literal where
  truthy value := value != .null && value != .undefined && value != .string [] && value != .number 0
  looselyEquals value value' := value == value'
  includes _ _ := false
  parseFloat value := match value with
    | .number n => some n
    | _ => none
  test _ _ := false

def noConstants : Constants where
  isFalse condition := match condition with
    | .falseExpr => true
    | _ => false
  areEqual := ContextKeyExpr.isEqual

/-- `k c`, then `k` alone, then `k r`: three commands without conditions. -/
def threeRules : List ResolvedKeybindingItem :=
  [{ id := 0, chords := [[107], [99]], command := some [99], whenExpr := none },
   { id := 1, chords := [[107]], command := some [105], whenExpr := none },
   { id := 2, chords := [[107], [114]], command := some [114], whenExpr := none }]

theorem identified_of_nodup (h : (rules.map (·.id)).Nodup) : Identified rules :=
  fun _ hx _ hy hid => inj_on_of_nodup_map h hx hy hid

theorem dispatched_are_shown_iff_two_rules :
    Identified (threeRules.drop 1 ++ []) ∧ ∀ context currentChords keypress item command,
      (create (fun _ => none) noConstants (threeRules.drop 1) []).resolve literals context currentChords keypress =
        .kbFound item →
      item.command = some command →
      item ∈ (create (fun _ => none) noConstants (threeRules.drop 1) []).lookupKeybindings command := by
  have hsame : Identified (threeRules.drop 1 ++ []) := identified_of_nodup (by decide)
  refine ⟨hsame, (dispatched_are_shown_iff literals hsame).mpr ?_⟩
  intro context before item later command hks hcommand hlast
  have hks' : threeRules.drop 1 = before ++ item :: later := hks
  match before, hks' with
  | [], hks' =>
    obtain ⟨rfl, rfl⟩ : _ ∧ _ := List.cons.inj hks'
    obtain rfl : [105] = command := by simpa using hcommand
    refine ⟨by decide, fun rule hrule _ _ => ?_⟩
    obtain rfl := mem_singleton.mp hrule
    exact ⟨by decide, fun h => nomatch h.2⟩
  | [_], hks' =>
    obtain ⟨rfl, rfl⟩ : _ ∧ _ := List.cons.inj (List.cons.inj hks').2
    obtain rfl : [114] = command := by simpa using hcommand
    exact ⟨by decide, fun rule hrule => nomatch hrule⟩
  | _ :: _ :: before, hks' =>
    have hlength := congrArg List.length hks'
    simp [threeRules] at hlength

/-- `k` waits for a second chord, since the last rule has two, and `k c` then runs the first rule; yet no keybinding is
shown for its command, since the second rule has taken it out. -/
theorem dispatched_not_shown :
    (create (fun _ => none) noConstants threeRules []).resolve literals (fun _ => .undefined) [] [107] =
        .moreChordsNeeded ∧
      (create (fun _ => none) noConstants threeRules []).resolve literals (fun _ => .undefined) [[107]] [99] =
        .kbFound { id := 0, chords := [[107], [99]], command := some [99], whenExpr := none } ∧
      (create (fun _ => none) noConstants threeRules []).lookupKeybindings [99] = [] :=
  ⟨rfl, rfl, rfl⟩

/-- Where conditions are told apart, commands are not empty and no rule has some of the chords of another only, every rule
that is dispatched is shown. -/
theorem shown_of_dispatched (hsame : Identified (defaultKeybindings ++ overrides))
    (htells : ContextKeyExpr.TellsApart toNumber (conditionAtoms (defaultKeybindings ++ overrides)) (conditionAtoms (defaultKeybindings ++ overrides)))
    (hcommands : ∀ rule ∈ defaultKeybindings ++ overrides, rule.command ≠ some [])
    (hchords : ∀ rule ∈ defaultKeybindings ++ overrides, ∀ rule' ∈ defaultKeybindings ++ overrides, rule.chords <+: rule'.chords → rule.chords ≠ [] → rule.chords = rule'.chords)
    {currentChords : List JsString} {keypress : JsString}
    (hfound : (create toNumber constants defaultKeybindings overrides).resolve language context currentChords keypress = .kbFound item)
    (hcommand : item.command = some command) :
    item ∈ (create toNumber constants defaultKeybindings overrides).lookupKeybindings command := by
  obtain ⟨-, before, later, hks, hlast⟩ := (resolve_eq_kbFound_iff (holds_create hsame)).mp hfound
  have hbound : ∀ rule ∈ item :: later, rule ∈ boundKeybindings constants defaultKeybindings overrides := by
    intro rule hrule
    rw [hks]
    exact mem_append_right _ hrule
  have hitem := mem_boundKeybindings (hbound item mem_cons_self)
  refine (mem_lookupKeybindings_of_last hsame hks hcommand hlast).mpr
    ⟨fun hnil => hcommands item hitem.1 (by rw [hcommand, hnil]), fun rule hrule _ hwhen => ?_⟩
  have hrule' := mem_boundKeybindings (hbound rule (mem_cons_of_mem _ hrule))
  constructor
  · rintro ⟨hstarts, hlength⟩
    rw [hchords rule hrule'.1 item hitem.1 hstarts hrule'.2] at hlength
    omega
  · rintro ⟨-, hfalse⟩
    rw [contextMatchesRules_of_included htells hitem.1 hrule'.1 hwhen hlast.1] at hfalse
    cases hfalse

/-- `k c` for three commands: the rule for `x` takes out the one for `x && y`, and is not taken out by the one for `y`. -/
theorem shown_of_dispatched_chords :
    let item : ResolvedKeybindingItem := ⟨1, [[107], [99]], some [99], some (.defined [120]), true⟩
    let rules : List ResolvedKeybindingItem :=
      [⟨0, [[107], [99]], some [114], some (.and [.defined [120], .defined [121]]), true⟩, item,
        ⟨2, [[107], [99]], some [105], some (.defined [121]), true⟩]
    item ∈ (create (fun _ => none) noConstants rules []).lookupKeybindings [99] := by
  intro item rules
  have hsame : Identified (rules ++ []) := identified_of_nodup (by decide)
  have htells : ContextKeyExpr.TellsApart (fun _ => none) (conditionAtoms (rules ++ [])) (conditionAtoms (rules ++ [])) := by
    have hatoms : ∀ p ∈ conditionAtoms (rules ++ []), p = .defined [120] ∨ p = .defined [121] := by
      simp [rules, item, conditionAtoms, ContextKeyExpr.atoms, ContextKeyExpr.atomsAll]
    intro p hp q hq
    rcases hatoms p hp with rfl | rfl <;> rcases hatoms q hq with rfl | rfl
    · exact fun _ => rfl
    · exact fun h => absurd h (by decide)
    · exact fun h => absurd h (by decide)
    · exact fun _ => rfl
  -- `x` is set and `y` is not
  have hfound : (create (fun _ => none) noConstants rules []).resolve literals
      (fun key => if key = [120] then .number 1 else .undefined) [[107]] [99] = .kbFound item := by
    refine (resolve_eq_kbFound_iff (holds_create hsame)).mpr ⟨rfl, rules.take 1, rules.drop 2, rfl, by decide, ?_⟩
    intro rule hrule _
    rw [mem_singleton.mp hrule]
    decide
  exact shown_of_dispatched hsame htells (by decide) (by decide) hfound rfl

end Create

end Resolve

end KeybindingResolver

end TongjiCode.Keybinding
