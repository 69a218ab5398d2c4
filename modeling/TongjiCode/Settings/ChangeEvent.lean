import TongjiCode.Settings.ConfigurationModel

/-!
# Configuration change events

`ConfigurationChangeEvent` of `configurationModels.ts`, asked without overrides.  All affected keys stand in one string,
each between line breaks, and `affectsConfiguration` looks at the first place where a line of this string starts with
the section.  The answer is right exactly when no line that merely starts like the section comes before the ones that
are affected (`affects_iff`).
-/

open List

namespace TongjiCode.Settings

/-! ## The event -/

/-- `IConfigurationChange`. -/
structure ConfigurationChange where
  keys : List JsString
  overrides : List (JsString × List JsString)
deriving DecidableEq, Repr

/-- `Set.add`, in the order of insertion. -/
def addKey (affectedKeys : List JsString) (key : JsString) : List JsString :=
  if key ∈ affectedKeys then affectedKeys else affectedKeys ++ [key]

def ConfigurationChange.affectedKeys (change : ConfigurationChange) : List JsString :=
  change.overrides.foldl (fun affectedKeys override => override.2.foldl addKey affectedKeys)
    (change.keys.foldl addKey [])

def marker : UInt16 := 10

def ConfigurationChange.affectsConfigStr (change : ConfigurationChange) : JsString :=
  change.affectedKeys.foldl (fun affectsConfigStr key => affectsConfigStr ++ (key ++ [marker])) [marker]

/-- `str.indexOf(needle)`, `none` for `-1`. -/
def indexOfText (needle : JsString) : JsString → Option Nat
  | [] => if needle.isEmpty then some 0 else none
  | c :: str => if needle.isPrefixOf (c :: str) then some 0 else (indexOfText needle str).map (· + 1)

/-- What follows the first place of the needle is a marker or a dot. -/
def foundPadded (needle str : JsString) : Bool :=
  match indexOfText needle str with
  | none => false
  | some idx =>
    let pos := idx + needle.length
    match str[pos]? with
    | none => false
    | some code => code = marker || code = 46

def ConfigurationChange.affectsConfiguration (change : ConfigurationChange) (section' : JsString) : Bool :=
  foundPadded (marker :: section') change.affectsConfigStr

/-! ## Sections -/

def Fits (section' key : JsString) : Prop := key = section' ∨ section' ++ [46] <+: key

/-- The line starts with the section and goes on with another character than a dot. -/
def Strays (section' line : JsString) : Prop := section' <+: line ∧ ¬ Fits section' line

instance (section' key : JsString) : Decidable (Fits section' key) := inferInstanceAs (Decidable (_ ∨ _))

def ConfigurationChange.Names (change : ConfigurationChange) (key : JsString) : Prop :=
  key ∈ change.keys ∨ ∃ override ∈ change.overrides, key ∈ override.2

/-- The lines of the affected keys in the order in which they were added. -/
def ConfigurationChange.lines (change : ConfigurationChange) : List JsString :=
  change.affectedKeys.flatMap fun key => key.splitOn marker

theorem mem_addKey (affectedKeys : List JsString) (key key' : JsString) :
    key' ∈ addKey affectedKeys key ↔ key' ∈ affectedKeys ∨ key' = key := by
  rw [addKey]
  split_ifs with h
  · constructor
    · exact .inl
    · rintro (hmem | rfl)
      · exact hmem
      · exact h
  · simp

theorem mem_addKeys (keys affectedKeys : List JsString) (key : JsString) :
    key ∈ keys.foldl addKey affectedKeys ↔ key ∈ affectedKeys ∨ key ∈ keys := by
  induction keys generalizing affectedKeys with
  | nil => simp
  | cons k keys ih =>
    rw [foldl_cons, ih, mem_addKey, mem_cons]
    tauto

theorem mem_affectedKeys (change : ConfigurationChange) (key : JsString) :
    key ∈ change.affectedKeys ↔ change.Names key := by
  have hfold : ∀ (overrides : List (JsString × List JsString)) (affectedKeys : List JsString),
      key ∈ overrides.foldl (fun affectedKeys override => override.2.foldl addKey affectedKeys) affectedKeys ↔
        key ∈ affectedKeys ∨ ∃ override ∈ overrides, key ∈ override.2 := by
    intro overrides
    induction overrides with
    | nil => simp
    | cons override overrides ih =>
      intro affectedKeys
      rw [foldl_cons, ih, mem_addKeys]
      simp only [mem_cons, exists_eq_or_imp]
      tauto
  rw [ConfigurationChange.affectedKeys, hfold, mem_addKeys, ConfigurationChange.Names]
  simp

/-! ## Lines -/

/-- Lines behind each other, a marker before each of them. -/
def marked (lines : List JsString) : JsString := lines.flatMap (marker :: ·)

@[simp] theorem marked_nil : marked [] = [] := rfl

@[simp] theorem marked_cons (line : JsString) (lines : List JsString) :
    marked (line :: lines) = marker :: (line ++ marked lines) := rfl

theorem marked_append (lines lines' : List JsString) : marked (lines ++ lines') = marked lines ++ marked lines' := by
  simp [marked]

theorem marked_splitOn (key : JsString) : marked (key.splitOn marker) = marker :: key := by
  induction key with
  | nil => rfl
  | cons c key ih =>
    rw [List.splitOn, splitOnP_cons_eq_if_modifyHead]
    change marked (if c == marker then [] :: key.splitOn marker else (key.splitOn marker).modifyHead (c :: ·)) = _
    split_ifs with hc
    · rw [marked_cons, ih, eq_of_beq hc]
      rfl
    · cases hlines : key.splitOn marker with
      | nil =>
        rw [hlines] at ih
        cases ih
      | cons line lines =>
        rw [hlines, marked_cons] at ih
        rw [modifyHead_cons, marked_cons, cons_append, tail_eq_of_cons_eq ih]

theorem affectsConfigStr_eq (change : ConfigurationChange) :
    change.affectsConfigStr = marked change.lines ++ [marker] := by
  have hfold : ∀ (keys : List JsString) (str : JsString),
      keys.foldl (fun str key => str ++ (key ++ [marker])) (str ++ [marker]) =
        str ++ marked (keys.flatMap fun key => key.splitOn marker) ++ [marker] := by
    intro keys
    induction keys with
    | nil => simp
    | cons key keys ih =>
      intro str
      have hnext : str ++ [marker] ++ (key ++ [marker]) = (str ++ marker :: key) ++ [marker] := by simp
      rw [foldl_cons, hnext, ih, flatMap_cons, marked_append, marked_splitOn]
      simp
  exact hfold change.affectedKeys []

/-! ## The first line that starts with the section -/

theorem foundPadded_cons {needle : JsString} {c : UInt16} {str : JsString} (h : ¬ needle <+: c :: str) :
    foundPadded needle (c :: str) = foundPadded needle str := by
  have hpre : needle.isPrefixOf (c :: str) = false := by
    rw [← Bool.not_eq_true, isPrefixOf_iff_prefix]
    exact h
  rw [foundPadded, foundPadded, indexOfText, hpre]
  cases indexOfText needle str with
  | none => rfl
  | some idx =>
    simp only [Bool.false_eq_true, if_false, Option.map_some]
    have hpos : idx + 1 + needle.length = idx + needle.length + 1 := by omega
    rw [hpos, getElem?_cons_succ]

theorem foundPadded_skip {section' line str : JsString} (hline : marker ∉ line) :
    foundPadded (marker :: section') (line ++ str) = foundPadded (marker :: section') str := by
  induction line with
  | nil => rfl
  | cons c line ih =>
    rw [mem_cons, not_or] at hline
    rw [cons_append, foundPadded_cons _, ih hline.2]
    intro hpre
    exact hline.1 (cons_prefix_cons.mp hpre).1

theorem section_prefix_line {section' line str : JsString} (hsection : marker ∉ section')
    (hpre : section' <+: line ++ marker :: str) : section' <+: line := by
  rcases prefix_or_prefix_of_prefix hpre (prefix_append line _) with h | h
  · exact h
  · obtain ⟨rest, rfl⟩ := h
    rw [prefix_append_right_inj] at hpre
    cases rest with
    | nil => simp
    | cons c rest =>
      have hc := (cons_prefix_cons.mp hpre).1
      exact absurd (by simp [hc]) hsection

theorem foundPadded_hit {section' line : JsString} (hpre : section' <+: line) (hline : marker ∉ line) (str : JsString) :
    foundPadded (marker :: section') (marker :: (line ++ marker :: str)) = decide (Fits section' line) := by
  obtain ⟨rest, rfl⟩ := hpre
  have hneedle : (marker :: section').isPrefixOf (marker :: (section' ++ rest ++ marker :: str)) = true := by
    refine isPrefixOf_iff_prefix.mpr (cons_prefix_cons.mpr ⟨rfl, ?_⟩)
    rw [append_assoc]
    exact prefix_append _ _
  rw [foundPadded, indexOfText, hneedle]
  cases rest with
  | nil => simp [Fits]
  | cons c rest =>
    have hfits : Fits section' (section' ++ c :: rest) ↔ c = 46 := by
      rw [Fits, prefix_append_right_inj, cons_prefix_cons]
      constructor
      · rintro (heq | ⟨hc, -⟩)
        · exact absurd (append_right_eq_self.mp heq) (by simp)
        · exact hc.symm
      · rintro rfl
        exact .inr ⟨rfl, nil_prefix⟩
    have hc : c ≠ marker := by
      rintro rfl
      exact hline (by simp)
    simp [hfits, hc]

/-- The first line that starts with the section has the property `P`. -/
def Leads (section' : JsString) (P : JsString → Prop) (lines : List JsString) : Prop :=
  ∃ before line behind, lines = before ++ line :: behind ∧ (∀ l ∈ before, ¬ section' <+: l) ∧ section' <+: line ∧ P line

theorem foundPadded_marked {section' : JsString} (hsection : marker ∉ section') (hne : section' ≠ [])
    {lines : List JsString} (hlines : ∀ line ∈ lines, marker ∉ line) :
    foundPadded (marker :: section') (marked lines ++ [marker]) = true ↔ Leads section' (Fits section') lines := by
  induction lines with
  | nil =>
    have hend : foundPadded (marker :: section') [marker] = false := by
      cases section' with
      | nil => exact absurd rfl hne
      | cons c section' => simp [foundPadded, indexOfText, List.isPrefixOf]
    rw [marked_nil, nil_append, hend]
    constructor
    · intro hfalse
      cases hfalse
    · rintro ⟨before, line, behind, hsplit, -⟩
      simp at hsplit
  | cons line lines ih =>
    have hline := hlines line mem_cons_self
    obtain ⟨str, hstr⟩ : ∃ str, marked lines ++ [marker] = marker :: str := by
      cases lines with
      | nil => exact ⟨[], rfl⟩
      | cons line' lines => exact ⟨_, rfl⟩
    have hwhole : marked (line :: lines) ++ [marker] = marker :: (line ++ (marked lines ++ [marker])) := by simp
    rw [hwhole]
    by_cases hpre : section' <+: line
    · rw [hstr, foundPadded_hit hpre hline, decide_eq_true_iff]
      constructor
      · intro hfits
        exact ⟨[], line, lines, rfl, by simp, hpre, hfits⟩
      · rintro ⟨before, line', behind, hsplit, hbefore, -, hfits⟩
        cases before with
        | nil =>
          rw [nil_append, List.cons.injEq] at hsplit
          rw [hsplit.1]
          exact hfits
        | cons l before =>
          rw [cons_append, List.cons.injEq] at hsplit
          exact absurd (hsplit.1 ▸ hpre) (hbefore l mem_cons_self)
    · have hskip : ¬ marker :: section' <+: marker :: (line ++ (marked lines ++ [marker])) := by
        rw [cons_prefix_cons, hstr]
        rintro ⟨-, hstart⟩
        exact hpre (section_prefix_line hsection hstart)
      rw [foundPadded_cons hskip, foundPadded_skip hline, ih fun l hl => hlines l (mem_cons_of_mem line hl)]
      constructor
      · rintro ⟨before, line', behind, rfl, hbefore, hstart, hfits⟩
        refine ⟨line :: before, line', behind, rfl, ?_, hstart, hfits⟩
        intro l hl
        rw [mem_cons] at hl
        rcases hl with rfl | hl
        · exact hpre
        · exact hbefore l hl
      · rintro ⟨before, line', behind, hsplit, hbefore, hstart, hfits⟩
        cases before with
        | nil =>
          rw [nil_append, List.cons.injEq] at hsplit
          exact absurd (hsplit.1 ▸ hstart) hpre
        | cons l before =>
          rw [cons_append, List.cons.injEq] at hsplit
          exact ⟨before, line', behind, hsplit.2, fun l hl => hbefore l (mem_cons_of_mem _ hl), hstart, hfits⟩

theorem Fits.prefix {section' line : JsString} (h : Fits section' line) : section' <+: line := by
  rcases h with rfl | h
  · exact prefix_rfl
  · exact (prefix_append section' [46]).trans h

theorem leads_cases (section' : JsString) (lines : List JsString) :
    (∀ l ∈ lines, ¬ section' <+: l) ∨ Leads section' (Fits section') lines ∨ Leads section' (Strays section') lines := by
  induction lines with
  | nil => exact .inl (by simp)
  | cons line lines ih =>
    by_cases hpre : section' <+: line
    · right
      by_cases hfits : Fits section' line
      · exact .inl ⟨[], line, lines, rfl, by simp, hpre, hfits⟩
      · exact .inr ⟨[], line, lines, rfl, by simp, hpre, hpre, hfits⟩
    · have hall : ∀ (P : JsString → Prop), Leads section' P lines → Leads section' P (line :: lines) := by
        rintro P ⟨before, line', behind, rfl, hbefore, hline⟩
        refine ⟨line :: before, line', behind, rfl, ?_, hline⟩
        intro l hl
        rw [mem_cons] at hl
        rcases hl with rfl | hl
        · exact hpre
        · exact hbefore l hl
      rcases ih with hnone | hfits | hstrays
      · left
        intro l hl
        rw [mem_cons] at hl
        rcases hl with rfl | hl
        · exact hpre
        · exact hnone l hl
      · exact .inr (.inl (hall _ hfits))
      · exact .inr (.inr (hall _ hstrays))

/-- Where a line has the property `P`, the first line that starts with the section comes before it or is it. -/
theorem Leads.before {section' : JsString} {Q : JsString → Prop} {lines before behind : List JsString} {line : JsString}
    (h : Leads section' Q lines) (hsplit : lines = before ++ line :: behind) (hline : section' <+: line) :
    Q line ∨ ∃ l ∈ before, Q l := by
  obtain ⟨before', line', behind', rfl, hbefore, -, hQ⟩ := h
  rw [append_eq_append_iff] at hsplit
  rcases hsplit with ⟨mid, rfl, hmid⟩ | ⟨mid, rfl, hmid⟩
  · cases mid with
    | nil =>
      rw [nil_append, List.cons.injEq] at hmid
      rw [← hmid.1]
      exact .inl hQ
    | cons l mid =>
      rw [cons_append, List.cons.injEq] at hmid
      rw [hmid.1] at hQ
      exact .inr ⟨l, by simp, hQ⟩
  · cases mid with
    | nil =>
      rw [nil_append, List.cons.injEq] at hmid
      rw [hmid.1]
      exact .inl hQ
    | cons l mid =>
      rw [cons_append, List.cons.injEq] at hmid
      exact absurd (hmid.1 ▸ hline) (hbefore l (by simp))

/-! ## When the answer is right -/

theorem splitOn_append {section' : JsString} (hsection : marker ∉ section') (rest : JsString) :
    (section' ++ rest).splitOn marker = (rest.splitOn marker).modifyHead (section' ++ ·) := by
  induction section' with
  | nil =>
    show rest.splitOn marker = _
    cases rest.splitOn marker <;> rfl
  | cons c section' ih =>
    rw [mem_cons, not_or] at hsection
    rw [cons_append, List.splitOn, splitOnP_cons_eq_if_modifyHead]
    change (if c == marker then [] :: (section' ++ rest).splitOn marker
      else ((section' ++ rest).splitOn marker).modifyHead (c :: ·)) = _
    rw [if_neg (by simpa using Ne.symm hsection.1), ih hsection.2, modifyHead_modifyHead]
    rfl

theorem Fits.line {section' key : JsString} (h : Fits section' key) (hsection : marker ∉ section') :
    ∃ line ∈ key.splitOn marker, Fits section' line := by
  obtain ⟨rest, rfl⟩ := h.prefix
  rw [splitOn_append hsection]
  cases hlines : rest.splitOn marker with
  | nil =>
    have := marked_splitOn rest
    rw [hlines] at this
    cases this
  | cons line lines =>
    have hrest := marked_splitOn rest
    rw [hlines, marked_cons] at hrest
    have hrest' := tail_eq_of_cons_eq hrest
    refine ⟨section' ++ line, by simp, ?_⟩
    rcases h with heq | hdot
    · have hnil : rest = [] := append_right_eq_self.mp heq
      rw [hnil, append_eq_nil_iff] at hrest'
      rw [hrest'.1, append_nil]
      exact .inl rfl
    · rw [prefix_append_right_inj] at hdot
      obtain ⟨rest', rfl⟩ := hdot
      cases line with
      | nil =>
        cases lines with
        | nil => simp at hrest'
        | cons line' lines =>
          exact absurd (head_eq_of_cons_eq hrest') (by decide)
      | cons c line =>
        have hc : c = 46 := head_eq_of_cons_eq hrest'
        right
        rw [hc, prefix_append_right_inj]
        exact ⟨line, rfl⟩

/-- When a key is affected, no line that strays comes before all lines that fit; when none is, no line that fits comes
before all lines that stray. -/
structure InOrder (change : ConfigurationChange) (section' : JsString) : Prop where
  affected : (∃ key, change.Names key ∧ Fits section' key) → ∀ before line behind,
    change.lines = before ++ line :: behind → Strays section' line → ∃ l ∈ before, Fits section' l
  unaffected : (¬ ∃ key, change.Names key ∧ Fits section' key) → ∀ before line behind,
    change.lines = before ++ line :: behind → Fits section' line → ∃ l ∈ before, Strays section' l

/-- The event says that a section is affected when one of its keys is, exactly for changes in order. -/
theorem affects_iff (change : ConfigurationChange) {section' : JsString} (hne : section' ≠ [])
    (hsection : marker ∉ section') :
    (change.affectsConfiguration section' = true ↔ ∃ key, change.Names key ∧ Fits section' key) ↔
      InOrder change section' := by
  have hlines : ∀ line ∈ change.lines, marker ∉ line := by
    intro line hline
    obtain ⟨key, -, hmem⟩ := mem_flatMap.mp hline
    exact not_mem_of_splitOn marker key line hmem
  have hfound := foundPadded_marked hsection hne hlines
  rw [ConfigurationChange.affectsConfiguration, affectsConfigStr_eq, hfound]
  have hhas : (∃ key, change.Names key ∧ Fits section' key) → ∃ line ∈ change.lines, Fits section' line := by
    rintro ⟨key, hnames, hfits⟩
    obtain ⟨line, hline, hfits'⟩ := hfits.line hsection
    exact ⟨line, mem_flatMap.mpr ⟨key, (mem_affectedKeys change key).mpr hnames, hline⟩, hfits'⟩
  constructor
  · intro h
    constructor
    · intro haffected before line behind hsplit hstrays
      rcases (h.mpr haffected).before hsplit hstrays.1 with hfits | hfits
      · exact absurd hfits hstrays.2
      · exact hfits
    · intro hnone before line behind hsplit hfits
      rcases leads_cases section' change.lines with hno | hleads | hleads
      · exact absurd hfits.prefix (hno line (by rw [hsplit]; simp))
      · exact absurd (h.mp hleads) hnone
      · rcases hleads.before hsplit hfits.prefix with hstrays | hstrays
        · exact absurd hfits hstrays.2
        · exact hstrays
  · rintro ⟨haffected, hunaffected⟩
    constructor
    · rintro ⟨before, line, behind, hsplit, hbefore, hpre, hfits⟩
      by_contra hnone
      obtain ⟨l, hl, hstrays⟩ := hunaffected hnone before line behind hsplit hfits
      exact hbefore l hl hstrays.1
    · intro hsome
      obtain ⟨line, hline, hfits⟩ := hhas hsome
      rcases leads_cases section' change.lines with hno | hleads | hleads
      · exact absurd hfits.prefix (hno line hline)
      · exact hleads
      · obtain ⟨before, line', behind, hsplit, hbefore, hpre, hstrays⟩ := hleads
        obtain ⟨l, hl, hfits'⟩ := haffected hsome before line' behind hsplit hstrays
        exact absurd hfits'.prefix (hbefore l hl)

/-- The key `a.b` behind the key `a.bc`. -/
theorem affects_iff_two_keys :
    ([97, 46, 98] : JsString) ≠ [] ∧ marker ∉ ([97, 46, 98] : JsString) ∧
      (((⟨[[97, 46, 98, 99], [97, 46, 98]], []⟩ : ConfigurationChange).affectsConfiguration [97, 46, 98] = true ↔
        ∃ key, (⟨[[97, 46, 98, 99], [97, 46, 98]], []⟩ : ConfigurationChange).Names key ∧ Fits [97, 46, 98] key) ↔
        InOrder ⟨[[97, 46, 98, 99], [97, 46, 98]], []⟩ [97, 46, 98]) :=
  ⟨by decide, by decide, affects_iff _ (by decide) (by decide)⟩

/-- The change of the keys `a.bc` and `a.b` affects `a.b`, and the event says that it does not. -/
theorem not_affects :
    (⟨[[97, 46, 98, 99], [97, 46, 98]], []⟩ : ConfigurationChange).Names [97, 46, 98] ∧
      (⟨[[97, 46, 98, 99], [97, 46, 98]], []⟩ : ConfigurationChange).affectsConfiguration [97, 46, 98] = false :=
  ⟨.inl (by decide), by decide⟩

end TongjiCode.Settings
