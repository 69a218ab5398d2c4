import TongjiCode.Keybinding.Lexemes

/-!
# Scanning a whole text

`scan` always ends with an end-of-input token, and its tokens are ordered and disjoint.  It drops nothing exactly when every
lexeme of the text begins with a character that can begin one: `~` and `{` stand in no token and in no error.

    DropsNothing isLetter input ↔ ∀ i, ¬ Unsupported isLetter input i                    (dropsNothing_iff)
-/

open List

namespace TongjiCode.Keybinding

open Scanner

/-! ## Which positions begin a lexeme -/

/-- From one position of the lexical grammar to the next, past a whitespace character or a lexeme. -/
def Next (isLetter : Nat → Bool) (input : JsString) (i j : Nat) : Prop :=
  ∃ c, input[i]? = some c ∧ (c ∈ whitespace ∧ j = i + 1 ∨ c ∉ whitespace ∧ lexemeEnd isLetter input i = some j)

/-- A character that stands where a lexeme has to begin, and begins none. -/
def Unsupported (isLetter : Nat → Bool) (input : JsString) (i : Nat) : Prop :=
  Relation.ReflTransGen (Next isLetter input) 0 i ∧
    ∃ c, input[i]? = some c ∧ c ∉ whitespace ∧ lexemeEnd isLetter input i = none

variable {isLetter : Nat → Bool} {input : JsString}

theorem Next.lt {i j : Nat} (h : Next isLetter input i j) :
    i < j ∧ j ≤ input.length := by
  obtain ⟨c, hc, h⟩ := h
  have hi : i < input.length := (List.getElem?_eq_some_iff.mp hc).choose
  rcases h with ⟨-, rfl⟩ | ⟨-, h⟩
  · exact ⟨Nat.lt_succ_self i, hi⟩
  · exact lexemeEnd_bounds hi h

theorem Next.unique {i j k : Nat} (h : Next isLetter input i j) (h' : Next isLetter input i k) : j = k := by
  obtain ⟨c, hc, h⟩ := h
  obtain ⟨d, hd, h'⟩ := h'
  obtain rfl := Option.some.inj (hc.symm.trans hd)
  rcases h with ⟨hblank, rfl⟩ | ⟨hblank, h⟩ <;> rcases h' with ⟨hblank', rfl⟩ | ⟨hblank', h'⟩
  · rfl
  · exact absurd hblank hblank'
  · exact absurd hblank' hblank
  · exact Option.some.inj (h.symm.trans h')

theorem le_of_reaches {i j : Nat} (h : Relation.ReflTransGen (Next isLetter input) i j) : i ≤ j := by
  induction h with
  | refl => exact Nat.le_refl i
  | tail _ hnext ih => exact Nat.le_trans ih (Nat.le_of_lt hnext.lt.left)

/-! ## What a scan promises -/

/-- The tokens are ordered, disjoint and inside the input, every character other than whitespace lies in exactly one of them,
the last one is `EOF`, the errors are the `Error` tokens, and a character that begins no lexeme lies in one of these. -/
structure Complete (isLetter : Nat → Bool) (input : JsString) (s : Scanner) : Prop where
  eof : ∃ tokens, s.tokens = tokens ++ [.plain .eof input.length]
  increasing : s.tokens.Pairwise fun t u => t.spanStart < u.spanStart
  disjoint : s.tokens.Pairwise fun t u => t.spanStart + t.spanLength ≤ u.spanStart
  inside : ∀ t ∈ s.tokens, t.spanStart + t.spanLength ≤ input.length
  covered : ∀ i c, input[i]? = some c → c ∉ whitespace → s.tokens.countP (·.covers i) = 1
  errors_eq : s.errors.map LexingError.token = s.tokens.filter Token.isError
  reported : ∀ i, Unsupported isLetter input i → ∃ e ∈ s.errors, e.token ∈ s.tokens ∧ e.token.covers i = true

/-- `scan` terminates, and what it returns is complete. -/
def DropsNothing (isLetter : Nat → Bool) (input : JsString) : Prop :=
  ∃ s, (∀ fuel, input.length < fuel → (reset input).scan isLetter fuel = some s) ∧ Complete isLetter input s

/-! ## The loop -/

/-- The state of the loop: tokens and errors of the characters before `current`. -/
structure Scanned (input : JsString) (s : Scanner) : Prop where
  input_eq : s.input = input
  current_le : s.current ≤ input.length
  disjoint : s.tokens.Pairwise fun t u => t.spanStart + t.spanLength ≤ u.spanStart
  inside : ∀ t ∈ s.tokens, 0 < t.spanLength ∧ t.spanStart + t.spanLength ≤ s.current
  errors_eq : s.errors.map LexingError.token = s.tokens.filter Token.isError

variable {isLetter : Nat → Bool} {input : JsString}

theorem scanned_reset (input : JsString) : Scanned input (reset input) :=
  ⟨rfl, Nat.zero_le _, List.Pairwise.nil, by simp [reset], rfl⟩

variable (isLetter) in
/-- A step passes a character without a token, or emits the lexeme that begins there. -/
theorem scanStep_cases {s : Scanner} (hs : Scanned input s) (hend : s.current < input.length) :
    (∃ c, input[s.current]? = some c ∧ (c ∈ whitespace ∨ lexemeEnd isLetter input s.current = none) ∧
      s.scanStep isLetter = { s with start := s.current, current := s.current + 1 }) ∨
    (∃ c stop, input[s.current]? = some c ∧ c ∉ whitespace ∧ lexemeEnd isLetter input s.current = some stop ∧
      Emits { s with start := s.current } (s.scanStep isLetter) stop) := by
  obtain rfl := hs.input_eq
  have hc := getElem?_eq_getElem hend
  by_cases hblank : s.input[s.current] ∈ whitespace
  · exact Or.inl ⟨_, hc, Or.inl hblank, scanStep_whitespace hc hblank⟩
  · cases hstop : lexemeEnd isLetter s.input s.current with
    | none => exact Or.inl ⟨_, hc, Or.inr rfl, scanStep_unsupported hc hstop⟩
    | some stop => exact Or.inr ⟨_, stop, hc, hblank, rfl, scanStep_token hc hblank hstop⟩

variable (isLetter) in
theorem Scanned.step {s : Scanner} (hs : Scanned input s) (hend : s.current < input.length) :
    Scanned input (s.scanStep isLetter) ∧ s.current < (s.scanStep isLetter).current := by
  rcases scanStep_cases isLetter hs hend with ⟨c, -, -, hstep⟩ | ⟨c, stop, -, -, hstop, hemits⟩
  · rw [hstep]
    refine ⟨⟨hs.input_eq, hend, hs.disjoint, fun t ht => ?_, hs.errors_eq⟩, Nat.lt_succ_self _⟩
    have := hs.inside t ht
    exact ⟨this.left, Nat.le_succ_of_le this.right⟩
  · obtain ⟨t, errs, hstep, hstart, hlength, herrs⟩ := hemits
    have hbounds := lexemeEnd_bounds hend hstop
    have ht : t.spanStart = s.current := hstart
    rw [hstep]
    refine ⟨⟨hs.input_eq, hbounds.right, ?_, ?_, ?_⟩, hbounds.left⟩
    · refine pairwise_append.mpr ⟨hs.disjoint, pairwise_singleton _ _, fun u hu v hv => ?_⟩
      rw [mem_singleton.mp hv, ht]
      exact (hs.inside u hu).right
    · intro u hu
      rcases mem_append.mp hu with hu | hu
      · have := hs.inside u hu
        exact ⟨this.left, Nat.le_trans this.right (Nat.le_of_lt hbounds.left)⟩
      · rw [mem_singleton.mp hu]
        exact ⟨by omega, Nat.le_of_eq hlength⟩
    · rw [map_append, filter_append, hs.errors_eq, herrs]

variable (isLetter) in
/-- What every step keeps holds when the loop ends, and the loop ends. -/
theorem scanLoop_run {P : Scanner → Prop}
    (hstep : ∀ s, Scanned input s → s.current < input.length → P s → P (s.scanStep isLetter)) (s : Scanner)
    (hs : Scanned input s) (hP : P s) :
    ∃ s', (∀ fuel, input.length - s.current < fuel → scanLoop isLetter fuel s = some s') ∧
      Scanned input s' ∧ s'.current = input.length ∧ P s' := by
  induction hn : input.length - s.current using Nat.strongRecOn generalizing s with
  | _ n ih =>
    obtain rfl := hs.input_eq
    by_cases hend : s.current < s.input.length
    · have hnext := hs.step isLetter hend
      obtain ⟨s', hloop, hs', hcurrent, hP'⟩ := ih _ (by omega) (s.scanStep isLetter) hnext.left (hstep s hs hend hP) rfl
      refine ⟨s', fun fuel hfuel => ?_, hs', hcurrent, hP'⟩
      cases fuel with
      | zero => omega
      | succ fuel =>
        rw [scanLoop, isAtEnd_eq_false.mpr hend]
        exact hloop fuel (by omega)
    · refine ⟨s, fun fuel hfuel => ?_, hs, by have := hs.current_le; omega, hP⟩
      cases fuel with
      | zero => omega
      | succ fuel => rw [scanLoop, if_pos (by simpa [isAtEnd] using hend)]

theorem covers_iff {t : Token} {i : Nat} : t.covers i = true ↔ t.spanStart ≤ i ∧ i < t.spanStart + t.spanLength := by
  simp [Token.covers]

/-- While every lexeme that is due begins with a character that can begin one, everything before `current` is covered. -/
theorem covered_step (hsupported : ∀ i, ¬ Unsupported isLetter input i) {s : Scanner} (hs : Scanned input s)
    (hend : s.current < input.length)
    (h : Relation.ReflTransGen (Next isLetter input) 0 s.current ∧ ∀ i c, i < s.current → input[i]? = some c →
      c ∉ whitespace → s.tokens.countP (·.covers i) = 1) :
    Relation.ReflTransGen (Next isLetter input) 0 (s.scanStep isLetter).current ∧
      ∀ i c, i < (s.scanStep isLetter).current → input[i]? = some c → c ∉ whitespace →
        (s.scanStep isLetter).tokens.countP (·.covers i) = 1 := by
  obtain ⟨hreach, hcovered⟩ := h
  rcases scanStep_cases isLetter hs hend with ⟨c, hc, hwhy, hstep⟩ | ⟨c, stop, hc, hblank, hstop, hemits⟩
  · rw [hstep]
    have hblank : c ∈ whitespace := by
      by_contra hblank
      exact hsupported s.current ⟨hreach, c, hc, hblank, hwhy.resolve_left hblank⟩
    refine ⟨hreach.tail ⟨c, hc, Or.inl ⟨hblank, rfl⟩⟩, fun i d hi hd hd' => ?_⟩
    have hne : i ≠ s.current := by
      rintro rfl
      exact hd' (Option.some.inj (hd.symm.trans hc) ▸ hblank)
    exact hcovered i d (by simp only at hi; omega) hd hd'
  · obtain ⟨t, errs, hstep, hstart, hlength, -⟩ := hemits
    have ht : t.spanStart = s.current := hstart
    rw [hstep]
    refine ⟨hreach.tail ⟨c, hc, Or.inr ⟨hblank, hstop⟩⟩, fun i d hi hd hd' => ?_⟩
    show (s.tokens ++ [t]).countP (·.covers i) = 1
    rw [countP_append]
    by_cases hold : i < s.current
    · have hnot : t.covers i = false := by
        rw [Bool.eq_false_iff, Ne, covers_iff]
        omega
      rw [hcovered i d hold hd hd', countP_singleton, hnot]
      rfl
    · have hnone : s.tokens.countP (·.covers i) = 0 := by
        refine countP_eq_zero.mpr fun u hu hcovers => ?_
        have := (hs.inside u hu).right
        rw [covers_iff] at hcovers
        omega
      have hcovers : t.covers i = true := by
        simp only at hi
        rw [covers_iff]
        omega
      rw [hnone, countP_singleton, hcovers]
      rfl

/-- A character that begins no lexeme stays outside of every token, before the scanner gets there and after. -/
theorem dropped_step {i : Nat} (hi : Unsupported isLetter input i) {s : Scanner} (hs : Scanned input s)
    (hend : s.current < input.length)
    (h : Relation.ReflTransGen (Next isLetter input) s.current i ∨ i < s.current ∧ ∀ t ∈ s.tokens, t.covers i = false) :
    Relation.ReflTransGen (Next isLetter input) (s.scanStep isLetter).current i ∨
      i < (s.scanStep isLetter).current ∧ ∀ t ∈ (s.scanStep isLetter).tokens, t.covers i = false := by
  obtain ⟨-, u, hu, hublank, hunone⟩ := hi
  rcases h with hreach | ⟨hlt, hfree⟩
  · rcases Relation.ReflTransGen.cases_head hreach with heq | ⟨j, hnext, hreach'⟩
    · rcases scanStep_cases isLetter hs hend with ⟨c, hc, -, hstep⟩ | ⟨c, stop, hc, hblank, hstop, -⟩
      · rw [hstep]
        refine Or.inr ⟨by simp only; omega, fun t ht => ?_⟩
        have := (hs.inside t ht).right
        rw [Bool.eq_false_iff, Ne, covers_iff]
        omega
      · rw [heq, hunone] at hstop
        cases hstop
    · left
      have hnext' : Next isLetter input s.current (s.scanStep isLetter).current := by
        rcases scanStep_cases isLetter hs hend with ⟨c, hc, hwhy, hstep⟩ | ⟨c, stop, hc, hblank, hstop, hemits⟩
        · obtain ⟨d, hd, hd'⟩ := hnext
          obtain rfl := Option.some.inj (hc.symm.trans hd)
          rcases hd' with ⟨hblank, -⟩ | ⟨hblank, hstop⟩
          · exact ⟨c, hc, Or.inl ⟨hblank, by rw [hstep]⟩⟩
          · rw [hwhy.resolve_left hblank] at hstop
            cases hstop
        · obtain ⟨t, errs, hstep, -⟩ := hemits
          exact ⟨c, hc, Or.inr ⟨hblank, by rw [hstep, hstop]⟩⟩
      rwa [hnext'.unique hnext]
  · have hstepped := hs.step isLetter hend
    refine Or.inr ⟨by omega, fun t ht => ?_⟩
    rcases scanStep_cases isLetter hs hend with ⟨c, hc, -, hstep⟩ | ⟨c, stop, hc, hblank, hstop, hemits⟩
    · rw [hstep] at ht
      exact hfree t ht
    · obtain ⟨t', errs, hstep, hstart, -⟩ := hemits
      rw [hstep] at ht
      rcases mem_append.mp ht with ht | ht
      · exact hfree t ht
      · have ht' : t.spanStart = s.current := by
          rw [mem_singleton.mp ht]
          exact hstart
        rw [Bool.eq_false_iff, Ne, covers_iff]
        omega

/-! ## The whole scan -/

/-- The scanner when `scan` returns. -/
def withEof (s : Scanner) : Scanner := { s with start := s.current }.addToken .eof

theorem Scanned.eof_complete {s : Scanner} (hs : Scanned input s) (hcurrent : s.current = input.length)
    (hsupported : ∀ i, ¬ Unsupported isLetter input i)
    (hcovered : ∀ i c, i < s.current → input[i]? = some c → c ∉ whitespace → s.tokens.countP (·.covers i) = 1) :
    Complete isLetter input (withEof s) where
  eof := ⟨s.tokens, by rw [← hcurrent]; rfl⟩
  increasing := by
    refine pairwise_append.mpr ⟨?_, pairwise_singleton _ _, fun t ht u hu => ?_⟩
    · refine hs.disjoint.imp_of_mem fun ht hu h => ?_
      have := (hs.inside _ ht).left
      omega
    · have := hs.inside t ht
      rw [mem_singleton.mp hu]
      show t.spanStart < s.current
      omega
  disjoint := by
    refine pairwise_append.mpr ⟨hs.disjoint, pairwise_singleton _ _, fun t ht u hu => ?_⟩
    rw [mem_singleton.mp hu]
    exact (hs.inside t ht).right
  inside t ht := by
    rcases mem_append.mp ht with ht | ht
    · rw [← hcurrent]
      exact (hs.inside t ht).right
    · rw [mem_singleton.mp ht]
      exact Nat.le_of_eq hcurrent
  covered i c hc hblank := by
    have hi : i < s.current := hcurrent ▸ (List.getElem?_eq_some_iff.mp hc).choose
    have hnot : (Token.plain .eof s.current).covers i = false := by
      rw [Bool.eq_false_iff, Ne, covers_iff]
      simp only [Token.spanStart, Token.spanLength, TokenTypeWithoutLexeme.width]
      omega
    show (s.tokens ++ [Token.plain .eof s.current]).countP (·.covers i) = 1
    rw [countP_append, hcovered i c hi hc hblank, countP_singleton, hnot]
    rfl
  errors_eq := by
    show s.errors.map LexingError.token = (s.tokens ++ [Token.plain .eof s.current]).filter Token.isError
    rw [filter_append, hs.errors_eq]
    exact (append_nil _).symm
  reported i hi := absurd hi (hsupported i)

theorem scan_eq {s : Scanner} (hloop : ∀ fuel, input.length - (reset input).current < fuel →
    scanLoop isLetter fuel (reset input) = some s) {fuel : Nat} (hfuel : input.length < fuel) :
    (reset input).scan isLetter fuel = some (withEof s) := by
  rw [scan, hloop fuel (by simpa [reset] using hfuel)]
  rfl

theorem dropsNothing_iff (isLetter : Nat → Bool) (input : JsString) :
    DropsNothing isLetter input ↔ ∀ i, ¬ Unsupported isLetter input i := by
  constructor
  · rintro ⟨r, hscan, hcomplete⟩ i hi
    obtain ⟨s, hloop, hs, hcurrent, hdropped⟩ := scanLoop_run isLetter
      (fun s hs hend h => dropped_step hi hs hend h) (reset input) (scanned_reset input) (Or.inl hi.left)
    obtain ⟨c, hc, hblank, -⟩ := hi.right
    have hlt : i < input.length := (List.getElem?_eq_some_iff.mp hc).choose
    obtain rfl := Option.some.inj ((hscan _ (Nat.lt_succ_self _)).symm.trans (scan_eq hloop (Nat.lt_succ_self _)))
    have hfree : ∀ t ∈ s.tokens, t.covers i = false := by
      rcases hdropped with hreach | ⟨-, hfree⟩
      · have := le_of_reaches hreach
        omega
      · exact hfree
    have hone := hcomplete.covered i c hc hblank
    have hnone : (withEof s).tokens.countP (·.covers i) = 0 := by
      refine countP_eq_zero.mpr fun t ht hcovers => ?_
      rcases mem_append.mp ht with ht | ht
      · rw [hfree t ht] at hcovers
        cases hcovers
      · rw [mem_singleton.mp ht, covers_iff] at hcovers
        simp only [Token.spanStart, Token.spanLength, TokenTypeWithoutLexeme.width] at hcovers
        omega
    omega
  · intro hsupported
    obtain ⟨s, hloop, hs, hcurrent, -, hcovered⟩ := scanLoop_run isLetter
      (fun s hs hend h => covered_step hsupported hs hend h) (reset input) (scanned_reset input)
      ⟨Relation.ReflTransGen.refl, fun i c hi => absurd hi (Nat.not_lt_zero i)⟩
    exact ⟨withEof s, fun fuel hfuel => scan_eq hloop hfuel, hs.eof_complete hcurrent hsupported hcovered⟩

def asciiLetter (cp : Nat) : Bool := (97 ≤ cp && cp ≤ 122) || (65 ≤ cp && cp ≤ 90)

/-- The text `~` is scanned to an end of input alone, without an error. -/
theorem not_dropsNothing_tilde : ¬ DropsNothing asciiLetter (ascii "~") := by
  rintro ⟨s, hscan, hcomplete⟩
  have hresult : (reset (ascii "~")).scan asciiLetter 2 = some ⟨ascii "~", 1, 1, [.plain .eof 1], []⟩ := by decide
  obtain rfl := Option.some.inj ((hscan 2 (by decide)).symm.trans hresult)
  have hone := hcomplete.covered 0 CharCode.tilde rfl (by decide)
  exact absurd hone (by decide)

end TongjiCode.Keybinding
