import TongjiCode.Keybinding.Scanner

/-!
# What the scanner reads at a position

The lexical grammar of when clauses, as a function of the input alone: the longest operator, a quoted string to its closing
quote, a regular expression with its flags, or a run of word characters.  `scanStep` emits exactly the lexeme that stands at
its position, passes a whitespace character, and leaves any other character behind without a token (`scanStep_token`,
`scanStep_whitespace`, `scanStep_unsupported`).
-/

open List

namespace TongjiCode.Keybinding

open Scanner

/-! ## Lexical grammar -/

/-- The operators.  A lone `=`, `&` or `|` is read as one, and reported. -/
def operators : List String :=
  ["(", ")", "!", "!=", "!==", "=", "==", "===", "=~", "<", "<=", ">", ">=", "&", "&&", "|", "||"]

/-- The length of the longest operator that begins the text; 0 if there is none. -/
def operatorLength (text : JsString) : Nat :=
  (operators.map fun op => if (ascii op).isPrefixOf text then (ascii op).length else 0).foldr max 0

/-- The end of the string that is opened before `p`: behind its closing quote, or the end of the input. -/
def quoteEnd (input : JsString) (p : Nat) : Nat :=
  min (p + ((input.drop p).takeWhile (· ≠ CharCode.singleQuote)).length + 1) input.length

/-- The end of the regular expression that is opened before `p`, its flags included. -/
def regexEnd (input : JsString) (p : Nat) : Nat :=
  match regexLoop input (input.length - p) p false false with
  | (p, false) => p
  | (p, true) => regexFlagsLoop input (input.length - p) p

def lexemeEnd (isLetter : Nat → Bool) (input : JsString) (i : Nat) : Option Nat :=
  if 0 < operatorLength (input.drop i) then some (i + operatorLength (input.drop i))
  else if input[i]? = some CharCode.singleQuote then some (quoteEnd input (i + 1))
  else if input[i]? = some CharCode.slash then some (regexEnd input (i + 1))
  else (stringReExec isLetter input i).map fun found => i + found.length

/-! ## Spans of tokens -/

namespace TokenTypeWithoutLexeme

def width : TokenTypeWithoutLexeme → Nat
  | lParen | rParen | neg | lt | gt => 1
  | ltEq | gtEq | regexOp | and | or | inOp => 2
  | notOp => 3
  | true => 4
  | false => 5
  | eof => 0

end TokenTypeWithoutLexeme

namespace Token

/-- The first character of the token; the offset of a quoted string is that of its text. -/
def spanStart : Token → Nat
  | plain _ offset | eq offset _ | notEq offset _ | regexStr offset _ | str offset _ | error offset _ => offset
  | quotedStr offset _ => offset - 1

/-- How many characters of the input the token takes. -/
def spanLength : Token → Nat
  | plain type _ => type.width
  | eq _ isTripleEq | notEq _ isTripleEq => if isTripleEq then 3 else 2
  | regexStr _ lexeme | str _ lexeme | error _ lexeme => lexeme.length
  | quotedStr _ lexeme => lexeme.length + 2

def covers (t : Token) (i : Nat) : Bool := t.spanStart ≤ i && i < t.spanStart + t.spanLength

def isError : Token → Bool
  | error _ _ => true
  | _ => false

end Token

def LexingError.token (e : LexingError) : Token := .error e.offset e.lexeme

/-! ## Operators -/

variable {c : UInt16}

theorem operatorLength_other (rest : JsString) (h : c ∉ ascii "()!=<>&|") :
    operatorLength (c :: rest) = 0 := by
  have hc : c ≠ 40 ∧ c ≠ 41 ∧ c ≠ 33 ∧ c ≠ 61 ∧ c ≠ 60 ∧ c ≠ 62 ∧ c ≠ 38 ∧ c ≠ 124 := by
    simpa [ascii] using h
  obtain ⟨h1, h2, h3, h4, h5, h6, h7, h8⟩ := hc
  simp [operatorLength, operators, ascii, h1.symm, h2.symm, h3.symm, h4.symm, h5.symm, h6.symm, h7.symm, h8.symm]

theorem operatorLength_paren (rest : JsString) (h : c = 40 ∨ c = 41) : operatorLength (c :: rest) = 1 := by
  rcases h with rfl | rfl <;> simp [operatorLength, operators, ascii]

theorem operatorLength_exclamationMark (rest : JsString) :
    operatorLength (33 :: rest) = if rest[0]? = some 61 then if rest[1]? = some 61 then 3 else 2 else 1 := by
  rcases rest with _ | ⟨a, _ | ⟨b, rest⟩⟩
  · decide
  · by_cases ha : a = 61
    · subst ha
      decide
    · simp [operatorLength, operators, ascii, ha, Ne.symm ha]
  · by_cases ha : a = 61
    · subst ha
      by_cases hb : b = 61
      · subst hb
        simp [operatorLength, operators, ascii]
      · simp [operatorLength, operators, ascii, hb, Ne.symm hb]
    · simp [operatorLength, operators, ascii, ha, Ne.symm ha]

theorem operatorLength_equals (rest : JsString) :
    operatorLength (61 :: rest) =
      if rest[0]? = some 61 then if rest[1]? = some 61 then 3 else 2 else if rest[0]? = some 126 then 2 else 1 := by
  rcases rest with _ | ⟨a, _ | ⟨b, rest⟩⟩
  · decide
  · by_cases ha : a = 61
    · subst ha
      decide
    · by_cases ha' : a = 126
      · subst ha'
        decide
      · simp [operatorLength, operators, ascii, ha, Ne.symm ha, ha', Ne.symm ha']
  · by_cases ha : a = 61
    · subst ha
      by_cases hb : b = 61
      · subst hb
        simp [operatorLength, operators, ascii]
      · simp [operatorLength, operators, ascii, hb, Ne.symm hb]
    · by_cases ha' : a = 126
      · subst ha'
        simp [operatorLength, operators, ascii]
      · simp [operatorLength, operators, ascii, ha, Ne.symm ha, ha', Ne.symm ha']

theorem operatorLength_two (second : UInt16) (rest : JsString)
    (h : (c, second) ∈ [((60 : UInt16), (61 : UInt16)), (62, 61), (38, 38), (124, 124)]) :
    operatorLength (c :: rest) = if rest[0]? = some second then 2 else 1 := by
  simp only [mem_cons, not_mem_nil, or_false, Prod.mk.injEq] at h
  rcases rest with _ | ⟨a, rest⟩
  · rcases h with ⟨rfl, rfl⟩ | ⟨rfl, rfl⟩ | ⟨rfl, rfl⟩ | ⟨rfl, rfl⟩ <;> decide
  · by_cases ha : a = second
    · subst ha
      rcases h with ⟨rfl, rfl⟩ | ⟨rfl, rfl⟩ | ⟨rfl, rfl⟩ | ⟨rfl, rfl⟩ <;> simp [operatorLength, operators, ascii]
    · rcases h with ⟨rfl, rfl⟩ | ⟨rfl, rfl⟩ | ⟨rfl, rfl⟩ | ⟨rfl, rfl⟩ <;>
        simp [operatorLength, operators, ascii, ha, Ne.symm ha]

theorem operatorLength_pos (rest : JsString) (h : c ∈ ascii "()!=<>&|") :
    0 < operatorLength (c :: rest) := by
  have hcases : c = 40 ∨ c = 41 ∨ c = 33 ∨ c = 61 ∨ c = 60 ∨ c = 62 ∨ c = 38 ∨ c = 124 := by simpa [ascii] using h
  rcases hcases with rfl | rfl | rfl | rfl | rfl | rfl | rfl | rfl
  · rw [operatorLength_paren rest (Or.inl rfl)]
    exact Nat.one_pos
  · rw [operatorLength_paren rest (Or.inr rfl)]
    exact Nat.one_pos
  · rw [operatorLength_exclamationMark]
    split_ifs <;> omega
  · rw [operatorLength_equals]
    split_ifs <;> omega
  · rw [operatorLength_two 61 rest (by decide)]
    split_ifs <;> omega
  · rw [operatorLength_two 61 rest (by decide)]
    split_ifs <;> omega
  · rw [operatorLength_two 38 rest (by decide)]
    split_ifs <;> omega
  · rw [operatorLength_two 124 rest (by decide)]
    split_ifs <;> omega

/-- An operator lies in the text. -/
theorem operatorLength_le (text : JsString) : operatorLength text ≤ text.length := by
  unfold operatorLength
  induction operators with
  | nil => exact Nat.zero_le _
  | cons op ops ih =>
    rw [map_cons, foldr_cons]
    refine Nat.max_le.mpr ⟨?_, ih⟩
    by_cases h : (ascii op).isPrefixOf text = true
    · rw [if_pos h]
      have hbegins := isPrefixOf_iff_prefix.mp h
      exact hbegins.length_le
    · rw [if_neg h]
      exact Nat.zero_le _

/-! ## The loops -/

variable {input : JsString} {i : Nat}

theorem drop_of_getElem? (h : input[i]? = some c) :
    input.drop i = c :: input.drop (i + 1) := by
  obtain ⟨hi, rfl⟩ := List.getElem?_eq_some_iff.mp h
  exact List.drop_eq_getElem_cons hi

theorem codePointAt_width {i cp width : Nat} (h : codePointAt input i = some (cp, width)) :
    0 < width ∧ i + width ≤ input.length := by
  unfold codePointAt at h
  split at h
  · rename_i u v hu hv
    have hlt : i + 1 < input.length := (List.getElem?_eq_some_iff.mp hv).choose
    by_cases hpair : (Utf16.isLead u && Utf16.isTrail v) = true
    · rw [if_pos hpair] at h
      have := (Prod.mk.inj (Option.some.inj h)).right
      omega
    · rw [if_neg hpair] at h
      have := (Prod.mk.inj (Option.some.inj h)).right
      omega
  · rename_i u hu hv
    have hlt : i < input.length := (List.getElem?_eq_some_iff.mp hu).choose
    have := (Prod.mk.inj (Option.some.inj h)).right
    omega
  · cases h

/-- The pattern of names stops in the text. -/
theorem stringReEnd_bounds (isLetter : Nat → Bool) (input : JsString) (fuel i : Nat) (hi : i ≤ input.length) :
    i ≤ stringReEnd isLetter input fuel i ∧ stringReEnd isLetter input fuel i ≤ input.length := by
  induction fuel generalizing i with
  | zero => exact ⟨Nat.le_refl i, hi⟩
  | succ fuel ih =>
    rw [stringReEnd]
    cases hpoint : codePointAt input i with
    | none => exact ⟨Nat.le_refl i, hi⟩
    | some point =>
      obtain ⟨cp, width⟩ := point
      have hwidth := codePointAt_width hpoint
      simp only
      by_cases hclass : stringClass isLetter cp = true
      · rw [if_pos hclass]
        have := ih (i + width) hwidth.right
        omega
      · rw [if_neg hclass]
        exact ⟨Nat.le_refl i, hi⟩

theorem stringReEnd_first {isLetter : Nat → Bool} {fuel i cp width : Nat}
    (hpoint : codePointAt input i = some (cp, width)) (h : i < stringReEnd isLetter input fuel i) :
    i + width ≤ stringReEnd isLetter input fuel i := by
  cases fuel with
  | zero => exact absurd h (Nat.lt_irrefl i)
  | succ fuel =>
    have hwidth := codePointAt_width hpoint
    simp only [stringReEnd, hpoint] at h ⊢
    by_cases hclass : stringClass isLetter cp = true
    · rw [if_pos hclass]
      exact (stringReEnd_bounds isLetter input fuel (i + width) hwidth.right).left
    · rw [if_neg hclass] at h
      omega

theorem inputIndex_cases (input : JsString) (i : Nat) :
    inputIndex input i = i ∨ ∃ cp, inputIndex input i + 1 = i ∧ codePointAt input (inputIndex input i) = some (cp, 2) := by
  unfold inputIndex
  split
  · rename_i i u v hu hv
    by_cases hpair : (Utf16.isLead u && Utf16.isTrail v) = true
    · rw [if_pos hpair]
      refine Or.inr ⟨Utf16.codePoint u v, rfl, ?_⟩
      have hu' : input[i]? = some u := hu
      simp only [codePointAt, hu', hv, if_pos hpair]
    · rw [if_neg hpair]
      exact Or.inl rfl
  · exact Or.inl rfl

/-- A name has a character and lies in the text. -/
theorem stringReExec_bounds {isLetter : Nat → Bool} {found : JsString} (hi : i < input.length)
    (h : stringReExec isLetter input i = some found) :
    0 < found.length ∧ i + found.length ≤ input.length := by
  simp only [stringReExec] at h
  generalize hstop : stringReEnd isLetter input (input.length - inputIndex input i) (inputIndex input i) = stop at h
  have hindex := inputIndex_cases input i
  have hle : inputIndex input i ≤ input.length := by
    rcases hindex with hindex | ⟨cp, hindex, -⟩ <;> omega
  have hbounds := stringReEnd_bounds isLetter input (input.length - inputIndex input i) (inputIndex input i) hle
  by_cases hrun : inputIndex input i < stop
  · rw [if_pos hrun] at h
    obtain rfl := Option.some.inj h
    have hbehind : i < stop := by
      rcases hindex with hindex | ⟨cp, hindex, hpoint⟩
      · omega
      · have := stringReEnd_first hpoint (hstop ▸ hrun)
        omega
    rw [JsString.substring_length (by omega)]
    omega
  · rw [if_neg hrun] at h
    cases h

theorem quoteEnd_bounds {p : Nat} (hp : p ≤ input.length) :
    p ≤ quoteEnd input p ∧ quoteEnd input p ≤ input.length := by
  unfold quoteEnd
  omega

/-- The loop over a regular expression stops in the text. -/
theorem regexLoop_bounds (input : JsString) (fuel p : Nat) (inEscape inCharacterClass : Bool) (hp : p ≤ input.length) :
    p ≤ (regexLoop input fuel p inEscape inCharacterClass).1 ∧
      (regexLoop input fuel p inEscape inCharacterClass).1 ≤ input.length := by
  induction fuel generalizing p inEscape inCharacterClass with
  | zero => exact ⟨Nat.le_refl p, hp⟩
  | succ fuel ih =>
    rw [regexLoop]
    cases hch : input[p]? with
    | none => exact ⟨Nat.le_refl p, hp⟩
    | some ch =>
      have hlt : p < input.length := (List.getElem?_eq_some_iff.mp hch).choose
      have hnext : ∀ inEscape inCharacterClass, p ≤ (regexLoop input fuel (p + 1) inEscape inCharacterClass).1 ∧
          (regexLoop input fuel (p + 1) inEscape inCharacterClass).1 ≤ input.length := by
        intro inEscape inCharacterClass
        have := ih (p + 1) inEscape inCharacterClass hlt
        omega
      simp only
      split_ifs
      · exact hnext _ _
      · exact ⟨Nat.le_succ p, hlt⟩
      · exact hnext _ _
      · exact hnext _ _
      · exact hnext _ _
      · exact hnext _ _

theorem regexFlagsLoop_bounds (input : JsString) (fuel p : Nat) (hp : p ≤ input.length) :
    p ≤ regexFlagsLoop input fuel p ∧ regexFlagsLoop input fuel p ≤ input.length := by
  induction fuel generalizing p with
  | zero => exact ⟨Nat.le_refl p, hp⟩
  | succ fuel ih =>
    rw [regexFlagsLoop]
    cases hch : input[p]? with
    | none => exact ⟨Nat.le_refl p, hp⟩
    | some ch =>
      have hlt : p < input.length := (List.getElem?_eq_some_iff.mp hch).choose
      simp only
      by_cases hflag : ch ∈ regexFlags
      · rw [if_pos hflag]
        have := ih (p + 1) hlt
        omega
      · rw [if_neg hflag]
        exact ⟨Nat.le_refl p, hp⟩

theorem regexEnd_bounds {p : Nat} (hp : p ≤ input.length) :
    p ≤ regexEnd input p ∧ regexEnd input p ≤ input.length := by
  have hbody := regexLoop_bounds input (input.length - p) p false false hp
  unfold regexEnd
  split
  · rename_i q hq
    rw [hq] at hbody
    exact hbody
  · rename_i q hq
    rw [hq] at hbody
    have := regexFlagsLoop_bounds input (input.length - q) q hbody.right
    exact ⟨Nat.le_trans hbody.left this.left, this.right⟩

/-! ## One step of the scanner -/

namespace Scanner

variable {isLetter : Nat → Bool}

/-- The scanner moves on to `stop` and emits one token, which spans what it passes; an `Error` token comes with its error. -/
def Emits (s s' : Scanner) (stop : Nat) : Prop :=
  ∃ t errs, s' = { s with current := stop, tokens := s.tokens ++ [t], errors := s.errors ++ errs } ∧
    t.spanStart = s.start ∧ t.spanStart + t.spanLength = stop ∧ errs.map LexingError.token = [t].filter Token.isError

variable {s : Scanner}

theorem isAtEnd_eq_true : s.isAtEnd = true ↔ s.input[s.current]? = none := by
  simp [isAtEnd]

theorem isAtEnd_eq_false : s.isAtEnd = false ↔ s.current < s.input.length := by
  simp [isAtEnd]

theorem matchUnit_eq (expected : UInt16) (s : Scanner) :
    s.matchUnit expected =
      if s.input[s.current]? = some expected then (true, { s with current := s.current + 1 }) else (false, s) := by
  unfold matchUnit
  by_cases hend : s.isAtEnd = true
  · rw [if_pos hend, isAtEnd_eq_true.mp hend, if_neg (by simp)]
  · rw [if_neg hend, ite_not]

theorem matchUnit_pos {expected : UInt16} (h : s.input[s.current]? = some expected) :
    s.matchUnit expected = (true, { s with current := s.current + 1 }) := by
  rw [matchUnit_eq, if_pos h]

theorem matchUnit_neg {expected : UInt16} (h : s.input[s.current]? ≠ some expected) :
    s.matchUnit expected = (false, s) := by
  rw [matchUnit_eq, if_neg h]

variable {stop : Nat}

/-- A step that adds a token up to `stop`. -/
theorem push_emits {t : Token} (hstart : t.spanStart = s.start) (hstop : t.spanStart + t.spanLength = stop)
    (hplain : t.isError = false) :
    Emits s ({ s with current := stop }.push t) stop :=
  ⟨t, [], by simp [push], hstart, hstop, by simp [hplain]⟩

theorem addToken_emits {type : TokenTypeWithoutLexeme} (hstop : s.start + type.width = stop) :
    Emits s ({ s with current := stop }.addToken type) stop :=
  push_emits rfl hstop rfl

/-- A step that reports what is read so far. -/
theorem error_emits (additional : Option String) (hstart : s.start ≤ stop) (hstop : stop ≤ s.input.length) :
    Emits s ({ s with current := stop }.error additional) stop := by
  refine ⟨.error s.start (s.input.substring s.start stop),
    [⟨s.start, s.input.substring s.start stop, additional⟩], rfl, rfl, ?_, rfl⟩
  show s.start + (s.input.substring s.start stop).length = stop
  rw [JsString.substring_length hstop]
  omega

/-- The loop stops at the next quote or at the end. -/
theorem quotedStringLoop_eq (fuel : Nat) (s : Scanner) (hfuel : s.input.length - s.current ≤ fuel) :
    quotedStringLoop fuel s =
      { s with current := s.current + ((s.input.drop s.current).takeWhile (· ≠ CharCode.singleQuote)).length } := by
  induction fuel generalizing s with
  | zero =>
    have hnil : s.input.drop s.current = [] := drop_eq_nil_of_le (by omega)
    rw [quotedStringLoop, hnil]
    rfl
  | succ fuel ih =>
    rw [quotedStringLoop]
    cases hch : s.input[s.current]? with
    | none =>
      have hend := isAtEnd_eq_true.mpr hch
      rw [if_neg (by simp [hend])]
      have hnil : s.input.drop s.current = [] := drop_eq_nil_of_le (getElem?_eq_none_iff.mp hch)
      rw [hnil]
      rfl
    | some ch =>
      have hlt : s.current < s.input.length := (List.getElem?_eq_some_iff.mp hch).choose
      have hend := isAtEnd_eq_false.mpr hlt
      have hpeek : s.peek = some ch := by rw [peek, if_neg (by simp [hend]), hch]
      rw [hpeek, hend, drop_of_getElem? hch]
      by_cases hquote : ch = CharCode.singleQuote
      · rw [if_neg (by simp [hquote]), takeWhile_cons_of_neg (by simp [hquote])]
        rfl
      · rw [if_pos (by simp [hquote]), ih _ (by simp only [advance]; omega),
          takeWhile_cons_of_pos (by simp [hquote])]
        simp only [advance, length_cons, Scanner.mk.injEq, true_and, and_true]
        omega

/-- A quoted string, or an error where its end is missing, takes all up to `quoteEnd`. -/
theorem quotedString_emits (hstart : s.current = s.start + 1) (hle : s.current ≤ s.input.length) :
    Emits s s.quotedString (quoteEnd s.input s.current) := by
  have hbegins : _ <+: s.input.drop s.current := takeWhile_prefix (· ≠ CharCode.singleQuote)
  have hlength := hbegins.length_le
  rw [length_drop] at hlength
  rw [quotedString, quotedStringLoop_eq _ _ (Nat.le_refl _), quoteEnd]
  generalize ((s.input.drop s.current).takeWhile (· ≠ CharCode.singleQuote)).length = body at hlength ⊢
  by_cases hend : s.current + body < s.input.length
  · simp only [isAtEnd, decide_eq_true_eq, if_neg (Nat.not_le.mpr hend), advance]
    rw [Nat.min_eq_left (by omega)]
    refine push_emits (show s.start + 1 - 1 = s.start by omega) ?_ rfl
    show s.start + 1 - 1 + ((s.input.substring (s.start + 1) (s.current + body + 1 - 1)).length + 2) = _
    rw [JsString.substring_length (by omega)]
    omega
  · have heq : s.current + body = s.input.length := by omega
    simp only [isAtEnd, heq, decide_eq_true_eq, Nat.le_refl, if_true]
    rw [Nat.min_eq_right (by omega)]
    exact error_emits _ (by omega) (Nat.le_refl _)

/-- A regular expression, or an error, takes all up to `regexEnd`. -/
theorem regex_emits (hstart : s.current = s.start + 1) (hle : s.current ≤ s.input.length) :
    Emits s s.regex (regexEnd s.input s.current) := by
  have hbounds := regexEnd_bounds hle
  have hspan : ∀ stop, s.start ≤ stop → stop ≤ s.input.length →
      s.start + (s.input.substring s.start stop).length = stop := by
    intro stop h h'
    rw [JsString.substring_length h']
    omega
  rw [regexEnd] at hbounds ⊢
  rw [regex]
  cases hloop : regexLoop s.input (s.input.length - s.current) s.current false false with
  | mk p closed =>
    rw [hloop] at hbounds
    cases closed with
    | false => exact error_emits _ (by simp only at hbounds; omega) hbounds.right
    | true =>
      simp only at hbounds ⊢
      exact push_emits rfl (hspan _ (by omega) hbounds.right) rfl

theorem keyword_width {lexeme : JsString} {keyword : TokenTypeWithoutLexeme}
    (h : keywords.lookup lexeme = some keyword) : keyword.width = lexeme.length := by
  obtain ⟨before, after, hkeywords, -⟩ := lookup_eq_some_iff.mp h
  have hmem : (lexeme, keyword) ∈ keywords := by simp [hkeywords]
  have hall : ∀ entry ∈ keywords, entry.2.width = entry.1.length := by decide
  exact hall _ hmem

/-- A name or a keyword takes what the pattern finds. -/
theorem string_emits {found : JsString} (hlt : s.start < s.input.length)
    (h : stringReExec isLetter s.input s.start = some found) :
    Emits s (s.string isLetter) (s.start + found.length) := by
  have hbounds := stringReExec_bounds hlt h
  have hlength : (s.input.substring s.start (s.start + found.length)).length = found.length := by
    rw [JsString.substring_length hbounds.right]
    omega
  rw [string, h]
  simp only
  cases hkeyword : keywords.lookup (s.input.substring s.start (s.start + found.length)) with
  | some keyword => exact addToken_emits (by rw [keyword_width hkeyword, hlength])
  | none => exact push_emits rfl (by rw [Token.spanStart, Token.spanLength, hlength]) rfl

theorem second_emits {c second : UInt16} {long : TokenTypeWithoutLexeme} {short : Scanner → Scanner}
    (hstart : s.current = s.start + 1)
    (hpair : (c, second) ∈ [((60 : UInt16), (61 : UInt16)), (62, 61), (38, 38), (124, 124)]) (hlong : long.width = 2)
    (hshort : Emits s (short s) (s.start + 1)) :
    Emits s (match s.matchUnit second with | (true, s) => s.addToken long | (false, s) => short s)
      (s.start + operatorLength (c :: s.input.drop s.current)) := by
  rw [operatorLength_two second _ hpair, getElem?_drop, Nat.add_zero]
  by_cases h : s.input[s.current]? = some second
  · rw [matchUnit_pos h, if_pos h]
    have hwidth : s.start + long.width = s.start + 2 := by rw [hlong]
    exact hstart ▸ addToken_emits hwidth
  · rw [matchUnit_neg h, if_neg h]
    exact hshort

theorem third_emits {token : Nat → Bool → Token} (hstart : s.current = s.start + 2)
    (hspan : ∀ isTripleEq, (token s.start isTripleEq).spanStart = s.start ∧ (token s.start isTripleEq).spanLength = (if isTripleEq then 3 else 2) ∧ (token s.start isTripleEq).isError = false) :
    Emits s (match s.matchUnit 61 with | (isTripleEq, s) => s.push (token s.start isTripleEq))
      (s.start + if s.input[s.current]? = some 61 then 3 else 2) := by
  by_cases h : s.input[s.current]? = some 61
  · rw [matchUnit_pos h, if_pos h, show s.start + 3 = s.current + 1 by omega]
    refine push_emits (hspan true).left ?_ (hspan true).right.right
    rw [(hspan true).left, (hspan true).right.left, hstart]
    rfl
  · rw [matchUnit_neg h, if_neg h, ← hstart]
    refine push_emits (s := s) (hspan false).left ?_ (hspan false).right.right
    rw [(hspan false).left, (hspan false).right.left, hstart]
    rfl

/-- One step reads one operator. -/
theorem operator_emits (hstart : s.current = s.start + 1) (hc : s.input[s.start]? = some c) (hop : c ∈ ascii "()!=<>&|") :
    Emits s (s.scanUnit isLetter (some c)) (s.start + operatorLength (s.input.drop s.start)) := by
  have hlt : s.start < s.input.length := (List.getElem?_eq_some_iff.mp hc).choose
  have hself : { s with current := s.start + 1 } = s := by rw [← hstart]
  have hone : ∀ type : TokenTypeWithoutLexeme, type.width = 1 → Emits s (s.addToken type) (s.start + 1) := by
    intro type htype
    have hemits : Emits s ({ s with current := s.start + 1 }.addToken type) (s.start + 1) :=
      addToken_emits (by rw [htype])
    exact hself ▸ hemits
  have hreported : ∀ additional, Emits s (s.error additional) (s.start + 1) := by
    intro additional
    have hemits : Emits s ({ s with current := s.start + 1 }.error additional) (s.start + 1) :=
      error_emits additional (by omega) hlt
    exact hself ▸ hemits
  -- once the second character is taken, the third is looked at from there
  have hthree : ∀ {stop : Nat} {s' : Scanner}, Emits { s with current := s.current + 1 } s' stop → Emits s s' stop :=
    fun h => h
  have hcases : c = 40 ∨ c = 41 ∨ c = 33 ∨ c = 61 ∨ c = 60 ∨ c = 62 ∨ c = 38 ∨ c = 124 := by simpa [ascii] using hop
  rw [drop_of_getElem? hc, ← hstart]
  rcases hcases with rfl | rfl | rfl | rfl | rfl | rfl | rfl | rfl
  · rw [operatorLength_paren _ (Or.inl rfl)]
    exact hone .lParen rfl
  · rw [operatorLength_paren _ (Or.inr rfl)]
    exact hone _ rfl
  · simp only [operatorLength_exclamationMark, getElem?_drop, Nat.add_zero]
    show Emits s (match s.matchUnit 61 with
      | (true, s) => match s.matchUnit 61 with | (isTripleEq, s) => s.push (.notEq s.start isTripleEq)
      | (false, s) => s.addToken .neg) _
    by_cases h : s.input[s.current]? = some 61
    · rw [matchUnit_pos h, if_pos h]
      exact hthree (third_emits (by simp only; omega) fun isTripleEq => ⟨rfl, rfl, rfl⟩)
    · rw [matchUnit_neg h, if_neg h]
      exact hone _ rfl
  · simp only [operatorLength_equals, getElem?_drop, Nat.add_zero]
    show Emits s (match s.matchUnit 61 with
      | (true, s) => match s.matchUnit 61 with | (isTripleEq, s) => s.push (.eq s.start isTripleEq)
      | (false, s) =>
        match s.matchUnit 126 with
        | (true, s) => s.addToken .regexOp
        | (false, s) => s.error (hintDidYouMean ["==", "=~"])) _
    by_cases h : s.input[s.current]? = some 61
    · rw [matchUnit_pos h, if_pos h]
      exact hthree (third_emits (by simp only; omega) fun isTripleEq => ⟨rfl, rfl, rfl⟩)
    · rw [matchUnit_neg h, if_neg h]
      simp only
      by_cases h' : s.input[s.current]? = some 126
      · rw [matchUnit_pos h', if_pos h']
        have hwidth : s.start + TokenTypeWithoutLexeme.regexOp.width = s.start + 2 := rfl
        exact hstart ▸ addToken_emits hwidth
      · rw [matchUnit_neg h', if_neg h']
        exact hreported _
  · exact second_emits hstart (by decide) rfl (hone .lt rfl)
  · exact second_emits hstart (by decide) rfl (hone .gt rfl)
  · exact second_emits hstart (by decide) rfl (hreported (hintDidYouMean ["&&"]))
  · exact second_emits hstart (by decide) rfl (hreported (hintDidYouMean ["||"]))

theorem scanUnit_other (s : Scanner) (h : c ∉ ascii "()!=<>&|") :
    s.scanUnit isLetter (some c) =
      if c = CharCode.singleQuote then s.quotedString
      else if c = CharCode.slash then s.regex
      else if c ∈ whitespace then s
      else s.string isLetter := by
  have hc : c ≠ 40 ∧ c ≠ 41 ∧ c ≠ 33 ∧ c ≠ 61 ∧ c ≠ 60 ∧ c ≠ 62 ∧ c ≠ 38 ∧ c ≠ 124 := by
    simpa [ascii] using h
  obtain ⟨h1, h2, h3, h4, h5, h6, h7, h8⟩ := hc
  have hblank : (∃ unit ∈ whitespace, c = unit) ↔ c ∈ whitespace := by simp
  simp only [scanUnit, Option.some.injEq, CharCode.openParen, CharCode.closeParen, CharCode.exclamationMark,
    CharCode.equals, CharCode.lessThan, CharCode.greaterThan, CharCode.ampersand, CharCode.pipe, h1, h2, h3, h4, h5, h6,
    h7, h8, if_false, hblank]

/-- One step reads one lexeme. -/
theorem scanUnit_emits (hstart : s.current = s.start + 1) (hc : s.input[s.start]? = some c) (hblank : c ∉ whitespace)
    (hstop : lexemeEnd isLetter s.input s.start = some stop) : Emits s (s.scanUnit isLetter (some c)) stop := by
  have hlt : s.start < s.input.length := (List.getElem?_eq_some_iff.mp hc).choose
  have hdrop := drop_of_getElem? hc
  by_cases hop : c ∈ ascii "()!=<>&|"
  · have hpos := operatorLength_pos (s.input.drop (s.start + 1)) hop
    rw [← hdrop] at hpos
    rw [lexemeEnd, if_pos hpos] at hstop
    obtain rfl := Option.some.inj hstop
    exact operator_emits hstart hc hop
  · have hzero := operatorLength_other (s.input.drop (s.start + 1)) hop
    rw [← hdrop] at hzero
    rw [lexemeEnd, hzero, if_neg (Nat.lt_irrefl 0), hc] at hstop
    simp only [Option.some.injEq] at hstop
    rw [scanUnit_other s hop]
    by_cases hquote : c = CharCode.singleQuote
    · rw [if_pos hquote] at hstop ⊢
      obtain rfl := Option.some.inj hstop
      exact hstart ▸ quotedString_emits hstart (by omega)
    · rw [if_neg hquote] at hstop ⊢
      by_cases hslash : c = CharCode.slash
      · rw [if_pos hslash] at hstop ⊢
        obtain rfl := Option.some.inj hstop
        exact hstart ▸ regex_emits hstart (by omega)
      · rw [if_neg hslash] at hstop ⊢
        rw [if_neg hblank]
        obtain ⟨found, hfound, rfl⟩ := Option.map_eq_some_iff.mp hstop
        exact string_emits hlt hfound

/-- A character that begins no lexeme is passed over. -/
theorem scanUnit_unsupported (hc : s.input[s.start]? = some c) (hnone : lexemeEnd isLetter s.input s.start = none) :
    s.scanUnit isLetter (some c) = s := by
  have hdrop := drop_of_getElem? hc
  by_cases hop : c ∈ ascii "()!=<>&|"
  · have hpos := operatorLength_pos (s.input.drop (s.start + 1)) hop
    rw [← hdrop] at hpos
    rw [lexemeEnd, if_pos hpos] at hnone
    cases hnone
  · rw [lexemeEnd, hc] at hnone
    simp only [Option.some.injEq] at hnone
    rw [scanUnit_other s hop]
    split_ifs at hnone ⊢ with hpos hquote hslash hblank
    · rfl
    · rw [Option.map_eq_none_iff] at hnone
      rw [string, hnone]

/-! ## The three kinds of step -/

section

variable (hc : s.input[s.current]? = some c)
include hc

theorem scanStep_eq :
    s.scanStep isLetter = { s with start := s.current, current := s.current + 1 }.scanUnit isLetter (some c) := by
  simp only [scanStep, advance, hc]

/-- A turn of the loop at a lexeme adds its token. -/
theorem scanStep_token (hblank : c ∉ whitespace) (hstop : lexemeEnd isLetter s.input s.current = some stop) :
    Emits { s with start := s.current } (s.scanStep isLetter) stop := by
  rw [scanStep_eq hc]
  exact scanUnit_emits (s := { s with start := s.current, current := s.current + 1 }) rfl hc hblank hstop

/-- A turn of the loop at a blank goes on behind it. -/
theorem scanStep_whitespace (hblank : c ∈ whitespace) :
    s.scanStep isLetter = { s with start := s.current, current := s.current + 1 } := by
  have hop : c ∉ ascii "()!=<>&|" ∧ c ≠ CharCode.singleQuote ∧ c ≠ CharCode.slash := by
    simp only [whitespace, mem_cons, not_mem_nil, or_false] at hblank
    rcases hblank with rfl | rfl | rfl | rfl | rfl
    · decide
    · decide
    · decide
    · decide
    · decide
  rw [scanStep_eq hc, scanUnit_other _ hop.left, if_neg hop.right.left, if_neg hop.right.right, if_pos hblank]

theorem scanStep_unsupported (hnone : lexemeEnd isLetter s.input s.current = none) :
    s.scanStep isLetter = { s with start := s.current, current := s.current + 1 } := by
  rw [scanStep_eq hc]
  exact scanUnit_unsupported (s := { s with start := s.current, current := s.current + 1 }) hc hnone

end

/-- A lexeme is not empty and lies in the text. -/
theorem lexemeEnd_bounds (hi : i < input.length) (h : lexemeEnd isLetter input i = some stop) :
    i < stop ∧ stop ≤ input.length := by
  have hop := operatorLength_le (input.drop i)
  rw [length_drop] at hop
  unfold lexemeEnd at h
  split_ifs at h
  · obtain rfl := Option.some.inj h
    omega
  · obtain rfl := Option.some.inj h
    exact quoteEnd_bounds hi
  · obtain rfl := Option.some.inj h
    exact regexEnd_bounds hi
  · obtain ⟨found, hfound, rfl⟩ := Option.map_eq_some_iff.mp h
    have := stringReExec_bounds hi hfound
    omega

end Scanner

end TongjiCode.Keybinding
