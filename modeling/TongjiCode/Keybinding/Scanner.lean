import TongjiCode.Base.Utf16

/-!
# The when-clause scanner

`Scanner` of `platform/contextkey/common/scanner.ts`: its switch over the first code unit of a token, the loops for quoted
strings and regular expressions, and the sticky Unicode expression for words.

`\p{L}` is the parameter `isLetter`, a predicate on code points.
-/

namespace TongjiCode.Keybinding

open Utf16

/-! ## Characters and texts -/

namespace CharCode

def exclamationMark : UInt16 := 33
def ampersand : UInt16 := 38
def singleQuote : UInt16 := 39
def openParen : UInt16 := 40
def closeParen : UInt16 := 41
def slash : UInt16 := 47
def lessThan : UInt16 := 60
def equals : UInt16 := 61
def greaterThan : UInt16 := 62
def openSquareBracket : UInt16 := 91
def backslash : UInt16 := 92
def closeSquareBracket : UInt16 := 93
def pipe : UInt16 := 124
def tilde : UInt16 := 126

end CharCode

/-- Space, carriage return, tab, line feed and no-break space. -/
def whitespace : List UInt16 := [32, 13, 9, 10, 160]

def ascii (text : String) : JsString := text.toList.map fun c => c.toNat.toUInt16

/-! ## Tokens -/

inductive TokenTypeWithoutLexeme
  | lParen | rParen | neg | lt | ltEq | gt | gtEq | regexOp | true | false | inOp | notOp | and | or | eof
  deriving DecidableEq

inductive Token
  | plain (type : TokenTypeWithoutLexeme) (offset : Nat)
  | eq (offset : Nat) (isTripleEq : Bool)
  | notEq (offset : Nat) (isTripleEq : Bool)
  | regexStr (offset : Nat) (lexeme : JsString)
  | str (offset : Nat) (lexeme : JsString)
  | quotedStr (offset : Nat) (lexeme : JsString)
  | error (offset : Nat) (lexeme : JsString)
  deriving DecidableEq

structure LexingError where
  offset : Nat
  lexeme : JsString
  additionalInfo : Option String
  deriving DecidableEq

def hintDidYouMean : List String → Option String
  | [a] => some ("Did you mean " ++ a ++ "?")
  | [a, b] => some ("Did you mean " ++ a ++ " or " ++ b ++ "?")
  | [a, b, c] => some ("Did you mean " ++ a ++ ", " ++ b ++ " or " ++ c ++ "?")
  | _ => none

def hintDidYouForgetToOpenOrCloseQuote : String := "Did you forget to open or close the quote?"

def hintDidYouForgetToEscapeSlash : String :=
  "Did you forget to escape the '/' (slash) character? Put two backslashes before it to escape, e.g., '\\\\/'."

/-! ## The word expression -/

/-- The code point at an index and its number of code units; an unpaired surrogate is a code point. -/
def codePointAt (input : JsString) (i : Nat) : Option (Nat × Nat) :=
  match input[i]?, input[i + 1]? with
  | some u, some v => if isLead u && isTrail v then some (codePoint u v, 2) else some (u.toNat, 1)
  | some u, none => some (u.toNat, 1)
  | none, _ => none

/-- The class of `stringRe`: `[a-zA-Z0-9_<>\-\./\\:\*\?\+\[\]\^,#@;"%\$\p{L}-]`. -/
def stringClass (isLetter : Nat → Bool) (cp : Nat) : Bool :=
  (97 ≤ cp && cp ≤ 122) || (65 ≤ cp && cp ≤ 90) || (48 ≤ cp && cp ≤ 57) ||
    ("_<>-./\\:*?+[]^,#@;\"%$".toList.map Char.toNat).contains cp || isLetter cp

/-- The greedy `+` of `stringRe`: where the run of class members from `i` ends. -/
def stringReEnd (isLetter : Nat → Bool) (input : JsString) : Nat → Nat → Nat
  | 0, i => i
  | fuel + 1, i =>
    match codePointAt input i with
    | some (cp, width) => if stringClass isLetter cp then stringReEnd isLetter input fuel (i + width) else i
    | none => i

/-- With flag `u` matching starts at the code point that contains `lastIndex`. -/
def inputIndex (input : JsString) (lastIndex : Nat) : Nat :=
  match lastIndex, input[lastIndex - 1]?, input[lastIndex]? with
  | i + 1, some u, some v => if isLead u && isTrail v then i else i + 1
  | i, _, _ => i

/-- `stringRe.exec(input)` with flags `uy`: the match is the text between `lastIndex` and the end of the run. -/
def stringReExec (isLetter : Nat → Bool) (input : JsString) (lastIndex : Nat) : Option JsString :=
  let index := inputIndex input lastIndex
  let stop := stringReEnd isLetter input (input.length - index) index
  if index < stop then some (input.substring lastIndex stop) else none

/-! ## Scanner -/

structure Scanner where
  input : JsString
  start : Nat
  current : Nat
  tokens : List Token
  errors : List LexingError
  deriving DecidableEq

namespace Scanner

/-- `new Scanner().reset(value)`. -/
def reset (value : JsString) : Scanner := ⟨value, 0, 0, [], []⟩

def keywords : List (JsString × TokenTypeWithoutLexeme) :=
  [(ascii "not", .notOp), (ascii "in", .inOp), (ascii "false", .false), (ascii "true", .true)]

/-- `i`, `g`, `s`, `m`, `y`, `u`. -/
def regexFlags : List UInt16 := ascii "igsmyu"

def isAtEnd (s : Scanner) : Bool := s.input.length ≤ s.current

def matchUnit (expected : UInt16) (s : Scanner) : Bool × Scanner :=
  if s.isAtEnd then (false, s)
  else if s.input[s.current]? ≠ some expected then (false, s)
  else (true, { s with current := s.current + 1 })

/-- The code unit is `none` where `charCodeAt` returns `NaN`. -/
def advance (s : Scanner) : Option UInt16 × Scanner :=
  (s.input[s.current]?, { s with current := s.current + 1 })

def peek (s : Scanner) : Option UInt16 := if s.isAtEnd then some 0 else s.input[s.current]?

def push (token : Token) (s : Scanner) : Scanner := { s with tokens := s.tokens ++ [token] }

def addToken (type : TokenTypeWithoutLexeme) (s : Scanner) : Scanner := s.push (.plain type s.start)

def error (additional : Option String) (s : Scanner) : Scanner :=
  let lexeme := s.input.substring s.start s.current
  { s with
    errors := s.errors ++ [⟨s.start, lexeme, additional⟩]
    tokens := s.tokens ++ [.error s.start lexeme] }

def string (isLetter : Nat → Bool) (s : Scanner) : Scanner :=
  match stringReExec isLetter s.input s.start with
  | none => s
  | some found =>
    let s := { s with current := s.start + found.length }
    let lexeme := s.input.substring s.start s.current
    match keywords.lookup lexeme with
    | some keyword => s.addToken keyword
    | none => s.push (.str s.start lexeme)

/-- The loop of `_quotedString`, which reads at most the rest of the input. -/
def quotedStringLoop : Nat → Scanner → Scanner
  | 0, s => s
  | fuel + 1, s =>
    if s.peek ≠ some CharCode.singleQuote ∧ s.isAtEnd = false then quotedStringLoop fuel s.advance.2 else s

def quotedString (s : Scanner) : Scanner :=
  let s := quotedStringLoop (s.input.length - s.current) s
  if s.isAtEnd then s.error (some hintDidYouForgetToOpenOrCloseQuote)
  else
    let s := s.advance.2
    s.push (.quotedStr (s.start + 1) (s.input.substring (s.start + 1) (s.current - 1)))

/-- The first loop of `_regex`: where it stops, and whether at the closing slash. -/
def regexLoop (input : JsString) : Nat → Nat → Bool → Bool → Nat × Bool
  | 0, p, _, _ => (p, false)
  | fuel + 1, p, inEscape, inCharacterClass =>
    match input[p]? with
    | none => (p, false)
    | some ch =>
      if inEscape then regexLoop input fuel (p + 1) false inCharacterClass
      else if ch = CharCode.slash ∧ inCharacterClass = false then (p + 1, true)
      else if ch = CharCode.openSquareBracket then regexLoop input fuel (p + 1) inEscape true
      else if ch = CharCode.backslash then regexLoop input fuel (p + 1) true inCharacterClass
      else if ch = CharCode.closeSquareBracket then regexLoop input fuel (p + 1) inEscape false
      else regexLoop input fuel (p + 1) inEscape inCharacterClass

/-- The second loop of `_regex`, over the flags. -/
def regexFlagsLoop (input : JsString) : Nat → Nat → Nat
  | 0, p => p
  | fuel + 1, p =>
    match input[p]? with
    | none => p
    | some ch => if ch ∈ regexFlags then regexFlagsLoop input fuel (p + 1) else p

def regex (s : Scanner) : Scanner :=
  match regexLoop s.input (s.input.length - s.current) s.current false false with
  | (p, false) => { s with current := p }.error (some hintDidYouForgetToEscapeSlash)
  | (p, true) =>
    let p := regexFlagsLoop s.input (s.input.length - p) p
    let s := { s with current := p }
    s.push (.regexStr s.start (s.input.substring s.start s.current))

/-- The switch of `scan` over the code unit that `advance` returned. -/
def scanUnit (isLetter : Nat → Bool) (ch : Option UInt16) (s : Scanner) : Scanner :=
  if ch = some CharCode.openParen then s.addToken .lParen
  else if ch = some CharCode.closeParen then s.addToken .rParen
  else if ch = some CharCode.exclamationMark then
    match s.matchUnit CharCode.equals with
    | (true, s) =>
      let (isTripleEq, s) := s.matchUnit CharCode.equals
      s.push (.notEq s.start isTripleEq)
    | (false, s) => s.addToken .neg
  else if ch = some CharCode.singleQuote then s.quotedString
  else if ch = some CharCode.slash then s.regex
  else if ch = some CharCode.equals then
    match s.matchUnit CharCode.equals with
    | (true, s) =>
      let (isTripleEq, s) := s.matchUnit CharCode.equals
      s.push (.eq s.start isTripleEq)
    | (false, s) =>
      match s.matchUnit CharCode.tilde with
      | (true, s) => s.addToken .regexOp
      | (false, s) => s.error (hintDidYouMean ["==", "=~"])
  else if ch = some CharCode.lessThan then
    match s.matchUnit CharCode.equals with
    | (true, s) => s.addToken .ltEq
    | (false, s) => s.addToken .lt
  else if ch = some CharCode.greaterThan then
    match s.matchUnit CharCode.equals with
    | (true, s) => s.addToken .gtEq
    | (false, s) => s.addToken .gt
  else if ch = some CharCode.ampersand then
    match s.matchUnit CharCode.ampersand with
    | (true, s) => s.addToken .and
    | (false, s) => s.error (hintDidYouMean ["&&"])
  else if ch = some CharCode.pipe then
    match s.matchUnit CharCode.pipe with
    | (true, s) => s.addToken .or
    | (false, s) => s.error (hintDidYouMean ["||"])
  else if ∃ unit ∈ whitespace, ch = some unit then s
  else s.string isLetter

/-- The body of the loop of `scan`. -/
def scanStep (isLetter : Nat → Bool) (s : Scanner) : Scanner :=
  let (ch, s) := { s with start := s.current }.advance
  s.scanUnit isLetter ch

/-- The loop of `scan`; `none` when the fuel does not last to the end of the input. -/
def scanLoop (isLetter : Nat → Bool) : Nat → Scanner → Option Scanner
  | 0, _ => none
  | fuel + 1, s => if s.isAtEnd then some s else scanLoop isLetter fuel (s.scanStep isLetter)

/-- `scan`, which returns a copy of the `tokens` of the scanner it leaves. -/
def scan (isLetter : Nat → Bool) (fuel : Nat) (s : Scanner) : Option Scanner :=
  (scanLoop isLetter fuel s).map fun s => { s with start := s.current }.addToken .eof

end Scanner

end TongjiCode.Keybinding
