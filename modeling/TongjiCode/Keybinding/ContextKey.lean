import TongjiCode.Base.JsString

/-!
# Context key expressions

The expressions of `contextkey.ts`: how they are evaluated, compared and ordered, and `implies`.

What the language does with the values of a context is a parameter, and so is how a string is read as a number; the
expressions only pass values on.
-/

namespace TongjiCode.Keybinding

/-- A regular expression as far as the code reads it.  With the flag `g` or `y`, which the parser removes, it would keep a
position from one `test` to the next. -/
structure Regexp where
  source : JsString
  flags : JsString
  stateless : 103 ∉ flags ∧ 121 ∉ flags
deriving DecidableEq

/-- The value of an expression.  A boolean makes another kind of expression. -/
inductive Literal where
  | string (s : JsString)
  | number (n : Rat)
  | null
  | undefined
deriving DecidableEq

inductive Comparison where
  | greater
  | greaterEquals
  | smaller
  | smallerEquals
deriving DecidableEq

inductive ContextKeyExpr where
  | falseExpr
  | trueExpr
  | defined (key : JsString)
  | not (key : JsString)
  | equals (key : JsString) (value : Literal)
  | notEquals (key : JsString) (value : Literal)
  | and (expr : List ContextKeyExpr)
  | regex (key : JsString) (regexp : Option Regexp)
  | notRegex (key : JsString) (regexp : Option Regexp)
  | or (expr : List ContextKeyExpr)
  | isIn (key valueKey : JsString)
  | notIn (key valueKey : JsString)
  | comparison (comparison : Comparison) (key : JsString) (value : Literal)

/-- What the language does with the values of a context. -/
structure Language (V : Type) where
  truthy : V → Bool
  looselyEquals : V → Literal → Bool
  includes : V → V → Bool
  /-- `parseFloat`; `none` is not a number. -/
  parseFloat : V → Option Rat
  test : Regexp → V → Bool

namespace ContextKeyExpr

def type : ContextKeyExpr → Nat
  | falseExpr => 0
  | trueExpr => 1
  | defined _ => 2
  | not _ => 3
  | equals .. => 4
  | notEquals .. => 5
  | and _ => 6
  | regex .. => 7
  | notRegex .. => 8
  | or _ => 9
  | isIn .. => 10
  | notIn .. => 11
  | comparison .greater .. => 12
  | comparison .greaterEquals .. => 13
  | comparison .smaller .. => 14
  | comparison .smallerEquals .. => 15

/-! ## Evaluation -/

section Evaluate

variable {V : Type} (language : Language V) (context : JsString → V)

def evaluateComparison (comparison : Comparison) (key : JsString) : Literal → Bool
  | .number value =>
    match language.parseFloat (context key) with
    | some x =>
      match comparison with
      | .greater => decide (value < x)
      | .greaterEquals => decide (value ≤ x)
      | .smaller => decide (x < value)
      | .smallerEquals => decide (x ≤ value)
    | none => false
  | _ => false

def evaluateRegex (key : JsString) : Option Regexp → Bool
  | some regexp => language.test regexp (context key)
  | none => false

mutual

def evaluate : ContextKeyExpr → Bool
  | falseExpr => false
  | trueExpr => true
  | defined key => language.truthy (context key)
  | not key => !language.truthy (context key)
  | equals key value => language.looselyEquals (context key) value
  | notEquals key value => !language.looselyEquals (context key) value
  | and expr => evaluateAll expr
  | regex key regexp => evaluateRegex language context key regexp
  | notRegex key regexp => !evaluateRegex language context key regexp
  | or expr => evaluateAny expr
  | isIn key valueKey => language.includes (context valueKey) (context key)
  | notIn key valueKey => !language.includes (context valueKey) (context key)
  | comparison c key value => evaluateComparison language context c key value

def evaluateAll : List ContextKeyExpr → Bool
  | [] => true
  | e :: expr => evaluate e && evaluateAll expr

def evaluateAny : List ContextKeyExpr → Bool
  | [] => false
  | e :: expr => evaluate e || evaluateAny expr

end

end Evaluate

/-! ## Order and equality -/

section Order

variable (toNumber : JsString → Option Rat)

/-- The number that a value is compared as. -/
def numberOf : Literal → Option Rat
  | .string s => toNumber s
  | .number n => some n
  | .null => some 0
  | .undefined => none

/-- `value1 < value2`. -/
def less : Literal → Literal → Bool
  | .string s, .string t => decide (s < t)
  | value1, value2 =>
    match numberOf toNumber value1, numberOf toNumber value2 with
    | some x, some y => decide (x < y)
    | _, _ => false

def cmp1 (key1 key2 : JsString) : Int :=
  if key1 < key2 then -1 else if key2 < key1 then 1 else 0

def cmp2 (key1 : JsString) (value1 : Literal) (key2 : JsString) (value2 : Literal) : Int :=
  if key1 < key2 then -1 else if key2 < key1 then 1
  else if less toNumber value1 value2 then -1 else if less toNumber value2 value1 then 1 else 0

/-- The text that a regular expression is compared by. -/
def regexpSource : Option Regexp → JsString
  | some regexp => regexp.source
  | none => []

def cmpRegex (key1 : JsString) (regexp1 : Option Regexp) (key2 : JsString) (regexp2 : Option Regexp) : Int :=
  if key1 < key2 then -1 else if key2 < key1 then 1 else cmp1 (regexpSource regexp1) (regexpSource regexp2)

mutual

def cmp : ContextKeyExpr → ContextKeyExpr → Int
  | defined key1, defined key2 => cmp1 key1 key2
  | not key1, not key2 => cmp1 key1 key2
  | equals key1 value1, equals key2 value2 => cmp2 toNumber key1 value1 key2 value2
  | notEquals key1 value1, notEquals key2 value2 => cmp2 toNumber key1 value1 key2 value2
  | and expr1, and expr2 =>
    if expr1.length < expr2.length then -1 else if expr2.length < expr1.length then 1 else cmpAll expr1 expr2
  | regex key1 regexp1, regex key2 regexp2 => cmpRegex key1 regexp1 key2 regexp2
  | notRegex key1 regexp1, notRegex key2 regexp2 => cmpRegex key1 regexp1 key2 regexp2
  | or expr1, or expr2 =>
    if expr1.length < expr2.length then -1 else if expr2.length < expr1.length then 1 else cmpAll expr1 expr2
  | isIn key1 valueKey1, isIn key2 valueKey2 => cmp2 toNumber key1 (.string valueKey1) key2 (.string valueKey2)
  | notIn key1 valueKey1, notIn key2 valueKey2 => cmp2 toNumber key1 (.string valueKey1) key2 (.string valueKey2)
  | comparison c1 key1 value1, comparison c2 key2 value2 =>
    if c1 = c2 then cmp2 toNumber key1 value1 key2 value2
    else (comparison c1 key1 value1).type - (comparison c2 key2 value2).type
  | p, q => p.type - q.type

/-- The loop over the parts. -/
def cmpAll : List ContextKeyExpr → List ContextKeyExpr → Int
  | e1 :: expr1, e2 :: expr2 => if cmp e1 e2 ≠ 0 then cmp e1 e2 else cmpAll expr1 expr2
  | _, _ => 0

end

mutual

def isEqual : ContextKeyExpr → ContextKeyExpr → Bool
  | falseExpr, falseExpr => true
  | trueExpr, trueExpr => true
  | defined key1, defined key2 => key1 = key2
  | not key1, not key2 => key1 = key2
  | equals key1 value1, equals key2 value2 => key1 = key2 && value1 = value2
  | notEquals key1 value1, notEquals key2 value2 => key1 = key2 && value1 = value2
  | and expr1, and expr2 => expr1.length = expr2.length && allEqual expr1 expr2
  | regex key1 regexp1, regex key2 regexp2 => key1 = key2 && regexpSource regexp1 = regexpSource regexp2
  | notRegex key1 regexp1, notRegex key2 regexp2 => key1 = key2 && regexpSource regexp1 = regexpSource regexp2
  | or expr1, or expr2 => expr1.length = expr2.length && allEqual expr1 expr2
  | isIn key1 valueKey1, isIn key2 valueKey2 => key1 = key2 && valueKey1 = valueKey2
  | notIn key1 valueKey1, notIn key2 valueKey2 => key1 = key2 && valueKey1 = valueKey2
  | comparison c1 key1 value1, comparison c2 key2 value2 => c1 = c2 && key1 = key2 && value1 = value2
  | _, _ => false

/-- The loop over the parts. -/
def allEqual : List ContextKeyExpr → List ContextKeyExpr → Bool
  | e1 :: expr1, e2 :: expr2 => isEqual e1 e2 && allEqual expr1 expr2
  | _, _ => true

end

def allElementsIncluded : List ContextKeyExpr → List ContextKeyExpr → Bool
  | [], _ => true
  | _ :: _, [] => false
  | e :: p, f :: q =>
    if cmp toNumber e f < 0 then false
    else if cmp toNumber e f = 0 then allElementsIncluded p q
    else allElementsIncluded (e :: p) q

def implies (p q : ContextKeyExpr) : Bool :=
  match p, q with
  | falseExpr, _ => true
  | _, trueExpr => true
  | or expr1, or expr2 => allElementsIncluded toNumber expr1 expr2
  | or _, _ => false
  | p, or expr2 => expr2.attach.any fun element => implies p element.1
  | and expr1, and expr2 => allElementsIncluded toNumber expr2 expr1
  | and expr1, q => expr1.attach.any fun element => implies element.1 q
  | p, q => isEqual p q
termination_by sizeOf p + sizeOf q
decreasing_by
  all_goals
    have := List.sizeOf_lt_of_mem element.2
    simp
    omega

end Order

end ContextKeyExpr

end TongjiCode.Keybinding
