import TongjiCode.Keybinding.Implication

/-!
# How expressions are made and negated

The `create` functions of `contextkey.ts`, which keep `&&` and `||` in a normal form, and `negate`.

A node of `&&` or `||` that was made as a negation keeps what it is the negation of.  `create` negates parts to find out
whether they cancel, and `negate` calls `create`: `fuel` bounds how deep this goes, and how often `||` is distributed.  What
is left out when it ends is a simplification.
-/

namespace TongjiCode.Keybinding

namespace ContextKeyExpr

/-- What the `create` functions read besides their arguments. -/
structure Registry where
  /-- `CONSTANT_VALUES`. -/
  constants : JsString → Option Bool
  parseFloat : JsString → Option Rat

/-! ## Terms -/

section Terms

variable (registry : Registry)

def constant (value : Bool) : ContextKeyExpr := if value then trueExpr else falseExpr

def createDefined (key : JsString) : ContextKeyExpr :=
  match registry.constants key with
  | some constantValue => constant constantValue
  | none => defined key

def createNot (key : JsString) : ContextKeyExpr :=
  match registry.constants key with
  | some constantValue => constant !constantValue
  | none => not key

/-- `'true'` or `'false'`. -/
def constantText (constantValue : Bool) : Literal :=
  .string (if constantValue then [116, 114, 117, 101] else [102, 97, 108, 115, 101])

def createEquals (key : JsString) (value : Literal) : ContextKeyExpr :=
  match registry.constants key with
  | some constantValue => constant (value = constantText constantValue)
  | none => equals key value

def createNotEquals (key : JsString) (value : Literal) : ContextKeyExpr :=
  match registry.constants key with
  | some constantValue => constant !(value = constantText constantValue)
  | none => notEquals key value

def withFloatOrStr (value : Literal) (callback : Literal → ContextKeyExpr) : ContextKeyExpr :=
  match value with
  | .string s =>
    match registry.parseFloat s with
    | some n => callback (.number n)
    | none => callback (.string s)
  | .number n => callback (.number n)
  | _ => falseExpr

def createComparison (c : Comparison) (key : JsString) (value : Literal) : ContextKeyExpr :=
  withFloatOrStr registry value (comparison c key)

/-- The `create` function of a term's own kind. -/
def create : ContextKeyExpr → ContextKeyExpr
  | defined key => createDefined registry key
  | not key => createNot registry key
  | equals key value => createEquals registry key value
  | notEquals key value => createNotEquals registry key value
  | comparison c key value => createComparison registry c key value
  | p => p

def negateTerm : ContextKeyExpr → ContextKeyExpr
  | falseExpr => trueExpr
  | trueExpr => falseExpr
  | defined key => createNot registry key
  | not key => createDefined registry key
  | equals key value => createNotEquals registry key value
  | notEquals key value => createEquals registry key value
  | regex key regexp => notRegex key regexp
  | notRegex key regexp => regex key regexp
  | isIn key valueKey => notIn key valueKey
  | notIn key valueKey => isIn key valueKey
  | comparison .greater key value => createComparison registry .smallerEquals key value
  | comparison .greaterEquals key value => createComparison registry .smaller key value
  | comparison .smaller key value => createComparison registry .greaterEquals key value
  | comparison .smallerEquals key value => createComparison registry .greater key value
  | p => p

theorem constant_isAtom (value : Bool) : (constant value).isAtom = true := by
  cases value <;> rfl

theorem createComparison_isAtom (c : Comparison) (key : JsString) (value : Literal) :
    (createComparison registry c key value).isAtom = true := by
  unfold createComparison withFloatOrStr
  split
  · split <;> rfl
  · rfl
  · rfl

variable (key : JsString)

theorem createDefined_isAtom : (createDefined registry key).isAtom = true := by
  unfold createDefined
  split
  · exact constant_isAtom _
  · rfl

theorem createNot_isAtom : (createNot registry key).isAtom = true := by
  unfold createNot
  split
  · exact constant_isAtom _
  · rfl

theorem createEquals_isAtom (value : Literal) : (createEquals registry key value).isAtom = true := by
  unfold createEquals
  split
  · exact constant_isAtom _
  · rfl

theorem createNotEquals_isAtom (value : Literal) :
    (createNotEquals registry key value).isAtom = true := by
  unfold createNotEquals
  split
  · exact constant_isAtom _
  · rfl

theorem negateTerm_isAtom {p : ContextKeyExpr} (h : p.isAtom = true) : (negateTerm registry p).isAtom = true := by
  cases p with
  | defined key => exact createNot_isAtom registry key
  | not key => exact createDefined_isAtom registry key
  | equals key value => exact createNotEquals_isAtom registry key value
  | notEquals key value => exact createEquals_isAtom registry key value
  | comparison c key value => cases c <;> exact createComparison_isAtom registry _ key value
  | and expr => cases h
  | or expr => cases h
  | _ => rfl

end Terms

end ContextKeyExpr

/-! ## Nodes -/

/-- An expression with the negations that its nodes were made with. -/
inductive Node where
  | term (e : ContextKeyExpr) (h : e.isAtom = true)
  | and (expr : List Node) (negated : Option Node)
  | or (expr : List Node) (negated : Option Node)

namespace Node

open ContextKeyExpr (Registry cmp isEqual negateTerm)

mutual

def expression : Node → ContextKeyExpr
  | term e _ => e
  | and expr _ => .and (expressions expr)
  | or expr _ => .or (expressions expr)

def expressions : List Node → List ContextKeyExpr
  | [] => []
  | e :: expr => expression e :: expressions expr

end

def falseNode : Node := term .falseExpr rfl

def trueNode : Node := term .trueExpr rfl

/-- What the first loop of `_normalizeArr` does with an expression. -/
inductive Role where
  | skipped
  | decides
  | flattened (expr : List Node)
  | kept

/-- `anything && true` is `anything`, and `anything && false` is `false`. -/
def roleInAnd : Node → Role
  | term .trueExpr _ => .skipped
  | term .falseExpr _ => .decides
  | and expr _ => .flattened expr
  | _ => .kept

/-- `anything || false` is `anything`, and `anything || true` is `true`. -/
def roleInOr : Node → Role
  | term .falseExpr _ => .skipped
  | term .trueExpr _ => .decides
  | or expr _ => .flattened expr
  | _ => .kept

/-- The first loop of `_normalizeArr`: the parts, and whether one was skipped.  There is no result if an expression decides. -/
def collect (role : Node → Role) : List (Option Node) → Option (List Node × Bool)
  | [] => some ([], false)
  | none :: arr => collect role arr
  | some e :: arr =>
    match role e with
    | .skipped => (collect role arr).map fun collected => (collected.1, true)
    | .decides => none
    | .flattened expr => (collect role arr).map fun collected => (expr ++ collected.1, collected.2)
    | .kept => (collect role arr).map fun collected => (e :: collected.1, collected.2)

def collectAnd : List (Option Node) → Option (List Node × Bool) := collect roleInAnd

def collectOr : List (Option Node) → Option (List Node × Bool) := collect roleInOr

/-- The parts that follow one, without those that are equal to the part before them. -/
def eliminateAfter (previous : Node) : List Node → List Node
  | [] => []
  | e :: expr =>
    if isEqual previous.expression e.expression then eliminateAfter previous expr else e :: eliminateAfter e expr

def eliminateDuplicates : List Node → List Node
  | [] => []
  | e :: expr => e :: eliminateAfter e expr

def cancels (isNegation : Node → Node → Bool) : List Node → Bool
  | [] => false
  | e :: expr => expr.any (isNegation e) || cancels isNegation expr

def getTerminals : Node → List Node
  | or expr _ => expr
  | e => [e]

section Create

variable (registry : Registry) (sort : List Node → List Node) (isNegation : Node → Node → Bool)

/-- `create` of `||`. -/
def orCreate (arr : List (Option Node)) (negated : Option Node) (extraRedundantCheck : Bool) : Option Node :=
  match collectOr arr with
  | none => some trueNode
  | some ([], hasFalse) => if hasFalse then some falseNode else none
  | some (expr, _) =>
    match eliminateDuplicates (sort expr) with
    | [e] => some e
    | expr => if extraRedundantCheck && cancels isNegation expr then some trueNode else some (or expr negated)

/-- The loop that distributes `||`, at most `rounds` times. -/
def distribute (andCreate : List (Option Node) → Option Node) : Nat → List Node → List Node
  | 0, expr => expr
  | rounds + 1, expr =>
    match expr.reverse with
    | or lastExpr _ :: secondToLastElement :: rest =>
      let expr := rest.reverse
      let isFinished := expr.isEmpty
      match orCreate sort isNegation (lastExpr.map fun el => andCreate [some el, some secondToLastElement]) none isFinished with
      | some resultElement => distribute andCreate rounds (sort (expr ++ [resultElement]))
      | none => distribute andCreate rounds expr
    | _ => expr

/-- `create` of `&&`; `distributed` is what the loop makes of the parts. -/
def andCreateWith (distributed : List Node → List Node) (arr : List (Option Node)) (negated : Option Node)
    (extraRedundantCheck : Bool) : Option Node :=
  match collectAnd arr with
  | none => some falseNode
  | some ([], hasTrue) => if hasTrue then some trueNode else none
  | some (expr, _) =>
    match eliminateDuplicates (sort expr) with
    | [e] => some e
    | expr =>
      match distributed expr with
      | [e] => some e
      | expr => if extraRedundantCheck && cancels isNegation expr then some falseNode else some (and expr negated)

/-- `create` of `&&`. -/
def andCreate (extraRedundantCheck : Bool) : Nat → List (Option Node) → Option Node → Option Node
  | 0, arr, negated => andCreateWith sort isNegation id arr negated extraRedundantCheck
  | fuel + 1, arr, negated =>
    andCreateWith sort isNegation (fun expr => distribute sort isNegation (fun arr => andCreate extraRedundantCheck fuel arr none)
      expr.length expr) arr negated extraRedundantCheck

/-- One round of the loop that distributes the first two negations of an `||`. -/
def distributePair (fuel : Nat) (left right : Node) : Node :=
  (orCreate sort isNegation ((getTerminals left).flatMap fun left => (getTerminals right).map fun right =>
    andCreate sort isNegation false fuel [some left, some right] none) none false).getD falseNode

def distributePairs (fuel : Nat) : List Node → List Node
  | [] => []
  | first :: result => [result.foldl (distributePair sort isNegation fuel) first]

mutual

/-- `negate`, where `isNegation` tells which parts cancel.  A node has parts, so `create` has a result. -/
def negateWith (fuel : Nat) : Node → Node
  | term e h => term (negateTerm registry e) (ContextKeyExpr.negateTerm_isAtom registry h)
  | and _ (some negated) => negated
  | and expr none =>
    (orCreate sort isNegation ((negateAllWith fuel expr).map some) (some (and expr none)) true).getD falseNode
  | or _ (some negated) => negated
  | or expr none =>
    (orCreate sort isNegation ((distributePairs sort isNegation fuel (negateAllWith fuel expr)).map some)
      (some (or expr none)) true).getD falseNode

def negateAllWith (fuel : Nat) : List Node → List Node
  | [] => []
  | e :: expr => negateWith fuel e :: negateAllWith fuel expr

end

end Create

section Negate

variable (registry : Registry) (sort : List Node → List Node)

/-- `e.negate().equals(f)`. -/
def isNegation : Nat → Node → Node → Bool
  | 0, _, _ => false
  | fuel + 1, e, f => isEqual (negateWith registry sort (isNegation fuel) fuel e).expression f.expression

def negate (fuel : Nat) (e : Node) : Node := negateWith registry sort (isNegation registry sort fuel) fuel e

/-- Expressions made by the factories from the terms that satisfy a predicate; another predicate tells which ones are negated on
the way.  The parser makes no others. -/
inductive Made (IsUsed : ContextKeyExpr → Prop) (IsNegated : Node → Prop) : Node → Prop
  | true : Made IsUsed IsNegated trueNode
  | false : Made IsUsed IsNegated falseNode
  | term {e : ContextKeyExpr} {h : e.isAtom = Bool.true} (hused : IsUsed e) (hcreated : ContextKeyExpr.create registry e = e) :
    Made IsUsed IsNegated (term e h)
  | and {arr : List (Option Node)} {e : Node} (fuel : Nat) (extraRedundantCheck : Bool)
    (harr : ∀ e, some e ∈ arr → Made IsUsed IsNegated e)
    (h : andCreate sort (isNegation registry sort fuel) extraRedundantCheck fuel arr none = some e) : Made IsUsed IsNegated e
  | or {arr : List (Option Node)} {e : Node} (fuel : Nat) (extraRedundantCheck : Bool)
    (harr : ∀ e, some e ∈ arr → Made IsUsed IsNegated e)
    (h : orCreate sort (isNegation registry sort fuel) arr none extraRedundantCheck = some e) : Made IsUsed IsNegated e
  | negate {e : Node} (fuel : Nat) (h : Made IsUsed IsNegated e) (hnegated : IsNegated e) :
    Made IsUsed IsNegated (negate registry sort fuel e)

end Negate

end Node

end TongjiCode.Keybinding
