import TongjiCode.Keybinding.Implication

/-!
# The keybinding resolver

`KeybindingResolver` of `keybindingResolver.ts`.  A map of the source is a function here; what has no entry has the empty
list.  Which conditions are false once constants are substituted, and which are equal then, are parameters: all rules that
a condition removes are removed before any map is built.
-/

namespace TongjiCode.Keybinding

/-- `ResolvedKeybindingItem`, with a number that stands for the object. -/
structure ResolvedKeybindingItem where
  id : Nat
  chords : List JsString
  command : Option JsString
  whenExpr : Option ContextKeyExpr
  isDefault : Bool := true

/-- Constants that are substituted into conditions. -/
structure Constants where
  isFalse : ContextKeyExpr → Bool
  areEqual : ContextKeyExpr → ContextKeyExpr → Bool

/-! ## Removals -/

/-- `-` -/
def minus : UInt16 := 45

def removedCommand (rule : ResolvedKeybindingItem) : Option JsString :=
  match rule.command with
  | some (c :: command) => if c = minus then some command else none
  | _ => none

/-- `_isTargetedForRemoval`; the condition `true` is no condition. -/
def isTargetedForRemoval (constants : Constants) (defaultKb : ResolvedKeybindingItem) (keypress : List JsString)
    (whenExpr : Option ContextKeyExpr) : Bool :=
  keypress.isPrefixOf defaultKb.chords &&
    match whenExpr with
    | none => true
    | some .trueExpr => true
    | some condition =>
      match defaultKb.whenExpr with
      | none => false
      | some defaultCondition => constants.areEqual condition defaultCondition

def handleRemovals (constants : Constants) (rules : List ResolvedKeybindingItem) : List ResolvedKeybindingItem :=
  rules.filter fun rule =>
    match rule.command with
    | none => true
    | some [] => true
    | some (c :: command) =>
      if c = minus then false
      else
        let commandRemovals := rules.filter fun removal => decide (removedCommand removal = some (c :: command))
        !rule.isDefault || !commandRemovals.any fun commandRemoval =>
          isTargetedForRemoval constants rule commandRemoval.chords commandRemoval.whenExpr

/-! ## The maps -/

structure KeybindingResolver where
  /-- by the first chord -/
  map : JsString → List ResolvedKeybindingItem := fun _ => []
  /-- by the command -/
  lookupMap : JsString → List ResolvedKeybindingItem := fun _ => []

section Build

variable (toNumber : JsString → Option Rat) (constants : Constants)

/-- `whenIsEntirelyIncluded`: it is provable that `a` implies `b`. -/
def whenIsEntirelyIncluded : Option ContextKeyExpr → Option ContextKeyExpr → Bool
  | _, none => true
  | _, some .trueExpr => true
  | none, _ => false
  | some .trueExpr, _ => false
  | some a, some b => ContextKeyExpr.implies toNumber a b

/-- The shorter keybinding is a prefix of the longer one, apart from the first chord. -/
def isShorterKbPrefix (chords1 chords2 : List JsString) : Bool :=
  ((chords1.zip chords2).drop 1).all fun (chord1, chord2) => chord1 == chord2

def overwrites (item conflict : ResolvedKeybindingItem) : Bool :=
  conflict.command != item.command && isShorterKbPrefix conflict.chords item.chords &&
    whenIsEntirelyIncluded toNumber conflict.whenExpr item.whenExpr

namespace KeybindingResolver

def addToLookupMap (s : KeybindingResolver) (item : ResolvedKeybindingItem) : KeybindingResolver :=
  match item.command with
  | some (c :: command) =>
    { s with lookupMap := Function.update s.lookupMap (c :: command) (s.lookupMap (c :: command) ++ [item]) }
  | _ => s

/-- The array without the first occurrence of the object. -/
def spliceItem (item : ResolvedKeybindingItem) : List ResolvedKeybindingItem → List ResolvedKeybindingItem
  | [] => []
  | first :: items => if first.id = item.id then items else first :: spliceItem item items

def removeFromLookupMap (s : KeybindingResolver) (item : ResolvedKeybindingItem) : KeybindingResolver :=
  match item.command with
  | some (c :: command) =>
    { s with lookupMap := Function.update s.lookupMap (c :: command) (spliceItem item (s.lookupMap (c :: command))) }
  | _ => s

def addKeyPress (s : KeybindingResolver) (keypress : JsString) (item : ResolvedKeybindingItem) : KeybindingResolver :=
  let conflicts := s.map keypress
  let s := conflicts.reverse.foldl (fun s conflict =>
    if overwrites toNumber item conflict then s.removeFromLookupMap conflict else s) s
  { s with map := Function.update s.map keypress (conflicts ++ [item]) }.addToLookupMap item

/-- One turn of the loop of the constructor. -/
def addKeybinding (s : KeybindingResolver) (k : ResolvedKeybindingItem) : KeybindingResolver :=
  match k.chords with
  | [] => s
  | keypress :: _ =>
    if k.whenExpr.any constants.isFalse then s else s.addKeyPress toNumber keypress k

def create (defaultKeybindings overrides : List ResolvedKeybindingItem) : KeybindingResolver :=
  (handleRemovals constants (defaultKeybindings ++ overrides)).foldl (addKeybinding toNumber constants) {}

/-! ## Asking -/

def lookupKeybindings (s : KeybindingResolver) (commandId : JsString) : List ResolvedKeybindingItem :=
  (s.lookupMap commandId).reverse

inductive ResolutionResult where
  | noMatchingKb
  | moreChordsNeeded
  | kbFound (item : ResolvedKeybindingItem)

section Resolve

variable {V : Type} (language : Language V) (context : JsString → V)

def contextMatchesRules : Option ContextKeyExpr → Bool
  | none => true
  | some rules => rules.evaluate language context

/-- `_findCommand`: the last one that the context allows. -/
def findCommand (candidates : List ResolvedKeybindingItem) : Option ResolvedKeybindingItem :=
  candidates.reverse.find? fun k => contextMatchesRules language context k.whenExpr

def resolve (s : KeybindingResolver) (currentChords : List JsString) (keypress : JsString) : ResolutionResult :=
  let pressedChords := currentChords ++ [keypress]
  let kbCandidates := s.map (pressedChords.headD keypress)
  let candidates :=
    if pressedChords.length < 2 then kbCandidates
    else kbCandidates.filter fun candidate => pressedChords.tail.isPrefixOf candidate.chords.tail
  match findCommand language context candidates with
  | none => .noMatchingKb
  | some result => if pressedChords.length < result.chords.length then .moreChordsNeeded else .kbFound result

end Resolve

end KeybindingResolver

end Build

end TongjiCode.Keybinding
