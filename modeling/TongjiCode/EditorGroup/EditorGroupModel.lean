import Mathlib.Algebra.Order.Ring.Int
import Mathlib.Data.List.Basic

/-!
# Editor groups

The class `EditorGroupModel` of `editorGroupModel.ts`: the editors of a group, the order in which they were active, the
active one, the one in preview and how many are sticky.  The events that are fired and the results of the methods, which
name the editor in question, are left out.  Two editors match only if they are the same.
-/

namespace TongjiCode.EditorGroup

inductive EditorInput where
  | input (id : Nat)
  | sideBySide (id : Nat) (primary secondary : EditorInput)
deriving DecidableEq, Repr

inductive SideBySideEditor where
  | any
  | both
deriving DecidableEq, Repr

/-- `workbench.editor.openPositioning`.  Any other value has the effect of `right`. -/
inductive EditorOpenPositioning where
  | left
  | right
  | first
  | last
deriving DecidableEq, Repr

structure Configuration where
  editorOpenPositioning : EditorOpenPositioning
  focusRecentEditorAfterClose : Bool
deriving DecidableEq, Repr

structure EditorOpenOptions where
  pinned : Bool := false
  sticky : Bool := false
  active : Bool := false
  index : Option Nat := none
  supportSideBySide : Option SideBySideEditor := none
deriving DecidableEq, Repr

namespace EditorInput

def isSideBySide : EditorInput → Bool
  | input _ => false
  | sideBySide _ _ _ => true

/-- `matches` of the group, for two editors that are not null. -/
def matchesWith (supportSideBySide : Option SideBySideEditor) (candidate : EditorInput) : EditorInput → Bool
  | input id => input id == candidate
  | sideBySide id primary secondary =>
    let sides :=
      match supportSideBySide with
      | none => false
      | some .any =>
        matchesWith supportSideBySide candidate primary || matchesWith supportSideBySide candidate secondary
      | some .both =>
        matchesWith supportSideBySide candidate primary && matchesWith supportSideBySide candidate secondary
    (!candidate.isSideBySide && sides) || sideBySide id primary secondary == candidate

end EditorInput

/-! ## Arrays -/

/-- `array.splice(start, deleteCount, ...items)` -/
def spliceArray {α : Type} (array : List α) (start : Int) (deleteCount : Nat) (items : List α) : List α :=
  let start := if start < 0 then (array.length + start).toNat else min start.toNat array.length
  array.take start ++ items ++ array.drop (start + deleteCount)

def indexOfLoop (supportSideBySide : Option SideBySideEditor) (candidate : EditorInput) (i : Nat) (index : Int) :
    List EditorInput → Int
  | [] => index
  | editor :: editors =>
    if EditorInput.matchesWith supportSideBySide candidate editor then
      -- a better direct match may come later
      if supportSideBySide.isSome && editor.isSideBySide && !candidate.isSideBySide then
        indexOfLoop supportSideBySide candidate (i + 1) i editors
      else i
    else indexOfLoop supportSideBySide candidate (i + 1) index editors

def indexOfWith (supportSideBySide : Option SideBySideEditor) (candidate : Option EditorInput) (editors : List EditorInput) :
    Int :=
  match candidate with
  | none => -1
  | some candidate => indexOfLoop supportSideBySide candidate 0 (-1) editors

def indexOf (candidate : Option EditorInput) (editors : List EditorInput) : Int := indexOfWith none candidate editors

/-! ## `EditorGroupModel` -/

structure EditorGroupModel where
  editors : List EditorInput := []
  mru : List EditorInput := []
  preview : Option EditorInput := none
  active : Option EditorInput := none
  sticky : Int := -1
deriving DecidableEq, Repr

namespace EditorGroupModel

variable (configuration : Configuration)

def findEditorWith (g : EditorGroupModel) (supportSideBySide : Option SideBySideEditor) (candidate : EditorInput) :
    Option (EditorInput × Int) :=
  let index := indexOfWith supportSideBySide (some candidate) g.editors
  if index = -1 then none else g.editors[index.toNat]?.map fun editor => (editor, index)

def findEditor (g : EditorGroupModel) (candidate : EditorInput) : Option (EditorInput × Int) :=
  g.findEditorWith none candidate

def isSticky (g : EditorGroupModel) (index : Int) : Bool := !(g.sticky < 0) && !(index < 0) && index ≤ g.sticky

def isPinned (g : EditorGroupModel) (editor : EditorInput) : Bool := g.preview ≠ some editor

def splice (g : EditorGroupModel) (index : Int) (del : Bool) (editor : Option EditorInput) : EditorGroupModel :=
  let editorToDeleteOrReplace := g.editors[index.toNat]?
  let indexInMRU := indexOf editorToDeleteOrReplace g.mru
  { g with
    sticky := if del && g.isSticky index then g.sticky - 1 else g.sticky
    editors := spliceArray g.editors index (if del then 1 else 0) editor.toList
    mru :=
      match del, editor with
      | false, some editor => if g.mru.length = 0 then g.mru ++ [editor] else spliceArray g.mru 1 0 [editor]
      | false, none => g.mru
      | true, none => spliceArray g.mru indexInMRU 1 []
      | true, some editor => spliceArray g.mru indexInMRU 1 [editor] }

def doSetActive (g : EditorGroupModel) (editor : EditorInput) : EditorGroupModel :=
  if g.active = some editor then g
  else { g with active := some editor, mru := editor :: spliceArray g.mru (indexOf (some editor) g.mru) 1 [] }

def setActive (g : EditorGroupModel) (candidate : Option EditorInput) : EditorGroupModel :=
  match candidate with
  | none => g
  | some candidate =>
    match g.findEditor candidate with
    | none => g
    | some (editor, _) => g.doSetActive editor

def doPin (g : EditorGroupModel) (editor : EditorInput) : EditorGroupModel :=
  if g.isPinned editor then g else { g with preview := none }

def pin (g : EditorGroupModel) (candidate : EditorInput) : EditorGroupModel :=
  match g.findEditor candidate with
  | none => g
  | some (editor, _) => g.doPin editor

/-- `closeEditor`, which is `doCloseEditor` and an event. -/
def closeEditor (g : EditorGroupModel) (candidate : EditorInput) (openNext : Bool) : EditorGroupModel :=
  let index := indexOf (some candidate) g.editors
  if index = -1 then g
  else
    match g.editors[index.toNat]? with
    | none => g
    | some editor =>
      let g :=
        if openNext && g.active = some editor then
          if g.mru.length > 1 then
            let newActive :=
              if configuration.focusRecentEditorAfterClose then g.mru[1]?
              else if index = g.editors.length - 1 then g.editors[(index - 1).toNat]?
              else g.editors[(index + 1).toNat]?
            match newActive with
            | none => g
            | some newActive => g.doSetActive newActive
          else { g with active := none }
        else g
      let g := if g.preview = some editor then { g with preview := none } else g
      g.splice index true none

def doUnpin (g : EditorGroupModel) (editor : EditorInput) : EditorGroupModel :=
  if !g.isPinned editor then g
  else
    let oldPreview := g.preview
    let g := { g with preview := some editor }
    match oldPreview with
    | none => g
    | some oldPreview => g.closeEditor configuration oldPreview true

def unpin (g : EditorGroupModel) (candidate : EditorInput) : EditorGroupModel :=
  match g.findEditor candidate with
  | none => g
  | some (editor, _) => g.doUnpin configuration editor

def moveEditor (g : EditorGroupModel) (candidate : EditorInput) (toIndex : Int) : EditorGroupModel :=
  let toIndex := if toIndex ≥ g.editors.length then (g.editors.length : Int) - 1 else if toIndex < 0 then 0 else toIndex
  let index := indexOf (some candidate) g.editors
  if index < 0 ∨ toIndex = index then g
  else
    match g.editors[index.toNat]? with
    | none => g
    | some editor =>
      let sticky :=
        if g.isSticky index && toIndex > g.sticky then g.sticky - 1
        else if !g.isSticky index && toIndex ≤ g.sticky then g.sticky + 1
        else g.sticky
      { g with sticky, editors := spliceArray (spliceArray g.editors index 1 []) toIndex 0 [editor] }

def doStick (g : EditorGroupModel) (editor : EditorInput) (editorIndex : Int) : EditorGroupModel :=
  if g.isSticky editorIndex then g
  else
    let g := g.pin editor
    -- move editor to be the last sticky editor
    let g := g.moveEditor editor (g.sticky + 1)
    { g with sticky := g.sticky + 1 }

def stick (g : EditorGroupModel) (candidate : EditorInput) : EditorGroupModel :=
  match g.findEditor candidate with
  | none => g
  | some (editor, editorIndex) => g.doStick editor editorIndex

def doUnstick (g : EditorGroupModel) (editor : EditorInput) (editorIndex : Int) : EditorGroupModel :=
  if !g.isSticky editorIndex then g
  else
    -- move editor to be the first non-sticky editor
    let g := g.moveEditor editor g.sticky
    { g with sticky := g.sticky - 1 }

def unstick (g : EditorGroupModel) (candidate : EditorInput) : EditorGroupModel :=
  match g.findEditor candidate with
  | none => g
  | some (editor, editorIndex) => g.doUnstick editor editorIndex

def replaceEditor (g : EditorGroupModel) (toReplace replaceWith : EditorInput) (replaceIndex : Int) (openNext : Bool) :
    EditorGroupModel :=
  (g.closeEditor configuration toReplace openNext).splice replaceIndex false (some replaceWith)

/-- Where a new editor goes, before it is made sticky. -/
def targetIndex (g : EditorGroupModel) (options : EditorOpenOptions) (makeSticky : Bool) : Int :=
  let afterSticky (index : Int) : Int := if !makeSticky && g.isSticky index then g.sticky + 1 else index
  let indexOfActive := indexOf g.active g.editors
  match options.index with
  | some index => index
  | none =>
    match configuration.editorOpenPositioning with
    | .first => afterSticky 0
    | .last => g.editors.length
    | .left => afterSticky (if indexOfActive = 0 ∨ g.editors.length = 0 then 0 else indexOfActive)
    | .right => afterSticky (indexOfActive + 1)

def makeSticky (g : EditorGroupModel) (options : EditorOpenOptions) : Bool :=
  options.sticky || (options.index.map fun index : Nat => g.isSticky index).getD false

def makePinned (options : EditorOpenOptions) : Bool := options.pinned || options.sticky

def makeActive (g : EditorGroupModel) (options : EditorOpenOptions) : Bool :=
  options.active || g.active.isNone || (!makePinned options && g.preview.isSome && g.preview == g.active)

def openNew (g : EditorGroupModel) (newEditor : EditorInput) (options : EditorOpenOptions) : EditorGroupModel :=
  let makeSticky := g.makeSticky options
  let makeActive := g.makeActive options
  let targetIndex := g.targetIndex configuration options makeSticky
  let g := if makeSticky then { g with sticky := g.sticky + 1 } else g
  let targetIndex := if makeSticky && !g.isSticky targetIndex then g.sticky else targetIndex
  -- insert into our list of editors if pinned or we have no preview editor
  let g := if makePinned options || g.preview.isNone then g.splice targetIndex false (some newEditor) else g
  let g :=
    if makePinned options then g
    else
      -- replace existing preview with this editor if we have a preview
      let g :=
        match g.preview with
        | none => g
        | some preview =>
          let indexOfPreview := indexOf (some preview) g.editors
          -- accomodate for the fact that the preview editor closes
          let targetIndex := if targetIndex > indexOfPreview then targetIndex - 1 else targetIndex
          g.replaceEditor configuration preview newEditor targetIndex (!makeActive)
      { g with preview := some newEditor }
  if makeActive then g.doSetActive newEditor else g

def openExisting (g : EditorGroupModel) (existingEditor : EditorInput) (options : EditorOpenOptions) : EditorGroupModel :=
  let makeSticky := g.makeSticky options
  let makeActive := g.makeActive options
  let g := if makePinned options then g.doPin existingEditor else g
  let g := if makeActive then g.doSetActive existingEditor else g
  -- respect index
  let g :=
    match options.index with
    | none => g
    | some index => g.moveEditor existingEditor index
  -- intentionally after the move in case the editor was already moved into the sticky range
  if makeSticky then g.doStick existingEditor (indexOf (some existingEditor) g.editors) else g

def openEditor (g : EditorGroupModel) (candidate : EditorInput) (options : EditorOpenOptions) : EditorGroupModel :=
  match g.findEditorWith options.supportSideBySide candidate with
  | none => g.openNew configuration candidate options
  | some (existingEditor, _) => g.openExisting existingEditor options

end EditorGroupModel

end TongjiCode.EditorGroup
