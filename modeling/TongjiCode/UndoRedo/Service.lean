import Mathlib.Algebra.Order.Ring.Int
import Mathlib.Data.List.Basic

/-!
# `UndoRedoService`

Each resource has an edit stack of what can be undone and what can be redone; an element of several resources
is on the stack of each of them.  Undoing and redoing calls code of others (`prepareUndoRedo`, `undo`, `redo`
and the dialogs), and whatever comes behind such a call is a `Task` here, which goes on when the answer is
there, with any other calls of the service between.  A call that answers at once is one whose task is the
next to go on; so is a call of `_undo` or `_redo` at the end of another function.
-/

namespace TongjiCode.UndoRedo

/-! ## Elements -/

/-- What the service takes from a resource: its label and its comparison key. -/
structure Uri where
  label : String
  key : String
  deriving Repr, DecidableEq

inductive UndoRedoElementType where
  | resource
  | workspace
  deriving Repr, DecidableEq

structure ResourceUndoRedoElement where
  resource : Uri
  label : String
  confirmBeforeUndo : Bool := false
  deriving Repr, DecidableEq

/-- `split` is there if the element can be split, `prepareUndoRedo` tells if it is implemented. -/
structure WorkspaceUndoRedoElement where
  resources : List Uri
  label : String
  confirmBeforeUndo : Bool := false
  split : Option (List ResourceUndoRedoElement) := none
  prepareUndoRedo : Bool := false
  deriving Repr, DecidableEq

inductive UndoRedoElement where
  | resource (element : ResourceUndoRedoElement)
  | workspace (element : WorkspaceUndoRedoElement)
  deriving Repr, DecidableEq

namespace UndoRedoElement

def label : UndoRedoElement → String
  | .resource element => element.label
  | .workspace element => element.label

def confirmBeforeUndo : UndoRedoElement → Bool
  | .resource element => element.confirmBeforeUndo
  | .workspace element => element.confirmBeforeUndo

def split : UndoRedoElement → Option (List ResourceUndoRedoElement)
  | .resource _ => none
  | .workspace element => element.split

def prepareUndoRedo : UndoRedoElement → Bool
  | .resource _ => false
  | .workspace element => element.prepareUndoRedo

end UndoRedoElement

/-- `ResourceStackElement | WorkspaceStackElement`, without the fields that change: those are kept by the
service for each element. -/
structure StackElement where
  id : Nat
  type : UndoRedoElementType
  actual : UndoRedoElement
  resourceLabels : List String
  strResources : List String
  groupId : Nat
  groupOrder : Nat
  sourceId : Nat
  sourceOrder : Nat
  deriving Repr, DecidableEq

inductive RemovedResourceReason where
  | externalRemoval
  | noParallelUniverses
  deriving Repr, DecidableEq

structure ResourceReasonPair where
  resourceLabel : String
  reason : RemovedResourceReason
  deriving Repr, DecidableEq

/-- The map from resources to reasons, in the order of its insertions. -/
structure RemovedResources where
  elements : List (String × ResourceReasonPair) := []
  deriving Repr, DecidableEq

namespace RemovedResources

variable (removed : RemovedResources)

def size : Nat := removed.elements.length

def has (strResource : String) : Bool := removed.elements.any fun entry => entry.1 = strResource

/-- Only called for a resource that is not there. -/
def set (strResource : String) (value : ResourceReasonPair) : RemovedResources :=
  ⟨removed.elements ++ [(strResource, value)]⟩

def delete (strResource : String) : RemovedResources :=
  ⟨removed.elements.filter fun entry => entry.1 ≠ strResource⟩

def labels (reason : RemovedResourceReason) : List String :=
  (removed.elements.filter fun entry => entry.2.reason = reason).map fun entry => entry.2.resourceLabel

def createMessage : String :=
  let externalRemoval := removed.labels .externalRemoval
  let noParallelUniverses := removed.labels .noParallelUniverses
  let messages :=
    (if externalRemoval.length > 0 then
      ["The following files have been closed and modified on disk: " ++ ", ".intercalate externalRemoval ++ "."]
    else []) ++
    (if noParallelUniverses.length > 0 then
      ["The following files have been modified in an incompatible way: " ++ ", ".intercalate noParallelUniverses ++ "."]
    else [])
  "\n".intercalate messages

end RemovedResources

/-! ## Edit stacks -/

inductive Side where
  | past
  | future
  deriving Repr, DecidableEq

def Side.verb : Side → String
  | .past => "undo"
  | .future => "redo"

structure ResourceEditStack where
  resourceLabel : String := ""
  strResource : String := ""
  past : List StackElement := []
  future : List StackElement := []
  locked : Bool := false
  versionId : Nat := 1
  deriving Repr, DecidableEq

/-- The last occurrence of `toRemove` gets replaced, or deleted where there is no replacement. -/
def replaceLast (toRemove : StackElement) (replacement : Option StackElement) : List StackElement → List StackElement
  | [] => []
  | element :: elements =>
    if toRemove ∈ elements then element :: replaceLast toRemove replacement elements
    else if element = toRemove then replacement.toList ++ elements
    else element :: elements

namespace ResourceEditStack

variable (stack : ResourceEditStack)

def elements : Side → List StackElement
  | .past => stack.past
  | .future => stack.future

def all : List StackElement := stack.past ++ stack.future

def getClosest (side : Side) : Option StackElement := (stack.elements side).getLast?

def getClosestPastElement : Option StackElement := stack.getClosest .past

def getSecondClosestPastElement : Option StackElement := stack.past.dropLast.getLast?

def getClosestFutureElement : Option StackElement := stack.getClosest .future

def hasPastElements : Bool := stack.past.length > 0

def hasFutureElements : Bool := stack.future.length > 0

/-- What `pushElement` does to the stack itself. -/
def pushElement (element : StackElement) : ResourceEditStack :=
  { stack with
    future := []
    past := stack.past ++ [element]
    versionId := stack.versionId + 1 }

def flushAllElements : ResourceEditStack :=
  { stack with
    past := []
    future := []
    versionId := stack.versionId + 1 }

def splitPastWorkspaceElement (toRemove : StackElement) (individualMap : String → Option StackElement) : ResourceEditStack :=
  { stack with
    past := replaceLast toRemove (individualMap stack.strResource) stack.past
    versionId := stack.versionId + 1 }

def splitFutureWorkspaceElement (toRemove : StackElement) (individualMap : String → Option StackElement) : ResourceEditStack :=
  { stack with
    future := replaceLast toRemove (individualMap stack.strResource) stack.future
    versionId := stack.versionId + 1 }

def splitWorkspaceElement : Side → StackElement → (String → Option StackElement) → ResourceEditStack
  | .past => stack.splitPastWorkspaceElement
  | .future => stack.splitFutureWorkspaceElement

def moveBackward (element : StackElement) : ResourceEditStack :=
  { stack with
    past := stack.past.dropLast
    future := stack.future ++ [element]
    versionId := stack.versionId + 1 }

def moveForward (element : StackElement) : ResourceEditStack :=
  { stack with
    future := stack.future.dropLast
    past := stack.past ++ [element]
    versionId := stack.versionId + 1 }

/-- The move of an undo, or of a redo, off the side where the element was. -/
def move : Side → StackElement → ResourceEditStack
  | .past => stack.moveBackward
  | .future => stack.moveForward

/-- The elements from the first one on that is not next in the snapshot: those that a loop of
`restoreSnapshot` sees while not `isOK`. -/
def mismatched : List StackElement → List Nat → List StackElement
  | [], _ => []
  | element :: elements, [] => element :: elements
  | element :: elements, id :: ids => if element.id = id then mismatched elements ids else element :: elements

/-- The elements that `restoreSnapshot` marks: of the past, then of the future. -/
def mismatchedPast (snapshot : List Nat) : List StackElement := mismatched stack.past snapshot

def mismatchedFuture (snapshot : List Nat) : List StackElement :=
  if stack.mismatchedPast snapshot = [] then mismatched stack.future.reverse (snapshot.drop stack.past.length)
  else stack.future.reverse

/-- What `restoreSnapshot` does to the stack itself: `removePastAfter` is `0` whichever element of the past
does not match, and the future is left alone then. -/
def restoreSnapshot (snapshot : List Nat) : ResourceEditStack :=
  { stack with
    past := if stack.mismatchedPast snapshot = [] then stack.past else stack.past.take 0
    future :=
      if stack.mismatchedPast snapshot = [] then stack.future.drop (stack.mismatchedFuture snapshot).length
      else stack.future
    versionId := stack.versionId + 1 }

end ResourceEditStack

/-! ## The service -/

/-- The edit stacks, by their place in `stackAt`, with their versions. -/
abbrev EditStackSnapshot := List (Nat × Nat)

/-- What goes on: an undo, confirmed or not, or a redo. -/
inductive Direction where
  | undo (undoConfirmed : Bool)
  | redo
  deriving Repr, DecidableEq

def Direction.side : Direction → Side
  | .undo _ => .past
  | .redo => .future

/-- What is left to do of a call when an answer is there. -/
inductive Task where
  | undo (strResource : String) (sourceId : Nat) (undoConfirmed : Bool)
  | redo (strResource : String)
  | confirmUndo (strResource : String) (sourceId : Nat) (element : StackElement)
  | confirmWorkspaceUndo (strResource : String) (element : StackElement) (editStackSnapshot : EditStackSnapshot)
  | prepareWorkspace (direction : Direction) (strResource : String) (element : StackElement)
    (editStackSnapshot : EditStackSnapshot)
  | prepareResource (direction : Direction) (editStack : Nat) (element : StackElement)
  | invoke (direction : Direction) (element : StackElement) (editStackSnapshot : EditStackSnapshot)
  deriving Repr, DecidableEq

/-- The call of `_undo` or `_redo` that comes next. -/
def Direction.call : Direction → String → Task
  | .undo undoConfirmed, strResource => .undo strResource 0 undoConfirmed
  | .redo, strResource => .redo strResource

inductive UndoChoice where
  | all
  | this
  | cancel
  deriving Repr, DecidableEq

/-- How a dialog or a promise is answered. -/
inductive Answer where
  | confirmed
  | choice (undoChoice : UndoChoice)
  | resolved
  | rejected
  deriving Repr, DecidableEq

inductive Notification where
  | warn (message : String)
  | error
  deriving Repr, DecidableEq

/-- What the service itself throws; `missingEditStack` is the `TypeError` of a method call on `undefined`. -/
inductive ServiceError where
  | missingEditStack (strResource : String)
  | cannotAcquireEditStackLock
  deriving Repr, DecidableEq

/-- The stack objects are kept in `stackAt`, `missingEditStack` at `0`, and `editStacks` maps the resources to
their places, in the order of the insertions.  A stack that was removed from the map stays in `stackAt`. -/
structure UndoRedoService where
  stackAt : Nat → ResourceEditStack := fun place => { locked := place = 0 }
  stackCounter : Nat := 1
  editStacks : List (String × Nat) := []
  stackElementCounter : Nat := 0
  isValid : StackElement → Bool := fun _ => true
  removedResources : StackElement → Option RemovedResources := fun _ => none
  invalidatedResources : StackElement → Option RemovedResources := fun _ => none
  groupOrders : Nat → Nat := fun _ => 1
  sourceOrders : Nat → Nat := fun _ => 1
  tasks : List Task := []
  notifications : List Notification := []
  errors : List ServiceError := []

namespace UndoRedoService

variable (s : UndoRedoService)

def updateStack (place : Nat) (f : ResourceEditStack → ResourceEditStack) : UndoRedoService :=
  { s with stackAt := Function.update s.stackAt place (f (s.stackAt place)) }

def schedule (task : Task) : UndoRedoService := { s with tasks := s.tasks ++ [task] }

def notify (notification : Notification) : UndoRedoService := { s with notifications := s.notifications ++ [notification] }

def throwing (error : ServiceError) : UndoRedoService := { s with errors := s.errors ++ [error] }

def get (strResource : String) : Option Nat := s.editStacks.lookup strResource

def delete (strResource : String) : UndoRedoService :=
  { s with editStacks := s.editStacks.filter fun entry => entry.1 ≠ strResource }

/-! ### Marks on the elements -/

def removeResource (element : StackElement) (resourceLabel strResource : String) (reason : RemovedResourceReason) :
    UndoRedoService :=
  let removed := (s.removedResources element).getD {}
  let removed := if removed.has strResource then removed else removed.set strResource ⟨resourceLabel, reason⟩
  { s with removedResources := Function.update s.removedResources element (some removed) }

/-- `removeResource` for the workspace elements of a list, as the methods of a stack call it. -/
def removeResources (stack : ResourceEditStack) (reason : RemovedResourceReason) :
    List StackElement → UndoRedoService → UndoRedoService
  | [], s => s
  | element :: elements, s =>
    removeResources stack reason elements
      (if element.type = .workspace then s.removeResource element stack.resourceLabel stack.strResource reason else s)

def setWorkspaceValid (element : StackElement) (resourceLabel strResource : String) (isValid : Bool) : UndoRedoService :=
  let invalidated :=
    if isValid then
      (s.invalidatedResources element).bind fun resources =>
        let resources := resources.delete strResource
        if resources.size = 0 then none else some resources
    else
      let resources := (s.invalidatedResources element).getD {}
      some (if resources.has strResource then resources else resources.set strResource ⟨resourceLabel, .externalRemoval⟩)
  { s with invalidatedResources := Function.update s.invalidatedResources element invalidated }

def setElementValidFlag (stack : ResourceEditStack) (element : StackElement) (isValid : Bool) : UndoRedoService :=
  match element.type with
  | .workspace => s.setWorkspaceValid element stack.resourceLabel stack.strResource isValid
  | .resource => { s with isValid := Function.update s.isValid element isValid }

/-! ### Adding and removing elements -/

/-- `ResourceEditStack.dispose` -/
def dispose (place : Nat) : UndoRedoService :=
  let stack := s.stackAt place
  let s := removeResources stack .externalRemoval stack.past s
  let s := removeResources stack .externalRemoval stack.future s
  s.updateStack place fun stack => { stack with versionId := stack.versionId + 1 }

/-- `ResourceEditStack.pushElement` -/
def pushOnto (place : Nat) (element : StackElement) : UndoRedoService :=
  let stack := s.stackAt place
  let s := removeResources stack .noParallelUniverses stack.future s
  s.updateStack place fun stack => stack.pushElement element

/-- A new stack comes in for a resource that has none. -/
def addEditStack (resourceLabel strResource : String) : UndoRedoService :=
  { s with
    stackAt := Function.update s.stackAt s.stackCounter { resourceLabel, strResource }
    stackCounter := s.stackCounter + 1
    editStacks := s.editStacks ++ [(strResource, s.stackCounter)] }

/-- `_pushElement`, for the resources that are left. -/
def pushStackElement (element : StackElement) : List (String × String) → UndoRedoService → UndoRedoService
  | [], s => s
  | (resourceLabel, strResource) :: resources, s =>
    match s.get strResource with
    | some place => pushStackElement element resources (s.pushOnto place element)
    | none =>
      pushStackElement element resources ((s.addEditStack resourceLabel strResource).pushOnto s.stackCounter element)

/-- `nextOrder` of a group or a source -/
def nextOrder (orders : Nat → Nat) (id : Nat) : Nat × (Nat → Nat) :=
  if id = 0 then (0, orders) else (orders id, Function.update orders id (orders id + 1))

/-- The resources of a workspace element, each comparison key once. -/
def distinctResources : List Uri → List String → List Uri
  | [], _ => []
  | resource :: resources, seen =>
    if resource.key ∈ seen then distinctResources resources seen
    else resource :: distinctResources resources (resource.key :: seen)

/-- The stack element that `pushElement` makes. -/
def newStackElement (element : UndoRedoElement) (groupId sourceId : Nat) : StackElement :=
  let resources :=
    match element with
    | .resource element => [element.resource]
    | .workspace element => distinctResources element.resources []
  { id := s.stackElementCounter + 1
    type := if resources.length = 1 then .resource else .workspace
    actual := element
    resourceLabels := resources.map Uri.label
    strResources := resources.map Uri.key
    groupId
    groupOrder := (nextOrder s.groupOrders groupId).1
    sourceId
    sourceOrder := (nextOrder s.sourceOrders sourceId).1 }

def pushElement (element : UndoRedoElement) (groupId sourceId : Nat) : UndoRedoService :=
  let stackElement := s.newStackElement element groupId sourceId
  pushStackElement stackElement (stackElement.resourceLabels.zip stackElement.strResources)
    { s with
      stackElementCounter := s.stackElementCounter + 1
      groupOrders := (nextOrder s.groupOrders groupId).2
      sourceOrders := (nextOrder s.sourceOrders sourceId).2 }

def removeElements (strResource : String) : UndoRedoService :=
  match s.get strResource with
  | none => s
  | some place => (s.dispose place).delete strResource

def removeAllElements : List String → UndoRedoService → UndoRedoService
  | [], s => s
  | strResource :: strResources, s => removeAllElements strResources (s.removeElements strResource)

/-- `filter` is asked for each element, of the past and then of the future. -/
def setElementsValidFlag (strResource : String) (isValid : Bool) (filter : UndoRedoElement → Bool) : UndoRedoService :=
  match s.get strResource with
  | none => s
  | some place =>
    let stack := s.stackAt place
    (stack.all.filter fun element => filter element.actual).foldl
      (fun s element => s.setElementValidFlag stack element isValid) s

def restoreSnapshot (strResource : String) (snapshot : List Nat) : UndoRedoService :=
  match s.get strResource with
  | none => s
  | some place =>
    let stack := s.stackAt place
    let s := removeResources stack .externalRemoval (stack.mismatchedPast snapshot) s
    let s := removeResources stack .externalRemoval (stack.mismatchedFuture snapshot) s
    let s := s.updateStack place fun stack => stack.restoreSnapshot snapshot
    if !(s.stackAt place).hasPastElements && !(s.stackAt place).hasFutureElements then
      -- the edit stack is now empty, just remove it entirely
      (s.dispose place).delete strResource
    else s

/-! ### Splitting -/

def individuals : List ResourceUndoRedoElement → Nat → List StackElement
  | [], _ => []
  | element :: elements, counter =>
    { id := counter + 1
      type := .resource
      actual := .resource element
      resourceLabels := [element.resource.label]
      strResources := [element.resource.key]
      groupId := 0
      groupOrder := 0
      sourceId := 0
      sourceOrder := 0 } :: individuals elements (counter + 1)

/-- The map of the parts; a later part takes the place of an earlier one. -/
def individualMap (elements : List StackElement) (strResource : String) : Option StackElement :=
  elements.reverse.find? fun element => element.strResources = [strResource]

/-- The loop of `_splitPastWorkspaceElement` and `_splitFutureWorkspaceElement`; it throws where there is no
edit stack, with what it has done so far. -/
def splitStacks (side : Side) (toRemove : StackElement) (individualMap : String → Option StackElement)
    (ignoreResources : Option RemovedResources) : List String → UndoRedoService → UndoRedoService × Bool
  | [], s => (s, true)
  | strResource :: strResources, s =>
    if (ignoreResources.any fun resources => resources.has strResource) then
      splitStacks side toRemove individualMap ignoreResources strResources s
    else
      match s.get strResource with
      | none => (s.throwing (.missingEditStack strResource), false)
      | some place =>
        splitStacks side toRemove individualMap ignoreResources strResources
          (s.updateStack place fun stack => stack.splitWorkspaceElement side toRemove individualMap)

def splitWorkspaceElement (side : Side) (toRemove : StackElement) (parts : List ResourceUndoRedoElement)
    (ignoreResources : Option RemovedResources) : UndoRedoService × Bool :=
  let elements := individuals parts s.stackElementCounter
  splitStacks side toRemove (individualMap elements) ignoreResources toRemove.strResources
    { s with stackElementCounter := s.stackElementCounter + parts.length }

def tryToSplit (side : Side) (strResource : String) (element : StackElement)
    (ignoreResources : Option RemovedResources) (message : String) : UndoRedoService :=
  match element.actual.split with
  | some parts =>
    match s.splitWorkspaceElement side element parts ignoreResources with
    | (s, true) =>
      (s.notify (.warn message)).schedule
        (match side with
        | .past => .undo strResource 0 true
        | .future => .redo strResource)
    | (s, false) => s
  | none =>
    -- cannot safely split this workspace element => flush all undo/redo stacks
    (removeAllElements element.strResources s).notify (.warn message)

/-! ### Undo and redo -/

def getAffectedEditStacks (element : StackElement) : EditStackSnapshot :=
  element.strResources.map fun strResource =>
    let place := (s.get strResource).getD 0
    (place, (s.stackAt place).versionId)

def snapshotIsValid (editStackSnapshot : EditStackSnapshot) : Bool :=
  editStackSnapshot.all fun entry => (s.stackAt entry.1).versionId = entry.2

/-- The labels of those stacks of the snapshot that stand in the way. -/
def inTheWay (editStackSnapshot : EditStackSnapshot) (isBad : ResourceEditStack → Bool) : List String :=
  (editStackSnapshot.filter fun entry => isBad (s.stackAt entry.1)).map fun entry => (s.stackAt entry.1).resourceLabel

/-- What `_checkWorkspaceUndo` and `_checkWorkspaceRedo` find: the resources to ignore by the split, and the
message. -/
def verificationError (side : Side) (element : StackElement) (editStackSnapshot : EditStackSnapshot)
    (checkInvalidatedResources : Bool) : Option (Option RemovedResources × String) :=
  let label := element.actual.label
  let cannot := "Could not " ++ side.verb ++ " '" ++ label ++ "' across all files"
  match s.removedResources element with
  | some removed => some (some removed, cannot ++ ". " ++ removed.createMessage)
  | none =>
    match (if checkInvalidatedResources then s.invalidatedResources element else none) with
    | some invalidated => some (some invalidated, cannot ++ ". " ++ invalidated.createMessage)
    | none =>
      -- this must be the last element in all the impacted resources!
      let changed := s.inTheWay editStackSnapshot fun stack => stack.getClosest side ≠ some element
      if changed.length > 0 then
        some (none, cannot ++ " because changes were made to " ++ ", ".intercalate changed)
      else
        let locked := s.inTheWay editStackSnapshot fun stack => stack.locked
        if locked.length > 0 then
          some (none, cannot ++ " because there is already an undo or redo operation running on " ++ ", ".intercalate locked)
        else if !s.snapshotIsValid editStackSnapshot then
          some (none, cannot ++ " because an undo or redo operation occurred in the meantime")
        else none

/-- `_checkWorkspaceUndo` and `_checkWorkspaceRedo`: the service after the split, if there has to be one. -/
def checkWorkspace (side : Side) (strResource : String) (element : StackElement) (editStackSnapshot : EditStackSnapshot)
    (checkInvalidatedResources : Bool) : Option UndoRedoService :=
  (s.verificationError side element editStackSnapshot checkInvalidatedResources).map fun (ignoreResources, message) =>
    s.tryToSplit side strResource element ignoreResources message

def onError (element : StackElement) : UndoRedoService :=
  -- drop the undo/redo stack for all affected resources
  (removeAllElements element.strResources s).notify .error

def setLocks (editStackSnapshot : EditStackSnapshot) (locked : Bool) : UndoRedoService :=
  editStackSnapshot.foldl (fun s entry => s.updateStack entry.1 fun stack => { stack with locked }) s

/-- `_safeInvokeWithLocks` up to the call of the element. -/
def safeInvokeWithLocks (direction : Direction) (element : StackElement) (editStackSnapshot : EditStackSnapshot) :
    UndoRedoService :=
  if (editStackSnapshot.any fun entry => (s.stackAt entry.1).locked) then s.throwing .cannotAcquireEditStackLock
  else (s.setLocks editStackSnapshot true).schedule (.invoke direction element editStackSnapshot)

/-- The closest element of a stack, of those `wanted`, that none is `better` than, with its resource. -/
def findClosest (side : Side) (wanted : StackElement → Bool) (better : StackElement → StackElement → Bool) :
    Option (StackElement × String) :=
  s.editStacks.foldl (fun found entry =>
    match (s.stackAt entry.2).getClosest side with
    | none => found
    | some candidate =>
      if wanted candidate && found.all fun best => better candidate best.1 then some (candidate, entry.1) else found) none

def findClosestUndoElementWithSource (sourceId : Nat) : Option (StackElement × String) :=
  if sourceId = 0 then none
  else s.findClosest .past (fun element => element.sourceId = sourceId) fun a b => a.sourceOrder > b.sourceOrder

def findClosestRedoElementWithSource (sourceId : Nat) : Option (StackElement × String) :=
  if sourceId = 0 then none
  else s.findClosest .future (fun element => element.sourceId = sourceId) fun a b => a.sourceOrder < b.sourceOrder

def findClosestUndoElementInGroup (groupId : Nat) : Option (StackElement × String) :=
  if groupId = 0 then none
  else s.findClosest .past (fun element => element.groupId = groupId) fun a b => a.groupOrder > b.groupOrder

def findClosestRedoElementInGroup (groupId : Nat) : Option (StackElement × String) :=
  if groupId = 0 then none
  else s.findClosest .future (fun element => element.groupId = groupId) fun a b => a.groupOrder < b.groupOrder

def findClosestInGroup : Direction → Nat → Option (StackElement × String)
  | .undo _ => s.findClosestUndoElementInGroup
  | .redo => s.findClosestRedoElementInGroup

/-- `_continueUndoInGroup` and `_continueRedoInGroup`; the empty string is no resource here. -/
def continueInGroup (direction : Direction) (groupId : Nat) : UndoRedoService :=
  match s.findClosestInGroup direction groupId with
  | some (_, strResource) => if strResource = "" then s else s.schedule (direction.call strResource)
  | none => s

/-- The element in the group of this one that should be undone or redone before it. -/
def findBefore (direction : Direction) (element : StackElement) : Option String :=
  match s.findClosestInGroup direction element.groupId with
  | some (matched, strResource) => if element ≠ matched ∧ strResource ≠ "" then some strResource else none
  | none => none

/-- The callback of `_resourceUndo` and `_resourceRedo` -/
def moveAndInvoke (direction : Direction) (editStack : Nat) (element : StackElement) : UndoRedoService :=
  let s := s.updateStack editStack fun stack => stack.move direction.side element
  s.safeInvokeWithLocks direction element [(editStack, (s.stackAt editStack).versionId)]

/-- `_resourceUndo` and `_resourceRedo`, with `_invokeResourcePrepare` -/
def resourceUndoRedo (direction : Direction) (editStack : Nat) (element : StackElement) : UndoRedoService :=
  if !s.isValid element then
    -- invalid element => immediately flush edit stack!
    s.updateStack editStack ResourceEditStack.flushAllElements
  else if (s.stackAt editStack).locked then
    s.notify (.warn ("Could not " ++ direction.side.verb ++ " '" ++ element.actual.label ++
      "' because there is already an undo or redo operation running."))
  else if element.actual.prepareUndoRedo then s.schedule (.prepareResource direction editStack element)
  else s.moveAndInvoke direction editStack element

def isPartOfUndoGroup (element : StackElement) : Bool :=
  element.groupId ≠ 0 && s.editStacks.any fun entry =>
    match (s.stackAt entry.2).getClosestPastElement with
    | none => false
    | some pastElement =>
      (pastElement = element &&
        (s.stackAt entry.2).getSecondClosestPastElement.any fun second => second.groupId = element.groupId) ||
      pastElement.groupId = element.groupId

/-- `_confirmAndExecuteWorkspaceUndo` up to its first `await` -/
def confirmAndExecuteWorkspaceUndo (strResource : String) (element : StackElement) (editStackSnapshot : EditStackSnapshot)
    (undoConfirmed : Bool) : UndoRedoService :=
  if element.actual.split.isSome && !s.isPartOfUndoGroup element then
    s.schedule (.confirmWorkspaceUndo strResource element editStackSnapshot)
  else s.schedule (.prepareWorkspace (.undo undoConfirmed) strResource element editStackSnapshot)

def workspaceUndo (strResource : String) (element : StackElement) (undoConfirmed : Bool) : UndoRedoService :=
  let affectedEditStacks := s.getAffectedEditStacks element
  match s.checkWorkspace .past strResource element affectedEditStacks false with
  | some s => s
  | none => s.confirmAndExecuteWorkspaceUndo strResource element affectedEditStacks undoConfirmed

def workspaceRedo (strResource : String) (element : StackElement) : UndoRedoService :=
  let affectedEditStacks := s.getAffectedEditStacks element
  match s.checkWorkspace .future strResource element affectedEditStacks false with
  | some s => s
  | none => s.schedule (.prepareWorkspace .redo strResource element affectedEditStacks)

def undoResource (strResource : String) (sourceId : Nat) (undoConfirmed : Bool) : UndoRedoService :=
  match s.get strResource with
  | none => s
  | some editStack =>
    match (s.stackAt editStack).getClosestPastElement with
    | none => s
    | some element =>
      match s.findBefore (.undo undoConfirmed) element with
      | some matched => s.schedule (.undo matched sourceId undoConfirmed)
      | none =>
        if (element.sourceId ≠ sourceId ∨ element.actual.confirmBeforeUndo) ∧ !undoConfirmed then
          s.schedule (.confirmUndo strResource sourceId element)
        else
          match element.type with
          | .workspace => s.workspaceUndo strResource element undoConfirmed
          | .resource => s.resourceUndoRedo (.undo undoConfirmed) editStack element

def redoResource (strResource : String) : UndoRedoService :=
  match s.get strResource with
  | none => s
  | some editStack =>
    match (s.stackAt editStack).getClosestFutureElement with
    | none => s
    | some element =>
      match s.findBefore .redo element with
      | some matched => s.schedule (.redo matched)
      | none =>
        match element.type with
        | .workspace => s.workspaceRedo strResource element
        | .resource => s.resourceUndoRedo .redo editStack element

/-- The end of `_confirmAndExecuteWorkspaceUndo` and of `_executeWorkspaceRedo` -/
def executeWorkspace (direction : Direction) (strResource : String) (element : StackElement)
    (editStackSnapshot : EditStackSnapshot) : UndoRedoService :=
  match s.checkWorkspace direction.side strResource element editStackSnapshot true with
  | some s => s
  | none =>
    let s := editStackSnapshot.foldl
      (fun s entry => s.updateStack entry.1 fun stack => stack.move direction.side element) s
    s.safeInvokeWithLocks direction element editStackSnapshot

/-- A task goes on with its answer; with any other one nothing comes of it. -/
def resume : Task → Answer → UndoRedoService
  | .undo strResource sourceId undoConfirmed, _ => s.undoResource strResource sourceId undoConfirmed
  | .redo strResource, _ => s.redoResource strResource
  | .confirmUndo strResource sourceId _, .confirmed => s.schedule (.undo strResource sourceId true)
  | .confirmWorkspaceUndo strResource element _, .choice .this =>
    match s.splitWorkspaceElement .past element (element.actual.split.getD []) none with
    | (s, true) => s.schedule (.undo strResource 0 true)
    | (s, false) => s
  | .confirmWorkspaceUndo strResource element editStackSnapshot, .choice .all =>
    match s.checkWorkspace .past strResource element editStackSnapshot false with
    | some s => s
    | none => s.schedule (.prepareWorkspace (.undo true) strResource element editStackSnapshot)
  | .prepareWorkspace direction strResource element editStackSnapshot, .resolved =>
    s.executeWorkspace direction strResource element editStackSnapshot
  | .prepareWorkspace _ _ element _, .rejected => s.onError element
  | .prepareResource direction editStack element, .resolved => s.moveAndInvoke direction editStack element
  | .invoke direction element editStackSnapshot, .resolved =>
    (s.setLocks editStackSnapshot false).continueInGroup direction element.groupId
  | .invoke _ element editStackSnapshot, .rejected => (s.setLocks editStackSnapshot false).onError element
  | _, _ => s

/-! ### Runs -/

inductive Action where
  | pushElement (element : UndoRedoElement) (groupId sourceId : Nat)
  | undo (strResource : String)
  | undoSource (sourceId : Nat)
  | redo (strResource : String)
  | redoSource (sourceId : Nat)
  | removeElements (strResource : String)
  | setElementsValidFlag (strResource : String) (isValid : Bool) (filter : UndoRedoElement → Bool)
  | restoreSnapshot (strResource : String) (snapshot : List Nat)
  | resume (task : Nat) (answer : Answer)

def step : Action → UndoRedoService
  | .pushElement element groupId sourceId => s.pushElement element groupId sourceId
  | .undo strResource => s.undoResource strResource 0 false
  | .undoSource sourceId =>
    match s.findClosestUndoElementWithSource sourceId with
    | some (_, strResource) => if strResource = "" then s else s.undoResource strResource sourceId false
    | none => s
  | .redo strResource => s.redoResource strResource
  | .redoSource sourceId =>
    match s.findClosestRedoElementWithSource sourceId with
    | some (_, strResource) => if strResource = "" then s else s.redoResource strResource
    | none => s
  | .removeElements strResource => s.removeElements strResource
  | .setElementsValidFlag strResource isValid filter => s.setElementsValidFlag strResource isValid filter
  | .restoreSnapshot strResource snapshot => s.restoreSnapshot strResource snapshot
  | .resume index answer =>
    match s.tasks[index]? with
    | none => s
    | some task => { s with tasks := s.tasks.eraseIdx index }.resume task answer

def run (actions : List Action) : UndoRedoService := actions.foldl step s

end UndoRedoService

end TongjiCode.UndoRedo
