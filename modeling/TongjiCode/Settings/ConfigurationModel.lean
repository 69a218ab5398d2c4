import TongjiCode.Base.JsString

/-!
# Configuration models

`ConfigurationModel` of `configurationModels.ts` with the functions of `configuration.ts` and
`configurationRegistry.ts` that it calls.  Settings are JSON values; the properties of an object are its own ones.
A call that throws gives `none`.
-/

namespace TongjiCode.Settings

/-! ## Values -/

mutual

/-- A JSON value.  An array is an object whose properties are its indices. -/
inductive Value where
  | null
  | boolean (b : Bool)
  | number (n : Rat)
  | string (s : JsString)
  | object (isArray : Bool) (properties : Properties)

inductive Properties where
  | nil
  | cons (key : JsString) (value : Value) (rest : Properties)

end

deriving instance DecidableEq for Value, Properties

namespace Properties

/-- `properties[key]`. -/
def get? : Properties → JsString → Option Value
  | nil, _ => none
  | cons key value rest, k => if key = k then some value else rest.get? k

/-- `properties[key] = value`. -/
def set : Properties → JsString → Value → Properties
  | nil, k, v => cons k v nil
  | cons key value rest, k, v => if key = k then cons key v rest else cons key value (rest.set k v)

/-- `delete properties[key]`. -/
def delete : Properties → JsString → Properties
  | nil, _ => nil
  | cons key value rest, k => if key = k then rest else cons key value (rest.delete k)

def keys : Properties → List JsString
  | nil => []
  | cons key _ rest => key :: rest.keys

def isEmpty : Properties → Bool
  | nil => true
  | cons .. => false

end Properties

namespace Value

/-- The value counts as true in a condition. -/
def truthy : Value → Bool
  | null => false
  | boolean b => b
  | number n => n ≠ 0
  | string s => !s.isEmpty
  | object .. => true

def indexKey (i : Nat) : JsString := (Nat.toDigits 10 i).map fun c => UInt16.ofNat c.toNat

/-- The own properties that `Object.keys` and `for … in` enumerate, for the values that have any. -/
def ownProperties : Value → Properties
  | object _ properties => properties
  | string s => (s.zipIdx.map fun (c, i) => (indexKey i, string [c])).foldr
      (fun (key, value) rest => .cons key value rest) .nil
  | _ => .nil

end Value

/-! ## Value trees -/

/-- `key.split('.')`. -/
def segments (key : JsString) : List JsString := key.splitOn 46

open List in
theorem not_mem_of_splitOn (separator : UInt16) (key : JsString) :
    ∀ part ∈ key.splitOn separator, separator ∉ part := by
  induction key with
  | nil =>
    intro part hpart
    rw [splitOn_nil, mem_singleton] at hpart
    rw [hpart]
    exact not_mem_nil
  | cons c key ih =>
    rw [List.splitOn, splitOnP_cons_eq_if_modifyHead]
    change ∀ part ∈ (if c == separator then [] :: key.splitOn separator
      else (key.splitOn separator).modifyHead (c :: ·)), separator ∉ part
    split_ifs with hc
    · intro part hpart
      rw [mem_cons] at hpart
      rcases hpart with rfl | hpart
      · exact not_mem_nil
      · exact ih part hpart
    · cases hparts : key.splitOn separator with
      | nil => simp
      | cons part parts =>
        rw [hparts] at ih
        intro part' hpart'
        rw [modifyHead_cons, mem_cons] at hpart'
        rcases hpart' with rfl | hpart'
        · have := ih part mem_cons_self
          simp only [mem_cons, not_or]
          exact ⟨fun heq => hc (by rw [heq]; simp), this⟩
        · exact ih part' (mem_cons_of_mem part hpart')

/-- `addToValueTree` with the segments of the key.  What cannot be set is reported and left; to go on below a `null`
throws. -/
def addToValueTree (curr : Properties) : List JsString → Value → Option Properties
  | [], _ => some curr
  | [last], value => some (curr.set last value)
  | s :: next :: rest, value =>
    match curr.get? s with
    | none => (addToValueTree .nil (next :: rest) value).map fun obj => curr.set s (.object false obj)
    | some (.object isArray obj) =>
      (addToValueTree obj (next :: rest) value).map fun obj => curr.set s (.object isArray obj)
    | some .null => if rest.isEmpty then some curr else none
    | some _ => some curr

def removeFromValueTree (valueTree : Properties) : List JsString → Option Properties
  | [] => some valueTree
  | [first] => some (valueTree.delete first)
  | first :: next :: rest =>
    match valueTree.get? first with
    | some (.object false value) =>
      (removeFromValueTree value (next :: rest)).map fun value =>
        if value.isEmpty then valueTree.delete first else valueTree.set first (.object false value)
    | some .null => none
    | _ => some valueTree

def toValuesTree : Properties → Properties → Option Properties
  | .nil, root => some root
  | .cons key value rest, root => (addToValueTree root (segments key) value).bind (toValuesTree rest)

/-- `accessSetting` of `getConfigurationValue`. -/
def accessSetting : Option Value → List JsString → Option Value
  | current, [] => current
  | some (.object _ properties), component :: path => accessSetting (properties.get? component) path
  | _, _ :: _ => none

def getConfigurationValue (config : Properties) (settingPath : JsString) : Option Value :=
  accessSetting (some (.object false config)) (segments settingPath)

/-! ## Override keys -/

/-- The texts between the brackets of a key of the form `[a][b]…`; `group` is the text of a bracket that is open. -/
def bracketGroups : Option JsString → JsString → Option (List JsString)
  | none, [] => some []
  | none, c :: rest => if c = 91 then bracketGroups (some []) rest else none
  | some _, [] => none
  | some group, c :: rest =>
    if c = 93 then
      if group.isEmpty then none else (bracketGroups none rest).map (group :: ·)
    else bracketGroups (some (group ++ [c])) rest

/-- `OVERRIDE_PROPERTY_REGEX.test(key)`. -/
def isOverrideProperty (key : JsString) : Bool := !key.isEmpty && (bracketGroups none key).isSome

/-- The code units that `trim` takes away. -/
def isWhitespace (c : UInt16) : Bool :=
  (9 ≤ c && c ≤ 13) || c = 32 || c = 160 || c = 5760 || (8192 ≤ c && c ≤ 8202) || c = 8232 || c = 8233 || c = 8239 ||
    c = 8287 || c = 12288 || c = 65279

def trim (s : JsString) : JsString := ((s.dropWhile isWhitespace).reverse.dropWhile isWhitespace).reverse

def overrideIdentifiersFromKey (key : JsString) : List JsString :=
  (((bracketGroups none key).getD []).map trim |>.filter fun identifier => !identifier.isEmpty).eraseDups

/-! ## Merging -/

mutual

/-- What is left at a key at which the source has `value` and the target the other value. -/
def mergeValue (value : Option Value) : Value → Value
  | .object false target =>
    match value with
    | some (.object false source) => .object false (mergeContents source target)
    | _ => .object false target
  | target => target

def mergeContents (source : Properties) : Properties → Properties
  | .nil => source
  | .cons key target rest => mergeContents (source.set key (mergeValue (source.get? key) target)) rest

end

structure IOverrides where
  identifiers : List JsString
  keys : List JsString
  contents : Properties
deriving DecidableEq

/-- `IConfigurationModel`: what a model says. -/
structure IConfigurationModel where
  contents : Properties := .nil
  keys : List JsString := []
  overrides : List IOverrides := []
deriving DecidableEq

namespace IConfigurationModel

def isEmpty (m : IConfigurationModel) : Bool := m.keys.isEmpty && m.contents.isEmpty && m.overrides.isEmpty

/-- `getValue`.  No section, or the empty one, asks for everything. -/
def getValue (m : IConfigurationModel) : Option JsString → Option Value
  | some (c :: section') => getConfigurationValue m.contents (c :: section')
  | _ => some (.object false m.contents)

/-- One turn of the loop over the overrides of the other model. -/
def mergeOverride (otherOverride : IOverrides) : List IOverrides → List IOverrides
  | [] => [otherOverride]
  | override :: overrides =>
    if override.identifiers = otherOverride.identifiers then
      { override with
        contents := mergeContents override.contents otherOverride.contents
        keys := (override.keys ++ otherOverride.keys).eraseDups } :: overrides
    else override :: mergeOverride otherOverride overrides

/-- One turn of the loop over the other models. -/
def mergeOther (m other : IConfigurationModel) : IConfigurationModel :=
  if other.isEmpty then m
  else
    { contents := mergeContents m.contents other.contents
      overrides := other.overrides.foldl (fun overrides otherOverride => mergeOverride otherOverride overrides) m.overrides
      keys := other.keys.foldl (fun keys key => if key ∈ keys then keys else keys ++ [key]) m.keys }

def merge (m : IConfigurationModel) (others : List IConfigurationModel) : IConfigurationModel := others.foldl mergeOther m

/-! ## Overriding -/

/-- The local function `mergeContents` of `getContentsForOverrideIdentifer`. -/
def mergeInto (contents : Option Properties) (contentsToMerge : Properties) : Option Properties :=
  match contents with
  | some contents => some (mergeContents contents contentsToMerge)
  | none => some contentsToMerge

/-- One turn of the loop of `getContentsForOverrideIdentifer`, on `contentsForIdentifierOnly` and `contents`. -/
def collectOverride (identifier : JsString) (collected : Option Properties × Option Properties) (override : IOverrides) :
    Option Properties × Option Properties :=
  if override.identifiers = [identifier] then (some override.contents, collected.2)
  else if identifier ∈ override.identifiers then (collected.1, mergeInto collected.2 override.contents)
  else collected

def getContentsForOverrideIdentifer (m : IConfigurationModel) (identifier : JsString) : Option Properties :=
  match m.overrides.foldl (collectOverride identifier) (none, none) with
  | (some contentsForIdentifierOnly, contents) => mergeInto contents contentsForIdentifierOnly
  | (none, contents) => contents

def getOverrideValue (m : IConfigurationModel) (section' : Option JsString) (identifier : JsString) : Option Value :=
  match m.getContentsForOverrideIdentifer identifier with
  | some contents => { contents : IConfigurationModel }.getValue section'
  | none => none

/-- The contents for a key with the override contents for it.  Writing to the properties of `null` throws. -/
def overrideContentsForKey (contentsForKey : Option Value) (override : Value) : Option (Option Value) :=
  if override.truthy then
    match contentsForKey, override with
    | some (.object isArray contents), .object _ override => some (some (.object isArray (mergeContents contents override)))
    | some .null, .object _ override => if override.isEmpty then some (some .null) else none
    | _, override => some (some override)
  else some contentsForKey

/-- One turn of the loop over the keys; a key that has no contents is not set. -/
def overrideKey (m : IConfigurationModel) (overrideContents : Properties) (contents : Properties) (key : JsString) :
    Option Properties :=
  let contentsForKey := m.contents.get? key
  let overridden := match overrideContents.get? key with
    | some override => overrideContentsForKey contentsForKey override
    | none => some contentsForKey
  overridden.map fun contentsForKey => match contentsForKey with
    | some value => contents.set key value
    | none => contents

/-- `createOverrideConfigurationModel`: the contents of the new model, whose keys and overrides are those of this one, or
`some none` where the model itself is returned. -/
def createOverrideConfigurationModel (m : IConfigurationModel) (identifier : JsString) : Option (Option Properties) :=
  match m.getContentsForOverrideIdentifer identifier with
  | none => some none
  | some overrideContents =>
    if overrideContents.isEmpty then some none
    else
      (((m.contents.keys ++ overrideContents.keys).eraseDups).foldlM (m.overrideKey overrideContents) .nil).map some

def withContents (m : IConfigurationModel) : Option Properties → IConfigurationModel
  | some contents => { m with contents }
  | none => m

/-! ## Updates

They change the model as they go; the second component says that the call threw. -/

def newOverride (m : IConfigurationModel) (key : JsString) : Option IOverrides :=
  match m.contents.get? key with
  | none => none
  | some .null => none
  | some value =>
    (toValuesTree value.ownProperties .nil).map fun contents =>
      { identifiers := overrideIdentifiersFromKey key, keys := value.ownProperties.keys, contents }

def setValue (m : IConfigurationModel) (key : JsString) (value : Value) : IConfigurationModel × Bool :=
  match addToValueTree m.contents (segments key) value with
  | none => (m, true)
  | some contents =>
    let m := { m with contents, keys := if key ∈ m.keys then m.keys else m.keys ++ [key] }
    if isOverrideProperty key then
      match m.newOverride key with
      | some override => ({ m with overrides := m.overrides ++ [override] }, false)
      | none => (m, true)
    else (m, false)

/-- The overrides without the first one for these identifiers; `splice(-1, 1)` takes the last one. -/
def spliceOverride (identifiers : List JsString) (overrides : List IOverrides) : List IOverrides :=
  match overrides.findIdx? fun o => o.identifiers = identifiers with
  | some index => overrides.eraseIdx index
  | none => overrides.dropLast

def removeValue (m : IConfigurationModel) (key : JsString) : IConfigurationModel × Bool :=
  if key ∈ m.keys then
    let m := { m with keys := m.keys.erase key }
    match removeFromValueTree m.contents (segments key) with
    | none => (m, true)
    | some contents =>
      let m := { m with contents }
      if isOverrideProperty key then
        ({ m with overrides := spliceOverride (overrideIdentifiersFromKey key) m.overrides }, false)
      else (m, false)
  else (m, false)

/-- What `Configuration.updateValue` does to a memory model; an `undefined` value removes. -/
def update (m : IConfigurationModel) (key : JsString) : Option Value → IConfigurationModel × Bool
  | none => m.removeValue key
  | some value => m.setValue key value

end IConfigurationModel

end TongjiCode.Settings
