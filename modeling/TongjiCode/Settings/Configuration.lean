import Mathlib.Data.List.AList
import TongjiCode.Settings.ConfigurationModel

/-!
# Configurations

`Configuration` of `configurationModels.ts`: the models of all the layers, and the merged models it keeps.  A merged
model keeps the models it made for override identifiers.

The models of the layers keep such models too, but nothing here asks them for one except the values that `inspect`
hands out, which are computed later and apart from the configuration.  These values are also frozen then; that a frozen
value of the memory cannot be updated any more is left out.
-/

namespace TongjiCode.Settings

/-- A `ConfigurationModel` with its `overrideConfigurations`: of each the contents, or `none` where it is the model
itself. -/
structure ConfigurationModel extends IConfigurationModel where
  overrideConfigurations : AList fun _ : JsString => Option Properties := ∅

/-- `override`: the model with what it keeps from now on, and the overriding model. -/
def ConfigurationModel.override (m : ConfigurationModel) (identifier : JsString) :
    Option (ConfigurationModel × IConfigurationModel) :=
  match m.overrideConfigurations.lookup identifier with
  | some contents => some (m, m.withContents contents)
  | none =>
    (m.createOverrideConfigurationModel identifier).map fun contents =>
      ({ m with overrideConfigurations := m.overrideConfigurations.insert identifier contents }, m.withContents contents)

section

variable (Uri : Type) [DecidableEq Uri]

/-- A `ResourceMap`; a resource is known by its string. -/
abbrev ResourceMap (V : Type) := AList fun _ : Uri => V

/-- A workspace as far as it is asked: the folder that a resource is in. -/
structure Workspace where
  getFolder : Uri → Option Uri

structure IConfigurationOverrides where
  overrideIdentifier : Option JsString := none
  resource : Option Uri := none

structure Configuration where
  defaultConfiguration : IConfigurationModel
  policyConfiguration : IConfigurationModel
  applicationConfiguration : IConfigurationModel
  localUserConfiguration : IConfigurationModel
  remoteUserConfiguration : IConfigurationModel := {}
  workspaceConfiguration : IConfigurationModel := {}
  folderConfigurations : ResourceMap Uri IConfigurationModel := ∅
  memoryConfiguration : IConfigurationModel := {}
  memoryConfigurationByResource : ResourceMap Uri IConfigurationModel := ∅
  /-- `_userConfiguration` -/
  userConfiguration? : Option IConfigurationModel := none
  workspaceConsolidatedConfiguration : Option ConfigurationModel := none
  foldersConsolidatedConfigurations : ResourceMap Uri ConfigurationModel := ∅

/-- Where an object that is asked for an override is kept. -/
inductive Holder where
  | workspace
  | folder (folder : Uri)
  | nobody

end

namespace Configuration

variable {Uri : Type} [DecidableEq Uri]

/-- A new object with the models of this one. -/
def rebuilt (s : Configuration Uri) : Configuration Uri :=
  { s with userConfiguration? := none, workspaceConsolidatedConfiguration := none, foldersConsolidatedConfigurations := ∅ }

/-! ## Consolidated models -/

def userConfiguration (s : Configuration Uri) : Configuration Uri × IConfigurationModel :=
  match s.userConfiguration? with
  | some m => (s, m)
  | none =>
    let m := if s.remoteUserConfiguration.isEmpty then s.localUserConfiguration
      else s.localUserConfiguration.merge [s.remoteUserConfiguration]
    ({ s with userConfiguration? := some m }, m)

def getWorkspaceConsolidatedConfiguration (s : Configuration Uri) : Configuration Uri × ConfigurationModel :=
  match s.workspaceConsolidatedConfiguration with
  | some m => (s, m)
  | none =>
    let (s, user) := s.userConfiguration
    let m : ConfigurationModel := { s.defaultConfiguration.merge
      [s.applicationConfiguration, user, s.workspaceConfiguration, s.memoryConfiguration] with }
    ({ s with workspaceConsolidatedConfiguration := some m }, m)

def getFolderConsolidatedConfiguration (s : Configuration Uri) (folder : Uri) :
    Configuration Uri × Holder Uri × ConfigurationModel :=
  match s.foldersConsolidatedConfigurations.lookup folder with
  | some m => (s, .folder folder, m)
  | none =>
    let (s, workspaceConsolidateConfiguration) := s.getWorkspaceConsolidatedConfiguration
    match s.folderConfigurations.lookup folder with
    | some folderConfiguration =>
      let m : ConfigurationModel := { workspaceConsolidateConfiguration.merge [folderConfiguration] with }
      ({ s with foldersConsolidatedConfigurations := s.foldersConsolidatedConfigurations.insert folder m },
        .folder folder, m)
    | none => (s, .workspace, workspaceConsolidateConfiguration)

def getConsolidatedConfigurationModelForResource (s : Configuration Uri) (resource : Option Uri)
    (workspace : Option (Workspace Uri)) : Configuration Uri × Holder Uri × ConfigurationModel :=
  let (s, m) := s.getWorkspaceConsolidatedConfiguration
  match workspace, resource with
  | some workspace, some resource =>
    let (s, holder, m) := match workspace.getFolder resource with
      | some root => s.getFolderConsolidatedConfiguration root
      | none => (s, .workspace, m)
    match s.memoryConfigurationByResource.lookup resource with
    | some memoryConfigurationForResource => (s, .nobody, { m.merge [memoryConfigurationForResource] with })
    | none => (s, holder, m)
  | _, _ => (s, .workspace, m)

/-- The object of the holder has changed. -/
def store (s : Configuration Uri) (m : ConfigurationModel) : Holder Uri → Configuration Uri
  | .workspace => { s with workspaceConsolidatedConfiguration := some m }
  | .folder folder =>
    { s with foldersConsolidatedConfigurations := s.foldersConsolidatedConfigurations.insert folder m }
  | .nobody => s

/-- The policy has the last word on a section that it has a value for. -/
def withPolicy (s : Configuration Uri) (section' : Option JsString) (m : IConfigurationModel) : IConfigurationModel :=
  if !s.policyConfiguration.isEmpty && (s.policyConfiguration.getValue section').isSome then m.merge [s.policyConfiguration]
  else m

def getConsolidatedConfigurationModel (s : Configuration Uri) (section' : Option JsString)
    (overrides : IConfigurationOverrides Uri) (workspace : Option (Workspace Uri)) :
    Configuration Uri × Option IConfigurationModel :=
  let (s, holder, m) := s.getConsolidatedConfigurationModelForResource overrides.resource workspace
  match overrides.overrideIdentifier with
  | some (c :: identifier) =>
    match m.override (c :: identifier) with
    | some (m, overriding) => (s.store m holder, some (s.withPolicy section' overriding))
    | none => (s, none)
  | _ => (s, some (s.withPolicy section' m.toIConfigurationModel))

/-! ## Reading -/

/-- `getValue`; the outer option is `none` if the call throws, the inner one if the value is `undefined`. -/
def getValue (s : Configuration Uri) (section' : Option JsString) (overrides : IConfigurationOverrides Uri)
    (workspace : Option (Workspace Uri)) : Configuration Uri × Option (Option Value) :=
  let (s, m) := s.getConsolidatedConfigurationModel section' overrides workspace
  (s, m.map fun m => m.getValue section')

/-- `inspect`, with the value and the override identifiers of its result. -/
def inspect (s : Configuration Uri) (key : JsString) (overrides : IConfigurationOverrides Uri)
    (workspace : Option (Workspace Uri)) : Configuration Uri × Option (Option Value × List JsString) :=
  match s.getConsolidatedConfigurationModel (some key) overrides workspace with
  | (s, none) => (s, none)
  | (s, some m) =>
    let overrideIdentifiers := ((m.overrides.flatMap fun override => override.identifiers).filter fun overrideIdentifier =>
      (m.getOverrideValue (some key) overrideIdentifier).isSome).eraseDups
    (s.userConfiguration.1, some (m.getValue (some key), overrideIdentifiers))

/-! ## Updating -/

/-- `updateValue`.  A call that throws ends before the merged model is given up. -/
def updateValue (s : Configuration Uri) (key : JsString) (value : Option Value) : Option Uri → Configuration Uri
  | some resource =>
    let memoryConfiguration := (s.memoryConfigurationByResource.lookup resource).getD {}
    { s with memoryConfigurationByResource :=
        s.memoryConfigurationByResource.insert resource (memoryConfiguration.update key value).1 }
  | none =>
    match s.memoryConfiguration.update key value with
    | (memoryConfiguration, true) => { s with memoryConfiguration }
    | (memoryConfiguration, false) => { s with memoryConfiguration, workspaceConsolidatedConfiguration := none }

def updateDefaultConfiguration (s : Configuration Uri) (defaultConfiguration : IConfigurationModel) : Configuration Uri :=
  { s with
    defaultConfiguration
    workspaceConsolidatedConfiguration := none
    foldersConsolidatedConfigurations := ∅ }

def updatePolicyConfiguration (s : Configuration Uri) (policyConfiguration : IConfigurationModel) : Configuration Uri :=
  { s with policyConfiguration }

def updateApplicationConfiguration (s : Configuration Uri) (applicationConfiguration : IConfigurationModel) :
    Configuration Uri :=
  { s with
    applicationConfiguration
    workspaceConsolidatedConfiguration := none
    foldersConsolidatedConfigurations := ∅ }

def updateLocalUserConfiguration (s : Configuration Uri) (localUserConfiguration : IConfigurationModel) :
    Configuration Uri :=
  { s with
    localUserConfiguration
    userConfiguration? := none
    workspaceConsolidatedConfiguration := none
    foldersConsolidatedConfigurations := ∅ }

def updateRemoteUserConfiguration (s : Configuration Uri) (remoteUserConfiguration : IConfigurationModel) :
    Configuration Uri :=
  { s with
    remoteUserConfiguration
    userConfiguration? := none
    workspaceConsolidatedConfiguration := none
    foldersConsolidatedConfigurations := ∅ }

def updateWorkspaceConfiguration (s : Configuration Uri) (workspaceConfiguration : IConfigurationModel) :
    Configuration Uri :=
  { s with
    workspaceConfiguration
    workspaceConsolidatedConfiguration := none
    foldersConsolidatedConfigurations := ∅ }

def updateFolderConfiguration (s : Configuration Uri) (resource : Uri) (configuration : IConfigurationModel) :
    Configuration Uri :=
  { s with
    folderConfigurations := s.folderConfigurations.insert resource configuration
    foldersConsolidatedConfigurations := s.foldersConsolidatedConfigurations.erase resource }

def deleteFolderConfiguration (s : Configuration Uri) (resource : Uri) : Configuration Uri :=
  { s with
    folderConfigurations := s.folderConfigurations.erase resource
    foldersConsolidatedConfigurations := s.foldersConsolidatedConfigurations.erase resource }

end Configuration

end TongjiCode.Settings
