import TongjiCode.Settings.Configuration

/-!
# What a configuration keeps is up to date

`Fresh` says of a configuration that each merged model it keeps is the one that its models give now.  Every operation
keeps it but one: `updateValue` without a resource gives up the merged model of the workspace only, and not even that
one if it throws on its way.
-/

namespace TongjiCode.Settings

/-- The model is this one, and what it keeps are its overriding models. -/
structure ConfigurationModel.Keeps (m : ConfigurationModel) (model : IConfigurationModel) : Prop where
  same : m.toIConfigurationModel = model
  overrides : ∀ identifier contents, m.overrideConfigurations.lookup identifier = some contents →
    model.createOverrideConfigurationModel identifier = some contents

theorem ConfigurationModel.keeps_new (model : IConfigurationModel) : ConfigurationModel.Keeps { model with } model :=
  ⟨rfl, fun _ _ h => nomatch h⟩

def IConfigurationModel.overriding (model : IConfigurationModel) (identifier : JsString) : Option IConfigurationModel :=
  (model.createOverrideConfigurationModel identifier).map model.withContents

theorem ConfigurationModel.Keeps.override {m : ConfigurationModel} {model : IConfigurationModel} (h : m.Keeps model)
    (identifier : JsString) :
    (m.override identifier).map Prod.snd = model.overriding identifier ∧
      ∀ m' overriding, m.override identifier = some (m', overriding) → m'.Keeps model := by
  obtain ⟨rfl, hoverrides⟩ := h
  unfold ConfigurationModel.override IConfigurationModel.overriding
  cases hlookup : m.overrideConfigurations.lookup identifier with
  | some contents =>
    rw [hoverrides _ _ hlookup]
    refine ⟨rfl, fun m' overriding heq => ?_⟩
    cases heq
    exact ⟨rfl, hoverrides⟩
  | none =>
    cases hcreate : m.createOverrideConfigurationModel identifier with
    | none => exact ⟨rfl, fun _ _ heq => nomatch heq⟩
    | some contents =>
      refine ⟨rfl, fun m' overriding heq => ?_⟩
      cases heq
      refine ⟨rfl, fun identifier' contents' hlookup' => ?_⟩
      by_cases hsame : identifier' = identifier
      · subst hsame
        rw [AList.lookup_insert] at hlookup'
        cases hlookup'
        exact hcreate
      · rw [AList.lookup_insert_ne hsame] at hlookup'
        exact hoverrides _ _ hlookup'

namespace Configuration

variable {Uri : Type}

/-! ## What the models give now

It does not depend on what is kept: two configurations that are rebuilt alike give the same. -/

def user (s : Configuration Uri) : IConfigurationModel :=
  if s.remoteUserConfiguration.isEmpty then s.localUserConfiguration
  else s.localUserConfiguration.merge [s.remoteUserConfiguration]

def workspaceModel (s : Configuration Uri) : IConfigurationModel :=
  s.defaultConfiguration.merge
    [s.applicationConfiguration, s.user, s.workspaceConfiguration, s.memoryConfiguration]

section SameModels

variable {s s' : Configuration Uri}

section

variable (h : s'.rebuilt = s.rebuilt)
include h

theorem user_eq : s'.user = s.user := by
  show s'.rebuilt.user = s.rebuilt.user
  rw [h]

theorem workspaceModel_eq : s'.workspaceModel = s.workspaceModel := by
  show s'.rebuilt.workspaceModel = s.rebuilt.workspaceModel
  rw [h]

theorem withPolicy_eq : s'.withPolicy = s.withPolicy := by
  show s'.rebuilt.withPolicy = s.rebuilt.withPolicy
  rw [h]

theorem folderConfigurations_eq : s'.folderConfigurations = s.folderConfigurations := by
  show s'.rebuilt.folderConfigurations = s.rebuilt.folderConfigurations
  rw [h]

theorem memoryConfigurationByResource_eq :
    s'.memoryConfigurationByResource = s.memoryConfigurationByResource := by
  show s'.rebuilt.memoryConfigurationByResource = s.rebuilt.memoryConfigurationByResource
  rw [h]

end

end SameModels

variable [DecidableEq Uri]

def folderModel (s : Configuration Uri) (folder : Uri) : IConfigurationModel :=
  match s.folderConfigurations.lookup folder with
  | some folderConfiguration => s.workspaceModel.merge [folderConfiguration]
  | none => s.workspaceModel

theorem folderModel_eq {s s' : Configuration Uri} (h : s'.rebuilt = s.rebuilt) (folder : Uri) :
    s'.folderModel folder = s.folderModel folder := by
  show s'.rebuilt.folderModel folder = s.rebuilt.folderModel folder
  rw [h]

/-- The model for a resource in this folder, or in none. -/
def rootModel (s : Configuration Uri) : Option Uri → IConfigurationModel
  | some root => s.folderModel root
  | none => s.workspaceModel

def resourceModel (s : Configuration Uri) (resource : Option Uri) (workspace : Option (Workspace Uri)) :
    IConfigurationModel :=
  match workspace, resource with
  | some workspace, some resource =>
    match s.memoryConfigurationByResource.lookup resource with
    | some memoryConfigurationForResource =>
      (s.rootModel (workspace.getFolder resource)).merge [memoryConfigurationForResource]
    | none => s.rootModel (workspace.getFolder resource)
  | _, _ => s.workspaceModel

def model (s : Configuration Uri) (section' : Option JsString) (overrides : IConfigurationOverrides Uri)
    (workspace : Option (Workspace Uri)) : Option IConfigurationModel :=
  let m := s.resourceModel overrides.resource workspace
  match overrides.overrideIdentifier with
  | some (c :: identifier) => (m.overriding (c :: identifier)).map (s.withPolicy section')
  | _ => some (s.withPolicy section' m)

/-- Each merged model that is kept is the one that the models give now. -/
structure Fresh (s : Configuration Uri) : Prop where
  user : ∀ m, s.userConfiguration? = some m → m = s.user
  workspace : ∀ m, s.workspaceConsolidatedConfiguration = some m → m.Keeps s.workspaceModel
  folders : ∀ folder m, s.foldersConsolidatedConfigurations.lookup folder = some m → m.Keeps (s.folderModel folder)

/-- Where the model that the object stands for is kept. -/
def FitsHolder (s : Configuration Uri) (model : IConfigurationModel) : Holder Uri → Prop
  | .workspace => model = s.workspaceModel
  | .folder folder => model = s.folderModel folder
  | .nobody => True

theorem fresh_rebuilt (s : Configuration Uri) : s.rebuilt.Fresh :=
  ⟨fun _ h => (nomatch h), fun _ h => (nomatch h), fun _ _ h => (nomatch h)⟩

/-! ## Reading keeps the models and what is kept fresh -/

section Reading

variable {s : Configuration Uri}

theorem Fresh.userConfiguration (h : s.Fresh) :
    s.userConfiguration.1.rebuilt = s.rebuilt ∧ s.userConfiguration.1.Fresh ∧ s.userConfiguration.2 = s.user := by
  unfold Configuration.userConfiguration
  cases huser : s.userConfiguration? with
  | some m => exact ⟨rfl, h, h.user m huser⟩
  | none =>
    refine ⟨rfl, ⟨fun m hm => ?_, h.workspace, h.folders⟩, rfl⟩
    cases hm
    rfl

theorem Fresh.getWorkspaceConsolidatedConfiguration (h : s.Fresh) {s' : Configuration Uri} {m : ConfigurationModel}
    (heq : s.getWorkspaceConsolidatedConfiguration = (s', m)) :
    s'.rebuilt = s.rebuilt ∧ s'.Fresh ∧ m.Keeps s.workspaceModel := by
  unfold Configuration.getWorkspaceConsolidatedConfiguration at heq
  split at heq
  · next kept hkept =>
    cases heq
    exact ⟨rfl, h, h.workspace m hkept⟩
  · obtain ⟨hsame, hfresh, huser⟩ := h.userConfiguration
    generalize s.userConfiguration = result at *
    obtain ⟨s1, user⟩ := result
    cases heq
    have hmodel : s1.defaultConfiguration.merge
        [s1.applicationConfiguration, user, s1.workspaceConfiguration, s1.memoryConfiguration] = s.workspaceModel := by
      rw [← workspaceModel_eq hsame]
      show _ = s1.defaultConfiguration.merge
        [s1.applicationConfiguration, s1.user, s1.workspaceConfiguration, s1.memoryConfiguration]
      rw [user_eq hsame, ← huser]
    have hkeeps : ConfigurationModel.Keeps { s1.defaultConfiguration.merge
        [s1.applicationConfiguration, user, s1.workspaceConfiguration, s1.memoryConfiguration] with } s.workspaceModel := by
      rw [hmodel]
      exact ConfigurationModel.keeps_new _
    refine ⟨hsame, ⟨hfresh.user, fun m hm => ?_, hfresh.folders⟩, hkeeps⟩
    cases hm
    show ConfigurationModel.Keeps _ s1.workspaceModel
    rw [workspaceModel_eq hsame]
    exact hkeeps

theorem Fresh.getFolderConsolidatedConfiguration (h : s.Fresh) {folder : Uri} {s' : Configuration Uri} {holder : Holder Uri}
    {m : ConfigurationModel} (heq : s.getFolderConsolidatedConfiguration folder = (s', holder, m)) :
    s'.rebuilt = s.rebuilt ∧ s'.Fresh ∧ m.Keeps (s.folderModel folder) ∧ s.FitsHolder (s.folderModel folder) holder := by
  unfold Configuration.getFolderConsolidatedConfiguration at heq
  split at heq
  · next kept hkept =>
    cases heq
    exact ⟨rfl, h, h.folders folder m hkept, rfl⟩
  · have hworkspace := @Fresh.getWorkspaceConsolidatedConfiguration _ _ s h
    generalize s.getWorkspaceConsolidatedConfiguration = result at heq hworkspace
    obtain ⟨s1, merged⟩ := result
    obtain ⟨hsame, hfresh, hkeeps⟩ := hworkspace rfl
    simp only at heq
    split at heq
    · next folderConfiguration hfolder =>
      cases heq
      have hmodel : merged.merge [folderConfiguration] = s.folderModel folder := by
        rw [folderConfigurations_eq hsame] at hfolder
        unfold folderModel
        rw [hfolder, hkeeps.same]
      have hnew : ConfigurationModel.Keeps { merged.merge [folderConfiguration] with } (s.folderModel folder) := by
        rw [hmodel]
        exact ConfigurationModel.keeps_new _
      refine ⟨hsame, ⟨hfresh.user, hfresh.workspace, fun other m hm => ?_⟩, hnew, rfl⟩
      show m.Keeps (s1.folderModel other)
      by_cases hother : other = folder
      · subst hother
        rw [AList.lookup_insert] at hm
        cases hm
        rw [folderModel_eq hsame]
        exact hnew
      · rw [AList.lookup_insert_ne hother] at hm
        exact hfresh.folders other m hm
    · next hfolder =>
      cases heq
      have hmodel : s.folderModel folder = s.workspaceModel := by
        rw [folderConfigurations_eq hsame] at hfolder
        unfold folderModel
        rw [hfolder]
      rw [hmodel]
      exact ⟨hsame, hfresh, hkeeps, rfl⟩

theorem FitsHolder.of_same {s1 : Configuration Uri} {model : IConfigurationModel} {holder : Holder Uri}
    (h : s1.FitsHolder model holder) (hsame : s1.rebuilt = s.rebuilt) : s.FitsHolder model holder := by
  cases holder with
  | workspace => exact h.trans (workspaceModel_eq hsame)
  | folder folder => exact h.trans (folderModel_eq hsame folder)
  | nobody => trivial

theorem Fresh.memoryForResource {s2 : Configuration Uri} {root : Option Uri} {holder2 : Holder Uri} {m2 : ConfigurationModel}
    (hsame : s2.rebuilt = s.rebuilt) (hfresh : s2.Fresh) (hkeeps : m2.Keeps (s.rootModel root))
    (hfits : s.FitsHolder (s.rootModel root) holder2) {resource : Uri} {result : Configuration Uri × Holder Uri × ConfigurationModel}
    (heq : (match s2.memoryConfigurationByResource.lookup resource with
      | some memoryConfigurationForResource =>
        (s2, .nobody, { m2.merge [memoryConfigurationForResource] with })
      | none => (s2, holder2, m2)) = result) {workspace : Workspace Uri} (hroot : workspace.getFolder resource = root) :
    result.1.rebuilt = s.rebuilt ∧ result.1.Fresh ∧ result.2.2.Keeps (s.resourceModel (some resource) (some workspace)) ∧
      s.FitsHolder (s.resourceModel (some resource) (some workspace)) result.2.1 := by
  rw [memoryConfigurationByResource_eq hsame] at heq
  simp only [resourceModel, hroot]
  cases hmemory : s.memoryConfigurationByResource.lookup resource with
  | some memory =>
    rw [hmemory] at heq
    subst heq
    rw [← hkeeps.same]
    exact ⟨hsame, hfresh, ConfigurationModel.keeps_new _, trivial⟩
  | none =>
    rw [hmemory] at heq
    subst heq
    exact ⟨hsame, hfresh, hkeeps, hfits⟩

theorem Fresh.getConsolidatedConfigurationModelForResource (h : s.Fresh) {resource : Option Uri}
    {workspace : Option (Workspace Uri)} {s' : Configuration Uri} {holder : Holder Uri} {m : ConfigurationModel}
    (heq : s.getConsolidatedConfigurationModelForResource resource workspace = (s', holder, m)) :
    s'.rebuilt = s.rebuilt ∧ s'.Fresh ∧ m.Keeps (s.resourceModel resource workspace) ∧
      s.FitsHolder (s.resourceModel resource workspace) holder := by
  unfold Configuration.getConsolidatedConfigurationModelForResource at heq
  have hworkspace := @Fresh.getWorkspaceConsolidatedConfiguration _ _ s h
  generalize s.getWorkspaceConsolidatedConfiguration = result at heq hworkspace
  obtain ⟨s1, merged⟩ := result
  obtain ⟨hsame1, hfresh1, hkeeps1⟩ := hworkspace rfl
  simp only at heq
  split at heq
  · next workspace resource =>
    cases hroot : workspace.getFolder resource with
    | some root =>
      simp only [hroot] at heq
      have hfolder := @Fresh.getFolderConsolidatedConfiguration _ _ s1 hfresh1 root
      generalize s1.getFolderConsolidatedConfiguration root = result at heq hfolder
      obtain ⟨s2, holder2, m2⟩ := result
      obtain ⟨hsame2, hfresh2, hkeeps2, hfits2⟩ := hfolder rfl
      have hfits := hfits2.of_same hsame1
      rw [folderModel_eq hsame1] at hkeeps2 hfits
      exact @Fresh.memoryForResource _ _ s s2 (some root) holder2 m2 (hsame2.trans hsame1) hfresh2 hkeeps2 hfits _ _ heq
        _ hroot
    | none =>
      simp only [hroot] at heq
      exact @Fresh.memoryForResource _ _ s s1 none .workspace merged hsame1 hfresh1 hkeeps1 rfl _ _ heq _ hroot
  · next hnot =>
    cases heq
    have hmodel : s.resourceModel resource workspace = s.workspaceModel := by
      unfold resourceModel
      split
      · next workspace resource => exact absurd rfl (hnot workspace resource rfl)
      · rfl
    rw [hmodel]
    exact ⟨hsame1, hfresh1, hkeeps1, rfl⟩

theorem Fresh.store (h : s.Fresh) {m : ConfigurationModel} {model : IConfigurationModel} (hkeeps : m.Keeps model)
    {holder : Holder Uri} (hfits : s.FitsHolder model holder) : (s.store m holder).Fresh := by
  cases holder with
  | nobody => exact h
  | workspace =>
    subst hfits
    refine ⟨h.user, fun m' hm => ?_, h.folders⟩
    cases hm
    exact hkeeps
  | folder folder =>
    subst hfits
    refine ⟨h.user, h.workspace, fun other m' hm => ?_⟩
    show m'.Keeps (s.folderModel other)
    unfold Configuration.store at hm
    by_cases hother : other = folder
    · subst hother
      rw [AList.lookup_insert] at hm
      cases hm
      exact hkeeps
    · rw [AList.lookup_insert_ne hother] at hm
      exact h.folders other m' hm

theorem rebuilt_store (m : ConfigurationModel) (holder : Holder Uri) : (s.store m holder).rebuilt = s.rebuilt := by
  cases holder <;> rfl

theorem Fresh.getConsolidatedConfigurationModel (h : s.Fresh) {section' : Option JsString}
    {overrides : IConfigurationOverrides Uri} {workspace : Option (Workspace Uri)} {s' : Configuration Uri}
    {m : Option IConfigurationModel} (heq : s.getConsolidatedConfigurationModel section' overrides workspace = (s', m)) :
    s'.rebuilt = s.rebuilt ∧ s'.Fresh ∧ m = s.model section' overrides workspace := by
  unfold Configuration.getConsolidatedConfigurationModel at heq
  have hresource := @Fresh.getConsolidatedConfigurationModelForResource _ _ s h overrides.resource workspace
  generalize s.getConsolidatedConfigurationModelForResource overrides.resource workspace = result at heq hresource
  obtain ⟨hsame, hfresh, hkeeps, hfits⟩ := hresource rfl
  unfold model
  simp only [withPolicy_eq hsame] at heq ⊢
  cases hidentifier : overrides.overrideIdentifier with
  | none =>
    simp only [hidentifier] at heq ⊢
    cases heq
    rw [hkeeps.same]
    exact ⟨hsame, hfresh, rfl⟩
  | some identifier =>
    simp only [hidentifier] at heq ⊢
    cases identifier with
    | nil =>
      cases heq
      rw [hkeeps.same]
      exact ⟨hsame, hfresh, rfl⟩
    | cons c identifier =>
      obtain ⟨hoverriding, hkept⟩ := hkeeps.override (c :: identifier)
      simp only [← hoverriding] at heq ⊢
      split at heq
      · next m' overriding hoverride =>
        cases heq
        rw [hoverride]
        exact ⟨(rebuilt_store _ _).trans hsame, hfresh.store (hkept m' overriding hoverride) (hfits.of_same hsame.symm), rfl⟩
      · next hoverride =>
        cases heq
        rw [hoverride]
        exact ⟨hsame, hfresh, rfl⟩

theorem Fresh.getValue (h : s.Fresh) (section' : Option JsString) (overrides : IConfigurationOverrides Uri)
    (workspace : Option (Workspace Uri)) :
    (s.getValue section' overrides workspace).1.Fresh ∧
      (s.getValue section' overrides workspace).2 =
        (s.model section' overrides workspace).map fun m => m.getValue section' := by
  obtain ⟨-, hfresh, hmodel⟩ :=
    @Fresh.getConsolidatedConfigurationModel _ _ s h section' overrides workspace _ _ rfl
  refine ⟨hfresh, ?_⟩
  rw [← hmodel]
  rfl

theorem Fresh.inspect (h : s.Fresh) (key : JsString) (overrides : IConfigurationOverrides Uri)
    (workspace : Option (Workspace Uri)) : (s.inspect key overrides workspace).1.Fresh := by
  unfold Configuration.inspect
  split
  · next s' heq => exact (h.getConsolidatedConfigurationModel heq).2.1
  · next s' m heq => exact (h.getConsolidatedConfigurationModel heq).2.1.userConfiguration.2.1

end Reading

/-! ## Runs -/

inductive Operation (Uri : Type) where
  | updateDefaultConfiguration (configuration : IConfigurationModel)
  | updatePolicyConfiguration (configuration : IConfigurationModel)
  | updateApplicationConfiguration (configuration : IConfigurationModel)
  | updateLocalUserConfiguration (configuration : IConfigurationModel)
  | updateRemoteUserConfiguration (configuration : IConfigurationModel)
  | updateWorkspaceConfiguration (configuration : IConfigurationModel)
  | updateFolderConfiguration (resource : Uri) (configuration : IConfigurationModel)
  | deleteFolderConfiguration (resource : Uri)
  | updateValue (key : JsString) (value : Option Value) (resource : Option Uri)
  | getValue (section' : Option JsString) (overrides : IConfigurationOverrides Uri) (workspace : Option (Workspace Uri))
  | inspect (key : JsString) (overrides : IConfigurationOverrides Uri) (workspace : Option (Workspace Uri))

def perform (s : Configuration Uri) : Operation Uri → Configuration Uri
  | .updateDefaultConfiguration configuration => s.updateDefaultConfiguration configuration
  | .updatePolicyConfiguration configuration => s.updatePolicyConfiguration configuration
  | .updateApplicationConfiguration configuration => s.updateApplicationConfiguration configuration
  | .updateLocalUserConfiguration configuration => s.updateLocalUserConfiguration configuration
  | .updateRemoteUserConfiguration configuration => s.updateRemoteUserConfiguration configuration
  | .updateWorkspaceConfiguration configuration => s.updateWorkspaceConfiguration configuration
  | .updateFolderConfiguration resource configuration => s.updateFolderConfiguration resource configuration
  | .deleteFolderConfiguration resource => s.deleteFolderConfiguration resource
  | .updateValue key value resource => s.updateValue key value resource
  | .getValue section' overrides workspace => (s.getValue section' overrides workspace).1
  | .inspect key overrides workspace => (s.inspect key overrides workspace).1

def run (s : Configuration Uri) (operations : List (Operation Uri)) : Configuration Uri := operations.foldl perform s

/-- The operation gives up all that it makes stale.  Without a resource `updateValue` does so if it leaves the memory as
it is, or if no folder's model is kept and it does not throw while the model of the workspace is kept. -/
def GivesUpStale (s : Configuration Uri) : Operation Uri → Prop
  | .updateValue key value none =>
    (s.memoryConfiguration.update key value).1 = s.memoryConfiguration ∨
      (s.foldersConsolidatedConfigurations = ∅ ∧
        ((s.memoryConfiguration.update key value).2 = true → s.workspaceConsolidatedConfiguration = none))
  | _ => True

def AllGiveUpStale (s : Configuration Uri) : List (Operation Uri) → Prop
  | [] => True
  | operation :: operations => s.GivesUpStale operation ∧ (s.perform operation).AllGiveUpStale operations

section Runs

variable {s : Configuration Uri}

/-- The folder's model is given up, the others stay. -/
theorem Fresh.changeFolder (h : s.Fresh) {resource : Uri} {folderConfigurations : ResourceMap Uri IConfigurationModel}
    (hother : ∀ folder, folder ≠ resource → folderConfigurations.lookup folder = s.folderConfigurations.lookup folder) :
    Fresh { s with
      folderConfigurations
      foldersConsolidatedConfigurations := s.foldersConsolidatedConfigurations.erase resource } := by
  refine ⟨h.user, h.workspace, fun folder m hm => ?_⟩
  by_cases heq : folder = resource
  · subst heq
    rw [AList.lookup_erase] at hm
    cases hm
  · rw [AList.lookup_erase_ne heq] at hm
    have hkeeps := h.folders folder m hm
    unfold folderModel at hkeeps ⊢
    rw [hother folder heq]
    exact hkeeps

theorem Fresh.updateValue (h : s.Fresh) {key : JsString} {value : Option Value} {resource : Option Uri}
    (hstale : s.GivesUpStale (.updateValue key value resource)) : (s.updateValue key value resource).Fresh := by
  cases resource with
  | some resource => exact ⟨h.user, h.workspace, h.folders⟩
  | none =>
    unfold Configuration.updateValue
    dsimp only
    split
    · next memoryConfiguration heq =>
      rcases hstale with hsame | ⟨hfolders, hthrows⟩
      · rw [heq] at hsame
        subst hsame
        exact h
      · have hworkspace := hthrows (by rw [heq])
        refine ⟨h.user, fun m hm => ?_, fun folder m hm => ?_⟩
        · rw [hworkspace] at hm
          cases hm
        · rw [hfolders] at hm
          cases hm
    · next memoryConfiguration heq =>
      refine ⟨h.user, fun m hm => (by cases hm), fun folder m hm => ?_⟩
      rcases hstale with hsame | ⟨hfolders, -⟩
      · rw [heq] at hsame
        subst hsame
        exact h.folders folder m hm
      · rw [hfolders] at hm
        cases hm

theorem Fresh.perform (h : s.Fresh) {operation : Operation Uri} (hstale : s.GivesUpStale operation) :
    (s.perform operation).Fresh := by
  cases operation with
  | updateDefaultConfiguration configuration =>
    exact ⟨h.user, fun _ hm => (nomatch hm), fun _ _ hm => (nomatch hm)⟩
  | updatePolicyConfiguration configuration => exact ⟨h.user, h.workspace, h.folders⟩
  | updateApplicationConfiguration configuration =>
    exact ⟨h.user, fun _ hm => (nomatch hm), fun _ _ hm => (nomatch hm)⟩
  | updateLocalUserConfiguration configuration =>
    exact ⟨fun _ hm => (nomatch hm), fun _ hm => (nomatch hm), fun _ _ hm => (nomatch hm)⟩
  | updateRemoteUserConfiguration configuration =>
    exact ⟨fun _ hm => (nomatch hm), fun _ hm => (nomatch hm), fun _ _ hm => (nomatch hm)⟩
  | updateWorkspaceConfiguration configuration =>
    exact ⟨h.user, fun _ hm => (nomatch hm), fun _ _ hm => (nomatch hm)⟩
  | updateFolderConfiguration resource configuration =>
    exact h.changeFolder fun folder hne => AList.lookup_insert_ne hne
  | deleteFolderConfiguration resource => exact h.changeFolder fun folder hne => AList.lookup_erase_ne hne
  | updateValue key value resource => exact h.updateValue hstale
  | getValue section' overrides workspace => exact (h.getValue section' overrides workspace).1
  | inspect key overrides workspace => exact h.inspect key overrides workspace

theorem Fresh.run (h : s.Fresh) {operations : List (Operation Uri)} (hstale : s.AllGiveUpStale operations) :
    (s.run operations).Fresh := by
  induction operations generalizing s with
  | nil => exact h
  | cons operation operations ih => exact ih (h.perform hstale.1) hstale.2

end Runs

/-- A configuration whose operations give up what they make stale answers as a new one would. -/
theorem answers_as_rebuilt (s : Configuration Uri) (operations : List (Operation Uri))
    (hstale : s.rebuilt.AllGiveUpStale operations) (section' : Option JsString) (overrides : IConfigurationOverrides Uri)
    (workspace : Option (Workspace Uri)) :
    ((s.rebuilt.run operations).getValue section' overrides workspace).2 =
      ((s.rebuilt.run operations).rebuilt.getValue section' overrides workspace).2 := by
  have hfresh : (s.rebuilt.run operations).Fresh := s.fresh_rebuilt.run hstale
  rw [(hfresh.getValue section' overrides workspace).2,
    ((s.rebuilt.run operations).fresh_rebuilt.getValue section' overrides workspace).2]
  rfl

section Examples

/-- The folder `true` has the setting `b`. -/
private def oneFolder : Configuration Bool :=
  { defaultConfiguration := {}
    policyConfiguration := {}
    applicationConfiguration := {}
    localUserConfiguration := {}
    folderConfigurations := (∅ : ResourceMap Bool IConfigurationModel).insert true
      { contents := .cons [98] (.number 1) .nil, keys := [[98]] } }

private def everythingInFolder : Workspace Bool := ⟨fun _ => some true⟩

/-- The setting `a` is read in the folder, set for the workspace, and read again. -/
theorem folder_model_stays :
    let s := oneFolder.rebuilt.run
      [.getValue (some [97]) { resource := some true } (some everythingInFolder), .updateValue [97] (some (.boolean true)) none]
    (s.getValue (some [97]) { resource := some true } (some everythingInFolder)).2 = some none ∧
      (s.rebuilt.getValue (some [97]) { resource := some true } (some everythingInFolder)).2 =
        some (some (.boolean true)) := by
  decide +kernel

/-- The setting `a` is set for the workspace and read in the folder, and the user's settings change. -/
theorem answers_as_rebuilt_in_folder :
    let operations : List (Operation Bool) :=
      [.updateValue [97] (some (.boolean true)) none,
       .getValue (some [97]) { resource := some true } (some everythingInFolder),
       .updateLocalUserConfiguration { contents := .cons [97] (.number 3) .nil, keys := [[97]] }]
    let s := oneFolder.rebuilt.run operations
    (s.getValue (some [97]) { resource := some true } (some everythingInFolder)).2 =
      (s.rebuilt.getValue (some [97]) { resource := some true } (some everythingInFolder)).2 := by
  intro operations s
  have hstale : oneFolder.rebuilt.AllGiveUpStale operations := ⟨.inr ⟨rfl, fun _ => rfl⟩, trivial, trivial, trivial⟩
  exact answers_as_rebuilt oneFolder operations hstale _ _ _

end Examples

end Configuration

end TongjiCode.Settings
