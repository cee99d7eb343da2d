import PathGuard.Zygisk.HookInstall
import PathGuard.Zygisk.MediaQueryHook
import PathGuard.Zygisk.PlanArena
import PathGuard.Zygisk.Transaction

/-!
# The module in a process

`PathGuardModule` of `zygisk/src/module_entry.cpp`: what is done before and after a process becomes that of an app. The
library may be unloaded only where nothing of it is called any more, and whatever is opened on the way is closed on
every path.

* `PathGuardModule.preAppSpecialize`, `PathGuardModule.postAppSpecialize` : the callbacks, with what is opened and closed;
* `PathGuardModule.appSpecialize_retains` : what is left open, and when the library is kept;
* `PathGuardModule.filter_compiled_iff` : which apps of an accepted document have their media queries filtered.
-/

namespace PathGuard.Zygisk

open Rules (RulesDocument RulesLimits OriginMap AppRules CompiledFrom WellFormedApp enabledApps compiledApp)

theorem LogicalPath.last {path : Bytes} (h : LogicalPath path) : path.getLast? ≠ some slash := by
  intro hlast
  obtain ⟨front, rfl⟩ := List.getLast?_eq_some_iff.mp hlast
  refine (h.ne [] ?_).1 rfl
  rw [List.splitOn_append_cons_self]
  exact List.mem_append_right _ (List.mem_singleton_self _)

/-! ## What a process holds -/

/-- The name, the descriptors and the mappings of one specialization. -/
inductive Resource
  | processName
  | moduleDir
  | policyFd
  | policyMapping
  | companion
  | sharedFd
  | sharedState
  deriving DecidableEq

/-- `PathGuardModule`, and beside its fields what the process has: what is open, whether something was closed that was not
open, whether the library is to be unloaded, and the hooks that are in place. -/
structure PathGuardModule where
  providerRedirectRequired : Bool := false
  providerRedirectInstalled : Bool := false
  providerRedirectModuleRetained : Bool := false
  mediaQueryHookInstalled : Bool := false
  mediaQueryHookRequired : Bool := false
  mountRequestSent : Bool := false
  mountSharedState : Bool := false
  mediaPlan : ProcessPlan := {}
  mediaUid : Uid := 0
  held : List Resource := []
  misused : Bool := false
  unloading : Bool := false
  providerHooks : InstallResult := {}
  denyFilter : Option MediaQuery.DenyFilter := none

/-- What the callbacks meet: `policy` is the file that `openat` finds, and a flag is whether the call succeeds. -/
structure SpecializeEnvironment where
  niceName : Option CString
  uid : Uid
  moduleDir : Bool
  policy : Option Bytes
  fstatPolicy : Bool
  mmapPolicy : Bool
  stat : Stat
  hooks : HookEnvironment
  connectCompanion : Bool
  memfdCreate : Bool
  ftruncateShared : Bool
  mmapShared : Bool
  sendPlan : Bool
  received : Bool
  validHeader : Bool
  result : CompanionResult
  finalState : MountTransactionState
  runtime : MediaQuery.InstallRuntime

/-- Whether the policy can be mapped, where there is one that is no shorter than a header. -/
def SpecializeEnvironment.mapsPolicy (environment : SpecializeEnvironment) : Bool :=
  environment.moduleDir && environment.fstatPolicy && environment.mmapPolicy

/-- Whether the request reaches the companion. -/
def SpecializeEnvironment.requests (environment : SpecializeEnvironment) : Bool :=
  environment.connectCompanion &&
    (environment.memfdCreate && environment.ftruncateShared && environment.mmapShared) && environment.sendPlan

namespace PathGuardModule
variable (environment : SpecializeEnvironment) (state : PathGuardModule)

def acquire (resource : Resource) : PathGuardModule := { state with held := resource :: state.held }

def release (resource : Resource) : PathGuardModule :=
  { state with held := state.held.erase resource, misused := state.misused || !state.held.contains resource }

def unload : PathGuardModule := { state with unloading := true }

/-! ## preAppSpecialize -/

def kExternalStorageProviderProcess : Bytes := ascii "com.android.externalstorage"
def kMainlineMediaProviderProcess : Bytes := ascii "com.android.providers.media.module"

def closeModuleDir : PathGuardModule := if environment.moduleDir then state.release .moduleDir else state

/-- How both loaders begin: the policy is opened and mapped, and its descriptor is closed. -/
def mapPolicy : PathGuardModule × Option Bytes :=
  match environment.policy with
  | none => (state, none)
  | some data =>
      let state := state.acquire .policyFd
      if !environment.fstatPolicy || decide (data.length < kHeaderSize) then (state.release .policyFd, none)
      else if !environment.mmapPolicy then (state.release .policyFd, none)
      else ((state.acquire .policyMapping).release .policyFd, some data)

/-- How they go on: whatever is read of the mapping, it is unmapped. -/
def readPolicyFile {α : Type} (load : Bytes → Read α) : PathGuardModule × Option α :=
  match state.mapPolicy environment with
  | (state, none) => (state, none)
  | (state, some data) => (state.release .policyMapping, (load data).toOption)

/-- `LoadProviderRules`. -/
def openProviderRules : PathGuardModule × Option (List ProviderRule) :=
  state.readPolicyFile environment fun data => loadProviderRules data environment.stat kMaxMountRules

/-- `LoadProcessPlan`: a name that is too long is refused before anything is opened. -/
def openProcessPlan (process : CString) : PathGuardModule × Option LoadedPlan :=
  if kMaxProcessNameBytes ≤ process.bytes.length then (state, none)
  else state.readPolicyFile environment fun data => loadProcessPlan data process environment.uid

/-- The branch for the process of a provider. -/
def specializeProvider : PathGuardModule :=
  let loaded := if environment.moduleDir then state.openProviderRules environment else (state, none)
  let state := (loaded.1.closeModuleDir environment).release .processName
  match loaded.2 with
  | none => unload { state with providerRedirectRequired := false }
  | some rules =>
      let result := (install environment.hooks rules).result
      let state :=
        { state with
          providerRedirectRequired := true
          providerHooks := result
          providerRedirectInstalled := result.virtualizationActive
          providerRedirectModuleRetained := mustRetainModule result }
      if !state.providerRedirectInstalled && !state.providerRedirectModuleRetained then state.unload else state

def isDenyMount (mount : PlannedMount) : Bool := mount.action == .deny

/-- Whether the filter is wanted: the file picker is virtualized, and something is denied. -/
def requiresMediaHook (plan : LoadedPlan) : Bool := plan.providerCompat && plan.mounts.any isDenyMount

def rememberPlan (plan : LoadedPlan) : PathGuardModule :=
  if requiresMediaHook plan then
    { state with mediaQueryHookRequired := true, mediaPlan := plan.toProcessPlan, mediaUid := environment.uid }
  else { state with mediaQueryHookRequired := false }

/-- `CreateSharedState`: the file in memory is closed again when it cannot be sized or mapped. -/
def createSharedState : PathGuardModule × Bool :=
  if !environment.memfdCreate then (state, false)
  else
    let state := state.acquire .sharedFd
    if !environment.ftruncateShared then (state.release .sharedFd, false)
    else if !environment.mmapShared then (state.release .sharedFd, false)
    else (state.acquire .sharedState, true)

/-- The request to the companion. -/
def requestMounts : PathGuardModule :=
  if !environment.connectCompanion then (state.release .moduleDir).unload
  else
    let created := (state.acquire .companion).createSharedState environment
    let state := created.1
    if !created.2 then ((state.release .companion).release .moduleDir).unload
    else
      let state :=
        if !environment.sendPlan then ((state.release .sharedState).release .sharedFd).unload
        else { state with mountRequestSent := true, mountSharedState := true }.release .sharedFd
      (state.release .moduleDir).release .companion

def preAppSpecialize : PathGuardModule :=
  match environment.niceName with
  | none => state.unload
  | some process =>
      let state := state.acquire .processName
      let state := if environment.moduleDir then state.acquire .moduleDir else state
      if process.bytes == kExternalStorageProviderProcess || process.bytes == kMainlineMediaProviderProcess then
        state.specializeProvider environment
      else
        let loaded := if environment.moduleDir then state.openProcessPlan environment process else (state, none)
        let state := loaded.1.release .processName
        match loaded.2 with
        | none => (state.closeModuleDir environment).unload
        | some plan => (state.rememberPlan environment plan).requestMounts environment

/-! ## postAppSpecialize -/

def storageRoot (userId : Nat) : Bytes := ascii "/storage/emulated/" ++ decimalBytes userId

/-- `BuildPathUnderRoot`, with the text it writes. -/
def buildPathUnderRoot (root logicalPath : Bytes) : Option Bytes :=
  if root.head? != some slash || !isAllowedTarget logicalPath then none
  else if PATH_MAX ≤ (root ++ slash :: logicalPath).length then none
  else some (root ++ slash :: logicalPath)

/-- The loop over the mounts of the plan. -/
def denyPaths (root : Bytes) : List PlannedMount → Option (List Bytes)
  | [] => some []
  | mount :: mounts =>
      if !isDenyMount mount then denyPaths root mounts
      else do
        let path ← buildPathUnderRoot root mount.visiblePath
        let paths ← denyPaths root mounts
        return path :: paths

/-- The filter behind a successful mount. -/
def installMediaQuery : PathGuardModule :=
  let root := storageRoot state.mediaUid.user
  if !state.mediaQueryHookRequired then state
  else if 64 ≤ root.length then { state with mediaQueryHookRequired := false }
  else
    match denyPaths root state.mediaPlan.mounts with
    | none => { state with mediaQueryHookRequired := false }
    | some paths =>
        if paths.isEmpty then state
        else
          let installed := MediaQuery.install environment.runtime (paths.map some) state.mediaUid.val
          { state with mediaQueryHookInstalled := installed.isSome, denyFilter := installed }

def mountSucceeded : Bool :=
  environment.received && environment.validHeader && environment.result.mount.result == 0 &&
    environment.finalState == .complete

/-- The result is copied, and the page is unmapped. -/
def takeResult : PathGuardModule := { state.release .sharedState with mountSharedState := false }

def postAppSpecialize : PathGuardModule :=
  if state.providerRedirectRequired then
    if !state.providerRedirectInstalled && !state.providerRedirectModuleRetained then state.unload else state
  else
    let state :=
      if state.mountRequestSent && state.mountSharedState then
        if mountSucceeded environment then state.takeResult.installMediaQuery environment else state.takeResult
      else state
    if !state.mediaQueryHookInstalled then state.unload else state

/-- The callbacks of a process of an app. -/
def appSpecialize : PathGuardModule :=
  (preAppSpecialize environment {}).postAppSpecialize environment

/-! ## The paths through preAppSpecialize -/

variable {environment state}

/-- What is opened last and closed leaves nothing. -/
@[simp] theorem release_acquire (resource : Resource) : (state.acquire resource).release resource = state := by
  simp [acquire, release]

theorem release_acquire_of_ne {resource later : Resource} (hne : later ≠ resource) :
    ((state.acquire resource).acquire later).release resource = state.acquire later := by
  simp [acquire, release, hne]

theorem closeModuleDir_acquired (state : PathGuardModule) :
    (if environment.moduleDir then state.acquire .moduleDir else state).closeModuleDir environment = state := by
  cases hdir : environment.moduleDir <;> simp [closeModuleDir, hdir]

theorem release_processName (state : PathGuardModule) :
    (if environment.moduleDir then (state.acquire .processName).acquire .moduleDir else state.acquire .processName).release
        .processName = if environment.moduleDir then state.acquire .moduleDir else state := by
  split
  · exact release_acquire_of_ne (by decide)
  · exact release_acquire _

theorem readPolicyFile_eq {α : Type} {load : Bytes → Read α}
    (hheader : ∀ data, data.length < kHeaderSize → (load data).toOption = none) :
    state.readPolicyFile environment load =
      (state, if environment.fstatPolicy && environment.mmapPolicy then
        environment.policy.bind fun data => (load data).toOption else none) := by
  cases hpolicy : environment.policy with
  | none => simp [readPolicyFile, mapPolicy, hpolicy]
  | some data =>
      by_cases hlength : data.length < kHeaderSize
      · simp [readPolicyFile, mapPolicy, hpolicy, hlength, hheader data hlength]
      · cases hstat : environment.fstatPolicy <;> cases hmap : environment.mmapPolicy <;>
          simp [readPolicyFile, mapPolicy, hpolicy, hlength, hstat, hmap, release_acquire_of_ne]

/-- What the loaders find. -/
def loadedProviderRules (environment : SpecializeEnvironment) : Option (List ProviderRule) :=
  if environment.mapsPolicy then
    environment.policy.bind fun data => (loadProviderRules data environment.stat kMaxMountRules).toOption
  else none

def loadedPlan (environment : SpecializeEnvironment) (process : CString) : Option LoadedPlan :=
  if environment.mapsPolicy then
    environment.policy.bind fun data => (loadProcessPlan data process environment.uid).toOption
  else none

theorem readPolicy_short {data : Bytes} (h : data.length < kHeaderSize) : readPolicy data = rejected := by
  rw [readPolicy, if_pos h]

theorem openProviderRules_eq (state : PathGuardModule) :
    (if environment.moduleDir then state.openProviderRules environment else (state, none)) =
      (state, loadedProviderRules environment) := by
  have hheader : ∀ data : Bytes, data.length < kHeaderSize →
      (loadProviderRules data environment.stat kMaxMountRules).toOption = none := by
    intro data hlength
    rw [loadProviderRules, readPolicy_short hlength]
    rfl
  rw [openProviderRules, readPolicyFile_eq hheader, loadedProviderRules, SpecializeEnvironment.mapsPolicy]
  cases environment.moduleDir <;> simp

theorem openProcessPlan_eq (state : PathGuardModule) (process : CString) :
    (if environment.moduleDir then state.openProcessPlan environment process else (state, none)) =
      (state, loadedPlan environment process) := by
  have hheader : ∀ data : Bytes, data.length < kHeaderSize →
      (loadProcessPlan data process environment.uid).toOption = none := by
    intro data hlength
    rw [loadProcessPlan, readPolicy_short hlength]
    split <;> rfl
  rw [openProcessPlan, loadedPlan, SpecializeEnvironment.mapsPolicy]
  by_cases hlength : kMaxProcessNameBytes ≤ process.bytes.length
  · have hnone : ∀ data : Bytes, (loadProcessPlan data process environment.uid).toOption = none := by
      intro data
      rw [loadProcessPlan, if_pos hlength]
      rfl
    cases environment.policy <;> simp [hlength, hnone]
  · rw [if_neg hlength, readPolicyFile_eq hheader]
    cases environment.moduleDir <;> simp

def isProviderProcess (process : CString) : Bool :=
  process.bytes == kExternalStorageProviderProcess || process.bytes == kMainlineMediaProviderProcess

theorem createSharedState_eq (state : PathGuardModule) :
    state.createSharedState environment =
      if environment.memfdCreate && environment.ftruncateShared && environment.mmapShared then
        ((state.acquire .sharedFd).acquire .sharedState, true)
      else (state, false) := by
  cases hcreate : environment.memfdCreate <;> cases htruncate : environment.ftruncateShared <;>
    cases hmap : environment.mmapShared <;> simp [createSharedState, hcreate, htruncate, hmap]

theorem requestMounts_eq (hheld : state.held = [.moduleDir]) (hmisused : state.misused = false) :
    state.requestMounts environment =
      if environment.requests then
        { state with held := [.sharedState], mountRequestSent := true, mountSharedState := true }
      else { state with held := [], unloading := true } := by
  obtain ⟨⟩ := state
  subst hheld hmisused
  cases hconnect : environment.connectCompanion with
  | false => simp [requestMounts, SpecializeEnvironment.requests, hconnect, release, unload]
  | true =>
      have hcreated := @createSharedState_eq environment
      cases hcreate : environment.memfdCreate && environment.ftruncateShared && environment.mmapShared <;>
        cases hsend : environment.sendPlan <;>
        simp [requestMounts, SpecializeEnvironment.requests, hconnect, hcreate, hcreated, hsend, acquire, release, unload]

/-- Virtualization is not active without hooks that were tried. -/
theorem mustRetainModule_of_active (hooks : HookEnvironment) (rules : List ProviderRule)
    (h : (install hooks rules).result.virtualizationActive = true) :
    mustRetainModule (install hooks rules).result = true := by
  unfold install at h ⊢
  split
  · next hcount => rw [if_pos hcount] at h; cases h
  · next hcount =>
    rw [if_neg hcount] at h
    split
    · next hkey => rw [if_pos hkey] at h; cases h
    · next hkey =>
      rw [if_neg hkey] at h
      cases hinstalled : installRules rules [] with
      | mk taken installed =>
          rw [hinstalled] at h
          cases taken with
          | false => cases h
          | true =>
              simp only at h ⊢
              split
              · next hbinder => rw [if_pos hbinder] at h; cases h
              · next hbinder =>
                rw [if_neg hbinder] at h
                simp only [HookEnvironment.registerHooks, mustRetainModule] at h ⊢
                simp_all

/-- A process that has asked the companion for the mounts of a plan. -/
def requested (environment : SpecializeEnvironment) (plan : LoadedPlan) : PathGuardModule :=
  { ({} : PathGuardModule).rememberPlan environment plan with
    held := [.sharedState]
    mountRequestSent := true
    mountSharedState := true }

/-- What is left behind when the process gets its identity. -/
inductive Prepared (environment : SpecializeEnvironment) : PathGuardModule → Prop
  | unloaded {state : PathGuardModule} : state.held = [] → state.misused = false → state.unloading = true →
      state.providerRedirectRequired = false → state.mountRequestSent = false → state.mediaQueryHookInstalled = false →
      state.denyFilter = none → state.providerHooks = {} → Prepared environment state
  | provider (rules : List ProviderRule) : Prepared environment
      { ({} : PathGuardModule) with
        providerRedirectRequired := true
        providerHooks := (install environment.hooks rules).result
        providerRedirectInstalled := (install environment.hooks rules).result.virtualizationActive
        providerRedirectModuleRetained := mustRetainModule (install environment.hooks rules).result
        unloading := !mustRetainModule (install environment.hooks rules).result }
  | requested (plan : LoadedPlan) : Prepared environment (requested environment plan)

theorem moduleDir_of_loadedPlan {process : CString} {plan : LoadedPlan} (h : loadedPlan environment process = some plan) :
    environment.moduleDir = true := by
  rw [loadedPlan] at h
  split at h
  · next hmaps =>
    rw [SpecializeEnvironment.mapsPolicy, Bool.and_eq_true, Bool.and_eq_true] at hmaps
    exact hmaps.1.1
  · cases h

theorem rememberPlan_held (plan : LoadedPlan) : (state.rememberPlan environment plan).held = state.held := by
  unfold rememberPlan
  split <;> rfl

theorem rememberPlan_misused (plan : LoadedPlan) : (state.rememberPlan environment plan).misused = state.misused := by
  unfold rememberPlan
  split <;> rfl

theorem preAppSpecialize_plan {process : CString} {plan : LoadedPlan} (hname : environment.niceName = some process)
    (hprovider : isProviderProcess process = false) (hplan : loadedPlan environment process = some plan) :
    preAppSpecialize environment {} =
      if environment.requests then requested environment plan
      else { ({} : PathGuardModule).rememberPlan environment plan with unloading := true } := by
  have hdir := moduleDir_of_loadedPlan hplan
  rw [isProviderProcess] at hprovider
  simp only [preAppSpecialize, hname, openProcessPlan_eq, release_processName, hprovider, Bool.false_eq_true, if_false,
    hplan]
  rw [if_pos hdir]
  rw [requestMounts_eq (by rw [rememberPlan_held]; rfl) (by rw [rememberPlan_misused]; rfl)]
  unfold requested rememberPlan
  cases requiresMediaHook plan <;> rfl

theorem preAppSpecialize_prepared (environment : SpecializeEnvironment) :
    Prepared environment (preAppSpecialize environment {}) := by
  cases hname : environment.niceName with
  | none =>
      rw [preAppSpecialize, hname]
      exact .unloaded rfl rfl rfl rfl rfl rfl rfl rfl
  | some process =>
      cases hprovider : isProviderProcess process with
      | true =>
          rw [isProviderProcess] at hprovider
          simp only [preAppSpecialize, hname, hprovider, if_true, specializeProvider, openProviderRules_eq]
          rw [closeModuleDir_acquired, release_acquire]
          cases loadedProviderRules environment with
          | none => exact .unloaded rfl rfl rfl rfl rfl rfl rfl rfl
          | some rules =>
              have hprepared : Prepared environment _ := .provider rules
              have hactive := mustRetainModule_of_active environment.hooks rules
              simp only
              split
              · next hnone =>
                simp only [Bool.and_eq_true, Bool.not_eq_true'] at hnone
                rw [hnone.2, Bool.not_false] at hprepared
                rw [hnone.2]
                exact hprepared
              · next hsome =>
                have hretained : mustRetainModule (install environment.hooks rules).result = true := by
                  by_contra hnot
                  rw [Bool.not_eq_true] at hnot
                  refine hsome ?_
                  rw [hnot, Bool.not_false, Bool.and_true, Bool.not_eq_true', ← Bool.not_eq_true]
                  exact fun h => Bool.false_ne_true (hnot.symm.trans (hactive h))
                rw [hretained, Bool.not_true] at hprepared
                rw [hretained]
                exact hprepared
      | false =>
          cases hplan : loadedPlan environment process with
          | none =>
              rw [isProviderProcess] at hprovider
              simp only [preAppSpecialize, hname, openProcessPlan_eq, release_processName, hprovider, Bool.false_eq_true,
                if_false, hplan]
              rw [closeModuleDir_acquired]
              exact .unloaded rfl rfl rfl rfl rfl rfl rfl rfl
          | some plan =>
              rw [preAppSpecialize_plan hname hprovider hplan]
              split
              · exact .requested plan
              · unfold rememberPlan
                split
                · exact .unloaded rfl rfl rfl rfl rfl rfl rfl rfl
                · exact .unloaded rfl rfl rfl rfl rfl rfl rfl rfl

/-! ## What is left in the process -/

/-- The filter touches nothing else. -/
structure FilterOnly (before after : PathGuardModule) : Prop where
  held : after.held = before.held
  misused : after.misused = before.misused
  unloading : after.unloading = before.unloading
  providerHooks : after.providerHooks = before.providerHooks
  installed : before.denyFilter.isSome = before.mediaQueryHookInstalled →
    after.denyFilter.isSome = after.mediaQueryHookInstalled

theorem installMediaQuery_filterOnly : FilterOnly state (state.installMediaQuery environment) := by
  simp only [installMediaQuery]
  split
  · exact ⟨rfl, rfl, rfl, rfl, id⟩
  · split
    · exact ⟨rfl, rfl, rfl, rfl, id⟩
    · split
      · exact ⟨rfl, rfl, rfl, rfl, id⟩
      · split
        · exact ⟨rfl, rfl, rfl, rfl, id⟩
        · exact ⟨rfl, rfl, rfl, rfl, fun _ => rfl⟩

theorem rememberPlan_filterOnly (plan : LoadedPlan) : FilterOnly state (state.rememberPlan environment plan) := by
  unfold rememberPlan
  split <;> exact ⟨rfl, rfl, rfl, rfl, id⟩

/-- The state that the result of the companion is read in. -/
def released (environment : SpecializeEnvironment) (plan : LoadedPlan) : PathGuardModule :=
  { ({} : PathGuardModule).rememberPlan environment plan with mountRequestSent := true }

theorem postAppSpecialize_sent (hrequired : state.providerRedirectRequired = false) (hsent : state.mountRequestSent = true)
    (hshared : state.mountSharedState = true) :
    state.postAppSpecialize environment =
      (let after := if mountSucceeded environment then state.takeResult.installMediaQuery environment else state.takeResult
      if !after.mediaQueryHookInstalled then after.unload else after) := by
  unfold postAppSpecialize
  rw [if_neg (by simp [hrequired]), hsent, hshared]
  rfl

theorem takeResult_requested (plan : LoadedPlan) :
    (requested environment plan).takeResult = released environment plan := by
  unfold requested released rememberPlan takeResult release
  split <;> simp [*]

theorem postAppSpecialize_requested (plan : LoadedPlan) :
    (requested environment plan).postAppSpecialize environment =
      (let after := if mountSucceeded environment then (released environment plan).installMediaQuery environment
        else released environment plan
      if !after.mediaQueryHookInstalled then after.unload else after) := by
  have hrequired : (requested environment plan).providerRedirectRequired = false := by
    unfold requested rememberPlan
    split <;> rfl
  rw [postAppSpecialize_sent hrequired rfl rfl, takeResult_requested]

/-- **The library stays exactly while something of it is called.** Whatever fails on the way, every descriptor and every
mapping is given back, once, and the library is kept exactly when the filter of media queries is installed or hooks of the
provider were tried. -/
theorem appSpecialize_retains (environment : SpecializeEnvironment) :
    (appSpecialize environment).held = [] ∧ (appSpecialize environment).misused = false ∧
      ((appSpecialize environment).unloading = false ↔
        (appSpecialize environment).denyFilter.isSome = true ∨
          mustRetainModule (appSpecialize environment).providerHooks = true) := by
  have hprepared := preAppSpecialize_prepared environment
  rw [appSpecialize]
  generalize preAppSpecialize environment {} = state at hprepared
  cases hprepared with
  | unloaded hheld hmisused hunloading hrequired hsent hinstalled hfilter hhooks =>
      have hpost : postAppSpecialize environment state = state.unload := by
        simp [postAppSpecialize, hrequired, hsent, hinstalled]
      have hidle : mustRetainModule {} = false := rfl
      rw [hpost]
      refine ⟨hheld, hmisused, ?_⟩
      simp only [unload, hfilter, hhooks, hidle]
      decide
  | provider rules =>
      have hactive := mustRetainModule_of_active environment.hooks rules
      simp only [postAppSpecialize, if_true]
      split
      · next hnone =>
        simp only [Bool.and_eq_true, Bool.not_eq_true'] at hnone
        refine ⟨rfl, rfl, ?_⟩
        simp [unload, hnone.2]
      · exact ⟨rfl, rfl, by simp⟩
  | requested plan =>
      rw [postAppSpecialize_requested]
      have hremembered := @rememberPlan_filterOnly environment {} plan
      have hinstall := @installMediaQuery_filterOnly environment (released environment plan)
      have hkept : FilterOnly {} (if mountSucceeded environment then (released environment plan).installMediaQuery environment
          else released environment plan) := by
        have hreleased : FilterOnly {} (released environment plan) :=
          ⟨hremembered.held, hremembered.misused, hremembered.unloading, hremembered.providerHooks, hremembered.installed⟩
        split
        · exact ⟨hinstall.held.trans hreleased.held, hinstall.misused.trans hreleased.misused,
            hinstall.unloading.trans hreleased.unloading, hinstall.providerHooks.trans hreleased.providerHooks,
            fun h => hinstall.installed (hreleased.installed h)⟩
        · exact hreleased
      generalize (if mountSucceeded environment then (released environment plan).installMediaQuery environment
          else released environment plan) = after at hkept
      have hidle : mustRetainModule ({} : PathGuardModule).providerHooks = false := rfl
      have hinstalled := hkept.installed rfl
      simp only
      split
      · next hnot =>
        rw [Bool.not_eq_true'] at hnot
        refine ⟨hkept.held, hkept.misused, ?_⟩
        simp [unload, hinstalled, hnot, hkept.providerHooks, hidle]
      · next hset =>
        rw [Bool.not_eq_true', Bool.not_eq_false] at hset
        refine ⟨hkept.held, hkept.misused, ?_⟩
        simp [hinstalled, hset, hkept.unloading]

/-! ## The filter of a process -/

variable {process : CString} {deny : MediaQuery.DenyFilter}

theorem not_requested_filter (h : (preAppSpecialize environment {}).mountRequestSent = false) :
    (appSpecialize environment).denyFilter = none := by
  have hprepared := preAppSpecialize_prepared environment
  rw [appSpecialize]
  generalize preAppSpecialize environment {} = before at hprepared h
  cases hprepared with
  | unloaded _ _ _ hrequired hsent hinstalled hfilter _ =>
      have hpost : postAppSpecialize environment before = before.unload := by
        simp [postAppSpecialize, hrequired, hsent, hinstalled]
      rw [hpost]
      exact hfilter
  | provider rules =>
      simp only [postAppSpecialize, if_true]
      split <;> rfl
  | requested plan => cases h

theorem released_eq {plan : LoadedPlan} (hrequired : requiresMediaHook plan = true) :
    released environment plan =
      { ({} : PathGuardModule) with
        mediaQueryHookRequired := true
        mediaPlan := plan.toProcessPlan
        mediaUid := environment.uid
        mountRequestSent := true } := by
  rw [released, rememberPlan, if_pos hrequired]

theorem length_storageRoot_lt (uid : Uid) : (storageRoot uid.user).length < 64 := by
  have hdigits : (decimalBytes uid.user).length ≤ 6 := length_decimalBytes_le (by decide) uid.user_lt
  have hstart : (ascii "/storage/emulated/").length = 18 := by decide
  rw [storageRoot, List.length_append, hstart]
  omega

theorem installMediaQuery_released (plan : LoadedPlan) :
    ((released environment plan).installMediaQuery environment).denyFilter = some deny ↔
      requiresMediaHook plan = true ∧ ∃ paths, denyPaths (storageRoot environment.uid.user) plan.mounts = some paths ∧
        paths ≠ [] ∧ MediaQuery.install environment.runtime (paths.map some) environment.uid.val = some deny := by
  by_cases hrequired : requiresMediaHook plan = true
  · rw [released_eq hrequired]
    simp only [installMediaQuery, Bool.not_true, Bool.false_eq_true, if_false,
      if_neg (Nat.not_le.mpr (length_storageRoot_lt environment.uid)), hrequired, true_and]
    cases hpaths : denyPaths (storageRoot environment.uid.user) plan.mounts with
    | none => simp
    | some paths => cases paths <;> simp
  · have hidle : (released environment plan).installMediaQuery environment = released environment plan := by
      rw [installMediaQuery]
      simp [released, rememberPlan, hrequired]
    have hfilter : (released environment plan).denyFilter = none := by
      simp [released, rememberPlan, hrequired]
    rw [hidle, hfilter]
    simp [hrequired]

theorem appSpecialize_filter (hname : environment.niceName = some process) (hprovider : isProviderProcess process = false) :
    (appSpecialize environment).denyFilter = some deny ↔
      ∃ plan, loadedPlan environment process = some plan ∧ environment.requests = true ∧
        mountSucceeded environment = true ∧ requiresMediaHook plan = true ∧
          ∃ paths, denyPaths (storageRoot environment.uid.user) plan.mounts = some paths ∧ paths ≠ [] ∧
            MediaQuery.install environment.runtime (paths.map some) environment.uid.val = some deny := by
  cases hplan : loadedPlan environment process with
  | none =>
      have hidle : (preAppSpecialize environment {}).mountRequestSent = false := by
        rw [isProviderProcess] at hprovider
        simp only [preAppSpecialize, hname, openProcessPlan_eq, release_processName, hprovider, Bool.false_eq_true,
          if_false, hplan]
        rw [closeModuleDir_acquired]
        rfl
      rw [not_requested_filter hidle]
      simp
  | some plan =>
      have hpre := preAppSpecialize_plan hname hprovider hplan
      simp only [Option.some.injEq, exists_eq_left']
      by_cases hrequests : environment.requests = true
      · rw [if_pos hrequests] at hpre
        have hfilter : ∀ after : PathGuardModule,
            (if !after.mediaQueryHookInstalled then after.unload else after).denyFilter = after.denyFilter := by
          intro after
          split <;> rfl
        rw [appSpecialize, hpre, postAppSpecialize_requested]
        simp only [hfilter, hrequests, true_and]
        by_cases hsucceeded : mountSucceeded environment = true
        · rw [if_pos hsucceeded, installMediaQuery_released]
          simp [hsucceeded]
        · have hnone : (released environment plan).denyFilter = none := by
            unfold released rememberPlan
            split <;> rfl
          rw [if_neg hsucceeded, hnone]
          simp [hsucceeded]
      · rw [if_neg hrequests] at hpre
        have hidle : (preAppSpecialize environment {}).mountRequestSent = false := by
          rw [hpre]
          unfold rememberPlan
          split <;> rfl
        rw [not_requested_filter hidle]
        simp [hrequests]

theorem denyPaths_eq_some_iff {root : Bytes} (hroot : root.head? = some slash) {mounts : List PlannedMount}
    (hallowed : ∀ mount ∈ mounts, isAllowedTarget mount.visiblePath = true) {paths : List Bytes} :
    denyPaths root mounts = some paths ↔
      paths = (mounts.filter isDenyMount).map (fun mount => root ++ slash :: mount.visiblePath) ∧
        ∀ path ∈ paths, path.length < PATH_MAX := by
  induction mounts generalizing paths with
  | nil => cases paths <;> simp [denyPaths]
  | cons mount mounts ih =>
      rw [List.forall_mem_cons] at hallowed
      rw [denyPaths]
      by_cases hdeny : isDenyMount mount = true
      · rw [if_neg (by simp [hdeny]), List.filter_cons_of_pos hdeny, List.map_cons, buildPathUnderRoot,
          if_neg (by simp [hroot, hallowed.1])]
        by_cases hlength : PATH_MAX ≤ (root ++ slash :: mount.visiblePath).length
        · rw [if_pos hlength]
          refine ⟨fun h => (Option.some_ne_none _ h.symm).elim, ?_⟩
          rintro ⟨rfl, hpaths⟩
          exact absurd (List.forall_mem_cons.mp hpaths).1 (Nat.not_lt.mpr hlength)
        · rw [if_neg hlength, Option.bind_eq_bind, Option.bind_some, Option.bind_eq_bind, Option.bind_eq_some_iff]
          constructor
          · rintro ⟨rest, hrest, heq⟩
            obtain rfl := Option.some.inj heq
            obtain ⟨rfl, hpaths⟩ := (ih hallowed.2).mp hrest
            exact ⟨rfl, List.forall_mem_cons.mpr ⟨Nat.not_le.mp hlength, hpaths⟩⟩
          · rintro ⟨rfl, hpaths⟩
            exact ⟨_, (ih hallowed.2).mpr ⟨rfl, (List.forall_mem_cons.mp hpaths).2⟩, rfl⟩
      · rw [if_pos (by simpa using hdeny), List.filter_cons_of_neg hdeny]
        exact ih hallowed.2

/-- The denied paths of an app in the storage of a user. -/
def deniedPaths (userId : Nat) (out : AppPolicy) : List Bytes :=
  (out.mounts.filter fun rule => rule.action == .deny).map fun rule => storageRoot userId ++ slash :: rule.visiblePath

theorem filter_plannedRule (userId : Nat) (rules : List LogicalMountRule) :
    ((rules.map (plannedRule userId)).filter isDenyMount).map
        (fun mount => storageRoot userId ++ slash :: mount.visiblePath) =
      (rules.filter fun rule => rule.action == .deny).map fun rule => storageRoot userId ++ slash :: rule.visiblePath := by
  rw [List.filter_map, List.map_map]
  rfl

/-- A denied path of a canonical app can have a filter when it is short enough. -/
theorem filterable_iff {uid : Uid} {package : Bytes} {rule : LogicalMountRule} (h : CanonicalRule package rule) :
    MediaQuery.Filterable ((uid.val : Int).toNat / 100000) (storageRoot uid.user ++ slash :: rule.visiblePath) ↔
      (storageRoot uid.user ++ slash :: rule.visiblePath).length < PATH_MAX ∧
        (escapeLike (storageRoot uid.user ++ slash :: rule.visiblePath)).length < PATH_MAX + 2 := by
  have huser : MediaQuery.userPrefix ((uid.val : Int).toNat / 100000) <+:
      storageRoot uid.user ++ slash :: rule.visiblePath := by
    refine ⟨rule.visiblePath, ?_⟩
    rw [MediaQuery.userPrefix, storageRoot, List.append_assoc]
    rfl
  have hlast : (storageRoot uid.user ++ slash :: rule.visiblePath).getLast? ≠ some slash := by
    have hne : rule.visiblePath ≠ [] := isAllowedTarget_ne h.visible_allowed.1
    rw [List.getLast?_append, List.getLast?_cons_of_ne_nil hne]
    simpa [List.getLast?_eq_some_getLast hne] using h.visible.1.last
  exact ⟨fun hpath => ⟨hpath.length, hpath.escaped⟩, fun hpath => ⟨huser, hlast, hpath.1, hpath.2⟩⟩

theorem zero_notMem_storageRoot (userId : Nat) : 0 ∉ storageRoot userId := by
  rw [storageRoot, List.mem_append, not_or]
  exact ⟨by decide, not_mem_decimalBytes (by decide) userId⟩

theorem loadedPlan_eq_some_iff {data : Bytes} (hpolicy : environment.policy = some data) {plan : LoadedPlan} :
    loadedPlan environment process = some plan ↔
      environment.mapsPolicy = true ∧ loadProcessPlan data process environment.uid = .ok plan := by
  rw [loadedPlan, hpolicy]
  cases environment.mapsPolicy with
  | false => simp
  | true =>
      simp only [if_true, Option.bind_some, true_and]
      cases loadProcessPlan data process environment.uid <;> simp [Except.toOption]

/-- What the device has to do for the filter of a process. -/
structure Serves (environment : SpecializeEnvironment) : Prop where
  mapsPolicy : environment.mapsPolicy = true
  requests : environment.requests = true
  succeeded : mountSucceeded environment = true
  runtime : environment.runtime = ⟨true, true, true⟩

/-- What an app has to be for the filter. -/
structure Filterable (userId : Nat) (app : AppRules) (out : AppPolicy) : Prop where
  filePicker : app.filePicker = true
  some_denied : deniedPaths userId out ≠ []
  few_denied : (deniedPaths userId out).length ≤ MediaQuery.kMaxDenyPaths
  short : ∀ path ∈ deniedPaths userId out, path.length < PATH_MAX ∧ (escapeLike path).length < PATH_MAX + 2

section Compiled
variable {limits : RulesLimits} {origins : OriginMap} {document : RulesDocument} {canonical : PolicyDocument}

theorem requiresMediaHook_planOf {app : AppRules} {out : AppPolicy}
    (hout : validatePolicy (compiledApp limits origins app) = .ok out) (name : Bytes) (uid : Uid) :
    requiresMediaHook (planOf canonical out name uid) = true ↔
      app.filePicker = true ∧ deniedPaths uid.user out ≠ [] := by
  have hdenied : (out.mounts.map (plannedRule uid.user)).any isDenyMount = true ↔ deniedPaths uid.user out ≠ [] := by
    rw [deniedPaths, ne_eq, List.map_eq_nil_iff, List.filter_eq_nil_iff, List.any_map, List.any_eq_true]
    simp [isDenyMount, plannedRule]
  rw [← virtualize_iff hout, ← hdenied, requiresMediaHook, Bool.and_eq_true]
  exact and_congr_left fun _ => beq_iff_eq

theorem install_deniedPaths {out : AppPolicy} {package : Bytes} (hcanonical : ∀ rule ∈ out.mounts, CanonicalRule package rule)
    {uid : Uid} (hzero : ∀ rule ∈ out.mounts, 0 ∉ rule.visiblePath) (runtime : MediaQuery.InstallRuntime) :
    (∃ paths, denyPaths (storageRoot uid.user) (out.mounts.map (plannedRule uid.user)) = some paths ∧ paths ≠ [] ∧
        MediaQuery.install runtime (paths.map some) uid.val = some deny) ↔
      runtime = ⟨true, true, true⟩ ∧ deniedPaths uid.user out ≠ [] ∧
        (deniedPaths uid.user out).length ≤ MediaQuery.kMaxDenyPaths ∧
        (∀ path ∈ deniedPaths uid.user out, path.length < PATH_MAX ∧ (escapeLike path).length < PATH_MAX + 2) ∧
        deny = MediaQuery.filterOf (deniedPaths uid.user out) := by
  have huid : (uid.val : Int) < 2 ^ 31 := by have := uid.isLt; omega
  have hfree : ∀ path ∈ deniedPaths uid.user out, 0 ∉ path := by
    intro path hpath
    obtain ⟨rule, hrule, rfl⟩ := List.mem_map.mp hpath
    rw [List.mem_append, List.mem_cons, not_or, not_or]
    exact ⟨zero_notMem_storageRoot _, by decide, hzero rule (List.mem_filter.mp hrule).1⟩
  have hfilterable : ∀ path ∈ deniedPaths uid.user out,
      (MediaQuery.Filterable ((uid.val : Int).toNat / 100000) path ↔
        path.length < PATH_MAX ∧ (escapeLike path).length < PATH_MAX + 2) := by
    intro path hpath
    obtain ⟨rule, hrule, rfl⟩ := List.mem_map.mp hpath
    exact filterable_iff (hcanonical rule (List.mem_filter.mp hrule).1)
  have hallowed : ∀ mount ∈ out.mounts.map (plannedRule uid.user), isAllowedTarget mount.visiblePath = true := by
    intro mount hmount
    obtain ⟨rule, hrule, rfl⟩ := List.mem_map.mp hmount
    exact (hcanonical rule hrule).visible_allowed.1
  have hroot : (storageRoot uid.user).head? = some slash := rfl
  have hsomeFree : ∀ path, some path ∈ (deniedPaths uid.user out).map some → 0 ∉ path := by
    intro path hpath
    obtain ⟨other, hother, heq⟩ := List.mem_map.mp hpath
    exact Option.some.inj heq ▸ hfree other hother
  simp only [denyPaths_eq_some_iff hroot hallowed, filter_plannedRule]
  constructor
  · rintro ⟨paths, ⟨rfl, -⟩, hne, hinstall⟩
    obtain ⟨hruntime, -, paths, hsame, -, hcount, hpaths, hdeny⟩ := MediaQuery.install_eq_some huid hsomeFree hinstall
    obtain rfl := List.map_injective_iff.mpr (Option.some_injective _) hsame
    exact ⟨hruntime, hne, hcount, fun path hpath => (hfilterable path hpath).mp (hpaths path hpath), hdeny⟩
  · rintro ⟨rfl, hne, hcount, hshort, rfl⟩
    exact ⟨_, ⟨rfl, fun path hpath => (hshort path hpath).1⟩, hne, MediaQuery.install_filterOf huid (Int.natCast_nonneg _)
      hne hcount (fun path hpath => (hfilterable path hpath).mpr (hshort path hpath)) hfree⟩

theorem zero_notMem_visible (h : CompiledFrom limits origins document canonical)
    (hwell : ∀ app ∈ document.apps, WellFormedApp app) {app : AppRules} (happ : app ∈ enabledApps document)
    {out : AppPolicy} (hout : validatePolicy (compiledApp limits origins app) = .ok out) {uid : Uid}
    (hlength : process.bytes.length < kMaxProcessNameBytes) (hcovers : Covers app process.bytes uid)
    (hfits : FitsPlan uid.user out) : ∀ rule ∈ out.mounts, 0 ∉ rule.visiblePath := by
  have hload := (loadProcessPlan_compiled_iff h hwell happ hout hcovers.package uid).mpr ⟨hlength, hcovers, hfits, rfl⟩
  intro rule hrule
  exact ((wellLoaded_of_loadProcessPlan hload).stored.sendable _ (List.mem_map_of_mem hrule)).visiblePath

theorem filter_compiled (h : CompiledFrom limits origins document canonical)
    (hwell : ∀ app ∈ document.apps, WellFormedApp app) {app : AppRules} (happ : app ∈ enabledApps document)
    {out : AppPolicy} (hmem : out ∈ canonical.apps) (hout : validatePolicy (compiledApp limits origins app) = .ok out)
    (hname : environment.niceName = some process) (hpolicy : environment.policy = some (policyFile canonical))
    (hprovider : isProviderProcess process = false) (hcovers : Covers app process.bytes environment.uid) :
    (appSpecialize environment).denyFilter = some deny ↔
      Serves environment ∧ process.bytes.length < kMaxProcessNameBytes ∧ FitsPlan environment.uid.user out ∧
        Filterable environment.uid.user app out ∧ deny = MediaQuery.filterOf (deniedPaths environment.uid.user out) := by
  have hload := fun plan => @loadProcessPlan_compiled_iff _ _ _ _ h hwell _ happ _ hout process hcovers.package
    environment.uid plan
  have hcanonical : ∀ rule ∈ out.mounts, CanonicalRule out.package rule := fun rule hrule =>
    canonicalRule_of_mem h.isCanonical hmem hrule
  rw [appSpecialize_filter hname hprovider]
  simp only [loadedPlan_eq_some_iff hpolicy, hload]
  constructor
  · rintro ⟨plan, ⟨hmaps, hlength, -, hfits, rfl⟩, hrequests, hsucceeded, hrequired, hinstalled⟩
    have hzero := zero_notMem_visible h hwell happ hout hlength hcovers hfits
    obtain ⟨hruntime, hne, hcount, hshort, hdeny⟩ := (install_deniedPaths hcanonical hzero environment.runtime).mp hinstalled
    exact ⟨⟨hmaps, hrequests, hsucceeded, hruntime⟩, hlength, hfits,
      ⟨((requiresMediaHook_planOf hout _ _).mp hrequired).1, hne, hcount, hshort⟩, hdeny⟩
  · rintro ⟨hserves, hlength, hfits, hfilterable, rfl⟩
    have hzero := zero_notMem_visible h hwell happ hout hlength hcovers hfits
    exact ⟨_, ⟨hserves.mapsPolicy, hlength, hcovers, hfits, rfl⟩, hserves.requests, hserves.succeeded,
      (requiresMediaHook_planOf hout _ _).mpr ⟨hfilterable.filePicker, hfilterable.some_denied⟩,
      (install_deniedPaths hcanonical hzero environment.runtime).mpr
        ⟨hserves.runtime, hfilterable.some_denied, hfilterable.few_denied, hfilterable.short, rfl⟩⟩

end Compiled

section Source
variable {toml : Rules.TomlParser} {source : Rules.SourceBuffer} {limits : RulesLimits} {document : RulesDocument}

/-- **Which apps have their media queries filtered.** In a process that an app of an accepted document covers, the filter is
installed exactly when the device does its part and the app has the file picker virtualized and from one to eight denied
paths that all fit; it is then the filter of all of them. With a ninth there is none. -/
theorem filter_compiled_iff (hok : (Rules.compileRules toml source limits).ok = true)
    (hdocument : (Rules.parseRulesDocument toml source limits).document = some document) :
    ∃ blob, (Rules.compileRules toml source limits).blob = some blob ∧
      ∀ app ∈ document.apps, app.enabled = true →
        ∃ out, validatePolicy (compiledApp limits (Rules.parseRulesDocument toml source limits).origins app) = .ok out ∧
          ∀ environment process deny, environment.niceName = some process → environment.policy = some blob.bytes →
            isProviderProcess process = false → Covers app process.bytes environment.uid →
              ((appSpecialize environment).denyFilter = some deny ↔
                Serves environment ∧ process.bytes.length < kMaxProcessNameBytes ∧ FitsPlan environment.uid.user out ∧
                  Filterable environment.uid.user app out ∧
                  deny = MediaQuery.filterOf (deniedPaths environment.uid.user out)) := by
  have hwell := (Rules.parseRulesDocument_some hdocument).2
  obtain ⟨blob, canonical, hblob, hcompiled, hbytes⟩ := (Rules.accepted_of_document hok hdocument).compiledFrom hwell
  refine ⟨blob, hblob, fun app happ henabled => ?_⟩
  have hmem : app ∈ enabledApps document := List.mem_filter.mpr ⟨happ, henabled⟩
  obtain ⟨out, hout, hvalid⟩ := hcompiled.exists_valid hmem
  refine ⟨out, hvalid, fun environment process deny hname hpolicy hprovider hcovers => ?_⟩
  exact filter_compiled hcompiled hwell hmem hout hvalid hname (hbytes ▸ hpolicy) hprovider hcovers

end Source

/-! ## An app with a filter -/

namespace DeniedDirectory

def layout (redirect : Bytes) : Bytes :=
  ascii "format = 1\n[apps.\"a.b\"]\ndeny = [\"D_1\"]\nredirect = [" ++ redirect ++ ascii "]\nfile_picker = true\n"

def text : Bytes := layout (ascii "\"A\" -> \"B\"")

def tree : List (Rules.TomlKey × Rules.TomlNode) :=
  let header := Rules.Sample.region 2 1 13
  let deny := .array (Rules.Sample.region 3 8 15) (Rules.Sample.denyNodes ["D_1"] 9)
  let redirects := .array (Rules.Sample.region 4 12 (14 + (Rules.Sample.tableText ("A", "B")).length))
    (Rules.Sample.redirectNodes [("A", "B")] 13)
  [(Rules.Sample.key "apps" 2 2, .table header false
      [(⟨ascii "a.b", Rules.Sample.region 2 7 12⟩, .table header false
        [(Rules.Sample.key "deny" 3 1, deny),
          (Rules.Sample.key "file_picker" 5 1, .boolean (Rules.Sample.region 5 15 19) true),
          (Rules.Sample.key "redirect" 4 1, redirects)])]),
    (Rules.Sample.key "format" 1 1, .integer (Rules.Sample.region 1 10 11) 1)]

def toml : Rules.TomlParser := fun text _ =>
  if text = layout (Rules.Sample.tableText ("A", "B")) then .ok tree else .error (Rules.Sample.region 1 1 1)

def source : Rules.SourceBuffer := ⟨ascii "rules.toml", text, by decide +kernel⟩

theorem zero_notMem_package : 0 ∉ ascii "a.b" := by decide

def appProcess : CString := ⟨ascii "a.b", zero_notMem_package⟩

/-- A device on which everything works. -/
def device (data : Bytes) : SpecializeEnvironment where
  niceName := some appProcess
  uid := 10123
  moduleDir := true
  policy := some data
  fstatPolicy := true
  mmapPolicy := true
  stat := fun _ => none
  hooks := { threadStateKey := true, getCallingUid := true, clearCallingIdentity := true,
             restoreCallingIdentity := true, registrationCount := 0, committed := true, originals := [] }
  connectCompanion := true
  memfdCreate := true
  ftruncateShared := true
  mmapShared := true
  sendPlan := true
  received := true
  validHeader := true
  result := { mount := { result := 0 } }
  finalState := .complete
  runtime := ⟨true, true, true⟩

/-- The text is accepted, and its app is for the process and can have the filter. -/
def accepts : Bool :=
  (Rules.compileRules toml source {}).ok &&
    match (Rules.parseRulesDocument toml source {}).document with
    | none => false
    | some document =>
        document.apps.any fun app =>
          app.enabled && app.filePicker && app.package == ascii "a.b" && app.processes.isEmpty && app.users == [0] &&
            match validatePolicy (compiledApp {} (Rules.parseRulesDocument toml source {}).origins app) with
            | .ok out => deniedPaths 0 out == [ascii "/storage/emulated/0/D_1"] && !out.mounts.isEmpty &&
                out.mounts.length ≤ kMaxMountRules &&
                1 + ((out.mounts.map (plannedRule 0)).map arenaBytes).sum ≤ kMaxPlanPathBytes
            | .error _ => false

theorem accepts_eq_true : accepts = true := by decide +kernel

end DeniedDirectory

open DeniedDirectory in
theorem filter_compiled_iff_deniedDirectory :
    ∃ blob, (Rules.compileRules toml DeniedDirectory.source {}).blob = some blob ∧
      (appSpecialize (DeniedDirectory.device blob.bytes)).denyFilter =
        some (MediaQuery.filterOf [ascii "/storage/emulated/0/D_1"]) := by
  have haccepts := accepts_eq_true
  rw [accepts, Bool.and_eq_true] at haccepts
  obtain ⟨hok, haccepts⟩ := haccepts
  split at haccepts
  · cases haccepts
  · next document hdocument =>
    obtain ⟨app, happ, haccepts⟩ := List.any_eq_true.mp haccepts
    simp only [Bool.and_eq_true, beq_iff_eq, List.isEmpty_iff] at haccepts
    obtain ⟨⟨⟨⟨⟨henabled, hpicker⟩, hpackage⟩, hprocesses⟩, husers⟩, hvalid⟩ := haccepts
    obtain ⟨blob, hblob, hfilter⟩ := filter_compiled_iff hok hdocument
    obtain ⟨out, hout, hiff⟩ := hfilter app happ henabled
    rw [hout] at hvalid
    simp only [Bool.and_eq_true, beq_iff_eq, decide_eq_true_eq, Bool.not_eq_true', List.isEmpty_eq_false_iff] at hvalid
    obtain ⟨⟨⟨hdenied, hne⟩, hcount⟩, harena⟩ := hvalid
    have hcovers : Covers app appProcess.bytes 10123 :=
      ⟨by rw [hpackage]; decide, .inl hprocesses, by rw [husers]; decide⟩
    refine ⟨blob, hblob, (hiff (DeniedDirectory.device blob.bytes) appProcess _ rfl rfl (by decide) hcovers).mpr ?_⟩
    have huser : (10123 : Uid).user = 0 := by decide
    have hdevice : (DeniedDirectory.device blob.bytes).uid.user = 0 := huser
    rw [hdevice, hdenied]
    refine ⟨⟨rfl, rfl, rfl, rfl⟩, by decide, ⟨List.length_pos_iff.mpr hne, hcount, harena⟩, ⟨hpicker, ?_, ?_, ?_⟩, rfl⟩
    · rw [hdenied]
      exact List.cons_ne_nil _ _
    · rw [hdenied]
      decide
    · rw [hdenied]
      decide

end PathGuardModule

end PathGuard.Zygisk
