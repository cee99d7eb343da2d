import PathGuard.Lib.Decimal
import PathGuard.Lib.MountNamespace
import PathGuard.Core.Path
import PathGuard.Core.Policy
import PathGuard.Zygisk.Transaction

/-!
# From the rules of a package to a mount namespace

`zygisk/src/module_entry.cpp`: the loop of `LoadProcessPlan` over the rules of a package, the loop of
`ApplyProcessPlan` that pins every source and every target before the first mount, and what the mounts of a
transaction then do to the namespace of the app.

The kernel is a mount namespace over directory trees. The storage of the user is one tree, shown at
`visible_root` and at `source_root`; the deny anchor is a directory of another. An absolute path is a root and the
path below it. What a `PinDirectory` can fail on besides a missing directory is left out.

* `loadRules`, `loadPackagePlan` : the plan of a package;
* `Device`, `Workspace`, `pinRules` : the namespace, and what is pinned before the first mount;
* `mountsAfter` : the mounts that a history leaves.
-/

namespace PathGuard.Zygisk

open PathGuard

/-! ## LoadProcessPlan: the rules of a package -/

def kMaxPlanPathBytes : Nat := 64 * 1024

structure PlannedMount where
  action : MountAction
  visiblePath : Bytes
  backingPath : Bytes
  deriving DecidableEq, Repr

/-- `ProcessPlan`: its mounts, with the paths in place of their offsets, and the bytes the paths take. -/
structure ProcessPlan where
  mounts : List PlannedMount := []
  pathBytes : Nat := 1

def isExecutableMountAction (action : MountAction) : Bool := action = .deny || action = .redirect

/-- The components the loop of `HasSafePathComponents` visits: it ends at the end of the input, so it does not look
at the empty one after a separator that comes last. -/
def safePathComponents (path : Bytes) : List Bytes :=
  let components := path.splitOn slash
  if components.getLast? = some [] then components.dropLast else components

def hasSafePathComponents (path : Bytes) : Bool :=
  !path.isEmpty && path.head? != some slash &&
    (safePathComponents path).all fun component => !component.isEmpty && component != ascii "." && component != ascii ".."

def isAllowedTarget (path : Bytes) : Bool :=
  hasSafePathComponents path && !path.contains openBrace && !path.contains closeBrace

/-- The loop of `ExpandRuntimePath`; `skip` counts the bytes of a placeholder that are still to be passed over. -/
def expandUser (user : Bytes) (capacity : Nat) : Nat → Bytes → Bytes → Option Bytes
  | _, [], output => some output
  | skip + 1, _ :: rest, output => expandUser user capacity skip rest output
  | 0, byte :: rest, output =>
      if (ascii "\x7buser\x7d").isPrefixOf (byte :: rest) then
        if capacity ≤ output.length + user.length then none
        else expandUser user capacity 5 rest (output ++ user)
      else if byte = openBrace || byte = closeBrace || capacity ≤ output.length + 1 then none
      else expandUser user capacity 0 rest (output ++ [byte])

def expandRuntimePath (input : Bytes) (userId capacity : Nat) : Option Bytes :=
  (expandUser (decimalBytes userId) capacity 0 input []).filter isAllowedTarget

/-- `StorePlanPath`: the bytes in use afterwards. -/
def storePlanPath (pathBytes : Nat) (path : Bytes) : Option Nat :=
  if kMaxPlanPathBytes - pathBytes < path.length + 1 then none else some (pathBytes + (path.length + 1))

/-- What a rule puts into the plan. -/
def plannedMount (userId : Nat) (rule : LogicalMountRule) : Option PlannedMount :=
  if !isExecutableMountAction rule.action || !isAllowedTarget rule.visiblePath then none
  else if rule.action = .deny then
    if rule.backingPath ≠ [] || PATH_MAX ≤ rule.visiblePath.length then none
    else some ⟨rule.action, rule.visiblePath, []⟩
  else
    match expandRuntimePath rule.backingPath userId PATH_MAX with
    | none => none
    | some backing =>
        if PATH_MAX ≤ rule.visiblePath.length then none else some ⟨rule.action, rule.visiblePath, backing⟩

/-- The loop of `LoadProcessPlan` over the rules of the package. -/
def loadRules (userId : Nat) : List LogicalMountRule → ProcessPlan → Option ProcessPlan
  | [], plan => some plan
  | rule :: rules, plan => do
      let mount ← plannedMount userId rule
      let pathBytes ← storePlanPath plan.pathBytes mount.visiblePath
      let pathBytes ← storePlanPath pathBytes mount.backingPath
      loadRules userId rules { mounts := plan.mounts ++ [mount], pathBytes := pathBytes }

/-- The plan `LoadProcessPlan` makes of the package it has found. -/
def loadPackagePlan (userId : Nat) (app : AppPolicy) : Option ProcessPlan :=
  if kMaxMountRules < app.mounts.length then none
  else (loadRules userId app.mounts {}).filter fun plan => !plan.mounts.isEmpty

def requiredMountActions (plan : ProcessPlan) : MountActionMask :=
  if plan.mounts.all fun mount => isExecutableMountAction mount.action then
    plan.mounts.foldl (fun required mount =>
      required ||| (if mount.action = .deny then kMountActionDenyAnchor else kMountActionRedirect)) 0
  else 0

/-! ## The kernel's side -/

/-- The file systems of the model. -/
inductive FileSystem
  | storage
  | moduleDir
  deriving DecidableEq, Repr

/-- `RuntimeStorageTopology` and the deny anchor, as strings. -/
structure Topology where
  visibleRoot : Bytes
  sourceRoot : Bytes
  denyAnchorPath : Bytes

/-- The device: its directories, and where the two roots and the deny anchor are before the transaction. The mounts
of the transaction have ids of their own. -/
structure Device where
  topology : Topology
  trees : DirTrees FileSystem Bytes
  visibleRoot : Place FileSystem Bytes
  sourceRoot : Place FileSystem Bytes
  denyAnchor : Place FileSystem Bytes
  firstMountId : Nat
  visibleRoot_fs : visibleRoot.dir.fs = .storage
  sourceRoot_fs : sourceRoot.dir.fs = .storage
  denyAnchor_fs : denyAnchor.dir.fs = .moduleDir
  visibleRoot_lt : visibleRoot.mount < firstMountId

/-- An absolute path. -/
inductive Locator
  | visible (path : Bytes)
  | source (path : Bytes)
  | denyAnchor
  deriving DecidableEq, Repr

/-- The names a path is made of. -/
def pathNames (path : Bytes) : List Bytes := path.splitOn slash

namespace Device
variable (device : Device)

/-- `BuildPathUnderRoot`. -/
def buildPathUnderRoot (root : Bytes) (path : Bytes) (locator : Bytes → Locator) : Option Locator :=
  if root.head? != some slash || !isAllowedTarget path || PATH_MAX ≤ root.length + 1 + path.length then none
  else some (locator path)

/-- `BuildMountSourcePath`. -/
def buildMountSourcePath (mount : PlannedMount) : Option Locator :=
  if mount.action = .deny then
    if device.topology.denyAnchorPath.head? != some slash || PATH_MAX ≤ device.topology.denyAnchorPath.length then none
    else some .denyAnchor
  else if mount.action = .redirect && !mount.backingPath.isEmpty then
    buildPathUnderRoot device.topology.sourceRoot mount.backingPath .source
  else none

/-- Path lookup in the namespace of the app. -/
def resolve (mounts : List (Mount FileSystem Bytes)) : Locator → Option (Place FileSystem Bytes)
  | .visible path => lookup device.trees mounts device.visibleRoot (pathNames path)
  | .source path => lookup device.trees mounts device.sourceRoot (pathNames path)
  | .denyAnchor => some device.denyAnchor

/-- `PinDirectory`, before anything is mounted: the place the descriptor stands for. -/
def pinDirectory (locator : Locator) : Option (Place FileSystem Bytes) := device.resolve [] locator

end Device

/-! ## ApplyProcessPlan: the pin loop -/

/-- `MountTransactionWorkspace`: the pinned sources, each once, and for every rule the index of its source and its
pinned target. -/
structure Workspace where
  sources : List (Locator × Place FileSystem Bytes) := []
  sourceIndexes : List Nat := []
  targets : List (Locator × Place FileSystem Bytes) := []

/-- The search for a source that is pinned already; a new one is pinned and gets the next index. -/
def pinSource (device : Device) (sources : List (Locator × Place FileSystem Bytes)) (source : Locator) :
    Option (Nat × List (Locator × Place FileSystem Bytes)) :=
  let sourceIndex := sources.findIdx fun pinned => pinned.1 = source
  if sourceIndex = sources.length then
    (device.pinDirectory source).map fun place => (sourceIndex, sources ++ [(source, place)])
  else some (sourceIndex, sources)

/-- One round of the pin loop. -/
def pinRule (device : Device) (workspace : Workspace) (mount : PlannedMount) : Option Workspace :=
  if !isExecutableMountAction mount.action then none
  else do
    let target ← Device.buildPathUnderRoot device.topology.visibleRoot mount.visiblePath .visible
    let source ← device.buildMountSourcePath mount
    let (sourceIndex, sources) ← pinSource device workspace.sources source
    let place ← device.pinDirectory target
    return {
      sources := sources
      sourceIndexes := workspace.sourceIndexes ++ [sourceIndex]
      targets := workspace.targets ++ [(target, place)] }

/-- The pin loop. -/
def pinRules (device : Device) : List PlannedMount → Workspace → Option Workspace
  | [], workspace => some workspace
  | mount :: mounts, workspace => do
      let workspace ← pinRule device workspace mount
      pinRules device mounts workspace

/-- What the transaction sees of a plan and its workspace. -/
def transactionPlan (plan : ProcessPlan) (workspace : Workspace) (allowLegacy : Bool) : TransactionPlan where
  count := plan.mounts.length
  requiredActions := requiredMountActions plan
  allowLegacy := allowLegacy
  sourcePinned ruleIndex :=
    match workspace.sourceIndexes[ruleIndex]? with
    | some sourceIndex => sourceIndex < workspace.sources.length
    | none => false

/-! ## ApplyProcessPlan: the mounts -/

/-- The pinned source of a rule. -/
def Workspace.source? (workspace : Workspace) (ruleIndex : Nat) : Option (Locator × Place FileSystem Bytes) :=
  workspace.sourceIndexes[ruleIndex]?.bind fun sourceIndex => workspace.sources[sourceIndex]?

/-- `ApplyDirectoryMountRaw`, when it succeeds. The strict backends hand the two descriptors to the kernel; the legacy
one the two paths, as they resolve by then. -/
def mountRule (device : Device) (workspace : Workspace) (backend : MountBackendKind)
    (mounts : List (Mount FileSystem Bytes)) (ruleIndex : Nat) : List (Mount FileSystem Bytes) :=
  match workspace.source? ruleIndex, workspace.targets[ruleIndex]? with
  | some (sourceLocator, source), some (targetLocator, target) =>
      match backend with
      | .strictOpenTree | .strictProcFd => attach mounts (device.firstMountId + ruleIndex) target source.dir
      | .legacyString =>
          match device.resolve mounts sourceLocator, device.resolve mounts targetLocator with
          | some source, some target => attach mounts (device.firstMountId + ruleIndex) target source.dir
          | _, _ => mounts
      | .unsupported => mounts
  | _, _ => mounts

/-- What an event of the history does to the namespace. -/
def applyEvent (device : Device) (workspace : Workspace) (backend : MountBackendKind)
    (mounts : List (Mount FileSystem Bytes)) : NamespaceEvent → List (Mount FileSystem Bytes)
  | .attach ruleIndex => mountRule device workspace backend mounts ruleIndex
  | .detach ruleIndex => mounts.filter fun mount => mount.id ≠ device.firstMountId + ruleIndex
  | .makePrivate | .verifiedGone _ => mounts

/-- The mounts of the transaction after a history. -/
def mountsAfter (device : Device) (workspace : Workspace) (backend : MountBackendKind) (log : List NamespaceEvent) :
    List (Mount FileSystem Bytes) :=
  log.foldl (applyEvent device workspace backend) []

end PathGuard.Zygisk
