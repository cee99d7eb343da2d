import PathGuard.Native.MountInfoSnapshot
import PathGuard.Zygisk.Transaction

/-!
# Pinning and checking mounts

`native/mount_executor.cpp`: `PinDirectory` notes for an open directory which mount it is on, and
`VerifyDirectoryMount` looks a new bind mount up in the table that was read after it was made. What the system calls
return is an argument.
-/

namespace PathGuard.Native

open Zygisk (MountOperationStage)

structure PinnedIdentity where
  device : Device
  inode : Nat
  mount : MountPathIdentity
  expectedBindRoot : Bytes
  deriving DecidableEq

structure AppliedMount where
  backend : MountBackendKind
  target : Bytes
  mountId : Nat := 0
  operationId : Nat := 0
  deriving DecidableEq

structure MountError where
  stage : MountOperationStage := .none
  backend : MountBackendKind := .unsupported
  operationId : Nat := 0
  error : Option Errno := none
  expectedMountId : Nat := 0
  actualMountId : Nat := 0
  mutationHappened : Bool := false
  identityConfirmed : Bool := false
  deriving DecidableEq

/-- The identity of `/proc/self/ns/mnt`. -/
structure NamespaceIdentity where
  device : Nat
  inode : Nat
  deriving DecidableEq

/-- A snapshot with the namespace that it was taken in. -/
structure CapturedSnapshot where
  snapshot : MountInfoSnapshot
  space : NamespaceIdentity
  deriving DecidableEq

/-- What is looked at of a `struct stat`. -/
structure StatResult where
  isDirectory : Bool
  device : Device
  inode : Nat
  deriving DecidableEq

def sameObject (value : StatResult) (identity : PinnedIdentity) : Bool :=
  value.isDirectory && value.device = identity.device && value.inode = identity.inode

/-! ## PinDirectory -/

/-- What `BuildExpectedBindRoot` writes: the root, and what of the path is behind the mount point. -/
def bindRootText (absolutePath mountpoint root : Bytes) : Bytes :=
  let suffix := if mountpoint = [slash] then absolutePath else absolutePath.drop mountpoint.length
  if suffix.isEmpty then root
  else if root = [slash] then suffix
  else root ++ (if suffix.head? = some slash then [] else [slash]) ++ suffix

def buildExpectedBindRoot (absolutePath mountpoint root : Bytes) (capacity : Nat) : Except Errno Bytes :=
  if !isPathOnMount absolutePath mountpoint then .error .EXDEV
  else
    let written := bindRootText absolutePath mountpoint root
    if written.isEmpty || capacity ≤ written.length then .error .ENAMETOOLONG else .ok written

/-- `PinDirectory`, once the directory is open and is the object that `lstat` saw. -/
def pinDirectory (snapshot : MountInfoSnapshot) (absolutePath : Bytes) (device : Device) (inode : Nat) :
    Except Errno PinnedIdentity :=
  if absolutePath.head? ≠ some slash then .error .EINVAL
  else
    match findMountInfoPath snapshot absolutePath false with
    | .error error => .error error
    | .ok mount =>
        if mount.device ≠ device then .error .EXDEV
        else
          match buildExpectedBindRoot absolutePath mount.mountpoint mount.root PATH_MAX with
          | .error error => .error error
          | .ok expectedBindRoot =>
              .ok { device := device, inode := inode, mount := mount, expectedBindRoot := expectedBindRoot }

/-! ## VerifyDirectoryMount -/

/-- The parent that the row of the new mount should have. -/
def expectedParent (target : PinnedIdentity) (targetPath : Bytes) : Nat :=
  if targetPath = target.mount.mountpoint then target.mount.parentMountId else target.mount.mountId

/-- What is checked besides for `kLegacyString`: what `stat` says of the target, and how many rows there are. -/
def checkLegacy (targetStat : Except Errno StatResult) (before after : CapturedSnapshot) (source : PinnedIdentity)
    (backend : MountBackendKind) (expectedMountCount : Nat) : Except Errno Unit :=
  if backend ≠ .legacyString then .ok ()
  else
    match targetStat with
    | .error error => .error error
    | .ok status =>
        if !sameObject status source then .error .EXDEV
        else if expectedMountCount = 0 ||
            after.snapshot.entries.length ≠ before.snapshot.entries.length + expectedMountCount then
          .error .EBADMSG
        else .ok ()

def checkIdentity (source : PinnedIdentity) (mounted : MountPathIdentity) : Except Errno Unit :=
  if mounted.mountId = 0 || mounted.root.isEmpty || mounted.root ≠ source.expectedBindRoot ||
      mounted.device ≠ source.device || mounted.filesystem ≠ source.mount.filesystem then
    .error .EXDEV
  else .ok ()

def checkParent (target : PinnedIdentity) (targetPath : Bytes) (mounted : MountPathIdentity) : Except Errno Unit :=
  if expectedParent target targetPath = 0 || mounted.parentMountId ≠ expectedParent target targetPath then
    .error .EXDEV
  else .ok ()

/-- The checks of the row that was found, in their order; `targetStat` is what `stat` says of the target. -/
def checkMounted (targetStat : Except Errno StatResult) (before after : CapturedSnapshot)
    (source target : PinnedIdentity) (targetPath : Bytes) (backend : MountBackendKind) (expectedMountCount : Nat)
    (mounted : MountPathIdentity) : Except Errno Unit := do
  checkLegacy targetStat before after source backend expectedMountCount
  checkIdentity source mounted
  checkParent target targetPath mounted

def verifyDirectoryMount (current : NamespaceIdentity) (targetStat : Except Errno StatResult)
    (before after : CapturedSnapshot) (source target : PinnedIdentity) (targetPath : Bytes) (applied : AppliedMount)
    (expectedMountCount : Nat) : MountError × AppliedMount :=
  let failure : MountError :=
    { stage := .verify, backend := applied.backend, operationId := applied.operationId, mutationHappened := true }
  if targetPath.isEmpty || before.space ≠ after.space || current ≠ after.space then
    ({ failure with error := some .ESTALE }, applied)
  else
    match findMountInfoPath after.snapshot targetPath true with
    | .error error => ({ failure with error := some error }, { applied with mountId := 0 })
    | .ok mounted =>
        let applied := { applied with mountId := mounted.mountId }
        let failure := { failure with actualMountId := mounted.mountId }
        match checkMounted targetStat before after source target targetPath applied.backend expectedMountCount mounted with
        | .error error => ({ failure with error := some error }, applied)
        | .ok () => ({ failure with stage := .none, error := none, identityConfirmed := true }, applied)

/-- `ValidateRollbackDirectoryMount`. -/
def validateRollbackDirectoryMount (current : NamespaceIdentity) (applied : AppliedMount) (after : CapturedSnapshot) :
    MountError :=
  let failure : MountError :=
    { backend := applied.backend, operationId := applied.operationId, expectedMountId := applied.mountId,
      mutationHappened := true }
  if applied.mountId = 0 then { failure with stage := .rollbackIdentity, error := some .ESTALE }
  else
    let found := if current = after.space then findMountInfoPath after.snapshot applied.target true else .error .ESTALE
    match found with
    | .error error => { failure with stage := .rollbackIdentity, error := some error }
    | .ok mounted =>
        if mounted.mountId = 0 || mounted.mountId ≠ applied.mountId then
          { failure with stage := .rollbackIdentity, error := some .ESTALE, actualMountId := mounted.mountId }
        else { failure with identityConfirmed := true, actualMountId := mounted.mountId, error := none }

end PathGuard.Native
