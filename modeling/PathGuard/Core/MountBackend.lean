import Mathlib.Data.Nat.Bitwise

/-!
# Which backend mounts a plan

`core/include/pathguard/mount_backend.h` and the capability bits of `capabilities.h` it tests.
-/

namespace PathGuard

abbrev CapabilityBits := Nat
abbrev MountActionMask := Nat

def kCapabilityComponentFdWalk : CapabilityBits := 1 <<< 1
def kCapabilityProcFdMount : CapabilityBits := 1 <<< 2
def kCapabilityOpenTreeMoveMount : CapabilityBits := 1 <<< 3
def kCapabilityStringBindMount : CapabilityBits := 1 <<< 4

def kMountActionRedirect : MountActionMask := 1 <<< 0
def kMountActionDenyAnchor : MountActionMask := 1 <<< 1

inductive MountBackendKind
  | unsupported
  | strictOpenTree
  | strictProcFd
  | legacyString
  deriving DecidableEq, Repr

inductive MountBackendReason
  | none
  | capabilityMissing
  | legacyNotAuthorized
  | unsupportedAction
  deriving DecidableEq, Repr

structure MountBackendCapabilities where
  primitives : CapabilityBits := 0
  strictActions : MountActionMask := 0
  legacyActions : MountActionMask := 0
  deriving DecidableEq, Repr

structure MountBackendSelection where
  backend : MountBackendKind := .unsupported
  reason : MountBackendReason := .capabilityMissing
  deriving DecidableEq, Repr

def supportsAllActions (supported required : MountActionMask) : Bool :=
  required != 0 && supported &&& required == required

def selectMountBackend (requiredActions : MountActionMask) (capabilities : MountBackendCapabilities)
    (allowLegacyStringBind : Bool) : MountBackendSelection :=
  if requiredActions = 0 then ⟨.unsupported, .unsupportedAction⟩
  else if supportsAllActions capabilities.strictActions requiredActions &&
      capabilities.primitives &&& kCapabilityOpenTreeMoveMount != 0 then ⟨.strictOpenTree, .none⟩
  else if supportsAllActions capabilities.strictActions requiredActions &&
      capabilities.primitives &&& kCapabilityProcFdMount != 0 then ⟨.strictProcFd, .none⟩
  else if capabilities.primitives &&& kCapabilityStringBindMount == 0 then
    ⟨.unsupported, .capabilityMissing⟩
  else if !allowLegacyStringBind then ⟨.unsupported, .legacyNotAuthorized⟩
  else if !supportsAllActions capabilities.legacyActions requiredActions then
    ⟨.unsupported, .unsupportedAction⟩
  else ⟨.legacyString, .none⟩

def nextMountBackend (current : MountBackendKind) (requiredActions : MountActionMask)
    (allowLegacyStringBind legacyNamespaceAllowed : Bool) : MountBackendKind :=
  if current = .strictOpenTree then .strictProcFd
  else if current = .strictProcFd && allowLegacyStringBind && legacyNamespaceAllowed &&
      supportsAllActions kMountActionRedirect requiredActions then .legacyString
  else .unsupported

def needsPostMountSnapshot (backend : MountBackendKind) (mutationRecorded applySucceeded : Bool) : Bool :=
  mutationRecorded && (!applySucceeded || backend == .legacyString)

end PathGuard
