import PathGuard.Lib.Bytes

/-!
# Policy documents

`core/include/pathguard/policy.h`.
-/

namespace PathGuard

inductive FailureMode
  | kOpen
  | kClosed
  deriving DecidableEq, Repr

inductive MountAction
  | deny
  | redirect
  | restore
  | isolateRoot
  deriving DecidableEq, Repr

inductive EventAction
  | kObserve
  | kExport
  deriving DecidableEq, Repr

inductive MediaCompat
  | off
  | hideDenied
  deriving DecidableEq, Repr

inductive ProviderCompat
  | off
  | virtualize
  deriving DecidableEq, Repr

/-! The numbers the enumerators stand for, and the way back. -/

def FailureMode.code : FailureMode → UInt8
  | .kOpen => 0
  | .kClosed => 1

def MountAction.code : MountAction → UInt8
  | .deny => 0
  | .redirect => 1
  | .restore => 2
  | .isolateRoot => 3

def EventAction.code : EventAction → UInt8
  | .kObserve => 0
  | .kExport => 1

def MediaCompat.code : MediaCompat → UInt8
  | .off => 0
  | .hideDenied => 1

def ProviderCompat.code : ProviderCompat → UInt8
  | .off => 0
  | .virtualize => 1

def FailureMode.ofCode? (code : UInt8) : Option FailureMode :=
  if code = 0 then some .kOpen else if code = 1 then some .kClosed else none

def MountAction.ofCode? (code : UInt8) : Option MountAction :=
  if code = 0 then some .deny
  else if code = 1 then some .redirect
  else if code = 2 then some .restore
  else if code = 3 then some .isolateRoot
  else none

def EventAction.ofCode? (code : UInt8) : Option EventAction :=
  if code = 0 then some .kObserve else if code = 1 then some .kExport else none

def MediaCompat.ofCode? (code : UInt8) : Option MediaCompat :=
  if code = 0 then some .off else if code = 1 then some .hideDenied else none

def ProviderCompat.ofCode? (code : UInt8) : Option ProviderCompat :=
  if code = 0 then some .off else if code = 1 then some .virtualize else none

@[simp] theorem MountAction.ofCode?_code (action : MountAction) : ofCode? action.code = some action := by
  cases action <;> rfl

@[simp] theorem EventAction.ofCode?_code (action : EventAction) : ofCode? action.code = some action := by
  cases action <;> rfl

@[simp] theorem FailureMode.ofCode?_code (mode : FailureMode) : ofCode? mode.code = some mode := by
  cases mode <;> rfl

@[simp] theorem MediaCompat.ofCode?_code (compat : MediaCompat) : ofCode? compat.code = some compat := by
  cases compat <;> rfl

@[simp] theorem ProviderCompat.ofCode?_code (compat : ProviderCompat) : ofCode? compat.code = some compat := by
  cases compat <;> rfl

theorem MountAction.code_inj {a b : MountAction} (h : a.code = b.code) : a = b := by
  simpa using congrArg ofCode? h

theorem MediaCompat.code_inj {a b : MediaCompat} (h : a.code = b.code) : a = b := by
  simpa using congrArg ofCode? h

theorem ProviderCompat.code_inj {a b : ProviderCompat} (h : a.code = b.code) : a = b := by
  simpa using congrArg ofCode? h

def kEventModeTrash : UInt32 := 2
def kEventModeMask : UInt32 := 0x3
def kEventMediaScan : UInt32 := (1 : UInt32) <<< 2

structure LogicalMountRule where
  action : MountAction := .deny
  visiblePath : Bytes := []
  backingPath : Bytes := []
  depth : UInt16 := 0
  flags : UInt16 := 0
  line : Nat := 0
  deriving DecidableEq, Repr

structure EventRule where
  action : EventAction := .kObserve
  sourcePath : Bytes := []
  targetPath : Bytes := []
  options : UInt32 := 0
  line : Nat := 0
  deriving DecidableEq, Repr

structure AppPolicy where
  package : Bytes := []
  mediaCompat : MediaCompat := .off
  providerCompat : ProviderCompat := .off
  users : List Bytes := [ascii "*"]
  processes : List Bytes := [ascii "*"]
  mounts : List LogicalMountRule := []
  events : List EventRule := []
  deriving DecidableEq, Repr

structure PolicyDocument where
  schema : Int := 0
  failureMode : FailureMode := .kOpen
  allowLegacyStringBind : Bool := false
  apps : List AppPolicy := []
  deriving DecidableEq, Repr

structure ParseError where
  line : Nat := 0
  message : String := ""
  deriving DecidableEq, Repr

end PathGuard
