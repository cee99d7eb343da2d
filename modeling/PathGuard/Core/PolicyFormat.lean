import Mathlib.Logic.Function.Iterate
import PathGuard.Lib.Bytes

/-!
# The constants and hashes of the policy format

`core/include/pathguard/policy_format.h`.
-/

namespace PathGuard

def kMagic : UInt32 := 0x424E4750
def kFormatVersion : UInt16 := 5
def kSchemaVersion : UInt16 := 2
def kHeaderSize : Nat := 56
def kPackageSize : Nat := 48
def kMountRuleSize : Nat := 16
def kEventRuleSize : Nat := 16

def kFileSizeOffset : Nat := 8
def kPayloadChecksumOffset : Nat := 12
def kContentGenerationOffset : Nat := 16
def kPackageCountOffset : Nat := 24
def kMountRuleCountOffset : Nat := 28
def kEventRuleCountOffset : Nat := 32
def kPackageTableOffset : Nat := 36
def kMountRuleTableOffset : Nat := 40
def kEventRuleTableOffset : Nat := 44
def kStringTableOffset : Nat := 48
def kHeaderFlagsOffset : Nat := 52

def kPolicyFlagAllowLegacyStringBind : UInt32 := (1 : UInt32) <<< 0

def kPackageHashOffset : Nat := 0
def kPackageNameOffset : Nat := 4
def kPackageUsersOffset : Nat := 8
def kPackageProcessesOffset : Nat := 12
def kPackageFirstMountOffset : Nat := 16
def kPackageMountCountOffset : Nat := 20
def kPackageFirstEventOffset : Nat := 24
def kPackageEventCountOffset : Nat := 28
def kPackagePlanGenerationOffset : Nat := 32
def kPackageFailureModeOffset : Nat := 40
def kPackageMediaCompatOffset : Nat := 41
def kPackageProviderCompatOffset : Nat := 42

def kMountActionOffset : Nat := 0
def kMountDepthOffset : Nat := 2
def kMountFlagsOffset : Nat := 4
def kMountVisiblePathOffset : Nat := 8
def kMountBackingPathOffset : Nat := 12

def kEventActionOffset : Nat := 0
def kEventSourcePathOffset : Nat := 4
def kEventTargetPathOffset : Nat := 8
def kEventOptionsOffset : Nat := 12

def kFnv1a32OffsetBasis : UInt32 := 2166136261
def kFnv1a64OffsetBasis : UInt64 := 14695981039346656037
def kCrc32Initial : UInt32 := 0xffffffff
def kCrc32XorOut : UInt32 := 0xffffffff

def fnv1a32 (data : Bytes) : UInt32 :=
  data.foldl (fun hash byte => (hash ^^^ byte.toUInt32) * 16777619) kFnv1a32OffsetBasis

def fnv1a64 (data : Bytes) : UInt64 :=
  data.foldl (fun hash byte => (hash ^^^ byte.toUInt64) * 1099511628211) kFnv1a64OffsetBasis

def crc32Bit (crc : UInt32) : UInt32 :=
  let mask := 0 - (crc &&& 1)
  (crc >>> 1) ^^^ (0xedb88320 &&& mask)

def crc32 (data : Bytes) : UInt32 :=
  data.foldl (fun crc byte => crc32Bit^[8] (crc ^^^ byte.toUInt32)) kCrc32Initial ^^^ kCrc32XorOut

def packageNameHash (value : Bytes) : UInt32 := fnv1a32 value

/-- The check value of CRC-32. -/
example : crc32 (ascii "123456789") = 0xcbf43926 := by decide +kernel

end PathGuard
