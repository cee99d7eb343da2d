import PathGuard.Core.Path
import PathGuard.Core.Validation
import PathGuard.Lib.Fields
import PathGuard.Lib.Octal
import PathGuard.Lib.Sort

/-!
# The storage topology

`core/src/topology.cpp`: from the mount table, where each user's storage is seen and where it is kept. A row that is
mounted at the user's own directory says both at once. Otherwise the user is seen through the aggregate mount, and a
pass-through row has to give evidence of where the storage is kept.
-/

namespace PathGuard.Topology

structure MountRecord where
  mountId : Nat
  deviceId : Bytes
  root : Bytes
  mountpoint : Bytes
  filesystemType : Bytes
  source : Bytes
  deriving DecidableEq

structure StorageTopologyAlias where
  mountId : Nat
  path : Bytes
  deriving DecidableEq

structure StorageTopologyMount where
  userId : UInt32
  mountId : Nat
  visibleRoot : Bytes
  backendRoot : Bytes
  filesystemType : Bytes
  aliases : List StorageTopologyAlias
  deriving DecidableEq

structure StorageTopology where
  supported : Bool := false
  unsupportedReason : Bytes := []
  mounts : List StorageTopologyMount := []
  deriving DecidableEq

/-- `Unsupported`: what is left in the topology when `ParseMountInfo` fails. The error is the reason in it. -/
def unsupported {α : Type} (topology : StorageTopology) (message : Bytes) : Except StorageTopology α :=
  .error { topology with supported := false, unsupportedReason := message }

/-! ## Rows -/

def colon : UInt8 := 0x3a

/-- `std::from_chars` of the whole value as a `uint64_t`. -/
def parseUnsigned (value : Bytes) : Option Nat :=
  if value.isEmpty || !value.all isDigit || 2 ^ 64 ≤ decimalValue value then none else some (decimalValue value)

def isDeviceId (value : Bytes) : Bool :=
  match value.splitOn colon with
  | [major, minor] => (parseUnsigned major).isSome && (parseUnsigned minor).isSome
  | _ => false

/-- The values that an escape may have: those of seven bits, other than zero. -/
def acceptSevenBits (value : Nat) : Option UInt8 := if value = 0 || 0x7f < value then none else some (UInt8.ofNat value)

def decodeMountInfoPath (input : Bytes) : Option Bytes := Octal.decode acceptSevenBits input

/-- The second part of a line's check, with the tokens after the separator in `rest`. -/
def readRecord (tokens rest : List Bytes) : Option MountRecord :=
  match tokens, rest with
  | mountIdText :: _ :: deviceId :: rootText :: mountpointText :: _, filesystemType :: sourceText :: _ => do
      let mountId ← parseUnsigned mountIdText
      if isDeviceId deviceId then
        let root ← decodeMountInfoPath rootText
        let mountpoint ← decodeMountInfoPath mountpointText
        let source ← decodeMountInfoPath sourceText
        if mountpoint.head? = some slash then
          return { mountId := mountId, deviceId := deviceId, root := root, mountpoint := mountpoint,
                   filesystemType := filesystemType, source := source }
        else none
      else none
  | _, _ => none

/-- The tokens that `>>` takes from a line. -/
def tokensOf (line : Bytes) : List Bytes := fields isWhitespace line

/-- The loop over the lines of the text. -/
def readRecords : Nat → List Bytes → List MountRecord → Except StorageTopology (List MountRecord)
  | _, [], records => .ok records
  | lineNumber, line :: lines, records =>
      if line.isEmpty then readRecords (lineNumber + 1) lines records
      else
        let tokens := tokensOf line
        let separator := tokens.idxOf (ascii "-")
        if tokens.length < 7 || separator < 6 || tokens.length ≤ separator + 2 then
          unsupported {} (ascii "malformed mountinfo line " ++ decimalBytes lineNumber)
        else
          match readRecord tokens (tokens.drop (separator + 1)) with
          | none => unsupported {} (ascii "invalid mountinfo line " ++ decimalBytes lineNumber)
          | some record => readRecords (lineNumber + 1) lines (records ++ [record])

/-! ## Users -/

def parseUserId (value : Bytes) : Option UInt32 :=
  if !value.isEmpty && value.all isDigit then
    (parseUnsigned value).bind fun parsed => if parsed < 2 ^ 32 then some (UInt32.ofNat parsed) else none
  else none

def parsePrimaryRoot (mountpoint : Bytes) : Option UInt32 :=
  if (ascii "/storage/emulated/").isPrefixOf mountpoint then
    parseUserId (mountpoint.drop (ascii "/storage/emulated/").length)
  else none

def parseUserMountpoint (mountpoint front suffix : Bytes) : Option UInt32 :=
  if !front.isPrefixOf mountpoint then none
  else
    let rest := mountpoint.drop front.length
    let tail := rest.dropWhile (· ≠ slash)
    if tail.isEmpty || tail ≠ suffix then none else parseUserId (rest.takeWhile (· ≠ slash))

/-- Where the storage of a user is kept. -/
def expectedRoot (user : UInt32) : Bytes := ascii "/data/media/" ++ decimalBytes user.toNat

def deriveBackendRoot (source : Bytes) (user : UInt32) : Option Bytes :=
  if source = ascii "/data/media" then some (ascii "/data/media/" ++ decimalBytes user.toNat)
  else if source = expectedRoot user then some (expectedRoot user)
  else none

/-- The mount of the data partition that a pass-through row shows a part of. -/
def isDataMountOf (record candidate : MountRecord) : Bool :=
  candidate.mountpoint = ascii "/data" && candidate.root = ascii "/" && candidate.deviceId = record.deviceId &&
    candidate.filesystemType = record.filesystemType && candidate.source = record.source

def derivePassThroughBackendRoot (record : MountRecord) (records : List MountRecord) (user : UInt32) : Option Bytes :=
  match deriveBackendRoot record.source user with
  | some backendRoot => some backendRoot
  | none =>
      if record.root = ascii "/media" &&
          parseUserMountpoint record.mountpoint (ascii "/mnt/pass_through/") (ascii "/emulated") = some user &&
          records.any (isDataMountOf record) then
        some (ascii "/data/media/" ++ decimalBytes user.toNat)
      else none

def findUserMount (mounts : List StorageTopologyMount) (user : UInt32) : Option StorageTopologyMount :=
  mounts.find? fun mount => mount.userId == user

def addAlias (mount : StorageTopologyMount) (mountId : Nat) (path : Bytes) : StorageTopologyMount :=
  if mount.aliases.contains ⟨mountId, path⟩ then mount
  else { mount with aliases := mount.aliases ++ [⟨mountId, path⟩] }

/-- `AddAlias` on the mount that `FindUserMount` finds. -/
def addUserAlias (user : UInt32) (mountId : Nat) (path : Bytes) : List StorageTopologyMount → List StorageTopologyMount
  | [] => []
  | mount :: mounts =>
      if mount.userId == user then addAlias mount mountId path :: mounts
      else mount :: addUserAlias user mountId path mounts

/-! ## ParseMountInfo -/

/-- A row that is mounted at a user's own directory. -/
def addPrimary (topology : StorageTopology) (record : MountRecord) : Except StorageTopology StorageTopology :=
  match parsePrimaryRoot record.mountpoint with
  | none => .ok topology
  | some user =>
      match deriveBackendRoot record.source user with
      | none => .ok topology
      | some backendRoot =>
          match findUserMount topology.mounts user with
          | some existing =>
              if existing.mountId ≠ record.mountId || existing.backendRoot ≠ backendRoot then
                unsupported topology (ascii "conflicting storage roots for user " ++ decimalBytes user.toNat)
              else .ok topology
          | none => .ok { topology with mounts := topology.mounts ++ [
              { userId := user, mountId := record.mountId, visibleRoot := record.mountpoint, backendRoot := backendRoot,
                filesystemType := record.filesystemType, aliases := [] }] }

/-- The row of the aggregate mount, the last one of the same mount id. -/
def addAggregate (topology : StorageTopology) (aggregate : Option MountRecord) (record : MountRecord) :
    Except StorageTopology (Option MountRecord) :=
  if record.mountpoint ≠ ascii "/storage/emulated" then .ok aggregate
  else if aggregate.any fun visible => visible.mountId ≠ record.mountId then
    unsupported topology (ascii "conflicting aggregate storage roots")
  else .ok (some record)

/-- `unordered_map::emplace`: what is there stays. -/
def emplace {α : Type} (entries : List (UInt32 × α)) (key : UInt32) (value : α) : List (UInt32 × α) :=
  if (entries.lookup key).isSome then entries else entries ++ [(key, value)]

structure UserEvidence where
  visibleAliases : List (UInt32 × MountRecord) := []
  backendEvidence : List (UInt32 × Bytes) := []

def addEvidence (records : List MountRecord) (evidence : UserEvidence) (record : MountRecord) : UserEvidence :=
  let evidence :=
    match parseUserMountpoint record.mountpoint (ascii "/mnt/user/") (ascii "/emulated") with
    | none => evidence
    | some user => { evidence with visibleAliases := emplace evidence.visibleAliases user record }
  match parseUserMountpoint record.mountpoint (ascii "/mnt/pass_through/") (ascii "/emulated") with
  | none => evidence
  | some user =>
      match derivePassThroughBackendRoot record records user with
      | none => evidence
      | some backendRoot => { evidence with backendEvidence := emplace evidence.backendEvidence user backendRoot }

/-- The order in which a hash map goes through its entries: nothing is known of it. -/
structure HashOrder where
  iterate : List (UInt32 × MountRecord) → List (UInt32 × MountRecord)
  perm : ∀ entries, (iterate entries).Perm entries

/-- A user that is seen below `/mnt/user`. -/
def addUser (aggregate : Option MountRecord) (backendEvidence : List (UInt32 × Bytes)) (topology : StorageTopology)
    (item : UInt32 × MountRecord) : Except StorageTopology StorageTopology :=
  match findUserMount topology.mounts item.1 with
  | some _ =>
      .ok { topology with mounts := addUserAlias item.1 item.2.mountId item.2.mountpoint topology.mounts }
  | none =>
      match aggregate with
      | none => unsupported topology (ascii "missing aggregate visible storage root")
      | some visible =>
          match backendEvidence.lookup item.1 with
          | none => unsupported topology (ascii "missing backend evidence for user " ++ decimalBytes item.1.toNat)
          | some backendRoot =>
              let mount : StorageTopologyMount :=
                { userId := item.1, mountId := visible.mountId,
                  visibleRoot := ascii "/storage/emulated/" ++ decimalBytes item.1.toNat, backendRoot := backendRoot,
                  filesystemType := visible.filesystemType, aliases := [] }
              .ok { topology with
                mounts := addUserAlias item.1 item.2.mountId item.2.mountpoint (topology.mounts ++ [mount]) }

/-- The other names of the first user's storage. -/
def addPrimaryAlias (mounts : List StorageTopologyMount) (record : MountRecord) : List StorageTopologyMount :=
  if record.mountpoint = ascii "/sdcard" || record.mountpoint = ascii "/storage/self/primary" then
    mounts.map fun mount => if mount.userId == 0 then addAlias mount record.mountId record.mountpoint else mount
  else mounts

def isLineEnd (byte : UInt8) : Bool := byte == 0x0a

def parseMountInfo (order : HashOrder) (mountinfo : Bytes) : Except StorageTopology StorageTopology := do
  let records ← readRecords 1 (mountinfo.splitOnP isLineEnd) []
  let topology ← records.foldlM addPrimary {}
  let aggregate ← records.foldlM (addAggregate topology) none
  let evidence := records.foldl (addEvidence records) {}
  let topology ← (order.iterate evidence.visibleAliases).foldlM (addUser aggregate evidence.backendEvidence) topology
  let mounts := records.foldl addPrimaryAlias topology.mounts
  let topology := { topology with mounts := sortOn (fun mount => mount.userId.toNat) mounts }
  if topology.mounts.isEmpty then unsupported topology (ascii "no supported emulated storage root found")
  else return { topology with supported := true, unsupportedReason := [] }

/-! ## Resolving -/

/-- The components of a logical path, as the loop of `IsSafeLogicalPath` finds them. -/
def isSafeComponent (component : Bytes) : Bool :=
  !component.isEmpty && component ≠ ascii "." && component ≠ ascii ".." && !component.contains 0x5c &&
    !component.contains openBrace && !component.contains closeBrace

def isSafeLogicalPath (path : Bytes) : Bool :=
  if path.isEmpty then true
  else if path.head? = some slash || path.getLast? = some slash then false
  else (path.splitOn slash).all isSafeComponent

def resolvePath (topology : StorageTopology) (user : UInt32) (logicalPath : Bytes) (backend : Bool) :
    Except Bytes Bytes :=
  if !topology.supported then
    .error (if topology.unsupportedReason.isEmpty then ascii "storage topology is unsupported"
      else topology.unsupportedReason)
  else if !isSafeLogicalPath logicalPath then .error (ascii "invalid logical storage path")
  else
    match findUserMount topology.mounts user with
    | none => .error (ascii "storage user is not mounted")
    | some mount =>
        let root := if backend then mount.backendRoot else mount.visibleRoot
        .ok (if logicalPath.isEmpty then root else root ++ slash :: logicalPath)

def resolveVisibleStoragePath (topology : StorageTopology) (user : UInt32) (logicalPath : Bytes) : Except Bytes Bytes :=
  resolvePath topology user logicalPath false

def resolveBackendStoragePath (topology : StorageTopology) (user : UInt32) (logicalPath : Bytes) : Except Bytes Bytes :=
  resolvePath topology user logicalPath true

end PathGuard.Topology
