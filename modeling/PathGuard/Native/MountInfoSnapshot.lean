import PathGuard.Core.Validation
import PathGuard.Lib.Fields
import PathGuard.Lib.Octal

/-!
# The snapshot of the mount table

`native/mount_info_snapshot.cpp`: the text of `/proc/self/mountinfo` is taken apart in place. `NextToken` ends every
token with a terminator that it writes over the space behind it, and an entry keeps where in the text its tokens are.
`text` is the whole buffer with its terminator, which stands at `text_size`.
-/

namespace PathGuard.Native

def kMaxMountInfoEntries : Nat := 4096

/-- `sizeof(MountPathIdentity::filesystem)`. -/
def kFilesystemSize : Nat := 64

/-- The errors of the native functions. -/
inductive Errno
  | EBADMSG
  | EOVERFLOW
  | ENODATA
  | EINVAL
  | ENOENT
  | EXDEV
  | ENAMETOOLONG
  | ESTALE
  deriving DecidableEq

/-- A `dev_t`, by the two numbers that `makedev` packs into it. -/
structure Device where
  major : UInt32
  minor : UInt32
  deriving DecidableEq

/-- The bits of `MountPropagationFlag`. -/
structure MountPropagation where
  shared : Bool := false
  master : Bool := false
  unbindable : Bool := false
  deriving DecidableEq

structure MountInfoSnapshotEntry where
  mountId : Nat
  parentMountId : Nat
  device : Device
  rootOffset : Nat
  rootLength : Nat
  mountpointOffset : Nat
  mountpointLength : Nat
  filesystemOffset : Nat
  filesystemLength : Nat
  propagation : MountPropagation
  deriving DecidableEq

structure MountInfoSnapshot where
  text : Bytes
  entries : List MountInfoSnapshotEntry
  deriving DecidableEq

structure MountPathIdentity where
  mountId : Nat
  parentMountId : Nat
  device : Device
  root : Bytes
  mountpoint : Bytes
  filesystem : Bytes
  deriving DecidableEq

/-! ## Numbers -/

/-- `strtoull` in base 10 and, where a `long` has 64 bits, `strtoul`: the value and what comes after it, if there is a
number and it is in range. A minus sign negates the value as an unsigned number. -/
def strtoull (text : Bytes) : Option (Nat × Bytes) :=
  let text := text.dropWhile isWhitespace
  let negative := text.head? = some 0x2d
  let text := if negative || text.head? = some 0x2b then text.tail else text
  let digits := text.takeWhile isDigit
  if digits.isEmpty || 2 ^ 64 ≤ decimalValue digits then none
  else some (if negative then (2 ^ 64 - decimalValue digits) % 2 ^ 64 else decimalValue digits, text.dropWhile isDigit)

def parseUnsigned (text : Bytes) : Option Nat :=
  match strtoull text with
  | some (value, []) => some value
  | _ => none

def parseDevice (text : Bytes) : Option Device := do
  let (major, rest) ← strtoull text
  match rest with
  | [] => none
  | byte :: minorText =>
      if byte ≠ 0x3a then none
      else
        let minor ← parseUnsigned minorText
        return ⟨UInt32.ofNat major, UInt32.ofNat minor⟩

/-! ## Tokens -/

def isBlank (byte : UInt8) : Bool := byte == 0x20
def isNewline (byte : UInt8) : Bool := byte == 0x0a

/-- `text` from `first` to `last`. -/
def slice (text : Bytes) (first last : Nat) : Bytes := (text.take last).drop first

/-- The C string at an offset. -/
def stringAt (text : Bytes) (offset : Nat) : Bytes := (text.drop offset).takeWhile (· ≠ 0)

/-- `NextToken`: where the token is, the text with the terminator behind the token, and the cursor behind that. -/
def nextToken (lineEnd : Nat) (text : Bytes) (cursor : Nat) : Option Nat × Bytes × Nat :=
  let token := cursor + ((slice text cursor lineEnd).takeWhile isBlank).length
  if lineEnd ≤ token then (none, text, lineEnd)
  else
    let current := token + ((slice text token lineEnd).takeWhile fun byte => !isBlank byte).length
    if current < lineEnd then (some token, text.set current 0, current + 1) else (some token, text, current)

/-- Calls of `NextToken` one after the other. -/
def nextTokens (lineEnd : Nat) : Nat → Bytes → Nat → List (Option Nat) × Bytes × Nat
  | 0, text, cursor => ([], text, cursor)
  | count + 1, text, cursor =>
      let (token, text, cursor) := nextToken lineEnd text cursor
      let (tokens, text, cursor) := nextTokens lineEnd count text cursor
      (token :: tokens, text, cursor)

/-- What the value of an escape is: an `unsigned char` other than zero. -/
def acceptByte (value : Nat) : Option UInt8 := if UInt8.ofNat value = 0 then none else some (UInt8.ofNat value)

def decodeToken (token : Bytes) (capacity : Nat) : Option Bytes :=
  (Octal.decode acceptByte token).filter fun output => output.length < capacity

/-! ## ParseSnapshot -/

/-- What an optional field adds to the propagation. -/
def addPropagation (propagation : MountPropagation) (optional : Bytes) : MountPropagation :=
  if (ascii "shared:").isPrefixOf optional then { propagation with shared := true }
  else if (ascii "master:").isPrefixOf optional then { propagation with master := true }
  else if optional = ascii "unbindable" then { propagation with unbindable := true }
  else propagation

/-- The loop over the optional fields, up to the separator. -/
def skipOptional (lineEnd : Nat) : Nat → Bytes → Nat → MountPropagation → Option (MountPropagation × Bytes × Nat)
  | 0, _, _, _ => none
  | fuel + 1, text, cursor, propagation =>
      match nextToken lineEnd text cursor with
      | (none, _, _) => none
      | (some optional, text, cursor) =>
          if stringAt text optional = ascii "-" then some (propagation, text, cursor)
          else skipOptional lineEnd fuel text cursor (addPropagation propagation (stringAt text optional))

/-- The checks of an entry, and the numbers in it. -/
def checkEntry (mountIdText parentIdText deviceText rootText mountpointText filesystemText : Bytes) :
    Option (Nat × Nat × Device) := do
  let mountId ← parseUnsigned mountIdText
  let parentMountId ← parseUnsigned parentIdText
  if mountId = 0 || parentMountId = 0 then none
  else
    let device ← parseDevice deviceText
    let _ ← decodeToken rootText PATH_MAX
    let _ ← decodeToken mountpointText PATH_MAX
    if filesystemText.isEmpty || kFilesystemSize ≤ filesystemText.length then none
    else return (mountId, parentMountId, device)

/-- One line of `ParseSnapshot`. -/
def parseEntry (text : Bytes) (line lineEnd : Nat) : Except Errno (MountInfoSnapshotEntry × Bytes) :=
  match nextTokens lineEnd 6 text line with
  | ([some mountIdText, some parentIdText, some deviceText, some rootText, some mountpointText, some _], text,
      cursor) =>
      match skipOptional lineEnd (lineEnd + 1) text cursor {} with
      | none => .error .EBADMSG
      | some (propagation, text, cursor) =>
          match nextTokens lineEnd 3 text cursor with
          | ([some filesystemText, some _, some _], text, _) =>
              match checkEntry (stringAt text mountIdText) (stringAt text parentIdText) (stringAt text deviceText)
                  (stringAt text rootText) (stringAt text mountpointText) (stringAt text filesystemText) with
              | none => .error .EBADMSG
              | some (mountId, parentMountId, device) => .ok ({
                  mountId := mountId
                  parentMountId := parentMountId
                  device := device
                  rootOffset := rootText
                  rootLength := (stringAt text rootText).length
                  mountpointOffset := mountpointText
                  mountpointLength := (stringAt text mountpointText).length
                  filesystemOffset := filesystemText
                  filesystemLength := (stringAt text filesystemText).length
                  propagation := propagation }, text)
          | _ => .error .EBADMSG
  | _ => .error .EBADMSG

/-- The loop of `ParseSnapshot`. Every round gets past a byte of the text. -/
def parseLines (textEnd : Nat) : Nat → Bytes → Nat → List MountInfoSnapshotEntry →
    Except Errno (List MountInfoSnapshotEntry × Bytes)
  | 0, text, _, entries => .ok (entries, text)
  | fuel + 1, text, cursor, entries =>
      if textEnd ≤ cursor then .ok (entries, text)
      else
        let lineEnd := cursor + ((slice text cursor textEnd).takeWhile fun byte => !isNewline byte).length
        let next := if lineEnd < textEnd then lineEnd + 1 else textEnd
        if cursor = lineEnd then parseLines textEnd fuel text next entries
        else if kMaxMountInfoEntries ≤ entries.length then .error .EOVERFLOW
        else
          let text := if lineEnd < textEnd then text.set lineEnd 0 else text
          match parseEntry text cursor lineEnd with
          | .error error => .error error
          | .ok (entry, text) => parseLines textEnd fuel text next (entries ++ [entry])

/-- `ParseSnapshot` of a text that `CaptureMountInfoSnapshot` has read and terminated. -/
def parseSnapshot (text : Bytes) : Except Errno MountInfoSnapshot :=
  match parseLines text.length text.length (text ++ [0]) 0 [] with
  | .error error => .error error
  | .ok (entries, text) => if entries.isEmpty then .error .ENODATA else .ok { text := text, entries := entries }

/-! ## FindMountInfoPath -/

def isPathOnMount (path mountpoint : Bytes) : Bool :=
  path.head? = some slash &&
    (mountpoint == [slash] ||
      mountpoint.isPrefixOf path &&
        ((path.drop mountpoint.length).isEmpty || (path.drop mountpoint.length).head? = some slash))

/-- The bytes that an entry points to. -/
def tokenOf (text : Bytes) (offset length : Nat) : Bytes := slice text offset (offset + length)

/-- The loop of `FindEntry`: the entry that is kept, with the length of its mount point. -/
def findEntry (text path : Bytes) (exactMountpoint : Bool) :
    List MountInfoSnapshotEntry → Option (MountInfoSnapshotEntry × Nat) →
      Except Errno (Option (MountInfoSnapshotEntry × Nat))
  | [], selected => .ok selected
  | entry :: entries, selected =>
      match decodeToken (tokenOf text entry.mountpointOffset entry.mountpointLength) PATH_MAX with
      | none => .error .EBADMSG
      | some mountpoint =>
          let matches_ := if exactMountpoint then mountpoint == path else isPathOnMount path mountpoint
          if !matches_ || !exactMountpoint && (selected.any fun best => mountpoint.length < best.2) then
            findEntry text path exactMountpoint entries selected
          else findEntry text path exactMountpoint entries (some (entry, mountpoint.length))

def findMountInfoPath (snapshot : MountInfoSnapshot) (path : Bytes) (exactMountpoint : Bool) :
    Except Errno MountPathIdentity :=
  if path.head? ≠ some slash then .error .EINVAL
  else
    match findEntry snapshot.text path exactMountpoint snapshot.entries none with
    | .error error => .error error
    | .ok none => .error .ENOENT
    | .ok (some (entry, _)) =>
        match decodeToken (tokenOf snapshot.text entry.rootOffset entry.rootLength) PATH_MAX,
            decodeToken (tokenOf snapshot.text entry.mountpointOffset entry.mountpointLength) PATH_MAX with
        | some root, some mountpoint =>
            if kFilesystemSize ≤ entry.filesystemLength then .error .EBADMSG
            else .ok {
              mountId := entry.mountId
              parentMountId := entry.parentMountId
              device := entry.device
              root := root
              mountpoint := mountpoint
              filesystem := tokenOf snapshot.text entry.filesystemOffset entry.filesystemLength }
        | _, _ => .error .EBADMSG

end PathGuard.Native
