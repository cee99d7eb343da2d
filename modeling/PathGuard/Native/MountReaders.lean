import Mathlib.Data.List.GetD
import PathGuard.Core.TopologySpec
import PathGuard.Native.MountInfoText

/-!
# Two readers of the mount table

The daemon takes its topology from rows that `ParseMountInfo` reads, and a mount is checked against rows that
`ParseSnapshot` reads of the same table. The first splits a line at every space that `isspace` knows, the second at
blanks only, as the kernel writes them. So the two see different rows where a path has another kind of space in it.

* `ReadersAgree` : both readers see the same mounts;
* `StrayDash`, `CleanLine` : what in a line keeps them apart;
* `readersAgree_iff` : where they agree;
* `not_readersAgree_verticalTab` : a mount point with a vertical tab.
-/

namespace PathGuard.Native

open PathGuard.Topology (MountRecord readRecords readRecord tokensOf isLineEnd decodeMountInfoPath acceptSevenBits)

/-- What is read of a mount. -/
structure SeenMount where
  mountId : Nat
  device : Option (Nat × Nat)
  filesystem : Bytes
  root : Option Bytes
  mountpoint : Option Bytes
  deriving DecidableEq

def deviceNumbers (deviceId : Bytes) : Option (Nat × Nat) :=
  match deviceId.splitOn Topology.colon with
  | [major, minor] => (Topology.parseUnsigned major).bind fun major =>
      (Topology.parseUnsigned minor).map fun minor => (major, minor)
  | _ => none

def recordSeen (record : MountRecord) : SeenMount where
  mountId := record.mountId
  device := deviceNumbers record.deviceId
  filesystem := record.filesystemType
  root := some record.root
  mountpoint := some record.mountpoint

def MountInfoRow.seen (row : MountInfoRow) : SeenMount where
  mountId := row.mountId
  device := some (row.device.major.toNat, row.device.minor.toNat)
  filesystem := row.filesystem
  root := decodeToken row.rootText PATH_MAX
  mountpoint := decodeToken row.mountpointText PATH_MAX

/-- When both readers accept the text, they see the same mounts. -/
def ReadersAgree (text : Bytes) : Prop :=
  ∀ records snapshot, readRecords 1 (text.splitOnP isLineEnd) [] = .ok records → parseSnapshot text = .ok snapshot →
    records.map recordSeen = snapshot.rows.map MountInfoRow.seen

/-! ## Line by line -/

/-- What is behind the first dash. -/
def afterSeparator (tokens : List Bytes) : Option Bytes := (tokens.drop (tokens.idxOf (ascii "-") + 1)).head?

def topologyLine (line : Bytes) : Option MountRecord :=
  let tokens := tokensOf line
  let separator := tokens.idxOf (ascii "-")
  if tokens.length < 7 || separator < 6 || tokens.length ≤ separator + 2 then none
  else readRecord tokens (tokens.drop (separator + 1))

theorem readRecords_ok {lineNumber : Nat} {lines : List Bytes} {records out : List MountRecord}
    (h : readRecords lineNumber lines records = .ok out) :
    out.map some = records.map some ++ (lines.filter fun line => !line.isEmpty).map topologyLine := by
  induction lines generalizing lineNumber records with
  | nil => rw [← Except.ok.inj h, List.filter_nil, List.map_nil, List.append_nil]
  | cons line lines ih =>
      rw [readRecords] at h
      split at h
      · next hempty => rw [ih h, List.filter_cons_of_neg (by simpa using hempty)]
      · next hne =>
        dsimp only at h
        split at h
        · cases h
        · next hform =>
          split at h
          · cases h
          · next record hrecord =>
            have hline : topologyLine line = some record := by rw [topologyLine, if_neg hform, hrecord]
            rw [ih h, List.filter_cons_of_pos (by simpa using hne), List.map_cons, hline, List.map_append,
              List.append_assoc]
            rfl

theorem seen_of_accepted {text : Bytes} {records : List MountRecord} {snapshot : MountInfoSnapshot}
    (hrecords : readRecords 1 (text.splitOnP isLineEnd) [] = .ok records) (hsnapshot : parseSnapshot text = .ok snapshot) :
    records.map some = (fields isNewline text).map topologyLine ∧
      snapshot.rows.map some = (fields isNewline text).map readLine := by
  constructor
  · rw [readRecords_ok hrecords]
    rfl
  · have hread : (parseSnapshot text).map MountInfoSnapshot.rows = readSnapshot text := parseSnapshot_rows text
    rw [hsnapshot, readSnapshot] at hread
    split at hread
    · cases hread
    · next rows hrows =>
      split at hread
      · cases hread
      · rw [show snapshot.rows = rows from Except.ok.inj hread, readLines_ok hrows]
        rfl

theorem map_eq_map_iff_of_read {α β γ δ : Type} {lines : List α} {read : α → Option β} {read' : α → Option γ}
    {records : List β} {rows : List γ} (seen : β → δ) (seen' : γ → δ) (hrecords : records.map some = lines.map read)
    (hrows : rows.map some = lines.map read') :
    records.map seen = rows.map seen' ↔ ∀ line ∈ lines, ∀ record row, read line = some record →
      read' line = some row → seen record = seen' row := by
  induction lines generalizing records rows with
  | nil =>
      rw [List.map_nil, List.map_eq_nil_iff] at hrecords hrows
      rw [hrecords, hrows]
      simp
  | cons line lines ih =>
      rw [List.map_cons, List.map_eq_cons_iff] at hrecords hrows
      obtain ⟨record, records, rfl, hrecord, hrecords⟩ := hrecords
      obtain ⟨row, rows, rfl, hrow, hrows⟩ := hrows
      rw [List.map_cons, List.map_cons, List.cons_eq_cons, ih hrecords hrows, List.forall_mem_cons, ← hrecord, ← hrow]
      simp

theorem readersAgree_iff_forall {text : Bytes} {records : List MountRecord} {snapshot : MountInfoSnapshot}
    (hrecords : readRecords 1 (text.splitOnP isLineEnd) [] = .ok records) (hsnapshot : parseSnapshot text = .ok snapshot) :
    ReadersAgree text ↔ ∀ line ∈ fields isNewline text, ∀ record row, topologyLine line = some record →
      readLine line = some row → recordSeen record = row.seen := by
  obtain ⟨hread, hread'⟩ := seen_of_accepted hrecords hsnapshot
  rw [← map_eq_map_iff_of_read recordSeen MountInfoRow.seen hread hread']
  refine ⟨fun h => h records snapshot hrecords hsnapshot, fun h records' snapshot' hrecords' hsnapshot' => ?_⟩
  rw [hrecords] at hrecords'
  rw [hsnapshot] at hsnapshot'
  rwa [← Except.ok.inj hrecords', ← Except.ok.inj hsnapshot']

/-! ## The parts of a line -/

section Line
variable {line : Bytes} {record : MountRecord} {row : MountInfoRow}

/-- What `ParseMountInfo` takes from the tokens of a line. -/
structure TopologyParts (tokens : List Bytes) (record : MountRecord) (id parent device root mountpoint : Bytes)
    (others : List Bytes) : Prop where
  tokens_eq : tokens = id :: parent :: device :: root :: mountpoint :: others
  mountId : Topology.parseUnsigned id = some record.mountId
  deviceId : record.deviceId = device
  isDeviceId : Topology.isDeviceId device = true
  root : decodeMountInfoPath root = some record.root
  mountpoint : decodeMountInfoPath mountpoint = some record.mountpoint
  absolute : record.mountpoint.head? = some slash
  separator : 6 ≤ tokens.idxOf (ascii "-")
  filesystem : afterSeparator tokens = some record.filesystemType

theorem topologyLine_some (h : topologyLine line = some record) :
    ∃ id parent device root mountpoint others,
      TopologyParts (tokensOf line) record id parent device root mountpoint others := by
  rw [topologyLine, Option.ite_none_left_eq_some] at h
  obtain ⟨hform, h⟩ := h
  have hseparator : 6 ≤ (tokensOf line).idxOf (ascii "-") := by
    simp only [Bool.or_eq_true, decide_eq_true_eq, not_or, Nat.not_lt, Nat.not_le] at hform
    exact hform.1.2
  unfold readRecord at h
  split at h
  · next id parent device root mountpoint others filesystem source rest htokens hrest =>
    simp only [Option.bind_eq_bind, Option.bind_eq_some_iff, Option.ite_none_right_eq_some, Option.pure_def,
      Option.some.injEq] at h
    obtain ⟨mountId, hid, hdevice, root', hroot, mountpoint', hmountpoint, source', -, habsolute, rfl⟩ := h
    refine ⟨id, parent, device, root, mountpoint, others, htokens, hid, rfl, hdevice, hroot, hmountpoint, habsolute,
      hseparator, ?_⟩
    rw [afterSeparator, hrest]
    rfl
  · cases h

/-- What `ParseSnapshot` takes from the fields of a line. -/
structure SnapshotParts (spaced : List Bytes) (row : MountInfoRow) (id parent device root mountpoint : Bytes)
    (others : List Bytes) : Prop where
  spaced_eq : spaced = id :: parent :: device :: root :: mountpoint :: others
  mountId : parseUnsigned (cString id) = some row.mountId
  parent : ∃ value, parseUnsigned (cString parent) = some value
  device : parseDevice (cString device) = some row.device
  rootText : row.rootText = cString root
  mountpointText : row.mountpointText = cString mountpoint
  root : ∃ output, decodeToken (cString root) PATH_MAX = some output
  mountpoint : ∃ output, decodeToken (cString mountpoint) PATH_MAX = some output
  filesystem : afterSeparator ((spaced.map cString).drop 6) = some row.filesystem

theorem afterSeparator_of_splitSeparator {tokens before : List Bytes} {filesystem : Bytes} {after : List Bytes}
    (h : splitSeparator tokens = some (before, filesystem :: after)) : afterSeparator tokens = some filesystem := by
  induction tokens generalizing before with
  | nil => cases h
  | cons field tokens ih =>
      rw [splitSeparator] at h
      split at h
      · next hfield =>
        subst hfield
        rw [Option.some.injEq, Prod.mk.injEq] at h
        rw [afterSeparator, List.idxOf_cons_self, h.2]
        rfl
      · next hfield =>
        simp only [Option.map_eq_some_iff, Prod.mk.injEq, Prod.exists] at h
        obtain ⟨before', after', hsplit, -, rfl⟩ := h
        rw [afterSeparator, List.idxOf_cons_ne _ hfield, List.drop_succ_cons]
        exact ih hsplit

theorem readLine_some (h : readLine line = some row) :
    ∃ id parent device root mountpoint others,
      SnapshotParts (fields isBlank line) row id parent device root mountpoint others := by
  rw [readLine] at h
  unfold readFields at h
  split at h
  · next id' parent' device' root' mountpoint' options' rest hfields =>
    simp only [List.map_eq_cons_iff] at hfields
    obtain ⟨id, _, hspaced, rfl, parent, _, rfl, rfl, device, _, rfl, rfl, root, _, rfl, rfl, mountpoint, _, rfl, rfl,
      options, others, rfl, rfl, rfl⟩ := hfields
    split at h
    · next hsplit =>
      simp only [Option.map_eq_some_iff, checkEntry, Option.bind_eq_bind, Option.bind_eq_some_iff,
        Option.ite_none_left_eq_some, Option.pure_def, Option.some.injEq, Prod.exists, Prod.mk.injEq] at h
      obtain ⟨_, _, _, ⟨mountId, hid, parentId, hparent, -, device'', hdevice, output, hroot, output', hmountpoint, -, rfl,
        rfl, rfl⟩, rfl⟩ := h
      refine ⟨id, parent, device, root, mountpoint, _, hspaced, hid, ⟨parentId, hparent⟩, hdevice, rfl, rfl, ⟨output, hroot⟩,
        ⟨output', hmountpoint⟩, ?_⟩
      rw [hspaced]
      exact afterSeparator_of_splitSeparator hsplit
    · cases h
  · cases h

end Line

/-! ## Fields and tokens -/

section Fields
variable {field token rest : Bytes} {others : List Bytes}

theorem isWhitespace_ne_zero {byte : UInt8} (h : isWhitespace byte = true) : byte ≠ 0 := by
  rintro rfl
  cases h

theorem isDigit_of_isWhitespace {byte : UInt8} (h : isWhitespace byte = true) : isDigit byte = false := by
  cases hdigit : isDigit byte with
  | false => rfl
  | true =>
      rw [(of_isDigit hdigit).1] at h
      cases h

theorem cString_append (h : 0 ∉ field) (rest : Bytes) : cString (field ++ rest) = field ++ cString rest := by
  rw [cString, List.takeWhile_append_of_pos fun byte hbyte => decide_eq_true (ne_of_mem_of_not_mem hbyte h)]
  rfl

theorem zero_notMem_cString (text : Bytes) : 0 ∉ cString text := fun h => by
  simpa using List.mem_takeWhile_imp h

/-- Behind a token there is nothing, or a byte that a string goes on with. -/
theorem head?_cString (h : ∀ byte ∈ rest.head?, isWhitespace byte = true) : (cString rest).head? = rest.head? := by
  cases rest with
  | nil => rfl
  | cons byte rest =>
      have hne : byte ≠ 0 := isWhitespace_ne_zero (h byte rfl)
      simp [cString, hne]

theorem eq_nil_of_cString_eq_nil (h : ∀ byte ∈ rest.head?, isWhitespace byte = true) (hnil : cString rest = []) :
    rest = [] := by
  have hhead := head?_cString h
  rw [hnil, List.head?_nil] at hhead
  exact List.head?_eq_none_iff.mp hhead.symm

theorem exists_token_of_strtoull {value : Nat × Bytes} (h : strtoull (cString field) = some value) :
    fields isWhitespace field ≠ [] := by
  intro hnil
  have hspace := forall_of_fields_eq_nil hnil
  have hstring : cString field = field :=
    cString_of_notMem fun hmem => isWhitespace_ne_zero (hspace 0 hmem) rfl
  have hdrop : field.dropWhile isWhitespace = [] := List.dropWhile_eq_nil_iff.mpr hspace
  rw [hstring, strtoull, hdrop] at h
  simp at h

theorem parseUnsigned_some {value : Nat} (h : Topology.parseUnsigned token = some value) :
    token ≠ [] ∧ (∀ byte ∈ token, isDigit byte = true) ∧ value < 2 ^ 64 ∧ decimalValue token = value := by
  rw [Topology.parseUnsigned, Option.ite_none_left_eq_some, Option.some.injEq] at h
  simp only [Bool.or_eq_true, List.isEmpty_iff, Bool.not_eq_true', decide_eq_true_eq, not_or, Nat.not_le,
    Bool.not_eq_false, List.all_eq_true] at h
  obtain ⟨⟨⟨hne, hdigits⟩, hvalue⟩, rfl⟩ := h
  exact ⟨hne, hdigits, hvalue, rfl⟩

theorem zero_notMem_of_isDigit {digits : Bytes} (h : ∀ byte ∈ digits, isDigit byte = true) : 0 ∉ digits :=
  fun hmem => absurd (h 0 hmem) (by decide)

theorem number_field {value value' : Nat} (hread : parseUnsigned (cString field) = some value) {more : List Bytes}
    (htokens : fields isWhitespace field ++ more = token :: others) (hnumber : Topology.parseUnsigned token = some value') :
    fields isWhitespace field = [token] ∧ value' = value := by
  obtain ⟨hne, hdigits, hbound, rfl⟩ := parseUnsigned_some hnumber
  have hstrtoull : ∃ number, strtoull (cString field) = some number := by
    rw [parseUnsigned] at hread
    split at hread
    · next number hnumber => exact ⟨_, hnumber⟩
    · cases hread
  obtain ⟨number, hstrtoull⟩ := hstrtoull
  obtain ⟨first, tokens, hfirst⟩ := List.exists_cons_of_ne_nil (exists_token_of_strtoull hstrtoull)
  rw [hfirst, List.cons_append, List.cons_eq_cons] at htokens
  obtain ⟨rfl, -⟩ := htokens
  obtain ⟨space, rest, hfield, hspace, hrest, htokens⟩ := exists_of_fields_eq_cons hfirst
  have hstring : cString field = space ++ (first ++ cString rest) := by
    rw [hfield, cString_append fun hmem => isWhitespace_ne_zero (hspace 0 hmem) rfl,
      cString_append (zero_notMem_of_isDigit hdigits)]
  have hbehind : ∀ byte ∈ (cString rest).head?, isDigit byte = false := by
    rw [head?_cString hrest]
    exact fun byte hbyte => isDigit_of_isWhitespace (hrest byte hbyte)
  rw [parseUnsigned, hstring, strtoull_digits hspace hne hdigits hbound hbehind] at hread
  cases hstop : cString rest with
  | nil =>
      rw [hstop] at hread
      rw [eq_nil_of_cString_eq_nil hrest hstop] at htokens
      rw [hfirst, htokens]
      exact ⟨rfl, Option.some.inj hread⟩
  | cons byte behind =>
      rw [hstop] at hread
      cases hread

theorem isDeviceId_some (h : Topology.isDeviceId token = true) :
    ∃ major minor numbers, token = major ++ Topology.colon :: minor ∧ deviceNumbers token = some numbers ∧
      Topology.parseUnsigned major = some numbers.1 ∧ Topology.parseUnsigned minor = some numbers.2 := by
  rw [Topology.isDeviceId] at h
  split at h
  · next major minor hsplit =>
    rw [Bool.and_eq_true, Option.isSome_iff_exists, Option.isSome_iff_exists] at h
    obtain ⟨⟨majorNumber, hmajor⟩, minorNumber, hminor⟩ := h
    refine ⟨major, minor, (majorNumber, minorNumber), ?_, ?_, hmajor, hminor⟩
    · have hjoin : [Topology.colon].intercalate (token.splitOn Topology.colon) = token := List.intercalate_splitOn _
      rw [hsplit] at hjoin
      rw [← hjoin]
      simp [List.intercalate]
    · rw [deviceNumbers, hsplit]
      simp [hmajor, hminor]
  · cases h

/-- The same for a field whose token is two numbers: the second reader keeps 32 bits of each. -/
theorem device_field {device : Device} (hread : parseDevice (cString field) = some device) {more : List Bytes}
    (htokens : fields isWhitespace field ++ more = token :: others) (hdevice : Topology.isDeviceId token = true) :
    fields isWhitespace field = [token] ∧ ∃ numbers, deviceNumbers token = some numbers ∧
      device = ⟨UInt32.ofNat numbers.1, UInt32.ofNat numbers.2⟩ := by
  obtain ⟨major, minor, numbers, rfl, hnumbers, hmajor, hminor⟩ := isDeviceId_some hdevice
  obtain ⟨hne, hdigits, hbound, hvalue⟩ := parseUnsigned_some hmajor
  obtain ⟨hne', hdigits', hbound', hvalue'⟩ := parseUnsigned_some hminor
  rw [parseDevice, Option.bind_eq_bind, Option.bind_eq_some_iff] at hread
  obtain ⟨number, hstrtoull, hread⟩ := hread
  obtain ⟨first, tokens, hfirst⟩ := List.exists_cons_of_ne_nil (exists_token_of_strtoull hstrtoull)
  rw [hfirst, List.cons_append, List.cons_eq_cons] at htokens
  obtain ⟨rfl, -⟩ := htokens
  obtain ⟨space, rest, hfield, hspace, hrest, htokens⟩ := exists_of_fields_eq_cons hfirst
  have htoken : 0 ∉ major ++ Topology.colon :: minor := by
    rw [List.mem_append, List.mem_cons, not_or, not_or]
    exact ⟨zero_notMem_of_isDigit hdigits, by decide, zero_notMem_of_isDigit hdigits'⟩
  have hstring : cString field = space ++ (major ++ (Topology.colon :: (minor ++ cString rest))) := by
    rw [hfield, cString_append fun hmem => isWhitespace_ne_zero (hspace 0 hmem) rfl, cString_append htoken,
      List.append_assoc, List.cons_append]
  have hcolon : ∀ byte ∈ (Topology.colon :: (minor ++ cString rest)).head?, isDigit byte = false := by
    intro byte hbyte
    obtain rfl : Topology.colon = byte := Option.some.inj hbyte
    rfl
  have hbehind : ∀ byte ∈ (cString rest).head?, isDigit byte = false := by
    rw [head?_cString hrest]
    exact fun byte hbyte => isDigit_of_isWhitespace (hrest byte hbyte)
  rw [hstring, strtoull_digits hspace hne hdigits (hvalue ▸ hbound) hcolon, Option.some.injEq] at hstrtoull
  subst hstrtoull
  have hminorRead : strtoull (minor ++ cString rest) = some (decimalValue minor, cString rest) :=
    @strtoull_digits [] minor _ (List.forall_mem_nil _) hne' hdigits' (hvalue' ▸ hbound') hbehind
  simp only [Topology.colon, ne_eq, not_true_eq_false, if_false, Option.bind_eq_bind, parseUnsigned, hminorRead,
    Option.pure_def] at hread
  cases hstop : cString rest with
  | nil =>
      rw [hstop, Option.bind_some, Option.some.injEq] at hread
      rw [eq_nil_of_cString_eq_nil hrest hstop] at htokens
      refine ⟨by rw [hfirst, htokens]; rfl, numbers, hnumbers, ?_⟩
      rw [← hread, hvalue, hvalue']
  | cons byte behind =>
      rw [hstop] at hread
      cases hread

/-! ## Paths -/

theorem acceptSevenBits_some {value : Nat} {byte : UInt8} (h : acceptSevenBits value = some byte) :
    byte ≠ 0 ∧ acceptByte value = some byte := by
  rw [acceptSevenBits, Option.ite_none_left_eq_some, Bool.or_eq_true, decide_eq_true_eq, decide_eq_true_eq, not_or,
    Option.some.injEq] at h
  obtain ⟨⟨hzero, hbound⟩, rfl⟩ := h
  have hvalue : (UInt8.ofNat value).toNat = value := UInt8.toNat_ofNat_of_lt' (show value < 256 by omega)
  have hne : UInt8.ofNat value ≠ 0 := by
    intro heq
    rw [heq] at hvalue
    exact hzero hvalue.symm
  exact ⟨hne, by rw [acceptByte, if_neg hne]⟩

theorem acceptByte_ne_zero (value : Nat) : acceptByte value ≠ some 0 := by
  rw [acceptByte, Ne, Option.ite_none_left_eq_some, Option.some.injEq]
  exact fun h => h.1 h.2

theorem reads_of_decodeToken {output : Bytes} {capacity : Nat} (h : decodeToken token capacity = some output) :
    Octal.Reads acceptByte token output := by
  rw [decodeToken, Option.filter_eq_some_iff] at h
  exact Octal.decode_iff.mp h.1

/-- A byte that no path name has: the readers treat it differently. -/
def isStray (byte : UInt8) : Bool := byte == 0 || isWhitespace byte

theorem not_isStray_iff {byte : UInt8} : isStray byte = false ↔ byte ≠ 0 ∧ isWhitespace byte = false := by
  rw [isStray, Bool.or_eq_false_iff, beq_eq_false_iff_ne]

theorem reads_space {space : Bytes} (h : ∀ byte ∈ space, isWhitespace byte = true) :
    Octal.Reads acceptByte space space := by
  refine Octal.decode_iff.mp (Octal.decode_of_notMem fun hmem => ?_)
  exact absurd (h _ hmem) (by decide)

/-- The first token of a path is the whole path for both readers only when nothing stray is in it. -/
theorem path_field {tokens : List Bytes} {output output' : Bytes}
    (hread : decodeToken (cString field) PATH_MAX = some output) (htokens : fields isWhitespace field = token :: tokens)
    (htoken : decodeMountInfoPath token = some output') :
    output' = output ↔ ∀ byte ∈ field, isStray byte = false := by
  have hreads := reads_of_decodeToken hread
  have hreads' := Octal.decode_iff.mp htoken
  have hmono : Octal.Reads acceptByte token output' := hreads'.mono fun _ _ h => (acceptSevenBits_some h).2
  constructor
  · rintro rfl
    have hzero : 0 ∉ token := by
      rw [← hreads'.mem_iff (by decide) (by decide) fun value h => (acceptSevenBits_some h).1 rfl,
        hreads.mem_iff (by decide) (by decide) acceptByte_ne_zero]
      exact zero_notMem_cString field
    obtain ⟨space, rest, hfield, hspace, hrest, -⟩ := exists_of_fields_eq_cons htokens
    have hstring : cString field = space ++ (token ++ cString rest) := by
      rw [hfield, cString_append fun hmem => isWhitespace_ne_zero (hspace 0 hmem) rfl, cString_append hzero]
    have hdecode := Octal.decode_iff.mpr hreads
    rw [hstring, (reads_space hspace).decode_append, hmono.decode_append, Option.map_map,
      Option.map_eq_some_iff] at hdecode
    obtain ⟨after, hafter, houtput⟩ := hdecode
    -- what is before the token and behind it adds to what is read
    have hlength := congrArg List.length houtput
    rw [Function.comp_apply, List.length_append, List.length_append] at hlength
    have hspaceNil : space = [] := List.length_eq_zero_iff.mp (by omega)
    have hafterNil : after = [] := List.length_eq_zero_iff.mp (by omega)
    rw [hafterNil] at hafter
    have hrestNil := eq_nil_of_cString_eq_nil hrest (Octal.decode_iff.mp hafter).eq_nil
    rw [hspaceNil, hrestNil, List.nil_append, List.append_nil] at hfield
    intro byte hbyte
    rw [hfield] at hbyte
    have hmem : token ∈ fields isWhitespace field := htokens ▸ List.mem_cons_self
    exact not_isStray_iff.mpr ⟨ne_of_mem_of_not_mem hbyte hzero, ((of_mem_fields hmem).2 byte hbyte).1⟩
  · intro hclean
    have hne : field ≠ [] := by
      rintro rfl
      cases htokens
    have hzero : 0 ∉ field := fun hmem => (not_isStray_iff.mp (hclean 0 hmem)).1 rfl
    rw [fields_of_forall hne fun byte hbyte => (not_isStray_iff.mp (hclean byte hbyte)).2, List.cons_eq_cons] at htokens
    obtain ⟨rfl, -⟩ := htokens
    rw [cString_of_notMem hzero] at hreads
    exact Option.some.inj ((Octal.decode_iff.mpr hmono).symm.trans (Octal.decode_iff.mpr hreads))

theorem head?_of_no_token {output : Bytes} (hread : decodeToken (cString field) PATH_MAX = some output)
    (htokens : fields isWhitespace field = []) : output.head? ≠ some slash := by
  have hspace := forall_of_fields_eq_nil htokens
  have hreads := reads_of_decodeToken hread
  rw [cString_of_notMem fun hmem => isWhitespace_ne_zero (hspace 0 hmem) rfl] at hreads
  have houtput : output = field :=
    Option.some.inj ((Octal.decode_iff.mpr hreads).symm.trans (Octal.decode_iff.mpr (reads_space hspace)))
  rw [houtput]
  exact fun hhead => absurd (hspace slash (List.mem_of_mem_head? hhead)) (by decide)

/-- When the second reader finds an absolute path in a field, the first token of the field is one too. -/
theorem head?_of_token {tokens : List Bytes} {output output' : Bytes}
    (hread : decodeToken (cString field) PATH_MAX = some output) (htokens : fields isWhitespace field = token :: tokens)
    (htoken : decodeMountInfoPath token = some output') (hhead : output.head? = some slash) :
    output'.head? = some slash := by
  obtain ⟨space, rest, rfl, hspace, -, -⟩ := exists_of_fields_eq_cons htokens
  have hdecode := Octal.decode_iff.mpr (reads_of_decodeToken hread)
  rw [cString_append fun hmem => isWhitespace_ne_zero (hspace 0 hmem) rfl, (reads_space hspace).decode_append,
    Option.map_eq_some_iff] at hdecode
  obtain ⟨output, hdecode, rfl⟩ := hdecode
  cases space with
  | cons byte space =>
      obtain rfl : byte = slash := by simpa using hhead
      exact absurd (hspace slash List.mem_cons_self) (by decide)
  | nil =>
      rw [List.nil_append] at hhead
      have hreads' := Octal.decode_iff.mp htoken
      cases hreads' with
      | nil => exact absurd rfl (of_mem_fields (htokens ▸ List.mem_cons_self)).1
      | @plain byte text output' hne _ =>
          have hzero : byte ≠ 0 := by
            rintro rfl
            rw [List.cons_append, cString, List.takeWhile_cons_of_neg (by simp)] at hdecode
            rw [← Option.some.inj hdecode] at hhead
            cases hhead
          have hstring : cString (byte :: text ++ rest) = byte :: cString (text ++ rest) := by simp [cString, hzero]
          rw [hstring, Octal.decode_cons hne, Option.map_eq_some_iff] at hdecode
          obtain ⟨_, -, rfl⟩ := hdecode
          exact hhead
      | @escaped first second third value text output' hdigits hvalue _ =>
          have hnonzero : ∀ digit, Octal.isOctalDigit digit = true → digit ≠ 0 := by
            rintro digit hdigit rfl
            cases hdigit
          have hmark : Octal.escapeMark ≠ 0 := by decide
          have hthree := hdigits
          rw [Bool.and_eq_true, Bool.and_eq_true] at hthree
          have hstring : cString (Octal.escapeMark :: first :: second :: third :: text ++ rest) =
              Octal.escapeMark :: first :: second :: third :: cString (text ++ rest) := by
            simp [cString, hmark, hnonzero first hthree.1.1, hnonzero second hthree.1.2, hnonzero third hthree.2]
          rw [hstring, Octal.decode_escaped hdigits, (acceptSevenBits_some hvalue).2, Option.bind_some,
            Option.map_eq_some_iff] at hdecode
          obtain ⟨_, -, rfl⟩ := hdecode
          exact hhead

theorem stray_of_no_token (hne : field ≠ []) (htokens : fields isWhitespace field = []) :
    ¬ ∀ byte ∈ field, isStray byte = false := by
  obtain ⟨byte, rest, rfl⟩ := List.exists_cons_of_ne_nil hne
  intro hclean
  have hspace := forall_of_fields_eq_nil htokens byte List.mem_cons_self
  rw [(not_isStray_iff.mp (hclean byte List.mem_cons_self)).2] at hspace
  cases hspace

/-- Two path fields in a row, where the first reader takes the next two tokens and asks for an absolute path in the
second one. -/
theorem paths_iff {field' root mountpoint output output' rootOutput mountpointOutput : Bytes} {others' : List Bytes}
    (hsplit : root :: mountpoint :: others = fields isWhitespace field ++ (fields isWhitespace field' ++ others'))
    (hne : field ≠ []) (hne' : field' ≠ []) (hread : decodeToken (cString field) PATH_MAX = some output)
    (hread' : decodeToken (cString field') PATH_MAX = some output') (hroot : decodeMountInfoPath root = some rootOutput)
    (hmountpoint : decodeMountInfoPath mountpoint = some mountpointOutput)
    (habsolute : mountpointOutput.head? = some slash) :
    rootOutput = output ∧ mountpointOutput = output' ↔
      (∀ byte ∈ field, isStray byte = false) ∧ ∀ byte ∈ field', isStray byte = false := by
  cases htokens : fields isWhitespace field with
  | nil =>
      refine ⟨?_, fun h => absurd h.1 (stray_of_no_token hne htokens)⟩
      rintro ⟨rfl, rfl⟩
      -- the first reader takes the root from the second field, where an absolute path is
      refine absurd ?_ (head?_of_no_token hread htokens)
      cases htokens' : fields isWhitespace field' with
      | nil => exact absurd habsolute (head?_of_no_token hread' htokens')
      | cons token tokens =>
          rw [htokens, htokens', List.nil_append, List.cons_append, List.cons_eq_cons] at hsplit
          exact head?_of_token hread' htokens' (hsplit.1 ▸ hroot) habsolute
  | cons token tokens =>
      rw [htokens, List.cons_append, List.cons_eq_cons] at hsplit
      rw [path_field hread htokens (hsplit.1 ▸ hroot)]
      refine and_congr_right fun hclean => ?_
      have hsingle := fields_of_forall hne fun byte hbyte => (not_isStray_iff.mp (hclean byte hbyte)).2
      rw [htokens, List.cons_eq_cons] at hsingle
      rw [hsingle.2, List.nil_append] at hsplit
      cases htokens' : fields isWhitespace field' with
      | nil =>
          refine iff_of_false ?_ (stray_of_no_token hne' htokens')
          rintro rfl
          exact head?_of_no_token hread' htokens' habsolute
      | cons token' tokens' =>
          rw [htokens', List.cons_append, List.cons_eq_cons] at hsplit
          exact path_field hread' htokens' (hsplit.2.1 ▸ hmountpoint)

end Fields

/-! ## Where the readers agree -/

def blankField (line : Bytes) (index : Nat) : Bytes := (fields isBlank line).getD index []

/-- The parent id, which only the second reader looks at, is one token for the first. Otherwise there is a terminator in
it, and what the first reader finds behind that is up to the text. -/
def OneParent (line : Bytes) : Prop := (fields isWhitespace (blankField line 1)).length = 1

/-- The optional fields, and what is behind them: the separator, the type of the file system and more. -/
def optionalFields (line : Bytes) : List Bytes :=
  ((fields isBlank line).drop 6).takeWhile fun field => cString field ≠ ascii "-"

def fieldsFromSeparator (line : Bytes) : List Bytes :=
  ((fields isBlank line).drop 6).dropWhile fun field => cString field ≠ ascii "-"

def separatorField (line : Bytes) : Bytes := (fieldsFromSeparator line).getD 0 []
def filesystemField (line : Bytes) : Bytes := (fieldsFromSeparator line).getD 1 []

/-- The first lone dash between spaces of any kind is not the separator: stray bytes set one apart in the options or in an
optional field, or the separator goes on behind a terminator. -/
def StrayDash (line : Bytes) : Prop :=
  ascii "-" ∈ (blankField line 5 :: optionalFields line).flatMap (fields isWhitespace) ∨ separatorField line ≠ ascii "-"

instance : DecidablePred StrayDash := fun _ => inferInstanceAs (Decidable (_ ∨ _))

/-- Nothing in a line that the readers treat differently. Behind a stray dash the same type has to stand by chance. -/
structure CleanLine (line : Bytes) : Prop where
  device : ∀ numbers, deviceNumbers ((tokensOf line).getD 2 []) = some numbers → numbers.1 < 2 ^ 32 ∧ numbers.2 < 2 ^ 32
  root : ∀ byte ∈ blankField line 3, isStray byte = false
  mountpoint : ∀ byte ∈ blankField line 4, isStray byte = false
  filesystem : ¬ StrayDash line → ∀ byte ∈ filesystemField line, isStray byte = false
  strayDash : StrayDash line → afterSeparator (tokensOf line) = some (cString (filesystemField line))

theorem device_eq_iff {numbers : Nat × Nat} :
    some numbers = some ((UInt32.ofNat numbers.1).toNat, (UInt32.ofNat numbers.2).toNat) ↔
      numbers.1 < 2 ^ 32 ∧ numbers.2 < 2 ^ 32 := by
  obtain ⟨major, minor⟩ := numbers
  have hfits : ∀ number : Nat, number = (UInt32.ofNat number).toNat ↔ number < 2 ^ 32 := by
    intro number
    rw [UInt32.toNat_ofNat', eq_comm]
    exact ⟨fun h => h ▸ Nat.mod_lt _ (by decide), Nat.mod_eq_of_lt⟩
  rw [Option.some.injEq, Prod.mk.injEq, hfits, hfits]

/-! ## The type of the file system -/

theorem afterSeparator_append {front : List Bytes} (h : ascii "-" ∉ front) (rest : List Bytes) :
    afterSeparator (front ++ ascii "-" :: rest) = rest.head? := by
  simp [afterSeparator, List.idxOf_append_of_notMem h]

theorem afterSeparator_of_notMem {tokens : List Bytes} (h : ascii "-" ∉ tokens) : afterSeparator tokens = none := by
  simp [afterSeparator, List.idxOf_eq_length h]

theorem optionalFields_append (line : Bytes) :
    optionalFields line ++ fieldsFromSeparator line = (fields isBlank line).drop 6 := List.takeWhile_append_dropWhile

theorem exists_separator {line filesystem : Bytes}
    (h : afterSeparator (((fields isBlank line).map cString).drop 6) = some filesystem) :
    ∃ others, fieldsFromSeparator line = separatorField line :: filesystemField line :: others ∧
      cString (filesystemField line) = filesystem := by
  have hoptional : ascii "-" ∉ (optionalFields line).map cString := by
    rw [List.mem_map]
    rintro ⟨field, hfield, hdash⟩
    have hne := List.all_eq_true.mp (List.all_takeWhile (p := fun field => decide (cString field ≠ ascii "-"))) field hfield
    exact of_decide_eq_true hne hdash
  rw [← List.map_drop, ← optionalFields_append, List.map_append] at h
  cases hfields : fieldsFromSeparator line with
  | nil =>
      rw [hfields, List.map_nil, List.append_nil, afterSeparator_of_notMem hoptional] at h
      cases h
  | cons separator rest =>
      have hdash : cString separator = ascii "-" := by
        have hhead := List.head?_dropWhile_not (fun field => cString field ≠ ascii "-") ((fields isBlank line).drop 6)
        rw [← fieldsFromSeparator, hfields] at hhead
        simpa using hhead
      rw [hfields, List.map_cons, hdash, afterSeparator_append hoptional, List.head?_map] at h
      cases rest with
      | nil => cases h
      | cons field others =>
          refine ⟨others, by rw [separatorField, filesystemField, hfields]; rfl, ?_⟩
          rw [filesystemField, hfields]
          exact Option.some.inj h

/-- The first token from a field on is what the second reader takes the field for only when nothing stray is in it. -/
theorem head?_tokens_iff {field : Bytes} {tokens : List Bytes} (hne : field ≠ [])
    (htokens : ∀ token ∈ tokens, ∀ byte ∈ token, isWhitespace byte = false) :
    (fields isWhitespace field ++ tokens).head? = some (cString field) ↔ ∀ byte ∈ field, isStray byte = false := by
  constructor
  · intro hhead
    cases hfields : fields isWhitespace field with
    | nil =>
        have hspace := forall_of_fields_eq_nil hfields
        have hstring : cString field = field := cString_of_notMem fun hmem => isWhitespace_ne_zero (hspace 0 hmem) rfl
        rw [hfields, hstring] at hhead
        obtain ⟨byte, rest, rfl⟩ := List.exists_cons_of_ne_nil hne
        have hplain := htokens _ (List.mem_of_mem_head? hhead) byte List.mem_cons_self
        rw [hspace byte List.mem_cons_self] at hplain
        cases hplain
    | cons token others =>
        have hmem : token ∈ fields isWhitespace field := hfields ▸ List.mem_cons_self
        obtain ⟨space, rest, hfield, hspace, hrest, -⟩ := exists_of_fields_eq_cons hfields
        rw [hfields] at hhead
        obtain rfl : token = cString field := Option.some.inj hhead
        have hplain := (of_mem_fields hmem).2
        have hzero : 0 ∉ cString field := zero_notMem_cString field
        have hstring : cString field = space ++ (cString field ++ cString rest) := by
          nth_rewrite 1 [hfield]
          rw [cString_append fun hmem => isWhitespace_ne_zero (hspace 0 hmem) rfl, cString_append hzero]
        -- what is before the token and behind it would be read too
        have hlength := congrArg List.length hstring
        rw [List.length_append, List.length_append] at hlength
        have hspaceNil : space = [] := List.length_eq_zero_iff.mp (by omega)
        have hrestNil := eq_nil_of_cString_eq_nil hrest (List.length_eq_zero_iff.mp (by omega))
        rw [hspaceNil, hrestNil, List.nil_append, List.append_nil] at hfield
        intro byte hbyte
        rw [hfield] at hbyte
        exact not_isStray_iff.mpr ⟨ne_of_mem_of_not_mem hbyte hzero, (hplain byte hbyte).1⟩
  · intro hclean
    have hzero : 0 ∉ field := fun hmem => (not_isStray_iff.mp (hclean 0 hmem)).1 rfl
    rw [fields_of_forall hne fun byte hbyte => (not_isStray_iff.mp (hclean byte hbyte)).2, cString_of_notMem hzero]
    rfl

/-- The first reader finds the type that the second one does only where no stray byte is in it, or behind a stray dash by
chance. -/
theorem filesystem_iff {line filesystem : Bytes} {front : List Bytes}
    (htokens : tokensOf line = front ++ ((fields isBlank line).drop 5).flatMap (fields isWhitespace))
    (hfront : ascii "-" ∉ front)
    (hread : afterSeparator (((fields isBlank line).map cString).drop 6) = some filesystem) :
    afterSeparator (tokensOf line) = some filesystem ↔
      (¬ StrayDash line → ∀ byte ∈ filesystemField line, isStray byte = false) ∧
        (StrayDash line → afterSeparator (tokensOf line) = some (cString (filesystemField line))) := by
  obtain ⟨others, hfields, rfl⟩ := exists_separator hread
  by_cases hstray : StrayDash line
  · simp [hstray]
  · simp only [hstray, not_false_eq_true, true_implies, false_implies, and_true]
    obtain ⟨hnone, hdash⟩ := not_or.mp hstray
    rw [not_not] at hdash
    have hdrop : (fields isBlank line).drop 5 =
        (blankField line 5 :: optionalFields line) ++ ascii "-" :: filesystemField line :: others := by
      have hsix : (fields isBlank line).drop 6 = optionalFields line ++ ascii "-" :: filesystemField line :: others := by
        rw [← optionalFields_append, hfields, hdash]
      have hlength := congrArg List.length hsix
      rw [List.length_drop, List.length_append, List.length_cons] at hlength
      have hfive : 5 < (fields isBlank line).length := by omega
      rw [List.drop_eq_getElem_cons hfive, hsix, blankField, List.getD_eq_getElem _ _ hfive, List.cons_append]
    have hmem : filesystemField line ∈ fields isBlank line := List.mem_of_mem_drop (by rw [hdrop]; simp)
    have hmarked : (ascii "-" :: filesystemField line :: others).flatMap (fields isWhitespace) =
        ascii "-" :: (fields isWhitespace (filesystemField line) ++ others.flatMap (fields isWhitespace)) := by
      rw [List.flatMap_cons, List.flatMap_cons, show fields isWhitespace (ascii "-") = [ascii "-"] by decide]
      exact List.singleton_append
    have hplain : ∀ token ∈ others.flatMap (fields isWhitespace), ∀ byte ∈ token, isWhitespace byte = false := by
      intro token htoken byte hbyte
      obtain ⟨field, -, htoken⟩ := List.mem_flatMap.mp htoken
      exact ((of_mem_fields htoken).2 byte hbyte).1
    rw [htokens, hdrop, List.flatMap_append, hmarked, ← List.append_assoc,
      afterSeparator_append (List.not_mem_append hfront hnone)]
    exact head?_tokens_iff (of_mem_fields hmem).1 hplain

section Agree
variable {line : Bytes} {record : MountRecord} {row : MountInfoRow}

theorem cleanLine_iff {id parent device root mountpoint id' parent' device' root' mountpoint' : Bytes}
    {others others' : List Bytes} {numbers : Nat × Nat}
    (htokens : tokensOf line = id :: parent :: device :: root :: mountpoint :: others)
    (hspaced : fields isBlank line = id' :: parent' :: device' :: root' :: mountpoint' :: others')
    (hnumbers : deviceNumbers device = some numbers) :
    CleanLine line ↔ (numbers.1 < 2 ^ 32 ∧ numbers.2 < 2 ^ 32) ∧
      ((∀ byte ∈ root', isStray byte = false) ∧ ∀ byte ∈ mountpoint', isStray byte = false) ∧
      (¬ StrayDash line → ∀ byte ∈ filesystemField line, isStray byte = false) ∧
        (StrayDash line → afterSeparator (tokensOf line) = some (cString (filesystemField line))) := by
  have hdevice : (tokensOf line).getD 2 [] = device := by
    rw [htokens]
    rfl
  have hfields : blankField line 3 = root' ∧ blankField line 4 = mountpoint' := by
    rw [blankField, blankField, hspaced]
    exact ⟨rfl, rfl⟩
  constructor
  · intro h
    exact ⟨h.device numbers (hdevice ▸ hnumbers), ⟨hfields.1 ▸ h.root, hfields.2 ▸ h.mountpoint⟩, h.filesystem, h.strayDash⟩
  · rintro ⟨hbound, hstray, hfilesystem, hdash⟩
    refine ⟨fun other hother => ?_, hfields.1 ▸ hstray.1, hfields.2 ▸ hstray.2, hfilesystem, hdash⟩
    rw [hdevice, hnumbers, Option.some.injEq] at hother
    exact hother ▸ hbound

theorem recordSeen_eq_iff (hrecord : topologyLine line = some record) (hrow : readLine line = some row)
    (hparent : OneParent line) : recordSeen record = row.seen ↔ CleanLine line := by
  obtain ⟨id, parent, device, root, mountpoint, others, hparts⟩ := topologyLine_some hrecord
  obtain ⟨id', parent', device', root', mountpoint', others', hparts'⟩ := readLine_some hrow
  obtain ⟨output, hroot⟩ := hparts'.root
  obtain ⟨output', hmountpoint⟩ := hparts'.mountpoint
  have hblank : ∀ byte, isBlank byte = true → isWhitespace byte = true := fun byte h => by
    rw [eq_of_beq h]
    rfl
  have hsplit : tokensOf line = (fields isBlank line).flatMap (fields isWhitespace) := fields_flatMap hblank line
  rw [OneParent, blankField, hparts'.spaced_eq, List.length_eq_one_iff] at hparent
  obtain ⟨only, hparent⟩ := hparent
  rw [hparts.tokens_eq, hparts'.spaced_eq, List.flatMap_cons] at hsplit
  obtain ⟨hid, hmountId⟩ := number_field hparts'.mountId hsplit.symm hparts.mountId
  rw [hid, List.flatMap_cons, show fields isWhitespace parent' = [only] from hparent, List.flatMap_cons] at hsplit
  simp only [List.singleton_append, List.cons.injEq] at hsplit
  obtain ⟨-, -, hsplit⟩ := hsplit
  obtain ⟨hdevice, numbers, hnumbers, hdeviceRow⟩ := device_field hparts'.device hsplit.symm hparts.isDeviceId
  rw [hdevice, List.flatMap_cons, List.flatMap_cons] at hsplit
  simp only [List.singleton_append, List.cons.injEq, true_and] at hsplit
  have hmem : root' ∈ fields isBlank line ∧ mountpoint' ∈ fields isBlank line := by
    rw [hparts'.spaced_eq]
    simp
  have hpaths := paths_iff hsplit (of_mem_fields hmem.1).1 (of_mem_fields hmem.2).1 hroot hmountpoint hparts.root
    hparts.mountpoint hparts.absolute
  have hfilesystem : ((∀ byte ∈ root', isStray byte = false) ∧ ∀ byte ∈ mountpoint', isStray byte = false) →
      (afterSeparator (tokensOf line) = some row.filesystem ↔
        (¬ StrayDash line → ∀ byte ∈ filesystemField line, isStray byte = false) ∧
          (StrayDash line → afterSeparator (tokensOf line) = some (cString (filesystemField line)))) := by
    rintro ⟨hcleanRoot, hcleanMountpoint⟩
    rw [fields_of_forall (of_mem_fields hmem.1).1 fun byte hbyte => (not_isStray_iff.mp (hcleanRoot byte hbyte)).2,
      fields_of_forall (of_mem_fields hmem.2).1 fun byte hbyte => (not_isStray_iff.mp (hcleanMountpoint byte hbyte)).2]
      at hsplit
    simp only [List.singleton_append, List.cons.injEq] at hsplit
    refine @filesystem_iff line _ [id, parent, device, root, mountpoint] ?_ (fun hdash => ?_) hparts'.filesystem
    · rw [hparts.tokens_eq, hparts'.spaced_eq, hsplit.2.2]
      rfl
    · have hseparator := hparts.separator
      have hfirst := List.idxOf_lt_length_iff.mpr hdash
      rw [hparts.tokens_eq, show id :: parent :: device :: root :: mountpoint :: others =
        [id, parent, device, root, mountpoint] ++ others from rfl, List.idxOf_append_of_mem hdash] at hseparator
      simp only [List.length_cons, List.length_nil] at hfirst
      omega
  rw [cleanLine_iff hparts.tokens_eq hparts'.spaced_eq hnumbers, ← and_congr_right hfilesystem, ← hpaths,
    hparts.filesystem, ← device_eq_iff, recordSeen, MountInfoRow.seen, SeenMount.mk.injEq, hparts.deviceId, hnumbers,
    hdeviceRow, hparts'.rootText, hparts'.mountpointText, hroot, hmountpoint]
  simp only [Option.some.injEq, hmountId, true_and]
  constructor
  · rintro ⟨hnumbers, hfilesystem, hpaths⟩
    exact ⟨hnumbers, hpaths, hfilesystem⟩
  · rintro ⟨hnumbers, hpaths, hfilesystem⟩
    exact ⟨hnumbers, hfilesystem, hpaths⟩

end Agree

theorem fields_of_parseUnsigned {field : Bytes} {value : Nat} (hread : parseUnsigned (cString field) = some value)
    (hzero : 0 ∉ field) : (fields isWhitespace field).length = 1 := by
  rw [cString_of_notMem hzero, parseUnsigned] at hread
  split at hread
  · next number hstrtoull =>
    rw [strtoull, Option.ite_none_left_eq_some, Option.some.injEq, Prod.mk.injEq, List.dropWhile_eq_nil_iff] at hstrtoull
    obtain ⟨hsome, -, hdigits⟩ := hstrtoull
    rw [Bool.or_eq_true, List.isEmpty_iff, not_or] at hsome
    rw [← fields_dropWhile, fields_of_forall]
    · rfl
    · intro hnil
      exact hsome.1 (by rw [hnil]; rfl)
    · intro byte hbyte
      by_cases hsign : (decide ((field.dropWhile isWhitespace).head? = some 0x2d) ||
          decide ((field.dropWhile isWhitespace).head? = some 0x2b)) = true
      · rw [if_pos hsign] at hdigits
        obtain ⟨first, rest, hfirst⟩ := List.exists_cons_of_ne_nil (List.ne_nil_of_mem hbyte)
        rw [hfirst, List.tail_cons] at hdigits
        rw [hfirst] at hbyte hsign
        rcases List.mem_cons.mp hbyte with rfl | hbyte
        · simp only [List.head?_cons, Option.some.injEq, Bool.or_eq_true, decide_eq_true_eq] at hsign
          rcases hsign with rfl | rfl <;> rfl
        · exact (of_isDigit (hdigits byte hbyte)).1
      · rw [if_neg hsign] at hdigits
        exact (of_isDigit (hdigits byte hbyte)).1
  · cases hread

theorem oneParent_of_noNul {line : Bytes} {row : MountInfoRow} (hrow : readLine line = some row) (hzero : 0 ∉ line) :
    OneParent line := by
  obtain ⟨id, parent, device, root, mountpoint, others, hparts⟩ := readLine_some hrow
  obtain ⟨value, hvalue⟩ := hparts.parent
  have hmem : parent ∈ fields isBlank line := by
    rw [hparts.spaced_eq]
    simp
  rw [OneParent, blankField, hparts.spaced_eq]
  exact fields_of_parseUnsigned hvalue fun hparent => hzero ((of_mem_fields hmem).2 0 hparent).2

/-- **Where the two readers agree.** They make a row of every line. The rows are the same when no line has a stray byte in
its paths or in the type of its file system, a device number beyond 32 bits, or a stray dash with another type behind it;
and for a text without terminators, as the kernel's is, only then. -/
theorem readersAgree_iff {text : Bytes} {records : List MountRecord} {snapshot : MountInfoSnapshot}
    (hrecords : readRecords 1 (text.splitOnP isLineEnd) [] = .ok records) (hsnapshot : parseSnapshot text = .ok snapshot) :
    records.length = snapshot.rows.length ∧
      ((∀ line ∈ fields isNewline text, OneParent line ∧ CleanLine line) → ReadersAgree text) ∧
      (0 ∉ text → (ReadersAgree text ↔ ∀ line ∈ fields isNewline text, CleanLine line)) := by
  obtain ⟨hread, hread'⟩ := seen_of_accepted hrecords hsnapshot
  have hrow : ∀ line ∈ fields isNewline text, ∃ record row, topologyLine line = some record ∧ readLine line = some row := by
    intro line hline
    obtain ⟨record, -, hrecord⟩ := List.mem_map.mp (hread ▸ List.mem_map_of_mem hline)
    obtain ⟨row, -, hrow⟩ := List.mem_map.mp (hread' ▸ List.mem_map_of_mem hline)
    exact ⟨record, row, hrecord.symm, hrow.symm⟩
  have hagree : (∀ line ∈ fields isNewline text, OneParent line) →
      (ReadersAgree text ↔ ∀ line ∈ fields isNewline text, CleanLine line) := by
    intro hparents
    rw [readersAgree_iff_forall hrecords hsnapshot]
    refine forall₂_congr fun line hline => ?_
    obtain ⟨record, row, hrecord, hrow⟩ := hrow line hline
    rw [← recordSeen_eq_iff hrecord hrow (hparents line hline)]
    refine ⟨fun h => h record row hrecord hrow, fun h record' row' hrecord' hrow' => ?_⟩
    rw [hrecord', Option.some.injEq] at hrecord
    rw [hrow', Option.some.injEq] at hrow
    rwa [hrecord, hrow]
  refine ⟨?_, fun hclean => (hagree fun line hline => (hclean line hline).1).mpr fun line hline => (hclean line hline).2,
    fun hzero => hagree fun line hline => ?_⟩
  · have hlength := congrArg List.length hread
    have hlength' := congrArg List.length hread'
    simp only [List.length_map] at hlength hlength'
    rw [hlength, hlength']
  · obtain ⟨_, row, -, hrow⟩ := hrow line hline
    exact oneParent_of_noNul hrow fun hmem => hzero ((of_mem_fields hline).2 0 hmem).2

/-- An escaped space in the mount point, and a second row. -/
def escapedText : Bytes :=
  ascii "36 35 0:41 / /mnt/a\\040b rw shared:1 - ext4 /dev/sda rw\n37 36 0:42 /x /mnt/a\\040b/c ro - tmpfs tmpfs rw\n"

theorem readersAgree_iff_escaped : ReadersAgree escapedText := by
  obtain ⟨records, hrecords⟩ : ∃ records, readRecords 1 (escapedText.splitOnP isLineEnd) [] = .ok records := by
    refine ⟨[
      { mountId := 36, deviceId := ascii "0:41", root := ascii "/", mountpoint := ascii "/mnt/a b",
        filesystemType := ascii "ext4", source := ascii "/dev/sda" },
      { mountId := 37, deviceId := ascii "0:42", root := ascii "/x", mountpoint := ascii "/mnt/a b/c",
        filesystemType := ascii "tmpfs", source := ascii "tmpfs" }], ?_⟩
    decide +kernel
  have hsome : (parseSnapshot escapedText).toOption.isSome = true := by decide +kernel
  have hlines : ∀ line ∈ fields isNewline escapedText, (fields isWhitespace (blankField line 1)).length = 1 ∧
      ((deviceNumbers ((tokensOf line).getD 2 [])).all fun numbers =>
        decide (numbers.1 < 2 ^ 32 ∧ numbers.2 < 2 ^ 32)) = true ∧
      (∀ byte ∈ blankField line 3, isStray byte = false) ∧ (∀ byte ∈ blankField line 4, isStray byte = false) ∧
      (¬ StrayDash line ∧ ∀ byte ∈ filesystemField line, isStray byte = false) := by
    decide +kernel
  cases hsnapshot : parseSnapshot escapedText with
  | error error =>
      rw [hsnapshot] at hsome
      cases hsome
  | ok snapshot =>
      refine (readersAgree_iff hrecords hsnapshot).2.1 fun line hline => ?_
      obtain ⟨hparent, hdevice, hroot, hmountpoint, hdash, hfilesystem⟩ := hlines line hline
      refine ⟨hparent, fun numbers hnumbers => ?_, hroot, hmountpoint, fun _ => hfilesystem, fun h => absurd h hdash⟩
      rw [hnumbers] at hdevice
      exact of_decide_eq_true hdevice

/-- A vertical tab in the name of a directory, which the kernel writes as it is. -/
def verticalTabText : Bytes :=
  ascii "36 35 0:41 / /mnt/a" ++ 0x0b :: ascii "b rw shared:1 - ext4 /dev/sda rw\n"

theorem not_readersAgree_verticalTab : ¬ ReadersAgree verticalTabText := by
  intro hagree
  have hrecords : readRecords 1 (verticalTabText.splitOnP isLineEnd) [] = .ok [
      { mountId := 36, deviceId := ascii "0:41", root := ascii "/", mountpoint := ascii "/mnt/a",
        filesystemType := ascii "ext4", source := ascii "/dev/sda" }] := by
    decide +kernel
  have hread : (parseSnapshot verticalTabText).toOption.map (fun snapshot => snapshot.rows.map MountInfoRow.seen) =
      some [{ mountId := 36, device := some (0, 41), filesystem := ascii "ext4", root := some (ascii "/"),
              mountpoint := some (ascii "/mnt/a" ++ [0x0b, 0x62]) }] := by
    decide +kernel
  cases hsnapshot : parseSnapshot verticalTabText with
  | error error =>
      rw [hsnapshot] at hread
      cases hread
  | ok snapshot =>
      rw [hsnapshot] at hread
      have hseen := (hagree _ snapshot hrecords hsnapshot).trans (Option.some.inj hread)
      exact absurd hseen (by decide +kernel)

end PathGuard.Native
