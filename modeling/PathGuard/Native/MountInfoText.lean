import PathGuard.Lib.Components
import PathGuard.Native.SnapshotReader

/-!
# The text of the mount table

How the kernel writes `/proc/self/mountinfo`: one line for each mount, its fields separated by spaces. In the paths and
in the source a space, a tab, a newline or a backslash is an octal escape. `ParseSnapshot` reads back what is written so.

* `mountInfoText`, `MountRow.WellFormed` : the text of a table, and the rows it is written for;
* `manglePath` : the escapes of the kernel;
* `parseSnapshot_mountInfoText` : the rows are read back.
-/

namespace PathGuard.Native

/-! ## Writing -/

structure MountRow where
  mountId : Nat
  parentMountId : Nat
  device : Device
  root : Bytes
  mountpoint : Bytes
  options : Bytes
  optional : List Bytes
  filesystem : Bytes
  source : Bytes
  superOptions : Bytes
  deriving DecidableEq

/-- The bytes that are escaped in a path. -/
def isMangled (byte : UInt8) : Bool := byte == 0x20 || byte == 0x09 || byte == 0x0a || byte == 0x5c

def manglePath (path : Bytes) : Bytes := Octal.escape isMangled path

def MountRow.fields (row : MountRow) : List Bytes :=
  [decimalBytes row.mountId, decimalBytes row.parentMountId,
    decimalBytes row.device.major.toNat ++ 0x3a :: decimalBytes row.device.minor.toNat, manglePath row.root,
    manglePath row.mountpoint, row.options] ++ row.optional ++
      [ascii "-", row.filesystem, manglePath row.source, row.superOptions]

def MountRow.line (row : MountRow) : Bytes := [0x20].intercalate row.fields

def mountInfoText (rows : List MountRow) : Bytes := rows.flatMap fun row => row.line ++ [0x0a]

/-- The propagation that the optional fields stand for. -/
def MountRow.propagation (row : MountRow) : MountPropagation where
  shared := row.optional.any (ascii "shared:").isPrefixOf
  master := row.optional.any (ascii "master:").isPrefixOf
  unbindable := row.optional.contains (ascii "unbindable")

/-- What can be a field of a line as it is. -/
structure IsField (field : Bytes) : Prop where
  ne : field ≠ []
  bytes : ∀ byte ∈ field, byte ≠ 0x20 ∧ byte ≠ 0x0a ∧ byte ≠ 0

/-- What can be a path in a row. -/
structure IsRowPath (path : Bytes) : Prop where
  ne : path ≠ []
  noNul : 0 ∉ path
  length_lt : path.length < PATH_MAX

structure MountRow.WellFormed (row : MountRow) : Prop where
  mountId : 0 < row.mountId ∧ row.mountId < 2 ^ 64
  parentMountId : 0 < row.parentMountId ∧ row.parentMountId < 2 ^ 64
  root : IsRowPath row.root
  mountpoint : IsRowPath row.mountpoint
  options : IsField row.options
  optional : ∀ field ∈ row.optional, IsField field ∧ field ≠ ascii "-"
  filesystem : IsField row.filesystem ∧ row.filesystem.length < kFilesystemSize
  source : row.source ≠ [] ∧ 0 ∉ row.source
  superOptions : IsField row.superOptions

instance (field : Bytes) : Decidable (IsField field) :=
  haveI := List.decidableBAll (fun byte : UInt8 => byte ≠ 0x20 ∧ byte ≠ 0x0a ∧ byte ≠ 0) field
  decidable_of_iff (field ≠ [] ∧ ∀ byte ∈ field, byte ≠ 0x20 ∧ byte ≠ 0x0a ∧ byte ≠ 0)
    ⟨fun h => ⟨h.1, h.2⟩, fun h => ⟨h.ne, h.bytes⟩⟩

instance (path : Bytes) : Decidable (IsRowPath path) :=
  decidable_of_iff (path ≠ [] ∧ 0 ∉ path ∧ path.length < PATH_MAX)
    ⟨fun h => ⟨h.1, h.2.1, h.2.2⟩, fun h => ⟨h.ne, h.noNul, h.length_lt⟩⟩

instance (row : MountRow) : Decidable row.WellFormed :=
  decidable_of_iff ((0 < row.mountId ∧ row.mountId < 2 ^ 64) ∧ (0 < row.parentMountId ∧ row.parentMountId < 2 ^ 64) ∧
      IsRowPath row.root ∧ IsRowPath row.mountpoint ∧ IsField row.options ∧
      (∀ field ∈ row.optional, IsField field ∧ field ≠ ascii "-") ∧
      (IsField row.filesystem ∧ row.filesystem.length < kFilesystemSize) ∧ (row.source ≠ [] ∧ 0 ∉ row.source) ∧
      IsField row.superOptions)
    ⟨fun ⟨mountId, parentMountId, root, mountpoint, options, optional, filesystem, source, superOptions⟩ =>
      ⟨mountId, parentMountId, root, mountpoint, options, optional, filesystem, source, superOptions⟩,
      fun h => ⟨h.mountId, h.parentMountId, h.root, h.mountpoint, h.options, h.optional, h.filesystem, h.source,
        h.superOptions⟩⟩

/-! ## Numbers -/

theorem strtoull_digits {space digits rest : Bytes} (hspace : ∀ byte ∈ space, isWhitespace byte = true)
    (hne : digits ≠ []) (hdigits : ∀ byte ∈ digits, isDigit byte = true) (hvalue : decimalValue digits < 2 ^ 64)
    (hrest : ∀ byte ∈ rest.head?, isDigit byte = false) :
    strtoull (space ++ (digits ++ rest)) = some (decimalValue digits, rest) := by
  obtain ⟨first, others, hfirst⟩ := List.exists_cons_of_ne_nil hne
  obtain ⟨hblank, hminus, hplus⟩ := of_isDigit (hdigits first (hfirst ▸ List.mem_cons_self))
  have htake : (digits ++ rest).takeWhile isDigit = digits := by
    rw [List.takeWhile_append_of_pos hdigits]
    cases rest with
    | nil => simp
    | cons byte rest => simp [hrest byte rfl]
  have hdrop : (digits ++ rest).dropWhile isDigit = rest := by
    rw [List.dropWhile_append_of_pos hdigits]
    cases rest with
    | nil => rfl
    | cons byte rest => simp [hrest byte rfl]
  have hskip : (space ++ (digits ++ rest)).dropWhile isWhitespace = digits ++ rest := by
    rw [List.dropWhile_append_of_pos hspace, hfirst, List.cons_append, List.dropWhile_cons_of_neg (by simp [hblank])]
  have hhead : (digits ++ rest).head? = some first := by
    rw [hfirst]
    rfl
  rw [strtoull, hskip]
  simp only [hhead, Option.some.injEq, hminus, hplus, decide_false, Bool.or_self, Bool.false_eq_true, if_false, htake,
    hdrop]
  rw [if_neg]
  simp only [Bool.or_eq_true, List.isEmpty_iff, decide_eq_true_eq, not_or]
  exact ⟨hne, Nat.not_le.mpr hvalue⟩

theorem strtoull_decimalBytes {value : Nat} (hvalue : value < 2 ^ 64) {rest : Bytes}
    (hrest : ∀ byte ∈ rest.head?, isDigit byte = false) : strtoull (decimalBytes value ++ rest) = some (value, rest) := by
  obtain ⟨hne, hdigits, hread⟩ := decimalBytes_digits value
  have hnumber := @strtoull_digits [] _ rest (List.forall_mem_nil _) hne hdigits (by rwa [hread]) hrest
  rwa [List.nil_append, hread] at hnumber

theorem parseUnsigned_decimalBytes {value : Nat} (hvalue : value < 2 ^ 64) :
    parseUnsigned (decimalBytes value) = some value := by
  have hread := @strtoull_decimalBytes value hvalue [] (by simp)
  rw [List.append_nil] at hread
  rw [parseUnsigned, hread]

theorem parseDevice_decimalBytes (device : Device) :
    parseDevice (decimalBytes device.major.toNat ++ 0x3a :: decimalBytes device.minor.toNat) = some device := by
  have hbound : ∀ number : UInt32, number.toNat < 2 ^ 64 := fun number => lt_trans number.toNat_lt (by decide)
  have hcolon : ∀ byte ∈ (0x3a :: decimalBytes device.minor.toNat).head?, isDigit byte = false := by
    intro byte hbyte
    obtain rfl : 0x3a = byte := by simpa using hbyte
    rfl
  rw [parseDevice, strtoull_decimalBytes (hbound device.major) hcolon]
  simp [parseUnsigned_decimalBytes (hbound device.minor)]

/-! ## Fields -/

theorem isField_decimalBytes (value : Nat) : IsField (decimalBytes value) := by
  refine ⟨(decimalBytes_digits value).1, fun byte hbyte => ⟨?_, ?_, ?_⟩⟩
  · rintro rfl
    exact not_mem_decimalBytes (by decide) value hbyte
  · rintro rfl
    exact not_mem_decimalBytes (by decide) value hbyte
  · rintro rfl
    exact not_mem_decimalBytes (by decide) value hbyte

theorem IsField.append_cons {field field' : Bytes} (h : IsField field) (h' : IsField field') {byte : UInt8}
    (hbyte : byte ≠ 0x20 ∧ byte ≠ 0x0a ∧ byte ≠ 0) : IsField (field ++ byte :: field') := by
  refine ⟨by simp, fun other hother => ?_⟩
  rw [List.mem_append, List.mem_cons] at hother
  rcases hother with hother | rfl | hother
  · exact h.bytes other hother
  · exact hbyte
  · exact h'.bytes other hother

theorem isField_manglePath {path : Bytes} (hne : path ≠ []) (hnul : 0 ∉ path) : IsField (manglePath path) := by
  refine ⟨Octal.escape_ne_nil hne, fun byte hbyte => ?_⟩
  rcases Octal.mem_escape hbyte with rfl | hdigit | ⟨hmem, hplain⟩
  · decide
  · have hlow : (0x30 : UInt8) ≤ byte := by
      rw [Octal.isOctalDigit, Bool.and_eq_true, decide_eq_true_eq] at hdigit
      exact hdigit.1
    have hne : ∀ other : UInt8, ¬ 0x30 ≤ other → byte ≠ other := by
      rintro other hother rfl
      exact hother hlow
    exact ⟨hne 0x20 (by decide), hne 0x0a (by decide), hne 0 (by decide)⟩
  · simp only [isMangled, Bool.or_eq_false_iff, beq_eq_false_iff_ne] at hplain
    exact ⟨hplain.1.1.1, hplain.1.2, ne_of_mem_of_not_mem hmem hnul⟩

theorem decodeToken_manglePath {path : Bytes} (h : IsRowPath path) :
    decodeToken (manglePath path) PATH_MAX = some path := by
  have haccept : ∀ byte ∈ path, isMangled byte = true → acceptByte byte.toNat = some byte := by
    intro byte hbyte _
    have hne : byte ≠ 0 := ne_of_mem_of_not_mem hbyte h.noNul
    rw [acceptByte, UInt8.ofNat_toNat, if_neg hne]
  rw [decodeToken, manglePath, Octal.decode_escape (by decide) haccept, Option.filter_some,
    if_pos (decide_eq_true h.length_lt)]

theorem cString_of_notMem {text : Bytes} (h : 0 ∉ text) : cString text = text := by
  rw [cString, List.takeWhile_eq_self_iff]
  exact fun byte hbyte => decide_eq_true (ne_of_mem_of_not_mem hbyte h)

/-! ## Optional fields -/

theorem splitSeparator_append {optional : List Bytes} (h : ascii "-" ∉ optional) (rest : List Bytes) :
    splitSeparator (optional ++ ascii "-" :: rest) = some (optional, rest) := by
  induction optional with
  | nil => rfl
  | cons field optional ih =>
      rw [List.mem_cons, not_or] at h
      rw [List.cons_append, splitSeparator, if_neg (Ne.symm h.1), ih h.2]
      rfl

/-- The loop over the optional fields sets the bit of every kind that occurs. -/
theorem foldl_addPropagation (optional : List Bytes) (propagation : MountPropagation) :
    optional.foldl addPropagation propagation =
      { shared := propagation.shared || optional.any (ascii "shared:").isPrefixOf
        master := propagation.master || optional.any (ascii "master:").isPrefixOf
        unbindable := propagation.unbindable || optional.contains (ascii "unbindable") } := by
  induction optional generalizing propagation with
  | nil => simp
  | cons field optional ih =>
      rw [List.foldl_cons, ih, List.any_cons, List.any_cons, List.contains_cons, addPropagation]
      -- a field is of one kind at most, since the first bytes differ
      by_cases hshared : (ascii "shared:").isPrefixOf field = true
      · obtain ⟨rest, rfl⟩ := List.isPrefixOf_iff_prefix.mp hshared
        have hmaster : (ascii "master:").isPrefixOf (ascii "shared:" ++ rest) = false := rfl
        have hunbindable : (ascii "unbindable" == ascii "shared:" ++ rest) = false := rfl
        simp [hmaster, hunbindable]
      · by_cases hmaster : (ascii "master:").isPrefixOf field = true
        · obtain ⟨rest, rfl⟩ := List.isPrefixOf_iff_prefix.mp hmaster
          have hunbindable : (ascii "unbindable" == ascii "master:" ++ rest) = false := rfl
          simp [hshared, hunbindable]
        · by_cases hunbindable : field = ascii "unbindable"
          · subst hunbindable
            simp [hshared, hmaster]
          · simp [hshared, hmaster, hunbindable, beq_eq_false_iff_ne.mpr (Ne.symm hunbindable)]

/-! ## Reading back -/

section Row
variable {row : MountRow}

theorem MountRow.WellFormed.isField (h : row.WellFormed) : ∀ field ∈ row.fields, IsField field := by
  have hdash : IsField (ascii "-") := by
    refine ⟨by decide, fun byte hbyte => ?_⟩
    obtain rfl : byte = 0x2d := List.mem_singleton.mp hbyte
    decide
  simp only [MountRow.fields, List.forall_mem_append, List.forall_mem_cons]
  refine ⟨⟨⟨isField_decimalBytes _, isField_decimalBytes _,
    (isField_decimalBytes _).append_cons (isField_decimalBytes _) (by decide), isField_manglePath h.root.ne h.root.noNul,
    isField_manglePath h.mountpoint.ne h.mountpoint.noNul, h.options, List.forall_mem_nil _⟩,
    fun field hfield => (h.optional field hfield).1⟩, hdash, h.filesystem.1,
    isField_manglePath h.source.1 h.source.2, h.superOptions, List.forall_mem_nil _⟩

theorem MountRow.WellFormed.fields_line (h : row.WellFormed) : PathGuard.fields isBlank row.line = row.fields := by
  refine fields_intercalate rfl fun field hfield => ⟨(h.isField field hfield).ne, fun byte hbyte => ?_⟩
  exact beq_eq_false_iff_ne.mpr ((h.isField field hfield).bytes byte hbyte).1

theorem MountRow.WellFormed.line_ne (h : row.WellFormed) : row.line ≠ [] ∧ ∀ byte ∈ row.line, isNewline byte = false := by
  constructor
  · intro hnil
    have hfields := h.fields_line
    rw [hnil] at hfields
    cases hfields
  · intro byte hbyte
    rw [isNewline, beq_eq_false_iff_ne]
    rcases mem_intercalate hbyte with rfl | ⟨field, hfield, hbyte⟩
    · decide
    · exact ((h.isField field hfield).bytes byte hbyte).2.1

/-- What is read of a line. -/
def MountRow.infoRow (row : MountRow) : MountInfoRow where
  mountId := row.mountId
  parentMountId := row.parentMountId
  device := row.device
  rootText := manglePath row.root
  mountpointText := manglePath row.mountpoint
  filesystem := row.filesystem
  propagation := row.propagation

theorem MountRow.WellFormed.readLine_line (h : row.WellFormed) : readLine row.line = some row.infoRow := by
  have hstrings : row.fields.map cString = row.fields := by
    rw [List.map_congr_left fun field hfield => cString_of_notMem fun hmem =>
      ((h.isField field hfield).bytes 0 hmem).2.2 rfl, List.map_id']
  have hsplit : splitSeparator (row.optional ++ ascii "-" :: [row.filesystem, manglePath row.source, row.superOptions]) =
      some (row.optional, [row.filesystem, manglePath row.source, row.superOptions]) :=
    splitSeparator_append (fun hmem => (h.optional _ hmem).2 rfl) _
  have hcheck : checkEntry (decimalBytes row.mountId) (decimalBytes row.parentMountId)
      (decimalBytes row.device.major.toNat ++ 0x3a :: decimalBytes row.device.minor.toNat) (manglePath row.root)
      (manglePath row.mountpoint) row.filesystem = some (row.mountId, row.parentMountId, row.device) := by
    have hfilesystem := h.filesystem.1.ne
    have hids : ¬ (decide (row.mountId = 0) || decide (row.parentMountId = 0)) = true := by
      simp [Nat.ne_of_gt h.mountId.1, Nat.ne_of_gt h.parentMountId.1]
    have hsize : ¬ (row.filesystem.isEmpty || decide (kFilesystemSize ≤ row.filesystem.length)) = true := by
      simp [hfilesystem, Nat.not_le.mpr h.filesystem.2]
    simp only [checkEntry, parseUnsigned_decimalBytes h.mountId.2, parseUnsigned_decimalBytes h.parentMountId.2,
      parseDevice_decimalBytes, decodeToken_manglePath h.root, decodeToken_manglePath h.mountpoint,
      Option.bind_eq_bind, Option.bind_some, if_neg hids, if_neg hsize]
    rfl
  rw [readLine, h.fields_line, hstrings, MountRow.fields, List.append_assoc]
  simp only [List.cons_append, List.nil_append, readFields]
  rw [hsplit]
  simp only [hcheck, Option.map_some, foldl_addPropagation, Bool.false_or]
  rfl

end Row

theorem fields_mountInfoText {rows : List MountRow} (h : ∀ row ∈ rows, row.WellFormed) :
    fields isNewline (mountInfoText rows) = rows.map MountRow.line := by
  induction rows with
  | nil => rfl
  | cons row rows ih =>
      rw [List.forall_mem_cons] at h
      obtain ⟨hne, hline⟩ := h.1.line_ne
      rw [mountInfoText, List.flatMap_cons, List.append_assoc, List.singleton_append,
        fields_append_cons hne hline rfl, ← mountInfoText, ih h.2, List.map_cons]

theorem readLines_lines {rows : List MountRow} (h : ∀ row ∈ rows, row.WellFormed) {seen : List MountInfoRow}
    (hlimit : seen.length + rows.length ≤ kMaxMountInfoEntries) :
    readLines (rows.map MountRow.line) seen = .ok (seen ++ rows.map MountRow.infoRow) := by
  induction rows generalizing seen with
  | nil => simp [readLines]
  | cons row rows ih =>
      rw [List.forall_mem_cons] at h
      rw [List.length_cons] at hlimit
      rw [List.map_cons, readLines, if_neg (by omega), h.1.readLine_line]
      simp only
      rw [ih h.2 (by rw [List.length_append, List.length_singleton]; omega), List.map_cons, List.append_assoc,
        List.singleton_append]

/-- What an entry says of a row: its numbers and flags, and tokens that decode to the paths. -/
structure MountInfoSnapshotEntry.Shows (text : Bytes) (entry : MountInfoSnapshotEntry) (row : MountRow) : Prop where
  mountId : entry.mountId = row.mountId
  parentMountId : entry.parentMountId = row.parentMountId
  device : entry.device = row.device
  propagation : entry.propagation = row.propagation
  filesystem : tokenOf text entry.filesystemOffset entry.filesystemLength = row.filesystem
  root : decodeToken (tokenOf text entry.rootOffset entry.rootLength) PATH_MAX = some row.root
  mountpoint : decodeToken (tokenOf text entry.mountpointOffset entry.mountpointLength) PATH_MAX = some row.mountpoint

theorem shows_of_row_eq {text : Bytes} {entry : MountInfoSnapshotEntry} {row : MountRow} (h : row.WellFormed)
    (hrow : entry.row text = row.infoRow) : entry.Shows text row where
  mountId := congrArg MountInfoRow.mountId hrow
  parentMountId := congrArg MountInfoRow.parentMountId hrow
  device := congrArg MountInfoRow.device hrow
  propagation := congrArg MountInfoRow.propagation hrow
  filesystem := congrArg MountInfoRow.filesystem hrow
  root := by
    have htoken : tokenOf text entry.rootOffset entry.rootLength = manglePath row.root :=
      congrArg MountInfoRow.rootText hrow
    rw [htoken, decodeToken_manglePath h.root]
  mountpoint := by
    have htoken : tokenOf text entry.mountpointOffset entry.mountpointLength = manglePath row.mountpoint :=
      congrArg MountInfoRow.mountpointText hrow
    rw [htoken, decodeToken_manglePath h.mountpoint]

theorem forall₂_shows {text : Bytes} {entries : List MountInfoSnapshotEntry} {rows : List MountRow}
    (h : ∀ row ∈ rows, row.WellFormed)
    (hrows : entries.map (MountInfoSnapshotEntry.row text) = rows.map MountRow.infoRow) :
    List.Forall₂ (MountInfoSnapshotEntry.Shows text) entries rows := by
  induction rows generalizing entries with
  | nil =>
      rw [List.map_nil, List.map_eq_nil_iff] at hrows
      subst hrows
      exact .nil
  | cons row rows ih =>
      rw [List.map_cons, List.map_eq_cons_iff] at hrows
      obtain ⟨entry, rest, rfl, hrow, hrest⟩ := hrows
      rw [List.forall_mem_cons] at h
      exact .cons (shows_of_row_eq h.1 hrow) (ih h.2 hrest)

theorem readLines_ok {lines : List Bytes} {rows out : List MountInfoRow} (h : readLines lines rows = .ok out) :
    out.map some = rows.map some ++ lines.map readLine := by
  induction lines generalizing rows with
  | nil => rw [← Except.ok.inj h, List.map_nil, List.append_nil]
  | cons line lines ih =>
      rw [readLines] at h
      split at h
      · cases h
      · split at h
        · cases h
        · next row hrow =>
          rw [ih h, List.map_cons, hrow, List.map_append, List.append_assoc]
          rfl

theorem forall₂_shows_of_parse {rows : List MountRow} (h : ∀ row ∈ rows, row.WellFormed) {snapshot : MountInfoSnapshot}
    (hparse : parseSnapshot (mountInfoText rows) = .ok snapshot) :
    List.Forall₂ (MountInfoSnapshotEntry.Shows snapshot.text) snapshot.entries rows := by
  have hread := parseSnapshot_rows (mountInfoText rows)
  rw [hparse, readSnapshot, fields_mountInfoText h] at hread
  split at hread
  · cases hread
  · next out hlines =>
    split at hread
    · cases hread
    · have hout : out.map some = (rows.map MountRow.infoRow).map some := by
        rw [readLines_ok hlines, List.map_nil, List.nil_append, List.map_map, List.map_map]
        exact List.map_congr_left fun row hrow => (h row hrow).readLine_line
      have hrows : snapshot.rows = rows.map MountRow.infoRow :=
        (Except.ok.inj hread).trans (List.map_injective_iff.mpr (Option.some_injective _) hout)
      exact forall₂_shows h hrows

theorem parseEntry_filesystemLength {text text' : Bytes} {line lineEnd : Nat} {entry : MountInfoSnapshotEntry}
    (h : parseEntry text line lineEnd = .ok (entry, text')) : entry.filesystemLength < kFilesystemSize := by
  unfold parseEntry at h
  split at h
  · split at h
    · cases h
    · split at h
      · split at h
        · cases h
        · next hcheck =>
          simp only [checkEntry, Option.bind_eq_bind, Option.bind_eq_some_iff, Option.ite_none_left_eq_some,
            Bool.or_eq_true, decide_eq_true_eq, not_or, Nat.not_le] at hcheck
          obtain ⟨_, -, _, -, -, _, -, _, -, _, -, ⟨-, hlength⟩, -⟩ := hcheck
          rw [← (Prod.mk.inj (Except.ok.inj h)).1]
          exact hlength
      · cases h
  · cases h

theorem parseLines_filesystemLength {textEnd fuel cursor : Nat} {text text' : Bytes}
    {entries entries' : List MountInfoSnapshotEntry} (hentries : ∀ entry ∈ entries, entry.filesystemLength < kFilesystemSize)
    (h : parseLines textEnd fuel text cursor entries = .ok (entries', text')) :
    ∀ entry ∈ entries', entry.filesystemLength < kFilesystemSize := by
  induction fuel generalizing text cursor entries with
  | zero =>
      rw [← (Prod.mk.inj (Except.ok.inj h)).1]
      exact hentries
  | succ fuel ih =>
      rw [parseLines] at h
      split at h
      · rw [← (Prod.mk.inj (Except.ok.inj h)).1]
        exact hentries
      · dsimp only at h
        split at h
        · exact ih hentries h
        · split at h
          · cases h
          · split at h
            · cases h
            · next hentry =>
              refine ih ?_ h
              rw [List.forall_mem_append, List.forall_mem_singleton]
              exact ⟨hentries, parseEntry_filesystemLength hentry⟩

theorem parseSnapshot_filesystemLength {text : Bytes} {snapshot : MountInfoSnapshot}
    (h : parseSnapshot text = .ok snapshot) : ∀ entry ∈ snapshot.entries, entry.filesystemLength < kFilesystemSize := by
  rw [parseSnapshot] at h
  split at h
  · cases h
  · next hlines =>
    split at h
    · cases h
    · rw [← Except.ok.inj h]
      exact parseLines_filesystemLength (List.forall_mem_nil _) hlines

/-- **What the kernel writes is read back**, row by row. -/
theorem parseSnapshot_mountInfoText {rows : List MountRow} (hne : rows ≠ []) (hlimit : rows.length ≤ kMaxMountInfoEntries)
    (h : ∀ row ∈ rows, row.WellFormed) :
    ∃ snapshot, parseSnapshot (mountInfoText rows) = .ok snapshot ∧
      List.Forall₂ (MountInfoSnapshotEntry.Shows snapshot.text) snapshot.entries rows := by
  have hread : readSnapshot (mountInfoText rows) = .ok (rows.map MountRow.infoRow) := by
    rw [readSnapshot, fields_mountInfoText h, readLines_lines h (by simpa using hlimit)]
    simp [hne]
  rw [← parseSnapshot_rows] at hread
  cases hparse : parseSnapshot (mountInfoText rows) with
  | error error =>
      rw [hparse] at hread
      cases hread
  | ok snapshot => exact ⟨snapshot, rfl, forall₂_shows_of_parse h hparse⟩

/-- A table with a space, a backslash and bytes beyond seven bits in its paths. -/
def spacedRows : List MountRow :=
  [{ mountId := 36
     parentMountId := 35
     device := { major := 253, minor := 7 }
     root := ascii "/a b"
     mountpoint := ascii "/mnt/\\" ++ [0xe9, 0x0a]
     options := ascii "rw,noatime"
     optional := [ascii "shared:1", ascii "master:2"]
     filesystem := ascii "ext4"
     source := ascii "/dev/my disk"
     superOptions := ascii "rw" }]

theorem parseSnapshot_mountInfoText_spaced :
    ∃ snapshot, parseSnapshot (mountInfoText spacedRows) = .ok snapshot ∧
      List.Forall₂ (MountInfoSnapshotEntry.Shows snapshot.text) snapshot.entries spacedRows :=
  parseSnapshot_mountInfoText (by decide) (by decide) (by decide +kernel)

end PathGuard.Native
