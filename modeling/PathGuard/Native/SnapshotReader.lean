import Mathlib.Data.List.Forall2
import Mathlib.Data.Option.Basic
import PathGuard.Native.MountInfoSnapshot

/-!
# What the snapshot reads

`readSnapshot` reads the rows of a mount table from the fields of its lines. `ParseSnapshot`, which works in place,
refines it: its entries point to the tokens of the rows, and it fails where `readSnapshot` does.

* `readSnapshot` : the rows of a text, field by field;
* `Left`, `TokenAt`, `Kept` : what is left of a line that is taken apart in place, and what stays;
* `nextToken_spec`, `parseEntry_spec`, `parseSnapshot_rows` : the reader in place, token by token, line by line.
-/

namespace PathGuard.Native

/-! ## Rows -/

/-- What an entry points to. -/
structure MountInfoRow where
  mountId : Nat
  parentMountId : Nat
  device : Device
  rootText : Bytes
  mountpointText : Bytes
  filesystem : Bytes
  propagation : MountPropagation
  deriving DecidableEq

def MountInfoSnapshotEntry.row (text : Bytes) (entry : MountInfoSnapshotEntry) : MountInfoRow where
  mountId := entry.mountId
  parentMountId := entry.parentMountId
  device := entry.device
  rootText := tokenOf text entry.rootOffset entry.rootLength
  mountpointText := tokenOf text entry.mountpointOffset entry.mountpointLength
  filesystem := tokenOf text entry.filesystemOffset entry.filesystemLength
  propagation := entry.propagation

def MountInfoSnapshot.rows (snapshot : MountInfoSnapshot) : List MountInfoRow :=
  snapshot.entries.map (MountInfoSnapshotEntry.row snapshot.text)

/-- A C string ends at its first terminator. -/
def cString (text : Bytes) : Bytes := text.takeWhile (· ≠ 0)

/-- The fields up to the separator, and after it. -/
def splitSeparator : List Bytes → Option (List Bytes × List Bytes)
  | [] => none
  | field :: rest =>
      if field = ascii "-" then some ([], rest) else (splitSeparator rest).map fun found => (field :: found.1, found.2)

def readFields : List Bytes → Option MountInfoRow
  | mountId :: parentMountId :: device :: root :: mountpoint :: _ :: rest =>
      match splitSeparator rest with
      | some (optional, filesystem :: _ :: _ :: _) =>
          (checkEntry mountId parentMountId device root mountpoint filesystem).map fun numbers =>
            { mountId := numbers.1, parentMountId := numbers.2.1, device := numbers.2.2, rootText := root,
              mountpointText := mountpoint, filesystem := filesystem, propagation := optional.foldl addPropagation {} }
      | _ => none
  | _ => none

def readLine (line : Bytes) : Option MountInfoRow := readFields ((fields isBlank line).map cString)

def readLines : List Bytes → List MountInfoRow → Except Errno (List MountInfoRow)
  | [], rows => .ok rows
  | line :: lines, rows =>
      if kMaxMountInfoEntries ≤ rows.length then .error .EOVERFLOW
      else
        match readLine line with
        | none => .error .EBADMSG
        | some row => readLines lines (rows ++ [row])

def readSnapshot (text : Bytes) : Except Errno (List MountInfoRow) :=
  match readLines (fields isNewline text) [] with
  | .error error => .error error
  | .ok rows => if rows.isEmpty then .error .ENODATA else .ok rows

/-! ## Strings in the text -/

/-- At an offset there is a string and a terminator. -/
def StringAt (text : Bytes) (offset : Nat) (value : Bytes) : Prop := value ++ [0] <+: text.drop offset

/-- Nothing changes before the cursor, or from the end of the line on. -/
structure Kept (text text' : Bytes) (cursor lineEnd : Nat) : Prop where
  length : text'.length = text.length
  bytes : ∀ index, index < cursor ∨ lineEnd ≤ index → text'[index]? = text[index]?

/-- A token that later calls leave alone. -/
structure TokenAt (text : Bytes) (offset : Nat) (token : Bytes) (cursor lineEnd : Nat) : Prop where
  string : StringAt text offset token
  settled : offset + token.length < cursor ∨ offset + token.length = lineEnd ∧ lineEnd ≤ cursor

/-- What is left of a line. -/
structure Left (text : Bytes) (cursor lineEnd : Nat) (rest : Bytes) : Prop where
  string : StringAt text cursor rest
  ends : cursor + rest.length = lineEnd

section Strings
variable {text text' value rest : Bytes} {offset cursor cursor' lineEnd : Nat}

theorem stringAt_iff : StringAt text offset value ↔
    ∀ index (h : index < (value ++ [0]).length), text[offset + index]? = some (value ++ [0])[index] := by
  rw [StringAt, List.prefix_iff_getElem?]
  simp only [List.getElem?_drop]

theorem StringAt.stringAt_eq (h : StringAt text offset value) : stringAt text offset = cString value := by
  obtain ⟨after, hafter⟩ := h
  rw [stringAt, cString, ← hafter, List.append_assoc, List.singleton_append, List.takeWhile_append]
  split
  · next hall => simpa using ((List.takeWhile_prefix _).eq_of_length hall).symm
  · rfl

theorem StringAt.slice_eq (h : StringAt text offset value) : slice text offset (offset + value.length) = value := by
  obtain ⟨after, hafter⟩ := h
  rw [slice, List.drop_take, Nat.add_sub_cancel_left, ← hafter, List.append_assoc, List.take_left]

theorem Kept.refl (text : Bytes) (cursor lineEnd : Nat) : Kept text text cursor lineEnd := ⟨rfl, fun _ _ => rfl⟩

theorem Kept.trans {text'' : Bytes} (h : Kept text text' cursor lineEnd) (h' : Kept text' text'' cursor' lineEnd)
    (hle : cursor ≤ cursor') : Kept text text'' cursor lineEnd :=
  ⟨h'.length.trans h.length, fun index hindex =>
    (h'.bytes index (hindex.imp_left fun hlt => Nat.lt_of_lt_of_le hlt hle)).trans (h.bytes index hindex)⟩

theorem kept_set (byte : UInt8) {index : Nat} (hcursor : cursor ≤ index) (hend : index < lineEnd) :
    Kept text (text.set index byte) cursor lineEnd := by
  refine ⟨List.length_set, fun other hother => List.getElem?_set_ne ?_⟩
  omega

theorem TokenAt.kept (h : TokenAt text offset value cursor lineEnd) (hkept : Kept text text' cursor lineEnd)
    (hle : cursor ≤ cursor') : TokenAt text' offset value cursor' lineEnd := by
  have hsettled : offset + value.length < cursor' ∨ offset + value.length = lineEnd ∧ lineEnd ≤ cursor' := by
    have := h.settled
    omega
  refine ⟨stringAt_iff.mpr fun index hindex => ?_, hsettled⟩
  rw [hkept.bytes, stringAt_iff.mp h.string index hindex]
  have := h.settled
  rw [List.length_append, List.length_singleton] at hindex
  omega

theorem Left.slice_eq (h : Left text cursor lineEnd rest) : slice text cursor lineEnd = rest := by
  rw [← h.ends]
  exact h.string.slice_eq

theorem Left.append {front : Bytes} (h : Left text cursor lineEnd (front ++ rest)) :
    Left text (cursor + front.length) lineEnd rest := by
  refine ⟨stringAt_iff.mpr fun index hindex => ?_, ?_⟩
  · have hlonger : front.length + index < (front ++ rest ++ [0]).length := by
      rw [List.append_assoc, List.length_append]
      omega
    rw [Nat.add_assoc, stringAt_iff.mp h.string _ hlonger]
    congr 1
    rw [List.getElem_of_eq (List.append_assoc front rest [0]) hlonger, List.getElem_append_right (Nat.le_add_right _ _)]
    simp
  · have hends := h.ends
    rw [List.length_append] at hends
    omega

/-- What the terminator makes of a field: the token is there, and the rest of the line is left. -/
theorem Left.set {field : Bytes} {byte : UInt8} (h : Left text cursor lineEnd (field ++ byte :: rest)) :
    TokenAt (text.set (cursor + field.length) 0) cursor field (cursor + field.length + 1) lineEnd ∧
      Left (text.set (cursor + field.length) 0) (cursor + field.length + 1) lineEnd rest := by
  have hends := h.ends
  rw [List.length_append, List.length_cons] at hends
  have hbound : cursor + field.length < text.length := by
    have hlength := h.string.length_le
    rw [List.length_drop, List.length_append, List.length_append, List.length_cons] at hlength
    omega
  refine ⟨⟨stringAt_iff.mpr fun index hindex => ?_, Or.inl (Nat.lt_succ_self _)⟩, ?_⟩
  · rw [List.length_append, List.length_singleton] at hindex
    rcases Nat.lt_or_eq_of_le (Nat.le_of_lt_succ hindex) with hlt | rfl
    · rw [List.getElem?_set_ne (by omega)]
      have hlonger : index < (field ++ byte :: rest ++ [0]).length := by simp; omega
      rw [stringAt_iff.mp h.string index hlonger]
      simp only [List.append_assoc, List.getElem_append_left hlt]
    · rw [List.getElem?_set_self hbound]
      simp
  · have hsplit : field ++ byte :: rest = (field ++ [byte]) ++ rest := by simp
    rw [hsplit] at h
    have hrest := h.append
    rw [List.length_append, List.length_singleton, ← Nat.add_assoc] at hrest
    refine ⟨stringAt_iff.mpr fun index hindex => ?_, hrest.ends⟩
    rw [List.getElem?_set_ne (by omega)]
    exact stringAt_iff.mp hrest.string index hindex

/-- **`NextToken` takes the next field of the line.** -/
theorem nextToken_spec (h : Left text cursor lineEnd rest) :
    (nextField isBlank rest = none → nextToken lineEnd text cursor = (none, text, lineEnd)) ∧
    ∀ field rest', nextField isBlank rest = some (field, rest') →
      ∃ offset text' cursor', nextToken lineEnd text cursor = (some offset, text', cursor') ∧ cursor ≤ cursor' ∧
        cursor' ≤ lineEnd ∧ TokenAt text' offset field cursor' lineEnd ∧ Left text' cursor' lineEnd rest' ∧
        Kept text text' cursor lineEnd := by
  have hsplit := List.takeWhile_append_dropWhile (p := isBlank) (l := rest)
  have hbody : Left text (cursor + (rest.takeWhile isBlank).length) lineEnd (rest.dropWhile isBlank) := by
    rw [← hsplit] at h
    exact h.append
  have htoken : nextToken lineEnd text cursor =
      if lineEnd ≤ cursor + (rest.takeWhile isBlank).length then (none, text, lineEnd)
      else if cursor + (rest.takeWhile isBlank).length +
          ((rest.dropWhile isBlank).takeWhile fun byte => !isBlank byte).length < lineEnd then
        (some (cursor + (rest.takeWhile isBlank).length), text.set (cursor + (rest.takeWhile isBlank).length +
            ((rest.dropWhile isBlank).takeWhile fun byte => !isBlank byte).length) 0,
          cursor + (rest.takeWhile isBlank).length +
            ((rest.dropWhile isBlank).takeWhile fun byte => !isBlank byte).length + 1)
      else (some (cursor + (rest.takeWhile isBlank).length), text, cursor + (rest.takeWhile isBlank).length +
        ((rest.dropWhile isBlank).takeWhile fun byte => !isBlank byte).length) := by
    simp only [nextToken, h.slice_eq, hbody.slice_eq]
  have hends := hbody.ends
  have hstart : cursor ≤ cursor + (rest.takeWhile isBlank).length := Nat.le_add_right _ _
  unfold nextField
  generalize cursor + (rest.takeWhile isBlank).length = start at *
  generalize rest.dropWhile isBlank = body at *
  constructor
  · intro hnone
    obtain rfl : body = [] := by simpa using hnone
    rw [htoken, if_pos (by simp only [List.length_nil] at hends; omega)]
  · intro field rest' hsome
    simp only [Option.ite_none_left_eq_some, List.isEmpty_iff, Option.some.injEq, Prod.mk.injEq] at hsome
    obtain ⟨hne, hfield, hrest⟩ := hsome
    have hbodySplit := List.takeWhile_append_dropWhile (p := fun byte => !isBlank byte) (l := body)
    rw [hfield] at hbodySplit htoken
    have hpositive := List.length_pos_of_ne_nil hne
    cases hafter : body.dropWhile fun byte => !isBlank byte with
    | nil =>
        -- the field goes up to the end of the line, which has its terminator already
        rw [hafter] at hbodySplit hrest
        rw [List.append_nil] at hbodySplit
        subst hbodySplit
        subst hrest
        rw [if_neg (by omega), if_neg (by omega), hends] at htoken
        have hleft := hbody
        rw [← List.append_nil field] at hleft
        have hnil := hleft.append
        rw [hends] at hnil
        exact ⟨start, text, lineEnd, htoken, by omega, Nat.le_refl _,
          ⟨hbody.string, Or.inr ⟨hends, Nat.le_refl _⟩⟩, hnil, Kept.refl text cursor lineEnd⟩
    | cons byte after =>
        rw [hafter] at hbodySplit hrest
        subst hrest
        rw [← hbodySplit, List.length_append, List.length_cons] at hends
        rw [if_neg (by omega), if_pos (by omega)] at htoken
        rw [← hbodySplit] at hbody
        obtain ⟨htokenAt, hleft⟩ := hbody.set
        exact ⟨start, _, _, htoken, by omega, by omega, htokenAt, hleft, kept_set 0 (by omega) (by omega)⟩

end Strings

/-! ## Tokens and fields -/

/-- The first fields, and none where there are no more. -/
def padded {α : Type*} : Nat → List α → List (Option α)
  | 0, _ => []
  | count + 1, [] => none :: padded count []
  | count + 1, a :: l => some a :: padded count l

section Tokens
variable {text : Bytes} {cursor lineEnd : Nat} {rest : Bytes}

theorem Left.end (h : Left text cursor lineEnd rest) : Left text lineEnd lineEnd [] := by
  have hnil := h
  rw [← List.append_nil rest] at hnil
  have := hnil.append
  rwa [h.ends] at this

/-- **Calls of `NextToken` take the fields one after the other**, and then return no more. -/
theorem nextTokens_spec (count : Nat) (h : Left text cursor lineEnd rest) :
    ∃ tokens text' cursor' rest', nextTokens lineEnd count text cursor = (tokens, text', cursor') ∧ cursor ≤ cursor' ∧
      Kept text text' cursor lineEnd ∧ Left text' cursor' lineEnd rest' ∧
      fields isBlank rest' = (fields isBlank rest).drop count ∧
      List.Forall₂ (Option.Rel fun offset field => TokenAt text' offset field cursor' lineEnd) tokens
        (padded count (fields isBlank rest)) := by
  induction count generalizing text cursor rest with
  | zero => exact ⟨[], text, cursor, rest, rfl, Nat.le_refl _, Kept.refl _ _ _, h, rfl, .nil⟩
  | succ count ih =>
      obtain ⟨hnone, hsome⟩ := nextToken_spec h
      rw [fields_eq rest]
      cases hnext : nextField isBlank rest with
      | none =>
          obtain ⟨tokens, text', cursor', rest', htokens, hle, hkept, hleft, hfields, hrel⟩ := ih h.end
          have hcursor : cursor ≤ lineEnd := by have := h.ends; omega
          refine ⟨none :: tokens, text', cursor', rest', ?_, by omega, (Kept.refl _ _ _).trans hkept hcursor, hleft,
            ?_, ?_⟩
          · rw [nextTokens, hnone hnext]
            simp only [htokens]
          · rw [hfields]
            simp
          · exact .cons .none hrel
      | some found =>
          obtain ⟨field, after⟩ := found
          obtain ⟨offset, text₁, cursor₁, htoken, hle₁, -, htokenAt, hleft₁, hkept₁⟩ := hsome field after hnext
          obtain ⟨tokens, text', cursor', rest', htokens, hle, hkept, hleft, hfields, hrel⟩ := ih hleft₁
          refine ⟨some offset :: tokens, text', cursor', rest', ?_, by omega, hkept₁.trans hkept hle₁, hleft, hfields,
            ?_⟩
          · rw [nextTokens, htoken]
            simp only [htokens]
          · exact .cons (.some (htokenAt.kept hkept hle)) hrel

theorem skipOptional_spec {fuel : Nat} (hfuel : rest.length < fuel) (h : Left text cursor lineEnd rest)
    (propagation : MountPropagation) :
    (splitSeparator ((fields isBlank rest).map cString) = none →
      skipOptional lineEnd fuel text cursor propagation = none) ∧
    ∀ optional after, splitSeparator ((fields isBlank rest).map cString) = some (optional, after) →
      ∃ text' cursor' rest', skipOptional lineEnd fuel text cursor propagation =
          some (optional.foldl addPropagation propagation, text', cursor') ∧ cursor ≤ cursor' ∧
        Kept text text' cursor lineEnd ∧ Left text' cursor' lineEnd rest' ∧
        (fields isBlank rest').map cString = after := by
  induction fuel generalizing text cursor rest propagation with
  | zero => exact absurd hfuel (Nat.not_lt_zero _)
  | succ fuel ih =>
      obtain ⟨hnone, hsome⟩ := nextToken_spec h
      rw [fields_eq rest, skipOptional]
      cases hnext : nextField isBlank rest with
      | none =>
          rw [hnone hnext]
          exact ⟨fun _ => rfl, fun optional after hsplit => by cases hsplit⟩
      | some found =>
          obtain ⟨field, left⟩ := found
          obtain ⟨offset, text₁, cursor₁, htoken, hle₁, -, htokenAt, hleft₁, hkept₁⟩ := hsome field left hnext
          have hlength := length_nextField hnext
          rw [htoken]
          simp only [List.map_cons, splitSeparator, htokenAt.string.stringAt_eq]
          by_cases hseparator : cString field = ascii "-"
          · rw [if_pos hseparator, if_pos hseparator]
            refine ⟨(nomatch ·), fun optional after hsplit => ?_⟩
            obtain ⟨rfl, rfl⟩ := Prod.mk.inj (Option.some.inj hsplit)
            exact ⟨text₁, cursor₁, left, rfl, hle₁, hkept₁, hleft₁, rfl⟩
          · rw [if_neg hseparator, if_neg hseparator]
            obtain ⟨ihnone, ihsome⟩ := ih (by omega) hleft₁ (addPropagation propagation (cString field))
            constructor
            · intro hsplit
              exact ihnone (Option.map_eq_none_iff.mp hsplit)
            · intro optional after hsplit
              obtain ⟨⟨optional', after'⟩, hsplit', heq⟩ := Option.map_eq_some_iff.mp hsplit
              obtain ⟨rfl, rfl⟩ := Prod.mk.inj heq
              obtain ⟨text', cursor', rest', hskip, hle, hkept, hleft, hafter⟩ := ihsome _ _ hsplit'
              exact ⟨text', cursor', rest', hskip, by omega, hkept₁.trans hkept hle₁, hleft, hafter⟩

end Tokens

/-! ## Lines -/

/-- The tokens of an entry are before the end of its line. -/
structure MountInfoSnapshotEntry.Inside (entry : MountInfoSnapshotEntry) (lineEnd : Nat) : Prop where
  root : entry.rootOffset + entry.rootLength ≤ lineEnd
  mountpoint : entry.mountpointOffset + entry.mountpointLength ≤ lineEnd
  filesystem : entry.filesystemOffset + entry.filesystemLength ≤ lineEnd

section Lines
variable {text text' : Bytes} {cursor lineEnd : Nat} {rest : Bytes}

theorem tokenOf_congr {offset length : Nat} (h : ∀ index, index < offset + length → text'[index]? = text[index]?) :
    tokenOf text' offset length = tokenOf text offset length := by
  unfold tokenOf slice
  congr 1
  refine List.ext_getElem? fun index => ?_
  rw [List.getElem?_take, List.getElem?_take]
  split
  · next hindex => exact h index hindex
  · rfl

theorem MountInfoSnapshotEntry.Inside.row_eq {entry : MountInfoSnapshotEntry} (h : entry.Inside cursor)
    (hkept : Kept text text' cursor lineEnd) : entry.row text' = entry.row text := by
  have hsame : ∀ offset length, offset + length ≤ cursor → tokenOf text' offset length = tokenOf text offset length :=
    fun offset length hle => tokenOf_congr fun index hindex =>
      hkept.bytes index (Or.inl (Nat.lt_of_lt_of_le hindex hle))
  rw [MountInfoSnapshotEntry.row, MountInfoSnapshotEntry.row, hsame _ _ h.root, hsame _ _ h.mountpoint,
    hsame _ _ h.filesystem]

theorem TokenAt.tokenOf_eq {offset : Nat} {token : Bytes} (h : TokenAt text offset token cursor lineEnd) :
    tokenOf text offset (cString token).length = cString token := by
  obtain ⟨after, hafter⟩ := h.string
  obtain ⟨behind, hbehind⟩ := List.takeWhile_prefix (fun byte : UInt8 => decide (byte ≠ 0)) (l := token)
  have hsplit : cString token ++ (behind ++ ([0] ++ after)) = token ++ [0] ++ after := by
    rw [← List.append_assoc, List.append_assoc token]
    exact congrArg (· ++ ([0] ++ after)) hbehind
  rw [tokenOf, slice, List.drop_take, Nat.add_sub_cancel_left, ← hafter, ← hsplit, List.take_left]

theorem TokenAt.inside {offset : Nat} {token : Bytes} (h : TokenAt text offset token cursor lineEnd)
    (hcursor : cursor ≤ lineEnd) : offset + (cString token).length ≤ lineEnd := by
  have hsettled := h.settled
  have hle : (cString token).length ≤ token.length :=
    (List.takeWhile_prefix (fun byte : UInt8 => decide (byte ≠ 0)) (l := token)).length_le
  omega

theorem none_mem_padded {α : Type*} {count : Nat} {l : List α} (h : l.length < count) : none ∈ padded count l := by
  induction count generalizing l with
  | zero => exact absurd h (Nat.not_lt_zero _)
  | succ count ih =>
      cases l with
      | nil => exact List.mem_cons_self
      | cons a l => exact List.mem_cons_of_mem _ (ih (Nat.lt_of_succ_lt_succ h))

theorem none_mem_of_forall₂ {α β : Type*} {r : α → β → Prop} {tokens : List (Option α)} {padding : List (Option β)}
    (h : List.Forall₂ (Option.Rel r) tokens padding) (hnone : none ∈ padding) : none ∈ tokens := by
  induction h with
  | nil => cases hnone
  | cons hhead _ ih =>
      rcases List.mem_cons.mp hnone with heq | hnone
      · subst heq
        cases hhead
        exact List.mem_cons_self
      · exact List.mem_cons_of_mem _ (ih hnone)

theorem readFields_of_short {found : List Bytes} (h : found.length < 6) : readFields found = none := by
  unfold readFields
  split
  · simp only [List.length_cons] at h
    omega
  · rfl

theorem parseEntry_of_short (h : Left text cursor lineEnd rest) (hshort : (fields isBlank rest).length < 6) :
    parseEntry text cursor lineEnd = .error .EBADMSG := by
  obtain ⟨tokens, text₁, cursor₁, rest₁, htokens, -, -, -, -, hrel⟩ := nextTokens_spec 6 h
  have hnone := none_mem_of_forall₂ hrel (none_mem_padded hshort)
  rw [parseEntry, htokens]
  split
  · next heq =>
    simp only [Prod.mk.injEq] at heq
    rw [heq.1] at hnone
    simp at hnone
  · rfl

/-- **A line that is parsed in place is read as its fields are.** -/
theorem parseEntry_spec (h : Left text cursor lineEnd rest) :
    (readLine rest = none → parseEntry text cursor lineEnd = .error .EBADMSG) ∧
    ∀ row, readLine rest = some row →
      ∃ entry text', parseEntry text cursor lineEnd = .ok (entry, text') ∧ entry.row text' = row ∧
        entry.Inside lineEnd ∧ Kept text text' cursor lineEnd := by
  rcases Nat.lt_or_ge (fields isBlank rest).length 6 with hshort | hlong
  · rw [readLine, readFields_of_short (by rwa [List.length_map])]
    exact ⟨fun _ => parseEntry_of_short h hshort, fun row hrow => by cases hrow⟩
  obtain ⟨tokens, text₁, cursor₁, rest₁, htokens, hle₁, hkept₁, hleft₁, hfields₁, hrel⟩ := nextTokens_spec 6 h
  obtain ⟨mountId, parentMountId, device, root, mountpoint, options, more, hmore⟩ :
      ∃ mountId parentMountId device root mountpoint options more,
        fields isBlank rest = mountId :: parentMountId :: device :: root :: mountpoint :: options :: more := by
    match fields isBlank rest, hlong with
    | a :: b :: c :: d :: e :: f :: more, _ => exact ⟨a, b, c, d, e, f, more, rfl⟩
  rw [hmore] at hfields₁ hrel
  simp only [padded] at hrel
  obtain _ | ⟨⟨hid⟩, _ | ⟨⟨hparent⟩, _ | ⟨⟨hdevice⟩, _ | ⟨⟨hroot⟩, _ | ⟨⟨hmountpoint⟩, _ | ⟨⟨-⟩, _ | _⟩⟩⟩⟩⟩⟩ := hrel
  have hcursor₁ : rest₁.length < lineEnd + 1 := by
    have := hleft₁.ends
    omega
  obtain ⟨hskipNone, hskipSome⟩ := skipOptional_spec hcursor₁ hleft₁ {}
  have hdrop : fields isBlank rest₁ = more := hfields₁
  rw [hdrop] at hskipNone hskipSome
  rw [readLine, hmore, parseEntry, htokens]
  simp only [List.map_cons, readFields]
  cases hsplit : splitSeparator (more.map cString) with
  | none =>
      rw [hskipNone hsplit]
      exact ⟨fun _ => rfl, fun row hrow => by cases hrow⟩
  | some found =>
      obtain ⟨optional, after⟩ := found
      obtain ⟨text₂, cursor₂, rest₂, hskip, hle₂, hkept₂, hleft₂, hafter⟩ := hskipSome optional after hsplit
      obtain ⟨tokens, text₃, cursor₃, rest₃, htokens₃, hle₃, hkept₃, hleft₃, -, hrel⟩ := nextTokens_spec 3 hleft₂
      simp only [hskip, htokens₃]
      rcases Nat.lt_or_ge (fields isBlank rest₂).length 3 with hshort | hlong
      · have hnone := none_mem_of_forall₂ hrel (none_mem_padded hshort)
        have hread : ∀ filesystem source super others, after ≠ filesystem :: source :: super :: others := by
          rintro filesystem source super others rfl
          have hlength := congrArg List.length hafter
          simp only [List.length_map, List.length_cons] at hlength
          omega
        constructor
        · intro _
          split
          · next heq =>
            rw [Prod.mk.inj heq |>.1] at hnone
            simp at hnone
          · rfl
        · intro row hrow
          split at hrow
          · next heq => exact absurd (Prod.mk.inj (Option.some.inj heq)).2 (hread _ _ _ _)
          · cases hrow
      · obtain ⟨filesystem, source, super, others, hothers⟩ :
            ∃ filesystem source super others, fields isBlank rest₂ = filesystem :: source :: super :: others := by
          match fields isBlank rest₂, hlong with
          | a :: b :: c :: others, _ => exact ⟨a, b, c, others, rfl⟩
        rw [hothers] at hrel hafter
        simp only [padded] at hrel
        obtain _ | ⟨⟨hfilesystem⟩, _ | ⟨⟨-⟩, _ | ⟨⟨-⟩, _ | _⟩⟩⟩ := hrel
        have hcarry : ∀ {offset : Nat} {token : Bytes}, TokenAt text₁ offset token cursor₁ lineEnd →
            TokenAt text₃ offset token cursor₃ lineEnd :=
          fun htoken => (htoken.kept hkept₂ hle₂).kept hkept₃ hle₃
        have hends : cursor₃ ≤ lineEnd := by
          have := hleft₃.ends
          omega
        subst hafter
        simp only [List.map_cons, (hcarry hid).string.stringAt_eq, (hcarry hparent).string.stringAt_eq,
          (hcarry hdevice).string.stringAt_eq, (hcarry hroot).string.stringAt_eq,
          (hcarry hmountpoint).string.stringAt_eq, hfilesystem.string.stringAt_eq]
        cases hcheck : checkEntry (cString mountId) (cString parentMountId) (cString device) (cString root)
            (cString mountpoint) (cString filesystem) with
        | none => exact ⟨fun _ => rfl, fun row hrow => by cases hrow⟩
        | some numbers =>
            refine ⟨(nomatch ·), fun row hrow => ⟨_, text₃, rfl, ?_, ⟨?_, ?_, ?_⟩, ?_⟩⟩
            · obtain rfl := Option.some.inj hrow
              simp only [MountInfoSnapshotEntry.row, (hcarry hroot).tokenOf_eq, (hcarry hmountpoint).tokenOf_eq,
                hfilesystem.tokenOf_eq]
            · exact (hcarry hroot).inside hends
            · exact (hcarry hmountpoint).inside hends
            · exact hfilesystem.inside hends
            · exact (hkept₁.trans hkept₂ hle₁).trans hkept₃ (Nat.le_trans hle₁ hle₂)

theorem Left.kept {start textEnd : Nat} (h : Left text start textEnd rest) (hkept : Kept text text' cursor lineEnd)
    (hle : lineEnd ≤ start) : Left text' start textEnd rest := by
  refine ⟨stringAt_iff.mpr fun index hindex => ?_, h.ends⟩
  rw [hkept.bytes _ (Or.inr (Nat.le_trans hle (Nat.le_add_right _ _)))]
  exact stringAt_iff.mp h.string index hindex

theorem MountInfoSnapshotEntry.Inside.mono {entry : MountInfoSnapshotEntry} (h : entry.Inside cursor)
    (hle : cursor ≤ lineEnd) : entry.Inside lineEnd :=
  ⟨Nat.le_trans h.root hle, Nat.le_trans h.mountpoint hle, Nat.le_trans h.filesystem hle⟩

theorem rows_kept {entries : List MountInfoSnapshotEntry} (hinside : ∀ entry ∈ entries, entry.Inside cursor)
    (hkept : Kept text text' cursor lineEnd) :
    entries.map (MountInfoSnapshotEntry.row text') = entries.map (MountInfoSnapshotEntry.row text) :=
  List.map_congr_left fun entry hentry => (hinside entry hentry).row_eq hkept

/-- What the loop over the lines comes to, against what is read of the lines. -/
def Agrees (parsed : Except Errno (List MountInfoSnapshotEntry × Bytes)) (read : Except Errno (List MountInfoRow)) :
    Prop :=
  parsed.map (fun found => found.1.map (MountInfoSnapshotEntry.row found.2)) = read

theorem agrees_parseEntry {textEnd fuel next : Nat} {line after : Bytes} {entries : List MountInfoSnapshotEntry}
    (hline : Left text cursor lineEnd line) (hafter : Left text next textEnd after) (hle : lineEnd ≤ next)
    (hinside : ∀ entry ∈ entries, entry.Inside cursor)
    (hrest : ∀ text' entries', Left text' next textEnd after → (∀ entry ∈ entries', entry.Inside next) →
      Agrees (parseLines textEnd fuel text' next entries')
        (readLines (fields isNewline after) (entries'.map (MountInfoSnapshotEntry.row text')))) :
    Agrees
      (match parseEntry text cursor lineEnd with
        | .error error => .error error
        | .ok (entry, text') => parseLines textEnd fuel text' next (entries ++ [entry]))
      (match readLine line with
        | none => .error .EBADMSG
        | some row => readLines (fields isNewline after) (entries.map (MountInfoSnapshotEntry.row text) ++ [row])) := by
  obtain ⟨hnone, hsome⟩ := parseEntry_spec hline
  have hcursor : cursor ≤ lineEnd := by
    have := hline.ends
    omega
  cases hread : readLine line with
  | none =>
      rw [hnone hread]
      rfl
  | some row =>
      obtain ⟨entry, text', hparse, hrow, hentry, hkept⟩ := hsome row hread
      rw [hparse]
      have hinside' : ∀ other ∈ entries ++ [entry], other.Inside next := by
        rw [List.forall_mem_append, List.forall_mem_singleton]
        exact ⟨fun other hother => (hinside other hother).mono (Nat.le_trans hcursor hle), hentry.mono hle⟩
      have hagrees := hrest text' (entries ++ [entry]) (hafter.kept hkept hle) hinside'
      rwa [List.map_append, List.map_singleton, rows_kept hinside hkept, hrow] at hagrees

/-- **The lines are read one after the other.** -/
theorem parseLines_spec {textEnd fuel : Nat} (hfuel : rest.length ≤ fuel) (h : Left text cursor textEnd rest)
    {entries : List MountInfoSnapshotEntry} (hinside : ∀ entry ∈ entries, entry.Inside cursor) :
    Agrees (parseLines textEnd fuel text cursor entries)
      (readLines (fields isNewline rest) (entries.map (MountInfoSnapshotEntry.row text))) := by
  induction fuel generalizing text cursor rest entries with
  | zero =>
      obtain rfl := List.length_eq_zero_iff.mp (Nat.le_zero.mp hfuel)
      rfl
  | succ fuel ih =>
      by_cases hnil : rest = []
      · subst hnil
        have hdone : textEnd ≤ cursor := Nat.le_of_eq h.ends.symm
        rw [parseLines, if_pos hdone]
        rfl
      have hends := h.ends
      have hpositive := List.length_pos_of_ne_nil hnil
      have hsplit := List.takeWhile_append_dropWhile (p := fun byte => !isNewline byte) (l := rest)
      have hline : ∀ byte ∈ rest.takeWhile fun byte => !isNewline byte, isNewline byte = false := fun byte hbyte => by
        simpa using List.mem_takeWhile_imp hbyte
      rw [parseLines, if_neg (by omega)]
      simp only [h.slice_eq]
      cases hafter : rest.dropWhile fun byte => !isNewline byte with
      | nil =>
          -- the last line, with nothing behind it
          rw [hafter, List.append_nil] at hsplit
          rw [hsplit] at hline ⊢
          rw [fields_of_forall hnil hline, hends, if_neg (Nat.lt_irrefl _), if_neg (by omega), if_neg (Nat.lt_irrefl _),
            readLines, List.length_map]
          split
          · rfl
          · exact agrees_parseEntry h h.end (Nat.le_refl _) hinside fun text' entries' hleft hinside' =>
              ih (Nat.zero_le _) hleft hinside'
      | cons newline after =>
          rw [hafter] at hsplit
          have hnewline : isNewline newline = true := by
            have hnot := List.head_dropWhile_not (fun byte => !isNewline byte) (l := rest)
              (by rw [hafter]; exact List.cons_ne_nil _ _)
            simpa [hafter] using hnot
          have hlength := congrArg List.length hsplit
          rw [List.length_append, List.length_cons] at hlength
          generalize rest.takeWhile (fun byte => !isNewline byte) = line at *
          have hinner : cursor + line.length < textEnd := by omega
          simp only [if_pos hinner]
          by_cases hempty : line = []
          · subst hempty
            rw [List.nil_append] at hsplit
            simp only [List.length_nil, Nat.add_zero, if_true]
            rw [← hsplit, fields_cons_separator hnewline]
            rw [← hsplit, ← List.singleton_append] at h
            exact ih (by simp at hlength; omega) h.append fun entry hentry => (hinside entry hentry).mono (by omega)
          · have hlineLength := List.length_pos_of_ne_nil hempty
            have hne : cursor ≠ cursor + line.length := by omega
            have hset : Kept text (text.set (cursor + line.length) 0) cursor textEnd :=
              kept_set 0 (Nat.le_add_right _ _) (by omega)
            rw [← hsplit, fields_append_cons hempty hline hnewline, if_neg hne, readLines, List.length_map,
              ← rows_kept hinside hset]
            rw [← hsplit] at h
            obtain ⟨htoken, hleft⟩ := h.set
            split
            · rfl
            · exact agrees_parseEntry ⟨htoken.string, rfl⟩ hleft (Nat.le_succ _) hinside
                fun text' entries' hleft' hinside' => ih (by omega) hleft' hinside'

end Lines

/-- **The snapshot has the rows of the text.** -/
theorem parseSnapshot_rows (text : Bytes) : (parseSnapshot text).map MountInfoSnapshot.rows = readSnapshot text := by
  have hleft : Left (text ++ [0]) 0 text.length text := ⟨List.prefix_refl _, Nat.zero_add _⟩
  have hlines : Agrees (parseLines text.length text.length (text ++ [0]) 0 []) (readLines (fields isNewline text) []) :=
    parseLines_spec (Nat.le_refl _) hleft (List.forall_mem_nil _)
  rw [parseSnapshot, readSnapshot, ← hlines]
  cases hparse : parseLines text.length text.length (text ++ [0]) 0 [] with
  | error error => rfl
  | ok found =>
      obtain ⟨entries, text'⟩ := found
      cases entries with
      | nil => rfl
      | cons entry entries => rfl

end PathGuard.Native
