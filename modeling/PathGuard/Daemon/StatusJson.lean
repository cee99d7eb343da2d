import PathGuard.Daemon.Status
import PathGuard.Lib.Json

/-!
# Reading the control status as JSON

What a JSON reader makes of `RenderControlStatusJson` of `daemon/src/rules_control.cpp`. `JsonEscape` escapes the
backslash, the quote and the line feed, drops the carriage return and leaves every other control byte as it is, where no
JSON string may hold one. `EscapeJson` of `rules/src/diagnostic.cpp` has an escape for each of them.

* `readString_escapeJson` : `EscapeJson` loses nothing;
* `parse_renderControlStatusJson` : what the status is read as, when it is read;
* `isJson_renderControlStatusJson_iff` : when it is JSON that stands for the status.
-/

namespace PathGuard.Control

open Json (Member Value backslash membersText quote)

def carriageReturn : UInt8 := 0x0d

/-- `EscapeJson` for one byte. -/
def escapeJsonByte (byte : UInt8) : Bytes :=
  if byte = quote then ascii "\\\""
  else if byte = backslash then ascii "\\\\"
  else if byte = 0x08 then ascii "\\b"
  else if byte = 0x0c then ascii "\\f"
  else if byte = newline then ascii "\\n"
  else if byte = carriageReturn then ascii "\\r"
  else if byte = 0x09 then ascii "\\t"
  else if byte < 0x20 then
    ascii "\\u00" ++ [(ascii "0123456789abcdef").getD (byte.toNat >>> 4) 0,
      (ascii "0123456789abcdef").getD (byte.toNat &&& 0x0f) 0]
  else [byte]

def escapeJson (value : Bytes) : Bytes := value.flatMap escapeJsonByte

theorem hexValue_getD {digit : Nat} (h : digit < 16) :
    Json.hexValue ((ascii "0123456789abcdef").getD digit 0) = some digit := by
  revert digit
  decide

theorem readUnicode_control {byte : UInt8} (h : byte < 0x20) (rest : Bytes) :
    Json.readUnicode (0x30 :: 0x30 :: (ascii "0123456789abcdef").getD (byte.toNat >>> 4) 0 ::
      (ascii "0123456789abcdef").getD (byte.toNat &&& 0x0f) 0 :: rest) = some ([byte], rest) := by
  have hlt : byte.toNat < 0x20 := UInt8.lt_iff_toNat_lt.mp h
  have hhigh : byte.toNat >>> 4 = byte.toNat / 16 := Nat.shiftRight_eq_div_pow _ 4
  have hlow : byte.toNat &&& 0x0f = byte.toNat % 16 := Nat.and_two_pow_sub_one_eq_mod _ 4
  have hunit : ((0 * 16 + 0) * 16 + byte.toNat / 16) * 16 + byte.toNat % 16 = byte.toNat := by omega
  have hzero : Json.hexValue 0x30 = some 0 := rfl
  have hread : Json.readHex (0x30 :: 0x30 :: (ascii "0123456789abcdef").getD (byte.toNat >>> 4) 0 ::
      (ascii "0123456789abcdef").getD (byte.toNat &&& 0x0f) 0 :: rest) = some (byte.toNat, rest) := by
    rw [Json.readHex, hhigh, hlow, hexValue_getD (show byte.toNat / 16 < 16 by omega),
      hexValue_getD (Nat.mod_lt _ (by decide)), hzero]
    exact congrArg (fun unit => some (unit, rest)) hunit
  have hfirst : (decide (byte.toNat < 0xd800) || decide (0xe000 ≤ byte.toNat)) = true := by
    rw [Bool.or_eq_true, decide_eq_true_eq]
    exact Or.inl (by omega)
  rw [Json.readUnicode, hread, Option.bind_eq_bind, Option.bind_some]
  dsimp only
  rw [if_pos hfirst, utf8EncodeChar_ofNat (UInt8.lt_trans h (by decide))]
  rfl

theorem readString_escapeJsonByte (byte : UInt8) (fuel : Nat) (rest : Bytes) :
    Json.readString (fuel + 1) (escapeJsonByte byte ++ rest) =
      (Json.readString fuel rest).map fun read => (byte :: read.1, read.2) := by
  have hescape : ∀ {sign : UInt8} {after : Bytes}, Json.readEscape (sign :: after) = some ([byte], rest) →
      Json.readString (fuel + 1) (backslash :: sign :: after) =
        (Json.readString fuel rest).map fun read => (byte :: read.1, read.2) :=
    fun hread => Json.readString_escape hread fuel
  unfold escapeJsonByte
  split
  next hquote =>
    subst hquote
    exact hescape rfl
  next hquote =>
  split
  next hbackslash =>
    subst hbackslash
    exact hescape rfl
  next hbackslash =>
  split
  next hback =>
    subst hback
    exact hescape rfl
  next =>
  split
  next hfeed =>
    subst hfeed
    exact hescape rfl
  next =>
  split
  next hnewline =>
    subst hnewline
    exact hescape rfl
  next =>
  split
  next hreturn =>
    subst hreturn
    exact hescape rfl
  next =>
  split
  next htab =>
    subst htab
    exact hescape rfl
  next =>
  split
  next hcontrol => exact hescape (readUnicode_control hcontrol rest)
  next hcontrol => exact Json.readString_plain ⟨UInt8.not_lt.mp hcontrol, hquote, hbackslash⟩ fuel rest

/-- **`EscapeJson` loses nothing**: a JSON reader gets every string back. -/
theorem readString_escapeJson {value : Bytes} {fuel : Nat} (hfuel : value.length < fuel) (rest : Bytes) :
    Json.readString fuel (escapeJson value ++ quote :: rest) = some (value, rest) := by
  induction value generalizing fuel with
  | nil =>
      obtain ⟨fuel, rfl⟩ := Nat.exists_eq_add_of_lt hfuel
      exact Json.readString_quote _ rest
  | cons byte value ih =>
      obtain ⟨fuel, rfl⟩ := Nat.exists_eq_add_of_lt (Nat.zero_lt_of_lt hfuel)
      rw [Nat.zero_add] at hfuel ⊢
      rw [escapeJson, List.flatMap_cons, List.append_assoc, readString_escapeJsonByte]
      rw [show value.flatMap escapeJsonByte = escapeJson value from rfl, ih (Nat.lt_of_succ_lt_succ hfuel)]
      rfl

/-! ## Escaped strings -/

/-- What a JSON reader makes of an escaped string. -/
def unescaped : Bytes → Option Bytes
  | [] => some []
  | value :: input =>
      if value = carriageReturn then unescaped input
      else if value < 0x20 ∧ value ≠ newline then none
      else (unescaped input).map (value :: ·)

theorem jsonEscape_return (input : Bytes) : jsonEscape (carriageReturn :: input) = jsonEscape input := rfl

theorem jsonEscape_newline (input : Bytes) :
    jsonEscape (newline :: input) = backslash :: 0x6e :: jsonEscape input := rfl

theorem jsonEscape_special {value : UInt8} (h : value = backslash ∨ value = quote) (input : Bytes) :
    jsonEscape (value :: input) = backslash :: value :: jsonEscape input := by
  rcases h with rfl | rfl <;> rfl

theorem jsonEscape_other {value : UInt8} (hspecial : ¬ (value = backslash ∨ value = quote)) (hnewline : value ≠ newline)
    (hreturn : value ≠ carriageReturn) (input : Bytes) : jsonEscape (value :: input) = value :: jsonEscape input := by
  have hescape : (if value = 0x5c || value = 0x22 then [0x5c] else ([] : Bytes)) = [] := by
    rw [if_neg]
    simpa [backslash, quote] using hspecial
  rw [jsonEscape, List.flatMap_cons, hescape, if_neg hnewline, if_neg (show ¬ value = 0x0d from hreturn)]
  rfl

/-- An escaped string, read to the quote behind it: one case for each kind of byte. -/
theorem readString_jsonEscape {input : Bytes} {fuel : Nat} (hfuel : (jsonEscape input).length < fuel) (rest : Bytes) :
    Json.readString fuel (jsonEscape input ++ quote :: rest) = (unescaped input).map fun text => (text, rest) := by
  induction input generalizing fuel with
  | nil =>
      obtain ⟨fuel, rfl⟩ := Nat.exists_eq_add_of_lt hfuel
      exact Json.readString_quote _ rest
  | cons value input ih =>
      obtain ⟨fuel, rfl⟩ := Nat.exists_eq_add_of_lt (Nat.zero_lt_of_lt hfuel)
      rw [Nat.zero_add] at hfuel ⊢
      rw [unescaped]
      by_cases hreturn : value = carriageReturn
      · rw [hreturn, jsonEscape_return] at hfuel ⊢
        rw [if_pos rfl]
        exact ih hfuel
      rw [if_neg hreturn]
      by_cases hnewline : value = newline
      · rw [hnewline, jsonEscape_newline] at hfuel ⊢
        have hescape : Json.readEscape (0x6e :: (jsonEscape input ++ quote :: rest)) =
            some ([newline], jsonEscape input ++ quote :: rest) := rfl
        rw [if_neg (by simp), List.cons_append, List.cons_append, Json.readString_escape hescape,
          ih (by simp only [List.length_cons] at hfuel; omega)]
        cases unescaped input <;> rfl
      by_cases hspecial : value = backslash ∨ value = quote
      · have hplain : ¬ (value < 0x20 ∧ value ≠ newline) := by
          rcases hspecial with rfl | rfl <;> decide
        have hescape : Json.readEscape (value :: (jsonEscape input ++ quote :: rest)) =
            some ([value], jsonEscape input ++ quote :: rest) := by
          rcases hspecial with rfl | rfl <;> rfl
        rw [jsonEscape_special hspecial] at hfuel ⊢
        rw [if_neg hplain, List.cons_append, List.cons_append, Json.readString_escape hescape,
          ih (by simp only [List.length_cons] at hfuel; omega)]
        cases unescaped input <;> rfl
      rw [jsonEscape_other hspecial hnewline hreturn] at hfuel ⊢
      by_cases hcontrol : value < 0x20
      · -- the byte stands in the string as it is
        rw [if_pos ⟨hcontrol, hnewline⟩, List.cons_append]
        exact Json.readString_control hcontrol fuel _
      · have hplain : Json.IsPlain value :=
          ⟨UInt8.not_lt.mp hcontrol, fun heq => hspecial (Or.inr heq), fun heq => hspecial (Or.inl heq)⟩
        rw [if_neg (fun h => hcontrol h.1), List.cons_append, Json.readString_plain hplain,
          ih (by simp only [List.length_cons] at hfuel; omega)]
        cases unescaped input <;> rfl

theorem length_unescaped_le {input text : Bytes} (h : unescaped input = some text) : text.length ≤ input.length := by
  induction input generalizing text with
  | nil =>
      cases h
      exact Nat.le_refl _
  | cons value input ih =>
      rw [unescaped] at h
      split_ifs at h
      · exact Nat.le_succ_of_le (ih h)
      · obtain ⟨rest, hrest, rfl⟩ := Option.map_eq_some_iff.mp h
        exact Nat.succ_le_succ (ih hrest)

/-- A string comes back as it was when it has no control byte but line feeds. -/
theorem unescaped_eq_self_iff {input : Bytes} :
    unescaped input = some input ↔ ∀ value ∈ input, value < 0x20 → value = newline := by
  induction input with
  | nil => simp [unescaped]
  | cons value input ih =>
      rw [unescaped, List.forall_mem_cons]
      by_cases hreturn : value = carriageReturn
      · rw [if_pos hreturn]
        constructor
        · intro h
          exact absurd (length_unescaped_le h) (Nat.not_succ_le_self _)
        · rintro ⟨h, -⟩
          rw [hreturn] at h
          exact absurd (h (by decide)) (by decide)
      rw [if_neg hreturn]
      by_cases hcontrol : value < 0x20 ∧ value ≠ newline
      · rw [if_pos hcontrol]
        constructor
        · intro h
          cases h
        · intro h
          exact absurd (h.1 hcontrol.1) hcontrol.2
      · have hvalue : value < 0x20 → value = newline := fun h => not_not.mp fun hne => hcontrol ⟨h, hne⟩
        rw [if_neg hcontrol, ← ih, and_iff_right hvalue]
        simp

/-! ## The members -/

def stringMember (key : String) (value : Bytes) (hkey : Json.IsPlainText (ascii key)) : Member where
  key := ascii key
  text := quote :: (jsonEscape value ++ [quote])
  value := (unescaped value).map Value.string
  plain := hkey
  reads := Json.readsAs_string fun rest => readString_jsonEscape
    (show (jsonEscape value).length < _ by rw [List.length_append]; omega) rest

theorem readsAs_decimal (value : UInt64) : Json.ReadsAs (decimal value) (some (.number value.toNat 0)) := by
  obtain ⟨hne, hdigits, hvalue⟩ := decimalBytes_digits value.toNat
  have hread := Json.readsAs_number hne hdigits fun hhead => by
    by_cases hzero : value.toNat = 0
    · rw [hzero]
      rfl
    · exact absurd hhead (decimalBytes_head hzero)
  rw [show decimalValue (decimalBytes value.toNat) = value.toNat from hvalue] at hread
  exact hread

def numberMember (key : String) (value : UInt64) (hkey : Json.IsPlainText (ascii key)) : Member where
  key := ascii key
  text := decimal value
  value := some (.number value.toNat 0)
  plain := hkey
  reads := readsAs_decimal value

theorem stringMember_write {key : String} (value : Bytes) (hkey : Json.IsPlainText (ascii key)) :
    (stringMember key value hkey).write =
      quote :: (ascii key ++ quote :: Json.colon :: quote :: (jsonEscape value ++ [quote])) := rfl

theorem numberMember_write {key : String} (value : UInt64) (hkey : Json.IsPlainText (ascii key)) :
    (numberMember key value hkey).write = quote :: (ascii key ++ quote :: Json.colon :: decimal value) := rfl

def statusMembers (state : ControlState) : List Member := [
  stringMember "source" (ascii "rules.toml") (by decide),
  stringMember "source_digest" state.sourceDigest (by decide),
  numberMember "candidate_sequence" state.candidateSequence (by decide),
  numberMember "active_content_generation" state.activeContentGeneration (by decide),
  numberMember "deployment_epoch" state.deploymentEpoch (by decide),
  numberMember "capability_generation" state.capabilityGeneration (by decide),
  numberMember "topology_generation" state.topologyGeneration (by decide),
  stringMember "status" (ascii (statusName state.status)) (by decide),
  stringMember "error_code" state.errorCode (by decide),
  stringMember "message" state.message (by decide)]

/-- The object that a status is meant to be read as. -/
def statusObject (state : ControlState) : Value := .object [
  (ascii "source", .string (ascii "rules.toml")),
  (ascii "source_digest", .string state.sourceDigest),
  (ascii "candidate_sequence", .number state.candidateSequence.toNat 0),
  (ascii "active_content_generation", .number state.activeContentGeneration.toNat 0),
  (ascii "deployment_epoch", .number state.deploymentEpoch.toNat 0),
  (ascii "capability_generation", .number state.capabilityGeneration.toNat 0),
  (ascii "topology_generation", .number state.topologyGeneration.toNat 0),
  (ascii "status", .string (ascii (statusName state.status))),
  (ascii "error_code", .string state.errorCode),
  (ascii "message", .string state.message)]

theorem statusObject_strings {first second : ControlState} (h : statusObject first = statusObject second) :
    first.sourceDigest = second.sourceDigest ∧ first.errorCode = second.errorCode ∧
      first.message = second.message := by
  simp only [statusObject, Value.object.injEq, List.cons.injEq, Prod.mk.injEq, Value.string.injEq, true_and] at h
  exact ⟨h.1, h.2.2.2.2.2.2.2.1, h.2.2.2.2.2.2.2.2.1⟩

theorem renderControlStatusJson_eq (state : ControlState) :
    renderControlStatusJson state = Json.openBrace :: membersText (statusMembers state) ++ [newline] := by
  have hstatus : jsonEscape (ascii (statusName state.status)) = ascii (statusName state.status) := by
    cases state.status <;> rfl
  have hsource : ascii "\x7b\"source\":\"rules.toml\",\"source_digest\":\"" =
      Json.openBrace :: quote :: (ascii "source" ++ quote :: Json.colon :: quote :: (jsonEscape (ascii "rules.toml") ++
        quote :: Json.comma :: quote :: (ascii "source_digest" ++ [quote, Json.colon, quote]))) := rfl
  have hcandidate : ascii "\",\"candidate_sequence\":" =
      quote :: Json.comma :: quote :: (ascii "candidate_sequence" ++ [quote, Json.colon]) := rfl
  have hcontent : ascii ",\"active_content_generation\":" =
      Json.comma :: quote :: (ascii "active_content_generation" ++ [quote, Json.colon]) := rfl
  have hepoch : ascii ",\"deployment_epoch\":" =
      Json.comma :: quote :: (ascii "deployment_epoch" ++ [quote, Json.colon]) := rfl
  have hcapability : ascii ",\"capability_generation\":" =
      Json.comma :: quote :: (ascii "capability_generation" ++ [quote, Json.colon]) := rfl
  have htopology : ascii ",\"topology_generation\":" =
      Json.comma :: quote :: (ascii "topology_generation" ++ [quote, Json.colon]) := rfl
  have hname : ascii ",\"status\":\"" = Json.comma :: quote :: (ascii "status" ++ [quote, Json.colon, quote]) := rfl
  have hcode : ascii "\",\"error_code\":\"" =
      quote :: Json.comma :: quote :: (ascii "error_code" ++ [quote, Json.colon, quote]) := rfl
  have hmessage : ascii "\",\"message\":\"" =
      quote :: Json.comma :: quote :: (ascii "message" ++ [quote, Json.colon, quote]) := rfl
  have hend : ascii "\"\x7d\n" = [quote, Json.closeBrace, newline] := rfl
  unfold renderControlStatusJson
  simp only [statusMembers, membersText, stringMember_write, numberMember_write, hstatus,
    hsource, hcandidate, hcontent, hepoch, hcapability, htopology, hname, hcode, hmessage, hend, List.append_assoc,
    List.cons_append, List.nil_append]

theorem parse_renderControlStatusJson (state : ControlState) :
    Json.parse (renderControlStatusJson state) = (do
      let digest ← unescaped state.sourceDigest
      let code ← unescaped state.errorCode
      let message ← unescaped state.message
      return statusObject { state with sourceDigest := digest, errorCode := code, message := message }) := by
  have hsource : unescaped (ascii "rules.toml") = some (ascii "rules.toml") := rfl
  have hstatus : unescaped (ascii (statusName state.status)) = some (ascii (statusName state.status)) := by
    cases state.status <;> rfl
  rw [renderControlStatusJson_eq]
  refine (Json.parse_object (List.cons_ne_nil _ _) (List.forall_mem_singleton.mpr rfl)).trans ?_
  simp only [List.mapM_cons, List.mapM_nil, Member.read, stringMember, numberMember, hsource, hstatus]
  cases unescaped state.sourceDigest with
  | none => rfl
  | some digest =>
      cases unescaped state.errorCode with
      | none => rfl
      | some code => cases unescaped state.message <;> rfl

theorem isAscii_decimal (value : UInt64) : IsAscii (decimal value) := by
  intro byte hbyte
  have hdigit := (decimalBytes_digits value.toNat).2.1 byte hbyte
  rw [isDigit, Bool.and_eq_true, decide_eq_true_eq, decide_eq_true_eq] at hdigit
  exact UInt8.lt_of_le_of_lt hdigit.2 (by decide)

theorem validUtf8_jsonEscape {input : Bytes} (h : ValidUtf8 input) : ValidUtf8 (jsonEscape input) := by
  apply h.flatMap
  · intro value hvalue byte hbyte
    have hkinds : byte = 0x5c ∨ byte ∈ ascii "\\n" ∨ byte = value := by
      rw [List.mem_append] at hbyte
      rcases hbyte with hbyte | hbyte
      · split_ifs at hbyte
        · exact Or.inl (List.mem_singleton.mp hbyte)
        · exact absurd hbyte List.not_mem_nil
      · split_ifs at hbyte
        · exact Or.inr (Or.inl hbyte)
        · exact absurd hbyte List.not_mem_nil
        · exact Or.inr (Or.inr (List.mem_singleton.mp hbyte))
    rcases hkinds with rfl | hbyte | rfl
    · decide
    · exact (show IsAscii (ascii "\\n") by decide) byte hbyte
    · exact hvalue
  · intro value hvalue
    have hne : ∀ other < (0x80 : UInt8), value ≠ other := by
      rintro other hother rfl
      exact UInt8.lt_irrefl _ (UInt8.lt_of_lt_of_le hother hvalue)
    simp [hne 0x5c (by decide), hne 0x22 (by decide), hne newline (by decide), hne 0x0d (by decide)]

theorem validUtf8_renderControlStatusJson {state : ControlState} (hdigest : ValidUtf8 state.sourceDigest)
    (hcode : ValidUtf8 state.errorCode) (hmessage : ValidUtf8 state.message) :
    ValidUtf8 (renderControlStatusJson state) := by
  have hdecimal : ∀ value, ValidUtf8 (decimal value) := fun value => validUtf8_of_ascii (isAscii_decimal value)
  have hstatus : ValidUtf8 (ascii (statusName state.status)) :=
    validUtf8_of_ascii (by cases state.status <;> decide)
  unfold renderControlStatusJson
  repeat' apply ValidUtf8.append
  -- the literals and what stands between them, from left to right
  · exact validUtf8_of_ascii (by decide)
  · exact validUtf8_jsonEscape hdigest
  · exact validUtf8_of_ascii (by decide)
  · exact hdecimal _
  · exact validUtf8_of_ascii (by decide)
  · exact hdecimal _
  · exact validUtf8_of_ascii (by decide)
  · exact hdecimal _
  · exact validUtf8_of_ascii (by decide)
  · exact hdecimal _
  · exact validUtf8_of_ascii (by decide)
  · exact hdecimal _
  · exact validUtf8_of_ascii (by decide)
  · exact hstatus
  · exact validUtf8_of_ascii (by decide)
  · exact validUtf8_jsonEscape hcode
  · exact validUtf8_of_ascii (by decide)
  · exact validUtf8_jsonEscape hmessage
  · exact validUtf8_of_ascii (by decide)

/-- **The rendering of a status is read back as the status** exactly when no string of it has a control byte other than
line feeds. -/
theorem isJson_renderControlStatusJson_iff {state : ControlState} (hdigest : ValidUtf8 state.sourceDigest)
    (hcode : ValidUtf8 state.errorCode) (hmessage : ValidUtf8 state.message) :
    Json.IsJson (renderControlStatusJson state) (statusObject state) ↔
      ∀ byte ∈ state.sourceDigest ++ state.errorCode ++ state.message, byte < 0x20 → byte = newline := by
  simp only [List.forall_mem_append, ← unescaped_eq_self_iff]
  constructor
  · rintro ⟨-, hparse⟩
    rw [parse_renderControlStatusJson] at hparse
    obtain ⟨digest, hdigestRead, hparse⟩ := Option.bind_eq_some_iff.mp hparse
    obtain ⟨code, hcodeRead, hparse⟩ := Option.bind_eq_some_iff.mp hparse
    obtain ⟨message, hmessageRead, hparse⟩ := Option.bind_eq_some_iff.mp hparse
    obtain ⟨hdigestEq, hcodeEq, hmessageEq⟩ := statusObject_strings (Option.some.inj hparse)
    exact ⟨⟨hdigestRead.trans (congrArg some hdigestEq), hcodeRead.trans (congrArg some hcodeEq)⟩,
      hmessageRead.trans (congrArg some hmessageEq)⟩
  · rintro ⟨⟨hdigestRead, hcodeRead⟩, hmessageRead⟩
    refine ⟨validUtf8_renderControlStatusJson hdigest hcode hmessage, ?_⟩
    rw [parse_renderControlStatusJson, hdigestRead, hcodeRead, hmessageRead]
    rfl

/-- The status after a rules file with the header `[apps."a\tb"]`, whose key holds a tab. -/
def tabKeyStatus : ControlState where
  sourceDigest := ascii "c453d73d135fef33824deb6bcdedf3c24b185c869b514d8274379ca6db5c0c3c"
  candidateSequence := 1
  errorCode := ascii "PG-RULE-INVALID-VALUE"
  message := ascii "rules.toml:3:7: error[PG-RULE-INVALID-VALUE] rules.package_invalid (/apps/a\tb)" ++
    ascii "; new configuration was not activated; previous policy remains active"

theorem renderControlStatusJson_tabKey :
    ValidUtf8 tabKeyStatus.sourceDigest ∧ ValidUtf8 tabKeyStatus.errorCode ∧ ValidUtf8 tabKeyStatus.message ∧
      ∀ value, ¬ Json.IsJson (renderControlStatusJson tabKeyStatus) value := by
  refine ⟨validUtf8_of_ascii (by decide +kernel), validUtf8_of_ascii (by decide +kernel),
    validUtf8_of_ascii (by decide +kernel), ?_⟩
  intro value h
  have hdigest : unescaped tabKeyStatus.sourceDigest = some tabKeyStatus.sourceDigest := by decide +kernel
  have hcode : unescaped tabKeyStatus.errorCode = some tabKeyStatus.errorCode := by decide +kernel
  have hmessage : unescaped tabKeyStatus.message = none := by decide +kernel
  have hparse := h.parse_eq
  rw [parse_renderControlStatusJson, hdigest, hcode, hmessage] at hparse
  cases hparse

/-- The status after the header `[apps."ü\"\n"]`: a letter beyond ASCII, a quote and a line feed. -/
def quotedKeyStatus : ControlState where
  candidateSequence := 2
  errorCode := ascii "PG-RULE-INVALID-VALUE"
  message := utf8 "rules.toml:3:7: error[PG-RULE-INVALID-VALUE] rules.package_invalid (/apps/ü\"\n)".toList ++
    ascii "; new configuration was not activated; previous policy remains active"

theorem isJson_renderControlStatusJson_quotedKey :
    Json.IsJson (renderControlStatusJson quotedKeyStatus) (statusObject quotedKeyStatus) :=
  (isJson_renderControlStatusJson_iff ⟨[], rfl⟩ (validUtf8_of_ascii (by decide))
    (ValidUtf8.append ⟨_, rfl⟩ (validUtf8_of_ascii (by decide)))).mpr (by decide +kernel)

end PathGuard.Control
