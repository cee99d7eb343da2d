import PathGuard.Daemon.Publisher
import PathGuard.Lib.Text
import PathGuard.Rules.CompiledPolicy

/-!
# The control status

The state of the reconciler and the two status files it is rendered to, with the reading back of single numbers
(`RenderControlStatusText`, `RenderControlStatusJson`, `ReadStatusNumber` of `daemon/src/rules_control.cpp`). A number
is looked up by its first occurrence in the text, so what stands above it must not hold its name: the digest could.

* `readStatusNumber_rendered` : the numbers of a rendered status are read back.
-/

namespace PathGuard.Control

inductive ControlStatus
  | active
  | sourceInvalid
  | environmentUnsupported
  | publishFailed
  deriving DecidableEq, Repr

structure ControlState where
  sourceDigest : Bytes := []
  candidateSequence : UInt64 := 0
  activeContentGeneration : UInt64 := 0
  deploymentEpoch : UInt64 := 0
  capabilityGeneration : UInt64 := 0
  topologyGeneration : UInt64 := 0
  status : ControlStatus := .sourceInvalid
  errorCode : Bytes := []
  message : Bytes := []
  deriving DecidableEq, Repr

def statusName : ControlStatus → String
  | .active => "active"
  | .sourceInvalid => "source_invalid"
  | .environmentUnsupported => "environment_unsupported"
  | .publishFailed => "publish_failed"

/-- `std::to_string` of a 64-bit number. -/
def decimal (value : UInt64) : Bytes := decimalBytes value.toNat

def newline : UInt8 := 0x0a

/-- One line of the status text. -/
def statusLine (key : String) (value : Bytes) : Bytes := ascii key ++ ascii ": " ++ value

def renderControlStatusText (state : ControlState) : Bytes :=
  statusLine "source" (ascii "rules.toml") ++ newline ::
    (statusLine "source_digest" state.sourceDigest ++ newline ::
    (statusLine "candidate_sequence" (decimal state.candidateSequence) ++ newline ::
    (statusLine "active_content_generation" (decimal state.activeContentGeneration) ++ newline ::
    (statusLine "deployment_epoch" (decimal state.deploymentEpoch) ++ newline ::
    (statusLine "capability_generation" (decimal state.capabilityGeneration) ++ newline ::
    (statusLine "topology_generation" (decimal state.topologyGeneration) ++ newline ::
    (statusLine "status" (ascii (statusName state.status)) ++ newline ::
    (statusLine "error_code" state.errorCode ++ newline ::
    (statusLine "message" state.message ++ [newline])))))))))

def jsonEscape (input : Bytes) : Bytes :=
  input.flatMap fun value =>
    (if value = 0x5c || value = 0x22 then [0x5c] else []) ++
      (if value = newline then ascii "\\n" else if value = 0x0d then [] else [value])

def renderControlStatusJson (state : ControlState) : Bytes :=
  ascii "\x7b\"source\":\"rules.toml\",\"source_digest\":\"" ++ jsonEscape state.sourceDigest ++
    ascii "\",\"candidate_sequence\":" ++ decimal state.candidateSequence ++
    ascii ",\"active_content_generation\":" ++ decimal state.activeContentGeneration ++
    ascii ",\"deployment_epoch\":" ++ decimal state.deploymentEpoch ++
    ascii ",\"capability_generation\":" ++ decimal state.capabilityGeneration ++
    ascii ",\"topology_generation\":" ++ decimal state.topologyGeneration ++
    ascii ",\"status\":\"" ++ ascii (statusName state.status) ++
    ascii "\",\"error_code\":\"" ++ jsonEscape state.errorCode ++
    ascii "\",\"message\":\"" ++ jsonEscape state.message ++ ascii "\"\x7d\n"

/-- `AtomicWriteText` where every step succeeds. -/
def atomicWriteText (directory : RunDirectory) (path temporary : RunFile) (bytes : Bytes) : RunDirectory :=
  (directory.write temporary bytes).rename temporary path

/-- `WriteControlStatus` where both writes succeed. -/
def writeControlStatus (directory : RunDirectory) (state : ControlState) (suffix : Nat) : RunDirectory :=
  atomicWriteText
    (atomicWriteText directory .statusText (.textTemporary suffix) (renderControlStatusText state))
    .statusJson (.jsonTemporary suffix) (renderControlStatusJson state)

/-- `std::from_chars` into a `uint64_t` that must take the whole string; 0 where it does not. -/
def fromCharsUint64 (text : Bytes) : UInt64 :=
  if text.isEmpty || !text.all isDigit then 0
  else if decimalValue text < 2 ^ 64 then UInt64.ofNat (decimalValue text)
  else 0

def readStatusNumber (file : Option Bytes) (key : String) : UInt64 :=
  match file with
  | none => 0
  | some text =>
      match findFirst (statusLine key []) text with
      | none => 0
      | some first =>
          fromCharsUint64 ((text.drop (first + (statusLine key []).length)).takeWhile (· ≠ newline))

/-! ## Reading back -/

theorem fromCharsUint64_decimal (value : UInt64) : fromCharsUint64 (decimal value) = value := by
  obtain ⟨hne, hdigits, hvalue⟩ := decimalBytes_digits value.toNat
  have hempty : (decimal value).isEmpty = false := by simpa [decimal] using hne
  have hall : (decimal value).all isDigit = true := List.all_eq_true.mpr hdigits
  have hdecimal : decimalValue (decimal value) = value.toNat := hvalue
  rw [fromCharsUint64, hempty, hall, if_neg (by decide), hdecimal, if_pos (UInt64.toNat_lt value)]
  exact UInt64.ofNat_toNat

theorem not_mem_decimal {byte : UInt8} (h : isDigit byte = false) (value : UInt64) : byte ∉ decimal value :=
  not_mem_decimalBytes h value.toNat

theorem readStatusNumber_skip {key : String} {line : Bytes} (byte : UInt8) (rest : Bytes)
    (hnewline : newline ∉ statusLine key []) (hbyte : byte ∈ statusLine key []) (hline : byte ∉ line) :
    readStatusNumber (some (line ++ newline :: rest)) key = readStatusNumber (some rest) key := by
  unfold readStatusNumber
  simp only [findFirst_line hnewline hbyte hline]
  cases findFirst (statusLine key []) rest with
  | none => rfl
  | some first =>
      have hdrop : (line ++ newline :: rest).drop (first + (line.length + 1) + (statusLine key []).length) =
          rest.drop (first + (statusLine key []).length) := by
        rw [show first + (line.length + 1) + (statusLine key []).length =
          line.length + ((first + (statusLine key []).length) + 1) by omega, ← List.drop_drop, List.drop_left,
          List.drop_succ_cons]
      simp only [Option.map_some, hdrop]

theorem readStatusNumber_line (key : String) (value : UInt64) (rest : Bytes) :
    readStatusNumber (some (statusLine key (decimal value) ++ newline :: rest)) key = value := by
  have hline : statusLine key (decimal value) ++ newline :: rest =
      statusLine key [] ++ (decimal value ++ newline :: rest) := by simp [statusLine]
  have htake : (decimal value ++ newline :: rest).takeWhile (· ≠ newline) = decimal value := by
    rw [List.takeWhile_append_of_pos]
    · simp
    · intro byte hbyte
      rw [decide_eq_true_eq]
      rintro rfl
      exact not_mem_decimal (by decide) value hbyte
  rw [hline]
  simp only [readStatusNumber, findFirst_append_self, Nat.zero_add, List.drop_left, htake, fromCharsUint64_decimal]

theorem not_mem_statusLine {byte : UInt8} {key : String} {value : Bytes} (hkey : byte ∉ statusLine key [])
    (hvalue : byte ∉ value) : byte ∉ statusLine key value := by
  simp only [statusLine, List.append_nil, List.mem_append, not_or] at hkey ⊢
  exact ⟨hkey, hvalue⟩

/-- **The status text keeps the generation and the epoch**, as long as the digest holds no letter of their keys that no
digest has. -/
theorem readStatusNumber_rendered (state : ControlState) (hv : 0x76 ∉ state.sourceDigest)
    (hy : 0x79 ∉ state.sourceDigest) :
    readStatusNumber (some (renderControlStatusText state)) "active_content_generation" =
        state.activeContentGeneration ∧
      readStatusNumber (some (renderControlStatusText state)) "deployment_epoch" = state.deploymentEpoch := by
  constructor
  · -- no line above the generation has a `v`
    unfold renderControlStatusText
    rw [readStatusNumber_skip 0x76 _ (by decide) (by decide) (by decide),
      readStatusNumber_skip 0x76 _ (by decide) (by decide) (not_mem_statusLine (by decide) hv),
      readStatusNumber_skip 0x76 _ (by decide) (by decide)
        (not_mem_statusLine (by decide) (not_mem_decimal (by decide) _)),
      readStatusNumber_line]
  · -- and none above the epoch a `y`
    unfold renderControlStatusText
    rw [readStatusNumber_skip 0x79 _ (by decide) (by decide) (by decide),
      readStatusNumber_skip 0x79 _ (by decide) (by decide) (not_mem_statusLine (by decide) hy),
      readStatusNumber_skip 0x79 _ (by decide) (by decide)
        (not_mem_statusLine (by decide) (not_mem_decimal (by decide) _)),
      readStatusNumber_skip 0x79 _ (by decide) (by decide)
        (not_mem_statusLine (by decide) (not_mem_decimal (by decide) _)),
      readStatusNumber_line]

end PathGuard.Control
