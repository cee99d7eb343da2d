import PathGuard.Daemon.Status
import PathGuard.Lib.Run
import PathGuard.Lib.Sha256
import PathGuard.Rules.Admission

/-!
# The reconciler

`LoadRulesSource` and the class `Reconciler` of `daemon/src/rules_control.cpp`: each call loads `rules.toml`, skips a
source whose digest it has seen, compiles, asks the device for admission and publishes. What a call meets outside the
run directory is an input of it: how the reading of `rules.toml` goes, which step of the publish fails. Status writes
succeed, and the suffix of a call keeps its temporary names apart from others.
-/

namespace PathGuard.Control

open Rules (TomlParser RulesLimits SourceBuffer CanonicalPolicy PolicyRequirements PolicyBlob DeviceSnapshot
  compileRules admitPolicy renderDiagnosticText)

/-! ## LoadRulesSource -/

def kRulesFileName : Bytes := ascii "rules.toml"

/-- How opening and reading `rules.toml` twice can go; `size` is that of the first `fstat`. -/
inductive SourceRead
  | noDirectory
  | notOpened
  | unsafeFile
  | incomplete (size : Nat)
  | notRepeated (size : Nat)
  | unstable (size : Nat)
  | stable (bytes : Bytes)
  deriving DecidableEq, Repr

structure SourceSnapshot where
  source : SourceBuffer
  digest : Bytes

/-- An error code and its message. -/
structure ControlError where
  code : Bytes
  message : Bytes
  deriving DecidableEq, Repr

def controlError (code message : String) : ControlError := ⟨ascii code, ascii message⟩

/-- `Sha256` of `rules_control.cpp`. -/
def sourceDigest (input : Bytes) : Bytes := ascii "sha256:" ++ Sha256.hex input

def utf8Bom : Bytes := [0xef, 0xbb, 0xbf]

/-- The size check stands between opening the file and reading it. -/
def withinSourceLimit {α : Type} (limits : RulesLimits) (size : Nat) (next : Except ControlError α) :
    Except ControlError α :=
  if limits.maxSourceBytes < size then
    .error (controlError Rules.kResourceLimit "rules.toml exceeds source byte limit")
  else next

def loadRulesSource (limits : RulesLimits) : SourceRead → Except ControlError SourceSnapshot
  | .noDirectory => .error (controlError "PG-SOURCE-READ" "cannot open rules directory")
  | .notOpened => .error (controlError "PG-SOURCE-UNSAFE" "cannot securely open rules.toml")
  | .unsafeFile => .error (controlError "PG-SOURCE-UNSAFE" "rules.toml has unsafe type, owner, or mode")
  | .incomplete size => withinSourceLimit limits size
      (.error (controlError "PG-SOURCE-READ" "cannot read complete rules.toml"))
  | .notRepeated size => withinSourceLimit limits size
      (.error (controlError "PG-SOURCE-UNSTABLE" "cannot repeat stable rules.toml read"))
  | .unstable size => withinSourceLimit limits size
      (.error (controlError "PG-SOURCE-UNSTABLE" "rules.toml changed during stable read"))
  | .stable bytes => withinSourceLimit limits bytes.length
      (if (findFirst utf8Bom (bytes.drop (if utf8Bom.isPrefixOf bytes then utf8Bom.length else 0))).isSome then
        .error (controlError "PG-SOURCE-BOM" "UTF-8 BOM is only allowed at byte zero")
      else
        match SourceBuffer.create kRulesFileName bytes limits with
        | .error diagnostic => .error (controlError diagnostic.code diagnostic.messageKey)
        | .ok source => .ok ⟨source, sourceDigest source.bytes⟩)

/-! ## Compiling a candidate -/

structure Candidate where
  canonical : CanonicalPolicy
  requirements : PolicyRequirements
  blob : PolicyBlob

/-- `CompileRules`, and the error `Reconcile` and `SaveRules` take from its first diagnostic. -/
def buildCandidate (toml : TomlParser) (limits : RulesLimits) (source : SourceBuffer) :
    Except ControlError Candidate :=
  let built := compileRules toml source limits
  match built.ok, built.canonical, built.blob with
  | true, some canonical, some blob => .ok ⟨canonical, built.requirements, blob⟩
  | _, _, _ =>
      match built.diagnostics with
      | [] => .error (controlError Rules.kCompilerInternal "rules compiler failed")
      | diagnostic :: _ => .error ⟨ascii diagnostic.code, renderDiagnosticText diagnostic source⟩

def Candidate.admitted (candidate : Candidate) (snapshot : DeviceSnapshot) : Bool :=
  (admitPolicy candidate.canonical candidate.requirements snapshot).admitted

/-! ## Reconcile -/

structure Reconciler where
  limits : RulesLimits
  snapshot : DeviceSnapshot
  state : ControlState := {}
  deviceDirty : Bool := false

structure ReconcileResult where
  state : ControlState
  compiled : Bool := false
  published : Bool := false
  unchanged : Bool := false

/-- `ReconcileResult::ok`. -/
def ReconcileResult.ok (result : ReconcileResult) : Bool := result.state.status == .active

/-- The reconciler and the run directory it writes. -/
structure Daemon where
  reconciler : Reconciler
  run : RunDirectory

/-- The constructor. -/
def Daemon.start (limits : RulesLimits) (snapshot : DeviceSnapshot) (run : RunDirectory) : Daemon :=
  let generation := (readGeneration (run .policy)).getD 0
  let recordedGeneration := readStatusNumber (run .statusText) "active_content_generation"
  let recordedEpoch := readStatusNumber (run .statusText) "deployment_epoch"
  let epoch := if generation = 0 then 0
    else if recordedGeneration = generation && recordedEpoch != 0 then recordedEpoch else 1
  { reconciler :=
      { limits := limits, snapshot := snapshot
        state := { activeContentGeneration := generation, deploymentEpoch := epoch } }
    run := run }

def kNotActivated : Bytes := ascii "; new configuration was not activated; previous policy remains active"

/-- The end of every path of `Reconcile`: the status is written and the state returned. -/
def Daemon.report (daemon : Daemon) (suffix : Nat) (state : ControlState) (compiled published unchanged : Bool) :
    ReconcileResult × Daemon :=
  (⟨state, compiled, published, unchanged⟩,
    { reconciler := { daemon.reconciler with state := state }
      run := writeControlStatus daemon.run state suffix })

/-- A state that keeps the previous policy. -/
def ControlState.rejected (state : ControlState) (status : ControlStatus) (error : ControlError) : ControlState :=
  { state with status := status, errorCode := error.code, message := error.message ++ kNotActivated }

/-- The generations of the device a decision was made on. -/
def ControlState.onDevice (state : ControlState) (snapshot : DeviceSnapshot) : ControlState :=
  { state with
    capabilityGeneration := snapshot.capabilityGeneration, topologyGeneration := snapshot.topologyGeneration }

/-- `Reconcile` once the policy is admitted. -/
def Daemon.deploy (daemon : Daemon) (blob : PolicyBlob) (failing : Option PublishStep) (suffix : Nat) :
    ReconcileResult × Daemon :=
  let state := daemon.reconciler.state
  let publication := publish daemon.run blob suffix failing
  let daemon := { daemon with run := publication.directory }
  let result := publication.result
  if !result.ok then
    daemon.report suffix (state.rejected .publishFailed (controlError "PG-PUBLISH-FAILED" result.message))
      true false false
  else
    daemon.report suffix
      { state with
        status := .active
        errorCode := []
        message := ascii (if result.published then "policy activated" else "source validated; policy content unchanged")
        activeContentGeneration := blob.contentGeneration
        deploymentEpoch := if result.published then state.deploymentEpoch + 1 else state.deploymentEpoch }
      true result.published result.unchanged

/-- `Reconcile` with a source it has not seen, or on a device that has changed. -/
def Daemon.compile (toml : TomlParser) (daemon : Daemon) (loaded : SourceSnapshot) (failing : Option PublishStep)
    (suffix : Nat) : ReconcileResult × Daemon :=
  let state := { daemon.reconciler.state with
    sourceDigest := loaded.digest, candidateSequence := daemon.reconciler.state.candidateSequence + 1 }
  let snapshot := daemon.reconciler.snapshot
  let daemon := { daemon with reconciler := { daemon.reconciler with state := state, deviceDirty := false } }
  match buildCandidate toml daemon.reconciler.limits loaded.source with
  | .error error => daemon.report suffix (state.rejected .sourceInvalid error) true false false
  | .ok candidate =>
      let state := state.onDevice snapshot
      if !candidate.admitted snapshot then
        daemon.report suffix (state.rejected .environmentUnsupported (controlError "PG-ADMISSION-UNSUPPORTED"
          "device capabilities or topology do not satisfy policy requirements")) true false false
      else
        Daemon.deploy { daemon with reconciler := { daemon.reconciler with state := state } } candidate.blob failing suffix

def Daemon.reconcile (toml : TomlParser) (daemon : Daemon) (source : SourceRead) (failing : Option PublishStep)
    (suffix : Nat) : ReconcileResult × Daemon :=
  let state := daemon.reconciler.state
  match loadRulesSource daemon.reconciler.limits source with
  | .error error =>
      daemon.report suffix
        ({ state with candidateSequence := state.candidateSequence + 1 }.rejected .sourceInvalid error) false false false
  | .ok loaded =>
      if loaded.digest = state.sourceDigest && !daemon.reconciler.deviceDirty then
        daemon.report suffix (state.onDevice daemon.reconciler.snapshot) false false true
      else daemon.compile toml loaded failing suffix

def Daemon.setDeviceSnapshot (daemon : Daemon) (snapshot : DeviceSnapshot) : Daemon :=
  { daemon with reconciler := { daemon.reconciler with snapshot := snapshot, deviceDirty := true } }

/-! ## SaveRules -/

structure ManagerSaveResult where
  reconcile : ReconcileResult
  saved : Bool := false
  error : ControlError := ⟨[], []⟩

/-- `ManagerSaveResult::ok`. -/
def ManagerSaveResult.ok (result : ManagerSaveResult) : Bool := result.saved && result.reconcile.ok

/-- What a `SaveRules` meets outside: three readings of `rules.toml` and the write of it. -/
structure SaveEnvironment where
  current : SourceRead
  beforeCommit : SourceRead
  written : Bool
  afterCommit : SourceRead

/-- The checks of `SaveRules` that come before the write. -/
def Daemon.checkSave (toml : TomlParser) (daemon : Daemon) (expected replacement : Bytes)
    (environment : SaveEnvironment) : Except ControlError Unit :=
  let limits := daemon.reconciler.limits
  match loadRulesSource limits environment.current with
  | .error error => .error error
  | .ok current =>
      if current.digest ≠ expected then
        .error (controlError "PG-SOURCE-CONFLICT" "rules.toml changed since the Manager snapshot")
      else
        match SourceBuffer.create kRulesFileName replacement limits with
        | .error diagnostic => .error (controlError diagnostic.code diagnostic.messageKey)
        | .ok source =>
            match buildCandidate toml limits source with
            | .error error => .error error
            | .ok candidate =>
                if !candidate.admitted daemon.reconciler.snapshot then
                  .error (controlError "PG-ADMISSION-UNSUPPORTED"
                    "device capabilities or topology do not satisfy policy requirements")
                else
                  match loadRulesSource limits environment.beforeCommit with
                  | .error error => .error error
                  | .ok beforeCommit =>
                      if beforeCommit.digest ≠ expected then
                        .error (controlError "PG-SOURCE-CONFLICT" "rules.toml changed while the save was being validated")
                      else if !environment.written then
                        .error (controlError "PG-SOURCE-WRITE" "cannot atomically replace rules.toml")
                      else .ok ()

def Daemon.saveRules (toml : TomlParser) (daemon : Daemon) (expected replacement : Bytes)
    (environment : SaveEnvironment) (failing : Option PublishStep) (suffix : Nat) : ManagerSaveResult × Daemon :=
  match daemon.checkSave toml expected replacement environment with
  | .error error => (⟨⟨daemon.reconciler.state, false, false, false⟩, false, error⟩, daemon)
  | .ok () =>
      let (result, daemon) := daemon.reconcile toml environment.afterCommit failing suffix
      (⟨result, true, if result.ok then ⟨[], []⟩ else ⟨result.state.errorCode, result.state.message⟩⟩, daemon)

/-! ## Runs -/

/-- The calls on a reconciler. -/
inductive Call
  | reconcile (source : SourceRead) (failing : Option PublishStep) (suffix : Nat)
  | saveRules (expected replacement : Bytes) (environment : SaveEnvironment) (failing : Option PublishStep)
      (suffix : Nat)
  | setDeviceSnapshot (snapshot : DeviceSnapshot)

/-- A call, and whether it published. -/
def Daemon.perform (toml : TomlParser) (daemon : Daemon) : Call → Bool × Daemon
  | .reconcile source failing suffix =>
      let (result, daemon) := daemon.reconcile toml source failing suffix
      (result.published, daemon)
  | .saveRules expected replacement environment failing suffix =>
      let (result, daemon) := daemon.saveRules toml expected replacement environment failing suffix
      (result.reconcile.published, daemon)
  | .setDeviceSnapshot snapshot => (false, daemon.setDeviceSnapshot snapshot)

/-- Every call goes through. -/
def Daemon.next (toml : TomlParser) (daemon : Daemon) (call : Call) : Option Daemon :=
  some (daemon.perform toml call).2

end PathGuard.Control
