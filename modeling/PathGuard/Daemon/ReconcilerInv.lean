import PathGuard.Daemon.Reconciler

/-!
# What the reconciler remembers

Three stores hold the active generation: the state in memory, `policy.bin`, and the status text a new reconciler reads
its epoch from. Every call keeps them together, but for one wrap: an epoch of `2 ^ 64 - 1` is followed by 0, which a
new reconciler takes for an epoch that was never recorded.

* `Tracks`, `Consistent` : the stores agree; `Kept` : what a call keeps of them;
* `kept_reconcile` : every call does;
* `perform_remembers` : so does a new reconciler, in every run that does not come to the wrap.
-/

namespace PathGuard.Control

open Rules (TomlParser RulesLimits PolicyBlob DeviceSnapshot verifyPolicyBytes)

/-! ## Digests -/

/-- What `source_digest` can hold. -/
def IsDigest (digest : Bytes) : Prop := digest = [] ∨ ∃ input, digest = sourceDigest input

theorem mem_sourceDigest {input : Bytes} {byte : UInt8} (h : byte ∈ sourceDigest input) :
    byte ∈ ascii "sha256:" ++ Sha256.hexDigits := by
  rw [sourceDigest, List.mem_append] at h
  rw [List.mem_append]
  exact h.imp_right Sha256.mem_hexDigits_of_mem_hex

theorem IsDigest.not_mem {digest : Bytes} (h : IsDigest digest) {byte : UInt8}
    (hbyte : byte ∉ ascii "sha256:" ++ Sha256.hexDigits) : byte ∉ digest := by
  obtain rfl | ⟨input, rfl⟩ := h
  · simp
  · exact fun hmem => hbyte (mem_sourceDigest hmem)

theorem sourceDigest_ne_nil (input : Bytes) : sourceDigest input ≠ [] := by
  intro h
  exact absurd (List.append_eq_nil_iff.mp h).1 (by decide)

theorem withinSourceLimit_ok {α : Type} {limits : RulesLimits} {size : Nat} {next : Except ControlError α} {a : α}
    (h : withinSourceLimit limits size next = .ok a) : next = .ok a := by
  unfold withinSourceLimit at h
  split at h
  · cases h
  · exact h

theorem fileName_of_create {fileName bytes : Bytes} {limits : RulesLimits} {source : Rules.SourceBuffer}
    (h : Rules.SourceBuffer.create fileName bytes limits = .ok source) : source.fileName = fileName := by
  unfold Rules.SourceBuffer.create at h
  split at h
  · cases h
  · split at h
    · cases h
      rfl
    · cases h

theorem loadRulesSource_ok {limits : RulesLimits} {source : SourceRead} {loaded : SourceSnapshot}
    (h : loadRulesSource limits source = .ok loaded) :
    loaded.source.fileName = kRulesFileName ∧ loaded.digest = sourceDigest loaded.source.bytes := by
  cases source with
  | noDirectory => cases h
  | notOpened => cases h
  | unsafeFile => cases h
  | incomplete size => cases withinSourceLimit_ok h
  | notRepeated size => cases withinSourceLimit_ok h
  | unstable size => cases withinSourceLimit_ok h
  | stable bytes =>
      have h := withinSourceLimit_ok h
      generalize (findFirst utf8Bom _).isSome = bom at h
      cases bom with
      | true => cases h
      | false =>
          cases hcreate : Rules.SourceBuffer.create kRulesFileName bytes limits with
          | error diagnostic => simp [hcreate] at h
          | ok source =>
              obtain rfl : (⟨source, sourceDigest source.bytes⟩ : SourceSnapshot) = loaded := by
                simpa [hcreate] using h
              exact ⟨fileName_of_create hcreate, rfl⟩

/-! ## The status files -/

@[simp] theorem writeControlStatus_policy (directory : RunDirectory) (state : ControlState) (suffix : Nat) :
    writeControlStatus directory state suffix .policy = directory .policy := by
  simp [writeControlStatus, atomicWriteText]

@[simp] theorem writeControlStatus_statusText (directory : RunDirectory) (state : ControlState) (suffix : Nat) :
    writeControlStatus directory state suffix .statusText = some (renderControlStatusText state) := by
  simp [writeControlStatus, atomicWriteText]

/-! ## The paths of a call -/

section Paths
variable {toml : TomlParser} {daemon : Daemon} {source : SourceRead} {loaded : SourceSnapshot}
  {failing : Option PublishStep} {suffix : Nat}

theorem reconcile_skipped
    (hload : loadRulesSource daemon.reconciler.limits source = .ok loaded)
    (hdigest : loaded.digest = daemon.reconciler.state.sourceDigest) (hdirty : daemon.reconciler.deviceDirty = false) :
    daemon.reconcile toml source failing suffix =
      daemon.report suffix (daemon.reconciler.state.onDevice daemon.reconciler.snapshot) false false true := by
  simp only [Daemon.reconcile, hload]
  rw [if_pos (by simp [hdigest, hdirty])]

theorem reconcile_compiled
    (hload : loadRulesSource daemon.reconciler.limits source = .ok loaded)
    (hchanged : loaded.digest ≠ daemon.reconciler.state.sourceDigest ∨ daemon.reconciler.deviceDirty = true) :
    daemon.reconcile toml source failing suffix = daemon.compile toml loaded failing suffix := by
  simp only [Daemon.reconcile, hload]
  rw [if_neg]
  rw [Bool.and_eq_true, decide_eq_true_eq, Bool.not_eq_true']
  rintro ⟨hdigest, hdirty⟩
  obtain hne | htrue := hchanged
  · exact hne hdigest
  · rw [hdirty] at htrue
    cases htrue

theorem loadRulesSource_stable {limits : RulesLimits} {bytes : Bytes} (hsize : ¬ limits.maxSourceBytes < bytes.length)
    (hlength : bytes.length < 2 ^ 32)
    (hbom : (findFirst utf8Bom (bytes.drop (if utf8Bom.isPrefixOf bytes then utf8Bom.length else 0))).isSome = false) :
    loadRulesSource limits (.stable bytes) = .ok ⟨⟨kRulesFileName, bytes, hlength⟩, sourceDigest bytes⟩ := by
  rw [loadRulesSource, withinSourceLimit, if_neg hsize, hbom, if_neg (by decide), Rules.SourceBuffer.create,
    if_neg hsize, dif_pos hlength]

end Paths

/-! ## The invariant -/

/-- The generation `policy.bin` holds, 0 where there is none. -/
def activeGeneration (run : RunDirectory) : UInt64 := (readGeneration (run .policy)).getD 0

/-- A reconciler that is started on the directory goes on where this one is. -/
structure Restarts (daemon : Daemon) (limits : RulesLimits) (snapshot : DeviceSnapshot) : Prop where
  generation : (Daemon.start limits snapshot daemon.run).reconciler.state.activeContentGeneration =
    daemon.reconciler.state.activeContentGeneration
  epoch : daemon.reconciler.state.activeContentGeneration ≠ 0 →
    (Daemon.start limits snapshot daemon.run).reconciler.state.deploymentEpoch =
      daemon.reconciler.state.deploymentEpoch

/-- The state in memory is that of `policy.bin`. -/
structure Tracks (state : ControlState) (run : RunDirectory) : Prop where
  active : state.activeContentGeneration = activeGeneration run
  deployed : state.activeContentGeneration ≠ 0 → state.deploymentEpoch ≠ 0
  digest : IsDigest state.sourceDigest

/-- And so is the status text. -/
structure Consistent (daemon : Daemon) : Prop extends Tracks daemon.reconciler.state daemon.run where
  restarts : ∀ limits snapshot, Restarts daemon limits snapshot

theorem consistent_start (limits : RulesLimits) (snapshot : DeviceSnapshot) (run : RunDirectory) :
    Consistent (Daemon.start limits snapshot run) where
  active := rfl
  deployed h := by
    simp only [Daemon.start] at h ⊢
    rw [if_neg h]
    split
    · next hrecorded =>
      simp only [Bool.and_eq_true, bne_iff_ne] at hrecorded
      exact hrecorded.2
    · decide
  restarts _ _ := ⟨rfl, fun _ => rfl⟩
  digest := Or.inl rfl

theorem consistent_report {daemon : Daemon} {state : ControlState} (h : Tracks state daemon.run) (suffix : Nat)
    (compiled published unchanged : Bool) :
    Consistent (daemon.report suffix state compiled published unchanged).2 where
  active := by simpa [Daemon.report, activeGeneration] using h.active
  deployed := h.deployed
  digest := h.digest
  restarts limits snapshot := by
    have hstart : (readGeneration (daemon.run .policy)).getD 0 = state.activeContentGeneration := h.active.symm
    obtain ⟨hgeneration, hepoch⟩ := readStatusNumber_rendered state (h.digest.not_mem (by decide))
      (h.digest.not_mem (by decide))
    refine ⟨by simpa [Daemon.report, Daemon.start] using hstart, fun hne => ?_⟩
    have hne : state.activeContentGeneration ≠ 0 := hne
    simp [Daemon.report, Daemon.start, hstart, hgeneration, hepoch, hne, h.deployed hne]

/-! ## One call -/

/-- The last epoch. -/
def kLastEpoch : UInt64 := 0xffffffffffffffff

theorem toNat_succ_epoch {epoch : UInt64} (h : epoch ≠ kLastEpoch) : (epoch + 1).toNat = epoch.toNat + 1 := by
  have hne : epoch.toNat ≠ 2 ^ 64 - 1 := by
    intro heq
    exact h (UInt64.toNat_inj.mp (by rw [heq]; rfl))
  have hlt := epoch.toNat_lt
  rw [UInt64.toNat_add, show (1 : UInt64).toNat = 1 from rfl]
  omega

theorem succ_epoch_ne_zero {epoch : UInt64} (h : epoch ≠ kLastEpoch) : epoch + 1 ≠ 0 := by
  intro heq
  have htoNat := toNat_succ_epoch h
  rw [heq, show (0 : UInt64).toNat = 0 from rfl] at htoNat
  omega

theorem readGeneration_of_verify {bytes : Bytes} {generation : UInt64}
    (h : verifyPolicyBytes bytes generation = true) : readGeneration (some bytes) = some generation := by
  unfold verifyPolicyBytes at h
  split at h
  · next decoded found hdecode =>
    rw [Bool.and_eq_true, beq_iff_eq] at h
    simp [readGeneration, hdecode, h.1]
  · cases h

/-- What a call keeps, and what it adds to the epoch. -/
structure Kept (epoch : UInt64) (published : Bool) (after : Daemon) : Prop where
  consistent : Consistent after
  epoch : after.reconciler.state.deploymentEpoch.toNat = epoch.toNat + published.toNat

theorem kept_deploy {daemon : Daemon} {epoch : UInt64} (h : Tracks daemon.reconciler.state daemon.run)
    (hsame : daemon.reconciler.state.deploymentEpoch = epoch) (hepoch : epoch ≠ kLastEpoch) (blob : PolicyBlob)
    (failing : Option PublishStep) (suffix : Nat) :
    Kept epoch (daemon.deploy blob failing suffix).1.published (daemon.deploy blob failing suffix).2 := by
  subst hsame
  unfold Daemon.deploy
  cases publish_end daemon.run blob suffix failing with
  | unchanged hgeneration hpublished hunchanged hseen hdirectory =>
      have hactive : blob.contentGeneration = daemon.reconciler.state.activeContentGeneration := by
        rw [h.active, activeGeneration, hgeneration, Option.getD_some]
      simp only [PublishResult.ok, hpublished, hunchanged, hdirectory]
      rw [if_neg (by decide)]
      refine ⟨consistent_report ?_ _ _ _ _, rfl⟩
      refine ⟨?_, ?_, h.digest⟩
      · exact hactive.trans h.active
      · intro hne
        exact h.deployed (hactive ▸ hne)
  | failed hgeneration hpublished hunchanged hpolicy =>
      simp only [PublishResult.ok, hpublished, hunchanged]
      rw [if_pos (by decide)]
      refine ⟨consistent_report ?_ _ _ _ _, rfl⟩
      refine ⟨?_, h.deployed, h.digest⟩
      simpa [activeGeneration, hpolicy, ControlState.rejected] using h.active
  | published hgeneration hverify hpublished hunchanged hpolicy hcandidate hbackup =>
      simp only [PublishResult.ok, hpublished, hunchanged]
      rw [if_neg (by decide)]
      refine ⟨consistent_report ?_ _ _ _ _, toNat_succ_epoch hepoch⟩
      refine ⟨?_, fun _ => succ_epoch_ne_zero hepoch, h.digest⟩
      simp [activeGeneration, hpolicy, readGeneration_of_verify hverify]

theorem kept_compile {toml : TomlParser} {daemon : Daemon} (h : Tracks daemon.reconciler.state daemon.run)
    (hepoch : daemon.reconciler.state.deploymentEpoch ≠ kLastEpoch) {loaded : SourceSnapshot}
    (hdigest : IsDigest loaded.digest) (failing : Option PublishStep) (suffix : Nat) :
    Kept daemon.reconciler.state.deploymentEpoch (daemon.compile toml loaded failing suffix).1.published
      (daemon.compile toml loaded failing suffix).2 := by
  simp only [Daemon.compile]
  split
  · refine ⟨consistent_report ?_ _ _ _ _, rfl⟩
    exact ⟨h.active, h.deployed, hdigest⟩
  · next candidate _ =>
    split
    · refine ⟨consistent_report ?_ _ _ _ _, rfl⟩
      exact ⟨h.active, h.deployed, hdigest⟩
    · refine kept_deploy ?_ ?_ hepoch candidate.blob failing suffix
      · exact ⟨h.active, h.deployed, hdigest⟩
      · rfl

/-- **Reconcile keeps the stores together.** -/
theorem kept_reconcile {toml : TomlParser} {daemon : Daemon} (h : Consistent daemon)
    (hepoch : daemon.reconciler.state.deploymentEpoch ≠ kLastEpoch) (source : SourceRead)
    (failing : Option PublishStep) (suffix : Nat) :
    Kept daemon.reconciler.state.deploymentEpoch (daemon.reconcile toml source failing suffix).1.published
      (daemon.reconcile toml source failing suffix).2 := by
  simp only [Daemon.reconcile]
  split
  · refine ⟨consistent_report ?_ _ _ _ _, rfl⟩
    exact ⟨h.active, h.deployed, h.digest⟩
  · next loaded hload =>
    split
    · refine ⟨consistent_report ?_ _ _ _ _, rfl⟩
      exact ⟨h.active, h.deployed, h.digest⟩
    · exact kept_compile h.toTracks hepoch (Or.inr ⟨_, (loadRulesSource_ok hload).2⟩) failing suffix

theorem Consistent.of_same {daemon after : Daemon} (h : Consistent daemon)
    (hstate : after.reconciler.state = daemon.reconciler.state) (hrun : after.run = daemon.run) : Consistent after where
  active := by rw [hstate, hrun]; exact h.active
  deployed := by rw [hstate]; exact h.deployed
  digest := by rw [hstate]; exact h.digest
  restarts limits snapshot := by
    refine ⟨?_, ?_⟩
    · rw [hstate, hrun]
      exact (h.restarts limits snapshot).generation
    · rw [hstate, hrun]
      exact (h.restarts limits snapshot).epoch

theorem kept_perform (toml : TomlParser) {daemon : Daemon} (h : Consistent daemon)
    (hepoch : daemon.reconciler.state.deploymentEpoch ≠ kLastEpoch) (call : Call) :
    Kept daemon.reconciler.state.deploymentEpoch (daemon.perform toml call).1 (daemon.perform toml call).2 := by
  cases call with
  | reconcile source failing suffix => exact kept_reconcile h hepoch source failing suffix
  | saveRules expected replacement environment failing suffix =>
      simp only [Daemon.perform, Daemon.saveRules]
      split
      · exact ⟨h, rfl⟩
      · exact kept_reconcile h hepoch environment.afterCommit failing suffix
  | setDeviceSnapshot snapshot => exact ⟨h.of_same rfl rfl, rfl⟩

/-! ## Runs -/

/-- The condition on a call: the epoch before it is not the last one. -/
def HasNextEpoch (daemon : Daemon) (_ : Call) : Prop := daemon.reconciler.state.deploymentEpoch ≠ kLastEpoch

section Runs
variable {toml : TomlParser} {limits : RulesLimits} {snapshot : DeviceSnapshot} {run : RunDirectory}

theorem consistent_of_reaches {daemon : Daemon}
    (hrun : Run.ReachesBy (Daemon.next toml) HasNextEpoch (Daemon.start limits snapshot run) daemon) :
    Consistent daemon := by
  refine hrun.invariant (consistent_start limits snapshot run) ?_
  intro before call after h hepoch hnext
  obtain rfl := Option.some.inj hnext
  exact (kept_perform toml h hepoch call).consistent

/-- **What the reconciler remembers.** After every call of a run in which no call starts at the last epoch, the active
generation in memory is that of `policy.bin`, the epoch has grown by one if the call published and is the same
otherwise, and a new reconciler on the directories starts with the same generation and, where there is one, the same
epoch. -/
theorem perform_remembers {before : Daemon}
    (hrun : Run.ReachesBy (Daemon.next toml) HasNextEpoch (Daemon.start limits snapshot run) before) {call : Call}
    (hepoch : HasNextEpoch before call) {published : Bool} {after : Daemon}
    (hcall : before.perform toml call = (published, after)) :
    after.reconciler.state.activeContentGeneration = (readGeneration (after.run .policy)).getD 0 ∧
      after.reconciler.state.deploymentEpoch.toNat =
        before.reconciler.state.deploymentEpoch.toNat + (if published then 1 else 0) ∧
      ∀ newLimits newSnapshot, Restarts after newLimits newSnapshot := by
  have hkept := kept_perform toml (consistent_of_reaches hrun) hepoch call
  rw [hcall] at hkept
  refine ⟨hkept.consistent.active, ?_, hkept.consistent.restarts⟩
  rw [hkept.epoch]
  cases published <;> rfl

end Runs

/-! ## A run directory at the last epoch -/

def oneRedirect : Rules.Sample := { deny := [], redirects := [("A", "C")] }

/-- A device that supports everything. -/
def fullDevice : DeviceSnapshot where
  mount := { primitives := kCapabilityOpenTreeMoveMount
             strictActions := kMountActionRedirect ||| kMountActionDenyAnchor }
  providerSupported := true
  topologySupported := true

theorem candidate_oneRedirect :
    ∃ candidate, buildCandidate oneRedirect.toml {} oneRedirect.source = .ok candidate ∧
      candidate.admitted fullDevice = true ∧ candidate.blob.contentGeneration ≠ (sampleBlob false).contentGeneration ∧
      candidate.blob.contentGeneration ≠ 0 ∧
      verifyPolicyBytes candidate.blob.bytes candidate.blob.contentGeneration = true := by
  have hcheck : (match buildCandidate oneRedirect.toml {} oneRedirect.source with
      | .ok candidate => candidate.admitted fullDevice &&
          candidate.blob.contentGeneration != (sampleBlob false).contentGeneration &&
          candidate.blob.contentGeneration != 0 &&
          verifyPolicyBytes candidate.blob.bytes candidate.blob.contentGeneration
      | .error _ => false) = true := by decide +kernel
  split at hcheck
  · next candidate hbuild => exact ⟨candidate, hbuild, by simpa [and_assoc] using hcheck⟩
  · cases hcheck

theorem load_oneRedirect : loadRulesSource {} (.stable oneRedirect.text) =
    .ok ⟨oneRedirect.source, sourceDigest oneRedirect.text⟩ :=
  loadRulesSource_stable (by decide +kernel) (by decide +kernel) (by decide +kernel)

section Start
variable {toml : TomlParser} {limits : RulesLimits} {snapshot : DeviceSnapshot} {run : RunDirectory}
  {source : SourceRead} {loaded : SourceSnapshot} {candidate : Candidate} {failing : Option PublishStep} {suffix : Nat}

theorem start_reconcile (hload : loadRulesSource limits source = .ok loaded) :
    (Daemon.start limits snapshot run).reconcile toml source failing suffix =
      (Daemon.start limits snapshot run).compile toml loaded failing suffix := by
  refine reconcile_compiled hload (Or.inl ?_)
  rw [(loadRulesSource_ok hload).2]
  exact sourceDigest_ne_nil _

theorem start_reconcile_published (hload : loadRulesSource limits source = .ok loaded)
    (hbuild : buildCandidate toml limits loaded.source = .ok candidate) (hadmitted : candidate.admitted snapshot = true)
    (hpublished : (publish run candidate.blob suffix failing).result.published = true) :
    ∃ result after, (Daemon.start limits snapshot run).reconcile toml source failing suffix = (result, after) ∧
      result.published = true ∧
      after.reconciler.state.activeContentGeneration = candidate.blob.contentGeneration ∧
      after.reconciler.state.deploymentEpoch =
        (Daemon.start limits snapshot run).reconciler.state.deploymentEpoch + 1 := by
  rw [start_reconcile hload]
  refine ⟨_, _, rfl, ?_⟩
  simp [Daemon.start, hbuild, hadmitted, Daemon.deploy, Daemon.report, PublishResult.ok, hpublished,
    ControlState.onDevice]

theorem start_reconcile_failed (hload : loadRulesSource limits source = .ok loaded)
    (hbuild : buildCandidate toml limits loaded.source = .ok candidate) (hadmitted : candidate.admitted snapshot = true)
    (hfailed : (publish run candidate.blob suffix failing).result.ok = false) :
    ∃ result after, (Daemon.start limits snapshot run).reconcile toml source failing suffix = (result, after) ∧
      after.reconciler.limits = limits ∧ after.reconciler.deviceDirty = false ∧
      after.reconciler.state.sourceDigest = loaded.digest ∧ after.reconciler.state.status = .publishFailed ∧
      after.run .policy = (publish run candidate.blob suffix failing).directory .policy := by
  rw [start_reconcile hload]
  refine ⟨_, _, rfl, ?_⟩
  simp [Daemon.start, hbuild, hadmitted, Daemon.deploy, Daemon.report, hfailed, ControlState.rejected,
    ControlState.onDevice]

end Start

theorem perform_remembers_oneRedirect :
    ∃ after : Daemon, ((Daemon.start {} fullDevice fun _ => none).perform oneRedirect.toml
        (.reconcile (.stable oneRedirect.text) none 0)).2 = after ∧
      after.reconciler.state.activeContentGeneration = (readGeneration (after.run .policy)).getD 0 ∧
      Restarts after {} fullDevice := by
  have hepoch : HasNextEpoch (Daemon.start {} fullDevice fun _ => none)
      (.reconcile (.stable oneRedirect.text) none 0) := show (0 : UInt64) ≠ kLastEpoch by decide
  have h := perform_remembers (.refl (Daemon.start {} fullDevice fun _ => none)) hepoch
    (Prod.mk.eta (p := Daemon.perform oneRedirect.toml _ _)).symm
  exact ⟨_, rfl, h.1, h.2.2 {} fullDevice⟩

/-- A policy and the status of the last epoch. -/
def lastEpochRun : RunDirectory
  | .policy => some (sampleBlob false).bytes
  | .statusText => some (renderControlStatusText
      { activeContentGeneration := (sampleBlob false).contentGeneration, deploymentEpoch := kLastEpoch })
  | _ => none

theorem start_lastEpochRun :
    (Daemon.start {} fullDevice lastEpochRun).reconciler.state.deploymentEpoch = kLastEpoch := by
  obtain ⟨hgeneration, hepoch⟩ := readStatusNumber_rendered
    { activeContentGeneration := (sampleBlob false).contentGeneration, deploymentEpoch := kLastEpoch } (by simp) (by simp)
  have hpolicy : readGeneration (lastEpochRun .policy) = some (sampleBlob false).contentGeneration :=
    readGeneration_sampleDirectory
  have hne : (sampleBlob false).contentGeneration ≠ 0 := by decide +kernel
  simp only [Daemon.start, hpolicy, Option.getD_some, if_neg hne]
  rw [show lastEpochRun .statusText = some (renderControlStatusText _) from rfl, hgeneration, hepoch, if_pos]
  simp [kLastEpoch]

/-- The reconcile publishes, the epoch becomes 0, and a new reconciler does not start with it. -/
theorem not_restarts_lastEpoch :
    ∃ after, (Daemon.start {} fullDevice lastEpochRun).perform oneRedirect.toml
        (.reconcile (.stable oneRedirect.text) none 0) = (true, after) ∧
      after.reconciler.state.activeContentGeneration ≠ 0 ∧ after.reconciler.state.deploymentEpoch = 0 ∧
      ¬ Restarts after {} fullDevice := by
  obtain ⟨candidate, hbuild, hadmitted, hother, hzero, hverify⟩ := candidate_oneRedirect
  have hpolicy : readGeneration (lastEpochRun .policy) ≠ some candidate.blob.contentGeneration := by
    rw [show readGeneration (lastEpochRun .policy) = some (sampleBlob false).contentGeneration from
      readGeneration_sampleDirectory]
    exact fun h => hother (Option.some.inj h).symm
  have hpublished : (publish lastEpochRun candidate.blob 0 none).result.published = true :=
    (publish_replaces 0 hpolicy hverify (by rw [lastEpochRun, Option.isSome_some])).1
  obtain ⟨result, after, hcall, hresult, hactive, hepoch⟩ := start_reconcile_published load_oneRedirect hbuild
    hadmitted hpublished
  have hne : after.reconciler.state.activeContentGeneration ≠ 0 := by
    rw [hactive]
    exact hzero
  have hwrap : after.reconciler.state.deploymentEpoch = 0 := by
    rw [hepoch, start_lastEpochRun]
    decide
  refine ⟨after, ?_, hne, hwrap, fun hrestarts => ?_⟩
  · simp only [Daemon.perform, hcall, hresult]
  · have hstart := (consistent_start {} fullDevice after.run).deployed
    rw [hrestarts.generation, hrestarts.epoch hne, hwrap] at hstart
    exact hstart hne rfl

end PathGuard.Control
