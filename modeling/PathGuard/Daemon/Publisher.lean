import PathGuard.Lib.Directory
import PathGuard.Rules.Semantic

/-!
# Publishing a policy

`Publisher::Publish` of `daemon/src/rules_control.cpp`, as its file system steps on the run directory: a candidate is
written beside `policy.bin`, read back and synced; `policy.bin` is renamed to a backup, the candidate to `policy.bin`;
the backup goes last. Any step can fail, and what was done so far is then undone.

Modes, owners and contexts of the files are left out, and so is what a failed clean-up leaves behind.

* `PublishStep`, `publish` : the steps, each of which can fail; `Publication` : the directories gone through;
* `publish_end` : a call ends in one of three ways;
* `publish_all_or_nothing`, `readable_throughout_iff` : what the ends have in common, and the gap between two renames.
-/

namespace PathGuard.Control

open Rules (PolicyBlob verifyPolicyBytes)

/-- The files of the run directory. A suffix of `UniqueSuffix` is a number. -/
inductive RunFile
  | policy
  | statusText
  | statusJson
  | candidate (suffix : Nat)
  | backup (suffix : Nat)
  | textTemporary (suffix : Nat)
  | jsonTemporary (suffix : Nat)
  | other (name : Bytes)
  deriving DecidableEq, Repr

abbrev RunDirectory := Directory RunFile Bytes

/-- `ReadGeneration`. -/
def readGeneration (file : Option Bytes) : Option UInt64 :=
  match file with
  | none => none
  | some bytes =>
      match decodePolicy bytes with
      | .ok (_, generation) => some generation
      | .error _ => none

/-- The steps of `Publish` that can fail. An unfinished write leaves some bytes in the candidate. -/
inductive PublishStep
  | create
  | openCandidate
  | write (written : Bytes)
  | setMode
  | setOwner
  | setContext
  | verify
  | fileSync
  | preserve
  | rename
  | directorySync
  deriving DecidableEq, Repr

structure PublishResult where
  published : Bool := false
  unchanged : Bool := false
  contentGeneration : UInt64
  message : String := ""
  deriving DecidableEq, Repr

/-- What a call returns, the directories a reader could see before its last step, and the directory it leaves. -/
structure Publication where
  result : PublishResult
  seen : List RunDirectory := []
  directory : RunDirectory

/-- `PublishResult::ok`. -/
def PublishResult.ok (result : PublishResult) : Bool := result.published || result.unchanged

namespace Publication

/-- All directories a reader could see, or a crash could leave. -/
def states (publication : Publication) : List RunDirectory := publication.seen ++ [publication.directory]

/-- The candidate is removed and the call returns. -/
def discard (blob : PolicyBlob) (suffix : Nat) (seen : List RunDirectory) (directory : RunDirectory) (message : String) :
    Publication where
  result := { contentGeneration := blob.contentGeneration, message := message }
  seen := seen ++ [directory]
  directory := directory.remove (.candidate suffix)

end Publication

/-- The last part of `Publish`: the candidate becomes `policy.bin`. `preserved` is the directory once the active policy
is out of the way. -/
def replaceActive (blob : PolicyBlob) (suffix : Nat) (failing : Option PublishStep) (hadActive : Bool)
    (seen : List RunDirectory) (preserved : RunDirectory) : Publication :=
  if failing = some .rename then
    let restored := if hadActive then preserved.rename (.backup suffix) .policy else preserved
    .discard blob suffix (seen ++ [preserved]) restored "cannot atomically replace policy.bin"
  else
    let replaced := preserved.rename (.candidate suffix) .policy
    if failing = some .directorySync then
      let removed := replaced.remove .policy
      { result := {
          contentGeneration := blob.contentGeneration
          message := "cannot fsync policy directory; previous policy restored" }
        seen := seen ++ [preserved, replaced, removed]
        directory := if hadActive then removed.rename (.backup suffix) .policy else removed }
    else
      { result := { published := true, contentGeneration := blob.contentGeneration }
        seen := seen ++ [preserved, replaced]
        directory := replaced.remove (.backup suffix) }

/-- `Publisher::Publish` with at most one failing step. -/
def publish (directory : RunDirectory) (blob : PolicyBlob) (suffix : Nat) (failing : Option PublishStep) : Publication :=
  if readGeneration (directory .policy) = some blob.contentGeneration then
    { result := { unchanged := true, contentGeneration := blob.contentGeneration }, directory := directory }
  else if failing = some .create then
    { result := { contentGeneration := blob.contentGeneration, message := "cannot create policy candidate" }
      directory := directory }
  else
    let opened := directory.write (.candidate suffix) []
    let written := directory.write (.candidate suffix) blob.bytes
    match failing with
    | some .openCandidate => .discard blob suffix [directory] opened "cannot write policy candidate"
    | some (.write bytes) =>
        .discard blob suffix [directory, opened] (directory.write (.candidate suffix) bytes)
          "cannot write complete policy candidate"
    | some .setMode => .discard blob suffix [directory, opened] written "cannot set policy mode"
    | some .setOwner | some .setContext =>
        .discard blob suffix [directory, opened] written "cannot set policy security attributes"
    | _ =>
        if failing = some .verify || !verifyPolicyBytes blob.bytes blob.contentGeneration then
          .discard blob suffix [directory, opened] written "policy candidate verification failed"
        else if failing = some .fileSync then
          .discard blob suffix [directory, opened] written "cannot fsync policy candidate"
        else
          let hadActive := (directory .policy).isSome
          if !hadActive then replaceActive blob suffix failing false [directory, opened] written
          else if failing = some .preserve then
            .discard blob suffix [directory, opened] written "cannot preserve active policy"
          else
            replaceActive blob suffix failing true [directory, opened, written]
              (written.rename .policy (.backup suffix))

/-! ## What a call leaves -/

section Outcome
variable (directory : RunDirectory) (blob : PolicyBlob) (suffix : Nat)

/-- How a call can end. -/
inductive PublishEnd (publication : Publication) : Prop
  | unchanged : readGeneration (directory .policy) = some blob.contentGeneration →
      publication.result.published = false → publication.result.unchanged = true → publication.seen = [] →
      publication.directory = directory → PublishEnd publication
  | failed : readGeneration (directory .policy) ≠ some blob.contentGeneration →
      publication.result.published = false → publication.result.unchanged = false →
      publication.directory .policy = directory .policy → PublishEnd publication
  | published : readGeneration (directory .policy) ≠ some blob.contentGeneration →
      verifyPolicyBytes blob.bytes blob.contentGeneration = true →
      publication.result.published = true → publication.result.unchanged = false →
      publication.directory .policy = some blob.bytes → publication.directory (.candidate suffix) = none →
      publication.directory (.backup suffix) = none → PublishEnd publication

variable {directory blob suffix}

theorem discard_end (h : readGeneration (directory .policy) ≠ some blob.contentGeneration) {seen : List RunDirectory}
    {now : RunDirectory} (hnow : now .policy = directory .policy) (message : String) :
    PublishEnd directory blob suffix (.discard blob suffix seen now message) :=
  .failed h rfl rfl (by simpa [Publication.discard] using hnow)

/-- The candidate replaces the active policy, or the active policy is back. -/
theorem replaceActive_end (h : readGeneration (directory .policy) ≠ some blob.contentGeneration)
    (hverify : verifyPolicyBytes blob.bytes blob.contentGeneration = true) {failing : Option PublishStep}
    {hadActive : Bool} {seen : List RunDirectory} {preserved : RunDirectory}
    (hcandidate : preserved (.candidate suffix) = some blob.bytes) (hpolicy : preserved .policy = none)
    (hbackup : if hadActive then preserved (.backup suffix) = directory .policy else directory .policy = none) :
    PublishEnd directory blob suffix (replaceActive blob suffix failing hadActive seen preserved) := by
  unfold replaceActive
  split
  · refine discard_end h ?_ _
    cases hadActive
    · simpa [hpolicy] using hbackup.symm
    · simpa using hbackup
  · split
    · refine .failed h rfl rfl ?_
      cases hadActive
      · simpa using hbackup.symm
      · simpa using hbackup
    · exact .published h hverify rfl rfl (by simpa using hcandidate) (by simp) (by simp)

/-- **Every call ends in one of three ways.** -/
theorem publish_end (directory : RunDirectory) (blob : PolicyBlob) (suffix : Nat) (failing : Option PublishStep) :
    PublishEnd directory blob suffix (publish directory blob suffix failing) := by
  unfold publish
  split
  · next h => exact .unchanged h rfl rfl rfl rfl
  · next h =>
    split
    · exact .failed h rfl rfl rfl
    · simp only
      split
      · exact discard_end h (by simp) _
      · exact discard_end h (by simp) _
      · exact discard_end h (by simp) _
      · exact discard_end h (by simp) _
      · exact discard_end h (by simp) _
      · split
        · exact discard_end h (by simp) _
        · next hverify =>
          have hverify : verifyPolicyBytes blob.bytes blob.contentGeneration = true := by
            rw [Bool.or_eq_true, not_or, Bool.not_eq_true', Bool.not_eq_false] at hverify
            exact hverify.2
          split
          · exact discard_end h (by simp) _
          · split
            · next hactive =>
              have hnone : directory .policy = none := by simpa using hactive
              exact replaceActive_end h hverify (by simp) (by simpa using hnone) hnone
            · split
              · exact discard_end h (by simp) _
              · exact replaceActive_end h hverify (by simp) (by simp) (by simp)

end Outcome

/-- **Publishing is all or nothing.** Whatever the run directory and whichever step fails: a call that neither
published nor found the policy unchanged leaves `policy.bin` as it was; one that published leaves the bytes of the blob
and neither candidate nor backup; and it reports unchanged exactly when `policy.bin` decodes to the generation of the
blob, and then writes nothing. -/
theorem publish_all_or_nothing (directory : RunDirectory) (blob : PolicyBlob) (suffix : Nat)
    (failing : Option PublishStep) :
    ((publish directory blob suffix failing).result.published = false →
      (publish directory blob suffix failing).result.unchanged = false →
      (publish directory blob suffix failing).directory .policy = directory .policy) ∧
    ((publish directory blob suffix failing).result.published = true →
      (publish directory blob suffix failing).directory .policy = some blob.bytes ∧
        (publish directory blob suffix failing).directory (.candidate suffix) = none ∧
        (publish directory blob suffix failing).directory (.backup suffix) = none) ∧
    ((publish directory blob suffix failing).result.unchanged = true ↔
      readGeneration (directory .policy) = some blob.contentGeneration) ∧
    ((publish directory blob suffix failing).result.unchanged = true →
      (publish directory blob suffix failing).states = [directory]) := by
  cases publish_end directory blob suffix failing with
  | unchanged h hpublished hunchanged hseen hdirectory =>
      simp [h, hpublished, hunchanged, hseen, hdirectory, Publication.states]
  | failed h hpublished hunchanged hpolicy => simp [h, hpublished, hunchanged, hpolicy]
  | published h _ hpublished hunchanged hpolicy hcandidate hbackup =>
      simp [h, hpublished, hunchanged, hpolicy, hcandidate, hbackup]

/-! ## What a reader sees meanwhile -/

/-- `policy.bin` is there and is the old policy or the new one. -/
def Readable (old new : UInt64) (directory : RunDirectory) : Prop :=
  ∃ generation, readGeneration (directory .policy) = some generation ∧ (generation = old ∨ generation = new)

theorem not_readable_preserved (old new : UInt64) (directory : RunDirectory) (suffix : Nat) :
    ¬ Readable old new (directory.rename .policy (.backup suffix)) := by
  rintro ⟨generation, hgeneration, -⟩
  simp [readGeneration] at hgeneration

/-- A call that replaces a policy goes through a directory without `policy.bin`. -/
theorem publish_replaces {directory : RunDirectory} {blob : PolicyBlob} (suffix : Nat)
    (hother : readGeneration (directory .policy) ≠ some blob.contentGeneration)
    (hverify : verifyPolicyBytes blob.bytes blob.contentGeneration = true)
    (hactive : (directory .policy).isSome = true) :
    (publish directory blob suffix none).result.published = true ∧
      (directory.write (.candidate suffix) blob.bytes).rename .policy (.backup suffix) ∈
        (publish directory blob suffix none).states := by
  simp [publish, hother, hverify, hactive, replaceActive, Publication.states]

/-- The calls in which a reader finds a policy at every moment: those that have nothing to replace. -/
theorem readable_throughout_iff {directory : RunDirectory} {blob : PolicyBlob} {suffix : Nat} {old : UInt64}
    (hold : readGeneration (directory .policy) = some old)
    (hverify : verifyPolicyBytes blob.bytes blob.contentGeneration = true) :
    (∀ now ∈ (publish directory blob suffix none).states, Readable old blob.contentGeneration now) ↔
      old = blob.contentGeneration := by
  have hactive : (directory .policy).isSome = true := by
    cases hpolicy : directory .policy with
    | none => simp [readGeneration, hpolicy] at hold
    | some bytes => rfl
  constructor
  · intro h
    by_contra hne
    have hother : readGeneration (directory .policy) ≠ some blob.contentGeneration := by
      rw [hold, ne_eq, Option.some_inj]
      exact hne
    exact not_readable_preserved old blob.contentGeneration _ suffix
      (h _ (publish_replaces suffix hother hverify hactive).2)
  · intro h now hnow
    rw [publish, if_pos (by rw [hold, h])] at hnow
    obtain rfl : now = directory := by simpa [Publication.states] using hnow
    exact ⟨old, hold, Or.inl rfl⟩

/-- The policy of one app without rules, with the legacy flag off or on. -/
def sampleBlob (legacy : Bool) : PolicyBlob :=
  let document : PolicyDocument :=
    { schema := 2, allowLegacyStringBind := legacy, apps := [{ package := ascii "a.app" }] }
  ⟨(encodePolicy document).toOption.getD [], computeContentGeneration document⟩

/-- A run directory with only that policy. -/
def sampleDirectory : RunDirectory
  | .policy => some (sampleBlob false).bytes
  | _ => none

theorem readGeneration_sampleDirectory :
    readGeneration (sampleDirectory .policy) = some (sampleBlob false).contentGeneration := by
  decide +kernel

theorem readable_throughout_iff_same :
    verifyPolicyBytes (sampleBlob false).bytes (sampleBlob false).contentGeneration = true ∧
      ∀ now ∈ (publish sampleDirectory (sampleBlob false) 0 none).states,
        Readable (sampleBlob false).contentGeneration (sampleBlob false).contentGeneration now := by
  have hverify : verifyPolicyBytes (sampleBlob false).bytes (sampleBlob false).contentGeneration = true := by
    decide +kernel
  exact ⟨hverify, (readable_throughout_iff readGeneration_sampleDirectory hverify).mpr rfl⟩

/-- The other policy is published; after the first rename there is no `policy.bin`. -/
theorem not_readable_throughout :
    ∃ old, readGeneration (sampleDirectory .policy) = some old ∧
      (publish sampleDirectory (sampleBlob true) 0 none).result.published = true ∧
      ∃ now ∈ (publish sampleDirectory (sampleBlob true) 0 none).states, now .policy = none := by
  have hother : readGeneration (sampleDirectory .policy) ≠ some (sampleBlob true).contentGeneration := by decide +kernel
  have hverify : verifyPolicyBytes (sampleBlob true).bytes (sampleBlob true).contentGeneration = true := by decide +kernel
  obtain ⟨hpublished, hstates⟩ := publish_replaces 0 hother hverify rfl
  exact ⟨_, readGeneration_sampleDirectory, hpublished, _, hstates, Directory.rename_source (by decide)⟩

end PathGuard.Control
