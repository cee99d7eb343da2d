import PathGuard.Daemon.ReconcilerInv

/-!
# Whether a reconcile converges

A call that compiles ends as the source and the device ask. A call that sees the digest of the last compiled source on
a device that has not changed compiles nothing and returns the status it finds: right when that status is the one the
compile left, and when the publish of that compile went through. A source that could not be loaded in between, or a
publish that failed, makes the status stale. What was compiled last and what failed since is kept beside the daemon.

* `Outcome`, `compile_outcome` : what a compile should leave, and does;
* `History`, `Recorded` : what was compiled last, beside the daemon (`recorded_next`);
* `reconcile_converges_iff` : when a call converges.
-/

namespace PathGuard.Control

open Rules (TomlParser RulesLimits SourceBuffer PolicyBlob DeviceSnapshot verifyPolicyBytes)

/-! ## How a compile ends -/

/-- The state a compile of the source leaves on the device. -/
inductive Outcome (toml : TomlParser) (limits : RulesLimits) (snapshot : DeviceSnapshot) (source : SourceBuffer)
    (publishFailed : Bool) (state : ControlState) (run : RunDirectory) : Prop
  | notCompiled {error : ControlError} : buildCandidate toml limits source = .error error →
      publishFailed = false → state.status = .sourceInvalid →
      Outcome toml limits snapshot source publishFailed state run
  | notAdmitted {candidate : Candidate} : buildCandidate toml limits source = .ok candidate →
      candidate.admitted snapshot = false → publishFailed = false →
      state.status = .environmentUnsupported → Outcome toml limits snapshot source publishFailed state run
  | notPublished {candidate : Candidate} : buildCandidate toml limits source = .ok candidate →
      candidate.admitted snapshot = true → publishFailed = true → state.status = .publishFailed →
      Outcome toml limits snapshot source publishFailed state run
  | active {candidate : Candidate} : buildCandidate toml limits source = .ok candidate →
      candidate.admitted snapshot = true → publishFailed = false → state.status = .active →
      state.errorCode = [] → readGeneration (run .policy) = some candidate.blob.contentGeneration →
      Outcome toml limits snapshot source publishFailed state run

/-- A candidate is verified before it is returned. -/
theorem verify_of_buildCandidate {toml : TomlParser} {limits : RulesLimits} {source : SourceBuffer}
    {candidate : Candidate} (h : buildCandidate toml limits source = .ok candidate) :
    verifyPolicyBytes candidate.blob.bytes candidate.blob.contentGeneration = true := by
  simp only [buildCandidate] at h
  split at h
  · next canonical blob hok hcanonical hblob =>
    obtain rfl := Except.ok.inj h
    obtain ⟨document, haccepted⟩ := Rules.accepted_of_ok hok
    obtain ⟨found, hfound, hverify⟩ := haccepted.blob
    obtain rfl : found = blob := Option.some.inj (hfound.symm.trans hblob)
    exact Rules.verify_of_encodeAndVerify hverify
  · split at h
    · cases h
    · cases h

theorem publish_ok (directory : RunDirectory) {blob : PolicyBlob}
    (hverify : verifyPolicyBytes blob.bytes blob.contentGeneration = true) (suffix : Nat) :
    (publish directory blob suffix none).result.ok = true := by
  unfold publish
  split
  · rfl
  · simp only [reduceCtorEq, if_false, hverify, Bool.or_false, Bool.not_true, decide_false]
    split
    · simp [replaceActive, PublishResult.ok]
    · simp [replaceActive, PublishResult.ok]

section Compile
variable {toml : TomlParser} {daemon : Daemon} {loaded : SourceSnapshot} {failing : Option PublishStep} {suffix : Nat}

theorem deploy_outcome {limits : RulesLimits} {snapshot : DeviceSnapshot} {source : SourceBuffer}
    {candidate : Candidate} (hbuild : buildCandidate toml limits source = .ok candidate)
    (hadmitted : candidate.admitted snapshot = true) :
    Outcome toml limits snapshot source
      (decide ((daemon.deploy candidate.blob failing suffix).1.state.status = .publishFailed))
      (daemon.deploy candidate.blob failing suffix).1.state (daemon.deploy candidate.blob failing suffix).2.run := by
  unfold Daemon.deploy
  cases publish_end daemon.run candidate.blob suffix failing with
  | unchanged hgeneration hpublished hunchanged hseen hdirectory =>
      simp only [PublishResult.ok, hpublished, hunchanged, hdirectory]
      rw [if_neg (by decide)]
      refine .active hbuild hadmitted rfl rfl rfl ?_
      simpa [Daemon.report] using hgeneration
  | failed hgeneration hpublished hunchanged hpolicy =>
      simp only [PublishResult.ok, hpublished, hunchanged]
      rw [if_pos (by decide)]
      exact .notPublished hbuild hadmitted rfl rfl
  | published hgeneration hverify hpublished hunchanged hpolicy hcandidate hbackup =>
      simp only [PublishResult.ok, hpublished, hunchanged]
      rw [if_neg (by decide)]
      refine .active hbuild hadmitted rfl rfl rfl ?_
      simpa [Daemon.report, hpolicy] using readGeneration_of_verify hverify

/-- **How a compile ends.** -/
theorem compile_outcome (toml : TomlParser) (daemon : Daemon) (loaded : SourceSnapshot)
    (failing : Option PublishStep) (suffix : Nat) :
    Outcome toml daemon.reconciler.limits daemon.reconciler.snapshot loaded.source
      (decide ((daemon.compile toml loaded failing suffix).1.state.status = .publishFailed))
      (daemon.compile toml loaded failing suffix).1.state (daemon.compile toml loaded failing suffix).2.run := by
  simp only [Daemon.compile]
  split
  · next error hbuild => exact .notCompiled hbuild rfl rfl
  · next candidate hbuild =>
    split
    · next hadmitted =>
      rw [Bool.not_eq_true'] at hadmitted
      exact .notAdmitted hbuild hadmitted rfl rfl
    · next hadmitted =>
      rw [Bool.not_eq_true', Bool.not_eq_false] at hadmitted
      exact deploy_outcome hbuild hadmitted

theorem deploy_status_of_verify {blob : PolicyBlob}
    (hverify : verifyPolicyBytes blob.bytes blob.contentGeneration = true) :
    (daemon.deploy blob none suffix).1.state.status = .active := by
  simp only [Daemon.deploy]
  rw [if_neg (by rw [publish_ok daemon.run hverify suffix]; decide)]
  rfl

theorem compile_status_ne : (daemon.compile toml loaded none suffix).1.state.status ≠ .publishFailed := by
  simp only [Daemon.compile]
  split
  · exact fun h => by cases h
  · next candidate hbuild =>
    split
    · exact fun h => by cases h
    · rw [deploy_status_of_verify (verify_of_buildCandidate hbuild)]
      decide

theorem compile_reconciler (toml : TomlParser) (daemon : Daemon) (loaded : SourceSnapshot)
    (failing : Option PublishStep) (suffix : Nat) :
    (daemon.compile toml loaded failing suffix).2.reconciler.limits = daemon.reconciler.limits ∧
      (daemon.compile toml loaded failing suffix).2.reconciler.snapshot = daemon.reconciler.snapshot ∧
      (daemon.compile toml loaded failing suffix).2.reconciler.state =
        (daemon.compile toml loaded failing suffix).1.state ∧
      (daemon.compile toml loaded failing suffix).1.state.sourceDigest = loaded.digest ∧
      (daemon.compile toml loaded failing suffix).2.reconciler.deviceDirty = false ∧
      (daemon.compile toml loaded failing suffix).1.compiled = true := by
  simp only [Daemon.compile, Daemon.deploy]
  split
  · exact ⟨rfl, rfl, rfl, rfl, rfl, rfl⟩
  · split
    · exact ⟨rfl, rfl, rfl, rfl, rfl, rfl⟩
    · split
      · exact ⟨rfl, rfl, rfl, rfl, rfl, rfl⟩
      · exact ⟨rfl, rfl, rfl, rfl, rfl, rfl⟩

end Compile

/-! ## What was compiled last -/

/-- What happened to a reconciler so far: the source compiled last, whether its publish failed, and whether a source
could not be loaded since. -/
structure History where
  compiled : Option SourceBuffer := none
  publishFailed : Bool := false
  loadFailed : Bool := false

/-- A `Reconcile` in the history. -/
def History.reconcile (history : History) (toml : TomlParser) (daemon : Daemon) (source : SourceRead)
    (failing : Option PublishStep) (suffix : Nat) : History :=
  match loadRulesSource daemon.reconciler.limits source with
  | .error _ => { history with loadFailed := true }
  | .ok loaded =>
      let result := (daemon.reconcile toml source failing suffix).1
      if result.compiled then ⟨some loaded.source, result.state.status = .publishFailed, false⟩ else history

/-- A daemon and its history. -/
structure Observed where
  daemon : Daemon
  history : History := {}

/-- What a call adds to the history. A rejected `SaveRules` reconciles nothing. -/
def Observed.record (toml : TomlParser) (observed : Observed) : Call → History
  | .reconcile source failing suffix => observed.history.reconcile toml observed.daemon source failing suffix
  | .saveRules expected replacement environment failing suffix =>
      match observed.daemon.checkSave toml expected replacement environment with
      | .error _ => observed.history
      | .ok () => observed.history.reconcile toml observed.daemon environment.afterCommit failing suffix
  | .setDeviceSnapshot _ => observed.history

def Observed.next (toml : TomlParser) (observed : Observed) (call : Call) : Option Observed :=
  (observed.daemon.next toml call).map fun after => ⟨after, observed.record toml call⟩

theorem exists_observed {toml : TomlParser} {start daemon : Daemon} (hrun : Run.Reaches (Daemon.next toml) start daemon) :
    ∃ history, Run.Reaches (Observed.next toml) ⟨start, {}⟩ ⟨daemon, history⟩ := by
  induction hrun with
  | refl => exact ⟨{}, .refl _⟩
  | @tail before after call _ _ hnext ih =>
      obtain ⟨history, hobserved⟩ := ih
      refine ⟨Observed.record toml ⟨before, history⟩ call, hobserved.tail (l := call) trivial ?_⟩
      rw [Observed.next, hnext, Option.map_some]

/-- The status is that of the last compile, unless a source could not be loaded since. A device that has changed can
ask for another one. -/
structure Recorded (toml : TomlParser) (observed : Observed) : Prop where
  fresh : observed.history.compiled = none → observed.daemon.reconciler.state.sourceDigest = []
  digest : ∀ source, observed.history.compiled = some source →
    source.fileName = kRulesFileName ∧ observed.daemon.reconciler.state.sourceDigest = sourceDigest source.bytes
  loadFailed : observed.history.loadFailed = true → observed.daemon.reconciler.state.status = .sourceInvalid
  outcome : ∀ source, observed.history.compiled = some source → observed.daemon.reconciler.deviceDirty = false →
    observed.history.loadFailed = false →
    Outcome toml observed.daemon.reconciler.limits observed.daemon.reconciler.snapshot source
      observed.history.publishFailed observed.daemon.reconciler.state observed.daemon.run

theorem Outcome.of_same {toml : TomlParser} {limits : RulesLimits} {snapshot : DeviceSnapshot} {source : SourceBuffer}
    {publishFailed : Bool} {state after : ControlState} {run afterRun : RunDirectory}
    (h : Outcome toml limits snapshot source publishFailed state run) (hstatus : after.status = state.status)
    (herror : after.errorCode = state.errorCode) (hpolicy : afterRun .policy = run .policy) :
    Outcome toml limits snapshot source publishFailed after afterRun := by
  cases h with
  | notCompiled hbuild hfailed hstate => exact .notCompiled hbuild hfailed (hstatus.trans hstate)
  | notAdmitted hbuild hadmitted hfailed hstate => exact .notAdmitted hbuild hadmitted hfailed (hstatus.trans hstate)
  | notPublished hbuild hadmitted hfailed hstate => exact .notPublished hbuild hadmitted hfailed (hstatus.trans hstate)
  | active hbuild hadmitted hfailed hstate hcode hgeneration =>
      exact .active hbuild hadmitted hfailed (hstatus.trans hstate) (herror.trans hcode) (hpolicy ▸ hgeneration)

section Steps
variable {toml : TomlParser} {daemon : Daemon} {history : History}

theorem recorded_reconcile (h : Recorded toml ⟨daemon, history⟩) (source : SourceRead) (failing : Option PublishStep)
    (suffix : Nat) :
    Recorded toml ⟨(daemon.reconcile toml source failing suffix).2,
      history.reconcile toml daemon source failing suffix⟩ := by
  cases hload : loadRulesSource daemon.reconciler.limits source with
  | error error =>
      simp only [Daemon.reconcile, History.reconcile, hload]
      exact ⟨h.fresh, h.digest, fun _ => rfl, (fun _ _ _ hloaded => by cases hloaded)⟩
  | ok loaded =>
      by_cases hskip : loaded.digest = daemon.reconciler.state.sourceDigest ∧ daemon.reconciler.deviceDirty = false
      · simp only [History.reconcile, hload, reconcile_skipped hload hskip.1 hskip.2, Daemon.report]
        refine ⟨h.fresh, h.digest, h.loadFailed, fun compiled hcompiled hdirty hloaded => ?_⟩
        exact (h.outcome compiled hcompiled hdirty hloaded).of_same rfl rfl (by simp)
      · have hchanged : loaded.digest ≠ daemon.reconciler.state.sourceDigest ∨ daemon.reconciler.deviceDirty = true := by
          rw [not_and_or, Bool.not_eq_false] at hskip
          exact hskip
        obtain ⟨hlimits, hsnapshot, hstate, hdigest, -, hcompiled⟩ :=
          compile_reconciler toml daemon loaded failing suffix
        simp only [History.reconcile, hload, reconcile_compiled hload hchanged, hcompiled, if_true]
        refine ⟨(fun hnone => by cases hnone), fun compiled hsome => ?_, (fun hfailed => by cases hfailed),
          fun compiled hsome _ _ => ?_⟩
        · obtain rfl := Option.some.inj hsome
          simp only [hstate, hdigest]
          exact loadRulesSource_ok hload
        · obtain rfl := Option.some.inj hsome
          simp only [hlimits, hsnapshot, hstate]
          exact compile_outcome toml daemon loaded failing suffix

/-- **Every call keeps the record.** -/
theorem recorded_next {observed after : Observed} {call : Call} (h : Recorded toml observed)
    (hnext : observed.next toml call = some after) : Recorded toml after := by
  obtain rfl := Option.some.inj hnext
  cases call with
  | reconcile source failing suffix => exact recorded_reconcile h source failing suffix
  | saveRules expected replacement environment failing suffix =>
      simp only [Daemon.perform, Daemon.saveRules, Observed.record]
      cases observed.daemon.checkSave toml expected replacement environment with
      | error error => exact h
      | ok _ => exact recorded_reconcile h environment.afterCommit failing suffix
  | setDeviceSnapshot snapshot =>
      exact ⟨h.fresh, h.digest, h.loadFailed, (fun _ _ hdirty => by cases hdirty)⟩

end Steps

/-! ## Convergence -/

/-- What a call should leave: the source active where it compiles and the device admits it, and else the status that
says why not. -/
def Converged (toml : TomlParser) (limits : RulesLimits) (snapshot : DeviceSnapshot) (source : SourceBuffer)
    (state : ControlState) (run : RunDirectory) : Prop :=
  match buildCandidate toml limits source with
  | .error _ => state.status = .sourceInvalid
  | .ok candidate =>
      if candidate.admitted snapshot then
        state.status = .active ∧ state.errorCode = [] ∧
          readGeneration (run .policy) = some candidate.blob.contentGeneration
      else state.status = .environmentUnsupported

/-- The call compiles, or there is nothing to make up for: its source is the one compiled last, and that one does not
compile or was neither followed by a failed load nor failed to be published. -/
def Settled (toml : TomlParser) (observed : Observed) (loaded : SourceSnapshot) : Prop :=
  loaded.digest ≠ observed.daemon.reconciler.state.sourceDigest ∨ observed.daemon.reconciler.deviceDirty = true ∨
    ∃ compiled, observed.history.compiled = some compiled ∧ compiled.bytes = loaded.source.bytes ∧
      ((∃ error, buildCandidate toml observed.daemon.reconciler.limits loaded.source = .error error) ∨
        observed.history.loadFailed = false ∧ observed.history.publishFailed = false)

section Converge
variable {toml : TomlParser} {limits : RulesLimits} {snapshot : DeviceSnapshot} {source : SourceBuffer}
  {state : ControlState} {run : RunDirectory}

theorem Outcome.converged (h : Outcome toml limits snapshot source false state run) :
    Converged toml limits snapshot source state run := by
  unfold Converged
  cases h with
  | notCompiled hbuild _ hstatus => simpa [hbuild] using hstatus
  | notAdmitted hbuild hadmitted _ hstatus => simpa [hbuild, hadmitted] using hstatus
  | notPublished _ _ hfailed _ => cases hfailed
  | active hbuild hadmitted _ hstatus herror hgeneration =>
      simpa [hbuild, hadmitted] using ⟨hstatus, herror, hgeneration⟩

theorem Outcome.not_converged (h : Outcome toml limits snapshot source true state run) :
    ¬ Converged toml limits snapshot source state run := by
  unfold Converged
  cases h with
  | notCompiled _ hfailed _ => cases hfailed
  | notAdmitted _ _ hfailed _ => cases hfailed
  | notPublished hbuild hadmitted _ hstatus => simp [hbuild, hadmitted, hstatus]
  | active _ _ hfailed => cases hfailed

theorem Converged.status_ne {candidate : Candidate} (h : Converged toml limits snapshot source state run)
    (hbuild : buildCandidate toml limits source = .ok candidate) : state.status ≠ .sourceInvalid := by
  simp only [Converged, hbuild] at h
  split at h
  · rw [h.1]
    decide
  · rw [h]
    decide

theorem converged_congr {after : ControlState} {afterRun : RunDirectory} (hstatus : after.status = state.status)
    (herror : after.errorCode = state.errorCode) (hpolicy : afterRun .policy = run .policy) :
    Converged toml limits snapshot source after afterRun ↔ Converged toml limits snapshot source state run := by
  simp only [Converged, hstatus, herror, hpolicy]

/-- The status that was recorded for a source, when it is the one the source should have. -/
theorem Recorded.converged_iff {observed : Observed} (h : Recorded toml observed)
    (hcompiled : observed.history.compiled = some source) (hdirty : observed.daemon.reconciler.deviceDirty = false) :
    Converged toml observed.daemon.reconciler.limits observed.daemon.reconciler.snapshot source
        observed.daemon.reconciler.state observed.daemon.run ↔
      (∃ error, buildCandidate toml observed.daemon.reconciler.limits source = .error error) ∨
        observed.history.loadFailed = false ∧ observed.history.publishFailed = false := by
  cases hloaded : observed.history.loadFailed with
  | true =>
      have hstatus := h.loadFailed hloaded
      cases hbuild : buildCandidate toml observed.daemon.reconciler.limits source with
      | error error => simp [Converged, hbuild, hstatus]
      | ok candidate => simpa using fun hconverged => Converged.status_ne hconverged hbuild hstatus
  | false =>
      have houtcome := h.outcome source hcompiled hdirty hloaded
      cases hfailed : observed.history.publishFailed with
      | false =>
          rw [hfailed] at houtcome
          simpa using houtcome.converged
      | true =>
          rw [hfailed] at houtcome
          have hnot := houtcome.not_converged
          cases houtcome with
          | notPublished hbuild _ _ _ => simpa [hbuild] using hnot
          | notCompiled _ hfailed _ => cases hfailed
          | notAdmitted _ _ hfailed _ => cases hfailed
          | active _ _ hfailed => cases hfailed

end Converge

theorem recorded_start (toml : TomlParser) (limits : RulesLimits) (snapshot : DeviceSnapshot) (run : RunDirectory) :
    Recorded toml ⟨Daemon.start limits snapshot run, {}⟩ :=
  ⟨fun _ => rfl, (fun _ hsome => by cases hsome), (fun hfailed => by cases hfailed), (fun _ hsome => by cases hsome)⟩

theorem sourceBuffer_eq {a b : SourceBuffer} (hname : a.fileName = b.fileName) (hbytes : a.bytes = b.bytes) : a = b := by
  cases a
  cases b
  simp_all

/-- **When a reconcile converges.** After every run, a call that loads `rules.toml` and in which no step of the publish
fails leaves what it should if it is settled; and only then, short of two sources with one digest. -/
theorem reconcile_converges_iff {toml : TomlParser} {limits : RulesLimits} {snapshot : DeviceSnapshot}
    {run : RunDirectory} {observed : Observed}
    (hrun : Run.Reaches (Observed.next toml) ⟨Daemon.start limits snapshot run, {}⟩ observed) {source : SourceRead}
    {loaded : SourceSnapshot} (hload : loadRulesSource observed.daemon.reconciler.limits source = .ok loaded)
    {suffix : Nat} {result : ReconcileResult} {after : Daemon}
    (hcall : observed.daemon.reconcile toml source none suffix = (result, after)) :
    (Settled toml observed loaded → Converged toml observed.daemon.reconciler.limits
        observed.daemon.reconciler.snapshot loaded.source result.state after.run) ∧
      (Converged toml observed.daemon.reconciler.limits observed.daemon.reconciler.snapshot loaded.source result.state
        after.run → Settled toml observed loaded ∨
          ∃ compiled, observed.history.compiled = some compiled ∧ compiled.bytes ≠ loaded.source.bytes ∧
            sourceDigest compiled.bytes = sourceDigest loaded.source.bytes) := by
  have hrecorded : Recorded toml observed :=
    hrun.invariant (recorded_start toml limits snapshot run) fun _ _ _ h _ hnext => recorded_next h hnext
  obtain ⟨hname, hdigest⟩ := loadRulesSource_ok hload
  by_cases hskip : loaded.digest = observed.daemon.reconciler.state.sourceDigest ∧
      observed.daemon.reconciler.deviceDirty = false
  · -- nothing is compiled: the status that is returned is the one recorded
    rw [reconcile_skipped hload hskip.1 hskip.2] at hcall
    have hsame : Converged toml observed.daemon.reconciler.limits observed.daemon.reconciler.snapshot loaded.source
          result.state after.run ↔
        Converged toml observed.daemon.reconciler.limits observed.daemon.reconciler.snapshot loaded.source
          observed.daemon.reconciler.state observed.daemon.run := by
      obtain ⟨rfl, rfl⟩ := Prod.mk.inj hcall
      exact converged_congr rfl rfl (by simp)
    rw [hsame]
    constructor
    · rintro (hne | hdirty | ⟨compiled, hcompiled, hbytes, hsettled⟩)
      · exact absurd hskip.1 hne
      · rw [hskip.2] at hdirty
        cases hdirty
      · obtain rfl := sourceBuffer_eq ((hrecorded.digest compiled hcompiled).1.trans hname.symm) hbytes
        exact (hrecorded.converged_iff hcompiled hskip.2).mpr hsettled
    · intro hconverged
      cases hcompiled : observed.history.compiled with
      | none =>
          rw [hrecorded.fresh hcompiled, hdigest] at hskip
          exact absurd hskip.1 (sourceDigest_ne_nil _)
      | some compiled =>
          obtain ⟨hcompiledName, hcompiledDigest⟩ := hrecorded.digest compiled hcompiled
          by_cases hbytes : compiled.bytes = loaded.source.bytes
          · obtain rfl := sourceBuffer_eq (hcompiledName.trans hname.symm) hbytes
            exact Or.inl (Or.inr (Or.inr ⟨_, hcompiled, rfl, (hrecorded.converged_iff hcompiled hskip.2).mp hconverged⟩))
          · exact Or.inr ⟨compiled, rfl, hbytes, by rw [← hcompiledDigest, ← hskip.1, hdigest]⟩
  · have hchanged : loaded.digest ≠ observed.daemon.reconciler.state.sourceDigest ∨
        observed.daemon.reconciler.deviceDirty = true := by
      rw [not_and_or, Bool.not_eq_false] at hskip
      exact hskip
    refine ⟨fun _ => ?_, fun _ => Or.inl ?_⟩
    · rw [reconcile_compiled hload hchanged] at hcall
      have houtcome := compile_outcome toml observed.daemon loaded none suffix
      rw [decide_eq_false compile_status_ne, hcall] at houtcome
      exact houtcome.converged
    · exact hchanged.imp_right Or.inl

theorem reconcile_converges_iff_oneRedirect :
    ∃ result after, (Daemon.start {} fullDevice fun _ => none).reconcile oneRedirect.toml
        (.stable oneRedirect.text) none 0 = (result, after) ∧
      Converged oneRedirect.toml {} fullDevice oneRedirect.source result.state after.run := by
  have hfirst : ∀ (toml : TomlParser) (limits : RulesLimits) (source : SourceRead) (loaded : SourceSnapshot),
      loadRulesSource limits source = .ok loaded →
      ∃ result after, (Daemon.start limits fullDevice fun _ => none).reconcile toml source none 0 = (result, after) ∧
        Converged toml limits fullDevice loaded.source result.state after.run := by
    intro toml limits source loaded hload
    have hsettled : Settled toml ⟨Daemon.start limits fullDevice fun _ => none, {}⟩ loaded := by
      refine Or.inl ?_
      rw [(loadRulesSource_ok hload).2]
      exact sourceDigest_ne_nil _
    exact ⟨_, _, rfl, (reconcile_converges_iff (.refl _) hload rfl).1 hsettled⟩
  exact hfirst oneRedirect.toml {} (.stable oneRedirect.text) ⟨oneRedirect.source, sourceDigest oneRedirect.text⟩
    load_oneRedirect

/-- The first publish fails. The next call meets the same source, on the same device, and nothing fails; it returns the
old error and publishes nothing. -/
theorem not_converged_after_failed_publish :
    ∃ result failed candidate stale after,
      (Daemon.start {} fullDevice fun _ => none).reconcile oneRedirect.toml (.stable oneRedirect.text)
        (some .create) 0 = (result, failed) ∧
      failed.reconcile oneRedirect.toml (.stable oneRedirect.text) none 1 = (stale, after) ∧
      buildCandidate oneRedirect.toml {} oneRedirect.source = .ok candidate ∧ candidate.admitted fullDevice = true ∧
      stale.state.status = .publishFailed ∧ after.run .policy = none := by
  obtain ⟨candidate, hbuild, hadmitted, -⟩ := candidate_oneRedirect
  have hcreate : publish (fun _ => none) candidate.blob 0 (some .create) =
      ⟨⟨false, false, candidate.blob.contentGeneration, "cannot create policy candidate"⟩, [], fun _ => none⟩ := by
    rw [publish, if_neg (by simp [readGeneration]), if_pos rfl]
  obtain ⟨result, failed, hfirst, hlimits, hdirty, hdigest, hstatus, hpolicy⟩ :=
    start_reconcile_failed load_oneRedirect hbuild hadmitted (by rw [hcreate]; rfl)
  rw [hcreate] at hpolicy
  have hload : loadRulesSource failed.reconciler.limits (.stable oneRedirect.text) =
      .ok ⟨oneRedirect.source, sourceDigest oneRedirect.text⟩ := by
    rw [hlimits]
    exact load_oneRedirect
  obtain ⟨stale, after, hsecond, hstale, hafter⟩ :
      ∃ stale after, failed.reconcile oneRedirect.toml (.stable oneRedirect.text) none 1 = (stale, after) ∧
        stale.state.status = failed.reconciler.state.status ∧ after.run .policy = failed.run .policy := by
    rw [reconcile_skipped hload hdigest.symm hdirty]
    exact ⟨_, _, rfl, rfl, by simp⟩
  exact ⟨result, failed, candidate, stale, after, hfirst, hsecond, hbuild, hadmitted, hstale.trans hstatus,
    hafter.trans hpolicy⟩

end PathGuard.Control
