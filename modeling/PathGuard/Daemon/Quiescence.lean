import PathGuard.Daemon.EventLoop
import PathGuard.Lib.Progress

/-!
# Where the daemon comes to rest

Once nobody edits the rules, the loop of the daemon reads the events that wait, reconciles and waits again.

* `work` : a measure that every calm step makes smaller;
* `comes_to_rest` : the loop stops within that many steps, and has loaded the rules then;
* `Remembers` : what the reconciler knows, after every step;
* `idle_converges_iff` : at rest the device has what the rules ask for unless a load or a publish failed that nothing has
  made up for.
-/

namespace PathGuard.Control.EventLoop

open Rules (TomlParser RulesLimits)

/-! ## The loop comes to rest -/

/-- A step of the daemon in which no system call fails and no time passes. -/
def calm : EventLoop → Label → Prop
  | _, .beginLoad | _, .endLoad _ _ _ | _, .watchAdded | _, .pollReady | _, .readEvents _ | _, .readEmpty _ => True
  | _, _ => False

/-- The events that wait. -/
def events (loop : EventLoop) : Nat := (loop.queue.getD []).length

/-- How many calm steps are left at most: the events are read, and the loop reconciles before and after. -/
def work (loop : EventLoop) : Nat :=
  let reading := if loop.events = 0 then 0 else loop.events + 4
  match loop.pc with
  | .reconcile .inotify => reading + 2
  | .loading .inotify => reading + 1
  | .poll => reading
  | .drain _ => loop.events + 3
  | .reconcile .initial => 3
  | .loading .initial => 2
  | .reconcile .polling => 2
  | .loading .polling => 1
  | .addWatch => 1
  | .sleep => 0

theorem work_le (loop : EventLoop) : loop.work ≤ loop.events + 6 := by
  unfold work
  split <;> grind

section Steps
variable {toml : TomlParser} {capacity : Nat} {loop after : EventLoop} {label : Label}

theorem work_next (hcalm : calm loop label) (hnext : loop.next toml capacity label = some after) :
    after.work < loop.work := by
  cases steps_of_next hnext with
  | edit => cases hcalm
  | @beginLoad mode hpc => cases mode <;> simp [work, hpc, events]
  | @endLoad mode _ _ _ hpc => cases mode <;> simp [work, hpc, events, reconciled, LoopMode.next]
  | watchAdded hpc => simp [work, hpc, events]
  | watchFailed => cases hcalm
  | polls _ hlabel =>
      rcases hlabel with rfl | ⟨probe, rfl⟩
      · cases hcalm
      · cases hcalm
  | topologyFound _ hlabel =>
      obtain ⟨probe, rfl⟩ := hlabel
      cases hcalm
  | pollReady hpc hqueue =>
      have hevents : loop.events ≠ 0 := fun hzero => hqueue (List.length_eq_zero_iff.mp hzero)
      simp only [work, hpc, if_neg hevents]
      exact Nat.lt_succ_self _
  | readEvents hpc hqueue hpos hcount =>
      simp only [work, hpc, events, hqueue, Option.getD_some, List.length_drop]
      omega
  | reconciles hpc hqueue => simp [work, hpc, events, hqueue]
  | ignores hpc hqueue => simp [work, hpc, events, hqueue]
  | fallsBack _ hlabel =>
      rcases hlabel with rfl | rfl
      · cases hcalm
      · cases hcalm
  | woken => cases hcalm

theorem calm_next (hcalm : calm loop label) (hnext : loop.next toml capacity label = some after)
    (hqueue : loop.queue ≠ none) : after.file = loop.file ∧ after.queue ≠ none := by
  cases steps_of_next hnext with
  | edit | watchFailed | woken => cases hcalm
  | beginLoad | endLoad | pollReady | ignores => exact ⟨rfl, hqueue⟩
  | watchAdded | readEvents => exact ⟨rfl, Option.some_ne_none _⟩
  | polls => exact ⟨rfl, hqueue⟩
  | topologyFound | reconciles => simpa using hqueue
  | fallsBack _ hlabel =>
      rcases hlabel with rfl | rfl
      · cases hcalm
      · cases hcalm

theorem waits_of_atRest (h : Watchful loop) (hqueue : loop.queue ≠ none)
    (hrest : Run.AtRest (next toml capacity) calm loop) : loop.pc = .poll ∧ loop.queue = some [] := by
  obtain ⟨queue, hsome⟩ := Option.ne_none_iff_exists'.mp hqueue
  have hwatching : loop.pc.watching = true := by rw [← h.queue, hsome, Option.isSome_some]
  cases hpc : loop.pc with
  | reconcile mode =>
      have hnone := hrest .beginLoad trivial
      simp [next, hpc] at hnone
  | loading mode =>
      have hnone := hrest (.endLoad loop.file.read none 0) trivial
      simp [next, hpc] at hnone
  | poll =>
      have hnone := hrest .pollReady trivial
      simpa [next, hpc, hsome] using hnone
  | drain configChanged =>
      have hnone := hrest (.readEmpty false) trivial
      have hread := hrest (.readEvents queue.length) trivial
      simp [next, hpc, hsome] at hnone hread
      exact absurd hread hnone
  | addWatch | sleep => rw [hpc] at hwatching; cases hwatching

end Steps

section Runs
variable {toml : TomlParser} {capacity : Nat} {limits : RulesLimits} {topologySupported : Bool} {run : RunDirectory}
  {file : RulesFile} {loop after : EventLoop}

theorem calm_keeps (hcalm : Run.ReachesBy (next toml capacity) calm loop after) (hqueue : loop.queue ≠ none) :
    after.file = loop.file ∧ after.queue ≠ none := by
  refine hcalm.invariant (I := fun u => u.file = loop.file ∧ u.queue ≠ none) ⟨rfl, hqueue⟩ fun u l v hu hl hv => ?_
  obtain ⟨hfile, hkept⟩ := calm_next hl hv hu.2
  exact ⟨hfile.trans hu.1, hkept⟩

/-- **The loop comes to rest.** From every state with a watch in which nobody has the rules open for writing, once the
edits stop: the daemon takes at most six steps more than there are events in the queue, it can come to rest, and wherever
it rests it waits with an empty queue and the rules as they are, unless it missed them before the watch. -/
theorem comes_to_rest (hrun : Run.Reaches (next toml capacity) (start limits topologySupported run file) loop)
    (hqueue : loop.queue ≠ none) (hwriters : loop.file.writers = 0) :
    (∀ count after, Run.RunsFor (next toml capacity) calm count loop after → count ≤ loop.events + 6) ∧
      (∃ after, Run.ReachesBy (next toml capacity) calm loop after ∧ Run.AtRest (next toml capacity) calm after) ∧
      ∀ after, Run.ReachesBy (next toml capacity) calm loop after → Run.AtRest (next toml capacity) calm after →
        after.pc = .poll ∧ after.queue = some [] ∧ after.file = loop.file ∧
          (after.trace.seen = some after.file.read ∨ after.trace.missed = some after.file.read) := by
  refine ⟨fun count after hfor => ?_, Run.exists_atRest (fun _ _ _ => work_next) loop, fun after hcalm hrest => ?_⟩
  · have hcount := hfor.count_le fun _ _ _ => work_next
    have hwork := loop.work_le
    omega
  · obtain ⟨hfile, hkept⟩ := calm_keeps hcalm hqueue
    have hwhole := hrun.trans hcalm.reaches
    obtain ⟨hpc, hempty⟩ := waits_of_atRest (watchful_of_reaches hwhole) hkept hrest
    refine ⟨hpc, hempty, hfile, ?_⟩
    exact (watchful_of_reaches hwhole).idle hpc hempty (hfile ▸ hwriters)

/-- The daemon starts, and watches rules that do not change meanwhile. -/
def quietStart : List Label := [.beginLoad, .endLoad (.stable oneRedirect.text) none 0, .watchAdded]

/-- Rules that are removed: one event, and at most seven steps until the daemon waits without them. -/
theorem comes_to_rest_removed : ∃ loop : EventLoop, loop.file.read = .notOpened ∧
    (∀ count after, Run.RunsFor (next oneRedirect.toml 16384) calm count loop after → count ≤ 1 + 6) ∧
    ∃ after, Run.ReachesBy (next oneRedirect.toml 16384) calm loop after ∧ after.pc = .poll ∧
      (after.trace.seen = some .notOpened ∨ after.trace.missed = some .notOpened) := by
  have hrun : Run.Reaches (next oneRedirect.toml 16384)
      (start {} true (fun _ => none) ⟨.stable oneRedirect.text, 0⟩) _ :=
    Run.reaches_of_runLabels (quietStart ++ [.edit .remove]) rfl
  obtain ⟨hbound, ⟨after, hcalm, hrest⟩, hrests⟩ := comes_to_rest hrun (Option.some_ne_none _) rfl
  obtain ⟨hpc, -, hfile, hseen⟩ := hrests after hcalm hrest
  rw [hfile] at hseen
  exact ⟨_, rfl, hbound, after, hcalm, hpc, hseen⟩

end Runs

/-! ## What the device has then -/

/-- The reconciler is not at work. -/
def idle (loop : EventLoop) : Bool :=
  match loop.pc with
  | .reconcile _ | .loading _ => false
  | _ => true

/-- What is known of the reconciler, in whatever way its loads and publishes went. -/
structure Remembers (toml : TomlParser) (limits : RulesLimits) (loop : EventLoop) : Prop where
  recorded : Recorded toml ⟨loop.daemon, loop.trace.history⟩
  sameLimits : loop.daemon.reconciler.limits = limits
  snapshot : loop.daemon.reconciler.snapshot = makeDeviceSnapshot loop.topologySupported
  digest : ∀ read loaded, loop.trace.seen = some read → loadRulesSource limits read = .ok loaded →
    loop.daemon.reconciler.state.sourceDigest = loaded.digest
  clean : ∀ read loaded, loop.trace.seen = some read → loadRulesSource limits read = .ok loaded →
    loop.idle = true → loop.daemon.reconciler.deviceDirty = false
  failed : ∀ read error, loop.trace.seen = some read → loadRulesSource limits read = .error error →
    loop.trace.history.loadFailed = true

theorem remembers_start (toml : TomlParser) (limits : RulesLimits) (topologySupported : Bool) (run : RunDirectory)
    (file : RulesFile) : Remembers toml limits (start limits topologySupported run file) :=
  ⟨recorded_start toml limits _ run, rfl, rfl, (fun _ _ hseen => by cases hseen), (fun _ _ hseen => by cases hseen),
    (fun _ _ hseen => by cases hseen)⟩

section Steps
variable {toml : TomlParser} {capacity : Nat} {limits : RulesLimits} {loop after : EventLoop} {label : Label}

theorem Remembers.of_same (h : Remembers toml limits loop) (hdaemon : after.daemon = loop.daemon)
    (htopology : after.topologySupported = loop.topologySupported) (hhistory : after.trace.history = loop.trace.history)
    (hseen : after.trace.seen = loop.trace.seen) (hidle : after.idle = true → loop.idle = true) :
    Remembers toml limits after := by
  refine ⟨?_, ?_, ?_, ?_, ?_, ?_⟩
  · rw [hdaemon, hhistory]
    exact h.recorded
  · rw [hdaemon]
    exact h.sameLimits
  · rw [hdaemon, htopology]
    exact h.snapshot
  · rw [hdaemon, hseen]
    exact h.digest
  · rw [hdaemon, hseen]
    exact fun read loaded hread hload hafter => h.clean read loaded hread hload (hidle hafter)
  · rw [hhistory, hseen]
    exact h.failed

/-- A topology that is found makes the device change, and the loop reconciles. -/
theorem remembers_refresh (h : Remembers toml limits loop) (probe : Bool) (mode : LoopMode) :
    Remembers toml limits { (loop.refreshPendingTopology probe).2 with pc := .reconcile mode } := by
  unfold refreshPendingTopology
  split
  · exact h.of_same rfl rfl rfl rfl (fun hidle => by cases hidle)
  · refine ⟨⟨h.recorded.fresh, h.recorded.digest, h.recorded.loadFailed, (fun _ _ hdirty => by cases hdirty)⟩,
      h.sameLimits, rfl, h.digest, (fun _ _ _ _ hidle => by cases hidle), h.failed⟩

theorem reconcile_reconciler (daemon : Daemon) (read : SourceRead) (failing : Option PublishStep) (suffix : Nat) :
    (daemon.reconcile toml read failing suffix).2.reconciler.limits = daemon.reconciler.limits ∧
      (daemon.reconcile toml read failing suffix).2.reconciler.snapshot = daemon.reconciler.snapshot := by
  cases hload : loadRulesSource daemon.reconciler.limits read with
  | error error =>
      simp only [Daemon.reconcile, hload, Daemon.report]
      exact ⟨trivial, trivial⟩
  | ok loaded =>
      simp only [Daemon.reconcile, hload]
      split
      · exact ⟨rfl, rfl⟩
      · obtain ⟨hlimits, hsnapshot, -⟩ := compile_reconciler toml daemon loaded failing suffix
        exact ⟨hlimits, hsnapshot⟩

theorem reconcile_loaded (daemon : Daemon) {read : SourceRead} {loaded : SourceSnapshot}
    (hload : loadRulesSource daemon.reconciler.limits read = .ok loaded) (failing : Option PublishStep) (suffix : Nat) :
    (daemon.reconcile toml read failing suffix).2.reconciler.state.sourceDigest = loaded.digest ∧
      (daemon.reconcile toml read failing suffix).2.reconciler.deviceDirty = false := by
  by_cases hskip : loaded.digest = daemon.reconciler.state.sourceDigest ∧ daemon.reconciler.deviceDirty = false
  · rw [reconcile_skipped hload hskip.1 hskip.2]
    exact ⟨hskip.1.symm, hskip.2⟩
  · have hchanged : loaded.digest ≠ daemon.reconciler.state.sourceDigest ∨ daemon.reconciler.deviceDirty = true := by
      rw [not_and_or, Bool.not_eq_false] at hskip
      exact hskip
    obtain ⟨-, -, hstate, hdigest, hdirty, -⟩ := compile_reconciler toml daemon loaded failing suffix
    rw [reconcile_compiled hload hchanged, hstate]
    exact ⟨hdigest, hdirty⟩

/-- **Every step is remembered**, whether the load or the publish in it goes through or fails. -/
theorem remembers_next (h : Remembers toml limits loop) (hnext : loop.next toml capacity label = some after) :
    Remembers toml limits after := by
  cases steps_of_next hnext with
  | @edit _ file event _ =>
      cases event with
      | none => exact h.of_same rfl rfl rfl rfl id
      | some event =>
          simp only [applyEdit]
          split
          · exact h.of_same rfl rfl rfl rfl id
          · exact h.of_same rfl rfl rfl rfl id
  | beginLoad => exact h.of_same rfl rfl rfl rfl (fun hidle => by cases hidle)
  | @endLoad mode read failing suffix hpc hread =>
      obtain ⟨hlimits, hsnapshot⟩ := @reconcile_reconciler toml loop.daemon read failing suffix
      refine ⟨recorded_reconcile h.recorded read failing suffix, hlimits.trans h.sameLimits, hsnapshot.trans h.snapshot,
        fun seen found hseen hfound => ?_, fun seen found hseen hfound _ => ?_, fun seen error hseen hfound => ?_⟩
      · obtain rfl := Option.some.inj hseen
        rw [← h.sameLimits] at hfound
        exact (reconcile_loaded loop.daemon hfound failing suffix).1
      · obtain rfl := Option.some.inj hseen
        rw [← h.sameLimits] at hfound
        exact (reconcile_loaded loop.daemon hfound failing suffix).2
      · obtain rfl := Option.some.inj hseen
        rw [← h.sameLimits] at hfound
        simp only [reconciled, History.reconcile, hfound]
  | watchAdded hpc | watchFailed hpc | pollReady hpc | readEvents hpc | ignores hpc =>
      refine h.of_same rfl rfl rfl rfl fun _ => ?_
      rw [idle, hpc]
  | polls => exact h
  | topologyFound | reconciles | woken => exact remembers_refresh h _ _
  | fallsBack hpc _ =>
      refine h.of_same rfl rfl rfl rfl fun _ => ?_
      rcases hpc with hpc | ⟨configChanged, hpc⟩
      · rw [idle, hpc]
      · rw [idle, hpc]

end Steps

section Runs
variable {toml : TomlParser} {capacity : Nat} {limits : RulesLimits} {topologySupported : Bool} {run : RunDirectory}
  {file : RulesFile} {loop : EventLoop}

theorem remembers_of_reaches (hrun : Run.Reaches (next toml capacity) (start limits topologySupported run file) loop) :
    Remembers toml limits loop :=
  hrun.invariant (remembers_start toml limits topologySupported run file) fun _ _ _ h _ hnext => remembers_next h hnext

/-- **What the device has at rest.** A daemon that waits with an empty queue, with the rules closed and not missed,
whatever loads and publishes failed before: when the rules cannot be loaded the status is that of an invalid source. When
they load, the source compiled last has their digest, and the daemon is where a reconcile of it on the device as it is
now would leave it exactly when it does not compile, or no load failed since and its publish did not fail. -/
theorem idle_converges_iff (hrun : Run.Reaches (next toml capacity) (start limits topologySupported run file) loop)
    (hpc : loop.pc = .poll) (hqueue : loop.queue = some []) (hwriters : loop.file.writers = 0)
    (hmissed : loop.trace.missed ≠ some loop.file.read) :
    (∀ error, loadRulesSource limits loop.file.read = .error error →
        loop.daemon.reconciler.state.status = .sourceInvalid) ∧
      ∀ loaded, loadRulesSource limits loop.file.read = .ok loaded → ∃ source,
        loop.trace.history.compiled = some source ∧ source.fileName = kRulesFileName ∧
        sourceDigest source.bytes = sourceDigest loaded.source.bytes ∧
        (Converged toml limits (makeDeviceSnapshot loop.topologySupported) source loop.daemon.reconciler.state
            loop.daemon.run ↔
          (∃ error, buildCandidate toml limits source = .error error) ∨
            loop.trace.history.loadFailed = false ∧ loop.trace.history.publishFailed = false) := by
  have h := remembers_of_reaches hrun
  have hseen := ((watchful_of_reaches hrun).idle hpc hqueue hwriters).resolve_right hmissed
  refine ⟨fun error hload => h.recorded.loadFailed (h.failed _ error hseen hload), fun loaded hload => ?_⟩
  have hdigest := h.digest _ loaded hseen hload
  rw [(loadRulesSource_ok hload).2] at hdigest
  cases hcompiled : loop.trace.history.compiled with
  | none => exact absurd (hdigest.symm.trans (h.recorded.fresh hcompiled)) (sourceDigest_ne_nil _)
  | some source =>
      obtain ⟨hname, hsource⟩ := h.recorded.digest source hcompiled
      refine ⟨source, rfl, hname, hsource.symm.trans hdigest, ?_⟩
      have hconverged := h.recorded.converged_iff hcompiled (h.clean _ loaded hseen hload (by rw [idle, hpc]))
      rwa [h.sameLimits, h.snapshot] at hconverged

end Runs

/-! ## A start whose publish fails -/

section Start
variable (toml : TomlParser) (capacity : Nat) (limits : RulesLimits) (read : SourceRead) (failing : Option PublishStep)

/-- The daemon that waits after the start. -/
def started : EventLoop :=
  { (start limits true (fun _ => none) ⟨read, 0⟩).reconciled toml .initial read failing 0 with
    pc := .poll, queue := some [] }

theorem reaches_started : Run.Reaches (next toml capacity) (start limits true (fun _ => none) ⟨read, 0⟩)
    (started toml limits read failing) := by
  refine Run.reaches_of_runLabels [.beginLoad, .endLoad read failing 0, .watchAdded] ?_
  simp [Run.runLabels, next, start, started, reconciled, LoopMode.next]

theorem history_started {loaded : SourceSnapshot} (hload : loadRulesSource limits read = .ok loaded) :
    (started toml limits read failing).trace.history =
      ⟨some loaded.source, ((Daemon.start limits (makeDeviceSnapshot true) fun _ => none).compile toml loaded failing
        0).1.state.status = .publishFailed, false⟩ := by
  obtain ⟨-, -, -, -, -, hcompiled⟩ :=
    compile_reconciler toml (Daemon.start limits (makeDeviceSnapshot true) fun _ => none) loaded failing 0
  have hload' : loadRulesSource (Daemon.start limits (makeDeviceSnapshot true) fun _ => none).reconciler.limits read =
    .ok loaded := hload
  simp only [started, reconciled, start, History.reconcile, hload', start_reconcile hload, hcompiled, if_true]

end Start

theorem oneRedirect_admitted : ∃ candidate, buildCandidate oneRedirect.toml {} oneRedirect.source = .ok candidate ∧
    candidate.admitted (makeDeviceSnapshot true) = true := by
  have hcheck : (buildCandidate oneRedirect.toml {} oneRedirect.source).toOption.map
      (fun candidate => candidate.admitted (makeDeviceSnapshot true)) = some true := by decide +kernel
  cases hbuild : buildCandidate oneRedirect.toml {} oneRedirect.source with
  | error error => simp [hbuild, Except.toOption] at hcheck
  | ok candidate => exact ⟨candidate, rfl, by simpa [hbuild, Except.toOption] using hcheck⟩

/-- Two starts, in the second of which the policy cannot be created: the daemon waits after both, and after the second
one without what the rules ask for. -/
theorem idle_converges_iff_started :
    ∃ quiet failed : EventLoop, quiet.file = failed.file ∧
      Converged oneRedirect.toml {} (makeDeviceSnapshot true) oneRedirect.source quiet.daemon.reconciler.state
        quiet.daemon.run ∧
      ¬ Converged oneRedirect.toml {} (makeDeviceSnapshot true) oneRedirect.source failed.daemon.reconciler.state
        failed.daemon.run := by
  have hstarted : ∀ (toml : TomlParser) (limits : RulesLimits) (read : SourceRead) (loaded : SourceSnapshot)
      (candidate : Candidate), loadRulesSource limits read = .ok loaded →
      buildCandidate toml limits loaded.source = .ok candidate → candidate.admitted (makeDeviceSnapshot true) = true →
      ∃ quiet failed : EventLoop, quiet.file = failed.file ∧
        Converged toml limits (makeDeviceSnapshot true) loaded.source quiet.daemon.reconciler.state quiet.daemon.run ∧
        ¬ Converged toml limits (makeDeviceSnapshot true) loaded.source failed.daemon.reconciler.state
          failed.daemon.run := by
    intro toml limits read loaded candidate hload hbuild hadmitted
    have hrests := fun failing => (idle_converges_iff (reaches_started toml 16384 limits read failing) rfl rfl rfl
      (fun hsome => by cases hsome)).2 loaded hload
    have hhistory := fun failing => history_started toml limits read failing hload
    refine ⟨started toml limits read none, started toml limits read (some .create), rfl, ?_, ?_⟩
    · obtain ⟨source, hcompiled, -, -, hiff⟩ := hrests none
      rw [hhistory] at hiff hcompiled
      obtain rfl := Option.some.inj hcompiled
      exact hiff.mpr (Or.inr ⟨rfl, decide_eq_false compile_status_ne⟩)
    · obtain ⟨source, hcompiled, -, -, hiff⟩ := hrests (some .create)
      rw [hhistory] at hiff hcompiled
      obtain rfl := Option.some.inj hcompiled
      refine fun hconverged => ?_
      rcases hiff.mp hconverged with ⟨error, herror⟩ | ⟨-, hpublished⟩
      · rw [hbuild] at herror
        cases herror
      · refine of_decide_eq_false hpublished ?_
        simp [Daemon.compile, Daemon.start, hbuild, hadmitted, Daemon.deploy, publish, readGeneration, PublishResult.ok,
          Daemon.report, ControlState.rejected]
  obtain ⟨candidate, hbuild, hadmitted⟩ := oneRedirect_admitted
  exact hstarted oneRedirect.toml {} (.stable oneRedirect.text) ⟨oneRedirect.source, sourceDigest oneRedirect.text⟩
    candidate load_oneRedirect hbuild hadmitted

end PathGuard.Control.EventLoop
