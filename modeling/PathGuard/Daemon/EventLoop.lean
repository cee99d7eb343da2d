import PathGuard.Daemon.Convergence

/-!
# The loop of the daemon

`main`, `RunInotifyLoop` and `RunPollingLoop` of `daemon/src/main.cpp`, while others edit `rules.toml`. The kernel
reports an edit in a queue; a write into the open file is reported only when the file is closed, and a queue that is
full loses events but says so. A reading of `rules.toml` takes time: what it returns is known only when no edit came
between its start and its end. The directory stays where it is, and the rules are edited under their name in it, not
by `truncate` or through a mapping, which the watch does not ask for.

* `EventLoop.next` : a step of the loop or of an editor; `Watchful` : the invariant (`watchful_next`);
* `idle_sees_rules` : a daemon that waits has loaded the rules as they are.
-/

namespace PathGuard.Control

open Rules (TomlParser RulesLimits DeviceSnapshot)

/-! ## inotify -/

def IN_ATTRIB : UInt32 := 0x4
def IN_CLOSE_WRITE : UInt32 := 0x8
def IN_MOVED_FROM : UInt32 := 0x40
def IN_MOVED_TO : UInt32 := 0x80
def IN_CREATE : UInt32 := 0x100
def IN_DELETE : UInt32 := 0x200
def IN_Q_OVERFLOW : UInt32 := 0x4000

/-- An event with the name of the file it is about; the name of an event without one is empty. -/
structure InotifyEvent where
  mask : UInt32
  name : Bytes
  deriving DecidableEq

def kRelevantMask : UInt32 := IN_CLOSE_WRITE ||| IN_MOVED_TO ||| IN_CREATE ||| IN_ATTRIB ||| IN_DELETE ||| IN_MOVED_FROM

def isRulesEvent (event : InotifyEvent) (fileName : Bytes) : Bool :=
  if event.name.isEmpty || fileName != event.name then false else event.mask &&& kRelevantMask != 0

/-- What the loop over a buffer of events asks of each. -/
def configChangedBy (event : InotifyEvent) : Bool :=
  event.mask &&& IN_Q_OVERFLOW != 0 || isRulesEvent event kRulesFileName

def overflowEvent : InotifyEvent := ⟨IN_Q_OVERFLOW, []⟩

/-- The kernel queues an event. In a full queue only the overflow is noted, once, and a repetition of the last event is
left out. -/
def enqueue (capacity : Nat) (queue : List InotifyEvent) (event : InotifyEvent) : List InotifyEvent :=
  if capacity ≤ queue.length then
    if overflowEvent ∈ queue then queue else queue ++ [overflowEvent]
  else if queue.getLast? = some event then queue
  else queue ++ [event]

/-- The queue makes the loop reconcile. -/
def asks (queue : List InotifyEvent) : Bool := queue.any configChangedBy

theorem asks_enqueue {capacity : Nat} {queue : List InotifyEvent} {event : InotifyEvent}
    (h : asks queue = true ∨ configChangedBy event = true) : asks (enqueue capacity queue event) = true := by
  have hoverflow : configChangedBy overflowEvent = true := by decide
  unfold asks at h ⊢
  rw [List.any_eq_true]
  unfold enqueue
  split
  · split
    · next hmem => exact ⟨overflowEvent, hmem, hoverflow⟩
    · exact ⟨overflowEvent, by simp, hoverflow⟩
  · split
    · next hlast =>
      rcases h with h | h
      · exact List.any_eq_true.mp h
      · exact ⟨event, List.mem_of_getLast? hlast, h⟩
    · rcases h with h | h
      · obtain ⟨found, hfound, hchanged⟩ := List.any_eq_true.mp h
        exact ⟨found, List.mem_append_left _ hfound, hchanged⟩
      · exact ⟨event, by simp, h⟩

/-! ## Edits of the rules -/

/-- `rules.toml`: what a reading of it returns that no edit disturbs, and how many have it open for writing. -/
structure RulesFile where
  read : SourceRead
  writers : Nat := 0

/-- What others do in the directory. A file that takes the name of the rules can be open for writing already, and one
that had the name can be closed later. -/
inductive Edit
  | openForWrite
  | write (after : SourceRead)
  | close
  | closeReplaced
  | replace (after : SourceRead) (writers : Nat)
  | create (after : SourceRead) (writers : Nat)
  | changeAttributes (after : SourceRead)
  | remove
  | moveAway
  | elsewhere (event : InotifyEvent)

def rulesEvent (mask : UInt32) : Option InotifyEvent := some ⟨mask, kRulesFileName⟩

/-- The file after an edit, and the event of it. -/
def RulesFile.edit (file : RulesFile) : Edit → Option (RulesFile × Option InotifyEvent)
  | .openForWrite => some ({ file with writers := file.writers + 1 }, none)
  | .write after => if file.writers = 0 then none else some ({ file with read := after }, none)
  | .close => if file.writers = 0 then none else some ({ file with writers := file.writers - 1 }, rulesEvent IN_CLOSE_WRITE)
  | .closeReplaced => some (file, rulesEvent IN_CLOSE_WRITE)
  | .replace after writers => some (⟨after, writers⟩, rulesEvent IN_MOVED_TO)
  | .create after writers => some (⟨after, writers⟩, rulesEvent IN_CREATE)
  | .changeAttributes after => some ({ file with read := after }, rulesEvent IN_ATTRIB)
  | .remove => some (⟨.notOpened, 0⟩, rulesEvent IN_DELETE)
  | .moveAway => some (⟨.notOpened, 0⟩, rulesEvent IN_MOVED_FROM)
  | .elsewhere event => if event.name = kRulesFileName then none else some (file, some event)

/-- What an event says of an edit: a write without an event leaves the file open, and an event of another file says
nothing about the rules. -/
inductive Reports (file after : RulesFile) : Option InotifyEvent → Prop
  | later : 0 < after.writers → Reports file after none
  | rules {event : InotifyEvent} : event.name = kRulesFileName → configChangedBy event = true →
      Reports file after (some event)
  | other {event : InotifyEvent} : event.name ≠ kRulesFileName → after = file → Reports file after (some event)

theorem configChangedBy_rules {mask : UInt32} (h : mask &&& kRelevantMask ≠ 0) :
    configChangedBy ⟨mask, kRulesFileName⟩ = true := by
  have hname : kRulesFileName.isEmpty = false := by decide
  simp [configChangedBy, isRulesEvent, hname, h]

theorem reports_of_edit {file after : RulesFile} {edit : Edit} {event : Option InotifyEvent}
    (h : file.edit edit = some (after, event)) : Reports file after event := by
  have hrules : ∀ {mask : UInt32}, mask &&& kRelevantMask ≠ 0 → Reports file after (rulesEvent mask) :=
    fun hmask => .rules rfl (configChangedBy_rules hmask)
  cases edit with
  | openForWrite =>
      obtain ⟨rfl, rfl⟩ := Prod.mk.inj (Option.some.inj h)
      exact .later (Nat.succ_pos _)
  | write read =>
      simp only [RulesFile.edit] at h
      split at h
      · cases h
      · next hopen =>
        obtain ⟨rfl, rfl⟩ := Prod.mk.inj (Option.some.inj h)
        exact .later (Nat.pos_of_ne_zero hopen)
  | close =>
      simp only [RulesFile.edit] at h
      split at h
      · cases h
      · obtain ⟨rfl, rfl⟩ := Prod.mk.inj (Option.some.inj h)
        exact hrules (by decide)
  | elsewhere other =>
      simp only [RulesFile.edit] at h
      split at h
      · cases h
      · next hname =>
        obtain ⟨rfl, rfl⟩ := Prod.mk.inj (Option.some.inj h)
        exact .other hname rfl
  | closeReplaced | replace _ _ | create _ _ | changeAttributes _ | remove | moveAway =>
      obtain ⟨-, rfl⟩ := Prod.mk.inj (Option.some.inj h)
      exact hrules (by decide)

/-! ## The loops -/

inductive LoopMode
  | initial
  | inotify
  | polling
  deriving DecidableEq

/-- Where the daemon stands: before a `Reconcile`, inside its `LoadRulesSource`, before the watch is added, at `poll`,
in the loop that empties the queue, in the sleep of the polling loop. -/
inductive LoopPc
  | reconcile (mode : LoopMode)
  | loading (mode : LoopMode)
  | addWatch
  | poll
  | drain (configChanged : Bool)
  | sleep
  deriving DecidableEq

/-- Where a `Reconcile` returns to. -/
def LoopMode.next : LoopMode → LoopPc
  | .initial => .addWatch
  | .inotify => .poll
  | .polling => .sleep

/-- The watch is there. -/
def LoopPc.watching : LoopPc → Bool
  | .reconcile .inotify => true
  | .loading .inotify => true
  | .poll => true
  | .drain _ => true
  | _ => false

/-- A load has ended and no other has begun. -/
def LoopPc.loaded : LoopPc → Bool
  | .reconcile mode => mode ≠ .initial
  | .loading _ => false
  | _ => true

/-- Only an event or a topology that is found makes the loop reconcile from here. -/
def LoopPc.relying : LoopPc → Bool
  | .loading .inotify => true
  | .poll => true
  | .drain configChanged => !configChanged
  | _ => false

theorem LoopPc.watching_of_relying {pc : LoopPc} (h : pc.relying = true) : pc.watching = true := by
  cases pc with
  | loading mode => cases mode <;> simp_all [relying, watching]
  | poll | drain _ => rfl
  | reconcile _ | addWatch | sleep => cases h

/-- What is remembered of a run: the history of the reconciler, what the last load returned, whether the rules were
edited since that load began, and, when they were edited before the watch was added and no edit has been reported since,
what they were then. -/
structure LoopTrace where
  history : History := {}
  seen : Option SourceRead := none
  disturbed : Bool := false
  missed : Option SourceRead := none

structure EventLoop where
  daemon : Daemon
  topologySupported : Bool
  file : RulesFile
  pc : LoopPc := .reconcile .initial
  queue : Option (List InotifyEvent) := none
  trace : LoopTrace := {}

def makeDeviceSnapshot (topologySupported : Bool) : DeviceSnapshot where
  mount := { primitives := kCapabilityOpenTreeMoveMount ||| kCapabilityProcFdMount ||| kCapabilityStringBindMount
             strictActions := kMountActionRedirect ||| kMountActionDenyAnchor
             legacyActions := kMountActionRedirect }
  providerSupported := topologySupported
  topologySupported := topologySupported
  capabilityGeneration := 1
  topologyGeneration := if topologySupported then 1 else 0

/-- `main` before its first `Reconcile`. -/
def EventLoop.start (limits : RulesLimits) (topologySupported : Bool) (run : RunDirectory) (file : RulesFile) :
    EventLoop where
  daemon := Daemon.start limits (makeDeviceSnapshot topologySupported) run
  topologySupported := topologySupported
  file := file

namespace EventLoop

/-- Who steps: an editor, or the daemon with what its system call returned. `probe` is `ProbeStorageTopology`. -/
inductive Label
  | edit (edit : Edit)
  | beginLoad
  | endLoad (read : SourceRead) (failing : Option PublishStep) (suffix : Nat)
  | watchAdded
  | watchFailed
  | pollInterrupted
  | pollFailed
  | pollTimedOut (probe : Bool)
  | pollReady
  | readEvents (count : Nat)
  | readEmpty (probe : Bool)
  | readFailed
  | woken (probe : Bool)

/-- `RefreshPendingTopology`. -/
def refreshPendingTopology (loop : EventLoop) (probe : Bool) : Bool × EventLoop :=
  if loop.topologySupported || !probe then (false, loop)
  else (true, { loop with topologySupported := true, daemon := loop.daemon.setDeviceSnapshot (makeDeviceSnapshot true) })

/-- An edit reaches the file, and its event the queue. -/
def applyEdit (capacity : Nat) (loop : EventLoop) (file : RulesFile) : Option InotifyEvent → EventLoop
  | none => { loop with file := file, trace := { loop.trace with disturbed := true } }
  | some event =>
      { loop with
        file := file
        queue := loop.queue.map fun queue => enqueue capacity queue event
        trace := if event.name = kRulesFileName then { loop.trace with disturbed := true, missed := none } else loop.trace }

/-- `Reconcile` with what the load returned. -/
def reconciled (toml : TomlParser) (loop : EventLoop) (mode : LoopMode) (read : SourceRead)
    (failing : Option PublishStep) (suffix : Nat) : EventLoop :=
  { loop with
    daemon := (loop.daemon.reconcile toml read failing suffix).2
    pc := mode.next
    trace := { loop.trace with
      history := loop.trace.history.reconcile toml loop.daemon read failing suffix, seen := some read } }

/-- The loop over the queue is left. -/
def drained (loop : EventLoop) (configChanged probe : Bool) : EventLoop :=
  if configChanged then { (loop.refreshPendingTopology probe).2 with pc := .reconcile .inotify }
  else { loop with pc := .poll }

/-- The descriptor is closed. -/
def fallBack (loop : EventLoop) : EventLoop := { loop with pc := .sleep, queue := none }

def next (toml : TomlParser) (capacity : Nat) (loop : EventLoop) (label : Label) : Option EventLoop :=
  match loop.pc, label with
  | _, .edit edit => (loop.file.edit edit).map fun (file, event) => loop.applyEdit capacity file event
  | .reconcile mode, .beginLoad =>
      some { loop with pc := .loading mode, trace := { loop.trace with disturbed := false } }
  | .loading mode, .endLoad read failing suffix =>
      if loop.trace.disturbed || read = loop.file.read then some (loop.reconciled toml mode read failing suffix) else none
  | .addWatch, .watchAdded =>
      some { loop with
        pc := .poll
        queue := some []
        trace := { loop.trace with missed := if loop.trace.disturbed then some loop.file.read else none } }
  | .addWatch, .watchFailed => some { loop with pc := .sleep }
  | .poll, .pollInterrupted => some loop
  | .poll, .pollFailed => some loop.fallBack
  | .poll, .pollTimedOut probe =>
      if loop.topologySupported || loop.queue ≠ some [] then none
      else
        let (changed, loop) := loop.refreshPendingTopology probe
        some (if changed then { loop with pc := .reconcile .inotify } else loop)
  | .poll, .pollReady => if loop.queue.getD [] = [] then none else some { loop with pc := .drain false }
  | .drain configChanged, .readEvents count =>
      match loop.queue with
      | none => none
      | some queue =>
          if count = 0 || queue.length < count then none
          else some { loop with
            queue := some (queue.drop count)
            pc := .drain (configChanged || (queue.take count).any configChangedBy) }
  | .drain configChanged, .readEmpty probe =>
      if loop.queue = some [] then some (loop.drained configChanged probe) else none
  | .drain _, .readFailed => some loop.fallBack
  | .sleep, .woken probe => some { (loop.refreshPendingTopology probe).2 with pc := .reconcile .polling }
  | _, _ => none

/-- What a step does. -/
inductive Steps (toml : TomlParser) (capacity : Nat) (loop : EventLoop) : Label → EventLoop → Prop
  | edit {edit : Edit} {file : RulesFile} {event : Option InotifyEvent} : loop.file.edit edit = some (file, event) →
      Steps toml capacity loop (.edit edit) (loop.applyEdit capacity file event)
  | beginLoad {mode : LoopMode} : loop.pc = .reconcile mode →
      Steps toml capacity loop .beginLoad
        { loop with pc := .loading mode, trace := { loop.trace with disturbed := false } }
  | endLoad {mode : LoopMode} {read : SourceRead} {failing : Option PublishStep} {suffix : Nat} :
      loop.pc = .loading mode → loop.trace.disturbed = true ∨ read = loop.file.read →
      Steps toml capacity loop (.endLoad read failing suffix) (loop.reconciled toml mode read failing suffix)
  | watchAdded : loop.pc = .addWatch →
      Steps toml capacity loop .watchAdded
        { loop with
          pc := .poll
          queue := some []
          trace := { loop.trace with missed := if loop.trace.disturbed then some loop.file.read else none } }
  | watchFailed : loop.pc = .addWatch → Steps toml capacity loop .watchFailed { loop with pc := .sleep }
  | polls {label : Label} : loop.pc = .poll → label = .pollInterrupted ∨ (∃ probe, label = .pollTimedOut probe) →
      Steps toml capacity loop label loop
  | topologyFound {label : Label} {probe : Bool} : loop.pc = .poll → (∃ probe, label = .pollTimedOut probe) →
      Steps toml capacity loop label { (loop.refreshPendingTopology probe).2 with pc := .reconcile .inotify }
  | pollReady : loop.pc = .poll → loop.queue.getD [] ≠ [] →
      Steps toml capacity loop .pollReady { loop with pc := .drain false }
  | readEvents {configChanged : Bool} {count : Nat} {queue : List InotifyEvent} : loop.pc = .drain configChanged →
      loop.queue = some queue → 0 < count → count ≤ queue.length →
      Steps toml capacity loop (.readEvents count)
        { loop with
          queue := some (queue.drop count)
          pc := .drain (configChanged || (queue.take count).any configChangedBy) }
  | reconciles {probe : Bool} : loop.pc = .drain true → loop.queue = some [] →
      Steps toml capacity loop (.readEmpty probe)
        { (loop.refreshPendingTopology probe).2 with pc := .reconcile .inotify }
  | ignores {probe : Bool} : loop.pc = .drain false → loop.queue = some [] →
      Steps toml capacity loop (.readEmpty probe) { loop with pc := .poll }
  | fallsBack {label : Label} : loop.pc = .poll ∨ (∃ configChanged, loop.pc = .drain configChanged) →
      label = .pollFailed ∨ label = .readFailed → Steps toml capacity loop label loop.fallBack
  | woken {probe : Bool} : loop.pc = .sleep →
      Steps toml capacity loop (.woken probe) { (loop.refreshPendingTopology probe).2 with pc := .reconcile .polling }

theorem refreshPendingTopology_false {loop : EventLoop} {probe : Bool} (h : (loop.refreshPendingTopology probe).1 = false) :
    (loop.refreshPendingTopology probe).2 = loop := by
  unfold refreshPendingTopology at h ⊢
  split at h
  · next hpending => rw [if_pos hpending]
  · cases h

theorem steps_of_next {toml : TomlParser} {capacity : Nat} {loop after : EventLoop} {label : Label}
    (h : loop.next toml capacity label = some after) : Steps toml capacity loop label after := by
  unfold next at h
  split at h
  · -- an edit
    rw [Option.map_eq_some_iff] at h
    obtain ⟨⟨file, event⟩, hedit, rfl⟩ := h
    exact .edit hedit
  · next hpc => exact Option.some.inj h ▸ .beginLoad hpc
  · next hpc =>
    split at h
    · next hread =>
      rw [Bool.or_eq_true, decide_eq_true_eq] at hread
      exact Option.some.inj h ▸ .endLoad hpc hread
    · cases h
  · next hpc => exact Option.some.inj h ▸ .watchAdded hpc
  · next hpc => exact Option.some.inj h ▸ .watchFailed hpc
  · next hpc => exact Option.some.inj h ▸ .polls hpc (Or.inl rfl)
  · next hpc => exact Option.some.inj h ▸ .fallsBack (Or.inl hpc) (Or.inl rfl)
  · next probe hpc =>
    -- the poll timed out
    split at h
    · cases h
    · cases hrefresh : loop.refreshPendingTopology probe with
      | mk changed refreshed =>
          rw [hrefresh] at h
          have hafter := Option.some.inj h
          cases changed with
          | true =>
              have hstep : Steps toml capacity loop (.pollTimedOut probe)
                  { (loop.refreshPendingTopology probe).2 with pc := .reconcile .inotify } :=
                .topologyFound hpc ⟨probe, rfl⟩
              rw [hrefresh] at hstep
              exact hafter ▸ hstep
          | false =>
              have hsame := refreshPendingTopology_false (congrArg Prod.fst hrefresh)
              rw [hrefresh] at hsame
              exact (hsame.symm.trans hafter) ▸ .polls hpc (Or.inr ⟨probe, rfl⟩)
  · next hpc =>
    split at h
    · cases h
    · next hqueue => exact Option.some.inj h ▸ .pollReady hpc hqueue
  · next hpc =>
    split at h
    · cases h
    · next queue hqueue =>
      split at h
      · cases h
      · next hcount =>
        rw [Bool.or_eq_true, decide_eq_true_eq, decide_eq_true_eq, not_or, Nat.not_lt] at hcount
        exact Option.some.inj h ▸ .readEvents hpc hqueue (Nat.pos_of_ne_zero hcount.1) hcount.2
  · next configChanged _ hpc =>
    split at h
    · next hqueue =>
      obtain rfl := Option.some.inj h
      cases configChanged with
      | true => exact .reconciles hpc hqueue
      | false => exact .ignores hpc hqueue
    · cases h
  · next hpc => exact Option.some.inj h ▸ .fallsBack (Or.inr ⟨_, hpc⟩) (Or.inr rfl)
  · next hpc => exact Option.some.inj h ▸ .woken hpc
  · cases h

/-! ## No edit is lost -/

/-- Somebody has the rules open for writing, or the queue makes the loop reconcile. -/
def Noticed (loop : EventLoop) : Prop :=
  0 < loop.file.writers ∨ ∃ queue, loop.queue = some queue ∧ asks queue = true

/-- What holds in every state. -/
structure Watchful (loop : EventLoop) : Prop where
  queue : loop.queue.isSome = loop.pc.watching
  seen : loop.pc.loaded = true → loop.trace.disturbed = false → loop.trace.seen = some loop.file.read
  noticed : loop.pc.relying = true → loop.trace.disturbed = true →
    loop.Noticed ∨ loop.trace.missed = some loop.file.read

section Topology
variable (loop : EventLoop) (probe : Bool)

@[simp] theorem refreshPendingTopology_file : (loop.refreshPendingTopology probe).2.file = loop.file := by
  unfold refreshPendingTopology; split <;> rfl

@[simp] theorem refreshPendingTopology_queue : (loop.refreshPendingTopology probe).2.queue = loop.queue := by
  unfold refreshPendingTopology; split <;> rfl

@[simp] theorem refreshPendingTopology_trace : (loop.refreshPendingTopology probe).2.trace = loop.trace := by
  unfold refreshPendingTopology; split <;> rfl

end Topology

theorem watchful_start (limits : RulesLimits) (topologySupported : Bool) (run : RunDirectory) (file : RulesFile) :
    Watchful (start limits topologySupported run file) :=
  ⟨rfl, (fun h => by cases h), (fun h => by cases h)⟩

section Steps
variable {toml : TomlParser} {capacity : Nat} {loop after : EventLoop} {label : Label}

theorem watchful_edit (h : Watchful loop) {file : RulesFile} {event : Option InotifyEvent}
    (hreports : Reports loop.file file event) : Watchful (loop.applyEdit capacity file event) := by
  cases hreports with
  | later hwriters => exact ⟨h.queue, (fun _ hdisturbed => by cases hdisturbed), fun _ _ => Or.inl (Or.inl hwriters)⟩
  | rules hname hchanged =>
      simp only [applyEdit, hname, if_true]
      refine ⟨?_, (fun _ hdisturbed => by cases hdisturbed), fun hrelying _ => Or.inl (Or.inr ?_)⟩
      · rw [Option.isSome_map, h.queue]
      · obtain ⟨queue, hqueue⟩ := Option.isSome_iff_exists.mp (h.queue.trans (LoopPc.watching_of_relying hrelying))
        exact ⟨enqueue capacity queue _, by rw [hqueue, Option.map_some], asks_enqueue (Or.inr hchanged)⟩
  | other hname hfile =>
      subst hfile
      simp only [applyEdit, hname, if_false]
      refine ⟨?_, h.seen, fun hrelying hdisturbed => ?_⟩
      · rw [Option.isSome_map, h.queue]
      · refine (h.noticed hrelying hdisturbed).imp_left (Or.imp_right ?_)
        rintro ⟨queue, hqueue, hasks⟩
        exact ⟨enqueue capacity queue _, by rw [hqueue, Option.map_some], asks_enqueue (Or.inl hasks)⟩

theorem refreshed_watchful (h : Watchful loop) {pc : LoopPc} (probe : Bool) (hwatching : pc.watching = loop.pc.watching)
    (hloaded : loop.pc.loaded = true) (hrelying : pc.relying = false) :
    Watchful { (loop.refreshPendingTopology probe).2 with pc := pc } := by
  refine ⟨?_, fun _ => ?_, fun hrelies => ?_⟩
  · rw [refreshPendingTopology_queue, h.queue, hwatching]
  · rw [refreshPendingTopology_trace, refreshPendingTopology_file]
    exact h.seen hloaded
  · rw [hrelying] at hrelies
    cases hrelies

/-- **Every step keeps watch.** -/
theorem watchful_next (h : Watchful loop) (hnext : loop.next toml capacity label = some after) : Watchful after := by
  cases steps_of_next hnext with
  | edit hedit => exact watchful_edit h (reports_of_edit hedit)
  | @beginLoad mode hpc =>
      refine ⟨?_, (fun hloaded => by cases hloaded), (fun _ hdisturbed => by cases hdisturbed)⟩
      rw [h.queue, hpc]
      cases mode <;> rfl
  | @endLoad mode read _ _ hpc hread =>
      refine ⟨?_, fun _ hundisturbed => ?_, fun hrelying hdisturbed => ?_⟩
      · simp only [reconciled, h.queue, hpc]
        cases mode <;> rfl
      · -- nobody edited the rules while they were read
        refine congrArg some (hread.resolve_left fun hdisturbed => ?_)
        exact Bool.false_ne_true (hundisturbed.symm.trans hdisturbed)
      · refine h.noticed ?_ hdisturbed
        rw [hpc]
        cases mode with
        | inotify => rfl
        | initial | polling => cases hrelying
  | watchAdded hpc =>
      refine ⟨rfl, fun _ => h.seen (by rw [hpc]; rfl), fun _ hdisturbed => Or.inr ?_⟩
      exact if_pos hdisturbed
  | watchFailed hpc =>
      refine ⟨?_, fun _ => h.seen (by rw [hpc]; rfl), (fun hrelying => by cases hrelying)⟩
      rw [h.queue, hpc]
      rfl
  | polls hpc _ => exact h
  | topologyFound hpc _ => exact refreshed_watchful h _ (by rw [hpc]; rfl) (by rw [hpc]; rfl) rfl
  | pollReady hpc hqueue =>
      refine ⟨?_, fun _ => h.seen (by rw [hpc]; rfl), fun _ => h.noticed (by rw [hpc]; rfl)⟩
      rw [h.queue, hpc]
      rfl
  | @readEvents configChanged count queue hpc hqueue hpos hcount =>
      refine ⟨rfl, fun _ => h.seen (by rw [hpc]; rfl), fun hrelying hdisturbed => ?_⟩
      have hignored : configChanged = false ∧ asks (queue.take count) = false := by
        simpa [LoopPc.relying, asks] using hrelying
      refine (h.noticed (by rw [hpc, hignored.1]; rfl) hdisturbed).imp_left (Or.imp_right ?_)
      rintro ⟨found, hfound, hasks⟩
      obtain rfl := Option.some.inj (hqueue.symm.trans hfound)
      refine ⟨_, rfl, ?_⟩
      rw [← List.take_append_drop count queue, asks, List.any_append, Bool.or_eq_true] at hasks
      exact hasks.resolve_left fun htaken => Bool.false_ne_true (hignored.2.symm.trans htaken)
  | reconciles hpc hqueue => exact refreshed_watchful h _ (by rw [hpc]; rfl) (by rw [hpc]; rfl) rfl
  | ignores hpc hqueue =>
      refine ⟨?_, fun _ => h.seen (by rw [hpc]; rfl), fun _ => h.noticed (by rw [hpc]; rfl)⟩
      rw [h.queue, hpc]
      rfl
  | fallsBack hpc _ =>
      refine ⟨rfl, fun _ => h.seen ?_, (fun hrelying => by cases hrelying)⟩
      rcases hpc with hpc | ⟨configChanged, hpc⟩
      · rw [hpc]
        rfl
      · rw [hpc]
        rfl
  | woken hpc => exact refreshed_watchful h _ (by rw [hpc]; rfl) (by rw [hpc]; rfl) rfl

end Steps

section Runs
variable {toml : TomlParser} {capacity : Nat} {limits : RulesLimits} {topologySupported : Bool} {run : RunDirectory}
  {file : RulesFile} {loop : EventLoop}

theorem watchful_of_reaches (hrun : Run.Reaches (next toml capacity) (start limits topologySupported run file) loop) :
    Watchful loop :=
  hrun.invariant (watchful_start limits topologySupported run file) fun _ _ _ h _ hnext => watchful_next h hnext

/-- A daemon that waits has loaded the rules as they are, unless it missed them before the watch. -/
theorem Watchful.idle (h : Watchful loop) (hpc : loop.pc = .poll) (hqueue : loop.queue = some [])
    (hwriters : loop.file.writers = 0) :
    loop.trace.seen = some loop.file.read ∨ loop.trace.missed = some loop.file.read := by
  cases hdisturbed : loop.trace.disturbed with
  | false => exact Or.inl (h.seen (by rw [hpc]; rfl) hdisturbed)
  | true =>
      refine (h.noticed (by rw [hpc]; rfl) hdisturbed).elim ?_ Or.inr
      rintro (hopen | ⟨queue, hsome, hasks⟩)
      · omega
      · obtain rfl := Option.some.inj (hqueue.symm.trans hsome)
        cases hasks

/-- **No edit is lost.** Whatever the order of the edits, the events and the daemon's steps: when the loop waits with an
empty queue and nobody has the rules open for writing, the last load returned what they are now, unless they were edited
between the first load and the watch and no edit has been reported since. The polling loop sleeps with the rules as they
are, unless they were edited since its last load began. -/
theorem idle_sees_rules (hrun : Run.Reaches (next toml capacity) (start limits topologySupported run file) loop) :
    (loop.pc = .poll → loop.queue = some [] → loop.file.writers = 0 →
        loop.trace.seen = some loop.file.read ∨ loop.trace.missed = some loop.file.read) ∧
      (loop.pc = .sleep → loop.trace.disturbed = false → loop.trace.seen = some loop.file.read) := by
  have hwatchful := watchful_of_reaches hrun
  exact ⟨hwatchful.idle, fun hpc => hwatchful.seen (by rw [hpc]; rfl)⟩

/-- The rules are replaced after the first load, and the watch comes too late to report it. -/
def lateWatch : List Label :=
  [.beginLoad, .endLoad .notOpened none 0, .edit (.replace (.stable oneRedirect.text) 0), .watchAdded]

/-- The daemon waits, and what it loaded are not the rules. -/
theorem idle_sees_rules_lateWatch : ∃ loop : EventLoop, loop.pc = .poll ∧ loop.queue = some [] ∧
    (loop.trace.seen = some loop.file.read ∨ loop.trace.missed = some loop.file.read) ∧
    loop.trace.seen ≠ some loop.file.read := by
  have hrun : Run.Reaches (next oneRedirect.toml 16384) (start {} true (fun _ => none) ⟨.notOpened, 0⟩) _ :=
    Run.reaches_of_runLabels lateWatch rfl
  have hother : some SourceRead.notOpened ≠ some (.stable oneRedirect.text) := fun hsame => by cases hsame
  exact ⟨_, rfl, rfl, (idle_sees_rules hrun).1 rfl rfl rfl, hother⟩

end Runs

end EventLoop

end PathGuard.Control
