import PathGuard.Zygisk.Lease
import PathGuard.Zygisk.PlanWire

/-!
# One session of the companion

`CompanionHandler` of `zygisk/src/module_entry.cpp` from the client socket on: it receives the plan, compares it with
the policy, waits until the app is specialized, looks at the storage topology, and only then forks the worker. The app
waits on the shared page all the while. A session is the transaction with these steps before it; until the fork only
the app takes steps of the transaction, and after an early return nobody else does.

* `arrivalStep`, `step` : the steps before the fork, and all steps;
* `step_returned`, `reaches_returned` : after an early return only the app steps;
* `companion_roundTrip` : the plan arrives as it was, and a stream that is cut short starts no worker.
-/

namespace PathGuard.Zygisk

open MountTransactionState

def ETIMEDOUT : Nat := 110

/-- What `WaitForProcessReady` returns. -/
inductive ProcessReadyResult
  | ready
  | timedOut
  | cancelled
  deriving DecidableEq, Repr

/-- Where the companion stands before the fork; `failStore` to `failLoad` are `PublishPendingFailure`, and `cancelMark` is
`MarkSharedCancelled`. -/
inductive ArrivalPc
  | receive
  | reload (plan : PackedPlan)
  | ready
  | readyStore (readyNs : Nat)
  | topology
  | failStore (result : CompanionResult)
  | failCas
  | failLoad
  | cancelMark
  | forked
  | returned

/-- What the world answers to the step the companion is at: what the socket holds until its end, with the descriptors
or without, and whether the page can be mapped; the plan `LoadProcessPlan` returns; how the wait ended; whether the
topology is supported. -/
inductive ArrivalInput
  | tick
  | received (stream : Bytes) (descriptors mapped : Bool)
  | reloaded (current : Option PackedPlan)
  | waited (result : ProcessReadyResult) (readyNs : Nat)
  | topology (valid : Bool)

structure Session where
  arrival : ArrivalPc := .receive
  transaction : Transaction

/-- The page as `CreateSharedState` makes it. -/
def Session.initial : Session where
  transaction := { shared := { result := { mount := { result := 0 } } } }

namespace Session

abbrev shared (s : Session) : SharedMountState := s.transaction.shared

/-- The page is changed, and the companion goes on at `pc`. -/
def setShared (s : Session) (shared : SharedMountState) (pc : ArrivalPc) : Session where
  arrival := pc
  transaction := { s.transaction with shared := shared }

/-- One step of the companion before the fork. -/
def arrivalStep (s : Session) (input : ArrivalInput) : Option Session :=
  match s.arrival, input with
  | .receive, .received stream descriptors mapped =>
      match receivePlan descriptors mapped stream with
      | none => some { s with arrival := .returned }
      | some ((_, plan), _) => some { s with arrival := .reload plan }
  | .reload plan, .reloaded current =>
      if (current.map (sameProcessPlan plan)).getD false then some { s with arrival := .ready }
      else some { s with
        arrival := .failStore { mount := { result := ESTALE, runtimeReason := .policyChanged } } }
  | .ready, .waited .ready readyNs => some { s with arrival := .readyStore readyNs }
  | .ready, .waited .timedOut readyNs =>
      some { s with arrival := .failStore { readyNs := readyNs, mount := { result := ETIMEDOUT } } }
  | .ready, .waited .cancelled _ =>
      if isCancelRequested s.shared then some { s with arrival := .cancelMark } else none
  | .readyStore readyNs, .tick =>
      some (s.setShared { s.shared with result := { s.shared.result with readyNs := readyNs } } .topology)
  | .topology, .topology valid =>
      if valid then some { s with arrival := .forked }
      else some { s with arrival := .failStore { s.shared.result with
        mount := { s.shared.result.mount with result := ENOTSUP, runtimeReason := .topologyChanged } } }
  | .failStore result, .tick => some (s.setShared { s.shared with result := result } .failCas)
  | .failCas, .tick =>
      let (shared, transitioned) := transitionSharedState s.shared pending failed
      some (s.setShared shared (if transitioned then .returned else .failLoad))
  | .failLoad, .tick =>
      if s.shared.status = cancelRequested then some { s with arrival := .cancelMark }
      else some { s with arrival := .returned }
  | .cancelMark, .tick => some (s.setShared (transitionSharedState s.shared cancelRequested cancelled).1 .returned)
  | _, _ => none

/-- Who steps. -/
inductive Label
  | arrival (input : ArrivalInput)
  | transaction (label : Zygisk.Label)

/-- The companion has not forked: of the transaction only the app is there. -/
def ofApp : Zygisk.Label → Bool
  | .app _ => true
  | _ => false

def isForked (s : Session) : Bool :=
  match s.arrival with
  | .forked => true
  | _ => false

/-- One step of the session. -/
def step (plan : TransactionPlan) (s : Session) : Label → Option Session
  | .arrival input => s.arrivalStep input
  | .transaction label =>
      if s.isForked || ofApp label then
        (Zygisk.step plan s.transaction label).map fun transaction => { s with transaction := transaction }
      else none

/-! ## An early return -/

variable {plan : TransactionPlan}

theorem step_app {s s' : Session} {l : Zygisk.Label} (hforked : s.isForked = false)
    (h : step plan s (.transaction l) = some s') :
    ∃ deadlinePassed transaction, l = .app deadlinePassed ∧ appStep s.transaction deadlinePassed = some transaction ∧
      s' = { s with transaction := transaction } := by
  simp only [step, hforked, Bool.false_or] at h
  split at h
  · obtain ⟨transaction, htransaction, rfl⟩ := Option.map_eq_some_iff.mp h
    cases l with
    | app deadlinePassed => exact ⟨deadlinePassed, transaction, rfl, htransaction, rfl⟩
    | worker _ | workerDies | companion _ => contradiction
  · cases h

theorem step_returned {s s' : Session} {l : Label} (hreturned : s.arrival = .returned) (h : step plan s l = some s') :
    s'.arrival = .returned ∧ s'.transaction.worker = s.transaction.worker ∧
      ∃ deadlinePassed, l = .transaction (.app deadlinePassed) := by
  cases l with
  | arrival input =>
      simp only [step, arrivalStep, hreturned] at h
      cases h
  | transaction l =>
      have hforked : s.isForked = false := by rw [isForked, hreturned]
      obtain ⟨deadlinePassed, transaction, rfl, htransaction, rfl⟩ := step_app hforked h
      exact ⟨hreturned, (appStep_frame htransaction).worker, deadlinePassed, rfl⟩

theorem reaches_returned {s t : Session} (hreturned : s.arrival = .returned) (h : Run.Reaches (step plan) s t) :
    t.arrival = .returned ∧ t.transaction.worker = s.transaction.worker := by
  refine h.invariant (I := fun u => u.arrival = .returned ∧ u.transaction.worker = s.transaction.worker)
    ⟨hreturned, rfl⟩ ?_
  intro u l u' hu _ hstep
  obtain ⟨harrival, hworker, -⟩ := step_returned hu.1 hstep
  exact ⟨harrival, hworker.trans hu.2⟩

end Session

/-! ## The plan arrives, or nothing happens -/

/-- **The wire.** The companion rebuilds the plan `LoadProcessPlan` gave the app from the bytes the app sent, and every
check of the header passes. From a stream that ends earlier it makes nothing: it returns with the page as it was, and
from then on only the app steps, so no worker is ever forked. -/
theorem companion_roundTrip {data : Bytes} {process : CString} {uid : Uid} {packed : PackedPlan}
    (hload : loadPackedPlan data process uid = .ok packed) (huid : 10000 ≤ uid.val) {pid : Int32} (hpid : 0 < pid) :
    ∃ bytes, sendPlanWithSharedFd pid uid packed = some bytes ∧
      (∃ header rebuilt, receivePlan true true bytes = some ((header, rebuilt), []) ∧ acceptsHeader header = true ∧
        sameProcessPlan rebuilt packed = true) ∧
      ∀ cut, cut <+: bytes → cut ≠ bytes → ∀ (plan : TransactionPlan) (s : Session) (descriptors mapped : Bool),
        s.arrival = .receive →
          Session.step plan s (.arrival (.received cut descriptors mapped)) = some { s with arrival := .returned } ∧
          ∀ t, Run.Reaches (Session.step plan) { s with arrival := .returned } t →
            t.transaction.worker = s.transaction.worker ∧
            ∀ l t', Session.step plan t l = some t' → ∃ deadlinePassed, l = .transaction (.app deadlinePassed) := by
  obtain ⟨plan, hplan, hpacked⟩ := loadPackedPlan_ok_iff.mp hload
  have hloaded := wellLoaded_of_loadProcessPlan hplan
  obtain ⟨bytes, hbytes, hconsumes⟩ := consumes_receivePlan hloaded hpacked hpid huid
  refine ⟨bytes, hbytes, ⟨_, _, hconsumes.eq_some, acceptsHeader_bootstrapHeader hloaded hpacked hpid huid,
    (packed_fields hloaded hpacked).1.sameProcessPlan⟩, ?_⟩
  intro cut hcut hshort plan s descriptors mapped hreceive
  have hnone : receivePlan descriptors mapped cut = none := by
    cases hflags : descriptors && mapped with
    | false => exact receivePlan_eq_none hflags cut
    | true =>
        obtain ⟨rfl, rfl⟩ := Bool.and_eq_true_iff.mp hflags
        exact hconsumes.starves cut hcut hshort
  refine ⟨?_, fun t ht => ?_⟩
  · simp only [Session.step, Session.arrivalStep, hreceive, hnone]
  · obtain ⟨hreturned, hworker⟩ := Session.reaches_returned rfl ht
    exact ⟨hworker, fun l t' hstep => (Session.step_returned hreturned hstep).2.2⟩

/-- A policy of one redirect. -/
def albumPolicy : PolicyDocument where
  schema := kSchemaVersion.toNat
  apps := [{
    package := ascii "a.b", users := [ascii "0"], processes := [ascii "a.b"]
    mounts := [{ action := .redirect, visiblePath := ascii "Pictures", backingPath := ascii "Album" }] }]

def albumFile : Bytes :=
  match encodePolicy albumPolicy with
  | .ok bytes => bytes
  | .error _ => []

theorem albumFile_loads : ∃ packed, loadPackedPlan albumFile mainProcess 10123 = .ok packed := by
  have hloads : (match loadPackedPlan albumFile mainProcess 10123 with | .ok _ => true | .error _ => false) = true := by
    decide +kernel
  cases hload : loadPackedPlan albumFile mainProcess 10123 with
  | error failure =>
      rw [hload] at hloads
      cases hloads
  | ok packed => exact ⟨packed, rfl⟩

theorem companion_roundTrip_album :
    ∃ packed bytes, loadPackedPlan albumFile mainProcess 10123 = .ok packed ∧
      sendPlanWithSharedFd 4321 10123 packed = some bytes ∧
      ∃ header rebuilt, receivePlan true true bytes = some ((header, rebuilt), []) ∧
        sameProcessPlan rebuilt packed = true := by
  obtain ⟨packed, hload⟩ := albumFile_loads
  obtain ⟨bytes, hbytes, ⟨header, rebuilt, hreceive, -, hsame⟩, -⟩ :=
    companion_roundTrip hload (show 10000 ≤ (10123 : Uid).val by decide) (show (0 : Int32) < 4321 by decide)
  exact ⟨packed, bytes, hload, hbytes, header, rebuilt, hreceive, hsame⟩

end PathGuard.Zygisk
