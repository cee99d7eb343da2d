import PathGuard.Lib.Run
import PathGuard.Core.MountTransaction
import PathGuard.Core.MountBackend

/-!
# One mount transaction: the app, the worker and the companion

`zygisk/src/module_entry.cpp`: `WaitForSharedResult` in the app, `ApplyProcessPlan` in the forked worker
and `CompanionHandler`, from the fork on, in the companion. The three share one status word, which they
read by atomic loads and change only by `TransitionSharedState`, a compare-and-swap. A step of the model is
one access to that word, one store of the result record, one system call, or the death of the worker, so a
list of labels is an interleaving; what a system call returns and whether a deadline has passed is part of
the label. The local code between two steps runs with the first of them.

`namespaceLog` is the history of what the worker's calls did to the target mount namespace, and `leased`,
`published` and `cancelledFrom` remember which compare-and-swaps succeeded. Nothing of the code reads these
four: they are what the properties speak about.

Times and log lines are left out. The preflight of `ApplyProcessPlan` (pinning, policy and topology checks)
is one step with any outcome, apart from the choice of the backend, which is modelled.
-/

namespace PathGuard.Zygisk

open MountTransactionState

/-! ## Data -/

def kMaxMountRules : Nat := 64
def EIO : Nat := 5

theorem EIO_ne_zero : EIO ≠ 0 := by decide

def EINVAL : Nat := 22
def EPROTO : Nat := 71
def EOVERFLOW : Nat := 75
def ENOTSUP : Nat := 95
def ESTALE : Nat := 116
def ECANCELED : Nat := 125
def EOWNERDEAD : Nat := 130

/-- The value of `errno` after a failed call. -/
abbrev Errno := { error : Nat // error ≠ 0 }

/-- What a call returned. -/
inductive Outcome
  | ok
  | fail (error : Errno)

/-- `RuntimeReason`, the values the worker and the companion store. -/
inductive RuntimeReason
  | none
  | unsupportedAction
  | topologyChanged
  | policyChanged
  | preflightFailed
  | ownerDeath
  deriving DecidableEq, Repr

/-- `MountOperationStage`. -/
inductive MountOperationStage
  | none
  | preflight
  | apply
  | verify
  | rollbackIdentity
  | rollbackUnmount
  | rollbackVerify
  deriving DecidableEq, Repr

/-- `MountPerfResult` without its times. -/
structure MountPerfResult where
  result : Nat := EIO
  ruleCount : Nat := 0
  backend : MountBackendKind := .unsupported
  backendReason : MountBackendReason := .none
  failureStage : MountOperationStage := .none
  rollbackFailed : Bool := false
  runtimeReason : RuntimeReason := .none
  mountinfoSnapshotCount : Nat := 0
  deriving DecidableEq, Repr

/-- `CompanionResult`: what the app copies out of the shared page. -/
structure CompanionResult where
  readyNs : Nat := 0
  mount : MountPerfResult := {}
  deriving DecidableEq, Repr

/-- `SharedMountState`. -/
structure SharedMountState where
  status : MountTransactionState := pending
  result : CompanionResult := {}
  deriving DecidableEq, Repr

def isCancelRequested (state : SharedMountState) : Bool := state.status == cancelRequested

/-- `TransitionSharedState`: the compare-and-swap, and whether it changed the word. -/
def transitionSharedState (state : SharedMountState) (expected desired : MountTransactionState) :
    SharedMountState × Bool :=
  if isMountTransitionAllowed expected desired && state.status == expected then
    ({ state with status := desired }, true)
  else (state, false)

/-- What the transaction uses of a `ProcessPlan` and of the pinned workspace: `sourcePinned i` is
`source_indexes[i] < pinned_source_count`. -/
structure TransactionPlan where
  count : Nat
  requiredActions : MountActionMask
  allowLegacy : Bool
  sourcePinned : Nat → Bool := fun _ => true

structure AppliedMount where
  backend : MountBackendKind
  operationId : Nat
  mountId : Nat := 0

abbrev MountMutationJournal := MutationJournal AppliedMount kMaxMountRules

structure MountBackendProbe where
  capabilities : MountBackendCapabilities := {}
  error : Nat := 0

/-- What a call of the worker did to the target namespace; `verifiedGone` is a look that found the mount
gone. -/
inductive NamespaceEvent
  | makePrivate
  | attach (operationId : Nat)
  | detach (operationId : Nat)
  | verifiedGone (operationId : Nat)
  deriving DecidableEq, Repr

def NamespaceEvent.isMutation : NamespaceEvent → Bool
  | .makePrivate | .attach _ | .detach _ => true
  | .verifiedGone _ => false

/-! ## The worker -/

/-- Where the worker stands in `ApplyProcessPlan` and in the child branch of `CompanionHandler`. -/
inductive WorkerPc
  | notStarted
  | checkStart
  | preflight
  | checkLease
  | lease
  | leaseLoad
  | leaseMark
  | propagation
  | loop (ruleIndex : Nat)
  | apply (ruleIndex : Nat)
  | checkCommit
  | commitStore
  | commitCas
  | snapshot
  | verify (journalIndex : Nat)
  | publishStore
  | publishCas
  | rollbackSnapshot
  | rollbackValidate (index : Nat)
  | rollbackUnmount (index : Nat)
  | rollbackAfter
  | rollbackVerify (index : Nat)
  | finalLoad
  | finalStore (terminal : MountTransactionState)
  | finalCas (terminal : MountTransactionState)
  | send
  | sent
  | exited
  deriving DecidableEq, Repr

structure Worker where
  pc : WorkerPc := .notStarted
  alive : Bool := true
  requiresPrivate : Bool := false
  backend : MountBackendKind := .strictOpenTree
  backendLocked : Bool := false
  error : Nat := 0
  propagationChanged : Bool := false
  untrackedMutation : Bool := false
  journal : MountMutationJournal := .empty
  mutationSnapshotReady : Bool := false
  resultPublished : Bool := false
  rollbackFailed : Bool := false
  current : MountTransactionState := pending
  perf : MountPerfResult := {}
  leased : Bool := false
  published : Bool := false

/-- The preflight of `ApplyProcessPlan`: an early return, or the state of `/storage` together with the
probe and the namespace check the backend is chosen from. -/
inductive PreflightOutcome
  | failed (perf : { perf : MountPerfResult // perf.result ≠ 0 })
  | passed (propagationRequiresPrivate : Bool) (probe : MountBackendProbe) (disposable : Bool)

/-- What the world answers to the step the worker is at. -/
inductive WorkerInput
  | tick
  | preflight (outcome : PreflightOutcome)
  | call (outcome : Outcome)
  | mounted
  | notMounted (error : Errno) (stage : MountOperationStage) (disposable : Bool)
  | confirmed (mountId : Nat)

namespace Worker

/-- An early return of `ApplyProcessPlan`: the result goes back over the socket. -/
def finishPreflight (w : Worker) (error : Nat) (reason : RuntimeReason := .none) : Worker :=
  { w with pc := .send, perf := { w.perf with result := error, runtimeReason := reason } }

/-- The backend the preflight settles on. -/
def afterPreflight (plan : TransactionPlan) (w : Worker) : PreflightOutcome → Worker
  | .failed perf => { w with pc := .send, perf := perf.1 }
  | .passed requiresPrivate probe disposable =>
      let w := { w with perf := { w.perf with backend := .strictOpenTree, backendReason := .none } }
      if plan.requiredActions = 0 then w.finishPreflight ENOTSUP .unsupportedAction
      else if requiresPrivate then
        let selection := selectMountBackend plan.requiredActions probe.capabilities plan.allowLegacy
        let w := { w with perf := { w.perf with
          backend := selection.backend, backendReason := selection.reason } }
        if selection.backend = .unsupported then
          w.finishPreflight (if probe.error ≠ 0 then probe.error else ENOTSUP) .preflightFailed
        else if selection.backend = .legacyString && !disposable then
          { w with perf := { w.perf with
            backend := .unsupported, backendReason := .capabilityMissing } }.finishPreflight ENOTSUP
        else { w with
          pc := .checkLease, requiresPrivate := true, backend := selection.backend, backendLocked := true }
      else { w with pc := .checkLease }

/-- The end of `ApplyProcessPlan` after the rollback: the journal is cleared when it was undone. -/
def toFinal (w : Worker) : Worker :=
  { w with
    pc := .finalLoad
    journal := if w.rollbackFailed then w.journal else .empty
    perf := { w.perf with result := w.error } }

/-- The last rollback loop, at `index`. -/
def toRollbackVerify (w : Worker) (index : Nat) : Worker :=
  if !w.rollbackFailed && 0 < index then { w with pc := .rollbackVerify index } else w.toFinal

def toRollbackAfter (w : Worker) : Worker :=
  if !w.rollbackFailed && !w.journal.isEmpty then { w with pc := .rollbackAfter }
  else w.toRollbackVerify w.journal.size

/-- The second rollback loop, at `index`. -/
def toRollbackUnmount (w : Worker) (index : Nat) : Worker :=
  if !w.rollbackFailed && 0 < index then { w with pc := .rollbackUnmount index } else w.toRollbackAfter

/-- The first rollback loop, at `index`. -/
def toRollbackValidate (w : Worker) (index : Nat) : Worker :=
  if !w.rollbackFailed && 0 < index then { w with pc := .rollbackValidate index }
  else w.toRollbackUnmount w.journal.size

/-- `if (error != 0)`: the rollback, else the return with result 0. -/
def toRollback (w : Worker) : Worker :=
  if w.error ≠ 0 then
    if w.journal.isEmpty || w.mutationSnapshotReady then w.toRollbackValidate w.journal.size
    else { w with pc := .rollbackSnapshot }
  else { w with pc := .send, perf := { w.perf with result := w.error } }

/-- The publish of `kComplete` that follows the verification. -/
def toPublish (w : Worker) : Worker :=
  if w.error = 0 && !w.resultPublished then { w with pc := .publishStore } else w.toRollback

/-- The verification loop, at `journalIndex`. -/
def toVerify (w : Worker) (journalIndex : Nat) : Worker :=
  if journalIndex < w.journal.size then { w with pc := .verify journalIndex } else w.toPublish

def toSnapshot (w : Worker) : Worker :=
  if needsPostMountSnapshot w.backend (!w.journal.isEmpty) (w.error == 0) then { w with pc := .snapshot }
  else w.toPublish

/-- After the mutation loop and its last look at the status word. -/
def toCommit (w : Worker) : Worker :=
  if w.error = 0 && !needsPostMountSnapshot w.backend (!w.journal.isEmpty) true then
    { w with pc := .commitStore }
  else w.toSnapshot

/-- `record_rollback_failure` for a failed step. -/
def recordRollbackFailure (w : Worker) (error : Nat) : Worker :=
  { w with rollbackFailed := true, error := error, perf := { w.perf with rollbackFailed := true } }

/-- A mount that succeeded: the journal records it before any later work. -/
def recordMount (w : Worker) (ruleIndex : Nat) : Worker :=
  let w := { w with backendLocked := true, perf := { w.perf with
    backend := w.backend, backendReason := .none, failureStage := .none } }
  match w.journal.push { backend := w.backend, operationId := ruleIndex } with
  | some journal => { w with journal := journal, pc := .loop (ruleIndex + 1) }
  | none => { w with error := EOVERFLOW, untrackedMutation := true, pc := .loop (ruleIndex + 1) }

/-- A mount that failed without a mutation: another backend for the first rule, or the end of the loop. -/
def failMount (plan : TransactionPlan) (w : Worker) (ruleIndex error : Nat) (stage : MountOperationStage)
    (disposable : Bool) : Worker :=
  let failed := { w with
    error := error, pc := .loop (ruleIndex + 1), perf := { w.perf with failureStage := stage } }
  if w.backendLocked || ruleIndex ≠ 0 then failed
  else
    let legacyNamespaceAllowed := w.backend = .strictProcFd && plan.allowLegacy &&
      plan.requiredActions = kMountActionRedirect && disposable
    let next := nextMountBackend w.backend plan.requiredActions plan.allowLegacy legacyNamespaceAllowed
    if next = .unsupported then
      { failed with perf := { failed.perf with
        backend := next
        backendReason := if plan.requiredActions = kMountActionRedirect && !plan.allowLegacy then
          .legacyNotAuthorized else .capabilityMissing } }
    else { w with backend := next, perf := { w.perf with backend := next } }

/-- A journal entry that cannot be traced back to a pinned rule. -/
def markUntracked (w : Worker) : Worker :=
  { w with untrackedMutation := true, error := if w.error = 0 then EOVERFLOW else w.error }

/-- One round of the verification loop: `verified` is the mount id `VerifyDirectoryMount` confirmed, or
its error. -/
def verifyMount (plan : TransactionPlan) (w : Worker) (journalIndex : Nat) (verified : Except Errno Nat) :
    Worker :=
  match w.journal.at? journalIndex with
  | none => w.markUntracked
  | some recorded =>
      if plan.count ≤ recorded.operationId || !plan.sourcePinned recorded.operationId then w.markUntracked
      else
        match verified with
        | .ok mountId =>
            match w.journal.updateAt journalIndex { recorded with mountId := mountId } with
            | some journal => { w with journal := journal }
            | none => { w.markUntracked with perf := { w.perf with failureStage := .verify } }
        | .error error => { w with
            error := if w.error = 0 then error.1 else w.error
            perf := { w.perf with failureStage := .verify } }

/-- Where the last publish goes, from the status just loaded. -/
def chooseFinal (w : Worker) (current : MountTransactionState) : Worker :=
  if w.propagationChanged || w.rollbackFailed || w.untrackedMutation then
    { w with current := current, pc := .finalStore namespaceTainted }
  else if current = cancelRequested || current = applying then
    { w with current := current, pc := .finalStore rollbackComplete }
  else { w with current := current, pc := .send }

end Worker

/-! ## The app and the companion -/

inductive AppPc
  | load
  | deadline
  | casPending
  | casApplying
  | owner
  | returned (received : Bool)
  | killed
  deriving DecidableEq, Repr

/-- `WaitForSharedResult`. -/
structure App where
  pc : AppPc := .load
  current : MountTransactionState := pending
  applyingGraceUsed : Bool := false
  cancelledFrom : Option MountTransactionState := none

inductive CompanionPc
  | fork
  | read
  | signalLoad
  | sigkill
  | sigterm
  | readAgain
  | sigkillAgain
  | wait
  | afterWait
  | taintStore
  | taintCas
  | finalLoad
  | failStore
  | failCas
  | failLoad
  | failMark
  | publishStore (source terminal : MountTransactionState)
  | publishCas (source terminal : MountTransactionState)
  | returned
  deriving DecidableEq, Repr

/-- `CompanionHandler` from the fork on. -/
structure Companion where
  pc : CompanionPc := .fork
  forked : Bool := false
  mountResult : MountPerfResult := {}
  mountResultReceived : Bool := false
  ownerDeathTainted : Bool := false
  afterWait : MountTransactionState := pending

/-- The whole transaction; `channel` is the socket from the worker to the companion. -/
structure Transaction where
  shared : SharedMountState := {}
  app : App := {}
  worker : Worker := {}
  companion : Companion := {}
  channel : Option MountPerfResult := none
  namespaceLog : List NamespaceEvent := []

/-- Who steps, with what the world answers. -/
inductive Label
  | app (deadlinePassed : Bool)
  | worker (input : WorkerInput)
  | workerDies
  | companion (outcome : Outcome)

/-! ## Steps -/

section Steps
variable (plan : TransactionPlan)

/-- One step of `WaitForSharedResult`. -/
def appStep (s : Transaction) (deadlinePassed : Bool) : Option Transaction :=
  match s.app.pc with
  | .load =>
      let current := s.shared.status
      if mountTransactionHasResult current then some { s with app := { s.app with pc := .returned true } }
      else if current = cancelled then some { s with app := { s.app with pc := .returned false } }
      else some { s with app := { s.app with pc := .deadline, current := current } }
  | .deadline =>
      if !deadlinePassed then some { s with app := { s.app with pc := .load } }
      else if s.app.current = pending then some { s with app := { s.app with pc := .casPending } }
      else if s.app.current = applying && !s.app.applyingGraceUsed then
        some { s with app := { s.app with pc := .load, applyingGraceUsed := true } }
      else if s.app.current = applying then some { s with app := { s.app with pc := .casApplying } }
      else if isMountTransactionTerminal s.app.current then
        some { s with app := { s.app with pc := .returned (mountTransactionHasResult s.app.current) } }
      else some { s with app := { s.app with pc := .owner } }
  | .casPending =>
      let (shared, transitioned) := transitionSharedState s.shared pending cancelRequested
      if transitioned then
        some { s with
          shared := shared
          app := { s.app with pc := .returned false, cancelledFrom := some pending } }
      else some { s with app := { s.app with pc := .load } }
  | .casApplying =>
      let (shared, transitioned) := transitionSharedState s.shared applying cancelRequested
      if transitioned then
        some { s with shared := shared, app := { s.app with pc := .owner, cancelledFrom := some applying } }
      else some { s with app := { s.app with pc := .load } }
  | .owner =>
      let current := s.shared.status
      if mountTransactionHasResult current then some { s with app := { s.app with pc := .returned true } }
      else if current = cancelled then some { s with app := { s.app with pc := .returned false } }
      else if deadlinePassed then some { s with app := { s.app with pc := .killed } }
      else some s
  | .returned _ | .killed => none

/-- One step of the worker. -/
def workerStep (s : Transaction) (input : WorkerInput) : Option Transaction :=
  let w := s.worker
  if !w.alive then none
  else
    match w.pc, input with
    | .checkStart, .tick =>
        if isCancelRequested s.shared then some { s with worker := w.finishPreflight ECANCELED }
        else some { s with worker := { w with pc := .preflight } }
    | .preflight, .preflight outcome => some { s with worker := w.afterPreflight plan outcome }
    | .checkLease, .tick =>
        if isCancelRequested s.shared then some { s with worker := w.finishPreflight ECANCELED }
        else some { s with worker := { w with pc := .lease } }
    | .lease, .tick =>
        let (shared, transitioned) := transitionSharedState s.shared pending applying
        if transitioned then
          some { s with shared := shared, worker := { w with pc := .propagation, leased := true } }
        else some { s with worker := { w with pc := .leaseLoad } }
    | .leaseLoad, .tick =>
        if s.shared.status = cancelRequested then some { s with worker := { w with pc := .leaseMark } }
        else some { s with worker := w.finishPreflight ECANCELED }
    | .leaseMark, .tick =>
        some { s with
          shared := (transitionSharedState s.shared cancelRequested cancelled).1
          worker := w.finishPreflight ECANCELED }
    | .propagation, .call outcome =>
        if !w.requiresPrivate then some { s with worker := { w with pc := .loop 0 } }
        else
          match outcome with
          | .ok =>
              some { s with
                worker := { w with pc := .loop 0, propagationChanged := true }
                namespaceLog := s.namespaceLog ++ [.makePrivate] }
          | .fail error => some { s with worker := { w with pc := .loop 0, error := error.1 } }
    | .loop ruleIndex, .tick =>
        if ruleIndex < plan.count && w.error = 0 then
          if isCancelRequested s.shared then
            some { s with worker := { w with pc := .checkCommit, error := ECANCELED } }
          else if !plan.sourcePinned ruleIndex then
            some { s with worker := { w with pc := .checkCommit, error := EINVAL } }
          else some { s with worker := { w with pc := .apply ruleIndex } }
        else some { s with worker := { w with pc := .checkCommit } }
    | .apply ruleIndex, .mounted =>
        some { s with
          worker := w.recordMount ruleIndex
          namespaceLog := s.namespaceLog ++ [.attach ruleIndex] }
    | .apply ruleIndex, .notMounted error stage disposable =>
        some { s with worker := w.failMount plan ruleIndex error.1 stage disposable }
    | .checkCommit, .tick =>
        if w.error = 0 && isCancelRequested s.shared then
          some { s with worker := { w with error := ECANCELED }.toCommit }
        else some { s with worker := w.toCommit }
    | .commitStore, .tick =>
        some { s with
          shared := { s.shared with result := { s.shared.result with mount := { w.perf with result := 0 } } }
          worker := { w with pc := .commitCas, perf := { w.perf with result := 0 } } }
    | .commitCas, .tick =>
        let (shared, transitioned) := transitionSharedState s.shared applying complete
        if transitioned then
          some { s with
            shared := shared
            worker := { w with resultPublished := true, published := true }.toSnapshot }
        else some { s with worker := { w with error := ECANCELED }.toSnapshot }
    | .snapshot, .call .ok =>
        some { s with worker := { w with
          mutationSnapshotReady := true
          perf := { w.perf with
            mountinfoSnapshotCount := w.perf.mountinfoSnapshotCount + 1 } }.toVerify 0 }
    | .snapshot, .call (.fail error) =>
        some { s with worker := { w with
          error := if w.error = 0 then error.1 else w.error
          perf := { w.perf with failureStage := .verify } }.toPublish }
    | .verify journalIndex, .confirmed mountId =>
        some { s with worker := (w.verifyMount plan journalIndex (.ok mountId)).toVerify (journalIndex + 1) }
    | .verify journalIndex, .call (.fail error) =>
        some { s with worker := (w.verifyMount plan journalIndex (.error error)).toVerify (journalIndex + 1) }
    | .publishStore, .tick =>
        some { s with
          shared := { s.shared with result := { s.shared.result with mount := { w.perf with result := 0 } } }
          worker := { w with pc := .publishCas, perf := { w.perf with result := 0 } } }
    | .publishCas, .tick =>
        let (shared, transitioned) := transitionSharedState s.shared applying complete
        if transitioned then
          some { s with shared := shared, worker := { w with published := true }.toRollback }
        else some { s with worker := { w with error := ECANCELED }.toRollback }
    | .rollbackSnapshot, .call .ok =>
        some { s with worker := { w with perf := { w.perf with
          mountinfoSnapshotCount := w.perf.mountinfoSnapshotCount + 1 } }.toRollbackValidate w.journal.size }
    | .rollbackSnapshot, .call (.fail error) =>
        some { s with worker := (w.recordRollbackFailure error.1).toRollbackValidate w.journal.size }
    | .rollbackValidate index, .call outcome =>
        match w.journal.at? (index - 1), outcome with
        | none, _ =>
            some { s with worker := (w.recordRollbackFailure EOVERFLOW).toRollbackUnmount w.journal.size }
        | some applied, outcome =>
            if applied.mountId = 0 then
              some { s with worker := (w.recordRollbackFailure ESTALE).toRollbackValidate (index - 1) }
            else
              match outcome with
              | .ok => some { s with worker := w.toRollbackValidate (index - 1) }
              | .fail error =>
                  some { s with worker := (w.recordRollbackFailure error.1).toRollbackValidate (index - 1) }
    | .rollbackUnmount index, .call outcome =>
        match w.journal.at? (index - 1), outcome with
        | some applied, .ok =>
            some { s with
              worker := w.toRollbackUnmount (index - 1)
              namespaceLog := s.namespaceLog ++ [.detach applied.operationId] }
        | some _, .fail error =>
            some { s with worker := (w.recordRollbackFailure error.1).toRollbackUnmount (index - 1) }
        | none, _ => none
    | .rollbackAfter, .call .ok =>
        some { s with worker := { w with perf := { w.perf with
          mountinfoSnapshotCount := w.perf.mountinfoSnapshotCount + 1 } }.toRollbackVerify w.journal.size }
    | .rollbackAfter, .call (.fail error) =>
        some { s with worker := (w.recordRollbackFailure error.1).toRollbackVerify w.journal.size }
    | .rollbackVerify index, .call outcome =>
        match w.journal.at? (index - 1), outcome with
        | some applied, .ok =>
            some { s with
              worker := w.toRollbackVerify (index - 1)
              namespaceLog := s.namespaceLog ++ [.verifiedGone applied.operationId] }
        | some _, .fail error =>
            some { s with worker := (w.recordRollbackFailure error.1).toRollbackVerify (index - 1) }
        | none, _ => none
    | .finalLoad, .tick => some { s with worker := w.chooseFinal s.shared.status }
    | .finalStore terminal, .tick =>
        some { s with
          shared := { s.shared with result := { s.shared.result with mount := w.perf } }
          worker := { w with pc := .finalCas terminal } }
    | .finalCas terminal, .tick =>
        let (shared, transitioned) := transitionSharedState s.shared w.current terminal
        if transitioned then some { s with shared := shared, worker := { w with pc := .send, published := true } }
        else some { s with worker := { w with pc := .send } }
    | .send, .call .ok => some { s with channel := some w.perf, worker := { w with pc := .sent } }
    | .send, .call (.fail _) => some { s with worker := { w with pc := .sent } }
    | .sent, .tick => some { s with worker := { w with pc := .exited } }
    | _, _ => none

/-- The worker process is gone: it left by `_exit`, it died, or it was never forked. -/
def Worker.gone (w : Worker) : Bool := !w.alive || w.pc == .exited

/-- One step of the companion. -/
def companionStep (s : Transaction) (outcome : Outcome) : Option Transaction :=
  let c := s.companion
  match c.pc, outcome with
  | .fork, .ok =>
      some { s with
        worker := { s.worker with pc := .checkStart, perf := { ruleCount := plan.count } }
        companion := { c with pc := .read, forked := true } }
  | .fork, .fail error =>
      some { s with companion := { c with pc := .finalLoad, mountResult := { result := error.1 } } }
  | .read, .ok =>
      match s.channel with
      | some result =>
          some { s with
            channel := none
            companion := { c with pc := .wait, mountResult := result, mountResultReceived := true } }
      | none => none
  | .read, .fail _ =>
      if s.channel.isSome then none else some { s with companion := { c with pc := .signalLoad } }
  | .signalLoad, _ =>
      if s.shared.status = applying || s.shared.status = cancelRequested then
        some { s with companion := { c with pc := .sigkill } }
      else some { s with companion := { c with pc := .sigterm } }
  | .sigkill, _ =>
      some { s with companion := { c with
        pc := .wait, ownerDeathTainted := true
        mountResult := { result := EOWNERDEAD, runtimeReason := .ownerDeath } } }
  | .sigterm, _ => some { s with companion := { c with pc := .readAgain } }
  | .readAgain, .ok =>
      match s.channel with
      | some result =>
          some { s with
            channel := none
            companion := { c with pc := .wait, mountResult := result, mountResultReceived := true } }
      | none => none
  | .readAgain, .fail _ =>
      if s.channel.isSome then none else some { s with companion := { c with pc := .sigkillAgain } }
  | .sigkillAgain, _ => some { s with companion := { c with pc := .wait, mountResult := { result := EIO } } }
  | .wait, _ => if s.worker.gone then some { s with companion := { c with pc := .afterWait } } else none
  | .afterWait, _ =>
      let status := s.shared.status
      if c.ownerDeathTainted && (status = applying || status = cancelRequested) then
        some { s with companion := { c with pc := .taintStore, afterWait := status } }
      else some { s with companion := { c with pc := .finalLoad, afterWait := status } }
  | .taintStore, _ =>
      some { s with
        shared := { s.shared with result := { s.shared.result with mount := c.mountResult } }
        companion := { c with pc := .taintCas } }
  | .taintCas, _ =>
      some { s with
        shared := (transitionSharedState s.shared c.afterWait namespaceTainted).1
        companion := { c with pc := .finalLoad } }
  | .finalLoad, _ =>
      let status := s.shared.status
      if status = pending then some { s with companion := { c with pc := .failStore } }
      else if c.mountResultReceived && status = cancelRequested && c.mountResult.result ≠ 0 then
        some { s with companion := { c with pc := .publishStore cancelRequested rollbackComplete } }
      else if c.mountResultReceived && status = applying then
        some { s with companion := { c with
          pc := .publishStore applying (if c.mountResult.result = 0 then complete else rollbackComplete) } }
      else some { s with companion := { c with pc := .returned } }
  | .failStore, _ =>
      some { s with
        shared := { s.shared with result := { s.shared.result with mount := { c.mountResult with
          result := if c.mountResult.result = 0 then EPROTO else c.mountResult.result } } }
        companion := { c with pc := .failCas } }
  | .failCas, _ =>
      let (shared, transitioned) := transitionSharedState s.shared pending failed
      if transitioned then some { s with shared := shared, companion := { c with pc := .returned } }
      else some { s with companion := { c with pc := .failLoad } }
  | .failLoad, _ =>
      if s.shared.status = cancelRequested then some { s with companion := { c with pc := .failMark } }
      else some { s with companion := { c with pc := .returned } }
  | .failMark, _ =>
      some { s with
        shared := (transitionSharedState s.shared cancelRequested cancelled).1
        companion := { c with pc := .returned } }
  | .publishStore source terminal, _ =>
      some { s with
        shared := { s.shared with result := { s.shared.result with mount := c.mountResult } }
        companion := { c with pc := .publishCas source terminal } }
  | .publishCas source terminal, _ =>
      some { s with
        shared := (transitionSharedState s.shared source terminal).1
        companion := { c with pc := .returned } }
  | .returned, _ => none

/-- The worker dies, or a signal kills it, wherever it stands. -/
def workerDies (s : Transaction) : Option Transaction :=
  if s.worker.pc = .notStarted || s.worker.gone then none
  else some { s with worker := { s.worker with alive := false } }

/-- One step of the transaction. -/
def step (s : Transaction) : Label → Option Transaction
  | .app deadlinePassed => appStep s deadlinePassed
  | .worker input => workerStep plan s input
  | .workerDies => workerDies s
  | .companion outcome => companionStep plan s outcome

end Steps

/-- The transaction before its first step. -/
def Transaction.initial : Transaction := {}

/-- A state that some interleaving reaches. -/
def Reachable (plan : TransactionPlan) (s : Transaction) : Prop :=
  Run.Reaches (step plan) Transaction.initial s

/-- A plan of one redirect, for the runs that are replayed. -/
def oneRedirect : TransactionPlan := { count := 1, requiredActions := kMountActionRedirect, allowLegacy := false }

end PathGuard.Zygisk
