import PathGuard.Zygisk.TransactionInv

/-!
# The mutation lease

The rules of `docs/adr/0003-mount-timeout-and-mutation-lease.md` over whole runs: the worker mutates the
target namespace only under the lease it took by `kPending -> kApplying`; the app's cancel from `kPending`
and the lease exclude each other; and a terminal status is final, so what it says about the namespace stays
true.
-/

namespace PathGuard.Zygisk

open MountTransactionState

variable {plan : TransactionPlan}

/-! ## Steps -/

theorem leased_of_step_log {s s' : Transaction} {l : Label} (hinv : Inv plan s) (hstep : step plan s l = some s')
    (hlog : s'.namespaceLog ≠ s.namespaceLog) : s.worker.leased = true := by
  cases l with
  | app deadlinePassed => exact absurd (appStep_frame hstep).log hlog
  | worker input =>
      by_contra hl
      refine hlog ((workerStep_frame hstep).logKept fun hs => hl ?_)
      exact (hinv.status.loc.holding (Or.inl hs)).1
  | workerDies =>
      obtain ⟨-, -, rfl⟩ := workerDies_eq_some hstep
      exact absurd rfl hlog
  | companion outcome => exact absurd (companionStep_frame hstep).log hlog

theorem step_status_of_terminal {s s' : Transaction} {l : Label} (hinv : Inv plan s)
    (hstep : step plan s l = some s') (hterminal : isMountTransactionTerminal s.shared.status = true) :
    s'.shared.status = s.shared.status := by
  have hlive : ∀ {status : MountTransactionState}, s.shared.status = status →
      isMountTransactionTerminal status = false → s'.shared.status = s.shared.status := by
    intro status hs hf
    rw [hs, hf] at hterminal
    cases hterminal
  cases l with
  | app deadlinePassed =>
      cases appStep_move hstep with
      | idle hshared _ => rw [hshared]
      | cancel hsource _ _ => rcases hsource with ⟨-, hs⟩ | ⟨-, hs⟩ <;> exact hlive hs rfl
  | worker input =>
      cases workerStep_move hstep hinv.status.loc with
      | work _ _ hs => exact hs
      | giveUp _ _ _ _ hs => exact hs
      | mark _ _ _ _ hs _ => exact hlive hs rfl
      | lease _ _ hs _ => exact hlive hs rfl
      | commit _ _ _ _ hs _ => exact hlive hs rfl
      | choose _ _ _ _ hs => exact hs
      | skip _ _ _ _ hs => exact hs
      | store _ _ _ hs => exact hs
      | publish terminal hpc _ _ hs _ =>
          -- the worker still holds the lease, so the word is not terminal
          obtain ⟨hl, hp⟩ := hinv.status.loc.holding (Or.inr (by rw [hpc]; rfl))
          rcases hinv.status.held hl hp (workerStep_frame hstep).running with hs | hs <;> exact hlive hs rfl
      | lose _ _ _ _ hs => exact hs
      | leave _ _ _ hs => exact hs
  | workerDies =>
      obtain ⟨-, -, rfl⟩ := workerDies_eq_some hstep
      rfl
  | companion outcome =>
      have hknows := hinv.companion.knows
      cases companionStep_move hstep with
      | idle hs => exact hs
      | taint hpc hs _ =>
          simp only [Knows, hpc] at hknows
          rcases hknows.2 with hw | hw <;> exact hlive (hs.trans hw) rfl
      | fail _ hs _ => exact hlive hs rfl
      | mark _ hs _ => exact hlive hs rfl
      | publish source terminal hpc hs _ =>
          simp only [Knows, hpc] at hknows
          exact hlive (hs.trans hknows.2.2.1) rfl

theorem step_cancelledFrom {s s' : Transaction} {l : Label} {source : MountTransactionState} (hinv : Inv plan s)
    (hstep : step plan s l = some s') (hcancel : s.app.cancelledFrom = some source) :
    s'.app.cancelledFrom = some source := by
  cases l with
  | app deadlinePassed =>
      cases appStep_move hstep with
      | idle _ hc => rw [hc, hcancel]
      | cancel hsource _ _ =>
          rcases hsource with ⟨-, hs⟩ | ⟨-, hs⟩
          · rw [(hinv.status.pending hs).2] at hcancel
            cases hcancel
          · rw [(hinv.status.applying hs).2.1] at hcancel
            cases hcancel
  | worker input => rw [(workerStep_frame hstep).app, hcancel]
  | workerDies =>
      obtain ⟨-, -, rfl⟩ := workerDies_eq_some hstep
      exact hcancel
  | companion outcome => rw [(companionStep_frame hstep).app, hcancel]

/-! ## Runs -/

theorem Reachable.status_of_terminal {s t : Transaction} (h : Reachable plan s)
    (hrun : Run.Reaches (step plan) s t) (hterminal : isMountTransactionTerminal s.shared.status = true) :
    t.shared.status = s.shared.status := by
  refine hrun.invariant_under (I := fun u => u.shared.status = s.shared.status)
    (fun _ hu => reachable_inv (h.trans hu)) rfl fun _ _ _ hinv hu _ hstep => ?_
  rw [step_status_of_terminal hinv hstep (hu ▸ hterminal), hu]

theorem Reachable.cancelledFrom {s t : Transaction} {source : MountTransactionState} (h : Reachable plan s)
    (hrun : Run.Reaches (step plan) s t) (hcancel : s.app.cancelledFrom = some source) :
    t.app.cancelledFrom = some source :=
  hrun.invariant_under (I := fun u => u.app.cancelledFrom = some source)
    (fun _ hu => reachable_inv (h.trans hu)) hcancel fun _ _ _ hinv hu _ hstep => step_cancelledFrom hinv hstep hu

theorem Inv.untouched {s : Transaction} (h : Inv plan s) (hl : s.worker.leased = false) : s.namespaceLog = [] :=
  (h.status.loc.unleased hl).2.1

theorem Inv.committed {s : Transaction} (h : Inv plan s) (hs : s.shared.status = complete) :
    attachedOps s.namespaceLog = List.range plan.count ∧ NoDetach s.namespaceLog := by
  obtain ⟨hstage, hpub, hresult, -⟩ := h.status.complete hs
  rcases h.status.loc.finished hstage with ⟨-, hfailed, -⟩ | ⟨-, -, -, hnd, hatt⟩ | hend
  · exact absurd hresult hfailed
  · exact ⟨hatt, hnd⟩
  · exact absurd hresult hend.failed

/-- **The mutation lease.** In every reachable state: the history of the namespace grows only under the
lease; a cancel from `kPending` means that no run that goes through it ever mutates; so do `kCancelled` and
`kFailed`; at `kComplete` all mounts of the plan are attached, none is ever detached and no cancel ever
succeeds; and a terminal status never changes. -/
theorem mutation_lease (plan : TransactionPlan) {s : Transaction} (h : Reachable plan s) :
    (∀ l s', step plan s l = some s' → s'.namespaceLog ≠ s.namespaceLog → s.worker.leased = true) ∧
      (s.app.cancelledFrom = some pending → ∀ t, Run.Reaches (step plan) s t → t.namespaceLog = []) ∧
      (s.shared.status = cancelled ∨ s.shared.status = failed →
        ∀ t, Run.Reaches (step plan) s t → t.namespaceLog = []) ∧
      (s.shared.status = complete → ∀ t, Run.Reaches (step plan) s t →
        attachedOps t.namespaceLog = List.range plan.count ∧ NoDetach t.namespaceLog ∧
          t.app.cancelledFrom = none) ∧
      (isMountTransactionTerminal s.shared.status = true →
        ∀ t, Run.Reaches (step plan) s t → t.shared.status = s.shared.status) := by
  refine ⟨fun l s' => leased_of_step_log (reachable_inv h), fun hcancel t ht => ?_, fun hs t ht => ?_,
    fun hs t ht => ?_, fun hs t ht => h.status_of_terminal ht hs⟩
  · have hinv := reachable_inv (h.trans ht)
    exact hinv.untouched (hinv.status.cancelledEarly (h.cancelledFrom ht hcancel))
  · have hinv := reachable_inv (h.trans ht)
    refine hinv.untouched (hinv.status.released ?_)
    rw [h.status_of_terminal ht (by rcases hs with hs | hs <;> rw [hs] <;> rfl)]
    exact hs
  · have hinv := reachable_inv (h.trans ht)
    have hcomplete : t.shared.status = complete := by
      rw [h.status_of_terminal ht (by rw [hs]; rfl), hs]
    obtain ⟨hatt, hnd⟩ := hinv.committed hcomplete
    exact ⟨hatt, hnd, (hinv.status.complete hcomplete).2.2.2⟩

/-- The worker mounts the redirect and commits. -/
def commitRun : List Label :=
  [.companion .ok, .worker .tick, .worker (.preflight (.passed false {} true)), .worker .tick, .worker .tick,
    .worker (.call .ok), .worker .tick, .worker .mounted, .worker .tick, .worker .tick, .worker .tick, .worker .tick]

theorem mutation_lease_commitRun :
    ∃ s, Run.runLabels (step oneRedirect) .initial commitRun = some s ∧ s.shared.status = complete ∧
      attachedOps s.namespaceLog = List.range 1 ∧ s.app.cancelledFrom = none := by
  refine ⟨_, rfl, rfl, ?_⟩
  have h := (mutation_lease oneRedirect (Run.reaches_of_runLabels commitRun rfl)).2.2.2.1 rfl _ (.refl _)
  exact ⟨h.1, h.2.2⟩

end PathGuard.Zygisk
