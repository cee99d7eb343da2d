import Mathlib.Algebra.Group.Nat.Defs
import PathGuard.Lib.Run

/-!
# The caller of a media provider

`zygisk/include/pathguard/provider_caller_uid.hpp`: the context of a thread remembers whose call it works for while the
identity of the caller is cleared, or while it answers a FUSE request. `Thread` puts the open clears next to the
context, so that what the context remembers can be compared with them.

* `Attributed` : the effective uid is that of the latest app; `OneCaller` : no app waits inside the call of another;
* `attributed_iff` : accesses are attributed as long as that holds, and the first clear that breaks it shows.
-/

namespace PathGuard.Zygisk

open Run

/-! ## CallerUidContext -/

structure CallerUidContext where
  savedBinderUid : Int32 := -1
  binderClearDepth : UInt32 := 0
  fuseUid : Int32 := -1
  fuseRequest : Option Nat := none
  deriving DecidableEq

def isApplicationCaller (uid processUid : Int32) : Bool := 10000 ≤ uid && uid != processUid

def beginBinderIdentityClear (context : CallerUidContext) (callingUid processUid : Int32) : CallerUidContext :=
  { context with
    binderClearDepth := context.binderClearDepth + 1
    savedBinderUid :=
      if context.binderClearDepth = 0 then if isApplicationCaller callingUid processUid then callingUid else -1
      else context.savedBinderUid }

def endBinderIdentityClear (context : CallerUidContext) : CallerUidContext :=
  if context.binderClearDepth = 0 then context
  else
    { context with
      binderClearDepth := context.binderClearDepth - 1
      savedBinderUid := if context.binderClearDepth - 1 = 0 then -1 else context.savedBinderUid }

def beginFuseRequest (context : CallerUidContext) (request : Option Nat) (callingUid processUid : Int32) :
    CallerUidContext :=
  if request.isNone then context
  else { context with
    fuseRequest := request, fuseUid := if isApplicationCaller callingUid processUid then callingUid else -1 }

def endFuseRequest (context : CallerUidContext) (request : Option Nat) : CallerUidContext :=
  if context.fuseRequest ≠ request then context else { context with fuseRequest := none, fuseUid := -1 }

/-- `EffectiveCallerUid` of a thread whose context could be allocated. -/
def effectiveCallerUid (context : CallerUidContext) (currentBinderUid processUid : Int32) : Int32 :=
  if isApplicationCaller context.fuseUid processUid then context.fuseUid
  else if isApplicationCaller currentBinderUid processUid then currentBinderUid
  else if isApplicationCaller context.savedBinderUid processUid then context.savedBinderUid
  else -1

/-! ## The calls of a thread -/

inductive IdentityCall
  | clear (callingUid : Int32)
  | restore
  | fuseBegin (request : Option Nat) (callingUid : Int32)
  | fuseEnd (request : Option Nat)

/-- A thread: its context, and the calling uids of the clears that have not ended, the latest one first. -/
structure Thread where
  context : CallerUidContext := {}
  openClears : List Int32 := []

/-- A call of a thread. The calls are well nested: there is no end without a clear that is open. -/
def Thread.next (processUid : Int32) (thread : Thread) : IdentityCall → Option Thread
  | .clear uid => some
      { context := beginBinderIdentityClear thread.context uid processUid, openClears := uid :: thread.openClears }
  | .restore =>
      match thread.openClears with
      | [] => none
      | _ :: rest => some { context := endBinderIdentityClear thread.context, openClears := rest }
  | .fuseBegin request uid => some { thread with context := beginFuseRequest thread.context request uid processUid }
  | .fuseEnd request => some { thread with context := endFuseRequest thread.context request }

/-- The calling uid of the latest open clear that an app has called for. -/
def recordedCaller (processUid : Int32) (openClears : List Int32) : Int32 :=
  (openClears.find? fun uid => isApplicationCaller uid processUid).getD (-1)

/-- While the binder uid is that of the provider, an access is attributed to the latest app that waits for it. -/
def Attributed (processUid : Int32) (thread : Thread) : Prop :=
  thread.context.fuseRequest = none →
    effectiveCallerUid thread.context processUid processUid = recordedCaller processUid thread.openClears

/-- A clear inside of another is not called for by an app other than that of the outermost one, and the counter does
not wrap around. -/
def KeepsCaller (processUid : Int32) (thread : Thread) : IdentityCall → Prop
  | .clear uid => thread.openClears.length + 1 < 2 ^ 32 ∧
      ∀ outermost ∈ thread.openClears.getLast?, isApplicationCaller uid processUid → uid = outermost
  | _ => True

/-! ## What the context remembers -/

/-- The outermost open clear is the one that is remembered. -/
structure Remembers (processUid : Int32) (thread : Thread) : Prop where
  depth : thread.context.binderClearDepth.toNat = thread.openClears.length
  saved : thread.context.savedBinderUid =
    ((thread.openClears.getLast?.filter fun uid => isApplicationCaller uid processUid).getD (-1))
  fuse : thread.context.fuseRequest = none → thread.context.fuseUid = -1

/-- No app waits inside of the call of another. -/
def OneCaller (processUid : Int32) (openClears : List Int32) : Prop :=
  ∀ uid ∈ openClears, ∀ outermost ∈ openClears.getLast?, isApplicationCaller uid processUid → uid = outermost

section Invariant
variable {processUid : Int32} {thread thread' : Thread}

theorem isApplicationCaller_none : isApplicationCaller (-1) processUid = false := by
  rw [isApplicationCaller, Bool.and_eq_false_iff]
  exact Or.inl rfl

theorem isApplicationCaller_self : isApplicationCaller processUid processUid = false := by
  simp [isApplicationCaller]

theorem remembers_start : Remembers processUid {} := ⟨rfl, rfl, fun _ => rfl⟩

theorem Remembers.next {call : IdentityCall} (h : Remembers processUid thread)
    (hclear : ∀ uid, call = .clear uid → thread.openClears.length + 1 < 2 ^ 32)
    (hnext : thread.next processUid call = some thread') : Remembers processUid thread' := by
  obtain ⟨hdepth, hsaved, hfuse⟩ := h
  cases call with
  | clear uid =>
      obtain rfl := Option.some.inj hnext
      have hbound := hclear uid rfl
      refine ⟨?_, ?_, hfuse⟩
      · show (thread.context.binderClearDepth + 1).toNat = _
        rw [UInt32.toNat_add, hdepth, List.length_cons]
        exact Nat.mod_eq_of_lt hbound
      · show (if thread.context.binderClearDepth = 0 then _ else _) = _
        cases hopen : thread.openClears with
        | nil =>
            rw [hopen] at hdepth
            rw [if_pos (UInt32.toNat_inj.mp hdepth)]
            simp [Option.filter]
            split <;> rfl
        | cons latest rest =>
            rw [hopen] at hdepth hsaved
            rw [if_neg (fun hzero => by rw [hzero] at hdepth; cases hdepth), hsaved, List.getLast?_cons_cons]
  | restore =>
      cases hopen : thread.openClears with
      | nil =>
          rw [Thread.next, hopen] at hnext
          cases hnext
      | cons latest rest =>
          rw [Thread.next, hopen] at hnext
          obtain rfl := Option.some.inj hnext
          rw [hopen] at hdepth hsaved
          rw [List.length_cons] at hdepth
          have hone : (1 : UInt32) ≤ thread.context.binderClearDepth := UInt32.le_iff_toNat_le.mpr (by simp [hdepth])
          have hless : (thread.context.binderClearDepth - 1).toNat = rest.length := by
            rw [UInt32.toNat_sub_of_le _ _ hone, hdepth]
            rfl
          have hne : thread.context.binderClearDepth ≠ 0 := fun hzero => by
            rw [hzero] at hdepth
            cases hdepth
          refine ⟨?_, ?_, ?_⟩
          · simpa [endBinderIdentityClear, hne] using hless
          · simp only [endBinderIdentityClear, if_neg hne]
            cases rest with
            | nil => rw [if_pos (UInt32.toNat_inj.mp hless), List.getLast?_nil, Option.filter_none, Option.getD_none]
            | cons second rest =>
                rw [if_neg (fun hzero => by rw [hzero] at hless; cases hless), hsaved, List.getLast?_cons_cons]
          · simpa [endBinderIdentityClear, hne] using hfuse
  | fuseBegin request uid =>
      obtain rfl := Option.some.inj hnext
      cases request with
      | none => exact ⟨hdepth, hsaved, hfuse⟩
      | some request => exact ⟨hdepth, hsaved, fun hnone => by cases hnone⟩
  | fuseEnd request =>
      obtain rfl := Option.some.inj hnext
      by_cases hrequest : thread.context.fuseRequest = request
      · simp only [endFuseRequest, hrequest, ne_eq, not_true, if_false]
        exact ⟨hdepth, hsaved, fun _ => rfl⟩
      · simp only [endFuseRequest, ne_eq, hrequest, not_false_eq_true, if_true]
        exact ⟨hdepth, hsaved, hfuse⟩

theorem OneCaller.next {call : IdentityCall} (h : OneCaller processUid thread.openClears)
    (hkeeps : KeepsCaller processUid thread call) (hnext : thread.next processUid call = some thread') :
    OneCaller processUid thread'.openClears := by
  cases call with
  | clear uid =>
      obtain rfl := Option.some.inj hnext
      obtain ⟨-, huid⟩ := hkeeps
      intro inner hinner outermost houtermost happ
      cases hopen : thread.openClears with
      | nil =>
          simp only [hopen, List.getLast?_singleton, Option.mem_some, List.mem_singleton] at hinner houtermost
          exact hinner.trans houtermost
      | cons latest rest =>
          simp only [hopen, List.getLast?_cons_cons] at houtermost
          rcases List.mem_cons.mp hinner with rfl | hinner
          · exact huid outermost (hopen ▸ houtermost) happ
          · exact h inner hinner outermost (hopen ▸ houtermost) happ
  | restore =>
      cases hopen : thread.openClears with
      | nil =>
          rw [Thread.next, hopen] at hnext
          cases hnext
      | cons latest rest =>
          rw [Thread.next, hopen] at hnext
          obtain rfl := Option.some.inj hnext
          intro inner hinner outermost houtermost happ
          have hinner' : inner ∈ thread.openClears := hopen ▸ List.mem_cons_of_mem latest hinner
          refine h inner hinner' outermost ?_ happ
          cases rest with
          | nil => cases houtermost
          | cons second rest =>
              rw [hopen, List.getLast?_cons_cons]
              exact houtermost
  | fuseBegin request uid =>
      obtain rfl := Option.some.inj hnext
      exact h
  | fuseEnd request =>
      obtain rfl := Option.some.inj hnext
      exact h

/-- The remembered caller is the latest one exactly when the open clears have no other app in them. -/
theorem Remembers.effectiveCallerUid_eq (h : Remembers processUid thread) (hfuse : thread.context.fuseRequest = none) :
    effectiveCallerUid thread.context processUid processUid =
      ((thread.openClears.getLast?.filter fun uid => isApplicationCaller uid processUid).getD (-1)) := by
  have hnone : isApplicationCaller thread.context.fuseUid processUid = false := by
    rw [h.fuse hfuse]
    exact isApplicationCaller_none
  simp only [effectiveCallerUid, hnone, isApplicationCaller_self, Bool.false_eq_true, if_false]
  rw [h.saved]
  cases hlast : thread.openClears.getLast? with
  | none => simp
  | some outermost =>
      cases happ : isApplicationCaller outermost processUid with
      | false => simp [Option.filter, happ]
      | true => simp [Option.filter, happ]

theorem OneCaller.recordedCaller_eq {openClears : List Int32} (h : OneCaller processUid openClears) :
    recordedCaller processUid openClears =
      ((openClears.getLast?.filter fun uid => isApplicationCaller uid processUid).getD (-1)) := by
  unfold recordedCaller
  cases hfind : openClears.find? fun uid => isApplicationCaller uid processUid with
  | none =>
      cases hlast : openClears.getLast? with
      | none => rfl
      | some outermost =>
          have happ := List.find?_eq_none.mp hfind outermost (List.mem_of_getLast? hlast)
          simp [Option.filter, happ]
  | some uid =>
      have happ := List.find?_some hfind
      have hmem := List.mem_of_find?_eq_some hfind
      cases hlast : openClears.getLast? with
      | none =>
          rw [List.getLast?_eq_none_iff.mp hlast] at hmem
          cases hmem
      | some outermost =>
          obtain rfl := h uid hmem outermost hlast happ
          simp [Option.filter, happ]

/-- A run whose steps all keep the caller. -/
abbrev CallerRun (processUid : Int32) : Thread → Prop :=
  ReachesBy (Thread.next processUid) (KeepsCaller processUid) {}

theorem CallerRun.invariant (h : CallerRun processUid thread) :
    Remembers processUid thread ∧ OneCaller processUid thread.openClears := by
  refine ReachesBy.invariant (I := fun thread => Remembers processUid thread ∧ OneCaller processUid thread.openClears)
    h ⟨remembers_start, fun uid huid => by cases huid⟩ fun thread call thread' hthread hkeeps hnext => ⟨?_, ?_⟩
  · refine hthread.1.next (fun uid hcall => ?_) hnext
    subst hcall
    exact hkeeps.1
  · exact hthread.2.next hkeeps hnext

/-- **An access is attributed to the latest app as long as no app is served inside of the call of another.** The first
clear that another app calls for breaks it. -/
theorem attributed_iff (processUid : Int32) :
    (∀ thread, CallerRun processUid thread → Attributed processUid thread) ∧
    ∀ thread uid thread', CallerRun processUid thread → thread.context.fuseRequest = none →
      thread.openClears.length + 1 < 2 ^ 32 → thread.next processUid (.clear uid) = some thread' →
        (Attributed processUid thread' ↔ KeepsCaller processUid thread (.clear uid)) := by
  have hattributed : ∀ thread, CallerRun processUid thread → Attributed processUid thread := by
    intro thread hrun hfuse
    obtain ⟨hremembers, hone⟩ := hrun.invariant
    rw [hremembers.effectiveCallerUid_eq hfuse, hone.recordedCaller_eq]
  refine ⟨hattributed, fun thread uid thread' hrun hfuse hbound hnext => ⟨fun h => ⟨hbound, ?_⟩, fun hkeeps => ?_⟩⟩
  · intro outermost houtermost happ
    have hremembers := hrun.invariant.1.next (fun _ _ => hbound) hnext
    obtain rfl := Option.some.inj hnext
    have hlast : (uid :: thread.openClears).getLast? = some outermost := by
      cases hopen : thread.openClears with
      | nil =>
          rw [hopen] at houtermost
          cases houtermost
      | cons latest rest =>
          rw [List.getLast?_cons_cons, ← hopen]
          exact houtermost
    -- the context remembers the outermost clear, the latest one is this one
    have heq : (Option.filter (fun uid => isApplicationCaller uid processUid) (some outermost)).getD (-1) = uid := by
      rw [← hlast, ← hremembers.effectiveCallerUid_eq hfuse, h hfuse, recordedCaller]
      simp [happ]
    cases houter : isApplicationCaller outermost processUid with
    | true => simpa [Option.filter, houter] using heq.symm
    | false =>
        have hminus : uid = -1 := by simpa [Option.filter, houter] using heq.symm
        rw [hminus, isApplicationCaller_none] at happ
        cases happ
  · exact hattributed thread' (hrun.tail hkeeps hnext)

end Invariant

/-- An app calls while the provider, with the identity of another app cleared, works for that other app. -/
theorem not_attributed_nested :
    ∃ thread, runLabels (Thread.next 1023) {} [.clear 10358, .clear 10359] = some thread ∧
      ¬ Attributed 1023 thread ∧ effectiveCallerUid thread.context 1023 1023 = 10358 ∧
      recordedCaller 1023 thread.openClears = 10359 := by
  refine ⟨_, rfl, fun h => ?_, by decide, by decide⟩
  have heq := h rfl
  revert heq
  decide

theorem attributed_iff_nested :
    Attributed 1023 ⟨beginBinderIdentityClear {} 10358 1023, [10358]⟩ ∧
      (Attributed 1023 ⟨beginBinderIdentityClear (beginBinderIdentityClear {} 10358 1023) 1023 1023, [1023, 10358]⟩ ↔
        KeepsCaller 1023 ⟨beginBinderIdentityClear {} 10358 1023, [10358]⟩ (.clear 1023)) :=
  have hrun : CallerRun 1023 ⟨beginBinderIdentityClear {} 10358 1023, [10358]⟩ :=
    .tail (.refl _) (l := .clear 10358) ⟨by decide, fun _ h => by cases h⟩ rfl
  ⟨(attributed_iff 1023).1 _ hrun, (attributed_iff 1023).2 _ 1023 _ hrun rfl (by decide) rfl⟩

end PathGuard.Zygisk
