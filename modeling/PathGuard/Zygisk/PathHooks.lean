import PathGuard.Zygisk.CallerUid
import PathGuard.Zygisk.ProviderPathMapper
import PathGuard.Zygisk.RuntimePath

/-!
# The hooked functions of a media provider

`WithPath`, `WithTwoPaths`, `HookedRealpath` and what they call in `zygisk/src/provider_redirect_hook.cpp`. Inside of a
hooked function libc can call another one: the flag of the thread makes sure that a path is rewritten once, in the
outermost call. A thread is a stack of hooked calls that have not returned, next to the open clears of its caller.

* `HookThread.next`, `Nested` : calls inside of one another (`Nested.next`);
* `rewritten_once` : an argument is rewritten in the outermost call only;
* `forwarded_for_caller` : for the caller whose rules they are; `hookedRealpath_visible` : what is handed out.
-/

namespace PathGuard.Zygisk

open Run

/-! ## ResolveAtPath -/

/-- `AT_FDCWD` or a descriptor. -/
inductive DirectoryFd
  | cwd
  | fd (number : Int)
  deriving DecidableEq

/-- A path with the directory it is relative to; `none` is a null pointer. -/
structure PathArgument where
  dirfd : DirectoryFd
  path : Option Bytes
  deriving DecidableEq

/-- What `getcwd` and `readlink` of `/proc/self/fd` return. -/
structure Directories where
  getcwd : Option Bytes
  readlink : Int → Option Bytes

/-- The directory in front of a relative path. `readlink` fills at most the buffer, and an empty result is refused. -/
def Directories.path (directories : Directories) : DirectoryFd → Option Bytes
  | .cwd => directories.getcwd
  | .fd number => ((directories.readlink number).filter fun path => !path.isEmpty).map (List.take (PATH_MAX - 1))

def resolveAtPath (directories : Directories) (dirfd : DirectoryFd) (path : Bytes) (capacity : Nat) : Option Bytes :=
  if path.isEmpty then none
  else if path.head? = some slash then if capacity < path.length + 1 then none else some path
  else (directories.path dirfd).bind fun directory =>
    let output := directory ++ slash :: path
    if output.length < capacity then some output else none

/-! ## WithPath, WithTwoPaths -/

/-- `g_rules` and `getuid`. -/
structure HookProcess where
  rules : List PathRule
  processUid : Int32

/-- A call of a hooked function, and what it meets: `g_hooks_enabled`, `GetThreadState`, the calling uid. -/
structure HookedCall where
  enabled : Bool := true
  allocated : Bool := true
  directories : Directories
  binderUid : Int32
  arguments : List PathArgument

/-- `RewriteAtPath`, and the arguments that take the place of the ones that are rewritten. -/
def redirectArgument (rules : List PathRule) (callerUid : Int32) (directories : Directories) (argument : PathArgument) :
    Option PathArgument := do
  let path ← argument.path
  let absolute ← resolveAtPath directories argument.dirfd path PATH_MAX
  let output ← rewriteAtPath rules callerUid absolute PATH_MAX
  return ⟨.cwd, some output⟩

/-- What is handed to the function that is hooked. -/
def forward (process : HookProcess) (context : CallerUidContext) (call : HookedCall) (outer : Bool) : List PathArgument :=
  if !outer || call.arguments.any fun argument => argument.path.isNone then call.arguments
  else call.arguments.map fun argument =>
    (redirectArgument process.rules (effectiveCallerUid context call.binderUid process.processUid) call.directories
      argument).getD argument

/-- A call that has not returned: `outer_` of its `HookGuard`, what it was called with, what it has handed on. -/
structure HookFrame where
  outer : Bool
  given : List PathArgument
  forwarded : List PathArgument

/-- A thread with `in_path_hook` of its state and its open calls, the latest one first. -/
structure HookThread where
  caller : Thread := {}
  inPathHook : Bool := false
  frames : List HookFrame := []

inductive HookEvent
  | enter (call : HookedCall)
  | leave
  | identity (call : IdentityCall)

/-- The `HookGuard` of a call is the outer one. Without the hooks, or without the state of the thread, there is none. -/
def HookThread.isOuter (thread : HookThread) (call : HookedCall) : Bool :=
  call.enabled && call.allocated && !thread.inPathHook

def HookThread.next (process : HookProcess) (thread : HookThread) : HookEvent → Option HookThread
  | .enter call =>
      let outer := thread.isOuter call
      some { thread with
        inPathHook := thread.inPathHook || outer
        frames := ⟨outer, call.arguments, forward process thread.caller.context call outer⟩ :: thread.frames }
  | .leave =>
      match thread.frames with
      | [] => none
      | frame :: rest => some { thread with inPathHook := !frame.outer && thread.inPathHook, frames := rest }
  | .identity call => (thread.caller.next process.processUid call).map fun caller => { thread with caller := caller }

/-! ## One rewrite at a time -/

theorem forward_of_not_outer (process : HookProcess) (context : CallerUidContext) (call : HookedCall) :
    forward process context call false = call.arguments := rfl

/-- The flag is that of the one outer call, and the other calls hand on what they were given. -/
structure Nested (thread : HookThread) : Prop where
  flag : thread.inPathHook = thread.frames.any HookFrame.outer
  one : (thread.frames.filter HookFrame.outer).length ≤ 1
  verbatim : ∀ frame ∈ thread.frames, frame.outer = false → frame.forwarded = frame.given

section Nested
variable {process : HookProcess} {thread after : HookThread}

theorem nested_start : Nested {} := ⟨rfl, Nat.zero_le 1, fun _ hmem => by cases hmem⟩

/-- **Every event keeps the calls nested.** -/
theorem Nested.next {event : HookEvent} (h : Nested thread) (hnext : thread.next process event = some after) :
    Nested after := by
  cases event with
  | enter call =>
      obtain rfl := Option.some.inj hnext
      have hverbatim : ∀ frame ∈ (⟨thread.isOuter call, call.arguments,
          forward process thread.caller.context call (thread.isOuter call)⟩ : HookFrame) :: thread.frames,
          frame.outer = false → frame.forwarded = frame.given := by
        intro frame hframe hinner
        rcases List.mem_cons.mp hframe with rfl | hframe
        · rw [show thread.isOuter call = false from hinner, forward_of_not_outer]
        · exact h.verbatim frame hframe hinner
      refine ⟨?_, ?_, hverbatim⟩
      · rw [List.any_cons, ← h.flag, Bool.or_comm]
      · cases houter : thread.isOuter call with
        | false => simpa [houter] using h.one
        | true =>
            -- the flag is clear, so none of the open calls is an outer one
            have hclear : thread.inPathHook = false := by
              simp only [HookThread.isOuter, Bool.and_eq_true, Bool.not_eq_true'] at houter
              exact houter.2
            rw [h.flag, List.any_eq_false] at hclear
            have hnone : thread.frames.filter HookFrame.outer = [] := List.filter_eq_nil_iff.mpr hclear
            simp [hnone]
  | leave =>
      cases hframes : thread.frames with
      | nil => simp [HookThread.next, hframes] at hnext
      | cons frame rest =>
          rw [HookThread.next, hframes] at hnext
          obtain rfl := Option.some.inj hnext
          obtain ⟨hflag, hone, hverbatim⟩ := h
          rw [hframes] at hflag hone hverbatim
          refine ⟨?_, ?_, fun other hother => hverbatim other (List.mem_cons_of_mem _ hother)⟩
          · cases houter : frame.outer with
            | false => simpa [houter] using hflag
            | true =>
                rw [List.filter_cons_of_pos houter, List.length_cons] at hone
                have hnone := List.filter_eq_nil_iff.mp
                  (List.length_eq_zero_iff.mp (Nat.le_zero.mp (Nat.le_of_succ_le_succ hone)))
                exact (List.any_eq_false.mpr hnone).symm
          · exact ((List.sublist_cons_self frame rest).filter _).length_le.trans hone
  | identity call =>
      obtain ⟨caller, -, rfl⟩ := Option.map_eq_some_iff.mp hnext
      exact ⟨h.flag, h.one, h.verbatim⟩

/-- **A path is rewritten once.** Whatever calls are open in a thread and however they came to be: at most one of them
hands on other paths than it was given, all calls inside of it and around it hand on theirs as they are, and the flag is
set as long as there is an outer call, so that it is clear again when all have returned. -/
theorem rewritten_once (hrun : Reaches (HookThread.next process) {} thread) :
    thread.inPathHook = thread.frames.any HookFrame.outer ∧
      ∀ newer frame older, thread.frames = newer ++ frame :: older → frame.forwarded ≠ frame.given →
        frame.outer = true ∧ ∀ other ∈ newer ++ older, other.outer = false ∧ other.forwarded = other.given := by
  have h : Nested thread := hrun.invariant nested_start fun _ _ _ h _ hnext => h.next hnext
  refine ⟨h.flag, fun newer frame older hframes hrewritten => ?_⟩
  have houter : frame.outer = true := by
    rw [← Bool.not_eq_false]
    exact fun hinner => hrewritten (h.verbatim frame (by simp [hframes]) hinner)
  refine ⟨houter, fun other hother => ?_⟩
  have hone := h.one
  rw [hframes, List.filter_append, List.filter_cons_of_pos houter, List.length_append, List.length_cons] at hone
  have hnone : (newer ++ older).filter HookFrame.outer = [] := by
    rw [List.filter_append, List.append_eq_nil_iff, ← List.length_eq_zero_iff, ← List.length_eq_zero_iff]
    omega
  have hinner : other.outer = false := by simpa using List.filter_eq_nil_iff.mp hnone other hother
  refine ⟨hinner, h.verbatim other ?_ hinner⟩
  rw [hframes]
  rcases List.mem_append.mp hother with hother | hother
  · exact List.mem_append_left _ hother
  · exact List.mem_append_right _ (List.mem_cons_of_mem _ hother)

end Nested

/-- Two rules of an app, the second one at the backing path of the first. -/
def chainedRules : List PathRule := [⟨10358, 0, ascii "A", ascii "B"⟩, ⟨10358, 0, ascii "B", ascii "C"⟩]

/-- A call of the app with an absolute path. -/
def calledWith (path : String) : HookedCall :=
  { directories := ⟨none, fun _ => none⟩, binderUid := 10358, arguments := [⟨.cwd, some (ascii path)⟩] }

/-- Inside of the call that is rewritten to `B`, a call with `B` is not rewritten to `C`. -/
theorem rewritten_once_chained : ∃ thread,
    runLabels (HookThread.next ⟨chainedRules, 1023⟩) {}
        [.enter (calledWith "/data/media/0/A/x"), .enter (calledWith "/data/media/0/B/x")] = some thread ∧
      thread.inPathHook = true ∧
      thread.frames.map HookFrame.forwarded =
        [[⟨.cwd, some (ascii "/data/media/0/B/x")⟩], [⟨.cwd, some (ascii "/data/media/0/B/x")⟩]] := by
  have hrun : Reaches (HookThread.next ⟨chainedRules, 1023⟩) {} _ :=
    reaches_of_runLabels [.enter (calledWith "/data/media/0/A/x"), .enter (calledWith "/data/media/0/B/x")] rfl
  exact ⟨_, rfl, (rewritten_once hrun).1, by decide⟩

/-! ## Who a path is rewritten for -/

/-- The clears of the thread keep the caller. -/
def HookKeepsCaller (process : HookProcess) (thread : HookThread) : HookEvent → Prop
  | .identity call => KeepsCaller process.processUid thread.caller call
  | _ => True

/-- An argument is handed on as it is, or the backing path of a rule of the caller takes its place. -/
inductive ForwardedFor (process : HookProcess) (callerUid : Int32) (directories : Directories) (given : PathArgument) :
    PathArgument → Prop
  | same : ForwardedFor process callerUid directories given given
  | rewritten {path absolute root tail : Bytes} {rule : PathRule} : given.path = some path →
      resolveAtPath directories given.dirfd path PATH_MAX = some absolute → rule ∈ process.rules →
      rule.callerUid = callerUid → 10000 ≤ callerUid →
      Located rule.userId rule.visiblePath absolute root tail →
      ForwardedFor process callerUid directories given ⟨.cwd, some (root ++ rule.backingPath ++ tail)⟩

theorem rewriteAtPath_eq (rules : List PathRule) (callerUid : Int32) (path : Bytes) (capacity : Nat) :
    rewriteAtPath rules callerUid path capacity = rewriteAbsolutePath rules callerUid path capacity := by
  cases hrewrite : rewriteAbsolutePath rules callerUid path capacity with
  | none => simp [rewriteAtPath, hrewrite]
  | some output => simp [rewriteAtPath, hrewrite, matchesVisiblePath_of_rewrite hrewrite]

theorem forwardedFor_redirect (process : HookProcess) (callerUid : Int32) (directories : Directories)
    (argument : PathArgument) : ForwardedFor process callerUid directories argument
      ((redirectArgument process.rules callerUid directories argument).getD argument) := by
  cases hredirect : redirectArgument process.rules callerUid directories argument with
  | none => exact .same
  | some redirected =>
      simp only [redirectArgument, Option.bind_eq_bind, Option.bind_eq_some_iff, Option.pure_def,
        Option.some.injEq] at hredirect
      obtain ⟨path, hpath, absolute, habsolute, output, houtput, rfl⟩ := hredirect
      rw [rewriteAtPath_eq] at houtput
      obtain ⟨hcaller, -, -, -, -, selected, hselected, rfl⟩ := mapAbsolutePath_eq_some.mp houtput
      obtain ⟨hrule, hsame, hlocated⟩ := mem_candidates.mp (selectRule_sound hselected).1
      exact .rewritten hpath habsolute hrule hsame hcaller hlocated

section Caller
variable {process : HookProcess} {thread after : HookThread}

/-- The identity calls of a thread that is hooked are those of a thread that is not. -/
theorem callerRun_of_hookRun (hrun : ReachesBy (HookThread.next process) (HookKeepsCaller process) {} thread) :
    CallerRun process.processUid thread.caller := by
  refine hrun.invariant (I := fun thread => CallerRun process.processUid thread.caller) (.refl _) ?_
  intro before event after hcaller hkeeps hnext
  cases event with
  | enter call =>
      obtain rfl := Option.some.inj hnext
      exact hcaller
  | leave =>
      cases hframes : before.frames with
      | nil => simp [HookThread.next, hframes] at hnext
      | cons frame rest =>
          rw [HookThread.next, hframes] at hnext
          obtain rfl := Option.some.inj hnext
          exact hcaller
  | identity call =>
      obtain ⟨caller, hnextCaller, rfl⟩ := Option.map_eq_some_iff.mp hnext
      exact hcaller.tail hkeeps hnextCaller

/-- **A path is rewritten for the app the thread works for.** As long as no app is served inside of the call of another:
when a hooked function is called under the uid of the provider itself and outside of a FUSE request, every argument is
handed on as it is or by a rule of the latest app that waits for the thread. When no app waits, nothing is rewritten. -/
theorem forwarded_for_caller (hrun : ReachesBy (HookThread.next process) (HookKeepsCaller process) {} thread)
    {call : HookedCall} (huid : call.binderUid = process.processUid) (hfuse : thread.caller.context.fuseRequest = none)
    (hnext : thread.next process (.enter call) = some after) :
    ∃ frame, after.frames = frame :: thread.frames ∧ frame.given = call.arguments ∧
      List.Forall₂ (ForwardedFor process (recordedCaller process.processUid thread.caller.openClears) call.directories)
        frame.given frame.forwarded := by
  obtain ⟨hremembers, hone⟩ := (callerRun_of_hookRun hrun).invariant
  have hcaller : effectiveCallerUid thread.caller.context call.binderUid process.processUid =
      recordedCaller process.processUid thread.caller.openClears := by
    rw [huid, hremembers.effectiveCallerUid_eq hfuse, hone.recordedCaller_eq]
  obtain rfl := Option.some.inj hnext
  refine ⟨_, rfl, rfl, ?_⟩
  have hsame : List.Forall₂ (ForwardedFor process (recordedCaller process.processUid thread.caller.openClears)
      call.directories) call.arguments call.arguments := List.forall₂_same.mpr fun _ _ => .same
  simp only [forward, hcaller]
  split
  · exact hsame
  · rw [List.forall₂_map_right_iff]
    exact List.forall₂_same.mpr fun argument _ => forwardedFor_redirect _ _ _ argument

end Caller

/-- The provider works for the app with its own uid, and rewrites for the app. -/
theorem forwarded_for_caller_cleared : ∃ thread after frame,
    runLabels (HookThread.next ⟨chainedRules, 1023⟩) {} [.identity (.clear 10358)] = some thread ∧
      thread.next ⟨chainedRules, 1023⟩ (.enter { calledWith "/data/media/0/A/x" with binderUid := 1023 }) = some after ∧
      after.frames = frame :: thread.frames ∧
      List.Forall₂ (ForwardedFor ⟨chainedRules, 1023⟩ 10358 ⟨none, fun _ => none⟩) frame.given frame.forwarded ∧
      frame.forwarded = [⟨.cwd, some (ascii "/data/media/0/B/x")⟩] := by
  have hrun : ReachesBy (HookThread.next ⟨chainedRules, 1023⟩) (HookKeepsCaller ⟨chainedRules, 1023⟩) {} _ :=
    .tail (.refl _) (l := .identity (.clear 10358)) ⟨by decide, fun _ h => by cases h⟩ rfl
  have hcall : ({ calledWith "/data/media/0/A/x" with binderUid := 1023 } : HookedCall).binderUid = 1023 := rfl
  obtain ⟨frame, hframes, -, hforwarded⟩ := forwarded_for_caller hrun hcall rfl rfl
  have hframe := (List.cons.inj hframes).1
  exact ⟨_, _, frame, rfl, rfl, hframes, hforwarded, by rw [← hframe]; decide⟩

/-! ## The rule that goes deepest -/

section Deepest
variable {rules : List PathRule} {callerUid : Int32} {path : Bytes} {capacity : Nat}

theorem exists_selectRule {matched : PathRule → Bytes} {better : PathRule → PathRule → Bool} {offer : SelectedRule}
    (hoffer : offer ∈ rules.filterMap (candidate matched callerUid path))
    (hsafe : ∀ other ∈ rules.filterMap (candidate matched callerUid path), hasSafeTail other.tail = true) :
    ∃ selected, selectRule matched better callerUid path rules none = some selected := by
  rw [selectRule_eq, if_pos (List.all_eq_true.mpr hsafe), ← Option.ne_none_iff_exists']
  intro hnone
  have hnil := (List.foldl_argAux_eq_none _).mp hnone
  rw [hnil.1] at hoffer
  cases hoffer

/-- **The deepest rule of the caller decides.** A path at the visible path of a rule goes to the backing path of the
rule when no rule of the caller goes deeper, the ones that go as deep say the same, and no tail is unsafe. -/
theorem rewriteAbsolutePath_deepest {rule : PathRule} {root tail : Bytes} (hrule : rule ∈ rules)
    (hcaller : 10000 ≤ rule.callerUid) (hlocated : Located rule.userId rule.visiblePath path root tail)
    (hbest : ∀ offer ∈ rules.filterMap (candidate PathRule.visiblePath rule.callerUid path),
      hasSafeTail offer.tail = true ∧ offer.rule.visiblePath.length ≤ rule.visiblePath.length ∧
        (offer.rule.userId = rule.userId → offer.rule.visiblePath = rule.visiblePath →
          offer.rule.backingPath = rule.backingPath))
    (hfits : (root ++ rule.backingPath ++ tail).length < capacity) :
    (rewriteAbsolutePath rules rule.callerUid path capacity).getD path = root ++ rule.backingPath ++ tail := by
  have hoffer : (⟨rule, root, tail⟩ : SelectedRule) ∈
      rules.filterMap (candidate PathRule.visiblePath rule.callerUid path) := mem_candidates.mpr ⟨hrule, rfl, hlocated⟩
  obtain ⟨selected, hselected⟩ : ∃ selected, selectRule PathRule.visiblePath
      (fun rule current => current.visiblePath.length < rule.visiblePath.length) rule.callerUid path rules none =
        some selected := exists_selectRule hoffer fun other hother => (hbest other hother).1
  have hmem := (selectRule_sound hselected).1
  obtain ⟨-, hdeepest, hagree⟩ := hbest selected hmem
  obtain ⟨-, -, hother⟩ := mem_candidates.mp hmem
  have hlength : selected.rule.visiblePath.length = rule.visiblePath.length :=
    Nat.le_antisymm hdeepest (selectRule_longest hselected hoffer)
  -- both visible paths begin the path and are as long as each other
  obtain ⟨huser, hnested⟩ := hother.nested hlocated
  have hvisible : selected.rule.visiblePath = rule.visiblePath := by
    rcases hnested with hnested | hnested
    · rcases isWithin_iff.mp hnested with heq | ⟨rest, heq⟩
      · exact heq.symm
      · simp [heq] at hlength
    · rcases isWithin_iff.mp hnested with heq | ⟨rest, heq⟩
      · exact heq
      · simp [heq] at hlength
  rw [huser, hvisible] at hother
  obtain ⟨hroot, htail⟩ := hother.unique hlocated
  have houtput : selected.root ++ selected.rule.backingPath ++ selected.tail = root ++ rule.backingPath ++ tail := by
    rw [hroot, htail, hagree huser hvisible]
  by_cases hsame : path = root ++ rule.backingPath ++ tail
  · cases hrewrite : rewriteAbsolutePath rules rule.callerUid path capacity with
    | none => exact hsame
    | some output =>
        obtain ⟨-, -, -, -, -, found, hfound, rfl⟩ := mapAbsolutePath_eq_some.mp hrewrite
        obtain rfl := Option.some.inj (hselected.symm.trans hfound)
        exact houtput
  · have hrewrite : rewriteAbsolutePath rules rule.callerUid path capacity = some (root ++ rule.backingPath ++ tail) := by
      refine mapAbsolutePath_eq_some.mpr ⟨hcaller, hlocated.head, hsame, ?_, hfits, selected, hselected, houtput.symm⟩
      have hhead := (Located.mk hlocated.root_mem rfl hlocated.separated :
        Located rule.userId rule.backingPath (root ++ rule.backingPath ++ tail) root tail).head
      cases houtput' : root ++ rule.backingPath ++ tail with
      | nil => rw [houtput'] at hhead; cases hhead
      | cons byte rest => exact Nat.succ_pos _
    rw [hrewrite, Option.getD_some]

/-- With visible paths that are apart, what is restored is rewritten to what it was restored from, under the root it was
under. -/
theorem rewriteAbsolutePath_restored (hapart : VisiblePathsApart rules) {canonical restored : Bytes}
    (hrestore : restoreAbsolutePath rules callerUid canonical capacity = some restored) {capacity' : Nat}
    (hfits : canonical.length < capacity') :
    rewriteAbsolutePath rules callerUid restored capacity' = some canonical ∧
      ∃ rule ∈ rules, rule.callerUid = callerUid ∧ ∃ root tail, Located rule.userId rule.visiblePath restored root tail ∧
        canonical = root ++ rule.backingPath ++ tail := by
  obtain ⟨hcaller, -, hne, -, -, selected, hselected, rfl⟩ := mapAbsolutePath_eq_some.mp hrestore
  obtain ⟨hmem, hsafe⟩ := selectRule_sound hselected
  obtain ⟨hrule, rfl, hlocated⟩ := mem_candidates.mp hmem
  have hback : Located selected.rule.userId selected.rule.visiblePath
      (selected.root ++ selected.rule.visiblePath ++ selected.tail) selected.root selected.tail :=
    ⟨hlocated.root_mem, rfl, hlocated.separated⟩
  refine ⟨?_, selected.rule, hrule, rfl, selected.root, selected.tail, hback, hlocated.path_eq⟩
  have hcandidates := candidates_of_apart hapart (mem_candidates.mpr ⟨hrule, rfl, hback⟩)
  have hdeepest := rewriteAbsolutePath_deepest hrule hcaller hback (fun offer hoffer => by
    rw [hcandidates] at hoffer
    rw [List.mem_singleton.mp hoffer]
    exact ⟨hsafe selected hmem, Nat.le_refl _, fun _ _ => rfl⟩) (hlocated.path_eq ▸ hfits)
  rw [← hlocated.path_eq] at hdeepest
  cases hrewrite : rewriteAbsolutePath rules selected.rule.callerUid
      (selected.root ++ selected.rule.visiblePath ++ selected.tail) capacity' with
  | none =>
      rw [hrewrite, Option.getD_none] at hdeepest
      exact absurd hdeepest.symm hne
  | some output =>
      rw [hrewrite, Option.getD_some] at hdeepest
      rw [hdeepest]

end Deepest

/-! ## HookedRealpath -/

/-- What `HookedRealpath` returns: a path, the error of `realpath`, or `EXDEV`. -/
inductive RealpathResult
  | resolved (path : Bytes)
  | failed
  | crossDevice
  deriving DecidableEq

def RealpathResult.ofOption : Option Bytes → RealpathResult
  | none => .failed
  | some path => .resolved path

/-- `realpath` is that of libc, `outer` what the guard says. -/
def hookedRealpath (rules : List PathRule) (callerUid : Int32) (directories : Directories)
    (realpath : Option Bytes → Option Bytes) (outer : Bool) (path : Option Bytes) : RealpathResult :=
  match if outer then redirectArgument rules callerUid directories ⟨.cwd, path⟩ else none with
  | none => .ofOption (realpath path)
  | some redirected =>
      match realpath redirected.path with
      | none => .failed
      | some canonical =>
          match restoreAbsolutePath rules callerUid canonical PATH_MAX with
          | none => .crossDevice
          | some restored => .resolved restored

/-- What `realpath` promises: a path that fits, and is its own canonical path. -/
structure Canonicalizes (realpath : Option Bytes → Option Bytes) : Prop where
  fits : ∀ {path canonical}, realpath path = some canonical → canonical.length < PATH_MAX
  fixed : ∀ {path canonical}, realpath path = some canonical → realpath (some canonical) = some canonical

section Realpath
variable {rules : List PathRule} {callerUid : Int32} {directories : Directories} {realpath : Option Bytes → Option Bytes}
  {path : Option Bytes} {redirected : PathArgument} {restored : Bytes}

theorem redirectArgument_absolute {absolute output : Bytes} (hhead : absolute.head? = some slash)
    (hlength : absolute.length < PATH_MAX) (hrewrite : rewriteAbsolutePath rules callerUid absolute PATH_MAX = some output)
    (dirfd : DirectoryFd) :
    redirectArgument rules callerUid directories ⟨dirfd, some absolute⟩ = some ⟨.cwd, some output⟩ := by
  have hne : absolute.isEmpty = false := by
    cases absolute with
    | nil => cases hhead
    | cons byte rest => rfl
  have hresolve : resolveAtPath directories dirfd absolute PATH_MAX = some absolute := by
    rw [resolveAtPath, if_neg (by simp [hne]), if_pos hhead, if_neg (by omega)]
  simp [redirectArgument, hresolve, rewriteAtPath_eq, hrewrite]

/-- **The app is shown its own path.** With visible paths that are apart, a path that `HookedRealpath` returns for one
that is rewritten is below a visible path of the caller, every hooked call with it reaches the file it was resolved to,
and resolving it again returns it. -/
theorem hookedRealpath_visible (hapart : VisiblePathsApart rules) (hreal : Canonicalizes realpath)
    (hredirected : redirectArgument rules callerUid directories ⟨.cwd, path⟩ = some redirected)
    (hresult : hookedRealpath rules callerUid directories realpath true path = .resolved restored) :
    ∃ canonical, realpath redirected.path = some canonical ∧
      (∃ rule ∈ rules, rule.callerUid = callerUid ∧ ∃ root tail,
        Located rule.userId rule.visiblePath restored root tail ∧ canonical = root ++ rule.backingPath ++ tail) ∧
      (∀ anywhere dirfd, redirectArgument rules callerUid anywhere ⟨dirfd, some restored⟩ = some ⟨.cwd, some canonical⟩) ∧
      ∀ anywhere, hookedRealpath rules callerUid anywhere realpath true (some restored) = .resolved restored := by
  simp only [hookedRealpath, if_true, hredirected] at hresult
  cases hcanonical : realpath redirected.path with
  | none => simp [hcanonical] at hresult
  | some canonical =>
      simp only [hcanonical] at hresult
      cases hrestore : restoreAbsolutePath rules callerUid canonical PATH_MAX with
      | none => simp [hrestore] at hresult
      | some found =>
          simp only [hrestore, RealpathResult.resolved.injEq] at hresult
          subst hresult
          obtain ⟨hrewrite, rule, hrule, hsame, root, tail, hlocated, hfile⟩ :=
            rewriteAbsolutePath_restored hapart hrestore (hreal.fits hcanonical)
          obtain ⟨-, -, -, -, hlength, -⟩ := mapAbsolutePath_eq_some.mp hrestore
          have hback : ∀ anywhere dirfd,
              redirectArgument rules callerUid anywhere ⟨dirfd, some found⟩ = some ⟨.cwd, some canonical⟩ :=
            fun _ dirfd => redirectArgument_absolute hlocated.head hlength hrewrite dirfd
          refine ⟨canonical, rfl, ⟨rule, hrule, hsame, root, tail, hlocated, hfile⟩, hback, fun anywhere => ?_⟩
          simp only [hookedRealpath, if_true, hback, hreal.fixed hcanonical, hrestore]

end Realpath

/-- A file system without symbolic links, as far as `realpath` sees it. -/
def plainRealpath (path : Option Bytes) : Option Bytes := path.filter fun path => path.length < PATH_MAX

theorem canonicalizes_plainRealpath : Canonicalizes plainRealpath where
  fits h := by
    obtain ⟨-, hlength⟩ := Option.filter_eq_some_iff.mp h
    simpa using hlength
  fixed h := by
    obtain ⟨-, hlength⟩ := Option.filter_eq_some_iff.mp h
    exact Option.filter_eq_some_iff.mpr ⟨rfl, hlength⟩

/-- Of two rules with one backing path the first is restored, and restored again. -/
theorem hookedRealpath_visible_shared :
    hookedRealpath sharedRules 10358 ⟨none, fun _ => none⟩ plainRealpath true
        (some (ascii "/storage/emulated/0/Pictures/a")) =
          .resolved (ascii "/storage/emulated/0/Download/localsend-source/a") ∧
      hookedRealpath sharedRules 10358 ⟨none, fun _ => none⟩ plainRealpath true
        (some (ascii "/storage/emulated/0/Download/localsend-source/a")) =
          .resolved (ascii "/storage/emulated/0/Download/localsend-source/a") := by
  have hresult : hookedRealpath sharedRules 10358 ⟨none, fun _ => none⟩ plainRealpath true
      (some (ascii "/storage/emulated/0/Pictures/a")) =
        .resolved (ascii "/storage/emulated/0/Download/localsend-source/a") := by decide
  obtain ⟨-, -, -, -, hagain⟩ := hookedRealpath_visible (show VisiblePathsApart sharedRules by decide)
    canonicalizes_plainRealpath (show redirectArgument sharedRules 10358 ⟨none, fun _ => none⟩
      ⟨.cwd, some (ascii "/storage/emulated/0/Pictures/a")⟩ =
        some ⟨.cwd, some (ascii "/storage/emulated/0/Download/localsend-redirect/a")⟩ by decide) hresult
  exact ⟨hresult, hagain _⟩

end PathGuard.Zygisk
