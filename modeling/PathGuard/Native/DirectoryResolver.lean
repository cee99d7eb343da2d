import PathGuard.Lib.Fields
import PathGuard.Lib.PathWalk
import PathGuard.Native.MountRollback
import PathGuard.Zygisk.ProcessPlan

/-!
# Resolving and pinning directories

`native/directory_resolver.cpp` and `PinDirectory` of `native/mount_executor.cpp`, one system call after the other. Between
two calls other processes may change the file tree in any way, and any call may fail of itself: what the `n`-th call of the
process meets is `moments n`. A descriptor has a number that no other one has had, so that closing it twice shows.

* `Moment`, `Process` : what a call meets, and the descriptors of the process;
* `walkComponents_spec`, `pinDirectory_spec` : what is open after each function, whatever the calls meet.
-/

namespace PathGuard.Native

open Zygisk (safePathComponents)

def backslash : UInt8 := 0x5c

def kCapabilityOpenAt2 : CapabilityBits := 1 <<< 0

def EPERM : ErrnoValue := .other 1
def EBADF : ErrnoValue := .other 9
def EACCES : ErrnoValue := .other 13
def ENOTDIR : ErrnoValue := .other 20
def ENOSYS : ErrnoValue := .other 38
def ELOOP : ErrnoValue := .other 40

/-! ## What a call meets -/

/-- The limit on the links of a walk. -/
def MAXSYMLINKS : Nat := 40

def pathStep (component : Bytes) : PathStep Bytes :=
  if component = ascii "." then .stay else if component = ascii ".." then .up else .name component

/-- The components that the kernel sees in a path. -/
def pathSteps (path : Bytes) : List (PathStep Bytes) := (fields (· == slash) path).map pathStep

def walkErrno : WalkError ErrnoValue → ErrnoValue
  | .lookup error => error
  | .notDirectory => ENOTDIR
  | .link => ELOOP
  | .outside => .lookup .EXDEV

/-- The tree, the device and the inode of a directory, and whether the call fails of itself. -/
structure Moment (D : Type*) where
  tree : FileTree D Bytes ErrnoValue
  object : D → Device × Nat
  failure : Option ErrnoValue := none

section Moments
variable {D : Type*} [DecidableEq D]

/-- Where a path leads from `dir`; `none` is something that is no directory. A last component with a slash behind it is
followed. -/
def Moment.walkPath (moment : Moment D) (rules : WalkRules) (dir : D) (path : Bytes) :
    Except (WalkError ErrnoValue) (Option D) :=
  match moment.failure with
  | some error => .error (.lookup error)
  | none =>
      if path = [] then .error (.lookup (.lookup .ENOENT))
      else if PATH_MAX ≤ path.length then .error (.lookup (.lookup .ENAMETOOLONG))
      else if path.head? = some slash && rules.beneath then .error .outside
      else
        let start := if path.head? = some slash then moment.tree.root else dir
        walk moment.tree rules start (path.getLast? = some slash) MAXSYMLINKS start (pathSteps path)

/-- An open with `O_PATH | O_DIRECTORY | O_NOFOLLOW`. -/
def Moment.openDirectory (moment : Moment D) (rules : WalkRules) (dir : D) (path : Bytes) : Except ErrnoValue D :=
  (directoryOf (moment.walkPath rules dir path)).mapError walkErrno

/-- `lstat` of an absolute path: the device and the inode when it is a directory. -/
def Moment.lstat (moment : Moment D) (path : Bytes) : Except ErrnoValue (Option (Device × Nat)) :=
  ((moment.walkPath {} moment.tree.root path).map (Option.map moment.object)).mapError walkErrno

/-- The process: how many calls it has made, `errno`, and its open descriptors; `misused` when it has closed one that was
not open. -/
structure Process (D : Type*) where
  calls : Nat := 0
  errno : Option ErrnoValue := none
  next : Nat := 0
  held : List (Nat × D) := []
  misused : Bool := false

namespace Process

def dirOf (process : Process D) (fd : Nat) : Option D := (process.held.find? fun item => item.1 == fd).map Prod.snd

/-- A call that fails. -/
def fails (process : Process D) (error : ErrnoValue) : Process D :=
  { process with calls := process.calls + 1, errno := some error }

/-- A call that returns a new descriptor. -/
def returns (process : Process D) : Except ErrnoValue D → Except ErrnoValue Nat × Process D
  | .error error => (.error error, process.fails error)
  | .ok dir =>
      (.ok process.next, { process with
        calls := process.calls + 1
        next := process.next + 1
        held := (process.next, dir) :: process.held })

def close (process : Process D) (fd : Nat) : Process D :=
  { process with
    held := process.held.eraseP fun item => item.1 == fd
    misused := process.misused || (process.dirOf fd).isNone }

variable (moments : Nat → Moment D)

/-- `openat`, or `openat2` when there are rules. -/
def openat (process : Process D) (rules : WalkRules) (fd : Nat) (path : Bytes) : Except ErrnoValue Nat × Process D :=
  process.returns <|
    match process.dirOf fd with
    | none => .error EBADF
    | some dir => (moments process.calls).openDirectory rules dir path

/-- `fcntl` with `F_DUPFD_CLOEXEC`. -/
def dupfd (process : Process D) (fd : Nat) : Except ErrnoValue Nat × Process D :=
  process.returns <|
    match (moments process.calls).failure, process.dirOf fd with
    | some error, _ => .error error
    | none, none => .error EBADF
    | none, some dir => .ok dir

def lstat (process : Process D) (path : Bytes) : Except ErrnoValue (Option (Device × Nat)) × Process D :=
  match (moments process.calls).lstat path with
  | .error error => (.error error, process.fails error)
  | .ok seen => (.ok seen, { process with calls := process.calls + 1 })

def fstat (process : Process D) (fd : Nat) : Except ErrnoValue (Device × Nat) × Process D :=
  match (moments process.calls).failure, process.dirOf fd with
  | some error, _ => (.error error, process.fails error)
  | none, none => (.error EBADF, process.fails EBADF)
  | none, some dir => (.ok ((moments process.calls).object dir), { process with calls := process.calls + 1 })

end Process

/-! ## directory_resolver.cpp -/

/-- The check of one component in `ValidLogicalPath`. -/
def isLogicalComponent (component : Bytes) : Bool :=
  component.length != 0 && component.length ≤ NAME_MAX && component != ascii "." && component != ascii ".."

/-- `ValidLogicalPath`. Its loop ends at the terminator, and does not see an empty component there. -/
def validLogicalPath (path : Bytes) : Bool :=
  path.head? != some slash && !path.contains backslash &&
    (path.isEmpty || (safePathComponents path).all isLogicalComponent)

def openAt2Unavailable (error : ErrnoValue) : Bool :=
  error = ENOSYS || error = .lookup .EINVAL || error = EPERM || error = EACCES

/-- `DirectoryResolveResult` of a success. -/
structure ResolvedDirectory where
  fd : Nat
  capability : CapabilityBits
  deriving DecidableEq

namespace Process
variable (moments : Nat → Moment D)

/-- The loop of `WalkDirectoryComponents`. -/
def walkComponents : List Bytes → Process D → Nat → Except ErrnoValue Nat × Process D
  | [], process, current => (.ok current, process)
  | name :: names, process, current =>
      match process.openat moments {} current name with
      | (.error error, process) => (.error error, process.close current)
      | (.ok next, process) => walkComponents names (process.close current) next

def walkDirectoryComponents (process : Process D) (rootFd : Nat) (logicalPath : Bytes) :
    Except ErrnoValue ResolvedDirectory × Process D :=
  match process.dupfd moments rootFd with
  | (.error error, process) => (.error error, process)
  | (.ok current, process) =>
      let components := if logicalPath = [] then [] else safePathComponents logicalPath
      let (result, process) := process.walkComponents moments components current
      (result.map fun fd => ⟨fd, kCapabilityComponentFdWalk⟩, process)

def openDirectoryRoot (process : Process D) (absolutePath : Bytes) : Except ErrnoValue Nat × Process D :=
  if absolutePath.head? ≠ some slash then (.error (.lookup .EINVAL), process)
  else process.returns ((moments process.calls).openDirectory {} (moments process.calls).tree.root absolutePath)

def resolveDirectoryBeneath (process : Process D) (rootFd : Nat) (logicalPath : Bytes) (forceComponentWalk : Bool) :
    Except ErrnoValue ResolvedDirectory × Process D :=
  if !validLogicalPath logicalPath then (.error (.lookup .EINVAL), process)
  else if !forceComponentWalk && logicalPath ≠ [] then
    match process.openat moments { beneath := true, noLinks := true } rootFd logicalPath with
    | (.ok fd, process) => (.ok ⟨fd, kCapabilityOpenAt2⟩, process)
    | (.error error, process) =>
        if !openAt2Unavailable error then (.error error, process)
        else process.walkDirectoryComponents moments rootFd logicalPath
  else process.walkDirectoryComponents moments rootFd logicalPath

variable {moments} {process : Process D} {rootFd : Nat} {logicalPath : Bytes}

theorem resolveDirectoryBeneath_forced (hvalid : validLogicalPath logicalPath = true) :
    process.resolveDirectoryBeneath moments rootFd logicalPath true =
      process.walkDirectoryComponents moments rootFd logicalPath := by
  rw [resolveDirectoryBeneath, if_neg (by simp [hvalid]), if_neg (by simp)]

theorem resolveDirectoryBeneath_openat2 (hvalid : validLogicalPath logicalPath = true) (hne : logicalPath ≠ []) :
    process.resolveDirectoryBeneath moments rootFd logicalPath false =
      match process.openat moments { beneath := true, noLinks := true } rootFd logicalPath with
      | (.ok fd, process) => (.ok ⟨fd, kCapabilityOpenAt2⟩, process)
      | (.error error, process) =>
          if !openAt2Unavailable error then (.error error, process)
          else process.walkDirectoryComponents moments rootFd logicalPath := by
  rw [resolveDirectoryBeneath, if_neg (by simp [hvalid])]
  exact if_pos (by simp [hne])

end Process

/-! ## PinDirectory -/

/-- `PinnedIdentity`, with its descriptor. -/
structure PinnedDirectory where
  fd : Nat
  identity : PinnedIdentity

namespace Process
variable (moments : Nat → Moment D)

/-- `PinDirectory` from `fstat` on. What was opened with `O_DIRECTORY` is a directory. -/
def checkPinned (snapshot : MountInfoSnapshot) (absolutePath : Bytes) (before : Device × Nat) (fd : Nat)
    (process : Process D) : Except ErrnoValue PinnedDirectory × Process D :=
  match process.fstat moments fd with
  | (.error error, process) => (.error error, process.close fd)
  | (.ok pinned, process) =>
      if pinned ≠ before then (.error (process.errno.getD (.lookup .ESTALE)), process.close fd)
      else
        match Native.pinDirectory snapshot absolutePath pinned.1 pinned.2 with
        | .error error => (.error (.lookup error), process.close fd)
        | .ok identity => (.ok ⟨fd, identity⟩, process)

/-- `PinDirectory` once the root is open. -/
def pinBeneath (process : Process D) (snapshot : MountInfoSnapshot) (absolutePath : Bytes) (before : Device × Nat)
    (root : Nat) : Except ErrnoValue PinnedDirectory × Process D :=
  match process.resolveDirectoryBeneath moments root absolutePath.tail true with
  | (.error error, process) => (.error error, process.close root)
  | (.ok resolved, process) => (process.close root).checkPinned moments snapshot absolutePath before resolved.fd

def pinDirectory (process : Process D) (snapshot : MountInfoSnapshot) (absolutePath : Bytes) :
    Except ErrnoValue PinnedDirectory × Process D :=
  if absolutePath.head? ≠ some slash then (.error (.lookup .EINVAL), process)
  else
    match process.lstat moments absolutePath with
    | (.error error, process) => (.error error, process)
    | (.ok none, process) => (.error ENOTDIR, process)
    | (.ok (some before), process) =>
        match process.openDirectoryRoot moments [slash] with
        | (.error error, process) => (.error error, process)
        | (.ok root, process) =>
            process.pinBeneath moments snapshot absolutePath before root

end Process

/-! ## Descriptors -/

section Descriptors
variable {process : Process D} {fd : Nat} {dir : D} {others : List (Nat × D)}

omit [DecidableEq D] in
theorem Process.dirOf_head (h : process.held = (fd, dir) :: others) : process.dirOf fd = some dir := by
  simp [Process.dirOf, h]

omit [DecidableEq D] in
theorem Process.close_head (h : process.held = (fd, dir) :: others) :
    (process.close fd).held = others ∧ (process.close fd).misused = process.misused := by
  simp [Process.close, Process.dirOf, h]

omit [DecidableEq D] in
theorem Process.close_second {fd' : Nat} {dir' : D} (h : process.held = (fd', dir') :: (fd, dir) :: others)
    (hne : fd' ≠ fd) :
    (process.close fd).held = (fd', dir') :: others ∧ (process.close fd).misused = process.misused := by
  simp [Process.close, Process.dirOf, h, hne]

end Descriptors

/-! ## Names -/

/-- A name that is one component for the kernel. -/
structure IsName (name : Bytes) : Prop where
  noSlash : slash ∉ name
  logical : isLogicalComponent name = true

theorem IsName.ne_nil {name : Bytes} (h : IsName name) : name ≠ [] := by
  rintro rfl
  exact absurd h.logical (by decide)

theorem IsName.length_le {name : Bytes} (h : IsName name) : name.length ≤ NAME_MAX := by
  have hlogical := h.logical
  simp only [isLogicalComponent, Bool.and_eq_true, decide_eq_true_eq] at hlogical
  exact hlogical.1.1.2

theorem IsName.pathStep {name : Bytes} (h : IsName name) : pathStep name = .name name := by
  have hlogical := h.logical
  simp only [isLogicalComponent, Bool.and_eq_true, bne_iff_ne] at hlogical
  rw [Native.pathStep, if_neg hlogical.1.2, if_neg hlogical.2]

theorem IsName.pathSteps {name : Bytes} (h : IsName name) : pathSteps name = [.name name] := by
  have hfield : ∀ byte ∈ name, (byte == slash) = false := fun byte hbyte => by
    rw [beq_eq_false_iff_ne]
    rintro rfl
    exact h.noSlash hbyte
  rw [Native.pathSteps, fields_of_forall h.ne_nil hfield, List.map_singleton, h.pathStep]

theorem IsName.head_ne {name : Bytes} (h : IsName name) : name.head? ≠ some slash := fun hhead =>
  h.noSlash (List.mem_of_mem_head? hhead)

theorem IsName.last_ne {name : Bytes} (h : IsName name) : name.getLast? ≠ some slash := fun hlast =>
  h.noSlash (List.mem_of_getLast? hlast)

theorem openDirectory_name {name : Bytes} (h : IsName name) (moment : Moment D) (dir : D) :
    moment.openDirectory {} dir name =
      match moment.failure with
      | some error => .error error
      | none => (openName moment.tree MAXSYMLINKS dir name).mapError walkErrno := by
  have hlength : ¬ PATH_MAX ≤ name.length := by
    have hle := h.length_le
    rw [NAME_MAX] at hle
    rw [PATH_MAX]
    omega
  rw [Moment.openDirectory, Moment.walkPath]
  cases moment.failure with
  | some error => rfl
  | none => simp [h.ne_nil, hlength, h.head_ne, h.last_ne, h.pathSteps, openName]

theorem openDirectory_name_eq_ok {name : Bytes} (h : IsName name) {moment : Moment D} {dir next : D} :
    moment.openDirectory {} dir name = .ok next ↔ moment.failure = none ∧ moment.tree.descend dir [name] = some next := by
  rw [openDirectory_name h]
  cases moment.failure with
  | some error => simp
  | none =>
      rw [← @openName_eq_ok _ _ _ _ _ _ MAXSYMLINKS]
      cases openName moment.tree MAXSYMLINKS dir name <;> simp [Except.mapError]

/-! ## The walk among changes -/

/-- From the `call`-th call on each call opens the next name, an entry of the directory before it that is a directory at that
moment. -/
inductive Passed (moments : Nat → Moment D) : Nat → D → List Bytes → D → Prop
  | nil (call : Nat) (here : D) : Passed moments call here [] here
  | cons {call : Nat} {here next dir : D} {name : Bytes} {names : List Bytes} (hopens : (moments call).failure = none)
      (hentry : (moments call).tree.descend here [name] = some next)
      (hrest : Passed moments (call + 1) next names dir) : Passed moments call here (name :: names) dir

/-- What is left of a walk: the last directory when all names could be passed, and nothing otherwise. -/
structure WalkedTo (moments : Nat → Moment D) (before after : Process D) (others : List (Nat × D)) (lowest : Nat) (here : D)
    (names : List Bytes) (fd : Nat) (dir : D) : Prop where
  held : after.held = (fd, dir) :: others
  misused : after.misused = before.misused
  errno : after.errno = before.errno
  passed : Passed moments before.calls here names dir
  calls : after.calls = before.calls + names.length
  lowest : lowest ≤ fd
  next : fd < after.next

theorem walkComponents_spec (moments : Nat → Moment D) (process : Process D) {current : Nat} {here : D}
    {others : List (Nat × D)} {names : List Bytes} (hnames : ∀ name ∈ names, IsName name)
    (hheld : process.held = (current, here) :: others) (hnext : current < process.next) :
    match process.walkComponents moments names current with
    | (.error _, after) => after.held = others ∧ after.misused = process.misused
    | (.ok fd, after) => ∃ dir, WalkedTo moments process after others current here names fd dir := by
  induction names generalizing process current here with
  | nil => exact ⟨here, hheld, rfl, rfl, .nil _ _, rfl, le_refl _, hnext⟩
  | cons name names ih =>
      rw [List.forall_mem_cons] at hnames
      rw [Process.walkComponents, Process.openat, Process.dirOf_head hheld]
      simp only
      cases hopen : (moments process.calls).openDirectory {} here name with
      | error error =>
          have hfailed : (process.fails error).held = (current, here) :: others := hheld
          exact Process.close_head hfailed
      | ok next =>
          obtain ⟨hfailure, hentry⟩ := (openDirectory_name_eq_ok hnames.1).mp hopen
          have hne : process.next ≠ current := by omega
          let opened : Process D := { process with
            calls := process.calls + 1
            next := process.next + 1
            held := (process.next, next) :: process.held }
          have hopened : opened.held = (process.next, next) :: (current, here) :: others := congrArg _ hheld
          obtain ⟨hclosed, hmisused⟩ := Process.close_second hopened hne
          have hrest := ih (opened.close current) hnames.2 hclosed (Nat.lt_succ_self _)
          simp only [Process.returns]
          split
          · next after heq =>
            rw [heq] at hrest
            exact ⟨hrest.1, hrest.2.trans hmisused⟩
          · next fd after heq =>
            rw [heq] at hrest
            obtain ⟨dir, hwalked⟩ := hrest
            refine ⟨dir, hwalked.held, hwalked.misused.trans hmisused, hwalked.errno, .cons hfailure hentry hwalked.passed,
              ?_, ?_, hwalked.next⟩
            · rw [hwalked.calls, List.length_cons]
              show process.calls + 1 + names.length = _
              omega
            · have hlowest := hwalked.lowest
              omega

/-! ## Pinning among changes -/

/-- The components of a path that `ValidLogicalPath` takes. -/
def logicalComponents (path : Bytes) : List Bytes := if path = [] then [] else safePathComponents path

theorem isName_of_valid {path : Bytes} (h : validLogicalPath path = true) :
    ∀ name ∈ logicalComponents path, IsName name := by
  simp only [validLogicalPath, Bool.and_eq_true, Bool.or_eq_true, List.isEmpty_iff, List.all_eq_true] at h
  intro name hname
  rw [logicalComponents] at hname
  split at hname
  · cases hname
  · next hne =>
    refine ⟨?_, h.2.resolve_left hne name hname⟩
    have hpart : name ∈ path.splitOn slash := by
      rw [safePathComponents] at hname
      split at hname
      · exact List.dropLast_subset _ hname
      · exact hname
    exact notMem_of_mem_splitOn hpart

theorem walkDirectoryComponents_spec (moments : Nat → Moment D) (process : Process D) {rootFd : Nat} {root : D}
    {path : Bytes} (hroot : process.dirOf rootFd = some root) (hvalid : validLogicalPath path = true) :
    match process.walkDirectoryComponents moments rootFd path with
    | (.error _, after) => after.held = process.held ∧ after.misused = process.misused
    | (.ok resolved, after) => ∃ dir, after.held = (resolved.fd, dir) :: process.held ∧ after.misused = process.misused ∧
        after.errno = process.errno ∧ Passed moments (process.calls + 1) root (logicalComponents path) dir ∧
        after.calls = process.calls + 1 + (logicalComponents path).length ∧ process.next ≤ resolved.fd ∧
        resolved.fd < after.next := by
  rw [Process.walkDirectoryComponents, Process.dupfd, hroot]
  cases (moments process.calls).failure with
  | some error => exact ⟨rfl, rfl⟩
  | none =>
      let copied : Process D := { process with
        calls := process.calls + 1
        next := process.next + 1
        held := (process.next, root) :: process.held }
      have hspec := walkComponents_spec moments copied (isName_of_valid hvalid) rfl
        (Nat.lt_succ_self _)
      simp only [Process.returns]
      rw [← logicalComponents]
      generalize copied.walkComponents moments (logicalComponents path) process.next = walked at hspec
      obtain ⟨result, after⟩ := walked
      cases result with
      | error error => exact hspec
      | ok fd =>
          obtain ⟨dir, hwalked⟩ := hspec
          exact ⟨dir, hwalked.held, hwalked.misused, hwalked.errno, hwalked.passed, hwalked.calls, hwalked.lowest,
            hwalked.next⟩

theorem openDirectory_root (moment : Moment D) (dir : D) :
    moment.openDirectory {} dir [slash] =
      match moment.failure with
      | some error => .error error
      | none => .ok moment.tree.root := by
  rw [Moment.openDirectory, Moment.walkPath]
  cases moment.failure <;> rfl

theorem pinDirectory_object {snapshot : MountInfoSnapshot} {path : Bytes} {device : Device} {inode : Nat}
    {identity : PinnedIdentity} (h : pinDirectory snapshot path device inode = .ok identity) :
    (identity.device, identity.inode) = (device, inode) := by
  rw [pinDirectory] at h
  split at h
  · cases h
  · split at h
    · cases h
    · split at h
      · cases h
      · split at h
        · cases h
        · rw [← Except.ok.inj h]

/-- What a pinned directory is, whatever others did to the tree in the meantime: the names of the path were passed one by
one from the root, none of them a link; and the object that `lstat` saw at first is the one that the descriptor has. -/
structure PinnedAt (moments : Nat → Moment D) (snapshot : MountInfoSnapshot) (path : Bytes) (before after : Process D)
    (pinned : PinnedDirectory) (dir : D) : Prop where
  held : after.held = (pinned.fd, dir) :: before.held
  valid : path.head? = some slash ∧ validLogicalPath path.tail = true
  seen : (moments before.calls).lstat path = .ok (some (pinned.identity.device, pinned.identity.inode))
  passed : Passed moments (before.calls + 3) (moments (before.calls + 1)).tree.root (logicalComponents path.tail) dir
  object : (moments (before.calls + 3 + (logicalComponents path.tail).length)).object dir =
    (pinned.identity.device, pinned.identity.inode)
  mount : pinDirectory snapshot path pinned.identity.device pinned.identity.inode = .ok pinned.identity
  number : before.next ≤ pinned.fd ∧ pinned.fd < after.next

omit [DecidableEq D] in
theorem checkPinned_spec (moments : Nat → Moment D) {process : Process D} {fd : Nat} {dir : D} {others : List (Nat × D)}
    (snapshot : MountInfoSnapshot) (path : Bytes) (seen : Device × Nat) (hheld : process.held = (fd, dir) :: others) :
    match process.checkPinned moments snapshot path seen fd with
    | (.error _, after) => after.held = others ∧ after.misused = process.misused
    | (.ok pinned, after) => after.held = (pinned.fd, dir) :: others ∧ after.misused = process.misused ∧
        (moments process.calls).object dir = seen ∧ seen = (pinned.identity.device, pinned.identity.inode) ∧
        pinDirectory snapshot path pinned.identity.device pinned.identity.inode = .ok pinned.identity ∧ pinned.fd = fd ∧
        after.next = process.next := by
  rw [Process.checkPinned, Process.fstat, Process.dirOf_head hheld]
  cases (moments process.calls).failure with
  | some error =>
      have hfailed : (process.fails error).held = (fd, dir) :: others := hheld
      exact Process.close_head hfailed
  | none =>
      have hcalled : ({ process with calls := process.calls + 1 } : Process D).held = (fd, dir) :: others := hheld
      have hclosed := Process.close_head hcalled
      simp only
      by_cases hsame : (moments process.calls).object dir = seen
      · rw [if_neg (not_not.mpr hsame)]
        cases hpin : pinDirectory snapshot path ((moments process.calls).object dir).1
            ((moments process.calls).object dir).2 with
        | error error => exact hclosed
        | ok identity =>
            have hobject := pinDirectory_object hpin
            have hdevice : identity.device = ((moments process.calls).object dir).1 := congrArg Prod.fst hobject
            have hinode : identity.inode = ((moments process.calls).object dir).2 := congrArg Prod.snd hobject
            refine ⟨hheld, rfl, hsame, hsame.symm.trans hobject.symm, ?_, rfl, rfl⟩
            show pinDirectory snapshot path identity.device identity.inode = .ok identity
            rw [hdevice, hinode, hpin]
      · rw [if_pos hsame]
        exact hclosed

theorem pinBeneath_spec (moments : Nat → Moment D) {process : Process D} {rootFd : Nat} {root : D} {others : List (Nat × D)}
    (snapshot : MountInfoSnapshot) (path : Bytes) (seen : Device × Nat) (hheld : process.held = (rootFd, root) :: others)
    (hnext : rootFd < process.next) :
    match process.pinBeneath moments snapshot path seen rootFd with
    | (.error _, after) => after.held = others ∧ after.misused = process.misused
    | (.ok pinned, after) => ∃ dir, after.held = (pinned.fd, dir) :: others ∧ after.misused = process.misused ∧
        validLogicalPath path.tail = true ∧ Passed moments (process.calls + 1) root (logicalComponents path.tail) dir ∧
        (moments (process.calls + 1 + (logicalComponents path.tail).length)).object dir = seen ∧
        seen = (pinned.identity.device, pinned.identity.inode) ∧
        pinDirectory snapshot path pinned.identity.device pinned.identity.inode = .ok pinned.identity ∧
        process.next ≤ pinned.fd ∧ pinned.fd < after.next := by
  rw [Process.pinBeneath, Process.resolveDirectoryBeneath]
  by_cases hvalid : validLogicalPath path.tail = true
  · rw [if_neg (by simp [hvalid]), if_neg (by simp)]
    have hwalked := walkDirectoryComponents_spec moments process (Process.dirOf_head hheld) hvalid
    generalize process.walkDirectoryComponents moments rootFd path.tail = walked at hwalked
    obtain ⟨result, after⟩ := walked
    cases result with
    | error error =>
        obtain ⟨hclosed, hmisused⟩ := Process.close_head (hwalked.1.trans hheld)
        exact ⟨hclosed, hmisused.trans hwalked.2⟩
    | ok directory =>
        obtain ⟨dir, hafter, hmisused, -, hpassed, hcalls, hfd, hlast⟩ := hwalked
        obtain ⟨hclosed, hmisused'⟩ := Process.close_second (hafter.trans (congrArg _ hheld)) (by omega)
        have hchecked := checkPinned_spec moments snapshot path seen hclosed
        have hcalls' : (after.close rootFd).calls = process.calls + 1 + (logicalComponents path.tail).length := hcalls
        simp only
        generalize (after.close rootFd).checkPinned moments snapshot path seen directory.fd = checked at hchecked
        obtain ⟨result, last⟩ := checked
        cases result with
        | error error => exact ⟨hchecked.1, hchecked.2.trans (hmisused'.trans hmisused)⟩
        | ok pinned =>
            obtain ⟨hheld', hmisused'', hobject, hseen, hpin, hsame, hkept⟩ := hchecked
            rw [hcalls'] at hobject
            rw [← hsame] at hfd hlast
            exact ⟨dir, hheld', hmisused''.trans (hmisused'.trans hmisused), hvalid, hpassed, hobject, hseen, hpin, hfd,
              hkept ▸ hlast⟩
  · rw [if_pos (by simpa using hvalid)]
    exact Process.close_head hheld

/-- However the tree changes between the calls, and whichever of them fails: a failure leaves the descriptors as they were,
and a success adds one, of the directory that the path named when the walk passed it. -/
theorem pinDirectory_spec (moments : Nat → Moment D) (process : Process D) (snapshot : MountInfoSnapshot) (path : Bytes) :
    (process.pinDirectory moments snapshot path).2.misused = process.misused ∧
      match process.pinDirectory moments snapshot path with
      | (.error _, after) => after.held = process.held
      | (.ok pinned, after) => ∃ dir, PinnedAt moments snapshot path process after pinned dir := by
  rw [Process.pinDirectory]
  by_cases hhead : path.head? ≠ some slash
  · rw [if_pos hhead]
    exact ⟨rfl, rfl⟩
  rw [if_neg hhead, Process.lstat]
  cases hseen : (moments process.calls).lstat path with
  | error error => exact ⟨rfl, rfl⟩
  | ok seen =>
      cases seen with
      | none => exact ⟨rfl, rfl⟩
      | some seen =>
          simp only
          rw [Process.openDirectoryRoot, if_neg (by decide)]
          simp only
          rw [openDirectory_root]
          cases hfailure : (moments (process.calls + 1)).failure with
          | some error => exact ⟨rfl, rfl⟩
          | none =>
              let opened : Process D := { process with
                calls := process.calls + 1 + 1
                next := process.next + 1
                held := (process.next, (moments (process.calls + 1)).tree.root) :: process.held }
              have hopened : opened.held = (process.next, (moments (process.calls + 1)).tree.root) :: process.held := rfl
              have hspec := pinBeneath_spec moments snapshot path seen hopened (Nat.lt_succ_self _)
              simp only [Process.returns]
              generalize opened.pinBeneath moments snapshot path seen process.next = pins at hspec
              obtain ⟨result, after⟩ := pins
              cases result with
              | error error => exact ⟨hspec.2, hspec.1⟩
              | ok pinned =>
                  obtain ⟨dir, hheld, hmisused, hvalid, hpassed, hobject, hobject', hmount, hfd, hlast⟩ := hspec
                  rw [hobject'] at hobject hseen
                  exact ⟨hmisused, dir, hheld, ⟨not_not.mp hhead, hvalid⟩, hseen, hpassed, hobject, hmount,
                    (Nat.le_succ _).trans hfd, hlast⟩

end Moments

end PathGuard.Native
