import PathGuard.Native.DirectoryResolver

/-!
# Resolving and pinning in a still tree

When nobody changes the tree, `openat2` and the walk by components come to one directory, and `PinDirectory` pins what
the path names if no link stands in the way. In a mount namespace that is the place of the lookup, and the identity that
is pinned for it is that of its mount as long as the newest mount on the way is the deepest.

* `resolveDirectoryBeneath_agrees` : the fast path and the walk agree, or refuse alike;
* `exists_pinDirectory_iff` : when an identity is made of a directory; `pinDirectory_still_iff` : when one is pinned;
* `ShowsNamespace` : a tree that is a mount namespace; `pinDirectory_pinnedOn` : what the identity then says.
-/

namespace PathGuard.Native

open Zygisk (safePathComponents)

section Still
variable {D : Type*} [DecidableEq D] {moments : Nat → Moment D} {moment : Moment D} {process : Process D}

/-- From a call on nothing changes, and no call fails of itself. -/
structure Still (moments : Nat → Moment D) (call : Nat) (moment : Moment D) : Prop where
  works : moment.failure = none
  same : ∀ later, call ≤ later → moments later = moment

omit [DecidableEq D] in
theorem Still.later {call call' : Nat} (h : Still moments call moment) (hle : call ≤ call') : Still moments call' moment :=
  ⟨h.works, fun later hlater => h.same later (hle.trans hlater)⟩

omit [DecidableEq D] in
theorem Passed.descend {call : Nat} {here dir : D} {names : List Bytes} (h : Passed moments call here names dir)
    (hstill : Still moments call moment) : moment.tree.descend here names = some dir := by
  induction h with
  | nil => rfl
  | @cons call here next dir name names _ hentry _ ih =>
      rw [hstill.same call (le_refl _), descend_cons] at hentry
      obtain ⟨hsearch, next', hentry, hnext⟩ := hentry
      obtain rfl : next' = next := Option.some.inj hnext
      exact descend_cons.mpr ⟨hsearch, next', hentry, ih (hstill.later (Nat.le_succ _))⟩

/-- The error of a result. -/
def outcome {α : Type*} : Except ErrnoValue α → Option ErrnoValue
  | .error error => some error
  | .ok _ => none

theorem walkComponents_outcome (process : Process D) {current : Nat} {here : D} {others : List (Nat × D)}
    {names : List Bytes}
    (hstill : Still moments process.calls moment) (hnames : ∀ name ∈ names, IsName name)
    (hheld : process.held = (current, here) :: others) (hnext : current < process.next) :
    outcome (process.walkComponents moments names current).1 =
      outcome ((openEach moment.tree MAXSYMLINKS here names).mapError walkErrno) := by
  induction names generalizing process current here with
  | nil => rfl
  | cons name names ih =>
      rw [List.forall_mem_cons] at hnames
      rw [Process.walkComponents, Process.openat, Process.dirOf_head hheld, hstill.same _ (le_refl _)]
      simp only
      rw [openDirectory_name hnames.1, hstill.works, openEach]
      cases openName moment.tree MAXSYMLINKS here name with
      | error error => rfl
      | ok next =>
          let opened : Process D := { process with
            calls := process.calls + 1
            next := process.next + 1
            held := (process.next, next) :: process.held }
          have hopened : opened.held = (process.next, next) :: (current, here) :: others := congrArg _ hheld
          obtain ⟨hclosed, -⟩ := Process.close_second hopened (by omega)
          exact ih (opened.close current) (hstill.later (Nat.le_succ _)) hnames.2 hclosed (Nat.lt_succ_self _)

/-- What a resolution leads to: a descriptor of the directory, and none when there is no directory. -/
def ResolvesTo (process : Process D) (target : Option D) : Except ErrnoValue ResolvedDirectory × Process D → Prop
  | (.ok resolved, after) => ∃ dir, target = some dir ∧ after.held = (resolved.fd, dir) :: process.held ∧
      after.misused = process.misused
  | (.error _, after) => target = none ∧ after.held = process.held ∧ after.misused = process.misused

theorem walkDirectoryComponents_still (process : Process D) {rootFd : Nat} {root : D} {path : Bytes}
    (hroot : process.dirOf rootFd = some root)
    (hvalid : validLogicalPath path = true) (hstill : Still moments process.calls moment) :
    ResolvesTo process (moment.tree.descend root (logicalComponents path))
        (process.walkDirectoryComponents moments rootFd path) ∧
      outcome (process.walkDirectoryComponents moments rootFd path).1 =
        outcome ((openEach moment.tree MAXSYMLINKS root (logicalComponents path)).mapError walkErrno) := by
  have hspec := walkDirectoryComponents_spec moments process hroot hvalid
  have houtcome : outcome (process.walkDirectoryComponents moments rootFd path).1 =
      outcome ((openEach moment.tree MAXSYMLINKS root (logicalComponents path)).mapError walkErrno) := by
    let copied : Process D := { process with
      calls := process.calls + 1
      next := process.next + 1
      held := (process.next, root) :: process.held }
    have hwalked := walkComponents_outcome copied (hstill.later (Nat.le_succ _)) (isName_of_valid hvalid) rfl
      (Nat.lt_succ_self _)
    rw [← hwalked, Process.walkDirectoryComponents, Process.dupfd, hroot, hstill.same _ (le_refl _), hstill.works]
    simp only [Process.returns]
    rw [← logicalComponents]
    cases (copied.walkComponents moments (logicalComponents path) process.next).1 <;> rfl
  refine ⟨?_, houtcome⟩
  generalize process.walkDirectoryComponents moments rootFd path = walked at hspec houtcome
  obtain ⟨result, after⟩ := walked
  cases result with
  | ok resolved =>
      obtain ⟨dir, hheld, hmisused, -, hpassed, -⟩ := hspec
      exact ⟨dir, hpassed.descend (hstill.later (Nat.le_succ _)), hheld, hmisused⟩
  | error error =>
      refine ⟨?_, hspec⟩
      cases hdescend : moment.tree.descend root (logicalComponents path) with
      | none => rfl
      | some dir =>
          rw [openEach_eq_ok.mpr hdescend] at houtcome
          cases houtcome

/-! ## openat2 -/

theorem pathSteps_of_valid {path : Bytes} (h : validLogicalPath path = true) :
    pathSteps path = (logicalComponents path).map PathStep.name := by
  have hnames := isName_of_valid h
  have hfields : fields (· == slash) path = logicalComponents path := by
    have hfilter : ∀ parts : List Bytes, (∀ part ∈ parts, IsName part) →
        parts.filter (fun part => !part.isEmpty) = parts := fun parts hparts =>
      List.filter_eq_self.mpr fun part hpart => by simpa using (hparts part hpart).ne_nil
    rw [logicalComponents] at hnames ⊢
    split
    · next hnil => rw [hnil, fields_nil]
    · next hne =>
      rw [if_neg hne, safePathComponents] at hnames
      rw [safePathComponents, fields]
      change (path.splitOn slash).filter _ = _
      split
      · next hlast =>
        rw [if_pos hlast] at hnames
        have hsplit := List.dropLast_append_getLast? [] (Option.mem_def.mpr hlast)
        conv_lhs => rw [← hsplit]
        rw [List.filter_append, hfilter _ hnames]
        exact List.append_nil _
      · next hlast =>
        rw [if_neg hlast] at hnames
        exact hfilter _ hnames
  rw [pathSteps, hfields]
  exact List.map_congr_left fun name hname => (hnames name hname).pathStep

theorem head_ne_of_valid {path : Bytes} (h : validLogicalPath path = true) : path.head? ≠ some slash := by
  simp only [validLogicalPath, Bool.and_eq_true, bne_iff_ne] at h
  exact h.1.1

theorem openDirectory_beneath {path : Bytes} (hvalid : validLogicalPath path = true) (hne : path ≠ [])
    (hlength : path.length < PATH_MAX) (hworks : moment.failure = none) (root : D) :
    moment.openDirectory { beneath := true, noLinks := true } root path =
      (directoryOf (walk moment.tree { beneath := true, noLinks := true } root (path.getLast? = some slash) MAXSYMLINKS root
        ((logicalComponents path).map PathStep.name))).mapError walkErrno := by
  rw [Moment.openDirectory, Moment.walkPath, hworks]
  simp [hne, Nat.not_le.mpr hlength, head_ne_of_valid hvalid, pathSteps_of_valid hvalid]

/-- The kernel has no `openat2`, or the process must not call it. -/
def Refused (moments : Nat → Moment D) (call : Nat) (moment : Moment D) : Prop :=
  ∃ error, openAt2Unavailable error = true ∧ moments call = { moment with failure := some error }

theorem walkErrno_plainError (error : WalkError ErrnoValue) :
    walkErrno error = walkErrno (plainError error) ∨ walkErrno error = ELOOP ∧ walkErrno (plainError error) = ENOTDIR := by
  cases error with
  | link => exact Or.inr ⟨rfl, rfl⟩
  | lookup error => exact Or.inl rfl
  | notDirectory => exact Or.inl rfl
  | outside => exact Or.inl rfl

/-- **`openat2` and the walk agree.** In a still tree a valid path is resolved to one directory, or by neither way, whether
`openat2` answers or is refused; and the error is the same, but that `openat2` says `ELOOP` for a link on the way where the
walk says `ENOTDIR`. -/
theorem resolveDirectoryBeneath_agrees {rootFd : Nat} {root : D} {path : Bytes} (hroot : process.dirOf rootFd = some root)
    (hvalid : validLogicalPath path = true) (hne : path ≠ []) (hlength : path.length < PATH_MAX)
    (hstill : Still moments (process.calls + 1) moment)
    (hfirst : moments process.calls = moment ∨ Refused moments process.calls moment) :
    let resolved := process.resolveDirectoryBeneath moments rootFd path false
    let walked := process.resolveDirectoryBeneath (fun _ => moment) rootFd path true
    ResolvesTo process (moment.tree.descend root (logicalComponents path)) resolved ∧
      ResolvesTo process (moment.tree.descend root (logicalComponents path)) walked ∧
      (outcome resolved.1 = outcome walked.1 ∨ outcome resolved.1 = some ELOOP ∧ outcome walked.1 = some ENOTDIR) := by
  have hsame : Still (fun _ => moment) process.calls moment := ⟨hstill.works, fun _ _ => rfl⟩
  obtain ⟨hplain, hplainOutcome⟩ := walkDirectoryComponents_still process hroot hvalid hsame
  -- after a call that fails, the walk goes on in the still tree
  have hfallback : ∀ error, let walked := (process.fails error).walkDirectoryComponents moments rootFd path
      ResolvesTo process (moment.tree.descend root (logicalComponents path)) walked ∧
        outcome walked.1 = outcome ((openEach moment.tree MAXSYMLINKS root (logicalComponents path)).mapError walkErrno) :=
    fun error => walkDirectoryComponents_still (process.fails error) hroot hvalid hstill
  intro resolved walked
  have hresolved : resolved = _ := Process.resolveDirectoryBeneath_openat2 hvalid hne
  have hwalked : walked = process.walkDirectoryComponents (fun _ => moment) rootFd path :=
    Process.resolveDirectoryBeneath_forced hvalid
  rw [hresolved, hwalked, Process.openat, hroot, hplainOutcome]
  simp only
  rcases hfirst with hfirst | ⟨refusal, hrefusal, hfirst⟩
  · have heach := @openEach_eq_walk _ _ _ _ moment.tree root root (path.getLast? = some slash) MAXSYMLINKS
      (logicalComponents path)
    rw [hfirst, openDirectory_beneath hvalid hne hlength hstill.works]
    generalize directoryOf (walk moment.tree { beneath := true, noLinks := true } root (path.getLast? = some slash)
      MAXSYMLINKS root ((logicalComponents path).map PathStep.name)) = opened at heach
    cases opened with
    | ok dir =>
        have hdescend := openEach_eq_ok.mp heach
        exact ⟨⟨dir, hdescend, rfl, rfl⟩, hplain, Or.inl (by rw [heach]; rfl)⟩
    | error error =>
        have hnone : moment.tree.descend root (logicalComponents path) = none := by
          cases hdescend : moment.tree.descend root (logicalComponents path) with
          | none => rfl
          | some dir =>
              rw [openEach_eq_ok.mpr hdescend] at heach
              cases heach
        simp only [Except.mapError, Process.returns]
        split
        · refine ⟨⟨hnone, rfl, rfl⟩, hplain, ?_⟩
          rw [heach]
          rcases walkErrno_plainError error with heq | ⟨hloop, hnotdir⟩
          · exact Or.inl (congrArg some heq)
          · exact Or.inr ⟨congrArg some hloop, congrArg some hnotdir⟩
        · exact ⟨(hfallback _).1, hplain, Or.inl (hfallback _).2⟩
  · rw [hfirst]
    simp only [Moment.openDirectory, Moment.walkPath, directoryOf, Except.mapError, walkErrno, Process.returns, hrefusal]
    exact ⟨(hfallback _).1, hplain, Or.inl (hfallback _).2⟩

/-! ## PinDirectory -/

theorem lstat_of_descend {path : Bytes} {dir : D} (hhead : path.head? = some slash)
    (hvalid : validLogicalPath path.tail = true) (hlength : path.length < PATH_MAX) (hworks : moment.failure = none)
    (hdescend : moment.tree.descend moment.tree.root (logicalComponents path.tail) = some dir) :
    moment.lstat path = .ok (some (moment.object dir)) := by
  obtain ⟨rest, rfl⟩ : ∃ rest, path = slash :: rest := ⟨path.tail, List.eq_cons_of_mem_head? hhead⟩
  rw [List.tail_cons] at hvalid hdescend
  have hsteps : pathSteps (slash :: rest) = (logicalComponents rest).map PathStep.name := by
    rw [← pathSteps_of_valid hvalid, pathSteps, pathSteps, fields_cons_separator (by simp)]
  rw [Moment.lstat, Moment.walkPath, hworks]
  simp only [List.cons_ne_nil, if_false, Nat.not_le.mpr hlength, List.head?_cons, decide_true, Bool.and_false,
    Bool.false_eq_true, if_true, hsteps, walk_of_descend hdescend]
  rfl

theorem length_lt_of_lstat {path : Bytes} {seen : Option (Device × Nat)} (h : moment.lstat path = .ok seen) :
    path.length < PATH_MAX := by
  by_contra hlong
  rw [Moment.lstat, Moment.walkPath] at h
  cases hfailure : moment.failure with
  | some error =>
      rw [hfailure] at h
      cases h
  | none =>
      simp only [hfailure, if_pos (Nat.not_lt.mp hlong)] at h
      split at h <;> cases h

theorem pinBeneath_of_descend {snapshot : MountInfoSnapshot} {path : Bytes} {rootFd : Nat} {dir : D}
    {others : List (Nat × D)} {identity : PinnedIdentity} (hheld : process.held = (rootFd, moment.tree.root) :: others)
    (hnext : rootFd < process.next) (hvalid : validLogicalPath path.tail = true)
    (hdescend : moment.tree.descend moment.tree.root (logicalComponents path.tail) = some dir)
    (hidentity : pinDirectory snapshot path (moment.object dir).1 (moment.object dir).2 = .ok identity)
    (hstill : Still moments process.calls moment) :
    ∃ pinned after, process.pinBeneath moments snapshot path (moment.object dir) rootFd = (.ok pinned, after) := by
  have hroot : process.dirOf rootFd = some moment.tree.root := Process.dirOf_head hheld
  have hresolved := (walkDirectoryComponents_still process hroot hvalid hstill).1
  have hspec := walkDirectoryComponents_spec moments process hroot hvalid
  rw [Process.pinBeneath, Process.resolveDirectoryBeneath_forced hvalid]
  generalize process.walkDirectoryComponents moments rootFd path.tail = walked at hresolved hspec
  obtain ⟨result, after⟩ := walked
  cases result with
  | error error =>
      rw [hresolved.1] at hdescend
      cases hdescend
  | ok resolved =>
      obtain ⟨dir', hdir, hafter, -⟩ := hresolved
      obtain ⟨-, -, -, -, -, hcalls, hfd, -⟩ := hspec
      obtain rfl : dir' = dir := Option.some.inj (hdir.symm.trans hdescend)
      obtain ⟨hclosed, -⟩ := Process.close_second (hafter.trans (congrArg _ hheld)) (by omega)
      have hlater : process.calls ≤ (after.close rootFd).calls := by
        have heq : (after.close rootFd).calls = process.calls + 1 + (logicalComponents path.tail).length := hcalls
        omega
      simp only
      rw [Process.checkPinned, Process.fstat, Process.dirOf_head hclosed, hstill.same _ hlater, hstill.works]
      simp only [ne_eq, not_true_eq_false, if_false, hidentity]
      exact ⟨_, _, rfl⟩

theorem buildExpectedBindRoot_onMount {path mountpoint root : Bytes} {capacity : Nat}
    (h : isPathOnMount path mountpoint = true) :
    buildExpectedBindRoot path mountpoint root capacity =
      if bindRootText path mountpoint root ≠ [] ∧ (bindRootText path mountpoint root).length < capacity then
        .ok (bindRootText path mountpoint root)
      else .error .ENAMETOOLONG := by
  rw [buildExpectedBindRoot, h]
  by_cases hempty : bindRootText path mountpoint root = []
  · simp [hempty]
  · by_cases hlength : (bindRootText path mountpoint root).length < capacity
    · simp [hempty, hlength, Nat.not_le.mpr hlength]
    · simp [hempty, hlength, Nat.not_lt.mp hlength]

/-- An identity is pinned where the row that is selected is one of the device and its expected root fits. -/
theorem exists_pinDirectory_iff {snapshot : MountInfoSnapshot} {path : Bytes} {device : Device} {inode : Nat} :
    (∃ identity, pinDirectory snapshot path device inode = .ok identity) ↔
      ∃ mount, findMountInfoPath snapshot path false = .ok mount ∧ mount.device = device ∧
        bindRootText path mount.mountpoint mount.root ≠ [] ∧
        (bindRootText path mount.mountpoint mount.root).length < PATH_MAX := by
  rw [pinDirectory]
  by_cases hhead : path.head? = some slash
  · rw [if_neg (not_not.mpr hhead)]
    cases hfind : findMountInfoPath snapshot path false with
    | error error => simp
    | ok mount =>
        simp only [Except.ok.injEq, exists_eq_left', buildExpectedBindRoot_onMount (findMountInfoPath_onMount hfind)]
        by_cases hdevice : mount.device = device
        · rw [if_neg (not_not.mpr hdevice), and_iff_right hdevice]
          split
          · next hbad =>
            split at hbad
            · cases hbad
            · next hnot =>
              refine iff_of_false ?_ hnot
              rintro ⟨identity, hidentity⟩
              cases hidentity
          · next hgood =>
            split at hgood
            · next hfits => exact iff_of_true ⟨_, rfl⟩ hfits
            · cases hgood
        · simp [hdevice]
  · rw [if_pos hhead, findMountInfoPath, if_pos hhead]
    simp

/-- **What can be pinned.** In a still tree `PinDirectory` succeeds for the valid paths that lead from the root through
directories only, when the row that the table has for them is one of their device and the root that is expected of a bind
of them fits. -/
theorem pinDirectory_still_iff {snapshot : MountInfoSnapshot} {path : Bytes} (hstill : Still moments process.calls moment) :
    (∃ pinned after, process.pinDirectory moments snapshot path = (.ok pinned, after)) ↔
      path.head? = some slash ∧ validLogicalPath path.tail = true ∧ path.length < PATH_MAX ∧
        ∃ dir, moment.tree.descend moment.tree.root (logicalComponents path.tail) = some dir ∧
          ∃ mount, findMountInfoPath snapshot path false = .ok mount ∧ mount.device = (moment.object dir).1 ∧
            bindRootText path mount.mountpoint mount.root ≠ [] ∧
            (bindRootText path mount.mountpoint mount.root).length < PATH_MAX := by
  constructor
  · rintro ⟨pinned, after, hpinned⟩
    have hpins := (pinDirectory_spec moments process snapshot path).2
    rw [hpinned] at hpins
    obtain ⟨dir, hpins⟩ := hpins
    have hdescend := hpins.passed.descend (hstill.later (Nat.le_add_right _ _))
    rw [hstill.same _ (Nat.le_succ _)] at hdescend
    have hseen := hpins.seen
    rw [hstill.same _ (le_refl _)] at hseen
    have hobject := hpins.object
    rw [hstill.same _ (by omega)] at hobject
    refine ⟨hpins.valid.1, hpins.valid.2, length_lt_of_lstat hseen, dir, hdescend, ?_⟩
    refine (@exists_pinDirectory_iff _ _ _ (moment.object dir).2).mp ⟨pinned.identity, ?_⟩
    rw [hobject]
    exact hpins.mount
  · rintro ⟨hhead, hvalid, hlength, dir, hdescend, hmount⟩
    obtain ⟨identity, hidentity⟩ := (@exists_pinDirectory_iff _ _ _ (moment.object dir).2).mpr hmount
    have hsame : ∀ more, moments (process.calls + more) = moment := fun more => hstill.same _ (Nat.le_add_right _ _)
    let opened : Process D := { process with
      calls := process.calls + 1 + 1
      next := process.next + 1
      held := (process.next, moment.tree.root) :: process.held }
    have hlater : process.calls ≤ opened.calls := (Nat.le_succ _).trans (Nat.le_succ _)
    rw [Process.pinDirectory, if_neg (not_not.mpr hhead), Process.lstat, hstill.same _ (le_refl _),
      lstat_of_descend hhead hvalid hlength hstill.works hdescend]
    simp only
    rw [Process.openDirectoryRoot, if_neg (by decide)]
    simp only
    rw [hsame 1, openDirectory_root, hstill.works]
    show ∃ pinned after, opened.pinBeneath moments snapshot path (moment.object dir) process.next = (.ok pinned, after)
    exact pinBeneath_of_descend rfl (Nat.lt_succ_self _) hvalid hdescend hidentity (hstill.later hlater)

end Still

/-! ## Mount namespaces -/

theorem logicalComponents_absolutePath (names : List Name) :
    logicalComponents (absolutePath names).tail = names.map Name.bytes := by
  cases names with
  | nil => rfl
  | cons name names =>
      have hsplit := splitOn_flatMap (name :: names)
      rw [List.flatMap_cons, List.cons_append, ← List.nil_append (slash :: _), List.splitOn_append_cons_self,
        List.splitOn_nil, List.singleton_append, List.cons_eq_cons] at hsplit
      have hne : name.bytes ++ (names.flatMap fun name => slash :: name.bytes) ≠ [] := fun heq =>
        name.ne (List.append_eq_nil_iff.mp heq).1
      have hlast : ((name :: names).map Name.bytes).getLast? ≠ some [] := fun hlast => by
        obtain ⟨last, -, hnil⟩ := List.mem_map.mp (List.mem_of_getLast? hlast)
        exact last.ne hnil
      rw [absolutePath, if_neg (List.cons_ne_nil _ _), List.flatMap_cons, List.cons_append, List.tail_cons,
        logicalComponents, if_neg hne, safePathComponents, hsplit.2]
      exact if_neg hlast

section Namespace
variable {F : Type*} [DecidableEq F] {trees : DirTrees F Name} {base place : Place F Name} {mounts : List (Mount F Name)}
  {rows : List MountRow} {names : List Name} {tree : FileTree (Place F Name) Bytes ErrnoValue}

/-- The directories of the tree are those of the namespace, each with what is mounted on it. What else there is, and which
directories cannot be searched, is open. -/
structure ShowsNamespace (tree : FileTree (Place F Name) Bytes ErrnoValue) (trees : DirTrees F Name)
    (mounts : List (Mount F Name)) (base : Place F Name) : Prop where
  root : tree.root = base
  entry : ∀ (place : Place F Name) (name : Name) (next : Place F Name),
    tree.entry place name.bytes = .ok (.directory next) ↔
      trees.isDir (place.dir.descend [name]) = true ∧ next = enter mounts ⟨place.mount, place.dir.descend [name]⟩

theorem ShowsNamespace.lookup (h : ShowsNamespace tree trees mounts base) {here : Place F Name}
    (hdescend : tree.descend here (names.map Name.bytes) = some place) : lookup trees mounts here names = some place := by
  induction names generalizing here with
  | nil => exact hdescend
  | cons name names ih =>
      obtain ⟨-, next, hentry, hrest⟩ := descend_cons.mp hdescend
      obtain ⟨hdir, rfl⟩ := (h.entry here name next).mp hentry
      rw [PathGuard.lookup, if_pos hdir]
      exact ih hrest

/-- The rows say which directory each mount shows. -/
def ShowsRoots (base : Place F Name) (mounts : List (Mount F Name)) (rows : List MountRow) : Prop :=
  List.Forall₂ (fun row dir => row.root = absolutePath dir.path) rows (base.dir :: mounts.map Mount.root)

omit [DecidableEq F] in
theorem exists_row_of_forall₂ {others : List MountRow} {attached : List (Mount F Name)}
    (h : List.Forall₂ (ShowsMount base mounts) others attached)
    (hroots : List.Forall₂ (fun row dir => row.root = absolutePath dir.path) others (attached.map Mount.root)) :
    ∀ mount ∈ attached, ∃ row ∈ others, ShowsMount base mounts row mount ∧ row.root = absolutePath mount.root.path := by
  induction h with
  | nil => exact List.forall_mem_nil _
  | @cons row mount others attached hshows _ ih =>
      rw [List.map_cons] at hroots
      obtain ⟨hroot, hroots⟩ := List.forall₂_cons.mp hroots
      refine List.forall_mem_cons.mpr ⟨⟨row, List.mem_cons_self, hshows, hroot⟩, fun mount hmount => ?_⟩
      obtain ⟨row', hrow', hboth⟩ := ih hroots mount hmount
      exact ⟨row', List.mem_cons_of_mem _ hrow', hboth⟩

/-- The row of the mount that a place is on splits the path of the place. -/
theorem exists_row_of_place (hbuilt : Built trees base mounts) (hrows : ShowsTable base mounts rows)
    (hroots : ShowsRoots base mounts rows) (hlookup : lookup trees mounts base names = some place) :
    ∃ row ∈ rows, row.mountId = place.mount ∧ ∃ above below root, names = above ++ below ∧
      row.mountpoint = absolutePath above ∧ row.root = absolutePath root ∧ place.dir.path = root ++ below := by
  have hinside := hbuilt.sound.lookup (inside_base hbuilt.sound.base_ne) hlookup
  rw [pathOf_base hbuilt.sound.base_ne, List.nil_append] at hinside
  obtain ⟨root, others, rfl, hid, hpoint, hothers⟩ := hrows
  obtain ⟨hroot, hroots⟩ := List.forall₂_cons.mp hroots
  rcases hinside.1.split with ⟨hmount, hpath⟩ | ⟨mount, hmem, hmount, below, hdir, hpath⟩
  · rw [hinside.2] at hpath
    exact ⟨root, List.mem_cons_self, hid.trans hmount.symm, [], names, base.dir.path, rfl, hpoint, hroot, hpath⟩
  · obtain ⟨row, hrow, hshows, hrowRoot⟩ := exists_row_of_forall₂ hothers hroots mount hmem
    exact ⟨row, List.mem_cons_of_mem _ hrow, hshows.1.trans hmount, _, below, mount.root.path, hinside.2.symm.trans hpath,
      hshows.2, hrowRoot, hdir⟩

variable {moments : Nat → Moment (Place F Name)} {moment : Moment (Place F Name)} {process after : Process (Place F Name)}
  {snapshot : MountInfoSnapshot} {pinned : PinnedDirectory}

/-- **What is pinned in a mount namespace.** When the mounts are built by attaching, the table shows them and nothing
changes, a directory that `PinDirectory` pins is the place that the lookup of its path ends on. Its identity is that of the
mount of this place if and only if the newest mount on the way is the deepest. The root that is expected of a bind of it is
then the path of the directory in the file system of that mount, but for `/` where the mount does not show the root. -/
theorem pinDirectory_pinnedOn (hbuilt : Built trees base mounts) (hrows : ShowsTable base mounts rows)
    (hroots : ShowsRoots base mounts rows) (hwell : ∀ row ∈ rows, row.WellFormed)
    (hparse : parseSnapshot (mountInfoText rows) = .ok snapshot) (htree : ShowsNamespace moment.tree trees mounts base)
    (hstill : Still moments process.calls moment)
    (hpinned : process.pinDirectory moments snapshot (absolutePath names) = (.ok pinned, after)) :
    ∃ place, lookup trees mounts base names = some place ∧ after.held = (pinned.fd, place) :: process.held ∧
      (pinned.identity.device, pinned.identity.inode) = moment.object place ∧
      (pinned.identity.mount.mountId = place.mount ↔ NewestIsDeepest rows (absolutePath names)) ∧
      (NewestIsDeepest rows (absolutePath names) → PinnedOn rows snapshot names place.dir.path pinned.identity ∧
        pinned.identity.expectedBindRoot = if names = [] ∧ place.dir.path ≠ [] then absolutePath place.dir.path ++ [slash]
          else absolutePath place.dir.path) := by
  have hpins := (pinDirectory_spec moments process snapshot (absolutePath names)).2
  rw [hpinned] at hpins
  obtain ⟨place, hpins⟩ := hpins
  have hdescend := hpins.passed.descend (hstill.later (Nat.le_add_right _ _))
  rw [hstill.same _ (Nat.le_succ _), logicalComponents_absolutePath, htree.root] at hdescend
  have hlookup := htree.lookup hdescend
  have hobject := hpins.object
  rw [hstill.same _ (by omega)] at hobject
  obtain ⟨selected, hselected, hselect, hselectedIff⟩ := exists_selected hbuilt hrows hlookup
  have hfound := pinDirectory_mount hpins.mount
  rw [findMountInfoPath_eq hwell hparse (absolutePath_head names), hselect] at hfound
  have hidentity : selected.identity = pinned.identity.mount := Except.ok.inj hfound
  have hmountIff : pinned.identity.mount.mountId = place.mount ↔ NewestIsDeepest rows (absolutePath names) := by
    rw [← hidentity]
    exact hselectedIff
  refine ⟨place, hlookup, hpins.held, hobject.symm, hmountIff, fun hnewest => ?_⟩
  obtain ⟨row, hrow, hid, hsplit⟩ := exists_row_of_place hbuilt hrows hroots hlookup
  have hselectedId : selected.mountId = row.mountId := (hselectedIff.mpr hnewest).trans hid.symm
  obtain rfl : selected = row := List.inj_on_of_nodup_map (hrows.nodup hbuilt) hselected hrow hselectedId
  have hon : PinnedOn rows snapshot names place.dir.path pinned.identity :=
    ⟨hpins.mount, selected, hrow, hidentity.symm, hsplit⟩
  exact ⟨hon, hon.expectedBindRoot⟩

end Namespace

/-! ## One directory with a mount on it -/

theorem oneDir_of_child (dir : Dir Nat Name) (name : Name)
    (h : decide ((dir.descend [name]).path = [] ∨ (dir.descend [name]).path = [nameA]) = true) :
    decide (dir.path = [] ∨ dir.path = [nameA]) = true := by
  have hcases := of_decide_eq_true h
  rw [Dir.descend] at hcases
  rcases hcases with hnil | hone
  · cases (List.append_eq_nil_iff.mp hnil).2
  · have hlength := congrArg List.length hone
    rw [List.length_append, List.length_singleton, List.length_singleton] at hlength
    exact decide_eq_true (Or.inl (List.length_eq_zero_iff.mp (by omega)))

/-- File systems with one directory `a`. -/
def oneDir : DirTrees Nat Name := ⟨fun dir => decide (dir.path = [] ∨ dir.path = [nameA]), oneDir_of_child⟩

def oneMount : List (Mount Nat Name) := [⟨2, ⟨1, ⟨0, [nameA]⟩⟩, ⟨1, []⟩⟩]

def oneMountRows : List MountRow := [plainRow 1 (ascii "/"), plainRow 2 (ascii "/a")]

def oneDirTree : FileTree (Place Nat Name) Bytes ErrnoValue where
  root := rootPlace
  parent := id
  search := fun _ => none
  entry := fun place bytes =>
    if bytes = nameA.bytes ∧ place.dir.path = [] then
      .ok (.directory (enter oneMount ⟨place.mount, place.dir.descend [nameA]⟩))
    else .error (.lookup .ENOENT)

def oneDirMoment : Moment (Place Nat Name) where
  tree := oneDirTree
  object := fun place => (⟨8, 1⟩, place.mount)

theorem showsNamespace_oneDirTree : ShowsNamespace oneDirTree oneDir oneMount rootPlace where
  root := rfl
  entry := by
    intro place name next
    have hisDir : oneDir.isDir (place.dir.descend [name]) = true ↔ name.bytes = nameA.bytes ∧ place.dir.path = [] := by
      simp only [oneDir, decide_eq_true_eq, Dir.descend, List.append_eq_nil_iff, List.cons_ne_nil, and_false, false_or]
      rw [List.append_eq_singleton_iff]
      constructor
      · rintro (⟨hpath, hname⟩ | ⟨-, hname⟩)
        · exact ⟨congrArg Name.bytes (List.singleton_inj.mp hname), hpath⟩
        · cases hname
      · rintro ⟨hname, hpath⟩
        exact Or.inl ⟨hpath, congrArg (fun name => [name]) (bytes_injective hname)⟩
    rw [hisDir]
    simp only [oneDirTree]
    split
    · next hentry =>
      obtain rfl : name = nameA := bytes_injective hentry.1
      simp [hentry.2, eq_comm]
    · next hentry => simp [hentry]

theorem pinDirectory_pinnedOn_oneMount : ∃ snapshot pinned after,
    Process.pinDirectory (fun _ => oneDirMoment) {} snapshot (ascii "/a") = (.ok pinned, after) ∧
      PinnedOn oneMountRows snapshot [nameA] [] pinned.identity ∧ pinned.identity.expectedBindRoot = ascii "/" := by
  have hsome : ((parseSnapshot (mountInfoText oneMountRows)).toOption.bind fun snapshot =>
      (Process.pinDirectory (fun _ => oneDirMoment) {} snapshot (absolutePath [nameA])).1.toOption).isSome = true := by
    decide +kernel
  cases hparse : parseSnapshot (mountInfoText oneMountRows) with
  | error error =>
      rw [hparse] at hsome
      cases hsome
  | ok snapshot =>
      rw [hparse] at hsome
      cases hpinned : Process.pinDirectory (fun _ => oneDirMoment) {} snapshot (absolutePath [nameA]) with
      | mk result after =>
          cases result with
          | error error =>
              simp [hpinned, Except.toOption] at hsome
          | ok pinned =>
              have hbuilt : Built oneDir rootPlace oneMount :=
                .attach ⟨1, []⟩ .nil (show lookup oneDir [] rootPlace [nameA] = _ from rfl) (by decide) (by decide)
              have hrows : ShowsTable rootPlace oneMount oneMountRows :=
                ⟨_, _, rfl, rfl, rfl, .cons ⟨rfl, rfl⟩ .nil⟩
              obtain ⟨place, hlookup, -, -, -, hon⟩ := pinDirectory_pinnedOn hbuilt hrows (.cons rfl (.cons rfl .nil))
                (by decide +kernel) hparse showsNamespace_oneDirTree ⟨rfl, fun _ _ => rfl⟩ hpinned
              obtain rfl : place = ⟨2, ⟨1, []⟩⟩ := (Option.some.inj hlookup).symm
              refine ⟨snapshot, pinned, after, hpinned, hon ?_⟩
              have hnewest : newestOnWay oneMountRows (absolutePath [nameA]) = some (plainRow 2 (ascii "/a")) := by
                decide +kernel
              rw [NewestIsDeepest, hnewest]
              decide +kernel

theorem pinDirectory_still_iff_oneMount : ∃ snapshot pinned after,
    parseSnapshot (mountInfoText oneMountRows) = .ok snapshot ∧
      Process.pinDirectory (fun _ => oneDirMoment) {} snapshot (ascii "/a") = (.ok pinned, after) := by
  have hsome : ((parseSnapshot (mountInfoText oneMountRows)).toOption.bind fun snapshot =>
      (pinDirectory snapshot (ascii "/a") ⟨8, 1⟩ 2).toOption).isSome = true := by decide +kernel
  cases hparse : parseSnapshot (mountInfoText oneMountRows) with
  | error error =>
      rw [hparse] at hsome
      cases hsome
  | ok snapshot =>
      rw [hparse] at hsome
      cases hidentity : pinDirectory snapshot (ascii "/a") ⟨8, 1⟩ 2 with
      | error error => simp [hidentity, Except.toOption] at hsome
      | ok identity =>
          have hstill : Still (fun _ => oneDirMoment) ({} : Process (Place Nat Name)).calls oneDirMoment :=
            ⟨rfl, fun _ _ => rfl⟩
          have hdescend : oneDirTree.descend rootPlace (logicalComponents (ascii "a")) = some ⟨2, ⟨1, []⟩⟩ := by
            decide +kernel
          have hpins : ∃ pinned after,
              Process.pinDirectory (fun _ => oneDirMoment) {} snapshot (ascii "/a") = (.ok pinned, after) :=
            (pinDirectory_still_iff hstill).mpr
              ⟨rfl, by decide, by decide, ⟨2, ⟨1, []⟩⟩, hdescend, exists_pinDirectory_iff.mp ⟨identity, hidentity⟩⟩
          obtain ⟨pinned, after, hpinned⟩ := hpins
          exact ⟨snapshot, pinned, after, rfl, hpinned⟩

/-- Without `openat2`. -/
theorem resolveDirectoryBeneath_agrees_refused :
    ResolvesTo { held := [(0, rootPlace)], next := 1 } (some ⟨2, ⟨1, []⟩⟩)
      (Process.resolveDirectoryBeneath
        (fun call => if call = 0 then { oneDirMoment with failure := some ENOSYS } else oneDirMoment)
        { held := [(0, rootPlace)], next := 1 } 0 (ascii "a") false) := by
  have hvalid : validLogicalPath (ascii "a") = true := by decide
  have hstill : Still (fun call => if call = 0 then { oneDirMoment with failure := some ENOSYS } else oneDirMoment)
      (({ held := [(0, rootPlace)], next := 1 } : Process (Place Nat Name)).calls + 1) oneDirMoment :=
    ⟨rfl, fun later hlater => if_neg (Nat.pos_iff_ne_zero.mp hlater)⟩
  have hroot : ({ held := [(0, rootPlace)], next := 1 } : Process (Place Nat Name)).dirOf 0 = some rootPlace := rfl
  exact (resolveDirectoryBeneath_agrees hroot hvalid (by decide) (by decide) hstill (Or.inr ⟨ENOSYS, rfl, rfl⟩)).1

end PathGuard.Native
