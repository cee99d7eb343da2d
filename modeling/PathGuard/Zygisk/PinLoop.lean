import PathGuard.Native.DirectoryResolver

/-!
# The pin loop

The loop of `ApplyProcessPlan` in `zygisk/src/module_entry.cpp` that pins the directories of a plan, call by call. A source
that several rules share is pinned once. On the first failure everything that was pinned is closed again, and after the
transaction the same is done with the rest.

* `Opened` : what is open while the loop runs, and what the workspace says of it;
* `pinSource_spec`, `pinRule_spec`, `pinRules_spec` : a source, a round, the loop;
* `pinRules_descriptors` : nothing is closed twice, and nothing stays open.
-/

namespace PathGuard.Zygisk.PinLoop

open Native

variable {D : Type*} [DecidableEq D]

/-- `MountTransactionWorkspace`: the sources with their locators, the source of every rule, and the targets. -/
structure PinnedWorkspace where
  sources : List (Bytes × PinnedDirectory) := []
  sourceIndexes : List Nat := []
  targets : List (Bytes × PinnedDirectory) := []

def PinnedWorkspace.descriptors (workspace : PinnedWorkspace) : List Nat :=
  workspace.sources.map (fun pinned => pinned.2.fd) ++ workspace.targets.map fun pinned => pinned.2.fd

/-- `finish_preflight`, and the end of a transaction. -/
def finishPreflight (workspace : PinnedWorkspace) (process : Process D) : Process D :=
  workspace.descriptors.foldl Process.close process

/-- The source of a rule, which may be pinned already. -/
def pinSource (moments : Nat → Moment D) (snapshot : MountInfoSnapshot) (source : Bytes) (workspace : PinnedWorkspace)
    (process : Process D) : Except ErrnoValue PinnedWorkspace × Process D :=
  let sourceIndex := workspace.sources.findIdx fun pinned => pinned.1 == source
  let indexed := { workspace with sourceIndexes := workspace.sourceIndexes ++ [sourceIndex] }
  if sourceIndex = workspace.sources.length then
    match process.pinDirectory moments snapshot source with
    | (.error error, process) => (.error error, process)
    | (.ok pinned, process) => (.ok { indexed with sources := workspace.sources ++ [(source, pinned)] }, process)
  else (.ok indexed, process)

/-- One round, for the source and the target of a rule; `none` when its paths cannot be built. -/
def pinRule (moments : Nat → Moment D) (snapshot : MountInfoSnapshot) (rule : Option (Bytes × Bytes))
    (workspace : PinnedWorkspace) (process : Process D) : Except ErrnoValue PinnedWorkspace × Process D :=
  match rule with
  | none => (.error (.lookup .EINVAL), finishPreflight workspace process)
  | some (source, target) =>
      match pinSource moments snapshot source workspace process with
      | (.error error, process) => (.error error, finishPreflight workspace process)
      | (.ok workspace, process) =>
          match process.pinDirectory moments snapshot target with
          | (.error error, process) => (.error error, finishPreflight workspace process)
          | (.ok pinned, process) => (.ok { workspace with targets := workspace.targets ++ [(target, pinned)] }, process)

def pinRules (moments : Nat → Moment D) (snapshot : MountInfoSnapshot) :
    List (Option (Bytes × Bytes)) → PinnedWorkspace → Process D → Except ErrnoValue PinnedWorkspace × Process D
  | [], workspace, process => (.ok workspace, process)
  | rule :: rules, workspace, process =>
      match pinRule moments snapshot rule workspace process with
      | (.error error, process) => (.error error, process)
      | (.ok workspace, process) => pinRules moments snapshot rules workspace process

/-! ## Closing everything -/

omit [DecidableEq D] in
theorem close_mem {process : Process D} {opened others : List (Nat × D)} {fd : Nat}
    (hheld : process.held = opened ++ others) (hmem : fd ∈ opened.map Prod.fst) :
    (process.close fd).held = (opened.eraseP fun item => item.1 == fd) ++ others ∧
      (process.close fd).misused = process.misused := by
  obtain ⟨item, hitem, hfd⟩ := List.mem_map.mp hmem
  have htest : (item.1 == fd) = true := by rw [hfd, beq_self_eq_true]
  have hopen : process.dirOf fd ≠ none := by
    rw [Process.dirOf, Ne, Option.map_eq_none_iff, List.find?_eq_none, hheld]
    exact fun h => h item (List.mem_append_left _ hitem) htest
  constructor
  · rw [Process.close, hheld]
    exact List.eraseP_append_left (p := fun item : Nat × D => item.1 == fd) htest _ hitem
  · rw [Process.close]
    simp [Option.isNone_iff_eq_none, hopen]

omit [DecidableEq D] in
theorem close_all {process : Process D} {opened others : List (Nat × D)} {fds : List Nat}
    (hheld : process.held = opened ++ others) (hperm : (opened.map Prod.fst).Perm fds) :
    (fds.foldl Process.close process).held = others ∧ (fds.foldl Process.close process).misused = process.misused := by
  induction fds generalizing process opened with
  | nil =>
      rw [List.map_eq_nil_iff.mp hperm.eq_nil, List.nil_append] at hheld
      exact ⟨hheld, rfl⟩
  | cons fd fds ih =>
      obtain ⟨hclosed, hmisused⟩ := close_mem hheld (hperm.mem_iff.mpr List.mem_cons_self)
      have hrest : ((opened.eraseP fun item => item.1 == fd).map Prod.fst).Perm fds := by
        have herase := hperm.erase fd
        rwa [List.erase_cons_head, List.erase_eq_eraseP', List.eraseP_map] at herase
      obtain ⟨hheld', hmisused'⟩ := ih hclosed hrest
      exact ⟨hheld', hmisused'.trans hmisused⟩

/-! ## What the loop keeps -/

/-- The descriptors of the workspace are what has been opened, each once, and each is pinned for its path. -/
structure Opened (moments : Nat → Moment D) (snapshot : MountInfoSnapshot) (before : Process D)
    (workspace : PinnedWorkspace) (process : Process D) : Prop where
  held : ∃ opened, process.held = opened ++ before.held ∧ (opened.map Prod.fst).Perm workspace.descriptors
  nodup : workspace.descriptors.Nodup
  lt : ∀ fd ∈ workspace.descriptors, fd < process.next
  misused : process.misused = before.misused
  pinned : ∀ item ∈ workspace.sources ++ workspace.targets, ∃ start stop dir,
    PinnedAt moments snapshot item.1 start stop item.2 dir ∧ (item.2.fd, dir) ∈ process.held

/-- The rules have their sources, no source twice, and their targets. -/
structure Follows (rules : List (Bytes × Bytes)) (workspace : PinnedWorkspace) : Prop where
  distinct : (workspace.sources.map Prod.fst).Nodup
  sources : List.Forall₂ (fun rule index => (workspace.sources.map Prod.fst)[index]? = some rule.1) rules
    workspace.sourceIndexes
  targets : workspace.targets.map Prod.fst = rules.map Prod.snd

section Invariant
variable {moments : Nat → Moment D} {snapshot : MountInfoSnapshot} {before process after : Process D}
  {workspace workspace' : PinnedWorkspace}

theorem Opened.finish (h : Opened moments snapshot before workspace process) (hheld : after.held = process.held)
    (hmisused : after.misused = process.misused) :
    (finishPreflight workspace after).held = before.held ∧ (finishPreflight workspace after).misused = before.misused := by
  obtain ⟨opened, hopened, hperm⟩ := h.held
  obtain ⟨hclosed, hkept⟩ := close_all (hheld.trans hopened) hperm
  exact ⟨hclosed, hkept.trans (hmisused.trans h.misused)⟩

theorem Opened.pin (h : Opened moments snapshot before workspace process) {path : Bytes} {pinned : PinnedDirectory} {dir : D}
    (hpins : PinnedAt moments snapshot path process after pinned dir) (hmisused : after.misused = process.misused)
    (hdescriptors : workspace'.descriptors.Perm (pinned.fd :: workspace.descriptors))
    (hitems : ∀ item ∈ workspace'.sources ++ workspace'.targets,
      item = (path, pinned) ∨ item ∈ workspace.sources ++ workspace.targets) :
    Opened moments snapshot before workspace' after where
  held := by
    obtain ⟨opened, hopened, hperm⟩ := h.held
    refine ⟨(pinned.fd, dir) :: opened, ?_, ?_⟩
    · rw [hpins.held, hopened, List.cons_append]
    · rw [List.map_cons]
      exact (hperm.cons _).trans hdescriptors.symm
  nodup := by
    rw [hdescriptors.nodup_iff, List.nodup_cons]
    refine ⟨fun hmem => ?_, h.nodup⟩
    have hlt := h.lt _ hmem
    have hnumber := hpins.number.1
    omega
  lt := by
    intro fd hfd
    rcases List.mem_cons.mp (hdescriptors.mem_iff.mp hfd) with rfl | hold
    · exact hpins.number.2
    · have hlt := h.lt fd hold
      have hnumber := hpins.number
      omega
  misused := hmisused.trans h.misused
  pinned := by
    intro item hitem
    rw [hpins.held]
    rcases hitems item hitem with rfl | hold
    · exact ⟨process, after, dir, hpins, List.mem_cons_self⟩
    · obtain ⟨start, stop, dir', hpins', hheld⟩ := h.pinned item hold
      exact ⟨start, stop, dir', hpins', List.mem_cons_of_mem _ hheld⟩

theorem opened_nil (moments : Nat → Moment D) (snapshot : MountInfoSnapshot) (before : Process D) :
    Opened moments snapshot before {} before where
  held := ⟨[], rfl, List.Perm.nil⟩
  nodup := List.nodup_nil
  lt := List.forall_mem_nil _
  misused := rfl
  pinned := List.forall_mem_nil _

theorem follows_nil : Follows [] {} := ⟨List.nodup_nil, .nil, rfl⟩

/-- Indexes of sources keep their meaning when a source is added. -/
theorem sources_append {rules : List (Bytes × Bytes)} {indexes : List Nat} {paths : List Bytes}
    (h : List.Forall₂ (fun rule index => paths[index]? = some rule.1) rules indexes) (more : List Bytes) :
    List.Forall₂ (fun rule index => (paths ++ more)[index]? = some rule.1) rules indexes := by
  refine h.imp fun rule index hindex => ?_
  obtain ⟨hlt, -⟩ := List.getElem?_eq_some_iff.mp hindex
  rw [List.getElem?_append_left hlt, hindex]

theorem pinSource_spec {rules : List (Bytes × Bytes)} (source : Bytes)
    (hopened : Opened moments snapshot before workspace process) (hdistinct : (workspace.sources.map Prod.fst).Nodup)
    (hsources : List.Forall₂ (fun rule index => (workspace.sources.map Prod.fst)[index]? = some rule.1) rules
      workspace.sourceIndexes) :
    match pinSource moments snapshot source workspace process with
    | (.error _, after) => after.held = process.held ∧ after.misused = process.misused
    | (.ok workspace', after) => Opened moments snapshot before workspace' after ∧
        (workspace'.sources.map Prod.fst).Nodup ∧ workspace'.targets = workspace.targets ∧
        ∃ index, workspace'.sourceIndexes = workspace.sourceIndexes ++ [index] ∧
          (workspace'.sources.map Prod.fst)[index]? = some source ∧
          List.Forall₂ (fun rule index => (workspace'.sources.map Prod.fst)[index]? = some rule.1) rules
            workspace.sourceIndexes := by
  have hfind : ∀ (items : List (Bytes × PinnedDirectory)),
      (items.findIdx fun pinned => pinned.1 == source) = (items.map Prod.fst).idxOf source := fun items => by
    rw [List.idxOf, List.findIdx_map]
    rfl
  rw [pinSource]
  simp only [hfind]
  by_cases hnew : (workspace.sources.map Prod.fst).idxOf source = workspace.sources.length
  · rw [if_pos hnew]
    have hfresh : source ∉ workspace.sources.map Prod.fst := by
      rw [← List.idxOf_eq_length_iff, hnew, List.length_map]
    obtain ⟨hmisused, hpins⟩ := pinDirectory_spec moments process snapshot source
    cases hpinned : process.pinDirectory moments snapshot source with
    | mk result after =>
        rw [hpinned] at hmisused hpins
        cases result with
        | error error => exact ⟨hpins, hmisused⟩
        | ok pinned =>
            obtain ⟨dir, hpins⟩ := hpins
            refine ⟨hopened.pin hpins hmisused ?_ ?_, ?_, rfl, _, rfl, ?_, ?_⟩
            · rw [PinnedWorkspace.descriptors, PinnedWorkspace.descriptors, List.map_append, List.append_assoc]
              exact List.perm_middle
            · intro item hitem
              simp only [List.mem_append, List.mem_singleton] at hitem ⊢
              tauto
            · rw [List.map_append, List.map_singleton]
              exact List.nodup_append_comm.mp (List.nodup_cons.mpr ⟨hfresh, hdistinct⟩)
            · simp [hnew]
            · rw [List.map_append]
              exact sources_append hsources _
  · rw [if_neg hnew]
    refine ⟨⟨hopened.held, hopened.nodup, hopened.lt, hopened.misused, hopened.pinned⟩, hdistinct, rfl, _, rfl, ?_, hsources⟩
    have hmem : source ∈ workspace.sources.map Prod.fst := by
      by_contra hnot
      rw [← List.idxOf_eq_length_iff, List.length_map] at hnot
      exact hnew hnot
    exact List.getElem?_idxOf hmem

theorem pinRule_spec {rules : List (Bytes × Bytes)} (rule : Option (Bytes × Bytes))
    (hopened : Opened moments snapshot before workspace process) (hfollows : Follows rules workspace) :
    match pinRule moments snapshot rule workspace process with
    | (.error _, after) => after.held = before.held ∧ after.misused = before.misused
    | (.ok workspace', after) => ∃ paths, rule = some paths ∧ Opened moments snapshot before workspace' after ∧
        Follows (rules ++ [paths]) workspace' := by
  cases rule with
  | none => exact hopened.finish rfl rfl
  | some paths =>
      obtain ⟨source, target⟩ := paths
      have hsource := pinSource_spec source hopened hfollows.distinct hfollows.sources
      rw [pinRule]
      generalize pinSource moments snapshot source workspace process = pins at hsource
      obtain ⟨result, pinnedSource⟩ := pins
      cases result with
      | error error => exact hopened.finish hsource.1 hsource.2
      | ok indexed =>
          obtain ⟨hindexed, hdistinct, htargets, index, hindexes, hindex, hsources⟩ := hsource
          obtain ⟨hmisused, hpins⟩ := pinDirectory_spec moments pinnedSource snapshot target
          simp only
          cases hpinned : pinnedSource.pinDirectory moments snapshot target with
          | mk result after =>
              rw [hpinned] at hmisused hpins
              cases result with
              | error error => exact hindexed.finish hpins hmisused
              | ok pinned =>
                  obtain ⟨dir, hpins⟩ := hpins
                  refine ⟨(source, target), rfl, hindexed.pin hpins hmisused ?_ ?_, ⟨hdistinct, ?_, ?_⟩⟩
                  · rw [PinnedWorkspace.descriptors, PinnedWorkspace.descriptors, List.map_append, ← List.append_assoc]
                    exact List.perm_append_singleton _ _
                  · intro item hitem
                    simp only [List.mem_append, List.mem_singleton] at hitem ⊢
                    tauto
                  · rw [hindexes]
                    exact List.rel_append hsources (.cons hindex .nil)
                  · rw [List.map_append, List.map_append, htargets, hfollows.targets]
                    rfl

theorem pinRules_spec {done : List (Bytes × Bytes)} (rules : List (Option (Bytes × Bytes)))
    (hopened : Opened moments snapshot before workspace process) (hfollows : Follows done workspace) :
    match pinRules moments snapshot rules workspace process with
    | (.error _, after) => after.held = before.held ∧ after.misused = before.misused
    | (.ok workspace', after) => ∃ paths, rules = paths.map some ∧ Opened moments snapshot before workspace' after ∧
        Follows (done ++ paths) workspace' := by
  induction rules generalizing done workspace process with
  | nil => exact ⟨[], rfl, hopened, (List.append_nil done).symm ▸ hfollows⟩
  | cons rule rules ih =>
      have hrule := pinRule_spec rule hopened hfollows
      rw [pinRules]
      generalize pinRule moments snapshot rule workspace process = pins at hrule
      obtain ⟨result, pinned⟩ := pins
      cases result with
      | error error => exact hrule
      | ok workspace' =>
          obtain ⟨paths, rfl, hopened', hfollows'⟩ := hrule
          have hrest := ih hopened' hfollows'
          simp only
          generalize pinRules moments snapshot rules workspace' pinned = pins at hrest
          obtain ⟨result, after⟩ := pins
          cases result with
          | error error => exact hrest
          | ok workspace'' =>
              obtain ⟨more, rfl, hopened'', hfollows''⟩ := hrest
              exact ⟨paths :: more, rfl, hopened'', by rwa [List.append_assoc] at hfollows''⟩

/-- **The pin loop among changes.** However the file tree changes while the loop runs, and whichever call fails: when it
stops, no descriptor is left; when it ends, every rule has its source, with one descriptor for the rules that share it,
and its target, each pinned for its path, and closing the workspace leaves no descriptor either. None is ever closed
twice. -/
theorem pinRules_descriptors (moments : Nat → Moment D) (snapshot : MountInfoSnapshot) (rules : List (Option (Bytes × Bytes)))
    (process : Process D) :
    match pinRules moments snapshot rules {} process with
    | (.error _, after) => after.held = process.held ∧ after.misused = process.misused
    | (.ok workspace, after) => ∃ paths, rules = paths.map some ∧ Opened moments snapshot process workspace after ∧
        Follows paths workspace ∧ (finishPreflight workspace after).held = process.held ∧
        (finishPreflight workspace after).misused = process.misused := by
  have hspec := pinRules_spec rules (opened_nil moments snapshot process) follows_nil
  generalize pinRules moments snapshot rules {} process = pins at hspec
  obtain ⟨result, after⟩ := pins
  cases result with
  | error error => exact hspec
  | ok workspace =>
      obtain ⟨paths, hrules, hopened, hfollows⟩ := hspec
      obtain ⟨hclosed, hmisused⟩ := hopened.finish (rfl : after.held = after.held) rfl
      exact ⟨paths, hrules, hopened, hfollows, hclosed, hmisused⟩

end Invariant

end PathGuard.Zygisk.PinLoop
