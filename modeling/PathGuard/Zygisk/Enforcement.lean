import PathGuard.Lib.Components
import PathGuard.Rules.CompiledPolicy
import PathGuard.Zygisk.MountedBackend
import PathGuard.Zygisk.ProcessPlan

/-!
# What a committed plan enforces

All targets are pinned before the first mount, so every mount of a transaction is attached at a directory of the
storage as it was. Where the visible path of one rule lies inside that of another, a lookup goes into the outer mount
and never comes to the inner one. A committed plan does what its rules say exactly when no two of its rules are
nested that way, or are redirects that agree below the outer one.

* `intended`, `Enforced` : where a rule is to lead, and that it does;
* `lookup_outermost`, `enforced_iff` : the outermost rule decides, so nested rules must agree;
* `enforced_iff_nestedAgree` : for every compiled policy and every committed plan.
-/

namespace PathGuard.Zygisk

open MountTransactionState

/-! ## The plan of a package -/

structure PlannedFrom (userId : Nat) (rule : LogicalMountRule) (mount : PlannedMount) : Prop where
  action : mount.action = rule.action
  visiblePath : mount.visiblePath = rule.visiblePath
  executable : mount.action = .deny ∨ mount.action = .redirect

theorem plannedMount_some {userId : Nat} {rule : LogicalMountRule} {mount : PlannedMount}
    (h : plannedMount userId rule = some mount) : PlannedFrom userId rule mount := by
  unfold plannedMount at h
  split at h
  · cases h
  · next hchecks =>
    simp only [Bool.or_eq_true, Bool.not_eq_true', not_or, Bool.not_eq_false, isExecutableMountAction,
      decide_eq_true_eq] at hchecks
    split at h
    · split at h
      · cases h
      · rw [← Option.some.inj h]
        exact ⟨rfl, rfl, hchecks.1⟩
    · split at h
      · cases h
      · split at h
        · cases h
        · rw [← Option.some.inj h]
          exact ⟨rfl, rfl, hchecks.1⟩

theorem loadRules_some {userId : Nat} {rules : List LogicalMountRule} {plan out : ProcessPlan}
    (h : loadRules userId rules plan = some out) :
    ∃ mounts, out.mounts = plan.mounts ++ mounts ∧ List.Forall₂ (PlannedFrom userId) rules mounts := by
  induction rules generalizing plan with
  | nil =>
      rw [← Option.some.inj h]
      exact ⟨[], by simp, .nil⟩
  | cons rule rules ih =>
      simp only [loadRules, Option.bind_eq_bind, Option.bind_eq_some_iff] at h
      obtain ⟨mount, hmount, _, -, _, -, h⟩ := h
      obtain ⟨mounts, hout, hforall⟩ := ih h
      exact ⟨mount :: mounts, by rw [hout, List.append_assoc, List.singleton_append],
        .cons (plannedMount_some hmount) hforall⟩

theorem loadPackagePlan_some {userId : Nat} {app : AppPolicy} {plan : ProcessPlan}
    (h : loadPackagePlan userId app = some plan) : List.Forall₂ (PlannedFrom userId) app.mounts plan.mounts := by
  unfold loadPackagePlan at h
  split at h
  · cases h
  · obtain ⟨hload, -⟩ := Option.filter_eq_some_iff.mp h
    obtain ⟨mounts, hout, hforall⟩ := loadRules_some hload
    rw [hout]
    exact hforall

/-! ## Pinned rules -/

/-- What a rule is to lead to: the deny anchor, or the directory its backing path names. -/
def Device.intended (device : Device) (rule : PlannedMount) : Option (Dir FileSystem Bytes) :=
  match rule.action with
  | .deny => some device.denyAnchor.dir
  | _ => (device.resolve [] (.source rule.backingPath)).map Place.dir

/-- The pinned source and target of a rule. -/
structure PinnedRule (device : Device) (workspace : Workspace) (ruleIndex : Nat) (rule : PlannedMount) : Prop where
  action : rule.action = .deny ∨ rule.action = .redirect
  source : ∃ locator place, workspace.source? ruleIndex = some (locator, place) ∧
    device.intended rule = some place.dir
  target : ∃ locator place, workspace.targets[ruleIndex]? = some (locator, place) ∧
    device.resolve [] (.visible rule.visiblePath) = some place

/-- After the rounds of the pin loop for `rules`. -/
structure Pinned (device : Device) (rules : List PlannedMount) (workspace : Workspace) : Prop where
  indexes : workspace.sourceIndexes.length = rules.length
  targets : workspace.targets.length = rules.length
  sources : ∀ pinned ∈ workspace.sources, device.resolve [] pinned.1 = some pinned.2
  rule : ∀ ruleIndex rule, rules[ruleIndex]? = some rule → PinnedRule device workspace ruleIndex rule

theorem buildPathUnderRoot_some {root path : Bytes} {build : Bytes → Locator} {locator : Locator}
    (h : Device.buildPathUnderRoot root path build = some locator) : locator = build path := by
  unfold Device.buildPathUnderRoot at h
  split at h
  · cases h
  · exact (Option.some.inj h).symm

theorem buildMountSourcePath_some {device : Device} {rule : PlannedMount} {locator : Locator}
    (h : device.buildMountSourcePath rule = some locator) :
    (rule.action = .deny ∨ rule.action = .redirect) ∧
      device.intended rule = (device.resolve [] locator).map Place.dir := by
  unfold Device.buildMountSourcePath at h
  split at h
  · next hdeny =>
    split at h
    · cases h
    · rw [← Option.some.inj h, Device.intended, hdeny]
      exact ⟨Or.inl rfl, rfl⟩
  · next hdeny =>
    split at h
    · next hredirect =>
      simp only [Bool.and_eq_true, decide_eq_true_eq] at hredirect
      rw [buildPathUnderRoot_some h, Device.intended, hredirect.1]
      exact ⟨Or.inr rfl, rfl⟩
    · cases h

theorem pinSource_some {device : Device} {sources out : List (Locator × Place FileSystem Bytes)} {locator : Locator}
    {sourceIndex : Nat} (h : pinSource device sources locator = some (sourceIndex, out))
    (hsound : ∀ pinned ∈ sources, device.resolve [] pinned.1 = some pinned.2) :
    sources <+: out ∧ (∀ pinned ∈ out, device.resolve [] pinned.1 = some pinned.2) ∧
      ∃ source, out[sourceIndex]? = some (locator, source) ∧ device.resolve [] locator = some source := by
  unfold pinSource at h
  simp only at h
  split at h
  · next hnew =>
    obtain ⟨place, hplace, heq⟩ := Option.map_eq_some_iff.mp h
    obtain ⟨rfl, rfl⟩ := Prod.mk.inj heq
    refine ⟨List.prefix_append _ _, ?_, place, ?_, hplace⟩
    · rw [List.forall_mem_append, List.forall_mem_singleton]
      exact ⟨hsound, hplace⟩
    · rw [hnew, List.getElem?_append_right (le_refl _), Nat.sub_self]
      rfl
  · next hold =>
    obtain ⟨rfl, rfl⟩ := Prod.mk.inj (Option.some.inj h)
    have hlt : sources.findIdx (fun pinned => pinned.1 = locator) < sources.length :=
      lt_of_le_of_ne List.findIdx_le_length hold
    have hfound := List.findIdx_getElem (w := hlt)
    have hsource := hsound _ (List.getElem_mem hlt)
    have hget := List.getElem?_eq_getElem hlt
    rw [decide_eq_true_eq] at hfound
    rw [hfound] at hsource
    exact ⟨List.prefix_refl _, hsound, _, hget.trans (congrArg some (Prod.ext hfound rfl)), hsource⟩

theorem Pinned.pinRule {device : Device} {rules : List PlannedMount} {workspace out : Workspace} {rule : PlannedMount}
    (h : Pinned device rules workspace) (hpin : pinRule device workspace rule = some out) :
    Pinned device (rules ++ [rule]) out := by
  unfold Zygisk.pinRule at hpin
  split at hpin
  · cases hpin
  · simp only [Option.bind_eq_bind, Option.bind_eq_some_iff] at hpin
    obtain ⟨targetLocator, htarget, locator, hlocator, ⟨sourceIndex, sources⟩, hsources, target, hplace, hout⟩ := hpin
    obtain rfl := buildPathUnderRoot_some htarget
    obtain rfl := Option.some.inj hout
    obtain ⟨hstarts, hsound, source, hsource, hresolve⟩ := pinSource_some hsources h.sources
    refine ⟨by simp [h.indexes], by simp [h.targets], hsound, fun ruleIndex other hother => ?_⟩
    rcases Nat.lt_or_ge ruleIndex rules.length with hlt | hge
    · rw [List.getElem?_append_left hlt] at hother
      obtain ⟨haction, ⟨locator', source', hsource', hintended'⟩, locator'', target', htarget', hresolve'⟩ :=
        h.rule ruleIndex other hother
      refine ⟨haction, ⟨locator', source', ?_, hintended'⟩, locator'', target', ?_, hresolve'⟩
      · obtain ⟨index, hindex, hget⟩ := Option.bind_eq_some_iff.mp hsource'
        obtain ⟨hbound, hvalue⟩ := List.getElem?_eq_some_iff.mp hget
        rw [Workspace.source?, List.getElem?_append_left (by rw [h.indexes]; exact hlt), hindex, Option.bind_some,
          ← hget]
        obtain ⟨more, rfl⟩ := hstarts
        exact List.getElem?_append_left hbound
      · rw [List.getElem?_append_left (by rw [h.targets]; exact hlt), htarget']
    · rw [List.getElem?_append_right hge, List.getElem?_singleton] at hother
      split at hother
      · next hzero =>
        obtain rfl : ruleIndex = rules.length := by omega
        obtain rfl := Option.some.inj hother
        obtain ⟨haction, hintended⟩ := buildMountSourcePath_some hlocator
        refine ⟨haction, ⟨locator, source, ?_, ?_⟩, .visible rule.visiblePath, target, ?_, hplace⟩
        · rw [Workspace.source?, ← h.indexes, List.getElem?_append_right (le_refl _), Nat.sub_self]
          exact hsource
        · rw [hintended, hresolve]
          rfl
        · rw [← h.targets, List.getElem?_append_right (le_refl _), Nat.sub_self]
          rfl
      · cases hother

theorem Pinned.pinRules {device : Device} {rules more : List PlannedMount} {workspace out : Workspace}
    (h : Pinned device rules workspace) (hpin : pinRules device more workspace = some out) :
    Pinned device (rules ++ more) out := by
  induction more generalizing rules workspace with
  | nil =>
      obtain rfl := Option.some.inj hpin
      simpa using h
  | cons rule more ih =>
      obtain ⟨next, hnext, hrest⟩ := Option.bind_eq_some_iff.mp hpin
      simpa using ih (h.pinRule hnext) hrest

theorem pinned_nil (device : Device) : Pinned device [] {} := ⟨rfl, rfl, by simp, by simp⟩

/-! ## The mounts of a plan -/

theorem pathNames_ne_nil (path : Bytes) : pathNames path ≠ [] := List.splitOn_ne_nil slash path

theorem pathNames_inj {a b : Bytes} (h : pathNames a = pathNames b) : a = b := splitOn_inj h

namespace Device
variable (device : Device)

theorem lookup_nil {root place : Place FileSystem Bytes} {path : Bytes}
    (h : lookup device.trees [] root (pathNames path) = some place) :
    place = ⟨root.mount, root.dir.descend (pathNames path)⟩ ∧
      device.trees.isDir (root.dir.descend (pathNames path)) = true := by
  rw [lookup_inside (List.forall_mem_nil _)] at h
  split at h
  · next hdir => exact ⟨(Option.some.inj h).symm, hdir.resolve_left (pathNames_ne_nil path)⟩
  · cases h

/-- Where a rule is mounted. -/
def point (path : Bytes) : Place FileSystem Bytes :=
  ⟨device.visibleRoot.mount, device.visibleRoot.dir.descend (pathNames path)⟩

theorem point_inj {a b : Bytes} (h : device.point a = device.point b) : a = b := by
  have hdir : device.visibleRoot.dir.descend (pathNames a) = device.visibleRoot.dir.descend (pathNames b) :=
    congrArg Place.dir h
  exact pathNames_inj (List.append_cancel_left (congrArg Dir.path hdir))

/-- The mount of a rule. -/
def ruleMount (ruleIndex : Nat) (rule : PlannedMount) : Mount FileSystem Bytes :=
  ⟨device.firstMountId + ruleIndex, device.point rule.visiblePath, (device.intended rule).getD device.denyAnchor.dir⟩

end Device

def MountBackendKind.strict (backend : MountBackendKind) : Prop := backend = .strictOpenTree ∨ backend = .strictProcFd

theorem mountRule_strict {device : Device} {workspace : Workspace} {backend : MountBackendKind} {ruleIndex : Nat}
    {rule : PlannedMount} (h : PinnedRule device workspace ruleIndex rule)
    (hbackend : MountBackendKind.strict backend) (mounts : List (Mount FileSystem Bytes)) :
    mountRule device workspace backend mounts ruleIndex =
      attach mounts (device.ruleMount ruleIndex rule).id (device.ruleMount ruleIndex rule).point
        (device.ruleMount ruleIndex rule).root := by
  obtain ⟨-, ⟨sourceLocator, source, hsource, hintended⟩, targetLocator, target, htarget, hresolve⟩ := h
  have hpoint := (device.lookup_nil hresolve).1
  rw [mountRule, hsource, htarget, Device.ruleMount, hintended, hpoint]
  rcases hbackend with rfl | rfl <;> rfl

/-- Without a detach only the mounts of a history matter. -/
theorem mountsAfter_eq {device : Device} {workspace : Workspace} {backend : MountBackendKind}
    {log : List NamespaceEvent} (h : NoDetach log) :
    mountsAfter device workspace backend log =
      (attachedOps log).foldl (mountRule device workspace backend) [] := by
  suffices ∀ mounts, log.foldl (applyEvent device workspace backend) mounts =
      (attachedOps log).foldl (mountRule device workspace backend) mounts from this []
  induction log with
  | nil => exact fun _ => rfl
  | cons event log ih =>
      have hrest : NoDetach log := fun ruleIndex hmem => h ruleIndex (List.mem_cons_of_mem event hmem)
      intro mounts
      cases event with
      | attach ruleIndex => exact ih hrest _
      | detach ruleIndex => exact absurd List.mem_cons_self (h ruleIndex)
      | makePrivate => exact ih hrest _
      | verifiedGone ruleIndex => exact ih hrest _

/-- The rounds of the mutation loop: every rule at its own point of the visible root. -/
theorem foldl_mountRule {device : Device} {rules : List PlannedMount} {workspace : Workspace}
    {backend : MountBackendKind} (h : Pinned device rules workspace) (hbackend : MountBackendKind.strict backend)
    (hnodup : (rules.map PlannedMount.visiblePath).Nodup) {count : Nat} (hcount : count ≤ rules.length) :
    (List.range count).foldl (mountRule device workspace backend) [] =
        (rules.take count).mapIdx device.ruleMount ∧
      Flat device.visibleRoot.mount ((rules.take count).mapIdx device.ruleMount) := by
  induction count with
  | zero => exact ⟨rfl, flat_nil _⟩
  | succ count ih =>
      obtain ⟨hfold, hflat⟩ := ih (by omega)
      obtain ⟨rule, hrule⟩ : ∃ rule, rules[count]? = some rule := ⟨_, List.getElem?_eq_getElem (by omega)⟩
      have hlength : (rules.take count).length = count := List.length_take_of_le (by omega)
      have htake : rules.take (count + 1) = rules.take count ++ [rule] := by
        rw [List.take_add_one, hrule, Option.toList_some]
      have hfresh : ∀ mount ∈ (rules.take count).mapIdx device.ruleMount,
          mount.point ≠ (device.ruleMount count rule).point := by
        intro mount hmount heq
        obtain ⟨i, hi, rfl⟩ := List.mem_mapIdx.mp hmount
        have hpaths := hnodup.sublist ((List.take_sublist (count + 1) rules).map _)
        rw [htake, List.map_append, List.nodup_append] at hpaths
        exact hpaths.2.2 _ (List.mem_map_of_mem (List.getElem_mem hi)) _ (by simp) (device.point_inj heq)
      have hid : (device.ruleMount count rule).id ≠ device.visibleRoot.mount := by
        have hlt := device.visibleRoot_lt
        show device.firstMountId + count ≠ _
        omega
      obtain ⟨hattach, hflat'⟩ := hflat.attach hid
        (show (device.ruleMount count rule).point.mount = _ from rfl) hfresh (device.ruleMount count rule).root
      have hmapIdx : (rules.take (count + 1)).mapIdx device.ruleMount =
          (rules.take count).mapIdx device.ruleMount ++ [device.ruleMount count rule] := by
        rw [htake, List.mapIdx_concat, hlength]
      rw [List.range_succ, List.foldl_append, hfold, hmapIdx, List.foldl_cons, List.foldl_nil,
        mountRule_strict (h.rule count rule hrule) hbackend, hattach]
      rw [hattach] at hflat'
      exact ⟨rfl, hflat'⟩

/-! ## What a visible path resolves to -/

/-- The visible path of the rule resolves to what the rule is to lead to. -/
def Enforced (device : Device) (mounts : List (Mount FileSystem Bytes)) (rule : PlannedMount) : Prop :=
  ∃ dir, device.intended rule = some dir ∧
    (device.resolve mounts (.visible rule.visiblePath)).map Place.dir = some dir

/-- Two redirects, and the backing path of the inner one is below that of the outer one where its visible path is. -/
structure RedirectsAgree (outer inner : PlannedMount) (rest : Bytes) : Prop where
  outer_action : outer.action = .redirect
  inner_action : inner.action = .redirect
  backing : inner.backingPath = outer.backingPath ++ slash :: rest

/-- Nested rules are redirects that agree. -/
def NestedAgree (rules : List PlannedMount) : Prop :=
  ∀ outer ∈ rules, ∀ inner ∈ rules, ∀ rest, inner.visiblePath = outer.visiblePath ++ slash :: rest →
    RedirectsAgree outer inner rest

theorem pathNames_append (path rest : Bytes) :
    pathNames (path ++ slash :: rest) = pathNames path ++ pathNames rest := List.splitOn_append_cons_self ..

/-- A rule that is in no other. -/
structure Outermost (rules : List PlannedMount) (rule : PlannedMount) : Prop where
  mem : rule ∈ rules
  first : ∀ other ∈ rules, IsWithin slash other.visiblePath rule.visiblePath → other.visiblePath = rule.visiblePath

namespace Pinned
variable {device : Device} {rules : List PlannedMount} {workspace : Workspace} (h : Pinned device rules workspace)
include h

theorem intended_isSome {rule : PlannedMount} (hrule : rule ∈ rules) : ∃ dir, device.intended rule = some dir := by
  obtain ⟨i, hi⟩ := List.getElem?_of_mem hrule
  obtain ⟨-, place, -, hintended⟩ := (h.rule i rule hi).source
  exact ⟨place.dir, hintended⟩

theorem intended_cases {rule : PlannedMount} (hrule : rule ∈ rules) {dir : Dir FileSystem Bytes}
    (hdir : device.intended rule = some dir) :
    rule.action = .deny ∧ dir = device.denyAnchor.dir ∨
      rule.action = .redirect ∧ dir = device.sourceRoot.dir.descend (pathNames rule.backingPath) ∧
        device.trees.isDir dir = true := by
  obtain ⟨i, hi⟩ := List.getElem?_of_mem hrule
  rcases (h.rule i rule hi).action with haction | haction
  · rw [Device.intended, haction] at hdir
    exact Or.inl ⟨haction, (Option.some.inj hdir).symm⟩
  · rw [Device.intended, haction] at hdir
    obtain ⟨place, hplace, rfl⟩ := Option.map_eq_some_iff.mp hdir
    obtain ⟨rfl, hisDir⟩ := device.lookup_nil hplace
    exact Or.inr ⟨haction, rfl, hisDir⟩

theorem isDir_visible {rule : PlannedMount} (hrule : rule ∈ rules) :
    device.trees.isDir (device.point rule.visiblePath).dir = true := by
  obtain ⟨i, hi⟩ := List.getElem?_of_mem hrule
  obtain ⟨-, place, -, hresolve⟩ := (h.rule i rule hi).target
  exact (device.lookup_nil hresolve).2

/-- A lookup below the visible path of an outermost rule goes on in what that rule leads to. -/
theorem lookup_outermost (hflat : Flat device.visibleRoot.mount (rules.mapIdx device.ruleMount))
    {outer : PlannedMount} (houter : Outermost rules outer) {dir : Dir FileSystem Bytes}
    (hdir : device.intended outer = some dir) (rest : List Bytes) :
    (lookup device.trees (rules.mapIdx device.ruleMount) device.visibleRoot (pathNames outer.visiblePath ++ rest)).map
        Place.dir =
      if rest = [] ∨ device.trees.isDir (dir.descend rest) = true then some (dir.descend rest) else none := by
  obtain ⟨i, hi, hget⟩ := List.getElem_of_mem houter.mem
  have hmount : device.ruleMount i outer ∈ rules.mapIdx device.ruleMount :=
    List.mem_mapIdx.mpr ⟨i, hi, by rw [hget]⟩
  have hfirst : ∀ other ∈ rules.mapIdx device.ruleMount, ∀ front rest, front ≠ [] → rest ≠ [] →
      pathNames outer.visiblePath = front ++ rest →
        other.point ≠ ⟨device.visibleRoot.mount, device.visibleRoot.dir.descend front⟩ := by
    intro other hother front rest _ hrest hnames heq
    obtain ⟨j, hj, rfl⟩ := List.mem_mapIdx.mp hother
    have hfront : pathNames rules[j].visiblePath = front :=
      List.append_cancel_left (congrArg (fun place => place.dir.path) heq)
    have hwithin : IsWithin slash rules[j].visiblePath outer.visiblePath :=
      ⟨rest, by rw [← pathNames, hfront, ← hnames]; rfl⟩
    rw [← houter.first _ (List.getElem_mem hj) hwithin, hfront] at hnames
    exact hrest (List.append_right_eq_self.mp hnames.symm)
  have hroot : (device.ruleMount i outer).top = ⟨device.firstMountId + i, dir⟩ := by
    rw [Mount.top, Device.ruleMount, hdir]
    rfl
  have hinside : ∀ mount ∈ rules.mapIdx device.ruleMount, mount.point.mount ≠ device.firstMountId + i := by
    intro mount hmount'
    rw [hflat.point mount hmount']
    exact Ne.symm (hflat.id _ hmount)
  have hlookup := hflat.lookup_outermost hmount (pathNames_ne_nil _) rfl (h.isDir_visible houter.mem) hfirst rest
  rw [show device.visibleRoot = ⟨device.visibleRoot.mount, device.visibleRoot.dir⟩ from rfl, hlookup, hroot,
    lookup_inside hinside]
  split <;> rfl

theorem enforced_outermost (hflat : Flat device.visibleRoot.mount (rules.mapIdx device.ruleMount))
    {rule : PlannedMount} (hrule : Outermost rules rule) : Enforced device (rules.mapIdx device.ruleMount) rule := by
  obtain ⟨dir, hdir⟩ := h.intended_isSome hrule.mem
  have hlookup := h.lookup_outermost hflat hrule hdir []
  rw [List.append_nil, if_pos (Or.inl rfl), Dir.descend_nil] at hlookup
  exact ⟨dir, hdir, hlookup⟩

/-- Whether what the outer rule leads to has, at `rest`, what the inner rule is to lead to. -/
theorem descend_eq_intended_iff {outer inner : PlannedMount} (houter : outer ∈ rules) (hinner : inner ∈ rules)
    {outerDir innerDir : Dir FileSystem Bytes} (houterDir : device.intended outer = some outerDir)
    (hinnerDir : device.intended inner = some innerDir) (rest : Bytes) :
    outerDir.descend (pathNames rest) = innerDir ↔ RedirectsAgree outer inner rest := by
  have hfs : device.sourceRoot.dir.fs ≠ device.denyAnchor.dir.fs := by
    rw [device.sourceRoot_fs, device.denyAnchor_fs]
    decide
  rcases h.intended_cases houter houterDir with ⟨houterAction, rfl⟩ | ⟨houterAction, rfl, -⟩
  · -- the anchor has nothing below it that a rule is to lead to
    constructor
    · intro heq
      rcases h.intended_cases hinner hinnerDir with ⟨-, rfl⟩ | ⟨-, rfl, -⟩
      · exact absurd (List.append_right_eq_self.mp (congrArg Dir.path heq)) (pathNames_ne_nil rest)
      · exact absurd (show device.sourceRoot.dir.fs = _ from (congrArg (fun dir => dir.fs) heq).symm) hfs
    · intro hagree
      exact absurd (houterAction.symm.trans hagree.outer_action) (by decide)
  · rcases h.intended_cases hinner hinnerDir with ⟨hinnerAction, rfl⟩ | ⟨hinnerAction, rfl, -⟩
    · constructor
      · intro heq
        exact absurd (congrArg (fun dir => dir.fs) heq) hfs
      · intro hagree
        exact absurd (hinnerAction.symm.trans hagree.inner_action) (by decide)
    · rw [← Dir.descend_append, ← pathNames_append]
      constructor
      · intro heq
        exact ⟨houterAction, hinnerAction, (pathNames_inj (List.append_cancel_left (congrArg Dir.path heq))).symm⟩
      · intro hagree
        rw [hagree.backing]

theorem enforced_nested_iff (hflat : Flat device.visibleRoot.mount (rules.mapIdx device.ruleMount))
    {outer inner : PlannedMount} (houter : Outermost rules outer) (hinner : inner ∈ rules) {rest : Bytes}
    (hrest : inner.visiblePath = outer.visiblePath ++ slash :: rest) :
    Enforced device (rules.mapIdx device.ruleMount) inner ↔ RedirectsAgree outer inner rest := by
  obtain ⟨outerDir, houterDir⟩ := h.intended_isSome houter.mem
  obtain ⟨innerDir, hinnerDir⟩ := h.intended_isSome hinner
  rw [← h.descend_eq_intended_iff houter.mem hinner houterDir hinnerDir]
  have hlookup := h.lookup_outermost hflat houter houterDir (pathNames rest)
  rw [← pathNames_append, ← hrest] at hlookup
  constructor
  · rintro ⟨dir, hdir, hresolve⟩
    obtain rfl : dir = innerDir := Option.some.inj (hdir.symm.trans hinnerDir)
    rw [Device.resolve, hlookup] at hresolve
    split at hresolve
    · exact Option.some.inj hresolve
    · cases hresolve
  · intro heq
    refine ⟨innerDir, hinnerDir, ?_⟩
    have hagree := (h.descend_eq_intended_iff houter.mem hinner houterDir hinnerDir rest).mp heq
    have hisDir : device.trees.isDir innerDir = true := by
      rcases h.intended_cases hinner hinnerDir with ⟨hdeny, -⟩ | ⟨-, -, hisDir⟩
      · rw [hagree.inner_action] at hdeny
        cases hdeny
      · exact hisDir
    rw [Device.resolve, hlookup, heq, if_pos (Or.inr hisDir)]

/-- **Nested rules.** Every rule is enforced exactly when nested rules agree. -/
theorem enforced_iff (hflat : Flat device.visibleRoot.mount (rules.mapIdx device.ruleMount))
    (hnodup : (rules.map PlannedMount.visiblePath).Nodup) :
    (∀ rule ∈ rules, Enforced device (rules.mapIdx device.ruleMount) rule) ↔ NestedAgree rules := by
  constructor
  · intro hall outer houter inner hinner rest hrest
    obtain ⟨top, htop, hwithin, hfirst⟩ := exists_outermost slash PlannedMount.visiblePath houter
    have htop : Outermost rules top := ⟨htop, hfirst⟩
    rcases isWithin_iff.mp hwithin with heq | ⟨front, hfront⟩
    · obtain rfl : outer = top := List.inj_on_of_nodup_map hnodup houter htop.mem heq
      exact (h.enforced_nested_iff hflat htop hinner hrest).mp (hall inner hinner)
    · have hdeep : inner.visiblePath = top.visiblePath ++ slash :: (front ++ slash :: rest) := by
        rw [hrest, hfront, List.append_assoc, List.cons_append]
      have hagree := (h.enforced_nested_iff hflat htop houter hfront).mp (hall outer houter)
      have hagree' := (h.enforced_nested_iff hflat htop hinner hdeep).mp (hall inner hinner)
      refine ⟨hagree.inner_action, hagree'.inner_action, ?_⟩
      rw [hagree'.backing, hagree.backing, List.append_assoc, List.cons_append]
  · intro hagree rule hrule
    obtain ⟨top, htop, hwithin, hfirst⟩ := exists_outermost slash PlannedMount.visiblePath hrule
    have houtermost : Outermost rules top := ⟨htop, hfirst⟩
    rcases isWithin_iff.mp hwithin with heq | ⟨rest, hrest⟩
    · obtain rfl : rule = top := List.inj_on_of_nodup_map hnodup hrule htop heq
      exact h.enforced_outermost hflat houtermost
    · exact (h.enforced_nested_iff hflat houtermost hrule hrest).mpr (hagree top htop rule hrule rest hrest)

end Pinned

/-! ## Plans of accepted documents -/

theorem map_visiblePath_of_forall₂ {userId : Nat} {rules : List LogicalMountRule} {mounts : List PlannedMount}
    (h : List.Forall₂ (PlannedFrom userId) rules mounts) :
    mounts.map PlannedMount.visiblePath = visiblePaths rules := by
  induction h with
  | nil => rfl
  | @cons rule mount rules mounts hrule _ ih =>
      have hother : rule.action ≠ .isolateRoot := by
        rw [← hrule.action]
        rcases hrule.executable with haction | haction <;> rw [haction] <;> decide
      rw [List.map_cons, visiblePaths_cons_other hother, ih, hrule.visiblePath]

theorem nodup_visiblePaths {policy out : AppPolicy} (hvalid : validatePolicy policy = .ok out) {userId : Nat}
    {plan : ProcessPlan} (hplan : loadPackagePlan userId out.clearLines = some plan) :
    (plan.mounts.map PlannedMount.visiblePath).Nodup := by
  have hforall := loadPackagePlan_some hplan
  obtain ⟨-, users, mounts, root, events, -, hmounts, -, -, -, rfl⟩ := validatePolicy_ok_iff.mp hvalid
  obtain ⟨-, hnodup, -⟩ := normalizeMounts_ok_iff.mp hmounts
  rw [map_visiblePath_of_forall₂ hforall, AppPolicy.clearLines, visiblePaths_clearLine]
  exact (((sortOn_perm _ _).filter _).map _).nodup_iff.mpr hnodup

section Commit
variable {toml : Rules.TomlParser} {source : Rules.SourceBuffer} {limits : Rules.RulesLimits} {blob : Rules.PolicyBlob}
  {decoded : PolicyDocument} {generation : UInt64} {policy : AppPolicy} {userId : Nat} {plan : ProcessPlan}
  {device : Device} {workspace : Workspace} {allowLegacy : Bool} {s : Transaction}

theorem mountsAfter_complete (hpinned : Pinned device plan.mounts workspace)
    (hnodup : (plan.mounts.map PlannedMount.visiblePath).Nodup)
    (hreach : Reachable (transactionPlan plan workspace allowLegacy) s) (hcomplete : s.shared.status = complete)
    (hstrict : MountBackendKind.strict s.worker.backend) :
    mountsAfter device workspace s.worker.backend s.namespaceLog = plan.mounts.mapIdx device.ruleMount ∧
      Flat device.visibleRoot.mount (plan.mounts.mapIdx device.ruleMount) := by
  obtain ⟨hattached, hdetach⟩ := (reachable_inv hreach).committed hcomplete
  have hfold := foldl_mountRule hpinned hstrict hnodup (le_refl plan.mounts.length)
  rw [List.take_length] at hfold
  rw [mountsAfter_eq hdetach, hattached]
  exact hfold

/-- **What a committed plan enforces.** For every app of an accepted document and every device on which its
directories could be pinned: after a commit by a strict backend, every visible path resolves to what its rule is to
lead to, exactly when nested rules of the plan agree. -/
theorem enforced_iff_nestedAgree (hok : (Rules.compileRules toml source limits).ok = true)
    (hblob : (Rules.compileRules toml source limits).blob = some blob)
    (hdecode : decodePolicy blob.bytes = .ok (decoded, generation)) (hpolicy : policy ∈ decoded.apps)
    (hplan : loadPackagePlan userId policy = some plan) (hpin : pinRules device plan.mounts {} = some workspace)
    (hreach : Reachable (transactionPlan plan workspace allowLegacy) s) (hcomplete : s.shared.status = complete)
    (hstrict : MountBackendKind.strict s.worker.backend) :
    (∀ rule ∈ plan.mounts, Enforced device (mountsAfter device workspace s.worker.backend s.namespaceLog) rule) ↔
      NestedAgree plan.mounts := by
  obtain ⟨document, haccepted⟩ := Rules.accepted_of_ok hok
  obtain ⟨blob', decoded', generation', valid, hblob', hdecode', hperm, hvalid, -⟩ :=
    Rules.decoded_valid hok haccepted.parsed_document
  obtain rfl : blob' = blob := Option.some.inj (hblob'.symm.trans hblob)
  obtain ⟨rfl, rfl⟩ := Prod.mk.inj (Except.ok.inj (hdecode'.symm.trans hdecode))
  obtain ⟨out, hout, rfl⟩ := List.mem_map.mp (hperm.mem_iff.mp hpolicy)
  obtain ⟨app, happ⟩ := exists_of_forall₂ hvalid.flip hout
  have hpinned := (pinned_nil device).pinRules hpin
  rw [List.nil_append] at hpinned
  have hnodup := nodup_visiblePaths happ hplan
  obtain ⟨hmounts, hflat⟩ := mountsAfter_complete hpinned hnodup hreach hcomplete hstrict
  rw [hmounts]
  exact hpinned.enforced_iff hflat hnodup

end Commit

/-! ## Two samples -/

/-- The directories down to the given ones. -/
def treesOf (paths : List (List Bytes)) : DirTrees FileSystem Bytes where
  isDir dir := paths.any fun path => dir.path.isPrefixOf path
  isDir_of_child dir name h := by
    simp only [List.any_eq_true, List.isPrefixOf_iff_prefix] at h ⊢
    obtain ⟨path, hpath, hstarts⟩ := h
    exact ⟨path, hpath, (List.prefix_append _ _).trans hstarts⟩

/-- A device whose storage has the directories down to `A/Private`, `C/Private` and `D`. -/
def sampleDevice : Device where
  topology := {
    visibleRoot := ascii "/storage/emulated/0"
    sourceRoot := ascii "/data/media/0"
    denyAnchorPath := ascii "/module/run/deny-anchor" }
  trees := treesOf [[ascii "A", ascii "Private"], [ascii "C", ascii "Private"], [ascii "D"]]
  visibleRoot := ⟨1, .storage, []⟩
  sourceRoot := ⟨2, .storage, []⟩
  denyAnchor := ⟨3, .moduleDir, []⟩
  firstMountId := 4
  visibleRoot_fs := rfl
  sourceRoot_fs := rfl
  denyAnchor_fs := rfl
  visibleRoot_lt := by decide

/-- What the executor decodes from the blob of a sample. -/
def decodedSample (sample : Rules.Sample) : Option (Rules.PolicyBlob × PolicyDocument × UInt64) :=
  (Rules.compileRules sample.toml sample.source {}).blob.bind fun blob =>
    (decodePolicy blob.bytes).toOption.map fun result => (blob, result)

theorem exists_decodedSample {sample : Rules.Sample} {apps : List AppPolicy}
    (hdecoded : (decodedSample sample).map (fun result => result.2.1.apps) = some apps) :
    ∃ blob decoded generation, (Rules.compileRules sample.toml sample.source {}).blob = some blob ∧
      decodePolicy blob.bytes = .ok (decoded, generation) ∧ decoded.apps = apps := by
  obtain ⟨⟨blob, decoded, generation⟩, hresult, rfl⟩ := Option.map_eq_some_iff.mp hdecoded
  obtain ⟨blob', hblob, hresult⟩ := Option.bind_eq_some_iff.mp hresult
  obtain ⟨result, hdecode, heq⟩ := Option.map_eq_some_iff.mp hresult
  obtain ⟨rfl, rfl⟩ := Prod.mk.inj heq
  refine ⟨blob', decoded, generation, hblob, ?_, rfl⟩
  cases hcases : decodePolicy blob'.bytes with
  | error failure =>
      rw [hcases] at hdecode
      cases hdecode
  | ok value =>
      rw [hcases] at hdecode
      exact congrArg Except.ok (Option.some.inj hdecode)

/-- The worker mounts two rules and commits. -/
def commitTwo : List Label :=
  [.companion .ok, .worker .tick, .worker (.preflight (.passed false {} true)), .worker .tick, .worker .tick,
    .worker (.call .ok), .worker .tick, .worker .mounted, .worker .tick, .worker .mounted, .worker .tick,
    .worker .tick, .worker .tick, .worker .tick]

/-- A redirect and a deny apart from it. -/
def deniedApart : Rules.Sample := { deny := ["D"], redirects := [("A", "C")] }

def deniedApartApp : AppPolicy where
  package := ascii "a.b"
  users := [ascii "0"]
  mounts := [{ action := .redirect, visiblePath := ascii "A", backingPath := ascii "C", depth := 1 },
    { action := .deny, visiblePath := ascii "D", depth := 1 }]

def deniedApartPlan : ProcessPlan where
  mounts := [⟨.redirect, ascii "A", ascii "C"⟩, ⟨.deny, ascii "D", []⟩]
  pathBytes := 8

theorem enforced_iff_nestedAgree_deniedApart :
    ∃ workspace s, pinRules sampleDevice deniedApartPlan.mounts {} = some workspace ∧
      Run.runLabels (step (transactionPlan deniedApartPlan workspace false)) .initial commitTwo = some s ∧
      ∀ rule ∈ deniedApartPlan.mounts,
        Enforced sampleDevice (mountsAfter sampleDevice workspace s.worker.backend s.namespaceLog) rule := by
  have hok : (Rules.compileRules deniedApart.toml deniedApart.source {}).ok = true := by decide +kernel
  have hdecoded : (decodedSample deniedApart).map (fun result => result.2.1.apps) = some [deniedApartApp] := by
    decide +kernel
  obtain ⟨blob, decoded, generation, hblob, hdecode, happs⟩ := exists_decodedSample hdecoded
  have hpolicy : deniedApartApp ∈ decoded.apps := by
    rw [happs]
    exact List.mem_singleton_self _
  have hplan : loadPackagePlan 0 deniedApartApp = some deniedApartPlan := rfl
  have hrun : ∃ workspace s, pinRules sampleDevice deniedApartPlan.mounts {} = some workspace ∧
      Run.runLabels (step (transactionPlan deniedApartPlan workspace false)) .initial commitTwo = some s ∧
      s.shared.status = complete ∧ s.worker.backend = .strictOpenTree := ⟨_, _, rfl, rfl, rfl, rfl⟩
  obtain ⟨workspace, s, hpin, hrun, hcomplete, hbackend⟩ := hrun
  refine ⟨workspace, s, hpin, hrun, ?_⟩
  refine (enforced_iff_nestedAgree hok hblob hdecode hpolicy hplan hpin (Run.reaches_of_runLabels commitTwo hrun)
    hcomplete (Or.inl hbackend)).mpr ?_
  intro outer houter inner hinner rest hrest
  have hlength : ∀ rule ∈ deniedApartPlan.mounts, rule.visiblePath.length = 1 := by decide
  have hnested := congrArg List.length hrest
  rw [List.length_append, List.length_cons, hlength outer houter, hlength inner hinner] at hnested
  omega

/-- A redirect and a deny inside it: the document is accepted, the run commits, and the denied path leads to
`C/Private`. -/
def deniedInside : Rules.Sample := { deny := ["A/Private"], redirects := [("A", "C")] }

def deniedInsideApp : AppPolicy where
  package := ascii "a.b"
  users := [ascii "0"]
  mounts := [{ action := .redirect, visiblePath := ascii "A", backingPath := ascii "C", depth := 1 },
    { action := .deny, visiblePath := ascii "A/Private", depth := 2 }]

def deniedInsidePlan : ProcessPlan where
  mounts := [⟨.redirect, ascii "A", ascii "C"⟩, ⟨.deny, ascii "A/Private", []⟩]
  pathBytes := 16

theorem not_enforced_deniedInside :
    (Rules.compileRules deniedInside.toml deniedInside.source {}).ok = true ∧
      ∃ blob decoded generation, (Rules.compileRules deniedInside.toml deniedInside.source {}).blob = some blob ∧
        decodePolicy blob.bytes = .ok (decoded, generation) ∧
        ∃ policy ∈ decoded.apps, ∃ plan workspace s, loadPackagePlan 0 policy = some plan ∧
          pinRules sampleDevice plan.mounts {} = some workspace ∧
          Reachable (transactionPlan plan workspace false) s ∧ s.shared.status = complete ∧
          s.worker.backend = .strictOpenTree ∧
          ∃ rule ∈ plan.mounts, rule.action = .deny ∧
            ¬ Enforced sampleDevice (mountsAfter sampleDevice workspace s.worker.backend s.namespaceLog) rule := by
  refine ⟨by decide +kernel, ?_⟩
  have hdecoded : (decodedSample deniedInside).map (fun result => result.2.1.apps) = some [deniedInsideApp] := by
    decide +kernel
  obtain ⟨blob, decoded, generation, hblob, hdecode, happs⟩ := exists_decodedSample hdecoded
  have hplan : loadPackagePlan 0 deniedInsideApp = some deniedInsidePlan := rfl
  have hrun : ∃ workspace s, pinRules sampleDevice deniedInsidePlan.mounts {} = some workspace ∧
      Run.runLabels (step (transactionPlan deniedInsidePlan workspace false)) .initial commitTwo = some s ∧
      s.shared.status = complete ∧ s.worker.backend = .strictOpenTree ∧
        mountsAfter sampleDevice workspace s.worker.backend s.namespaceLog =
          deniedInsidePlan.mounts.mapIdx sampleDevice.ruleMount := ⟨_, _, rfl, rfl, rfl, rfl, rfl⟩
  obtain ⟨workspace, s, hpin, hrun, hcomplete, hbackend, hmounts⟩ := hrun
  refine ⟨blob, decoded, generation, hblob, hdecode, deniedInsideApp, ?_, deniedInsidePlan, workspace, s, hplan, hpin,
    Run.reaches_of_runLabels commitTwo hrun, hcomplete, hbackend, ⟨.deny, ascii "A/Private", []⟩, ?_, rfl, ?_⟩
  · rw [happs]
    exact List.mem_singleton_self _
  · exact List.mem_cons_of_mem _ (List.mem_singleton_self _)
  · rintro ⟨dir, hdir, hresolve⟩
    rw [hmounts, ← hdir] at hresolve
    exact absurd hresolve (by decide)

end PathGuard.Zygisk
