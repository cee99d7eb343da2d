import PathGuard.Rules.Admission
import PathGuard.Rules.CompiledPolicy

/-!
# Which valid documents can be published

After the semantic phase a document still has to pass the checks of the core library, which has a path grammar of its
own and takes no empty policy, and the admission of the device, which has no backend for a policy without rules.

* `CoreAccepts`, `CanonicalAppPolicy.HasRule` : what is asked of an app that goes on;
* `validatePolicy_compiledApp_iff` : the core library's own answer;
* `published_iff` : the documents that are published.
-/

namespace PathGuard.Rules

open PathGuard

/-! ## A device that supports everything -/

structure SupportsEverything (snapshot : DeviceSnapshot) : Prop where
  primitives : ∀ bit ∈ [kCapabilityComponentFdWalk, kCapabilityProcFdMount, kCapabilityOpenTreeMoveMount,
    kCapabilityStringBindMount], snapshot.mount.primitives &&& bit ≠ 0
  strictActions : snapshot.mount.strictActions &&& (kMountActionRedirect ||| kMountActionDenyAnchor) =
    kMountActionRedirect ||| kMountActionDenyAnchor
  legacyActions : snapshot.mount.legacyActions &&& (kMountActionRedirect ||| kMountActionDenyAnchor) =
    kMountActionRedirect ||| kMountActionDenyAnchor
  provider : snapshot.providerSupported = true
  topology : snapshot.topologySupported = true

/-- One that has every bit there is. -/
def everySupport : DeviceSnapshot where
  mount := { primitives := 0x1f, strictActions := 3, legacyActions := 3 }
  providerSupported := true
  topologySupported := true

theorem supportsEverything_everySupport : SupportsEverything everySupport where
  primitives := by decide
  strictActions := by decide
  legacyActions := by decide
  provider := rfl
  topology := rfl

section Admission
variable {policy : CanonicalPolicy}

def CanonicalAppPolicy.HasRule (app : CanonicalAppPolicy) : Prop := app.redirects ≠ [] ∨ app.deny ≠ []

/-- One round of the loop that collects the actions. -/
def addActions (actions : MountActionMask) (app : CanonicalAppPolicy) : MountActionMask :=
  let actions := if app.redirects.isEmpty then actions else actions ||| kMountActionRedirect
  if app.deny.isEmpty then actions else actions ||| kMountActionDenyAnchor

theorem addActions_spec {actions : MountActionMask} (hactions : actions < 4) (app : CanonicalAppPolicy) :
    addActions actions app < 4 ∧ (addActions actions app ≠ 0 ↔ actions ≠ 0 ∨ app.HasRule) := by
  have hredirect : ∀ mask < 4, mask ||| kMountActionRedirect < 4 ∧ mask ||| kMountActionRedirect ≠ 0 := by decide
  have hdeny : ∀ mask < 4, mask ||| kMountActionDenyAnchor < 4 ∧ mask ||| kMountActionDenyAnchor ≠ 0 := by decide
  unfold addActions CanonicalAppPolicy.HasRule
  by_cases hredirects : app.redirects = [] <;> by_cases hdenies : app.deny = []
  · simp [hredirects, hdenies, hactions]
  · simp [hredirects, hdenies, hdeny actions hactions]
  · simp [hredirects, hdenies, hredirect actions hactions]
  · simp [hredirects, hdenies, hdeny _ (hredirect actions hactions).1]

theorem mountActions_policyRequirements :
    (policyRequirements policy).mountActions < 4 ∧
      ((policyRequirements policy).mountActions ≠ 0 ↔ ∃ app ∈ policy.apps, app.HasRule) := by
  have hfold : ∀ (apps : List CanonicalAppPolicy) (actions : MountActionMask), actions < 4 →
      apps.foldl addActions actions < 4 ∧
        (apps.foldl addActions actions ≠ 0 ↔ actions ≠ 0 ∨ ∃ app ∈ apps, app.HasRule) := by
    intro apps
    induction apps with
    | nil => simp
    | cons app apps ih =>
        intro actions hactions
        obtain ⟨hlt, hne⟩ := addActions_spec hactions app
        rw [List.foldl_cons, List.exists_mem_cons_iff, ← or_assoc, ← hne]
        exact ih _ hlt
  obtain ⟨hlt, hne⟩ := hfold policy.apps 0 (by decide)
  refine ⟨hlt, hne.trans ⟨fun h => h.resolve_left (fun hzero => hzero rfl), Or.inr⟩⟩

/-- Such a device admits a policy exactly when it has a rule. -/
theorem admitPolicy_everything_iff {snapshot : DeviceSnapshot} (h : SupportsEverything snapshot) :
    (admitPolicy policy (policyRequirements policy) snapshot).admitted = true ↔ ∃ app ∈ policy.apps, app.HasRule := by
  obtain ⟨hlt, hne⟩ := @mountActions_policyRequirements policy
  rw [← hne]
  set required := (policyRequirements policy).mountActions
  have hmask : (kMountActionRedirect ||| kMountActionDenyAnchor) &&& required = required := by
    have hall : ∀ mask < 4, (kMountActionRedirect ||| kMountActionDenyAnchor) &&& mask = mask := by decide
    exact hall required hlt
  have hstrict : snapshot.mount.strictActions &&& required = required := by
    rw [← hmask, ← Nat.land_assoc, h.strictActions]
  have hopen : snapshot.mount.primitives &&& kCapabilityOpenTreeMoveMount ≠ 0 := h.primitives _ (by simp)
  by_cases hzero : required = 0
  · simp [admitPolicy, selectMountBackend, hzero, required]
  · simp [admitPolicy, selectMountBackend, supportsAllActions, hzero, hstrict, hopen, h.provider, h.topology, required]

end Admission

/-! ## What the core library accepts -/

theorem exists_forall₂ {α β : Type} {R : α → β → Prop} {l : List α} (h : ∀ a ∈ l, ∃ b, R a b) :
    ∃ l', List.Forall₂ R l l' := by
  induction l with
  | nil => exact ⟨[], .nil⟩
  | cons a l ih =>
      rw [List.forall_mem_cons] at h
      obtain ⟨b, hb⟩ := h.1
      obtain ⟨l', hl'⟩ := ih h.2
      exact ⟨b :: l', .cons hb hl'⟩

section App
variable {limits : RulesLimits} {origins : OriginMap} {app : AppRules}

/-- The rules that are left of the app have paths in the grammar of the core library, and different visible ones. -/
structure CoreAccepts (limits : RulesLimits) (origins : OriginMap) (app : AppRules) : Prop where
  deny : ∀ rule ∈ (resolveApp limits origins app).1.deny, (normalizeVisible rule.path.bytes).isSome = true
  redirects : ∀ rule ∈ (resolveApp limits origins app).1.redirects,
    (normalizeVisible rule.source.bytes).isSome = true ∧ (normalizeBacking rule.target.bytes app.package).isSome = true
  distinct : ((resolveApp limits origins app).1.deny.map (fun rule => rule.path.bytes) ++
    (resolveApp limits origins app).1.redirects.map fun rule => rule.source.bytes).Nodup
  picker : app.filePicker = true → (resolveApp limits origins app).1.redirects ≠ []

theorem visible_compiledApp : (compiledApp limits origins app).mounts.map LogicalMountRule.visiblePath =
    (resolveApp limits origins app).1.deny.map (fun rule => rule.path.bytes) ++
      (resolveApp limits origins app).1.redirects.map fun rule => rule.source.bytes := by
  simp only [compiledApp, toAppPolicy, canonicalApp_deny, canonicalApp_redirects, List.map_append, List.map_map]
  rfl

theorem action_compiledApp {rule : LogicalMountRule} (h : rule ∈ (compiledApp limits origins app).mounts) :
    rule.action = .redirect ∨ rule.action = .deny := by
  obtain ⟨deny, -, rfl⟩ | ⟨redirect, -, rfl⟩ := mem_compiledApp_mounts.mp h
  · exact Or.inr rfl
  · exact Or.inl rfl

theorem normalRule_compiledApp_iff : (∀ rule ∈ (compiledApp limits origins app).mounts,
      ∃ out, normalRule app.package rule = some out) ↔
    (∀ rule ∈ (resolveApp limits origins app).1.deny, (normalizeVisible rule.path.bytes).isSome = true) ∧
      ∀ rule ∈ (resolveApp limits origins app).1.redirects, (normalizeVisible rule.source.bytes).isSome = true ∧
        (normalizeBacking rule.target.bytes app.package).isSome = true := by
  have hdeny : ∀ path : Bytes, (∃ out, normalRule app.package { action := .deny, visiblePath := path } = some out) ↔
      (normalizeVisible path).isSome = true := by
    intro path
    cases hvisible : normalizeVisible path <;> simp [normalRule, normalBacking, hvisible]
  have hredirect : ∀ (source target : Bytes) (depth : UInt16),
      (∃ out, normalRule app.package
        { action := .redirect, visiblePath := source, backingPath := target, depth := depth } = some out) ↔
        (normalizeVisible source).isSome = true ∧ (normalizeBacking target app.package).isSome = true := by
    intro source target depth
    cases hvisible : normalizeVisible source <;> cases hbacking : normalizeBacking target app.package <;>
      simp [normalRule, normalBacking, hvisible, hbacking]
  constructor
  · intro h
    refine ⟨fun rule hrule => ?_, fun rule hrule => ?_⟩
    · exact (hdeny _).mp (h _ (mem_compiledApp_mounts.mpr (Or.inl ⟨rule, hrule, rfl⟩)))
    · exact (hredirect _ _ _).mp (h _ (mem_compiledApp_mounts.mpr (Or.inr ⟨rule, hrule, rfl⟩)))
  · rintro ⟨hdenies, hredirects⟩ rule hrule
    obtain ⟨deny, hmem, rfl⟩ | ⟨redirect, hmem, rfl⟩ := mem_compiledApp_mounts.mp hrule
    · exact (hdeny _).mpr (hdenies deny hmem)
    · exact (hredirect _ _ _).mpr (hredirects redirect hmem)

theorem normalizeUsers_compiledApp (h : WellFormedApp app) :
    ∃ users, normalizeUsers (compiledApp limits origins app).users = some users ∧ users ≠ [ascii "*"] := by
  have hne : app.users.map toDecimal ≠ [] := by simpa using h.users_ne_nil
  have hmem : ∀ text, text ∈ (compiledApp limits origins app).users ↔ text ∈ app.users.map toDecimal := by
    have hitems : SameItems (compiledApp limits origins app).users (app.users.map toDecimal) :=
      sameItems_of_perm (List.Perm.refl _) fun text => by simp only [List.mem_map, mem_canonicalApp_users]
    rwa [SameItems, if_neg hne] at hitems
  have hnumbers : ((compiledApp limits origins app).users.all fun user => (fromCharsUnsigned user).isSome) = true := by
    rw [List.all_eq_true]
    intro text htext
    obtain ⟨user, huser, rfl⟩ := List.mem_map.mp ((hmem text).mp htext)
    rw [fromCharsUnsigned_toDecimal (h.users_range user huser).1 (h.users_range user huser).2]
    rfl
  have hstar : (compiledApp limits origins app).users ≠ [ascii "*"] := fun heq =>
    star_not_mem_users h.users_range ((hmem _).mp (by rw [heq]; exact List.mem_singleton_self _))
  rw [normalizeUsers, if_neg hstar, if_pos hnumbers]
  refine ⟨_, rfl, fun heq => hstar ?_⟩
  have hperm := sortOn_perm (fun user => (fromCharsUnsigned user).getD 0) (compiledApp limits origins app).users
  rw [heq] at hperm
  exact List.perm_singleton.mp hperm.symm

theorem normalRules_compiledApp {mounts : List LogicalMountRule}
    (h : List.Forall₂ (fun rule out => normalRule app.package rule = some out) (compiledApp limits origins app).mounts
      mounts) :
    (∀ rule ∈ mounts, rule.action = .redirect ∨ rule.action = .deny) ∧
      mounts.map LogicalMountRule.visiblePath =
        (compiledApp limits origins app).mounts.map LogicalMountRule.visiblePath ∧
      (mounts.any (fun rule => rule.action == .redirect) = true ↔
        (resolveApp limits origins app).1.redirects ≠ []) := by
  have hactions : mounts.map LogicalMountRule.action =
      (compiledApp limits origins app).mounts.map LogicalMountRule.action :=
    (map_eq_of_forall₂ h fun rule _ out hout => (normalRule_action hout).symm).symm
  have hvisible : mounts.map LogicalMountRule.visiblePath =
      (compiledApp limits origins app).mounts.map LogicalMountRule.visiblePath := by
    refine (map_eq_of_forall₂ h fun rule hrule out hout => (normalRule_visiblePath hout ?_).symm).symm
    rcases action_compiledApp hrule with haction | haction <;> simp [haction]
  have hmem : ∀ action, action ∈ mounts.map LogicalMountRule.action ↔
      ∃ rule ∈ (compiledApp limits origins app).mounts, rule.action = action := by
    intro action
    rw [hactions, List.mem_map]
  refine ⟨fun rule hrule => ?_, hvisible, ?_⟩
  · obtain ⟨original, horiginal, haction⟩ := (hmem rule.action).mp (List.mem_map_of_mem hrule)
    rw [← haction]
    exact action_compiledApp horiginal
  · have hany : mounts.any (fun rule => rule.action == .redirect) = true ↔
        MountAction.redirect ∈ mounts.map LogicalMountRule.action := by simp
    rw [hany, hmem]
    constructor
    · rintro ⟨rule, hrule, haction⟩
      obtain ⟨deny, -, rfl⟩ | ⟨redirect, hredirect, rfl⟩ := mem_compiledApp_mounts.mp hrule
      · cases haction
      · exact List.ne_nil_of_mem hredirect
    · intro hne
      obtain ⟨redirect, hredirect⟩ := List.exists_mem_of_ne_nil _ hne
      exact ⟨_, mem_compiledApp_mounts.mpr (Or.inr ⟨redirect, hredirect, rfl⟩), rfl⟩

/-- **The core library accepts a compiled app** exactly when it accepts what is left of its rules. -/
theorem validatePolicy_compiledApp_iff (h : WellFormedApp app) :
    (∃ out, validatePolicy (compiledApp limits origins app) = .ok out ∧ Executable out) ↔
      CoreAccepts limits origins app := by
  have hpackage : (compiledApp limits origins app).package.isEmpty = false := by
    show app.package.isEmpty = false
    simpa using (listItem_of_isPackageName h.package).nonempty
  have hprovider : ∀ (mounts : List LogicalMountRule) (users : List Bytes), users ≠ [ascii "*"] →
      (checkProvider { compiledApp limits origins app with users := users, mounts := mounts } = .ok () ↔
        (app.filePicker = true → mounts.any (fun rule => rule.action == .redirect) = true)) := by
    intro mounts users hstar
    have hcompat : (compiledApp limits origins app).providerCompat =
        if app.filePicker = true then .virtualize else .off := rfl
    cases hpicker : app.filePicker <;> cases hany : mounts.any fun rule => rule.action == .redirect <;>
      simp [checkProvider, hcompat, hpicker, hstar, hany]
  have hvisiblePaths : ∀ mounts : List LogicalMountRule, (∀ rule ∈ mounts, rule.action = .redirect ∨ rule.action = .deny) →
      visiblePaths mounts = mounts.map LogicalMountRule.visiblePath ∧ mounts.filter isIsolate = [] := by
    intro mounts hactions
    have hnone : ∀ rule ∈ mounts, isIsolate rule = false := by
      intro rule hrule
      rcases hactions rule hrule with haction | haction <;> simp [isIsolate, haction]
    have hall : (mounts.filter fun rule => !isIsolate rule) = mounts :=
      List.filter_eq_self.mpr fun rule hrule => by rw [hnone rule hrule]; rfl
    refine ⟨by rw [visiblePaths, hall], List.filter_eq_nil_iff.mpr fun rule hrule => ?_⟩
    rw [hnone rule hrule]
    exact Bool.false_ne_true
  constructor
  · rintro ⟨out, hout, -⟩
    obtain ⟨-, users, mounts, root, events, husers, hmounts, -, hcheck, -, -⟩ := validatePolicy_ok_iff.mp hout
    obtain ⟨hforall, hnodup, -, -, -⟩ := normalizeMounts_ok_iff.mp hmounts
    obtain ⟨hdeny, hredirects⟩ := normalRule_compiledApp_iff.mp fun rule hrule => exists_of_forall₂ hforall hrule
    obtain ⟨hactions, hvisible, hany⟩ := normalRules_compiledApp hforall
    obtain ⟨users', husers', hstar⟩ := @normalizeUsers_compiledApp limits origins app h
    obtain rfl : users' = users := Option.some.inj (husers'.symm.trans husers)
    refine ⟨hdeny, hredirects, ?_, fun hpicker => hany.mp ((hprovider mounts users' hstar).mp hcheck hpicker)⟩
    rwa [(hvisiblePaths mounts hactions).1, hvisible, visible_compiledApp] at hnodup
  · intro hcore
    obtain ⟨mounts, hforall⟩ := exists_forall₂ (normalRule_compiledApp_iff.mpr ⟨hcore.deny, hcore.redirects⟩)
    obtain ⟨hactions, hvisible, hany⟩ := normalRules_compiledApp hforall
    obtain ⟨hpaths, hisolates⟩ := hvisiblePaths mounts hactions
    obtain ⟨users, husers, hstar⟩ := @normalizeUsers_compiledApp limits origins app h
    have hmounts : normalizeMounts (compiledApp limits origins app).package
        (compiledApp limits origins app).mounts none [] = .ok (mounts, none) := by
      refine normalizeMounts_ok_iff.mpr ⟨hforall, ?_, by simp, ?_, ?_⟩
      · rw [hpaths, hvisible, visible_compiledApp]
        exact hcore.distinct
      · simp [hisolates]
      · simp [hisolates]
    refine ⟨_, validatePolicy_ok_iff.mpr ⟨hpackage, users, mounts, none, [], husers, hmounts, ?_, ?_, rfl, rfl⟩, ?_⟩
    · refine checkIsolate_ok_iff.mpr fun rule hrule => ?_
      rcases hactions rule hrule with haction | haction <;> simp [isolateAllows, haction]
    · exact (hprovider mounts users hstar).mpr fun hpicker => hany.mpr (hcore.picker hpicker)
    · exact ⟨rfl, fun rule hrule => hactions rule (mem_sortOn.mp hrule), rfl⟩

end App

/-! ## What can be encoded -/

section Document
variable {limits : RulesLimits} {origins : OriginMap} {document : RulesDocument}

/-- The document `EncodePolicy` gets. -/
def compiledDocument (limits : RulesLimits) (origins : OriginMap) (document : RulesDocument) : PolicyDocument :=
  toPolicyDocument (canonicalPolicy (resolvedPolicy limits origins document))

theorem canonicalizes_iff (hwell : ∀ app ∈ document.apps, WellFormedApp app) :
    (∃ canonical, canonicalizeDocument (compiledDocument limits origins document) = .ok canonical) ↔
      enabledApps document ≠ [] ∧ ((enabledApps document).map AppRules.package).Nodup ∧
        ∀ app ∈ enabledApps document, CoreAccepts limits origins app := by
  have hperm := canonicalPolicy_apps_perm limits origins document
  have happs : (compiledDocument limits origins document).apps =
      (toPolicyDocument (canonicalPolicy (resolvedPolicy limits origins document))).apps := rfl
  have hne : (compiledDocument limits origins document).apps ≠ [] ↔ enabledApps document ≠ [] := by
    rw [happs, not_iff_not, ← List.length_eq_zero_iff, ← hperm.length_eq, List.length_map, List.length_eq_zero_iff]
  have hpackages : ((compiledDocument limits origins document).apps.map AppPolicy.package).Nodup ↔
      ((enabledApps document).map AppRules.package).Nodup := by
    rw [happs, ← (hperm.map _).nodup_iff, List.map_map]
    rfl
  have hvalid : (∀ app ∈ (compiledDocument limits origins document).apps,
      ∃ out, validatePolicy app = .ok out ∧ Executable out) ↔
        ∀ app ∈ enabledApps document, CoreAccepts limits origins app := by
    rw [happs]
    constructor
    · intro h app happ
      exact (validatePolicy_compiledApp_iff (hwell app (List.mem_filter.mp happ).1)).mp
        (h _ (hperm.mem_iff.mp (List.mem_map_of_mem happ)))
    · intro h policy hpolicy
      obtain ⟨app, happ, rfl⟩ := List.mem_map.mp (hperm.mem_iff.mpr hpolicy)
      exact (validatePolicy_compiledApp_iff (hwell app (List.mem_filter.mp happ).1)).mpr (h app happ)
  have hsame : ∀ {apps out : List AppPolicy},
      List.Forall₂ (fun app out => validatePolicy app = .ok out ∧ Executable out) apps out →
        out.map AppPolicy.package = apps.map AppPolicy.package := by
    intro apps out h
    exact (map_eq_of_forall₂ h fun app _ out hout => (validatePolicy_strings hout.1).1.symm).symm
  rw [← hne, ← hpackages, ← hvalid]
  constructor
  · rintro ⟨canonical, hcanonical⟩
    obtain ⟨-, -, hsome, hall, -⟩ := canonicalizeDocument_ok_iff.mp hcanonical
    obtain ⟨hforall, hnodup, -⟩ := canonicalizeApps_ok_iff.mp hall
    exact ⟨hsome, hsame hforall ▸ hnodup, fun app happ => exists_of_forall₂ hforall happ⟩
  · rintro ⟨hsome, hnodup, hall⟩
    obtain ⟨out, hforall⟩ := exists_forall₂ hall
    rw [← hsame hforall] at hnodup
    exact ⟨{ compiledDocument limits origins document with apps := out }, canonicalizeDocument_ok_iff.mpr
      ⟨rfl, rfl, hsome, canonicalizeApps_ok_iff.mpr ⟨hforall, hnodup, by simp⟩, rfl⟩⟩

/-- A policy that can be encoded passes its own verification. -/
theorem encodeAndVerify_iff (hwell : ∀ app ∈ document.apps, WellFormedApp app) :
    (∃ blob, encodeAndVerify (canonicalPolicy (resolvedPolicy limits origins document)) = some blob) ↔
      (∃ bytes, encodePolicy (compiledDocument limits origins document) = .ok bytes) ∧
        computeContentGeneration (compiledDocument limits origins document) ≠ 0 := by
  show (∃ blob, encodeAndVerify _ = some blob) ↔ (∃ bytes, encodePolicy (toPolicyDocument _) = .ok bytes) ∧
    computeContentGeneration (toPolicyDocument _) ≠ 0
  constructor
  · rintro ⟨blob, hblob⟩
    refine ⟨⟨blob.bytes, encodePolicy_of_encodeAndVerify hblob⟩, ?_⟩
    unfold encodeAndVerify at hblob
    split at hblob
    · cases hblob
    · simp only at hblob
      split at hblob
      · next hverify =>
        rw [Bool.and_eq_true, bne_iff_ne] at hverify
        exact hverify.1
      · cases hblob
  · rintro ⟨⟨bytes, hbytes⟩, hne⟩
    obtain ⟨canonical, hcompiled, rfl⟩ := compiledFrom_of_encodePolicy hwell hbytes
    have hgeneration : computeContentGeneration (toPolicyDocument (canonicalPolicy
        (resolvedPolicy limits origins document))) = contentGeneration canonical := by
      rw [computeContentGeneration, hcompiled.canonicalized]
    rw [hgeneration] at hne
    rw [encodeAndVerify, hbytes, hgeneration]
    simp only [verifyPolicyBlob, verifyPolicyBytes, hgeneration, hcompiled.isCanonical.decodePolicy_policyFile,
      hcompiled.isCanonical.computeContentGeneration_decodedDocument]
    exact ⟨_, if_pos (by simpa using hne)⟩

/-! ## What is published -/

/-- `CompileRules` has made a blob, and a device that supports everything admits it. -/
def Published (result : RulesBuildResult) : Prop :=
  ∃ blob policy, result.blob = some blob ∧ result.canonical = some policy ∧
    ∀ snapshot, SupportsEverything snapshot → (admitPolicy policy result.requirements snapshot).admitted = true

/-- Some rule is left of some enabled app, and the core library accepts what is left of all of them. The packages are
the keys of a table, and differ; a file of 4 GiB and a generation of 0 are refused. -/
structure Publishable (limits : RulesLimits) (origins : OriginMap) (document : RulesDocument) : Prop where
  rule : ∃ app ∈ enabledApps document,
    (resolveApp limits origins app).1.redirects ≠ [] ∨ (resolveApp limits origins app).1.deny ≠ []
  core : ∀ app ∈ enabledApps document, CoreAccepts limits origins app
  packages : ((enabledApps document).map AppRules.package).Nodup
  fits : ∀ canonical, canonicalizeDocument (compiledDocument limits origins document) = .ok canonical → Fits canonical
  generation : computeContentGeneration (compiledDocument limits origins document) ≠ 0

theorem exists_hasRule_iff :
    (∃ app ∈ (canonicalPolicy (resolvedPolicy limits origins document)).apps, app.HasRule) ↔
      ∃ app ∈ enabledApps document,
        (resolveApp limits origins app).1.redirects ≠ [] ∨ (resolveApp limits origins app).1.deny ≠ [] := by
  have hrule : ∀ app, (canonicalApp (resolveApp limits origins app).1).HasRule ↔
      (resolveApp limits origins app).1.redirects ≠ [] ∨ (resolveApp limits origins app).1.deny ≠ [] := by
    intro app
    rw [CanonicalAppPolicy.HasRule, canonicalApp_redirects, canonicalApp_deny, ne_eq, ne_eq, List.map_eq_nil_iff,
      List.map_eq_nil_iff]
  constructor
  · rintro ⟨policy, hpolicy, hhas⟩
    obtain ⟨app, happ, henabled, rfl⟩ := mem_canonicalPolicy.mp hpolicy
    exact ⟨app, List.mem_filter.mpr ⟨happ, henabled⟩, (hrule app).mp hhas⟩
  · rintro ⟨app, happ, hhas⟩
    obtain ⟨hmem, henabled⟩ := List.mem_filter.mp happ
    exact ⟨_, mem_canonicalPolicy.mpr ⟨app, hmem, henabled, rfl⟩, (hrule app).mpr hhas⟩

theorem published_finishRules_iff (hwell : ∀ app ∈ document.apps, WellFormedApp app) (output : RulesBuildResult)
    (hempty : output.blob = none) :
    Published (finishRules limits output (resolvedPolicy limits origins document)) ↔
      Publishable limits origins document := by
  have hfinish : Published (finishRules limits output (resolvedPolicy limits origins document)) ↔
      (∃ blob, encodeAndVerify (canonicalPolicy (resolvedPolicy limits origins document)) = some blob) ∧
        ∃ app ∈ (canonicalPolicy (resolvedPolicy limits origins document)).apps, app.HasRule := by
    unfold finishRules Published
    cases hencode : encodeAndVerify (canonicalPolicy (resolvedPolicy limits origins document)) with
    | none => simp [hencode, hempty]
    | some blob =>
        simp only [hencode]
        constructor
        · rintro ⟨found, policy, -, hpolicy, hadmits⟩
          obtain rfl := Option.some.inj hpolicy
          exact ⟨⟨blob, rfl⟩, (admitPolicy_everything_iff supportsEverything_everySupport).mp
            (hadmits everySupport supportsEverything_everySupport)⟩
        · rintro ⟨-, hrule⟩
          exact ⟨blob, _, rfl, rfl, fun snapshot hsnapshot => (admitPolicy_everything_iff hsnapshot).mpr hrule⟩
  rw [hfinish, encodeAndVerify_iff hwell, exists_hasRule_iff]
  constructor
  · rintro ⟨⟨⟨bytes, hbytes⟩, hgeneration⟩, hrule⟩
    obtain ⟨canonical, hcanonical, hfits, -⟩ := encodePolicy_ok_iff.mp hbytes
    obtain ⟨-, hpackages, hcore⟩ := (canonicalizes_iff hwell).mp ⟨canonical, hcanonical⟩
    refine ⟨hrule, hcore, hpackages, fun other hother => ?_, hgeneration⟩
    obtain rfl := Except.ok.inj (hcanonical.symm.trans hother)
    exact hfits
  · intro h
    obtain ⟨app, happ, -⟩ := h.rule
    obtain ⟨canonical, hcanonical⟩ := (canonicalizes_iff hwell).mpr ⟨List.ne_nil_of_mem happ, h.packages, h.core⟩
    exact ⟨⟨⟨_, encodePolicy_ok_iff.mpr ⟨canonical, hcanonical, h.fits canonical hcanonical, rfl⟩⟩, h.generation⟩,
      h.rule⟩

end Document

section Source
variable {toml : TomlParser} {source : SourceBuffer} {limits : RulesLimits} {document : RulesDocument}

/-- **Which valid documents can be published.** A document that parses, and that the semantic phase reports no error
for, gets a blob that a device with every support admits exactly when some rule is left of its enabled apps and the core
library accepts what is left of them. -/
theorem published_iff (hdocument : (parseRulesDocument toml source limits).document = some document)
    (hexpanded : validateExpandedRuleLimit limits document.apps 0 = none)
    (hquiet : hasErrors (addDiagnostics limits [] ((document.apps.map
      (resolveApp limits (parseRulesDocument toml source limits).origins)).flatMap Prod.snd)) = false) :
    Published (compileRules toml source limits) ↔
      Publishable limits (parseRulesDocument toml source limits).origins document := by
  obtain ⟨hnil, hwell⟩ := parseRulesDocument_some hdocument
  have hresolved : (⟨document.compatibility.allowLegacyMount, (document.apps.map
      (resolveApp limits (parseRulesDocument toml source limits).origins)).map Prod.fst⟩ : ResolvedPolicy) =
        resolvedPolicy limits (parseRulesDocument toml source limits).origins document := by
    rw [resolvedPolicy, List.map_map]
    rfl
  rw [compileRules, compileParsed]
  simp only [hdocument, hnil, hexpanded, hresolved]
  rw [if_neg (by decide), if_neg (by rw [hquiet]; decide)]
  exact published_finishRules_iff hwell _ rfl

theorem published_iff_siblings :
    ∃ document, (parseRulesDocument siblingSources.toml siblingSources.source {}).document = some document ∧
      validateExpandedRuleLimit {} document.apps 0 = none ∧
      hasErrors (addDiagnostics {} [] ((document.apps.map (resolveApp {}
        (parseRulesDocument siblingSources.toml siblingSources.source {}).origins)).flatMap Prod.snd)) = false ∧
      (Published (compileRules siblingSources.toml siblingSources.source {}) ↔
        Publishable {} (parseRulesDocument siblingSources.toml siblingSources.source {}).origins document) := by
  have hsome : (parseRulesDocument siblingSources.toml siblingSources.source {}).document.isSome = true := by
    decide +kernel
  obtain ⟨document, hdocument⟩ := Option.isSome_iff_exists.mp hsome
  have hexpanded : ∀ document ∈ (parseRulesDocument siblingSources.toml siblingSources.source {}).document,
      validateExpandedRuleLimit {} document.apps 0 = none := by decide +kernel
  have hquiet : ∀ document ∈ (parseRulesDocument siblingSources.toml siblingSources.source {}).document,
      hasErrors (addDiagnostics {} [] ((document.apps.map (resolveApp {}
        (parseRulesDocument siblingSources.toml siblingSources.source {}).origins)).flatMap Prod.snd)) = false := by
    decide +kernel
  exact ⟨document, hdocument, hexpanded document hdocument, hquiet document hdocument,
    published_iff hdocument (hexpanded document hdocument) (hquiet document hdocument)⟩

end Source

/-! ## A document without an enabled app -/

namespace DisabledApp

def text : Bytes := ascii "format = 1\n[apps.\"a.b\"]\nenabled = false\n"

def tree : List (TomlKey × TomlNode) :=
  let header := Sample.region 2 1 13
  [(Sample.key "apps" 2 2, .table header false
      [(⟨ascii "a.b", Sample.region 2 7 12⟩, .table header false
        [(Sample.key "enabled" 3 1, .boolean (Sample.region 3 11 16) false)])]),
    (Sample.key "format" 1 1, .integer (Sample.region 1 10 11) 1)]

def toml : TomlParser := fun input _ => if input = text then .ok tree else .error (Sample.region 1 1 1)

def source : SourceBuffer := ⟨ascii "rules.toml", text, by decide +kernel⟩

end DisabledApp

/-- It is valid, and ends in the internal error. -/
theorem not_published_disabledApp :
    ∃ document, (parseRulesDocument DisabledApp.toml DisabledApp.source {}).document = some document ∧
      validateExpandedRuleLimit {} document.apps 0 = none ∧
      (document.apps.map (resolveApp {} (parseRulesDocument DisabledApp.toml DisabledApp.source {}).origins)).flatMap
        Prod.snd = [] ∧
      (compileRules DisabledApp.toml DisabledApp.source {}).diagnostics.map Diagnostic.code = [kPolicyEncode] ∧
      ¬ Published (compileRules DisabledApp.toml DisabledApp.source {}) := by
  have hsome : (parseRulesDocument DisabledApp.toml DisabledApp.source {}).document.isSome = true := by decide +kernel
  obtain ⟨document, hdocument⟩ := Option.isSome_iff_exists.mp hsome
  have hquiet : ∀ document ∈ (parseRulesDocument DisabledApp.toml DisabledApp.source {}).document,
      validateExpandedRuleLimit {} document.apps 0 = none ∧
        (document.apps.map (resolveApp {} (parseRulesDocument DisabledApp.toml DisabledApp.source {}).origins)).flatMap
          Prod.snd = [] := by decide +kernel
  have hencode : (compileRules DisabledApp.toml DisabledApp.source {}).diagnostics.map Diagnostic.code =
      [kPolicyEncode] := by decide +kernel
  have hnone : (compileRules DisabledApp.toml DisabledApp.source {}).blob = none := by decide +kernel
  refine ⟨document, hdocument, (hquiet document hdocument).1, (hquiet document hdocument).2, hencode, ?_⟩
  rintro ⟨blob, policy, hblob, -⟩
  rw [hnone] at hblob
  cases hblob

end PathGuard.Rules
