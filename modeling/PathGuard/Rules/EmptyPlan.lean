import PathGuard.Core.ContentBytes
import PathGuard.Core.PlanGeneration
import PathGuard.Rules.OrderIndependence
import PathGuard.Rules.PathForm
import PathGuard.Rules.Tools

/-!
# What an empty plan leaves unsaid

`BuildPolicyPlan` compares the deny and redirect rules of two policies; the content generation is a hash of all of a
policy. Between policies that were compiled the plan is empty exactly when they have the same rules. Then they can
still differ in their apps, users, processes, file pickers and in the legacy permission.

* `SameSettings` : what the plan does not compare;
* `policy_eq` : rules and settings make up the policy;
* `empty_plan_iff` : when an empty plan means an equal generation.
-/

namespace PathGuard.Rules

open PathGuard

/-! ## The parts of a policy -/

/-- What of an app the plan does not look at. -/
def appSettings (app : CanonicalAppPolicy) : Bytes × List Int × List Bytes × Bool :=
  (app.package, app.users, app.processes, app.filePicker)

/-- The policies have the same apps, rules apart, and the same legacy permission. -/
structure SameSettings (before after : CanonicalPolicy) : Prop where
  legacy : before.allowLegacyMount = after.allowLegacyMount
  apps : before.apps.map appSettings = after.apps.map appSettings

/-- The bytes whose hash is the content generation of the policy. -/
def policyContent (policy : CanonicalPolicy) : Bytes :=
  match canonicalizeDocument (toPolicyDocument policy) with
  | .error _ => []
  | .ok canonical => contentBytes canonical

/-- Different contents that FNV-1a does not tell apart. -/
def HashCollision (before after : CanonicalPolicy) : Prop :=
  policyContent before ≠ policyContent after ∧ fnv1a64 (policyContent before) = fnv1a64 (policyContent after)

/-- `CompileRules` has returned the policy, and a blob of this generation. -/
def Compiled (policy : CanonicalPolicy) (generation : UInt64) : Prop :=
  ∃ toml source limits blob, (compileRules toml source limits).canonical = some policy ∧
    (compileRules toml source limits).blob = some blob ∧ blob.contentGeneration = generation

/-! ## Compiled apps -/

def IsRulePath (path : NormalizedPath) : Prop := ∃ limits, normalizeRulePath limits path.bytes = some path

theorem IsRulePath.eq {a b : NormalizedPath} (ha : IsRulePath a) (hb : IsRulePath b) (h : a.bytes = b.bytes) : a = b := by
  obtain ⟨limits, ha⟩ := ha
  obtain ⟨limits', hb⟩ := hb
  obtain ⟨-, -, -, -, hoffsets⟩ := normalizeRulePath_some ha
  obtain ⟨-, -, -, -, hoffsets'⟩ := normalizeRulePath_some hb
  have hsame : a.componentOffsets = b.componentOffsets :=
    List.map_injective_iff.mpr (fun _ _ => UInt16.toNat_inj.mp) (by rw [hoffsets, hoffsets', h])
  obtain ⟨bytes, offsets⟩ := a
  obtain ⟨bytes', offsets'⟩ := b
  rw [NormalizedPath.mk.injEq]
  exact ⟨h, hsame⟩

/-- What every app of a compiled policy is like. -/
structure CompiledForm (app : CanonicalAppPolicy) : Prop where
  package : isPackageName app.package = true
  users_ne : app.users ≠ []
  users_range : ∀ user ∈ app.users, 0 ≤ user ∧ user ≤ 99999
  users_sorted : app.users.Pairwise (· ≤ ·)
  processes : ∀ process ∈ app.processes, isProcessName app.package process = true
  processes_sorted : app.processes.Pairwise (· ≤ ·)
  deny : ∀ path ∈ app.deny, IsRulePath path
  deny_sorted : app.deny.Pairwise fun a b => a.bytes ≤ b.bytes
  deny_nodup : (app.deny.map NormalizedPath.bytes).Nodup
  redirects : ∀ rule ∈ app.redirects, IsRulePath rule.source ∧ IsRulePath rule.target
  redirects_sorted : app.redirects.Pairwise fun a b => canonicalRedirectKey a ≤ canonicalRedirectKey b
  sources_nodup : (app.redirects.map fun rule => rule.source.bytes).Nodup

theorem pairwise_stdUnique {α : Type} [LinearOrder α] [DecidableEq α] (l : List α) :
    (stdUnique (sortOn id l)).Pairwise (· ≤ ·) :=
  (pairwise_sortOn id l).sublist (stdUnique_sublist _)

theorem compiledForm {limits : RulesLimits} {origins : OriginMap} {app : AppRules} (hwell : WellFormedApp app)
    (hcore : CoreAccepts limits origins app) : CompiledForm (canonicalApp (resolveApp limits origins app).1) where
  package := hwell.package
  users_ne := by
    obtain ⟨user, huser⟩ := List.exists_mem_of_ne_nil _ hwell.users_ne_nil
    exact List.ne_nil_of_mem (mem_canonicalApp_users.mpr huser)
  users_range user huser := hwell.users_range user (mem_canonicalApp_users.mp huser)
  users_sorted := pairwise_stdUnique _
  processes process hprocess := hwell.processes process (mem_canonicalApp_processes.mp hprocess)
  processes_sorted := pairwise_stdUnique _
  deny path hpath := by
    rw [canonicalApp_deny] at hpath
    obtain ⟨rule, hrule, rfl⟩ := List.mem_map.mp hpath
    obtain ⟨original, -, -, hnormal⟩ := deny_of_mem limits origins app hrule
    exact ⟨limits, by rwa [normalizeRulePath_bytes hnormal]⟩
  deny_sorted := pairwise_sortOn _ _
  deny_nodup := by
    rw [canonicalApp_deny, List.map_map]
    exact hcore.distinct.of_append_left
  redirects rule hrule := by
    rw [canonicalApp_redirects] at hrule
    obtain ⟨resolved, hresolved, rfl⟩ := List.mem_map.mp hrule
    obtain ⟨original, -, -, hsource, htarget⟩ := redirect_of_mem limits origins app hresolved
    exact ⟨⟨limits, by rw [canonicalRedirect, normalizeRulePath_bytes hsource]; exact hsource⟩,
      ⟨limits, by rw [canonicalRedirect, normalizeRulePath_bytes htarget]; exact htarget⟩⟩
  redirects_sorted := pairwise_sortOn _ _
  sources_nodup := by
    rw [canonicalApp_redirects, List.map_map]
    exact hcore.distinct.of_append_right

/-! ## The settings of an app are in its canonical form -/

/-- The settings, read back. -/
def decodedSettings (app : AppPolicy) : Bytes × List Int × List Bytes × Bool :=
  (app.package, sortOn id (app.users.map fun user => (userSortKey user : Int)),
    if app.processes = [ascii "*"] then [] else sortOn id app.processes, app.providerCompat == .virtualize)

theorem users_decoded {app : CanonicalAppPolicy} (h : CompiledForm app) {users : List Bytes}
    (hperm : users.Perm (orStar (app.users.map toDecimal))) :
    sortOn id (users.map fun user => (userSortKey user : Int)) = app.users := by
  have hne : (app.users.map toDecimal).isEmpty = false := by simpa using h.users_ne
  have hvalues : (app.users.map toDecimal).map (fun user => (userSortKey user : Int)) = app.users := by
    rw [List.map_map]
    refine (List.map_congr_left fun user huser => ?_).trans (List.map_id _)
    obtain ⟨hlow, hhigh⟩ := h.users_range user huser
    rw [Function.comp_apply, userSortKey, fromCharsUnsigned_toDecimal hlow hhigh, Option.getD_some]
    exact Int.toNat_of_nonneg hlow
  have hnumbers := hperm.map fun user => (userSortKey user : Int)
  rw [orStar, hne, if_neg Bool.false_ne_true, hvalues] at hnumbers
  exact (sortOn_eq_of_perm hnumbers fun _ _ _ _ heq => heq).trans (sortOn_of_pairwise h.users_sorted)

theorem processes_decoded {app : CanonicalAppPolicy} (h : CompiledForm app) {processes : List Bytes}
    (hperm : processes.Perm (orStar app.processes)) :
    (if processes = [ascii "*"] then [] else sortOn id processes) = app.processes := by
  have hstar : ascii "*" ∉ app.processes := fun hmem => by
    have hname := h.processes _ hmem
    rw [isProcessName_star h.package] at hname
    cases hname
  unfold orStar at hperm
  split at hperm
  · next hempty =>
    rw [if_pos (List.perm_singleton.mp hperm), List.isEmpty_iff.mp hempty]
  · have hne : processes ≠ [ascii "*"] := by
      rintro rfl
      exact hstar (hperm.mem_iff.mp (List.mem_singleton_self _))
    rw [if_neg hne]
    exact (sortOn_eq_of_perm hperm fun _ _ _ _ heq => heq).trans (sortOn_of_pairwise h.processes_sorted)

theorem decodedSettings_eq {app : CanonicalAppPolicy} (h : CompiledForm app) {out : AppPolicy}
    (hout : validatePolicy (toAppPolicy app) = .ok out) : decodedSettings out = appSettings app := by
  obtain ⟨hpackage, -, husers, hprocesses, -⟩ := validatePolicy_strings hout
  have hprovider : out.providerCompat = (toAppPolicy app).providerCompat := by
    obtain ⟨-, users, mounts, root, events, -, -, -, -, -, rfl⟩ := validatePolicy_ok_iff.mp hout
    rfl
  have hpicker : (out.providerCompat == .virtualize) = app.filePicker := by
    rw [hprovider, toAppPolicy]
    cases app.filePicker <;> rfl
  rw [decodedSettings, appSettings, hpackage, users_decoded h husers, processes_decoded h hprocesses, hpicker]
  rfl

/-! ## Compiled policies -/

/-- What every compiled policy is like, and what its document is. -/
structure CompiledPolicy (policy : CanonicalPolicy) (document : PolicyDocument) : Prop where
  apps : ∀ app ∈ policy.apps, CompiledForm app
  packages : (policy.apps.map CanonicalAppPolicy.package).Nodup
  sorted : policy.apps.Pairwise fun a b => a.package ≤ b.package
  canonicalized : canonicalizeDocument (toPolicyDocument policy) = .ok document
  canonical : Canonical document

theorem generation_of_encodeAndVerify {policy : CanonicalPolicy} {blob : PolicyBlob}
    (h : encodeAndVerify policy = some blob) :
    blob.contentGeneration = computeContentGeneration (toPolicyDocument policy) := by
  unfold encodeAndVerify at h
  split at h
  · cases h
  · simp only at h
    split at h
    · rw [← Option.some.inj h]
    · cases h

theorem Compiled.exists_document {policy : CanonicalPolicy} {generation : UInt64} (h : Compiled policy generation) :
    ∃ document, CompiledPolicy policy document ∧ generation = contentGeneration document := by
  obtain ⟨toml, source, limits, blob, hcanonical, hblob, rfl⟩ := h
  obtain ⟨document, haccepted⟩ := accepted_of_ok (compileParsed_of_canonical hcanonical).1
  have hwell := (parseRulesDocument_some haccepted.parsed_document).2
  obtain rfl : _ = policy := Option.some.inj (haccepted.canonical.symm.trans hcanonical)
  obtain ⟨blob', hblob', hencode⟩ := haccepted.blob
  obtain rfl : blob' = blob := Option.some.inj (hblob'.symm.trans hblob)
  obtain ⟨canonical, hcompiled, -⟩ := compiledFrom_of_encodePolicy hwell (encodePolicy_of_encodeAndVerify hencode)
  obtain ⟨-, hpackages, hcore⟩ := (canonicalizes_iff hwell).mp ⟨canonical, hcompiled.canonicalized⟩
  refine ⟨canonical, ⟨?_, ?_, pairwise_sortOn _ _, hcompiled.canonicalized, hcompiled.isCanonical⟩, ?_⟩
  · rw [forall_canonicalPolicy]
    intro app happ henabled
    exact compiledForm (hwell app happ) (hcore app (List.mem_filter.mpr ⟨happ, henabled⟩))
  · have hperm := (canonicalPolicy_apps_perm limits (parseRulesDocument toml source limits).origins document).map
      AppPolicy.package
    rw [List.map_map, toPolicyDocument, List.map_map] at hperm
    exact hperm.nodup_iff.mp hpackages
  · rw [generation_of_encodeAndVerify hencode, computeContentGeneration, hcompiled.canonicalized]

/-! ## The rules of an app are in the plan -/

theorem planKey_inj {package package' source source' : Bytes} {kind kind' : PolicyRuleKind} :
    planKey package kind source = planKey package' kind' source' ↔
      package = package' ∧ kind = kind' ∧ source = source' := by
  rw [planKey, planKey, toLex_inj, Prod.mk.injEq, toLex_inj, Prod.mk.injEq]

theorem mem_keyedRules {app : CanonicalAppPolicy} {package source target : Bytes} {kind : PolicyRuleKind} :
    (planKey package kind source, target) ∈ keyedRules app ↔
      (kind = .deny ∧ package = app.package ∧ target = [] ∧ ∃ path ∈ app.deny, path.bytes = source) ∨
        (kind = .redirect ∧ package = app.package ∧
          ∃ rule ∈ app.redirects, rule.source.bytes = source ∧ rule.target.bytes = target) := by
  simp only [keyedRules, List.mem_append, List.mem_map, Prod.mk.injEq, planKey_inj]
  constructor
  · rintro (⟨path, hpath, ⟨rfl, rfl, rfl⟩, rfl⟩ | ⟨rule, hrule, ⟨rfl, rfl, rfl⟩, rfl⟩)
    · exact Or.inl ⟨rfl, rfl, rfl, path, hpath, rfl⟩
    · exact Or.inr ⟨rfl, rfl, rule, hrule, rfl, rfl⟩
  · rintro (⟨rfl, rfl, rfl, path, hpath, rfl⟩ | ⟨rfl, rfl, rule, hrule, rfl, rfl⟩)
    · exact Or.inl ⟨path, hpath, ⟨rfl, rfl, rfl⟩, rfl⟩
    · exact Or.inr ⟨rule, hrule, ⟨rfl, rfl, rfl⟩, rfl⟩

theorem CompiledForm.target_unique {app : CanonicalAppPolicy} (h : CompiledForm app)
    {package source target target' : Bytes} {kind : PolicyRuleKind}
    (hmem : (planKey package kind source, target) ∈ keyedRules app)
    (hmem' : (planKey package kind source, target') ∈ keyedRules app) : target = target' := by
  rw [mem_keyedRules] at hmem hmem'
  rcases hmem with ⟨rfl, -, rfl, -⟩ | ⟨rfl, -, rule, hrule, hsource, rfl⟩
  · rcases hmem' with ⟨-, -, rfl, -⟩ | ⟨hkind, -⟩
    · rfl
    · cases hkind
  · rcases hmem' with ⟨hkind, -⟩ | ⟨-, -, rule', hrule', hsource', rfl⟩
    · cases hkind
    · rw [List.inj_on_of_nodup_map h.sources_nodup hrule hrule' (hsource.trans hsource'.symm)]

theorem CompiledPolicy.ruleMap_eq_some_iff {policy : CanonicalPolicy} {document : PolicyDocument}
    (h : CompiledPolicy policy document) {app : CanonicalAppPolicy} (happ : app ∈ policy.apps) {source target : Bytes}
    {kind : PolicyRuleKind} : ruleMap policy (planKey app.package kind source) = some target ↔
      (planKey app.package kind source, target) ∈ keyedRules app := by
  have hown : ∀ {other}, (planKey app.package kind source, other) ∈ policy.apps.flatMap keyedRules →
      (planKey app.package kind source, other) ∈ keyedRules app := by
    intro other hother
    obtain ⟨app', happ', hrule⟩ := List.mem_flatMap.mp hother
    have hpackage : app.package = app'.package := by
      rcases mem_keyedRules.mp hrule with ⟨-, hpackage, -⟩ | ⟨-, hpackage, -⟩ <;> exact hpackage
    obtain rfl := List.inj_on_of_nodup_map h.packages happ happ' hpackage
    exact hrule
  constructor
  · intro hbound
    exact hown (OrderedMap.exists_entry_of_bound hbound)
  · intro hmem
    refine OrderedMap.bound_of_entry (List.mem_flatMap.mpr ⟨app, happ, hmem⟩) fun other hother => ?_
    exact (h.apps app happ).target_unique (hown hother) hmem

section Apps
variable {app app' : CanonicalAppPolicy} (h : CompiledForm app) (h' : CompiledForm app')
include h h'

theorem deny_subset (hkeys : ∀ kind source target, (planKey app.package kind source, target) ∈ keyedRules app →
    (planKey app.package kind source, target) ∈ keyedRules app') : app.deny ⊆ app'.deny := by
  intro path hpath
  have hmem := hkeys .deny path.bytes [] (mem_keyedRules.mpr (Or.inl ⟨rfl, rfl, rfl, path, hpath, rfl⟩))
  rcases mem_keyedRules.mp hmem with ⟨-, -, -, path', hpath', hbytes⟩ | ⟨hkind, -⟩
  · rwa [(h.deny path hpath).eq (h'.deny path' hpath') hbytes.symm]
  · cases hkind

theorem redirects_subset (hkeys : ∀ kind source target, (planKey app.package kind source, target) ∈ keyedRules app →
    (planKey app.package kind source, target) ∈ keyedRules app') : app.redirects ⊆ app'.redirects := by
  intro rule hrule
  have hmem := hkeys .redirect rule.source.bytes rule.target.bytes
    (mem_keyedRules.mpr (Or.inr ⟨rfl, rfl, rule, hrule, rfl, rfl⟩))
  rcases mem_keyedRules.mp hmem with ⟨hkind, -⟩ | ⟨-, -, rule', hrule', hsource, htarget⟩
  · cases hkind
  · obtain ⟨hs, ht⟩ := h.redirects rule hrule
    obtain ⟨hs', ht'⟩ := h'.redirects rule' hrule'
    have heq : rule = rule' := by
      obtain ⟨source, target⟩ := rule
      obtain ⟨source', target'⟩ := rule'
      rw [CanonicalRedirectRule.mk.injEq]
      exact ⟨hs.eq hs' hsource.symm, ht.eq ht' htarget.symm⟩
    rwa [heq]

end Apps

theorem CompiledForm.redirectKeys_nodup {app : CanonicalAppPolicy} (h : CompiledForm app) :
    (app.redirects.map canonicalRedirectKey).Nodup := by
  refine List.Nodup.of_map (fun key : Bytes ×ₗ Bytes => (ofLex key).1) ?_
  rw [List.map_map]
  exact h.sources_nodup

theorem app_eq {app app' : CanonicalAppPolicy} (h : CompiledForm app) (h' : CompiledForm app')
    (hsettings : appSettings app = appSettings app')
    (hkeys : ∀ kind source target, (planKey app.package kind source, target) ∈ keyedRules app ↔
      (planKey app.package kind source, target) ∈ keyedRules app') : app = app' := by
  have hpackage : app.package = app'.package := congrArg Prod.fst hsettings
  have hdeny : app.deny = app'.deny := by
    refine eq_of_subset_of_pairwise h.deny_sorted h'.deny_sorted h.deny_nodup h'.deny_nodup
      (deny_subset h h' fun kind source target => (hkeys kind source target).mp) ?_
    exact deny_subset h' h fun kind source target => hpackage ▸ (hkeys kind source target).mpr
  have hredirects : app.redirects = app'.redirects := by
    refine eq_of_subset_of_pairwise h.redirects_sorted h'.redirects_sorted h.redirectKeys_nodup h'.redirectKeys_nodup
      (redirects_subset h h' fun kind source target => (hkeys kind source target).mp) ?_
    exact redirects_subset h' h fun kind source target => hpackage ▸ (hkeys kind source target).mpr
  obtain ⟨package, users, processes, filePicker, deny, redirects⟩ := app
  obtain ⟨package', users', processes', filePicker', deny', redirects'⟩ := app'
  simp only [appSettings, Prod.mk.injEq] at hsettings
  rw [CanonicalAppPolicy.mk.injEq]
  exact ⟨hsettings.1, hsettings.2.1, hsettings.2.2.1, hsettings.2.2.2, hdeny, hredirects⟩

/-! ## The whole policy -/

section Policy
variable {policy : CanonicalPolicy} {document : PolicyDocument}

theorem CompiledPolicy.policyContent_eq (h : CompiledPolicy policy document) :
    policyContent policy = contentBytes document := by
  rw [policyContent, h.canonicalized]

theorem CompiledPolicy.legacy (h : CompiledPolicy policy document) :
    document.allowLegacyStringBind = policy.allowLegacyMount := by
  obtain ⟨-, -, -, -, heq⟩ := canonicalizeDocument_ok_iff.mp h.canonicalized
  rw [heq]
  rfl

theorem CompiledPolicy.settings (h : CompiledPolicy policy document) :
    (contentApps document).map decodedSettings = policy.apps.map appSettings := by
  obtain ⟨-, -, -, happs, -⟩ := canonicalizeDocument_ok_iff.mp h.canonicalized
  have hvalid := (canonicalizeApps_ok_iff.mp happs).1
  rw [toPolicyDocument, List.forall₂_map_left_iff] at hvalid
  have hpackages : policy.apps.map CanonicalAppPolicy.package = document.apps.map AppPolicy.package :=
    map_eq_of_forall₂ hvalid fun app _ out hout => (validatePolicy_strings hout.1).1.symm
  have hsorted : document.apps.Pairwise fun a b => a.package ≤ b.package := by
    have hpairwise := List.pairwise_map.mpr h.sorted
    rw [hpackages] at hpairwise
    exact List.pairwise_map.mp hpairwise
  rw [contentApps, sortOn_of_pairwise hsorted, List.map_map]
  exact (map_eq_of_forall₂ hvalid fun app happ out hout => (decodedSettings_eq (h.apps app happ) hout.1).symm).symm

end Policy

section Plan
variable {before after : CanonicalPolicy} {document document' : PolicyDocument}

theorem buildPolicyPlan_eq_nil_iff : buildPolicyPlan before after = [] ↔ ruleMap before = ruleMap after := by
  rw [← (editsBetween_buildPolicyPlan before after).eq_nil_iff, List.map_eq_nil_iff]

/-- Policies with the same rules and the same settings are the same. -/
theorem policy_eq (h : CompiledPolicy before document) (h' : CompiledPolicy after document')
    (hrules : ruleMap before = ruleMap after) (hsame : SameSettings before after) : before = after := by
  have hlength : before.apps.length = after.apps.length := by
    simpa only [List.length_map] using congrArg List.length hsame.apps
  have happs : before.apps = after.apps := by
    refine List.ext_getElem hlength fun i hi hi' => ?_
    have hsettings : appSettings before.apps[i] = appSettings after.apps[i] := by
      have hget := congrArg (fun settings => settings[i]?) hsame.apps
      simpa [hi, hi'] using hget
    have hpackage : before.apps[i].package = after.apps[i].package := congrArg Prod.fst hsettings
    refine app_eq (h.apps _ (List.getElem_mem hi)) (h'.apps _ (List.getElem_mem hi')) hsettings
      fun kind source target => ?_
    rw [← h.ruleMap_eq_some_iff (List.getElem_mem hi), hrules, hpackage,
      h'.ruleMap_eq_some_iff (List.getElem_mem hi')]
  obtain ⟨legacy, apps⟩ := before
  obtain ⟨legacy', apps'⟩ := after
  rw [CanonicalPolicy.mk.injEq]
  exact ⟨hsame.legacy, happs⟩

theorem sameSettings_of_content (h : CompiledPolicy before document) (h' : CompiledPolicy after document')
    (hcontent : policyContent before = policyContent after) : SameSettings before after := by
  rw [h.policyContent_eq, h'.policyContent_eq, h.canonical.contentBytes_eq_iff h'.canonical] at hcontent
  refine ⟨?_, ?_⟩
  · rw [← h.legacy, ← h'.legacy, hcontent.1]
  · rw [← h.settings, ← h'.settings, hcontent.2]

/-- **What an empty plan says.** Between compiled policies an empty plan means that publishing changes nothing exactly
when the rules differ, so that it is not empty, or the settings it does not look at are the same; and the generations
are the same in these cases, or when FNV-1a does not tell the two contents apart. -/
theorem empty_plan_iff {generation generation' : UInt64} (hbefore : Compiled before generation)
    (hafter : Compiled after generation') :
    ((buildPolicyPlan before after = [] → policyContent before = policyContent after) ↔
        ruleMap before ≠ ruleMap after ∨ SameSettings before after) ∧
      ((buildPolicyPlan before after = [] → generation = generation') ↔
        ruleMap before ≠ ruleMap after ∨ SameSettings before after ∨ HashCollision before after) := by
  obtain ⟨document, h, rfl⟩ := hbefore.exists_document
  obtain ⟨document', h', rfl⟩ := hafter.exists_document
  rw [buildPolicyPlan_eq_nil_iff, contentGeneration_eq, contentGeneration_eq, ← h.policyContent_eq,
    ← h'.policyContent_eq]
  have hsame : ruleMap before = ruleMap after →
      (policyContent before = policyContent after ↔ SameSettings before after) := fun hrules =>
    ⟨sameSettings_of_content h h', fun hsettings => congrArg policyContent (policy_eq h h' hrules hsettings)⟩
  by_cases hrules : ruleMap before = ruleMap after
  · have hiff := hsame hrules
    have hhash : fnv1a64 (policyContent before) = fnv1a64 (policyContent after) ↔
        policyContent before = policyContent after ∨ HashCollision before after := by
      constructor
      · intro heq
        by_cases hcontent : policyContent before = policyContent after
        · exact Or.inl hcontent
        · exact Or.inr ⟨hcontent, heq⟩
      · rintro (hcontent | hcollision)
        · rw [hcontent]
        · exact hcollision.2
    simp only [hrules, ne_eq, not_true_eq_false, false_or, true_implies, hhash, hiff, and_self]
  · simp only [hrules, ne_eq, not_false_eq_true, true_or, false_implies, and_self]

end Plan

/-! ## Two texts for different users -/

namespace OneUser

def text (user : Nat) : Bytes :=
  ascii "format = 1\n[apps.\"a.b\"]\nusers = [" ++ decimalBytes user ++ ascii "]\ndeny = [\"DCIM\"]\n"

/-- The tree for a user of one digit. -/
def tree (user : Nat) : List (TomlKey × TomlNode) :=
  let header := Sample.region 2 1 13
  let users := .array (Sample.region 3 9 12) [.integer (Sample.region 3 10 11) user]
  let deny := .array (Sample.region 4 8 16) [.string (Sample.region 4 9 15) (ascii "DCIM")]
  [(Sample.key "apps" 2 2, .table header false
      [(⟨ascii "a.b", Sample.region 2 7 12⟩, .table header false
        [(Sample.key "deny" 4 1, deny), (Sample.key "users" 3 1, users)])]),
    (Sample.key "format" 1 1, .integer (Sample.region 1 10 11) 1)]

def toml (user : Nat) : TomlParser := fun input _ =>
  if input = text user then .ok (tree user) else .error (Sample.region 1 1 1)

def source (user : Nat) (h : (text user).length < 2 ^ 32 := by decide +kernel) : SourceBuffer :=
  ⟨ascii "rules.toml", text user, h⟩

def policy (user : Int) : CanonicalPolicy where
  allowLegacyMount := false
  apps := [{ package := ascii "a.b", users := [user], processes := [], filePicker := false
             deny := [⟨ascii "DCIM", [0]⟩], redirects := [] }]

theorem compiled_of {user : Nat} {hlength : (text user).length < 2 ^ 32} {generation : UInt64}
    (hcanonical : (compileRules (toml user) (source user hlength) {}).canonical = some (policy user))
    (hgeneration : (compileRules (toml user) (source user hlength) {}).blob.map PolicyBlob.contentGeneration =
      some generation) : Compiled (policy user) generation := by
  obtain ⟨blob, hblob, hvalue⟩ := Option.map_eq_some_iff.mp hgeneration
  exact ⟨toml user, source user hlength, {}, blob, hcanonical, hblob, hvalue⟩

theorem compiled_zero : Compiled (policy 0) 13860118424144014396 :=
  @compiled_of 0 (by decide +kernel) _ (by decide +kernel) (by decide +kernel)

theorem compiled_one : Compiled (policy 1) 17026783787173855531 :=
  @compiled_of 1 (by decide +kernel) _ (by decide +kernel) (by decide +kernel)

end OneUser

/-- The plan between the two is empty, and the generations are different. -/
theorem empty_plan_users :
    ¬ ∀ before after generation generation', Compiled before generation → Compiled after generation' →
      buildPolicyPlan before after = [] → generation = generation' := by
  intro h
  have hplan : buildPolicyPlan (OneUser.policy 0) (OneUser.policy 1) = [] := buildPolicyPlan_eq_nil_iff.mpr rfl
  exact absurd (h _ _ _ _ OneUser.compiled_zero OneUser.compiled_one hplan) (by decide)

theorem empty_plan_iff_users :
    ((buildPolicyPlan (OneUser.policy 0) (OneUser.policy 1) = [] →
        policyContent (OneUser.policy 0) = policyContent (OneUser.policy 1)) ↔
          ruleMap (OneUser.policy 0) ≠ ruleMap (OneUser.policy 1) ∨
            SameSettings (OneUser.policy 0) (OneUser.policy 1)) ∧
      ((buildPolicyPlan (OneUser.policy 0) (OneUser.policy 1) = [] →
        (13860118424144014396 : UInt64) = 17026783787173855531) ↔
          ruleMap (OneUser.policy 0) ≠ ruleMap (OneUser.policy 1) ∨
            SameSettings (OneUser.policy 0) (OneUser.policy 1) ∨
            HashCollision (OneUser.policy 0) (OneUser.policy 1)) :=
  empty_plan_iff OneUser.compiled_zero OneUser.compiled_one

end PathGuard.Rules
