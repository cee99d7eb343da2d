import PathGuard.Zygisk.CompiledPlan

/-!
# The meaning of path strings

In the rules format braces are ordinary characters. The stages after the compiler read them as placeholders, so a
redirect keeps its target only if there is none in it.

* `KeepsMeaning` : every stage leads to the written target; `PlainRule` : no placeholder in it;
* `keepsMeaning_of_compiled` : the one exactly when the other, for every compiled app.
-/

namespace PathGuard.Zygisk

open Rules

/-! ## Targets without placeholders -/

theorem backing_eq_iff {input package output : Bytes} (h : normalizeBacking input package = some output) :
    output = input ↔ onlyUserBraces 0 input = true := by
  constructor
  · rintro rfl
    exact (backing_of_normalize h).2
  · intro hbraces
    obtain ⟨expanded, hexpand, hnormal⟩ := Option.bind_eq_some_iff.mp h
    obtain ⟨rfl, -⟩ := normalizeLogicalPath_some hnormal
    obtain ⟨-, hreplaced, -⟩ := expandPathPlaceholders_iff.mp hexpand
    rw [← hreplaced, replacePackage_of_onlyUserBraces package hbraces (by simp)]

theorem fitsPlan_of_perm {userId : Nat} {app other : AppPolicy}
    (h : (app.mounts.map (plannedRule userId)).Perm (other.mounts.map (plannedRule userId))) :
    FitsPlan userId app ↔ FitsPlan userId other := by
  have hlength := h.length_eq
  have hsum := (h.map arenaBytes).sum_nat
  rw [List.length_map, List.length_map] at hlength
  constructor
  · rintro ⟨hne, hle, harena⟩
    exact ⟨hlength ▸ hne, hlength ▸ hle, hsum ▸ harena⟩
  · rintro ⟨hne, hle, harena⟩
    exact ⟨hlength ▸ hne, hlength ▸ hle, hsum ▸ harena⟩

section App
variable {limits : RulesLimits} {origins : OriginMap} {app : AppRules} {out : AppPolicy}

theorem exists_rule_of_redirect (hout : validatePolicy (compiledApp limits origins app) = .ok out)
    {mount : LogicalMountRule} (hmount : mount ∈ out.mounts) (haction : mount.action = .redirect) :
    ∃ rule ∈ app.redirects, passesRedirect limits rule = true ∧ mount.visiblePath = rule.source ∧
      normalizeBacking rule.target app.package = some mount.backingPath := by
  obtain ⟨original, horiginal, hnormal⟩ := (mem_mounts_of_validatePolicy hout).mp hmount
  have horiginalAction := normalRule_action hnormal
  obtain ⟨deny, -, rfl⟩ | ⟨redirect, hredirect, rfl⟩ := mem_compiledApp_mounts.mp horiginal
  · rw [haction] at horiginalAction
    cases horiginalAction
  · obtain ⟨rule, hrule, hpasses, hsource, htarget⟩ := redirect_of_mem limits origins app hredirect
    refine ⟨rule, hrule, hpasses, ?_, ?_⟩
    · rw [normalRule_visiblePath hnormal (by simp), normalizeRulePath_bytes hsource]
    · rw [← normalizeRulePath_bytes htarget]
      exact normalRule_backingPath hnormal rfl

theorem exists_redirect_of_rule (hout : validatePolicy (compiledApp limits origins app) = .ok out) {rule : RedirectRule}
    (hrule : rule ∈ app.redirects) (hpasses : passesRedirect limits rule = true) :
    ∃ mount ∈ out.mounts, mount.action = .redirect ∧ mount.visiblePath = rule.source ∧
      normalizeBacking rule.target app.package = some mount.backingPath := by
  obtain ⟨resolved, hresolved, hsource, htarget⟩ := mem_of_redirect limits origins app hrule hpasses
  obtain ⟨mount, hmount, hnormal⟩ := exists_mem_mounts_of_validatePolicy hout
    (mem_compiledApp_mounts.mpr (Or.inr ⟨resolved, hresolved, rfl⟩))
  refine ⟨mount, hmount, normalRule_action hnormal, ?_, ?_⟩
  · rw [normalRule_visiblePath hnormal (by simp), ← hsource]
  · rw [← htarget]
    exact normalRule_backingPath hnormal rfl

theorem redirect_unique (hout : validatePolicy (compiledApp limits origins app) = .ok out)
    {a b : LogicalMountRule} (ha : a ∈ out.mounts) (hb : b ∈ out.mounts) (hactionA : a.action = .redirect)
    (hactionB : b.action = .redirect) (h : a.visiblePath = b.visiblePath) : a = b := by
  obtain ⟨-, users, mounts, root, events, -, hmounts, -, -, -, rfl⟩ := validatePolicy_ok_iff.mp hout
  obtain ⟨-, hnodup, -⟩ := normalizeMounts_ok_iff.mp hmounts
  refine List.inj_on_of_nodup_map hnodup ?_ ?_ h
  · exact List.mem_filter.mpr ⟨mem_sortOn.mp ha, by simp [isIsolate, hactionA]⟩
  · exact List.mem_filter.mpr ⟨mem_sortOn.mp hb, by simp [isIsolate, hactionB]⟩

/-- Without `{package}` the canonical mounts are those the compiler wrote down. -/
theorem plannedRules_perm (hout : validatePolicy (compiledApp limits origins app) = .ok out)
    (hplain : ∀ rule ∈ app.redirects, onlyUserBraces 0 rule.target = true) (userId : Nat) :
    (out.mounts.map (plannedRule userId)).Perm ((compiledApp limits origins app).mounts.map (plannedRule userId)) := by
  obtain ⟨-, users, mounts, root, events, -, hmounts, -, -, -, rfl⟩ := validatePolicy_ok_iff.mp hout
  obtain ⟨hforall, -⟩ := normalizeMounts_ok_iff.mp hmounts
  refine ((sortOn_perm mountSortKey mounts).map _).trans (List.Perm.of_eq ?_)
  refine (map_eq_of_forall₂ hforall fun original horiginal rule hnormal => ?_).symm
  have haction := normalRule_action hnormal
  obtain ⟨deny, -, rfl⟩ | ⟨redirect, hredirect, rfl⟩ := mem_compiledApp_mounts.mp horiginal
  · have hvisible := normalRule_visiblePath hnormal (by simp)
    rw [normalRule, if_neg (by simp)] at hnormal
    obtain ⟨visible, -, hbacking⟩ := Option.bind_eq_some_iff.mp hnormal
    obtain ⟨backing, hdeny, rfl⟩ := Option.map_eq_some_iff.mp hbacking
    obtain rfl := Option.some.inj hdeny
    rw [plannedRule, plannedRule, hvisible]
  · obtain ⟨original, horiginal, -, -, htarget⟩ := redirect_of_mem limits origins app hredirect
    have hbacking := normalRule_backingPath hnormal rfl
    have hsame := (backing_eq_iff hbacking).mpr (by
      rw [normalizeRulePath_bytes htarget]
      exact hplain original horiginal)
    rw [plannedRule, plannedRule, haction, normalRule_visiblePath hnormal (by simp), hsame]

end App

/-! ## Rules that keep their meaning -/

/-- The decoded policy, and every plan that is made for the app, have the redirect with the bytes of the rule. -/
structure KeepsMeaning (bytes : Bytes) (decoded : PolicyDocument) (app : AppRules) (rule : RedirectRule) : Prop where
  decoded : ∃ out ∈ decoded.apps, out.package = app.package ∧
    ∃ mount ∈ out.mounts, mount.action = .redirect ∧ mount.visiblePath = rule.source ∧ mount.backingPath = rule.target
  planned : ∀ (process : CString) uid plan, loadProcessPlan bytes process uid = .ok plan →
    app.package = process.bytes.takeWhile (· ≠ colon) →
      ∃ mount ∈ plan.mounts, mount.action = .redirect ∧ mount.visiblePath = rule.source ∧
        mount.backingPath = rule.target

/-- Some process of the app has a plan for some user. -/
def Reaches (limits : RulesLimits) (origins : OriginMap) (app : AppRules) : Prop :=
  ∃ (process : CString) (uid : Uid), process.bytes.length < kMaxProcessNameBytes ∧ Covers app process.bytes uid ∧
    FitsPlan uid.user (compiledApp limits origins app)

/-- The rule passes the path checks, and no later stage finds a placeholder in its target: the encoder no `{package}`,
and the reader no `{user}`, if it ever makes a plan for the app. -/
structure PlainRule (limits : RulesLimits) (origins : OriginMap) (app : AppRules) (rule : RedirectRule) : Prop where
  passes : passesRedirect limits rule = true
  package_free : onlyUserBraces 0 rule.target = true
  user_free : Reaches limits origins app → openBrace ∉ rule.target

section Document
variable {limits : RulesLimits} {origins : OriginMap} {document : RulesDocument} {canonical : PolicyDocument}

theorem mem_decodedDocument_apps {out : AppPolicy} :
    out ∈ (decodedDocument canonical).apps ↔ ∃ app ∈ canonical.apps, app.clearLines = out := by
  rw [decodedDocument, List.mem_map]
  exact exists_congr fun app => and_congr_left fun _ => mem_sortOn

theorem keepsMeaning_iff (h : CompiledFrom limits origins document canonical)
    (hwell : ∀ app ∈ document.apps, WellFormedApp app) {app : AppRules} (happ : app ∈ enabledApps document) :
    (∀ rule ∈ app.redirects, KeepsMeaning (policyFile canonical) (decodedDocument canonical) app rule) ↔
      ∀ rule ∈ app.redirects, PlainRule limits origins app rule := by
  obtain ⟨out, hmem, hout⟩ := h.exists_valid happ
  have hpackage : out.package = app.package := (validatePolicy_strings hout).1
  constructor
  · intro hkeeps
    have hdecoded : ∀ rule ∈ app.redirects, ∃ mount ∈ out.mounts, mount.action = .redirect ∧
        mount.visiblePath = rule.source ∧ mount.backingPath = rule.target := by
      intro rule hrule
      obtain ⟨cleared, hcleared, hsame, mount, hmount, hredirect⟩ := (hkeeps rule hrule).decoded
      obtain ⟨other, hother, rfl⟩ := mem_decodedDocument_apps.mp hcleared
      obtain rfl : other = out := List.inj_on_of_nodup_map h.isCanonical.nodup hother hmem (hsame.trans hpackage.symm)
      obtain ⟨original, horiginal, rfl⟩ := List.mem_map.mp hmount
      exact ⟨original, horiginal, hredirect⟩
    -- the redirect that stands for a rule comes from a rule with the same source, whose target is then the same too
    have hplain : ∀ rule ∈ app.redirects, passesRedirect limits rule = true ∧ onlyUserBraces 0 rule.target = true := by
      intro rule hrule
      obtain ⟨mount, hmount, haction, hsource, htarget⟩ := hdecoded rule hrule
      obtain ⟨other, hother, hpasses, hotherSource, hotherTarget⟩ := exists_rule_of_redirect hout hmount haction
      obtain ⟨otherMount, hotherMount, hotherAction, hvisible, hbacking⟩ := hdecoded other hother
      obtain rfl : mount = otherMount := redirect_unique hout hmount hotherMount haction hotherAction
        (hotherSource.trans hvisible.symm)
      have hsameTarget : other.target = rule.target := hbacking.symm.trans htarget
      have hsameSource : other.source = rule.source := hotherSource.symm.trans hsource
      rw [passesRedirect, hsameSource, hsameTarget] at hpasses
      refine ⟨hpasses, ?_⟩
      rw [hsameTarget] at hotherTarget
      exact (backing_eq_iff hotherTarget).mp htarget
    intro rule hrule
    refine ⟨(hplain rule hrule).1, (hplain rule hrule).2, fun hreaches => ?_⟩
    obtain ⟨process, uid, hlength, hcovers, hfits⟩ := hreaches
    have hroom := (fitsPlan_of_perm (plannedRules_perm hout (fun rule hrule => (hplain rule hrule).2) uid.user)).mpr hfits
    have hload := (loadProcessPlan_compiled_iff h hwell happ hout hcovers.package uid).mpr ⟨hlength, hcovers, hroom, rfl⟩
    obtain ⟨mount, hmount, haction, -, htarget⟩ := (hkeeps rule hrule).planned process uid _ hload hcovers.package
    obtain ⟨planned, hplanned, rfl⟩ := List.mem_map.mp hmount
    obtain ⟨original, -, -, -, hnormal⟩ := exists_rule_of_redirect hout hplanned haction
    rw [← htarget]
    exact (brace_not_mem_replaceUser ⟨not_mem_decimalBytes (by decide) uid.user,
      not_mem_decimalBytes (by decide) uid.user⟩ (backing_of_normalize hnormal).2).1
  · intro hplain rule hrule
    obtain ⟨mount, hmount, haction, hvisible, hbacking⟩ := exists_redirect_of_rule hout hrule (hplain rule hrule).passes
    have htarget := (backing_eq_iff hbacking).mpr (hplain rule hrule).package_free
    refine ⟨⟨out.clearLines, mem_decodedDocument_apps.mpr ⟨out, hmem, rfl⟩, hpackage, mount.clearLine,
      List.mem_map_of_mem hmount, haction, hvisible, htarget⟩, fun process uid plan hload hprocess => ?_⟩
    obtain ⟨hlength, hcovers, hroom, rfl⟩ := (loadProcessPlan_compiled_iff h hwell happ hout hprocess uid).mp hload
    have hfits := (fitsPlan_of_perm
      (plannedRules_perm hout (fun rule hrule => (hplain rule hrule).package_free) uid.user)).mp hroom
    have hfree := (hplain rule hrule).user_free ⟨process, uid, hlength, hcovers, hfits⟩
    refine ⟨plannedRule uid.user mount, List.mem_map_of_mem hmount, haction, hvisible, ?_⟩
    rw [plannedRule, htarget]
    exact replaceUser_of_not_mem hfree

end Document

section Source
variable {toml : TomlParser} {source : SourceBuffer} {limits : RulesLimits} {document : RulesDocument}

/-- **Path strings keep their meaning** exactly when no stage finds a placeholder in them: in the policy that is decoded
from the blob of an accepted text, and in the plans that are made from the blob, the redirects of the enabled apps have
the bytes of their rules. -/
theorem keepsMeaning_of_compiled (hok : (compileRules toml source limits).ok = true)
    (hdocument : (parseRulesDocument toml source limits).document = some document) :
    ∃ blob decoded generation, (compileRules toml source limits).blob = some blob ∧
      decodePolicy blob.bytes = .ok (decoded, generation) ∧
      ((∀ app ∈ document.apps, app.enabled = true → ∀ rule ∈ app.redirects,
          KeepsMeaning blob.bytes decoded app rule) ↔
        ∀ app ∈ document.apps, app.enabled = true → ∀ rule ∈ app.redirects,
          PlainRule limits (parseRulesDocument toml source limits).origins app rule) := by
  have haccepted := accepted_of_document hok hdocument
  have hwell := (parseRulesDocument_some hdocument).2
  obtain ⟨blob, canonical, hblob, hcompiled, hbytes⟩ := haccepted.compiledFrom hwell
  refine ⟨blob, decodedDocument canonical, contentGeneration canonical, hblob, ?_, ?_⟩
  · rw [hbytes]
    exact hcompiled.isCanonical.decodePolicy_policyFile
  · rw [hbytes]
    refine forall₂_congr fun app happ => forall_congr' fun henabled => ?_
    exact keepsMeaning_iff hcompiled hwell (List.mem_filter.mpr ⟨happ, henabled⟩)

theorem keepsMeaning_of_compiled_siblings :
    ∃ document, (parseRulesDocument siblingSources.toml siblingSources.source {}).document = some document ∧
      ∃ blob decoded generation, (compileRules siblingSources.toml siblingSources.source {}).blob = some blob ∧
        decodePolicy blob.bytes = .ok (decoded, generation) ∧
        ((∀ app ∈ document.apps, app.enabled = true → ∀ rule ∈ app.redirects,
            KeepsMeaning blob.bytes decoded app rule) ↔
          ∀ app ∈ document.apps, app.enabled = true → ∀ rule ∈ app.redirects,
            PlainRule {} (parseRulesDocument siblingSources.toml siblingSources.source {}).origins app rule) := by
  have hok := ok_siblingSources
  obtain ⟨document, haccepted⟩ := accepted_of_ok hok
  exact ⟨document, haccepted.parsed_document, keepsMeaning_of_compiled hok haccepted.parsed_document⟩

def packageTarget : Sample := { deny := [], redirects := [("A", "C/\x7bpackage\x7d")] }

/-- The encoder puts the package into the target. -/
theorem not_keepsMeaning_packageTarget :
    (compileRules packageTarget.toml packageTarget.source {}).ok = true ∧
      ∃ document blob decoded generation,
        (parseRulesDocument packageTarget.toml packageTarget.source {}).document = some document ∧
        (compileRules packageTarget.toml packageTarget.source {}).blob = some blob ∧
        decodePolicy blob.bytes = .ok (decoded, generation) ∧
        ∃ app ∈ document.apps, app.enabled = true ∧ ∃ rule ∈ app.redirects,
          ¬ KeepsMeaning blob.bytes decoded app rule := by
  have hok : (compileRules packageTarget.toml packageTarget.source {}).ok = true := by decide +kernel
  have hbraces : ∀ document ∈ (parseRulesDocument packageTarget.toml packageTarget.source {}).document,
      ∃ app ∈ document.apps, app.enabled = true ∧ ∃ rule ∈ app.redirects, onlyUserBraces 0 rule.target = false := by
    decide +kernel
  obtain ⟨document, haccepted⟩ := accepted_of_ok hok
  have hdocument := haccepted.parsed_document
  have hwell := (parseRulesDocument_some hdocument).2
  obtain ⟨blob, canonical, hblob, hcompiled, hbytes⟩ := haccepted.compiledFrom hwell
  obtain ⟨app, happ, henabled, rule, hrule, hplaceholder⟩ := hbraces document hdocument
  have hdecode : decodePolicy blob.bytes = .ok (decodedDocument canonical, contentGeneration canonical) := by
    rw [hbytes]
    exact hcompiled.isCanonical.decodePolicy_policyFile
  refine ⟨hok, document, blob, _, _, hdocument, hblob, hdecode, app, happ, henabled, ?_⟩
  by_contra hnone
  have hkeeps : ∀ rule ∈ app.redirects, KeepsMeaning (policyFile canonical) (decodedDocument canonical) app rule := by
    intro rule hrule
    by_contra hnot
    exact hnone ⟨rule, hrule, hbytes ▸ hnot⟩
  have hplain := (keepsMeaning_iff hcompiled hwell (List.mem_filter.mpr ⟨happ, henabled⟩)).mp hkeeps rule hrule
  have hfree := hplain.package_free
  rw [hplaceholder] at hfree
  cases hfree

end Source

end PathGuard.Zygisk
