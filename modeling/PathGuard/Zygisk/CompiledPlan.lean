import PathGuard.Zygisk.PolicyReaderSpec

/-!
# The plans of compiled apps

What `LoadProcessPlan` does with the blob of an accepted document, in terms of the document: which processes and users
an app is for, and which mounts their plan has.

* `Covers` : the processes of an app, by its declaration;
* `loadProcessPlan_compiled_iff` : the plan of such a process.
-/

namespace PathGuard.Zygisk

open Rules

/-! ## The scope of an app -/

section Scope
variable {limits : RulesLimits} {origins : OriginMap} {app : AppRules} {out : AppPolicy}

/-- The processes and users an app of the document is for. -/
structure Covers (app : AppRules) (process : Bytes) (uid : Uid) : Prop where
  package : app.package = process.takeWhile (· ≠ colon)
  process : app.processes = [] ∨ process ∈ app.processes
  user : (uid.user : Int) ∈ app.users

theorem inScope_iff (hwell : WellFormedApp app) (h : validatePolicy (compiledApp limits origins app) = .ok out)
    {process : Bytes} (hpackage : out.package = process.takeWhile (· ≠ colon)) (uid : Uid) :
    InScope out process uid ↔ Covers app process uid := by
  obtain ⟨hsame, -, husers, hprocesses, -⟩ := validatePolicy_strings h
  have hprocessItems : SameItems out.processes app.processes :=
    sameItems_of_perm hprocesses fun process => mem_canonicalApp_processes
  have huserItems : SameItems out.users (app.users.map toDecimal) := sameItems_of_perm husers fun text => by
    simp only [List.mem_map, mem_canonicalApp_users]
  have hprocess := star_or_mem_iff hprocessItems (fun hstar => by
    have hname := hwell.processes _ hstar
    rw [isProcessName_star hwell.package] at hname
    cases hname) process
  have huser := star_or_mem_iff huserItems (star_not_mem_users hwell.users_range) (decimalBytes uid.user)
  rw [List.map_eq_nil_iff, mem_map_toDecimal_iff hwell.users_range] at huser
  constructor
  · rintro ⟨hin, hfor⟩
    exact ⟨hsame.symm.trans hpackage, hprocess.mp hin, (huser.mp hfor).resolve_left hwell.users_ne_nil⟩
  · rintro ⟨-, hin, hfor⟩
    exact ⟨hprocess.mpr hin, huser.mpr (Or.inr hfor)⟩

end Scope

/-! ## The plan of an app -/

section Compiled
variable {limits : RulesLimits} {origins : OriginMap} {document : RulesDocument} {canonical : PolicyDocument}

theorem loadProcessPlan_compiled_iff (h : CompiledFrom limits origins document canonical)
    (hwell : ∀ app ∈ document.apps, WellFormedApp app) {app : AppRules} (happ : app ∈ enabledApps document)
    {out : AppPolicy} (hout : validatePolicy (compiledApp limits origins app) = .ok out) {process : CString}
    (hpackage : app.package = process.bytes.takeWhile (· ≠ colon)) (uid : Uid) {plan : LoadedPlan} :
    loadProcessPlan (policyFile canonical) process uid = .ok plan ↔ process.bytes.length < kMaxProcessNameBytes ∧
      Covers app process.bytes uid ∧ FitsPlan uid.user out ∧ plan = planOf canonical out process.bytes uid := by
  by_cases hlength : process.bytes.length < kMaxProcessNameBytes
  · have hmem : out ∈ canonical.apps := h.mem_apps_iff.mpr ⟨app, happ, hout⟩
    have hsame : out.package = app.package := (validatePolicy_strings hout).1
    have hscope := inScope_iff (hwell app (List.mem_filter.mp happ).1) hout (hsame.trans hpackage) uid
    rw [loadProcessPlan_ok_iff h.isCanonical hlength uid]
    constructor
    · rintro ⟨other, hother, hotherPackage, hin, hfits, rfl⟩
      obtain rfl : other = out := List.inj_on_of_nodup_map h.isCanonical.nodup hother hmem
        (hotherPackage.trans (hsame.trans hpackage).symm)
      exact ⟨hlength, hscope.mp hin, hfits, rfl⟩
    · rintro ⟨-, hcovers, hfits, rfl⟩
      exact ⟨out, hmem, hsame.trans hpackage, hscope.mpr hcovers, hfits, rfl⟩
  · refine iff_of_false (fun hload => ?_) fun hright => hlength hright.1
    rw [loadProcessPlan, if_pos (by omega)] at hload
    cases hload

end Compiled

end PathGuard.Zygisk
