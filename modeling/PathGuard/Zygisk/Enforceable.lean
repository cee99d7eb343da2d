import Mathlib.Algebra.Order.BigOperators.Group.List
import Mathlib.Data.List.DropRight
import PathGuard.Rules.Admission
import PathGuard.Zygisk.ProviderRulesSpec

/-!
# What the runtime can enforce

The compiler and the readers of its blob have limits of their own. An app whose canonical mounts do not fit a plan has
no plan at all, and the provider table is cut off without an error.

* `deviceTableSize`, `providerTableSize` : how many rules a policy takes in the table, on one device and at most;
* `PlannedInFull`, `ProvidedOn` : that nothing is missing from the plans, and from the table;
* `enforceable_iff` : when nothing is.
-/

namespace PathGuard.Zygisk

open Rules

/-! ## The size of the provider table -/

/-- How many rules an app takes in the provider table when every user of it resolves. A user whose directory has too
long a path never does. -/
def providerRuleCount (app : AppPolicy) : Nat :=
  ((app.users.filterMap providerUser).countP fun userId => (packageDataPath userId app.package).length < PATH_MAX) *
    (redirectsOf app.mounts).length

def providerTableSize (apps : List AppPolicy) : Nat :=
  ((apps.filter fun app => app.providerCompat = .virtualize).map providerRuleCount).sum

/-- How many it takes on a device: one for each redirect and each user that resolves there. -/
def resolvedRuleCount (stat : Stat) (app : AppPolicy) : Nat :=
  ((app.users.filterMap providerUser).countP fun userId => (packageUid stat userId app.package).isSome) *
    (redirectsOf app.mounts).length

def deviceTableSize (stat : Stat) (apps : List AppPolicy) : Nat :=
  ((apps.filter fun app => app.providerCompat = .virtualize).map (resolvedRuleCount stat)).sum

section Length
variable {stat : Stat}

theorem deviceTableSize_perm {apps apps' : List AppPolicy} (h : apps.Perm apps') :
    deviceTableSize stat apps = deviceTableSize stat apps' :=
  ((h.filter _).map _).sum_nat

theorem length_appRules (app : AppPolicy) : (appRules stat app).length = resolvedRuleCount stat app := by
  rw [appRules, resolvedRuleCount]
  induction app.users.filterMap providerUser with
  | nil => simp
  | cons userId users ih =>
      rw [List.flatMap_cons, List.length_append, ih, List.countP_cons, userRules]
      cases packageUid stat userId app.package with
      | none => simp
      | some uid => simp [Nat.add_mul, Nat.add_comm]

theorem length_providerRules (apps : List AppPolicy) : (providerRules stat apps).length = deviceTableSize stat apps := by
  rw [providerRules, List.length_flatMap, deviceTableSize]
  exact congrArg List.sum (List.map_congr_left fun app _ => length_appRules app)

theorem lt_of_packageUid {userId : Nat} {package : Bytes} (h : (packageUid stat userId package).isSome = true) :
    (packageDataPath userId package).length < PATH_MAX := by
  rw [packageUid] at h
  split at h
  · cases h
  · next hlength => exact Nat.lt_of_not_le hlength

theorem deviceTableSize_le (apps : List AppPolicy) : deviceTableSize stat apps ≤ providerTableSize apps := by
  refine List.sum_le_sum fun app _ => Nat.mul_le_mul_right _ (List.countP_mono_left fun userId _ hsome => ?_)
  exact decide_eq_true (lt_of_packageUid hsome)

theorem deviceTableSize_eq {apps : List AppPolicy}
    (hstat : ∀ app ∈ apps, ∀ userId, (packageDataPath userId app.package).length < PATH_MAX →
      (packageUid stat userId app.package).isSome = true) :
    deviceTableSize stat apps = providerTableSize apps := by
  refine congrArg List.sum (List.map_congr_left fun app happ => ?_)
  rw [resolvedRuleCount, providerRuleCount]
  congr 1
  refine List.countP_congr fun userId _ => ?_
  rw [decide_eq_true_eq]
  exact ⟨lt_of_packageUid, hstat app (List.mem_filter.mp happ).1 userId⟩

end Length

/-! ## A device on which every app has its own uid -/

/-- The last component of a path. -/
def lastComponent (path : Bytes) : Bytes := path.rtakeWhile (· ≠ slash)

theorem lastComponent_packageDataPath (userId : Nat) {package : Bytes} (h : slash ∉ package) :
    lastComponent (packageDataPath userId package) = package := by
  have hall : ∀ byte ∈ package.reverse, decide (byte ≠ slash) = true := fun byte hbyte => by
    rw [decide_eq_true_eq]
    rintro rfl
    exact h (List.mem_reverse.mp hbyte)
  rw [lastComponent, packageDataPath, List.rtakeWhile, List.reverse_append, List.reverse_cons, List.append_assoc,
    List.takeWhile_append_of_pos hall, List.singleton_append, List.takeWhile_cons_of_neg (by simp), List.append_nil,
    List.reverse_reverse]

/-- The uid of a package goes by its place in the list. -/
def uidOf (packages : List Bytes) (package : Bytes) : UInt32 := 10000 + UInt32.ofNat (packages.idxOf package)

def ownUids (packages : List Bytes) : Stat := fun path => some (uidOf packages (lastComponent path))

section OwnUids
variable {packages : List Bytes} {package : Bytes}

theorem uidOf_toNat (hsmall : packages.length < 2 ^ 31) (hmem : package ∈ packages) :
    (uidOf packages package).toNat = 10000 + packages.idxOf package := by
  have hlt := List.idxOf_lt_length_of_mem hmem
  rw [uidOf, UInt32.toNat_add, UInt32.toNat_ofNat_of_lt' (show packages.idxOf package < 2 ^ 32 by omega)]
  exact Nat.mod_eq_of_lt (show 10000 + packages.idxOf package < 2 ^ 32 by omega)

theorem packageUid_ownUids (hsmall : packages.length < 2 ^ 31) (hmem : package ∈ packages) (hslash : slash ∉ package)
    {userId : Nat} (hlength : (packageDataPath userId package).length < PATH_MAX) :
    packageUid (ownUids packages) userId package = some (uidOf packages package) := by
  have hlow : 10000 ≤ uidOf packages package := by
    rw [UInt32.le_iff_toNat_le, uidOf_toNat hsmall hmem]
    exact Nat.le_add_right _ _
  rw [packageUid, if_neg (by omega), ownUids, lastComponent_packageDataPath userId hslash]
  simp [Option.filter, hlow]

theorem uidOf_inj (hsmall : packages.length < 2 ^ 31) {other : Bytes} (hmem : package ∈ packages)
    (hother : other ∈ packages) (h : uidOf packages package = uidOf packages other) : package = other := by
  have hnat := congrArg UInt32.toNat h
  rw [uidOf_toNat hsmall hmem, uidOf_toNat hsmall hother] at hnat
  exact (List.idxOf_inj hmem).mp (by omega)

end OwnUids

/-! ## Canonical apps of a document -/

section App
variable {limits : RulesLimits} {origins : OriginMap} {app : AppRules} {out : AppPolicy}

theorem virtualize_iff (hout : validatePolicy (compiledApp limits origins app) = .ok out) :
    out.providerCompat = .virtualize ↔ app.filePicker = true := by
  obtain ⟨-, users, mounts, root, events, -, -, -, -, -, rfl⟩ := validatePolicy_ok_iff.mp hout
  show (if app.filePicker = true then ProviderCompat.virtualize else .off) = .virtualize ↔ _
  split
  · next h => simp [h]
  · next h => simp [h]

theorem exists_redirect_of_virtualize {policy : AppPolicy} (hout : validatePolicy policy = .ok out)
    (hvirtualize : out.providerCompat = .virtualize) : ∃ mount, mount ∈ redirectsOf out.mounts := by
  obtain ⟨-, users, mounts, root, events, -, -, -, hprovider, -, rfl⟩ := validatePolicy_ok_iff.mp hout
  rw [checkProvider, if_pos hvirtualize] at hprovider
  split at hprovider
  · cases hprovider
  · split at hprovider
    · cases hprovider
    · next hany =>
      simp only [Bool.not_eq_true', Bool.not_eq_false, List.any_eq_true, beq_iff_eq] at hany
      obtain ⟨mount, hmount, haction⟩ := hany
      exact ⟨mount, List.mem_filter.mpr ⟨mem_sortOn.mpr hmount, by simpa using haction⟩⟩

theorem mem_users_iff (hwell : WellFormedApp app) (hout : validatePolicy (compiledApp limits origins app) = .ok out)
    {item : Bytes} : item ∈ out.users ↔ ∃ userId : Nat, (userId : Int) ∈ app.users ∧ userId ≤ 99999 ∧
      item = decimalBytes userId := by
  obtain ⟨-, -, husers, -⟩ := validatePolicy_strings hout
  have hitems : SameItems out.users (app.users.map toDecimal) := sameItems_of_perm husers fun text => by
    simp only [List.mem_map, mem_canonicalApp_users]
  rw [SameItems, if_neg (by simpa using hwell.users_ne_nil)] at hitems
  rw [hitems item, List.mem_map]
  constructor
  · rintro ⟨user, huser, rfl⟩
    obtain ⟨hlow, hhigh⟩ := hwell.users_range user huser
    refine ⟨user.toNat, by rwa [Int.toNat_of_nonneg hlow], by omega, ?_⟩
    rw [toDecimal, if_neg (by omega), show user.natAbs = user.toNat by omega]
  · rintro ⟨userId, huser, -, rfl⟩
    exact ⟨userId, huser, by rw [toDecimal, if_neg (by omega), Int.natAbs_natCast]⟩

theorem numericUsers_of_valid (hwell : WellFormedApp app)
    (hout : validatePolicy (compiledApp limits origins app) = .ok out) : NumericUsers out := by
  intro _ item hitem
  obtain ⟨userId, -, hle, heq⟩ := (mem_users_iff hwell hout).mp hitem
  exact ⟨userId, hle, heq⟩

theorem mem_userIds_iff (hwell : WellFormedApp app) (hout : validatePolicy (compiledApp limits origins app) = .ok out)
    {userId : Nat} : userId ∈ out.users.filterMap providerUser ↔ (userId : Int) ∈ app.users := by
  rw [List.mem_filterMap]
  constructor
  · rintro ⟨item, hitem, hparse⟩
    obtain ⟨other, hmem, hle, rfl⟩ := (mem_users_iff hwell hout).mp hitem
    rw [providerUser_decimalBytes hle, Option.some.injEq] at hparse
    exact hparse ▸ hmem
  · intro hmem
    have hle : userId ≤ 99999 := by
      have hrange := (hwell.users_range _ hmem).2
      omega
    exact ⟨decimalBytes userId, (mem_users_iff hwell hout).mpr ⟨userId, hmem, hle, rfl⟩, providerUser_decimalBytes hle⟩

theorem nodup_userIds (hwell : WellFormedApp app) (hout : validatePolicy (compiledApp limits origins app) = .ok out) :
    (out.users.filterMap providerUser).Nodup := by
  obtain ⟨-, -, husers, -⟩ := validatePolicy_strings hout
  have hnumbers : (out.users.map fromCharsUnsigned).Nodup :=
    (husers.map _).nodup_iff.mpr (compilerStrings_compiledApp hwell).userNumbers
  have hsame : out.users.filterMap providerUser = (out.users.map fromCharsUnsigned).filterMap id := by
    rw [List.filterMap_map]
    refine List.filterMap_congr fun item hitem => ?_
    obtain ⟨userId, -, hle, rfl⟩ := (mem_users_iff hwell hout).mp hitem
    have hparse := @fromCharsUnsigned_toDecimal userId (by omega) (by omega)
    rw [toDecimal, if_neg (by omega), Int.natAbs_natCast] at hparse
    rw [providerUser_decimalBytes hle, Function.comp_apply, hparse]
    rfl
  rw [hsame]
  refine hnumbers.filterMap fun a a' b hb hb' => ?_
  rw [Option.mem_def] at hb hb'
  exact hb.trans hb'.symm

theorem nodup_visible (hout : validatePolicy (compiledApp limits origins app) = .ok out) :
    ((redirectsOf out.mounts).map LogicalMountRule.visiblePath).Nodup := by
  obtain ⟨-, users, mounts, root, events, -, hmounts, -, -, -, rfl⟩ := validatePolicy_ok_iff.mp hout
  obtain ⟨-, hnodup, -⟩ := normalizeMounts_ok_iff.mp hmounts
  have hperm := sortOn_perm mountSortKey mounts
  have hsorted : (visiblePaths (sortOn mountSortKey mounts)).Nodup := ((hperm.filter _).map _).nodup_iff.mpr hnodup
  refine hsorted.sublist (List.Sublist.map _ ?_)
  refine List.monotone_filter_right _ fun rule hrule => ?_
  rw [decide_eq_true_eq] at hrule
  simp [isIsolate, hrule]

end App

/-! ## All rules of the table -/

theorem slash_not_mem_package {package : Bytes} (h : isPackageName package = true) : slash ∉ package := by
  intro hslash
  rcases byte_of_isPackageName h hslash with halnum | hunderscore | hdot
  · exact absurd halnum (by decide)
  · exact absurd hunderscore (by decide)
  · exact absurd hdot (by decide)

/-- What the apps of a canonical document are like. -/
structure TableApp (app : AppPolicy) : Prop where
  numeric : NumericUsers app
  users_nodup : (app.users.filterMap providerUser).Nodup
  visible_nodup : ((redirectsOf app.mounts).map LogicalMountRule.visiblePath).Nodup
  package : slash ∉ app.package

/-- No two apps own their directories by one uid. -/
def OwnersApart (stat : Stat) (apps : List AppPolicy) : Prop :=
  ∀ a ∈ apps, ∀ b ∈ apps, ∀ userId uid, packageUid stat userId a.package = some uid →
    packageUid stat userId b.package = some uid → a.package = b.package

section Rules
variable {stat : Stat} {app : AppPolicy} {apps : List AppPolicy}

theorem mem_appRules_iff {rule : ProviderRule} : rule ∈ appRules stat app ↔
    ∃ userId ∈ app.users.filterMap providerUser, ∃ uid, packageUid stat userId app.package = some uid ∧
      ∃ mount ∈ redirectsOf app.mounts, userRule uid userId mount = rule := by
  rw [appRules, List.mem_flatMap]
  refine exists_congr fun userId => and_congr_right fun _ => ?_
  rw [userRules]
  cases packageUid stat userId app.package with
  | none => simp
  | some uid => simp [List.mem_map]

theorem nodup_appRules (happ : TableApp app) (stat : Stat) : (appRules stat app).Nodup := by
  refine List.nodup_flatMap.mpr ⟨fun userId _ => ?_, happ.users_nodup.imp fun {a b} hne => ?_⟩
  · rw [userRules]
    cases packageUid stat userId app.package with
    | none => exact List.nodup_nil
    | some uid =>
        refine List.Nodup.of_map ProviderRule.visiblePath ?_
        rw [List.map_map]
        exact happ.visible_nodup
  · -- the rules of different users show their users
    have huser : ∀ userId, ∀ rule ∈ userRules stat app userId, rule.userId = userId := by
      intro userId rule hrule
      rw [userRules] at hrule
      cases huid : packageUid stat userId app.package with
      | none => simp [huid] at hrule
      | some uid =>
          simp only [huid, List.mem_map] at hrule
          obtain ⟨mount, -, rfl⟩ := hrule
          rfl
    intro rule ha hb
    exact hne ((huser a rule ha).symm.trans (huser b rule hb))

theorem nodup_providerRules (hapart : OwnersApart stat apps) (hnodup : (apps.map AppPolicy.package).Nodup)
    (happs : ∀ app ∈ apps, TableApp app) : (providerRules stat apps).Nodup := by
  have hpairs : apps.Pairwise fun a b => a.package ≠ b.package := List.pairwise_map.mp hnodup
  refine List.nodup_flatMap.mpr ⟨fun app happ => nodup_appRules (happs app (List.mem_filter.mp happ).1) _, ?_⟩
  refine (hpairs.filter _).imp_of_mem fun {a b} ha hb hne => ?_
  intro rule hruleA hruleB
  obtain ⟨userId, -, uid, huid, mount, -, rfl⟩ := mem_appRules_iff.mp hruleA
  obtain ⟨userId', -, uid', huid', mount', -, heq⟩ := mem_appRules_iff.mp hruleB
  obtain rfl : userId' = userId := congrArg ProviderRule.userId heq
  have hcaller : uid'.toInt32 = uid.toInt32 := congrArg ProviderRule.callerUid heq
  obtain rfl : uid' = uid := by simpa using congrArg Int32.toUInt32 hcaller
  exact hne (hapart a (List.mem_filter.mp ha).1 b (List.mem_filter.mp hb).1 _ _ huid huid')

end Rules

theorem ownersApart_ownUids {apps : List AppPolicy} (hsmall : apps.length < 2 ^ 31)
    (happs : ∀ app ∈ apps, TableApp app) : OwnersApart (ownUids (apps.map AppPolicy.package)) apps := by
  have hlength : (apps.map AppPolicy.package).length < 2 ^ 31 := by rwa [List.length_map]
  have huidOf : ∀ app ∈ apps, ∀ userId uid, packageUid (ownUids (apps.map AppPolicy.package)) userId app.package =
      some uid → uidOf (apps.map AppPolicy.package) app.package = uid := by
    intro app happ userId uid huid
    rw [packageUid_ownUids hlength (List.mem_map_of_mem happ) (happs app happ).package
      (lt_of_packageUid (by rw [huid, Option.isSome_some]))] at huid
    exact Option.some.inj huid
  intro a ha b hb userId uid huidA huidB
  refine uidOf_inj hlength (List.mem_map_of_mem ha) (List.mem_map_of_mem hb) ?_
  rw [huidOf a ha userId uid huidA, huidOf b hb userId uid huidB]

/-! ## Enforced in full -/

/-- `LoadProcessPlan` gives the process a plan with all canonical mounts of the app. -/
def PlannedInFull (bytes : Bytes) (out : AppPolicy) (process : CString) (uid : Uid) : Prop :=
  ∃ plan, loadProcessPlan bytes process uid = .ok plan ∧ plan.mounts = out.mounts.map (plannedRule uid.user)

/-- `LoadProviderRules` returns a rule for every canonical redirect of the app, for a user whose directory shows
`uid`. -/
def ProvidedInFull (bytes : Bytes) (stat : Stat) (out : AppPolicy) (userId : Nat) (uid : UInt32) : Prop :=
  ∃ rules, loadProviderRules bytes stat kMaxMountRules = .ok rules ∧
    ∀ mount ∈ redirectsOf out.mounts, userRule uid userId mount ∈ rules

/-- Every enabled app with the file picker has its rules in full, for every user of it that resolves on the device. -/
def ProvidedOn (bytes : Bytes) (stat : Stat) (document : RulesDocument) (canonical : PolicyDocument) : Prop :=
  ∀ app ∈ document.apps, app.enabled = true → app.filePicker = true → ∀ user ∈ app.users, ∀ uid,
    packageUid stat user.toNat app.package = some uid → ∀ out ∈ canonical.apps, out.package = app.package →
      ProvidedInFull bytes stat out user.toNat uid

section Document
variable {limits : RulesLimits} {origins : OriginMap} {document : RulesDocument} {canonical : PolicyDocument}

theorem plannedInFull_iff (h : CompiledFrom limits origins document canonical)
    (hwell : ∀ app ∈ document.apps, WellFormedApp app) {app : AppRules} (happ : app ∈ enabledApps document)
    {out : AppPolicy} (hout : validatePolicy (compiledApp limits origins app) = .ok out) {process : CString} {uid : Uid}
    (hcovers : Covers app process.bytes uid) :
    PlannedInFull (policyFile canonical) out process uid ↔
      process.bytes.length < kMaxProcessNameBytes ∧ FitsPlan uid.user out := by
  have hload := fun plan => @loadProcessPlan_compiled_iff _ _ _ _ h hwell _ happ _ hout process hcovers.package uid plan
  constructor
  · rintro ⟨plan, hplan, -⟩
    obtain ⟨hlength, -, hfits, -⟩ := (hload plan).mp hplan
    exact ⟨hlength, hfits⟩
  · rintro ⟨hlength, hfits⟩
    exact ⟨_, (hload _).mpr ⟨hlength, hcovers, hfits, rfl⟩, rfl⟩

theorem tableApp_of_mem (h : CompiledFrom limits origins document canonical)
    (hwell : ∀ app ∈ document.apps, WellFormedApp app) {out : AppPolicy} (hmem : out ∈ canonical.apps) : TableApp out := by
  obtain ⟨app, happ, hout⟩ := h.mem_apps_iff.mp hmem
  have hgood := hwell app (List.mem_filter.mp happ).1
  have hpackage : out.package = app.package := (validatePolicy_strings hout).1
  exact ⟨numericUsers_of_valid hgood hout, nodup_userIds hgood hout, nodup_visible hout,
    hpackage ▸ slash_not_mem_package hgood.package⟩

/-- The package table is far shorter than a list of uids can be. -/
theorem length_apps_lt (h : CompiledFrom limits origins document canonical) : canonical.apps.length < 2 ^ 31 := by
  have hlt := h.isCanonical.length_lt
  rw [stringStart, mountStart, kPackageSize] at hlt
  omega

theorem mem_providerRules_iff {stat : Stat} {apps : List AppPolicy} {rule : ProviderRule} :
    rule ∈ providerRules stat apps ↔
      ∃ app ∈ apps, app.providerCompat = .virtualize ∧ rule ∈ appRules stat app := by
  simp only [providerRules, List.mem_flatMap, List.mem_filter, decide_eq_true_eq, and_assoc]

theorem room_of_provided (h : CompiledFrom limits origins document canonical)
    (hwell : ∀ app ∈ document.apps, WellFormedApp app) {stat : Stat} (hapart : OwnersApart stat canonical.apps)
    (hprovided : ProvidedOn (policyFile canonical) stat document canonical) :
    deviceTableSize stat canonical.apps ≤ kMaxMountRules := by
  have hnumeric : ∀ out ∈ canonical.apps, NumericUsers out := fun out hmem => (tableApp_of_mem h hwell hmem).numeric
  have htable : ∀ out ∈ sortedApps canonical, TableApp out := fun out hout =>
    tableApp_of_mem h hwell (mem_sortOn.mp hout)
  have hapart' : OwnersApart stat (sortedApps canonical) := fun a ha b hb =>
    hapart a (mem_sortOn.mp ha) b (mem_sortOn.mp hb)
  have hnodup := nodup_providerRules hapart' h.isCanonical.nodup_sortedApps htable
  rw [← deviceTableSize_perm (sortedApps_perm canonical), ← length_providerRules]
  have hsubset : providerRules stat (sortedApps canonical) ⊆
      (providerRules stat (sortedApps canonical)).take kMaxMountRules := by
    intro rule hrule
    obtain ⟨out, hout, hvirtualize, hrule⟩ := mem_providerRules_iff.mp hrule
    obtain ⟨userId, huser, uid, huid, mount, hmount, rfl⟩ := mem_appRules_iff.mp hrule
    have hmem : out ∈ canonical.apps := mem_sortOn.mp hout
    obtain ⟨app, happ, hvalid⟩ := h.mem_apps_iff.mp hmem
    obtain ⟨hdocument, henabled⟩ := List.mem_filter.mp happ
    have hpackage : out.package = app.package := (validatePolicy_strings hvalid).1
    have huserApp := (mem_userIds_iff (hwell app hdocument) hvalid).mp huser
    obtain ⟨rules, hrules, hin⟩ := hprovided app hdocument henabled ((virtualize_iff hvalid).mp hvirtualize)
      userId huserApp uid (hpackage ▸ huid) out hmem hpackage
    rw [loadProviderRules_eq h.isCanonical _ kMaxMountRules hnumeric] at hrules
    split at hrules
    · cases hrules
    · rw [Except.ok.injEq] at hrules
      rw [hrules]
      exact hin mount hmount
  exact (hnodup.subperm hsubset).length_le.trans (List.length_take_le _ _)

theorem provided_of_room (h : CompiledFrom limits origins document canonical)
    (hwell : ∀ app ∈ document.apps, WellFormedApp app) {stat : Stat}
    (hroom : deviceTableSize stat canonical.apps ≤ kMaxMountRules) :
    ProvidedOn (policyFile canonical) stat document canonical := by
  intro app hdocument henabled hpicker user huser uid huid out hmem hpackage
  have hnumeric : ∀ out ∈ canonical.apps, NumericUsers out := fun out hmem => (tableApp_of_mem h hwell hmem).numeric
  obtain ⟨other, hotherMem, hvalid⟩ := h.exists_valid (List.mem_filter.mpr ⟨hdocument, henabled⟩)
  obtain rfl : other = out := List.inj_on_of_nodup_map h.isCanonical.nodup hotherMem hmem
    ((validatePolicy_strings hvalid).1.trans hpackage.symm)
  have hgood := hwell app hdocument
  have hvirtualize := (virtualize_iff hvalid).mpr hpicker
  have hlow := (hgood.users_range user huser).1
  have huserId : user.toNat ∈ other.users.filterMap providerUser := by
    rw [mem_userIds_iff hgood hvalid, Int.toNat_of_nonneg hlow]
    exact huser
  have hall : ∀ mount ∈ redirectsOf other.mounts,
      userRule uid user.toNat mount ∈ providerRules stat (sortedApps canonical) := by
    intro mount hmount
    exact mem_providerRules_iff.mpr ⟨other, mem_sortOn.mpr hmem, hvirtualize,
      mem_appRules_iff.mpr ⟨user.toNat, huserId, uid, hpackage ▸ huid, mount, hmount, rfl⟩⟩
  have htake : (providerRules stat (sortedApps canonical)).take kMaxMountRules =
      providerRules stat (sortedApps canonical) := by
    rw [← deviceTableSize_perm (sortedApps_perm canonical), ← length_providerRules] at hroom
    exact List.take_of_length_le hroom
  obtain ⟨redirect, hredirect⟩ := exists_redirect_of_virtualize hvalid hvirtualize
  refine ⟨providerRules stat (sortedApps canonical), ?_, hall⟩
  rw [loadProviderRules_eq h.isCanonical stat kMaxMountRules hnumeric, htake, if_neg]
  rw [List.isEmpty_iff]
  exact List.ne_nil_of_mem (hall redirect hredirect)

/-- Every app and user has its rules in full, whoever owns the directories, exactly when the table is large enough. -/
theorem providedOn_iff (h : CompiledFrom limits origins document canonical)
    (hwell : ∀ app ∈ document.apps, WellFormedApp app) :
    (∀ stat, ProvidedOn (policyFile canonical) stat document canonical) ↔
      providerTableSize canonical.apps ≤ kMaxMountRules := by
  constructor
  · intro hprovided
    have htable : ∀ out ∈ canonical.apps, TableApp out := fun out hout => tableApp_of_mem h hwell hout
    have hsmall := length_apps_lt h
    have hlength : (canonical.apps.map AppPolicy.package).length < 2 ^ 31 := by rwa [List.length_map]
    have hroom := room_of_provided h hwell (ownersApart_ownUids hsmall htable) (hprovided _)
    rwa [deviceTableSize_eq fun out hout userId hpath => ?_] at hroom
    rw [packageUid_ownUids hlength (List.mem_map_of_mem hout) (htable out hout).package hpath, Option.isSome_some]
  · exact fun hroom stat => provided_of_room h hwell ((deviceTableSize_le _).trans hroom)

end Document

/-! ## A policy that is too large for the table

One app with provider redirection, five redirects and thirteen users. -/

namespace FullTable

def users : List Nat := List.range 13

def redirects : List (String × String) := [("A", "F"), ("B", "F"), ("C", "F"), ("D", "F"), ("E", "F")]

def usersText : Bytes := Sample.separated (users.map decimalBytes)

def tablesText : Bytes := Sample.separated (redirects.map Sample.tableText)

def layout (redirects : Bytes) : Bytes :=
  ascii "format = 1\n[apps.\"a.b\"]\nusers = [" ++ usersText ++ ascii "]\nredirect = [" ++ redirects ++
    ascii "]\nfile_picker = true\n"

def text : Bytes :=
  layout (Sample.separated (redirects.map fun rule => Sample.quoted rule.1 ++ ascii " -> " ++ Sample.quoted rule.2))

def userNodes : List Nat → Nat → List TomlNode
  | [], _ => []
  | user :: users, column =>
      let last := column + (decimalBytes user).length
      .integer (Sample.region 3 column last) user :: userNodes users (last + 2)

def tree : List (TomlKey × TomlNode) :=
  let header := Sample.region 2 1 13
  let picker := .boolean (Sample.region 5 15 19) true
  let redirects := .array (Sample.region 4 12 (14 + tablesText.length)) (Sample.redirectNodes redirects 13)
  let users := .array (Sample.region 3 9 (11 + usersText.length)) (userNodes users 10)
  [(Sample.key "apps" 2 2, .table header false
      [(⟨ascii "a.b", Sample.region 2 7 12⟩, .table header false
        [(Sample.key "file_picker" 5 1, picker), (Sample.key "redirect" 4 1, redirects),
          (Sample.key "users" 3 1, users)])]),
    (Sample.key "format" 1 1, .integer (Sample.region 1 10 11) 1)]

def toml : TomlParser := fun text _ => if text = layout tablesText then .ok tree else .error (Sample.region 1 1 1)

def source : SourceBuffer := ⟨ascii "rules.toml", text, by decide +kernel⟩

/-- A device with what the policy asks for. -/
def device : DeviceSnapshot where
  mount := { primitives := kCapabilityOpenTreeMoveMount, strictActions := kMountActionRedirect }
  providerSupported := true
  topologySupported := true

/-- The text is accepted, the policy is admitted, and the table has one rule less than the policy needs. -/
def overflows (result : RulesBuildResult) : Bool :=
  result.ok && match result.canonical with
    | none => false
    | some policy => (admitPolicy policy result.requirements device).admitted &&
        match canonicalizeDocument (toPolicyDocument policy) with
        | .ok canonical => providerTableSize canonical.apps = 65
        | .error _ => false

theorem overflows_source : overflows (compileRules toml source {}) = true := by decide +kernel

theorem ok_source : (compileRules toml source {}).ok = true := by
  have hoverflows := overflows_source
  rw [overflows, Bool.and_eq_true] at hoverflows
  exact hoverflows.1

/-- Only the first user has the app. -/
def firstUser : Stat := fun path => if path = packageDataPath 0 (ascii "a.b") then some 10123 else none

theorem deviceTableSize_firstUser :
    (compileRules toml source {}).canonical.any (fun policy =>
      (canonicalizeDocument (toPolicyDocument policy)).toOption.any fun canonical =>
        deviceTableSize firstUser canonical.apps == 5) = true := by
  decide +kernel

end FullTable

section Source
variable {toml : TomlParser} {source : SourceBuffer} {limits : RulesLimits} {document : RulesDocument}

/-- **What the runtime can enforce** of an accepted document. A process in the scope of an app has a plan with all
canonical mounts of the app exactly when its name fits the buffer of the reader and the mounts fit a plan. The provider
processes of every device have the rules of every app and user exactly when the table is large enough for all of them;
those of one device, where no two apps share a uid, exactly when it is large enough for the users that resolve there. -/
theorem enforceable_iff (hok : (compileRules toml source limits).ok = true)
    (hdocument : (parseRulesDocument toml source limits).document = some document) :
    ∃ blob canonical, (compileRules toml source limits).blob = some blob ∧
      canonicalizeDocument (toPolicyDocument (canonicalPolicy
        (resolvedPolicy limits (parseRulesDocument toml source limits).origins document))) = .ok canonical ∧
      (∀ app ∈ document.apps, app.enabled = true → ∃ out ∈ canonical.apps, out.package = app.package ∧
        ∀ (process : CString) uid, Covers app process.bytes uid →
          (PlannedInFull blob.bytes out process uid ↔
            process.bytes.length < kMaxProcessNameBytes ∧ FitsPlan uid.user out)) ∧
      ((∀ stat, ProvidedOn blob.bytes stat document canonical) ↔
        providerTableSize canonical.apps ≤ kMaxMountRules) ∧
      ∀ stat, (deviceTableSize stat canonical.apps ≤ kMaxMountRules → ProvidedOn blob.bytes stat document canonical) ∧
        (OwnersApart stat canonical.apps → ProvidedOn blob.bytes stat document canonical →
          deviceTableSize stat canonical.apps ≤ kMaxMountRules) := by
  have haccepted := accepted_of_document hok hdocument
  have hwell := (parseRulesDocument_some hdocument).2
  obtain ⟨blob, canonical, hblob, hcompiled, hbytes⟩ := haccepted.compiledFrom hwell
  refine ⟨blob, canonical, hblob, hcompiled.canonicalized, fun app happ henabled => ?_, ?_, fun stat => ⟨?_, ?_⟩⟩
  · have hmem : app ∈ enabledApps document := List.mem_filter.mpr ⟨happ, henabled⟩
    obtain ⟨out, hout, hvalid⟩ := hcompiled.exists_valid hmem
    refine ⟨out, hout, (validatePolicy_strings hvalid).1, fun process uid hcovers => ?_⟩
    rw [hbytes]
    exact plannedInFull_iff hcompiled hwell hmem hvalid hcovers
  · rw [hbytes]
    exact providedOn_iff hcompiled hwell
  · rw [hbytes]
    exact provided_of_room hcompiled hwell
  · rw [hbytes]
    exact room_of_provided hcompiled hwell

/-- The table is too small for all users, and large enough where one of them has the app. -/
theorem enforceable_iff_fullTable :
    ∃ document blob canonical, (parseRulesDocument FullTable.toml FullTable.source {}).document = some document ∧
      (compileRules FullTable.toml FullTable.source {}).blob = some blob ∧
      deviceTableSize FullTable.firstUser canonical.apps = 5 ∧
      ProvidedOn blob.bytes FullTable.firstUser document canonical := by
  obtain ⟨document, haccepted⟩ := accepted_of_ok FullTable.ok_source
  obtain ⟨blob, canonical, hblob, hcanonical, -, -, hdevice⟩ := enforceable_iff FullTable.ok_source haccepted.parsed_document
  have hsize := FullTable.deviceTableSize_firstUser
  rw [haccepted.canonical, Option.any_some, hcanonical, Except.toOption, Option.any_some, beq_iff_eq] at hsize
  refine ⟨document, blob, canonical, haccepted.parsed_document, hblob, hsize, (hdevice FullTable.firstUser).1 ?_⟩
  rw [hsize]
  decide

end Source

/-- The rules of the last redirect are missing for the last user. -/
theorem not_enforceable_fullTable :
    (compileRules FullTable.toml FullTable.source {}).ok = true ∧
      ∃ document policy blob canonical,
        (parseRulesDocument FullTable.toml FullTable.source {}).document = some document ∧
        (compileRules FullTable.toml FullTable.source {}).canonical = some policy ∧
        (compileRules FullTable.toml FullTable.source {}).blob = some blob ∧
        (admitPolicy policy (compileRules FullTable.toml FullTable.source {}).requirements
          FullTable.device).admitted = true ∧
        canonicalizeDocument (toPolicyDocument policy) = .ok canonical ∧
        ¬ ∀ stat, ProvidedOn blob.bytes stat document canonical := by
  have hoverflows := FullTable.overflows_source
  rw [FullTable.overflows, Bool.and_eq_true] at hoverflows
  obtain ⟨hok, hlarge⟩ := hoverflows
  obtain ⟨document, haccepted⟩ := accepted_of_ok hok
  have hwell := (parseRulesDocument_some haccepted.parsed_document).2
  obtain ⟨blob, canonical, hblob, hcompiled, hbytes⟩ := haccepted.compiledFrom hwell
  simp only [haccepted.canonical, hcompiled.canonicalized, Bool.and_eq_true, decide_eq_true_eq] at hlarge
  refine ⟨hok, document, _, blob, canonical, haccepted.parsed_document, haccepted.canonical, hblob, hlarge.1,
    hcompiled.canonicalized, fun hprovided => ?_⟩
  have hle := (providedOn_iff hcompiled hwell).mp fun stat => hbytes ▸ hprovided stat
  rw [hlarge.2] at hle
  exact absurd hle (by decide)

end PathGuard.Zygisk
