import PathGuard.Zygisk.Enforceable
import PathGuard.Zygisk.PathHooks

/-!
# Installing the provider hooks

`Install` and what it calls in `zygisk/src/provider_redirect_hook.cpp`, `provider_redirect_lifecycle.hpp`, and the part of
`preAppSpecialize` for the media providers. The rules of the table are checked once more before the hooks use them, and
the hooks stay passive until all of them are there.

* `install` : the checks of the table and the hooks; `CheckedTable` : what the hooks can rely on;
* `install_compiled_iff` : when the hooks of a compiled policy are enabled;
* `installed_redirects` : what they then do to a path.
-/

namespace PathGuard.Zygisk

open Rules (TomlParser RulesLimits SourceBuffer RulesDocument compileRules parseRulesDocument accepted_of_document
  accepted_of_ok parseRulesDocument_some)

/-! ## The rules -/

/-- The check of one component in `ValidLogicalRulePath`. -/
def isRuleComponent (component : Bytes) : Bool :=
  component.length != 0 && component.length ≤ NAME_MAX && component != ascii "." && component != ascii ".."

/-- `ValidLogicalRulePath`. Its loop ends at the terminator, as that of `HasSafePathComponents` does. -/
def validLogicalRulePath (path : Bytes) : Bool :=
  !path.isEmpty && path.head? != some slash && path.length < PATH_MAX && !path.contains openBrace &&
    !path.contains closeBrace && (safePathComponents path).all isRuleComponent

/-- The rule of the hooks with the content of a table entry. -/
def ProviderRule.hookRule (rule : ProviderRule) : PathRule where
  callerUid := rule.callerUid
  userId := UInt32.ofNat rule.userId
  visiblePath := rule.visiblePath
  backingPath := rule.backingPath

def isValidRule (rule : ProviderRule) : Bool :=
  10000 ≤ rule.callerUid && validLogicalRulePath rule.visiblePath && validLogicalRulePath rule.backingPath

/-- Two rules for one visible path that lead to different places. -/
def isAmbiguous (rule current : PathRule) : Bool :=
  current.callerUid == rule.callerUid && current.userId == rule.userId && current.visiblePath == rule.visiblePath &&
    current.backingPath != rule.backingPath

/-- The loop of `Install` over the table: whether all rules are taken, and the ones that are. -/
def installRules : List ProviderRule → List PathRule → Bool × List PathRule
  | [], installed => (true, installed)
  | rule :: rules, installed =>
      if !isValidRule rule || installed.any (isAmbiguous rule.hookRule) then (false, installed)
      else installRules rules (installed ++ [rule.hookRule])

/-! ## Install -/

def kMaxRules : Nat := 64

structure InstallResult where
  hookRegistrationAttempted : Bool := false
  hooksCommitted : Bool := false
  virtualizationActive : Bool := false
  identityHookAttempted : Bool := false
  identityHooks : Bool := false
  deriving DecidableEq

def mustRetainModule (result : InstallResult) : Bool := result.hookRegistrationAttempted || result.identityHookAttempted

def shouldEnableHooks (result : InstallResult) : Bool := result.virtualizationActive

/-- What `Install` meets: the key of the threads, the methods of `Binder` that could be replaced, how many imports were
registered, whether the commit went through, and the functions whose originals are known after it. -/
structure HookEnvironment where
  threadStateKey : Bool
  getCallingUid : Bool
  clearCallingIdentity : Bool
  restoreCallingIdentity : Bool
  registrationCount : Nat
  committed : Bool
  originals : List String

namespace HookEnvironment

/-- `InstallBinderIdentityHooks`. -/
def binderIdentityHooks (environment : HookEnvironment) : Bool :=
  environment.getCallingUid && environment.clearCallingIdentity && environment.restoreCallingIdentity

/-- Its `attempted`. -/
def binderIdentityAttempted (environment : HookEnvironment) : Bool :=
  environment.getCallingUid || environment.clearCallingIdentity || environment.restoreCallingIdentity

def hasOriginal (environment : HookEnvironment) (symbol : String) : Bool := environment.originals.contains symbol

def filesystemComplete (environment : HookEnvironment) : Bool :=
  ["open", "openat"].any environment.hasOriginal &&
    ["stat", "stat64", "fstatat", "fstatat64"].any environment.hasOriginal &&
    ["access", "opendir", "mkdir", "remove", "rename", "realpath", "readlink", "chmod", "chown", "statvfs",
      "inotify_add_watch"].all environment.hasOriginal

/-- `RegisterHooks`. -/
def registerHooks (environment : HookEnvironment) (binderIdentityHooks : Bool) : InstallResult where
  hookRegistrationAttempted := environment.registrationCount != 0
  hooksCommitted := environment.committed
  identityHookAttempted := binderIdentityHooks
  identityHooks := binderIdentityHooks
  virtualizationActive := environment.committed && environment.filesystemComplete && binderIdentityHooks

end HookEnvironment

/-- What `Install` returns, with `g_rules` and `g_hooks_enabled` after it. -/
structure Installation where
  result : InstallResult := {}
  rules : List PathRule := []
  enabled : Bool := false

/-- The first `Install` of a process. -/
def install (environment : HookEnvironment) (rules : List ProviderRule) : Installation :=
  if rules.length = 0 || kMaxRules < rules.length then {}
  else if !environment.threadStateKey then {}
  else
    match installRules rules [] with
    | (false, installed) => { rules := installed }
    | (true, installed) =>
        if !environment.binderIdentityHooks then
          { result := { identityHookAttempted := environment.binderIdentityAttempted }, rules := installed }
        else
          let result := environment.registerHooks environment.binderIdentityHooks
          { result := result
            rules := if !result.virtualizationActive then [] else installed
            enabled := shouldEnableHooks result }

/-! ## The check of the rules -/

/-- No rule leads somewhere else than another one for the same path. -/
def Unambiguous (rules : List PathRule) : Prop := rules.Pairwise fun current rule => isAmbiguous rule current = false

instance (rules : List PathRule) : Decidable (Unambiguous rules) :=
  inferInstanceAs (Decidable (rules.Pairwise fun current rule => isAmbiguous rule current = false))

theorem installRules_fst {rules : List ProviderRule} {installed : List PathRule} :
    (installRules rules installed).1 = true ↔
      (∀ rule ∈ rules, isValidRule rule = true ∧ ∀ current ∈ installed, isAmbiguous rule.hookRule current = false) ∧
        Unambiguous (rules.map ProviderRule.hookRule) := by
  induction rules generalizing installed with
  | nil => simp [installRules, Unambiguous]
  | cons rule rules ih =>
      rw [installRules]
      split
      · next hrefused =>
        simp only [Bool.or_eq_true, Bool.not_eq_true', List.any_eq_true] at hrefused
        simp only [reduceCtorEq, false_iff, not_and]
        intro hall
        obtain ⟨hvalid, hapart⟩ := hall rule List.mem_cons_self
        rcases hrefused with hinvalid | ⟨current, hcurrent, hambiguous⟩
        · rw [hvalid] at hinvalid
          cases hinvalid
        · rw [hapart current hcurrent] at hambiguous
          cases hambiguous
      · next htaken =>
        simp only [Bool.or_eq_true, Bool.not_eq_true', not_or, Bool.not_eq_false, Bool.not_eq_true,
          List.any_eq_false] at htaken
        rw [ih]
        simp only [List.mem_append, List.mem_singleton, Unambiguous, List.map_cons, List.pairwise_cons, List.mem_map,
          forall_exists_index, and_imp, forall_apply_eq_imp_iff₂, List.forall_mem_cons]
        constructor
        · rintro ⟨hall, hpairs⟩
          refine ⟨⟨htaken, fun other hother => ⟨(hall other hother).1, fun current hcurrent => ?_⟩⟩,
            fun other hother => ?_, hpairs⟩
          · exact (hall other hother).2 current (Or.inl hcurrent)
          · exact (hall other hother).2 _ (Or.inr rfl)
        · rintro ⟨⟨-, hall⟩, hfirst, hpairs⟩
          refine ⟨fun other hother => ⟨(hall other hother).1, ?_⟩, hpairs⟩
          rintro current (hcurrent | rfl)
          · exact (hall other hother).2 current hcurrent
          · exact hfirst other hother

theorem installRules_snd {rules : List ProviderRule} {installed : List PathRule}
    (h : (installRules rules installed).1 = true) :
    (installRules rules installed).2 = installed ++ rules.map ProviderRule.hookRule := by
  induction rules generalizing installed with
  | nil => simp [installRules]
  | cons rule rules ih =>
      rw [installRules] at h ⊢
      split
      · next hrefused =>
        rw [if_pos hrefused] at h
        cases h
      · next htaken =>
        rw [if_neg htaken] at h
        rw [ih h, List.map_cons, List.append_assoc, List.singleton_append]

/-! ## The rules of a compiled policy -/

theorem validLogicalRulePath_of_parts {path : Bytes} (hlength : path.length < PATH_MAX)
    (hparts : ∀ part ∈ path.splitOn slash,
      part ≠ [] ∧ part.length ≤ NAME_MAX ∧ part ≠ ascii "." ∧ part ≠ ascii "..")
    (hopen : openBrace ∉ path) (hclose : closeBrace ∉ path) : validLogicalRulePath path = true := by
  have hallowed := isAllowedTarget_of_parts (fun part hpart =>
    ⟨(hparts part hpart).1, (hparts part hpart).2.2.1, (hparts part hpart).2.2.2⟩) hopen hclose
  simp only [isAllowedTarget, hasSafePathComponents, Bool.and_eq_true, Bool.not_eq_true', bne_iff_ne, ne_eq] at hallowed
  obtain ⟨⟨⟨⟨hne, hhead⟩, hsafe⟩, hopen'⟩, hclose'⟩ := hallowed
  simp only [validLogicalRulePath, Bool.and_eq_true, Bool.not_eq_true', bne_iff_ne, ne_eq, decide_eq_true_eq]
  refine ⟨⟨⟨⟨⟨hne, hhead⟩, hlength⟩, hopen'⟩, hclose'⟩, ?_⟩
  rw [List.all_eq_true]
  intro part hpart
  have hmem : part ∈ path.splitOn slash := by
    unfold safePathComponents at hpart
    simp only at hpart
    split at hpart
    · exact List.dropLast_subset _ hpart
    · exact hpart
  obtain ⟨hnil, hshort, hdot, hdots⟩ := hparts part hmem
  simp [isRuleComponent, hnil, hshort, hdot, hdots]

theorem LogicalPath.part_length_le {path part : Bytes} (h : LogicalPath path) (hpart : part ∈ path.splitOn slash) :
    part.length ≤ NAME_MAX := by
  have hgood := h.parts part hpart
  simp only [isPathPart, Bool.and_eq_true, decide_eq_true_eq] at hgood
  exact hgood.1.1.2

theorem CanonicalRule.visible_valid {package : Bytes} {rule : LogicalMountRule} (h : CanonicalRule package rule) :
    validLogicalRulePath rule.visiblePath = true := by
  obtain ⟨hpath, hopen, hclose⟩ := h.visible
  refine validLogicalRulePath_of_parts (Nat.lt_of_le_of_lt hpath.length_le (by decide)) (fun part hpart => ?_) hopen hclose
  obtain ⟨hne, hdot, hdots⟩ := hpath.ne part hpart
  exact ⟨hne, hpath.part_length_le hpart, hdot, hdots⟩

/-- A number of a user is not longer than its placeholder, so that no component becomes too long. -/
theorem CanonicalRule.backing_valid {package : Bytes} {rule : LogicalMountRule} (h : CanonicalRule package rule)
    (haction : rule.action = .redirect) {userId : Nat} (huser : userId < 10 ^ 6) :
    validLogicalRulePath (replaceUser (decimalBytes userId) 0 rule.backingPath) = true := by
  obtain ⟨hpath, hbraces⟩ := backing_of_normalize (normalRule_backingPath h.normal haction)
  obtain ⟨hopen, hclose⟩ := brace_not_mem_expanded hbraces userId
  have hdigits := length_decimalBytes_le (by decide) huser
  refine validLogicalRulePath_of_parts ?_ (fun part hpart => ?_) hopen hclose
  · exact Nat.lt_of_le_of_lt ((length_replaceUser_le hdigits _).trans hpath.length_le) (by decide)
  · obtain ⟨hne, hdot, hdots⟩ := hpath.replaceUser_ne userId part hpart
    refine ⟨hne, ?_, hdot, hdots⟩
    rw [splitOn_replaceUser (not_mem_decimalBytes (by decide) userId)] at hpart
    obtain ⟨original, horiginal, rfl⟩ := List.mem_map.mp hpart
    exact (length_replaceUser_le hdigits _).trans (hpath.part_length_le horiginal)

theorem providerUser_le {item : Bytes} {userId : Nat} (h : providerUser item = some userId) : userId ≤ 99999 := by
  unfold providerUser at h
  split at h
  · split at h
    · cases h
    · next hrange =>
      rw [Bool.or_eq_true, decide_eq_true_eq, decide_eq_true_eq, not_or] at hrange
      obtain rfl := Option.some.inj h
      omega
  · cases h

/-- Every rule that `LoadProviderRules` finds in a compiled policy has paths that `Install` takes. -/
theorem valid_of_mem_providerRules {document : PolicyDocument} (hdoc : Canonical document) {stat : Stat}
    {rule : ProviderRule} (hrule : rule ∈ providerRules stat (sortedApps document)) :
    validLogicalRulePath rule.visiblePath = true ∧ validLogicalRulePath rule.backingPath = true := by
  obtain ⟨app, happ, -, hrule⟩ := mem_providerRules_iff.mp hrule
  obtain ⟨userId, huser, uid, -, mount, hmount, rfl⟩ := mem_appRules_iff.mp hrule
  obtain ⟨hmem, haction⟩ := List.mem_filter.mp hmount
  rw [decide_eq_true_eq] at haction
  obtain ⟨item, -, hitem⟩ := List.mem_filterMap.mp huser
  have hcanonical := canonicalRule_of_mem hdoc (mem_sortOn.mp happ) hmem
  have hsmall : userId < 10 ^ 6 := Nat.lt_of_le_of_lt (providerUser_le hitem) (by decide)
  exact ⟨hcanonical.visible_valid, hcanonical.backing_valid haction hsmall⟩

/-- What the device has to provide for the hooks. -/
def HookEnvironment.complete (environment : HookEnvironment) : Bool :=
  environment.threadStateKey && environment.binderIdentityHooks && environment.committed && environment.filesystemComplete

theorem install_enabled {environment : HookEnvironment} {rules : List ProviderRule} (hne : rules ≠ [])
    (hlength : rules.length ≤ kMaxRules) :
    ((install environment rules).enabled = true ↔
        environment.complete = true ∧ (installRules rules []).1 = true) ∧
      ((install environment rules).enabled = true →
        (install environment rules).rules = rules.map ProviderRule.hookRule) := by
  have hcount : ¬ (rules.length = 0 || decide (kMaxRules < rules.length)) = true := by
    simpa using ⟨hne, hlength⟩
  unfold install
  rw [if_neg hcount]
  cases hinstall : installRules rules [] with
  | mk taken installed =>
      have hinstalled : taken = true → installed = rules.map ProviderRule.hookRule := by
        intro htaken
        have hsnd := installRules_snd (show (installRules rules []).1 = true by rw [hinstall, htaken])
        rwa [hinstall, List.nil_append] at hsnd
      cases htaken : taken with
      | false => cases environment.threadStateKey <;> simp
      | true =>
          cases hkey : environment.threadStateKey with
          | false => simp [HookEnvironment.complete, hkey]
          | true =>
              cases hbinder : environment.binderIdentityHooks with
              | false => simp [HookEnvironment.complete, hkey, hbinder]
              | true =>
                  simp only [HookEnvironment.complete, HookEnvironment.registerHooks, shouldEnableHooks, hkey, hbinder,
                    Bool.not_true, Bool.false_eq_true, if_false, Bool.and_true, Bool.true_and, and_true, true_and]
                  refine fun hactive => ?_
                  rw [if_neg (by simpa using hactive), hinstalled htaken]

section Source
variable {toml : TomlParser} {source : SourceBuffer} {limits : RulesLimits} {document : RulesDocument}

/-- **When the hooks of a compiled policy are enabled.** The paths of the table always pass the check of `Install`, so
that only the device and the uids decide: every owner of a package directory is a uid of an app, and no two packages
with one uid lead one path to different places. Then the hooks have the whole table. -/
theorem install_compiled_iff (hok : (compileRules toml source limits).ok = true)
    (hdocument : (parseRulesDocument toml source limits).document = some document) :
    ∃ blob, (compileRules toml source limits).blob = some blob ∧
      ∀ stat rules environment, loadProviderRules blob.bytes stat kMaxMountRules = .ok rules →
        ((install environment rules).enabled = true ↔ environment.complete = true ∧
          (∀ rule ∈ rules, 10000 ≤ rule.callerUid) ∧ Unambiguous (rules.map ProviderRule.hookRule)) ∧
        ((install environment rules).enabled = true →
          (install environment rules).rules = rules.map ProviderRule.hookRule) := by
  have hwell := (parseRulesDocument_some hdocument).2
  obtain ⟨blob, canonical, hblob, hcompiled, hbytes⟩ := (accepted_of_document hok hdocument).compiledFrom hwell
  refine ⟨blob, hblob, fun stat rules environment hload => ?_⟩
  rw [hbytes, loadProviderRules_eq hcompiled.isCanonical stat kMaxMountRules fun out hmem =>
    (tableApp_of_mem hcompiled hwell hmem).numeric] at hload
  split at hload
  · cases hload
  · next hne =>
    obtain rfl := Except.ok.inj hload
    rw [List.isEmpty_iff] at hne
    obtain ⟨henabled, hrules⟩ := @install_enabled environment _ hne (List.length_take_le _ _)
    refine ⟨?_, hrules⟩
    rw [henabled, installRules_fst]
    refine and_congr_right fun _ => and_congr_left fun _ => forall₂_congr fun rule hrule => ?_
    obtain ⟨hvisible, hbacking⟩ := valid_of_mem_providerRules hcompiled.isCanonical (List.mem_of_mem_take hrule)
    simp [isValidRule, hvisible, hbacking]

/-- Everything `Install` asks for is there. -/
def HookEnvironment.working : HookEnvironment where
  threadStateKey := true
  getCallingUid := true
  clearCallingIdentity := true
  restoreCallingIdentity := true
  registrationCount := 1
  committed := true
  originals := ["open", "stat", "access", "opendir", "mkdir", "remove", "rename", "realpath", "readlink", "chmod", "chown",
    "statvfs", "inotify_add_watch"]

theorem loadProviderRules_firstUser : (compileRules FullTable.toml FullTable.source {}).blob.any (fun blob =>
    (loadProviderRules blob.bytes FullTable.firstUser kMaxMountRules).toOption.any fun rules =>
      rules.length == 5 && rules.all (fun rule => 10000 ≤ rule.callerUid) &&
        decide (Unambiguous (rules.map ProviderRule.hookRule))) = true := by
  decide +kernel

theorem install_compiled_iff_fullTable : ∃ blob rules,
    (compileRules FullTable.toml FullTable.source {}).blob = some blob ∧
      loadProviderRules blob.bytes FullTable.firstUser kMaxMountRules = .ok rules ∧ rules.length = 5 ∧
      (install .working rules).enabled = true ∧ (install .working rules).rules = rules.map ProviderRule.hookRule := by
  obtain ⟨document, haccepted⟩ := accepted_of_ok FullTable.ok_source
  obtain ⟨blob, hblob, hinstall⟩ := install_compiled_iff FullTable.ok_source haccepted.parsed_document
  have hloads := loadProviderRules_firstUser
  rw [hblob, Option.any_some] at hloads
  cases hload : loadProviderRules blob.bytes FullTable.firstUser kMaxMountRules with
  | error error => simp [hload, Except.toOption] at hloads
  | ok rules =>
      simp only [hload, Except.toOption, Option.any_some, Bool.and_eq_true, beq_iff_eq, List.all_eq_true,
        decide_eq_true_eq] at hloads
      obtain ⟨⟨hcount, hcallers⟩, hunambiguous⟩ := hloads
      obtain ⟨henabled, hrules⟩ := hinstall FullTable.firstUser rules .working hload
      have hon := henabled.mpr ⟨by decide, hcallers, hunambiguous⟩
      exact ⟨blob, rules, hblob, hload, hcount, hon, hrules hon⟩

end Source

/-! ## What enabled hooks do -/

theorem component_of_valid {path component : Bytes} (h : validLogicalRulePath path = true)
    (hmem : component ∈ path.splitOn slash) : component ≠ ascii "." ∧ component ≠ ascii ".." := by
  simp only [validLogicalRulePath, Bool.and_eq_true, List.all_eq_true] at h
  have hgood := h.2
  by_cases hlast : (path.splitOn slash).getLast? = some []
  · rw [safePathComponents, if_pos hlast] at hgood
    rw [← List.dropLast_append_getLast? [] hlast, List.mem_append, List.mem_singleton] at hmem
    rcases hmem with hmem | rfl
    · have hcomponent := hgood component hmem
      simp only [isRuleComponent, Bool.and_eq_true, bne_iff_ne, ne_eq] at hcomponent
      exact ⟨hcomponent.1.2, hcomponent.2⟩
    · exact ⟨by decide, by decide⟩
  · rw [safePathComponents, if_neg hlast] at hgood
    have hcomponent := hgood component hmem
    simp only [isRuleComponent, Bool.and_eq_true, bne_iff_ne, ne_eq] at hcomponent
    exact ⟨hcomponent.1.2, hcomponent.2⟩

/-- What comes after a visible path that ends further up is safe when the rest of the deeper one is. -/
theorem hasSafeTail_of_deeper {logical deeper tail tail' : Bytes} (hdeeper : logical ++ tail' = deeper ++ tail)
    (hseparated' : tail' = [] ∨ tail'.head? = some slash) (hseparated : tail = [] ∨ tail.head? = some slash)
    (hlength : logical.length ≤ deeper.length) (hsafe : hasSafeTail tail = true)
    (hcomponents : ∀ component ∈ deeper.splitOn slash, component ≠ ascii "." ∧ component ≠ ascii "..") :
    hasSafeTail tail' = true := by
  obtain ⟨rest, rfl⟩ : logical <+: deeper :=
    List.prefix_of_prefix_length_le ⟨tail', rfl⟩ ⟨tail, hdeeper.symm⟩ hlength
  rw [List.append_assoc, List.append_cancel_left_eq] at hdeeper
  subst hdeeper
  cases rest with
  | nil => exact hsafe
  | cons byte rest =>
      obtain rfl : byte = slash := by simpa using hseparated'
      rw [List.splitOn_append_cons_self] at hcomponents
      have hrest : ∀ component ∈ (slash :: rest).splitOn slash, component ≠ ascii "." ∧ component ≠ ascii ".." := by
        intro component hmem
        rw [List.splitOn_cons_eq_if_modifyHead, if_pos (by decide)] at hmem
        rcases List.mem_cons.mp hmem with rfl | hmem
        · exact ⟨by decide, by decide⟩
        · exact hcomponents component (List.mem_append_right _ hmem)
      have hall : ∀ component ∈ (slash :: rest ++ tail).splitOn slash, component ≠ ascii "." ∧ component ≠ ascii ".." := by
        intro component hmem
        cases tail with
        | nil => exact hrest component (by simpa using hmem)
        | cons next tail =>
            obtain rfl : next = slash := by simpa using hseparated
            rw [List.splitOn_append_cons_self, List.mem_append] at hmem
            rcases hmem with hmem | hmem
            · exact hrest component hmem
            · obtain ⟨hdot, hdots⟩ := hasSafeTail_iff.mp hsafe
              have htail : component ∈ (slash :: tail).splitOn slash := by
                rw [List.splitOn_cons_eq_if_modifyHead, if_pos (by decide)]
                exact List.mem_cons_of_mem _ hmem
              exact ⟨ne_of_mem_of_not_mem htail hdot, ne_of_mem_of_not_mem htail hdots⟩
      exact hasSafeTail_iff.mpr ⟨fun hdot => (hall _ hdot).1 rfl, fun hdots => (hall _ hdots).2 rfl⟩

/-- What the check of the table has found. -/
structure CheckedTable (rules : List ProviderRule) : Prop where
  valid : ∀ rule ∈ rules, isValidRule rule = true
  agree : ∀ rule ∈ rules, ∀ other ∈ rules, other.callerUid = rule.callerUid →
    other.hookRule.userId = rule.hookRule.userId → other.visiblePath = rule.visiblePath →
      other.backingPath = rule.backingPath

theorem isAmbiguous_self (rule : PathRule) : isAmbiguous rule rule = false := by simp [isAmbiguous]

theorem isAmbiguous_comm (rule other : PathRule) : isAmbiguous rule other = isAmbiguous other rule := by
  simp only [isAmbiguous, Bool.beq_comm, bne]

theorem checkedTable_of_installRules {rules : List ProviderRule} (h : (installRules rules []).1 = true) :
    CheckedTable rules := by
  obtain ⟨hvalid, hpairs⟩ := installRules_fst.mp h
  have hapart := hpairs.forall_of_forall_of_flip (fun rule _ => isAmbiguous_self rule)
    (hpairs.imp fun {a b} hab => (isAmbiguous_comm a b).trans hab)
  refine ⟨fun rule hrule => (hvalid rule hrule).1, fun rule hrule other hother hcaller huser hvisible => ?_⟩
  have hagree := hapart (List.mem_map_of_mem hother) (List.mem_map_of_mem hrule)
  simpa [isAmbiguous, ProviderRule.hookRule, hcaller, hvisible, show UInt32.ofNat other.userId =
    UInt32.ofNat rule.userId from huser] using hagree

theorem length_of_enabled {environment : HookEnvironment} {rules : List ProviderRule}
    (h : (install environment rules).enabled = true) : rules.length ≤ kMaxRules := by
  unfold install at h
  split at h
  · cases h
  · next hcount =>
    rw [Bool.or_eq_true, decide_eq_true_eq, decide_eq_true_eq, not_or] at hcount
    omega

/-- **Enabled hooks redirect.** Once `Install` has enabled the hooks, a path of an app at the visible path of one of its
rules goes to the backing path of the rule, under the root it was under, when no rule of the app goes deeper, the rest
of the path is safe and the result fits: the check of the table is what makes the other candidates agree and keeps their
tails safe. -/
theorem installed_redirects {environment : HookEnvironment} {rules : List ProviderRule}
    (henabled : (install environment rules).enabled = true) {rule : ProviderRule} (hrule : rule ∈ rules)
    {path root tail : Bytes} (hlocated : Located rule.hookRule.userId rule.visiblePath path root tail)
    (hsafe : hasSafeTail tail = true)
    (hdeepest : ∀ other ∈ rules, other.callerUid = rule.callerUid → ∀ root' tail',
      Located other.hookRule.userId other.visiblePath path root' tail' →
        other.visiblePath.length ≤ rule.visiblePath.length)
    (hfits : (root ++ rule.backingPath ++ tail).length < PATH_MAX) :
    (rewriteAtPath (install environment rules).rules rule.callerUid path PATH_MAX).getD path =
      root ++ rule.backingPath ++ tail := by
  have hne : rules ≠ [] := List.ne_nil_of_mem hrule
  have hlength : rules.length ≤ kMaxRules := length_of_enabled henabled
  obtain ⟨hiff, hrules⟩ := @install_enabled environment rules hne hlength
  have htable := checkedTable_of_installRules (hiff.mp henabled).2
  have hvalid := htable.valid rule hrule
  simp only [isValidRule, Bool.and_eq_true, decide_eq_true_eq] at hvalid
  have hbest : ∀ offer ∈ (rules.map ProviderRule.hookRule).filterMap
      (candidate PathRule.visiblePath rule.hookRule.callerUid path),
      hasSafeTail offer.tail = true ∧ offer.rule.visiblePath.length ≤ rule.hookRule.visiblePath.length ∧
        (offer.rule.userId = rule.hookRule.userId → offer.rule.visiblePath = rule.hookRule.visiblePath →
          offer.rule.backingPath = rule.hookRule.backingPath) := by
    intro offer hoffer
    obtain ⟨hmem, hcaller, hother⟩ := mem_candidates.mp hoffer
    obtain ⟨other, hotherMem, hsame⟩ := List.mem_map.mp hmem
    rw [← hsame] at hcaller hother ⊢
    have hle := hdeepest other hotherMem hcaller _ _ hother
    refine ⟨?_, hle, fun huser hvisible => htable.agree rule hrule other hotherMem hcaller huser hvisible⟩
    obtain ⟨-, hroot⟩ := root_unique hother.root_mem hlocated.root_mem hother.root_prefix hlocated.root_prefix
    have hpath := hother.path_eq.symm.trans hlocated.path_eq
    rw [hroot, List.append_assoc, List.append_assoc, List.append_cancel_left_eq] at hpath
    exact hasSafeTail_of_deeper hpath hother.separated hlocated.separated hle hsafe fun component hcomponent =>
      component_of_valid hvalid.1.2 hcomponent
  have hmapped : rule.hookRule ∈ rules.map ProviderRule.hookRule := List.mem_map_of_mem hrule
  have hredirects := rewriteAbsolutePath_deepest hmapped hvalid.1.1 hlocated hbest hfits
  rw [rewriteAtPath_eq, hrules henabled]
  exact hredirects

/-- A device that has everything the hooks need. -/
def hookingDevice : HookEnvironment where
  threadStateKey := true
  getCallingUid := true
  clearCallingIdentity := true
  restoreCallingIdentity := true
  registrationCount := 1
  committed := true
  originals := ["open", "stat", "access", "opendir", "mkdir", "remove", "rename", "realpath", "readlink", "chmod",
    "chown", "statvfs", "inotify_add_watch"]

/-- An app with a rule and a rule inside of it. -/
def nestedTable : List ProviderRule :=
  [⟨10382, 0, ascii "Download/a", ascii "Vault"⟩, ⟨10382, 0, ascii "Download/a/b", ascii "Other"⟩]

theorem installed_redirects_nested :
    (rewriteAtPath (install hookingDevice nestedTable).rules 10382 (ascii "/storage/emulated/0/Download/a/b/c") PATH_MAX).getD
      (ascii "/storage/emulated/0/Download/a/b/c") = ascii "/storage/emulated/0/Other/c" :=
  installed_redirects (show (install hookingDevice nestedTable).enabled = true by decide)
    (show (⟨10382, 0, ascii "Download/a/b", ascii "Other"⟩ : ProviderRule) ∈ nestedTable by decide)
    (show Located 0 (ascii "Download/a/b") _ (ascii "/storage/emulated/0/") (ascii "/c") from
      ⟨by decide, rfl, Or.inr rfl⟩)
    (by decide) (fun other hother _ _ _ _ => by
      simp only [nestedTable, List.mem_cons, List.not_mem_nil, or_false] at hother
      rcases hother with rfl | rfl
      · decide
      · decide) (by decide)

end PathGuard.Zygisk
