import Mathlib.Data.List.Perm.Basic
import PathGuard.Core.RoundTrip
import PathGuard.Rules.Conflicts

/-!
# What the compiled policy says

From the document that was parsed to the document that the executor decodes: every enabled app, and no other, comes
out with the users, processes, redirects and denied paths it was written with.

* `Represents` : what the executor gets for an app says what the app says;
* `CompiledFrom` : a decoded document and the document it was compiled from;
* `decoded_represents` : every enabled app, and no other, is represented.
-/

namespace PathGuard.Rules

/-! ## Names and numbers as list items -/

theorem ne_of_isAlnum {byte : UInt8} (h : isAlnum byte = true) : byte ≠ 0 ∧ byte ≠ comma := by
  constructor
  · rintro rfl
    exact absurd h (by decide)
  · rintro rfl
    exact absurd h (by decide)

theorem byte_of_isPackageName {value : Bytes} (h : isPackageName value = true) {byte : UInt8} (hbyte : byte ∈ value) :
    isAlnum byte = true ∨ byte = 0x5f ∨ byte = dotSign := by
  rw [isPackageName, Bool.and_eq_true, List.all_eq_true] at h
  have hjoined : [dotSign].intercalate (value.splitOn dotSign) = value := List.intercalate_splitOn dotSign
  rw [← hjoined] at hbyte
  rcases mem_intercalate hbyte with hdot | ⟨part, hpart, hbyte⟩
  · exact Or.inr (Or.inr hdot)
  · have hvisited : part ∈ packageParts value := by
      unfold packageParts
      simp only
      split
      · next hlast =>
        rw [← List.dropLast_append_getLast? [] hlast, List.mem_append, List.mem_singleton] at hpart
        rcases hpart with hpart | rfl
        · exact hpart
        · exact absurd hbyte List.not_mem_nil
      · exact hpart
    have hok := h.1 part hvisited
    unfold isPackagePart at hok
    cases part with
    | nil => cases hok
    | cons first rest =>
        rw [Bool.and_eq_true, List.all_eq_true] at hok
        rcases List.mem_cons.mp hbyte with rfl | hrest
        · exact Or.inl (by rw [isAlnum, hok.1, Bool.true_or])
        · rcases Bool.or_eq_true_iff.mp (hok.2 byte hrest) with halnum | hunderscore
          · exact Or.inl halnum
          · exact Or.inr (Or.inl (eq_of_beq hunderscore))

/-- A byte `IsProcessName` allows behind the colon. -/
def IsSuffixByte (byte : UInt8) : Prop := isAlnum byte = true ∨ byte = 0x5f ∨ byte = dotSign

theorem isProcessName_iff (package process : Bytes) :
    isProcessName package process = true ↔
      process = package ∨ ∃ suffix, suffix ≠ [] ∧ (∀ byte ∈ suffix, IsSuffixByte byte) ∧
        process = package ++ 0x3a :: suffix := by
  unfold isProcessName IsSuffixByte
  rw [Bool.or_eq_true, beq_iff_eq]
  apply or_congr_right
  simp only [Bool.and_eq_true, decide_eq_true_eq, List.isPrefixOf_iff_prefix, beq_iff_eq, List.all_eq_true, Bool.or_eq_true]
  constructor
  · rintro ⟨⟨⟨⟨tail, rfl⟩, hlength⟩, hcolon⟩, hrest⟩
    cases tail with
    | nil => simp at hlength
    | cons colon suffix =>
        rw [List.getElem?_append_right (le_refl _), Nat.sub_self] at hcolon
        obtain rfl : colon = 0x3a := Option.some.inj hcolon
        rw [List.drop_length_add_append, List.drop_succ_cons, List.drop_zero] at hrest
        refine ⟨suffix, ?_, fun byte hbyte => or_assoc.mp (hrest byte hbyte), rfl⟩
        rintro rfl
        simp at hlength
  · rintro ⟨suffix, hne, hbytes, rfl⟩
    have hpos := List.length_pos_iff.mpr hne
    refine ⟨⟨⟨List.prefix_append _ _, ?_⟩, ?_⟩, ?_⟩
    · rw [List.length_append, List.length_cons]
      omega
    · rw [List.getElem?_append_right (le_refl _), Nat.sub_self]
      rfl
    · rw [List.drop_length_add_append, List.drop_succ_cons, List.drop_zero]
      exact fun byte hbyte => or_assoc.mpr (hbytes byte hbyte)

theorem IsSuffixByte.ne {byte : UInt8} (h : IsSuffixByte byte) : byte ≠ 0 ∧ byte ≠ comma := by
  rcases h with halnum | rfl | rfl
  · exact ne_of_isAlnum halnum
  · decide
  · decide

theorem listItem_of_isPackageName {value : Bytes} (h : isPackageName value = true) : ListItem value := by
  have hbytes : ∀ byte ∈ value, byte ≠ 0 ∧ byte ≠ comma := fun byte hbyte =>
    IsSuffixByte.ne (byte_of_isPackageName h hbyte)
  refine ⟨?_, fun hzero => (hbytes 0 hzero).1 rfl, fun hcomma => (hbytes comma hcomma).2 rfl⟩
  rintro rfl
  exact absurd h (by decide)

theorem listItem_of_isProcessName {package process : Bytes} (hpackage : isPackageName package = true)
    (h : isProcessName package process = true) : ListItem process := by
  have hitem := listItem_of_isPackageName hpackage
  rcases (isProcessName_iff package process).mp h with rfl | ⟨suffix, -, hsuffix, rfl⟩
  · exact hitem
  · refine ⟨by simp, ?_, ?_⟩
    · rw [List.mem_append, List.mem_cons, not_or, not_or]
      exact ⟨hitem.nul_free, by decide, fun hzero => (hsuffix 0 hzero).ne.1 rfl⟩
    · rw [List.mem_append, List.mem_cons, not_or, not_or]
      exact ⟨hitem.comma_free, by decide, fun hcomma => (hsuffix comma hcomma).ne.2 rfl⟩

theorem isProcessName_star {package : Bytes} (hpackage : isPackageName package = true) :
    isProcessName package (ascii "*") = false := by
  rw [isProcessName, Bool.or_eq_false_iff]
  constructor
  · rw [beq_eq_false_iff_ne]
    rintro rfl
    exact absurd hpackage (by decide)
  · have hlength : ¬ package.length + 1 < (ascii "*").length := by
      rw [show (ascii "*").length = 1 from rfl]
      omega
    simp [hlength]

/-! ## Users -/

theorem fromCharsUnsigned_toDecimal {user : Int} (hlow : 0 ≤ user) (hhigh : user ≤ 99999) :
    fromCharsUnsigned (toDecimal user) = some user.toNat := by
  obtain ⟨hne, hdigits, hvalue⟩ := decimalBytes_digits user.natAbs
  have hdecimal : toDecimal user = decimalBytes user.natAbs := by rw [toDecimal, if_neg (by omega)]
  have hempty : (decimalBytes user.natAbs).isEmpty = false := by simpa using hne
  have hall : (decimalBytes user.natAbs).all isDigit = true := List.all_eq_true.mpr hdigits
  rw [hdecimal, fromCharsUnsigned, hempty, hall, if_neg (by decide), hvalue, if_pos (by omega)]
  exact congrArg some (by omega)

theorem listItem_toDecimal {user : Int} (hlow : 0 ≤ user) : ListItem (toDecimal user) := by
  obtain ⟨hne, hdigits, -⟩ := decimalBytes_digits user.natAbs
  have hdecimal : toDecimal user = decimalBytes user.natAbs := by rw [toDecimal, if_neg (by omega)]
  rw [hdecimal]
  refine ⟨hne, fun hzero => ?_, fun hcomma => ?_⟩
  · exact absurd (hdigits 0 hzero) (by decide)
  · exact absurd (hdigits comma hcomma) (by decide)

theorem mem_map_toDecimal_iff {users : List Int} (h : ∀ user ∈ users, 0 ≤ user ∧ user ≤ 99999) (value : Nat) :
    decimalBytes value ∈ users.map toDecimal ↔ (value : Int) ∈ users := by
  rw [List.mem_map]
  constructor
  · rintro ⟨user, huser, heq⟩
    have hlow := (h user huser).1
    rw [toDecimal, if_neg (by omega)] at heq
    have hvalue := congrArg decimalValue heq
    rw [(decimalBytes_digits _).2.2, (decimalBytes_digits _).2.2] at hvalue
    obtain rfl : user = value := by omega
    exact huser
  · intro huser
    refine ⟨value, huser, ?_⟩
    rw [toDecimal, if_neg (by omega), Int.natAbs_natCast]

theorem star_not_mem_users {users : List Int} (h : ∀ user ∈ users, 0 ≤ user ∧ user ≤ 99999) :
    ascii "*" ∉ users.map toDecimal := by
  intro hstar
  obtain ⟨user, huser, heq⟩ := List.mem_map.mp hstar
  have hlow := (h user huser).1
  rw [toDecimal, if_neg (by omega)] at heq
  have hdigit := (decimalBytes_digits user.natAbs).2.1 0x2a (by rw [heq]; decide)
  exact absurd hdigit (by decide)

/-! ## The strings of a compiled app -/

theorem mem_stdUnique {α : Type} [DecidableEq α] {l : List α} {a : α} : a ∈ stdUnique l ↔ a ∈ l := by
  fun_induction stdUnique l with
  | case1 => rfl
  | case2 b => rfl
  | case3 b l ih =>
      rw [ih]
      simp
  | case4 b c l hne ih => simp only [List.mem_cons, ih]

theorem stdUnique_sublist {α : Type} [DecidableEq α] (l : List α) : (stdUnique l).Sublist l := by
  fun_induction stdUnique l with
  | case1 => exact List.Sublist.refl _
  | case2 b => exact List.Sublist.refl _
  | case3 b l ih => exact ih.cons b
  | case4 b c l hne ih => exact ih.cons_cons b

theorem listItem_star : ListItem (ascii "*") := ⟨by decide, by decide, by decide⟩

theorem orStar_ne_nil (values : List Bytes) : orStar values ≠ [] := by
  unfold orStar
  split
  · exact List.cons_ne_nil _ _
  · next h => simpa using h

theorem listItem_of_mem_orStar {values : List Bytes} (h : ∀ value ∈ values, ListItem value) :
    ∀ value ∈ orStar values, ListItem value := by
  unfold orStar
  split
  · intro value hvalue
    rw [List.mem_singleton.mp hvalue]
    exact listItem_star
  · exact h

section App
variable {limits : RulesLimits} {origins : OriginMap} {app : AppRules}

/-- What `ToPolicyDocument` makes of an app of the document. -/
def compiledApp (limits : RulesLimits) (origins : OriginMap) (app : AppRules) : AppPolicy :=
  toAppPolicy (canonicalApp (resolveApp limits origins app).1)

theorem mem_canonicalApp_users {user : Int} :
    user ∈ (canonicalApp (resolveApp limits origins app).1).users ↔ user ∈ app.users := by
  rw [canonicalApp, mem_stdUnique, mem_sortOn]
  rfl

theorem mem_canonicalApp_processes {process : Bytes} :
    process ∈ (canonicalApp (resolveApp limits origins app).1).processes ↔ process ∈ app.processes := by
  rw [canonicalApp, mem_stdUnique, mem_sortOn]
  rfl

theorem compilerStrings_compiledApp (h : WellFormedApp app) : CompilerStrings (compiledApp limits origins app) where
  package := listItem_of_isPackageName h.package
  users_ne := orStar_ne_nil _
  users := listItem_of_mem_orStar fun text htext => by
    obtain ⟨user, huser, rfl⟩ := List.mem_map.mp htext
    exact listItem_toDecimal (h.users_range user (mem_canonicalApp_users.mp huser)).1
  processes_ne := orStar_ne_nil _
  processes := listItem_of_mem_orStar fun process hprocess =>
    listItem_of_isProcessName h.package (h.processes process (mem_canonicalApp_processes.mp hprocess))
  userNumbers := by
    have hnodup : (canonicalApp (resolveApp limits origins app).1).users.Nodup :=
      (stdUnique_sublist _).nodup ((sortOn_perm _ _).nodup_iff.mpr h.users_nodup)
    show ((orStar ((canonicalApp (resolveApp limits origins app).1).users.map toDecimal)).map fromCharsUnsigned).Nodup
    unfold orStar
    split
    · exact List.nodup_singleton _
    · rw [List.map_map]
      refine hnodup.map_on fun a ha b hb hab => ?_
      obtain ⟨ha0, ha1⟩ := h.users_range a (mem_canonicalApp_users.mp ha)
      obtain ⟨hb0, hb1⟩ := h.users_range b (mem_canonicalApp_users.mp hb)
      rw [Function.comp_apply, Function.comp_apply, fromCharsUnsigned_toDecimal ha0 ha1,
        fromCharsUnsigned_toDecimal hb0 hb1, Option.some.injEq] at hab
      omega

/-! ## One app -/

/-- A path that no placeholder is expanded in. -/
def NoBraces (path : Bytes) : Prop := openBrace ∉ path ∧ closeBrace ∉ path

instance (path : Bytes) : Decidable (NoBraces path) := inferInstanceAs (Decidable (_ ∧ _))

structure BraceFree (app : AppRules) : Prop where
  deny : ∀ rule ∈ app.deny, NoBraces rule.path
  redirects : ∀ rule ∈ app.redirects, NoBraces rule.source ∧ NoBraces rule.target

instance (app : AppRules) : Decidable (BraceFree app) :=
  decidable_of_iff ((∀ rule ∈ app.deny, NoBraces rule.path) ∧
    ∀ rule ∈ app.redirects, NoBraces rule.source ∧ NoBraces rule.target)
    ⟨fun h => ⟨h.1, h.2⟩, fun h => ⟨h.deny, h.redirects⟩⟩

/-- The same set of strings, where none stands for all. -/
def SameItems (values items : List Bytes) : Prop :=
  if items = [] then values = [ascii "*"] else ∀ value, value ∈ values ↔ value ∈ items

theorem sameItems_of_perm {values l items : List Bytes} (hperm : values.Perm (orStar l))
    (hmem : ∀ value, value ∈ l ↔ value ∈ items) : SameItems values items := by
  have hnil : l = [] ↔ items = [] := by
    rw [List.eq_nil_iff_forall_not_mem, List.eq_nil_iff_forall_not_mem]
    exact forall_congr' fun value => not_congr (hmem value)
  unfold SameItems
  split
  · next hitems =>
    rw [hnil.mpr hitems] at hperm
    exact List.perm_singleton.mp hperm
  · next hitems =>
    have hstar : orStar l = l := by rw [orStar, if_neg (by simpa using mt hnil.mp hitems)]
    intro value
    rw [hperm.mem_iff, hstar, hmem]

theorem star_or_mem_iff {values items : List Bytes} (h : SameItems values items) (hstar : ascii "*" ∉ items)
    (expected : Bytes) : values = [ascii "*"] ∨ expected ∈ values ↔ items = [] ∨ expected ∈ items := by
  unfold SameItems at h
  split at h
  · next hitems => simp [h, hitems]
  · next hitems =>
    have hvalues : values ≠ [ascii "*"] := fun heq => hstar ((h _).mp (by simp [heq]))
    simp [hvalues, hitems, h expected]

/-- `policy` says what `app` says. -/
structure Represents (app : AppRules) (policy : AppPolicy) : Prop where
  package : policy.package = app.package
  users : SameItems policy.users (app.users.map toDecimal)
  processes : SameItems policy.processes app.processes
  provider : policy.providerCompat = .virtualize ↔ app.filePicker = true
  redirects : ∀ source target,
    (∃ rule ∈ policy.mounts, rule.action = .redirect ∧ rule.visiblePath = source ∧ rule.backingPath = target) ↔
      ∃ rule ∈ app.redirects, rule.source = source ∧ rule.target = target
  deny : ∀ path,
    (∃ rule ∈ policy.mounts, rule.action = .deny ∧ IsWithin slash rule.visiblePath path) ↔
      ∃ rule ∈ app.deny, IsWithin slash rule.path path

theorem mem_compiledApp_mounts {rule : LogicalMountRule} :
    rule ∈ (compiledApp limits origins app).mounts ↔
      (∃ deny ∈ (resolveApp limits origins app).1.deny, rule = { action := .deny, visiblePath := deny.path.bytes }) ∨
      ∃ redirect ∈ (resolveApp limits origins app).1.redirects, rule =
        { action := .redirect, visiblePath := redirect.source.bytes, backingPath := redirect.target.bytes
          depth := UInt16.ofNat redirect.source.componentOffsets.length } := by
  simp only [compiledApp, toAppPolicy, canonicalApp_deny, canonicalApp_redirects, canonicalRedirect, List.map_map,
    List.mem_append, List.mem_map, Function.comp_apply, eq_comm]

theorem exists_deny_iff {out : AppPolicy} (h : validatePolicy (compiledApp limits origins app) = .ok out)
    {P : Bytes → Prop} :
    (∃ rule ∈ out.mounts, rule.action = .deny ∧ P rule.visiblePath) ↔
      ∃ rule ∈ (resolveApp limits origins app).1.deny, P rule.path.bytes := by
  constructor
  · rintro ⟨rule, hrule, haction, hP⟩
    obtain ⟨original, horiginal, hnormal⟩ := (mem_mounts_of_validatePolicy h).mp hrule
    rw [normalRule_action hnormal] at haction
    rw [normalRule_visiblePath hnormal (by rw [haction]; decide)] at hP
    rcases mem_compiledApp_mounts.mp horiginal with ⟨deny, hdeny, rfl⟩ | ⟨redirect, -, rfl⟩
    · exact ⟨deny, hdeny, hP⟩
    · cases haction
  · rintro ⟨deny, hdeny, hP⟩
    obtain ⟨rule, hrule, hnormal⟩ := exists_mem_mounts_of_validatePolicy h
      (mem_compiledApp_mounts.mpr (Or.inl ⟨deny, hdeny, rfl⟩))
    refine ⟨rule, hrule, normalRule_action hnormal, ?_⟩
    rw [normalRule_visiblePath hnormal (by simp)]
    exact hP

theorem exists_redirect_iff {out : AppPolicy} (h : validatePolicy (compiledApp limits origins app) = .ok out)
    (hbraces : BraceFree app) {source target : Bytes} :
    (∃ rule ∈ out.mounts, rule.action = .redirect ∧ rule.visiblePath = source ∧ rule.backingPath = target) ↔
      ∃ rule ∈ (resolveApp limits origins app).1.redirects, rule.source.bytes = source ∧ rule.target.bytes = target := by
  have htarget : ∀ rule ∈ (resolveApp limits origins app).1.redirects, openBrace ∉ rule.target.bytes := by
    intro rule hrule
    obtain ⟨original, horiginal, -, -, hnormal⟩ := redirect_of_mem limits origins app hrule
    rw [normalizeRulePath_bytes hnormal]
    exact (hbraces.redirects original horiginal).2.1
  constructor
  · rintro ⟨rule, hrule, haction, rfl, rfl⟩
    obtain ⟨original, horiginal, hnormal⟩ := (mem_mounts_of_validatePolicy h).mp hrule
    rw [normalRule_action hnormal] at haction
    rcases mem_compiledApp_mounts.mp horiginal with ⟨deny, -, rfl⟩ | ⟨redirect, hredirect, rfl⟩
    · cases haction
    · refine ⟨redirect, hredirect, (normalRule_visiblePath hnormal (by simp)).symm, ?_⟩
      exact (normalizeBacking_of_not_mem (htarget redirect hredirect) (normalRule_backingPath hnormal rfl)).symm
  · rintro ⟨redirect, hredirect, rfl, rfl⟩
    obtain ⟨rule, hrule, hnormal⟩ := exists_mem_mounts_of_validatePolicy h
      (mem_compiledApp_mounts.mpr (Or.inr ⟨redirect, hredirect, rfl⟩))
    refine ⟨rule, hrule, normalRule_action hnormal, normalRule_visiblePath hnormal (by simp), ?_⟩
    exact normalizeBacking_of_not_mem (htarget redirect hredirect) (normalRule_backingPath hnormal rfl)

theorem represents_clearLines {out : AppPolicy} (h : validatePolicy (compiledApp limits origins app) = .ok out)
    (hsound : AppSound limits origins app) (hbraces : BraceFree app) : Represents app out.clearLines := by
  obtain ⟨hpackage, -, husers, hprocesses, -⟩ := validatePolicy_strings h
  refine ⟨hpackage, sameItems_of_perm husers fun text => ?_, sameItems_of_perm hprocesses fun process => ?_, ?_,
    fun source target => ?_, fun path => ?_⟩
  · simp only [List.mem_map, mem_canonicalApp_users]
  · exact mem_canonicalApp_processes
  · obtain ⟨-, users, mounts, root, events, -, -, -, -, -, rfl⟩ := validatePolicy_ok_iff.mp h
    show (if app.filePicker then ProviderCompat.virtualize else .off) = .virtualize ↔ _
    cases app.filePicker <;> simp
  · have hclear : (∃ rule ∈ out.clearLines.mounts, rule.action = .redirect ∧ rule.visiblePath = source ∧
        rule.backingPath = target) ↔ ∃ rule ∈ out.mounts, rule.action = .redirect ∧ rule.visiblePath = source ∧
        rule.backingPath = target := by
      simp [AppPolicy.clearLines, LogicalMountRule.clearLine]
    rw [hclear, exists_redirect_iff h hbraces]
    constructor
    · rintro ⟨rule, hrule, rfl, rfl⟩
      obtain ⟨original, horiginal, -, hsource, htarget⟩ := redirect_of_mem limits origins app hrule
      exact ⟨original, horiginal, (normalizeRulePath_bytes hsource).symm, (normalizeRulePath_bytes htarget).symm⟩
    · rintro ⟨original, horiginal, rfl, rfl⟩
      exact mem_of_redirect limits origins app horiginal (passesRedirect_iff.mpr (hsound.redirects original horiginal))
  · have hclear : (∃ rule ∈ out.clearLines.mounts, rule.action = .deny ∧ IsWithin slash rule.visiblePath path) ↔
        ∃ rule ∈ out.mounts, rule.action = .deny ∧ IsWithin slash rule.visiblePath path := by
      simp [AppPolicy.clearLines, LogicalMountRule.clearLine]
    rw [hclear, exists_deny_iff h (P := fun visible => IsWithin slash visible path)]
    constructor
    · rintro ⟨rule, hrule, hwithin⟩
      obtain ⟨original, horiginal, -, hnormal⟩ := deny_of_mem limits origins app hrule
      exact ⟨original, horiginal, normalizeRulePath_bytes hnormal ▸ hwithin⟩
    · rintro ⟨original, horiginal, hwithin⟩
      obtain ⟨rule, hrule, hcovers⟩ := covered_of_deny limits origins app horiginal
        (passesPath_iff.mpr (hsound.deny original horiginal))
      exact ⟨rule, hrule, hcovers.trans hwithin⟩

end App

/-! ## The whole document -/

section Document
variable {toml : TomlParser} {source : SourceBuffer} {limits : RulesLimits} {document : RulesDocument}

def enabledApps (document : RulesDocument) : List AppRules := document.apps.filter AppRules.enabled

theorem canonicalPolicy_apps_perm (limits : RulesLimits) (origins : OriginMap) (document : RulesDocument) :
    ((enabledApps document).map (compiledApp limits origins)).Perm
      (toPolicyDocument (canonicalPolicy (resolvedPolicy limits origins document))).apps := by
  have hfilter : (resolvedPolicy limits origins document).apps.filter ResolvedAppPolicy.enabled =
      (enabledApps document).map fun app => (resolveApp limits origins app).1 := by
    rw [resolvedPolicy, List.filter_map]
    rfl
  rw [toPolicyDocument, canonicalPolicy, hfilter, List.map_map]
  refine List.Perm.trans ?_ ((sortOn_perm _ _).map _).symm
  rw [List.map_map]
  exact List.Perm.refl _

theorem encodePolicy_of_encodeAndVerify {canonical : CanonicalPolicy} {blob : PolicyBlob}
    (h : encodeAndVerify canonical = some blob) : encodePolicy (toPolicyDocument canonical) = .ok blob.bytes := by
  unfold encodeAndVerify at h
  split at h
  · cases h
  · next bytes hencode =>
    simp only at h
    split at h
    · rw [← Option.some.inj h, hencode]
    · cases h

theorem verify_of_encodeAndVerify {canonical : CanonicalPolicy} {blob : PolicyBlob}
    (h : encodeAndVerify canonical = some blob) : verifyPolicyBytes blob.bytes blob.contentGeneration = true := by
  unfold encodeAndVerify at h
  split at h
  · cases h
  · next bytes hencode =>
    simp only at h
    split at h
    · next hverify =>
      simp only [verifyPolicyBlob, Bool.and_eq_true] at hverify
      rw [← Option.some.inj h]
      exact hverify.2.2
    · cases h

/-- What `EncodePolicy` makes of the compiled apps of a document. -/
structure CompiledFrom (limits : RulesLimits) (origins : OriginMap) (document : RulesDocument)
    (canonical : PolicyDocument) : Prop where
  canonicalized : canonicalizeDocument (toPolicyDocument (canonicalPolicy (resolvedPolicy limits origins document))) =
    .ok canonical
  isCanonical : Canonical canonical
  valid : ∃ valid, valid.Perm canonical.apps ∧
    List.Forall₂ (fun app out => validatePolicy (compiledApp limits origins app) = .ok out) (enabledApps document) valid
  legacy : canonical.allowLegacyStringBind = document.compatibility.allowLegacyMount

theorem compiledFrom_of_encodePolicy {origins : OriginMap} {bytes : Bytes}
    (hwell : ∀ app ∈ document.apps, WellFormedApp app)
    (hencode : encodePolicy (toPolicyDocument (canonicalPolicy (resolvedPolicy limits origins document))) = .ok bytes) :
    ∃ canonical, CompiledFrom limits origins document canonical ∧ bytes = policyFile canonical := by
  obtain ⟨canonical, hcanonical, hfits, hbytes⟩ := encodePolicy_ok_iff.mp hencode
  have hperm := canonicalPolicy_apps_perm limits origins document
  have hstrings : ∀ app ∈ (toPolicyDocument (canonicalPolicy (resolvedPolicy limits origins document))).apps,
      EncodableStrings app := by
    intro app happ
    obtain ⟨original, horiginal, rfl⟩ := List.mem_map.mp (hperm.mem_iff.mpr happ)
    exact (compilerStrings_compiledApp (hwell original (List.mem_filter.mp horiginal).1)).toEncodableStrings
  obtain ⟨-, -, -, happs, hdocumentEq⟩ := canonicalizeDocument_ok_iff.mp hcanonical
  -- the valid forms, in the order of the apps of the document
  obtain ⟨valid, hvalid, hsame⟩ := List.perm_comp_forall₂ hperm (canonicalizeApps_ok_iff.mp happs).1
  refine ⟨canonical, ⟨hcanonical, canonical_of_ok hcanonical hstrings hfits, ⟨valid, hsame, ?_⟩, ?_⟩, hbytes⟩
  · rw [List.forall₂_map_left_iff] at hvalid
    exact hvalid.imp fun app out hout => hout.1
  · rw [hdocumentEq]
    rfl

theorem Accepted.compiledFrom {parsed : RulesCompileResult} {result : RulesBuildResult}
    (h : Accepted limits parsed document result) (hwell : ∀ app ∈ document.apps, WellFormedApp app) :
    ∃ blob canonical, result.blob = some blob ∧ CompiledFrom limits parsed.origins document canonical ∧
      blob.bytes = policyFile canonical := by
  obtain ⟨blob, hblob, hverify⟩ := h.blob
  obtain ⟨canonical, hcompiled, hbytes⟩ := compiledFrom_of_encodePolicy hwell (encodePolicy_of_encodeAndVerify hverify)
  exact ⟨blob, canonical, hblob, hcompiled, hbytes⟩

namespace CompiledFrom
variable {origins : OriginMap} {canonical : PolicyDocument}

theorem mem_apps_iff (h : CompiledFrom limits origins document canonical) {out : AppPolicy} :
    out ∈ canonical.apps ↔
      ∃ app ∈ enabledApps document, validatePolicy (compiledApp limits origins app) = .ok out := by
  obtain ⟨valid, hperm, hvalid⟩ := h.valid
  have hoption : ∀ app out, validatePolicy (compiledApp limits origins app) = .ok out ↔
      (validatePolicy (compiledApp limits origins app)).toOption = some out := by
    intro app out
    cases validatePolicy (compiledApp limits origins app) <;> simp [Except.toOption]
  simp only [hoption] at hvalid ⊢
  rw [← hperm.mem_iff]
  exact mem_iff_of_forall₂ hvalid

theorem exists_valid (h : CompiledFrom limits origins document canonical) {app : AppRules}
    (happ : app ∈ enabledApps document) :
    ∃ out ∈ canonical.apps, validatePolicy (compiledApp limits origins app) = .ok out := by
  obtain ⟨valid, hperm, hvalid⟩ := h.valid
  obtain ⟨out, hout⟩ := exists_of_forall₂ hvalid happ
  exact ⟨out, h.mem_apps_iff.mpr ⟨app, happ, hout⟩, hout⟩

end CompiledFrom

/-- The blob of an accepted document decodes to the valid forms of the compiled apps, one for every enabled app. -/
theorem decoded_valid (hok : (compileRules toml source limits).ok = true)
    (hdocument : (parseRulesDocument toml source limits).document = some document) :
    ∃ blob decoded generation valid, (compileRules toml source limits).blob = some blob ∧
      decodePolicy blob.bytes = .ok (decoded, generation) ∧ decoded.apps.Perm (valid.map AppPolicy.clearLines) ∧
      List.Forall₂ (fun app out => validatePolicy (compiledApp limits (parseRulesDocument toml source limits).origins app) =
        .ok out) (enabledApps document) valid ∧
      decoded.allowLegacyStringBind = document.compatibility.allowLegacyMount := by
  have haccepted := accepted_of_document hok hdocument
  obtain ⟨blob, canonical, hblob, hcompiled, hbytes⟩ := haccepted.compiledFrom (parseRulesDocument_some hdocument).2
  obtain ⟨valid, hperm, hvalid⟩ := hcompiled.valid
  refine ⟨blob, decodedDocument canonical, contentGeneration canonical, valid, hblob, ?_, ?_, hvalid, hcompiled.legacy⟩
  · rw [hbytes]
    exact hcompiled.isCanonical.decodePolicy_policyFile
  · exact ((sortedApps_perm canonical).map _).trans (hperm.symm.map _)

/-- **The compiled policy.** What the executor decodes from the blob of an accepted document has one app for every
enabled app of the document, and no other, and each says what its app says. -/
theorem decoded_represents (hok : (compileRules toml source limits).ok = true)
    (hroom : (compileRules toml source limits).diagnostics.length < limits.maxDiagnostics)
    (hdocument : (parseRulesDocument toml source limits).document = some document)
    (hbraces : ∀ app ∈ document.apps, BraceFree app) :
    ∃ blob decoded generation apps, (compileRules toml source limits).blob = some blob ∧
      decodePolicy blob.bytes = .ok (decoded, generation) ∧ decoded.apps.Perm apps ∧
      List.Forall₂ Represents (enabledApps document) apps ∧
      decoded.allowLegacyStringBind = document.compatibility.allowLegacyMount := by
  have haccepted := accepted_of_document hok hdocument
  obtain ⟨blob, decoded, generation, valid, hblob, hdecode, hperm, hvalid, hlegacy⟩ := decoded_valid hok hdocument
  refine ⟨blob, decoded, generation, valid.map AppPolicy.clearLines, hblob, hdecode, hperm, ?_, hlegacy⟩
  rw [List.forall₂_map_right_iff]
  have hpaired := (List.forall₂_and_left (p := fun app => app ∈ enabledApps document) _ _).mpr ⟨fun _ h => h, hvalid⟩
  refine hpaired.imp ?_
  rintro app out ⟨happ, hout⟩
  have hmem : app ∈ document.apps := (List.mem_filter.mp happ).1
  exact represents_clearLines hout (haccepted.appSound hroom hmem) (hbraces app hmem)

def foldedDeny : Sample := { deny := ["DCIM/Camera", "DCIM"], redirects := [("Music", "Data")] }

theorem decoded_represents_foldedDeny :
    ∃ document, (parseRulesDocument foldedDeny.toml foldedDeny.source {}).document = some document ∧
      ∃ blob decoded generation apps, (compileRules foldedDeny.toml foldedDeny.source {}).blob = some blob ∧
        decodePolicy blob.bytes = .ok (decoded, generation) ∧ decoded.apps.Perm apps ∧
        List.Forall₂ Represents (enabledApps document) apps ∧
        decoded.allowLegacyStringBind = document.compatibility.allowLegacyMount := by
  have hok : (compileRules foldedDeny.toml foldedDeny.source {}).ok = true := by decide +kernel
  have hroom : (compileRules foldedDeny.toml foldedDeny.source {}).diagnostics.length <
      ({} : RulesLimits).maxDiagnostics := by
    decide +kernel
  have hbraces : ∀ document ∈ (parseRulesDocument foldedDeny.toml foldedDeny.source {}).document,
      ∀ app ∈ document.apps, BraceFree app := by decide +kernel
  obtain ⟨document, haccepted⟩ := accepted_of_ok hok
  exact ⟨document, haccepted.parsed_document, decoded_represents hok hroom haccepted.parsed_document
    (hbraces document haccepted.parsed_document)⟩

end Document

end PathGuard.Rules
