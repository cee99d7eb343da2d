import PathGuard.Zygisk.CompiledPlan
import PathGuard.Zygisk.ProviderRules

/-!
# What the provider table holds

The table of `LoadProviderRules` is the list of all rules of all apps, cut off at its capacity.

* `providerRules` : the rules of all apps, for each user that has them;
* `loadProviderRules_eq` : the table, and when it overflows.
-/

namespace PathGuard.Zygisk

/-! ## The rules of a document -/

/-- The rule of a canonical redirect. -/
def userRule (callerUid : UInt32) (userId : Nat) (rule : LogicalMountRule) : ProviderRule where
  callerUid := callerUid.toInt32
  userId := userId
  visiblePath := rule.visiblePath
  backingPath := replaceUser (decimalBytes userId) 0 rule.backingPath

def redirectsOf (mounts : List LogicalMountRule) : List LogicalMountRule := mounts.filter fun rule => rule.action = .redirect

/-- The rules of an app for one user. -/
def userRules (stat : Stat) (app : AppPolicy) (userId : Nat) : List ProviderRule :=
  match packageUid stat userId app.package with
  | none => []
  | some uid => (redirectsOf app.mounts).map (userRule uid userId)

def appRules (stat : Stat) (app : AppPolicy) : List ProviderRule :=
  (app.users.filterMap providerUser).flatMap (userRules stat app)

/-- The rules of all apps with provider redirection. -/
def providerRules (stat : Stat) (apps : List AppPolicy) : List ProviderRule :=
  (apps.filter fun app => app.providerCompat = .virtualize).flatMap (appRules stat)

theorem take_append_take {α : Type} (capacity : Nat) (l l' : List α) :
    (l.take capacity ++ l').take capacity = (l ++ l').take capacity := by
  rw [List.take_append, List.take_append, List.take_take, Nat.min_self, List.length_take]
  congr 2
  omega

theorem providerUser_decimalBytes {userId : Nat} (huser : userId ≤ 99999) :
    providerUser (decimalBytes userId) = some userId := by
  obtain ⟨hne, hdigits, hvalue⟩ := decimalBytes_digits userId
  obtain ⟨digit, rest, hcons⟩ := List.exists_cons_of_ne_nil hne
  have hdigit : isDigit digit = true := hdigits digit (by simp [hcons])
  have hspace := (of_isDigit hdigit).1
  have hstrtol : strtol (decimalBytes userId) = some ((userId : Int), []) := by
    have hdrop : (decimalBytes userId).dropWhile isWhitespace = decimalBytes userId := by
      rw [hcons, List.dropWhile_cons_of_neg (by simp [hspace])]
    have hminus : (decimalBytes userId).head? ≠ some 0x2d := by
      rw [hcons, List.head?_cons, ne_eq, Option.some.injEq]
      rintro rfl
      cases hdigit
    have hplus : (decimalBytes userId).head? ≠ some 0x2b := by
      rw [hcons, List.head?_cons, ne_eq, Option.some.injEq]
      rintro rfl
      cases hdigit
    have htake : (decimalBytes userId).takeWhile isDigit = decimalBytes userId :=
      List.takeWhile_eq_self_iff.mpr hdigits
    have hrest : (decimalBytes userId).dropWhile isDigit = [] := List.dropWhile_eq_nil_iff.mpr hdigits
    have hempty : (decimalBytes userId).isEmpty = false := by simpa using hne
    simp [strtol, hdrop, hminus, hplus, htake, hrest, hempty, hvalue]
  rw [providerUser, hstrtol]
  simp
  omega

theorem providerRule_eq {userId : Nat} (huser : userId < 10 ^ 6) (callerUid : UInt32) {package : Bytes}
    {rule : LogicalMountRule} (h : CanonicalRule package rule) (haction : rule.action = .redirect) :
    providerRule callerUid userId (some rule.visiblePath) (some rule.backingPath) =
      some (userRule callerUid userId rule) := by
  obtain ⟨hallowed, hlength⟩ := h.visible_allowed
  simp [providerRule, hallowed, hlength, h.backing_expanded huser haction, userRule]

section Table
variable {document : PolicyDocument} (hdoc : Canonical document)
include hdoc

/-! ## The loops -/

theorem addProviderRules_eq {done todo : List AppPolicy} {app : AppPolicy}
    (happs : sortedApps document = done ++ app :: todo) {userId : Nat} (huser : userId < 10 ^ 6) (callerUid : UInt32)
    (capacity : Nat) {before after : List LogicalMountRule} (hrules : app.mounts = before ++ after)
    {rules : List ProviderRule} (hlength : rules.length ≤ capacity) :
    addProviderRules (policyFile document) (decodedHeader document) capacity callerUid userId
      (UInt32.ofNat (mountCount done)) after.length before.length rules =
        .ok ((rules ++ (redirectsOf after).map (userRule callerUid userId)).take capacity) := by
  induction after generalizing before rules with
  | nil => simp [addProviderRules, redirectsOf, List.take_of_length_le hlength]
  | cons rule after ih =>
      rw [List.length_cons, addProviderRules]
      by_cases hfull : capacity ≤ rules.length
      · rw [if_pos hfull, List.take_append_of_le_length hfull, List.take_of_length_le hlength]
      · rw [if_neg hfull]
        obtain ⟨visible, backing, hrow⟩ := exists_mountRowOf hdoc (mount_at happs hrules)
        have hrest := fun rules hlength => @ih (before ++ [rule])
          (by rw [hrules, List.append_assoc, List.singleton_append]) rules hlength
        simp only [List.length_append, List.length_singleton] at hrest
        simp only [mountIndex_toNat hdoc happs hrules, hrow.action, hrow.visible, hrow.backing, hrow.readVisible,
          hrow.readBacking, ok_bind]
        by_cases haction : rule.action = .redirect
        · have hmem : rule ∈ app.mounts := by simp [hrules]
          have hcanonical := canonicalRule_of_mem hdoc (mem_apps_of_sortedApps happs) hmem
          have hnext := hrest (rules ++ [userRule callerUid userId rule])
            (by rw [List.length_append, List.length_singleton]; omega)
          rw [if_neg (by simp [haction]), providerRule_eq huser callerUid hcanonical haction]
          simp only [hnext]
          simp [redirectsOf, haction]
        · have hcode : rule.action.code ≠ MountAction.redirect.code := by
            cases hkind : rule.action <;> simp_all <;> decide
          rw [if_pos hcode, hrest _ hlength]
          simp [redirectsOf, haction]

theorem addProviderUsers_eq {done todo : List AppPolicy} {app : AppPolicy}
    (happs : sortedApps document = done ++ app :: todo) (stat : Stat) (capacity : Nat) {items : List Bytes}
    (hitems : ∀ item ∈ items, ∃ userId ≤ 99999, item = decimalBytes userId) {rules : List ProviderRule}
    (hlength : rules.length ≤ capacity) :
    addProviderUsers (policyFile document) (decodedHeader document) capacity stat app.package
      (UInt32.ofNat (mountCount done)) (size32 app.mounts) items rules =
        .ok ((rules ++ (items.filterMap providerUser).flatMap (userRules stat app)).take capacity) := by
  induction items generalizing rules with
  | nil => simp [addProviderUsers, List.take_of_length_le hlength]
  | cons item items ih =>
      rw [List.forall_mem_cons] at hitems
      obtain ⟨⟨userId, huser, rfl⟩, hrest⟩ := hitems
      have hitem := providerUser_decimalBytes huser
      rw [addProviderUsers, List.filterMap_cons_some hitem, List.flatMap_cons, userRules]
      simp only [hitem]
      cases huid : packageUid stat userId app.package with
      | none =>
          rw [List.nil_append]
          exact ih hrest hlength
      | some uid =>
          obtain ⟨-, -, hsize⟩ := hdoc.mountRange happs
          have hloop : addProviderRules (policyFile document) (decodedHeader document) capacity uid userId
              (UInt32.ofNat (mountCount done)) app.mounts.length 0 rules = _ :=
            addProviderRules_eq hdoc happs (by omega) uid capacity (List.nil_append app.mounts).symm hlength
          simp only [hsize]
          rw [hloop, ok_bind, ih hrest (List.length_take_le _ _), take_append_take, List.append_assoc]

/-- What is asked of the users of the apps with provider redirection. -/
def NumericUsers (app : AppPolicy) : Prop :=
  app.providerCompat = .virtualize → ∀ item ∈ app.users, ∃ userId ≤ 99999, item = decimalBytes userId

theorem addProviderPackages_eq (stat : Stat) (capacity : Nat) (husers : ∀ app ∈ document.apps, NumericUsers app)
    {done todo : List AppPolicy} (happs : sortedApps document = done ++ todo) {rules : List ProviderRule}
    (hlength : rules.length ≤ capacity) :
    addProviderPackages (policyFile document) (decodedHeader document) capacity stat todo.length done.length rules =
      .ok ((rules ++ providerRules stat todo).take capacity) := by
  induction todo generalizing done rules with
  | nil => simp [addProviderPackages, providerRules, List.take_of_length_le hlength]
  | cons app todo ih =>
      obtain ⟨name, users, processes, hentry⟩ := exists_entryOf hdoc happs
      have hmem := mem_apps_of_sortedApps happs
      have hstrings := hdoc.strings app hmem
      have hrest := fun rules hlength => @ih (done ++ [app])
        (by rw [happs, List.append_assoc, List.singleton_append]) rules hlength
      simp only [List.length_append, List.length_singleton] at hrest
      simp only [List.length_cons, addProviderPackages, hentry.providerCompat, ok_bind]
      by_cases hprovider : app.providerCompat = .virtualize
      · have hnumeric := husers app hmem hprovider
        have hplain : (joinList app.users).contains 0x2a = false := by
          rw [List.contains_eq_mem, decide_eq_false_iff_not]
          intro hstar
          obtain hcomma | ⟨item, hitem, hstar⟩ := mem_intercalate hstar
          · cases hcomma
          · obtain ⟨userId, -, rfl⟩ := hnumeric item hitem
            exact not_mem_decimalBytes (by decide) userId hstar
        have hitems := listItems_joinList hstrings.users_ne hstrings.users
        have hloop := addProviderUsers_eq hdoc happs stat capacity hnumeric hlength
        rw [if_neg (by simp [hprovider, ProviderCompat.code])]
        simp only [hentry.name, hentry.users, hentry.firstMount, hentry.mountCount, ok_bind, hentry.readName,
          hentry.readUsers, hplain, hitems, hloop, Bool.false_eq_true, if_false]
        rw [hrest _ (List.length_take_le _ _), take_append_take, List.append_assoc]
        simp [providerRules, hprovider, appRules]
      · have hcode : app.providerCompat.code ≠ 1 := by
          cases hkind : app.providerCompat with
          | off => decide
          | virtualize => exact absurd hkind hprovider
        rw [if_pos hcode, hrest _ hlength]
        simp [providerRules, hprovider]

/-- **The provider table.** It holds the rules of all apps, in the order of the package table, as far as it has room. -/
theorem loadProviderRules_eq (stat : Stat) (capacity : Nat) (husers : ∀ app ∈ document.apps, NumericUsers app) :
    loadProviderRules (policyFile document) stat capacity =
      if ((providerRules stat (sortedApps document)).take capacity).isEmpty then rejected
      else .ok ((providerRules stat (sortedApps document)).take capacity) := by
  have hcount : (decodedHeader document).packageCount.toNat = (sortedApps document).length := by
    rw [hdoc.packageCount_toNat, (sortedApps_perm document).length_eq]
  have hloop : addProviderPackages (policyFile document) (decodedHeader document) capacity stat
      (sortedApps document).length 0 [] = .ok (([] ++ providerRules stat (sortedApps document)).take capacity) :=
    @addProviderPackages_eq _ hdoc stat capacity husers [] (sortedApps document) rfl [] (Nat.zero_le _)
  rw [loadProviderRules, readPolicy_policyFile hdoc, ok_bind, hcount, hloop, ok_bind]
  rfl

end Table

end PathGuard.Zygisk
