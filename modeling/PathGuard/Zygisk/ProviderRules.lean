import PathGuard.Zygisk.PolicyReader

/-!
# The rules of the media providers

`LoadProviderRules` of `zygisk/src/module_entry.cpp`: in the process of a media provider every redirect of every app with
provider redirection is put into one table, once for each user whose package directory shows the uid of the app. The
table has a fixed capacity.
-/

namespace PathGuard.Zygisk

/-- `provider_redirect::Rule`. -/
structure ProviderRule where
  callerUid : Int32
  userId : Nat
  visiblePath : Bytes
  backingPath : Bytes
  deriving DecidableEq

/-! ## The users -/

/-- `strtol` in base 10: the value and what comes after it, if there is a number. The caller takes no value that does
not fit into a `long`. -/
def strtol (text : Bytes) : Option (Int × Bytes) :=
  let text := text.dropWhile isWhitespace
  let negative := text.head? = some 0x2d
  let text := if negative || text.head? = some 0x2b then text.tail else text
  let digits := text.takeWhile isDigit
  if digits.isEmpty then none
  else some (if negative then -decimalValue digits else decimalValue digits, text.dropWhile isDigit)

/-- The number of a user, as the loop over the list accepts it. -/
def providerUser (item : Bytes) : Option Nat :=
  match strtol item with
  | some (user, []) => if user < 0 || 99999 < user then none else some user.toNat
  | _ => none

/-- What `stat` finds out: the owner of a path. -/
abbrev Stat := Bytes → Option UInt32

def packageDataPath (userId : Nat) (package : Bytes) : Bytes :=
  ascii "/data/user/" ++ decimalBytes userId ++ slash :: package

/-- The uid of the app, from the owner of its directory. -/
def packageUid (stat : Stat) (userId : Nat) (package : Bytes) : Option UInt32 :=
  if PATH_MAX ≤ (packageDataPath userId package).length then none
  else (stat (packageDataPath userId package)).filter fun uid => 10000 ≤ uid

/-! ## LoadProviderRules -/

/-- The rule of a redirect, if its paths can be used. -/
def providerRule (callerUid : UInt32) (userId : Nat) (visible backing : Option Bytes) : Option ProviderRule := do
  let visible ← visible
  let backing ← backing
  if PATH_MAX ≤ visible.length || !isAllowedTarget visible then none
  else (expandRuntimePath backing userId PATH_MAX).map fun backing =>
    { callerUid := callerUid.toInt32, userId := userId, visiblePath := visible, backingPath := backing }

/-- The loop over the rules of a package, from `index` on. -/
def addProviderRules (data : Bytes) (header : PolicyHeader) (capacity : Nat) (callerUid : UInt32) (userId : Nat)
    (first : UInt32) : Nat → Nat → List ProviderRule → Read (List ProviderRule)
  | 0, _, rules => .ok rules
  | count + 1, index, rules =>
      if capacity ≤ rules.length then .ok rules
      else do
        let mount := header.mountOffset.toNat + (first + UInt32.ofNat index).toNat * kMountRuleSize
        let action ← read8 data (mount + kMountActionOffset)
        if action ≠ MountAction.redirect.code then
          addProviderRules data header capacity callerUid userId first count (index + 1) rules
        else
          let visible ← read32 data (mount + kMountVisiblePathOffset)
          let backing ← read32 data (mount + kMountBackingPathOffset)
          match providerRule callerUid userId (readString data header.stringOffset visible)
              (readString data header.stringOffset backing) with
          | none => addProviderRules data header capacity callerUid userId first count (index + 1) rules
          | some rule =>
              addProviderRules data header capacity callerUid userId first count (index + 1) (rules ++ [rule])

/-- The loop over the users of a package. It ends at an item that is no user. -/
def addProviderUsers (data : Bytes) (header : PolicyHeader) (capacity : Nat) (stat : Stat) (package : Bytes)
    (first mountCount : UInt32) : List Bytes → List ProviderRule → Read (List ProviderRule)
  | [], rules => .ok rules
  | item :: items, rules =>
      match providerUser item with
      | none => .ok rules
      | some userId =>
          match packageUid stat userId package with
          | none => addProviderUsers data header capacity stat package first mountCount items rules
          | some uid => do
              let rules ← addProviderRules data header capacity uid userId first mountCount.toNat 0 rules
              addProviderUsers data header capacity stat package first mountCount items rules

/-- The loop over the packages, from `index` on. -/
def addProviderPackages (data : Bytes) (header : PolicyHeader) (capacity : Nat) (stat : Stat) :
    Nat → Nat → List ProviderRule → Read (List ProviderRule)
  | 0, _, rules => .ok rules
  | count + 1, index, rules => do
      let entry := packageEntry header index
      let providerCompat ← read8 data (entry + kPackageProviderCompatOffset)
      if providerCompat ≠ 1 then addProviderPackages data header capacity stat count (index + 1) rules
      else
        let name ← read32 data (entry + kPackageNameOffset)
        let users ← read32 data (entry + kPackageUsersOffset)
        let firstMount ← read32 data (entry + kPackageFirstMountOffset)
        let mountCount ← read32 data (entry + kPackageMountCountOffset)
        match readString data header.stringOffset name, readString data header.stringOffset users with
        | some package, some users =>
            if users.contains 0x2a then addProviderPackages data header capacity stat count (index + 1) rules
            else
              let rules ← addProviderUsers data header capacity stat package firstMount mountCount (listItems users) rules
              addProviderPackages data header capacity stat count (index + 1) rules
        | _, _ => addProviderPackages data header capacity stat count (index + 1) rules

/-- `LoadProviderRules` of a policy that could be opened and mapped. Its header check is that of `LoadProcessPlan`. -/
def loadProviderRules (data : Bytes) (stat : Stat) (capacity : Nat) : Read (List ProviderRule) := do
  let header ← readPolicy data
  let rules ← addProviderPackages data header capacity stat header.packageCount.toNat 0 []
  if rules.isEmpty then rejected else return rules

end PathGuard.Zygisk
