import PathGuard.Core.Binary
import PathGuard.Core.ValidationSpec

/-!
# The generation of a plan

`ComputePlanGeneration` of `core/src/binary.cpp`: a policy and its canonical form have the same generation, and the
canonical form does not depend on what `std::sort` does with equal keys.

* `SortedLists` : the lists of a policy in the order of their keys;
* `validatePolicy_fixed` : a policy, its canonical form and every rearrangement have one generation.
-/

namespace PathGuard

/-- `ComputePlanGeneration`; the overload without the last argument passes `false`. -/
def computePlanGeneration (policy : AppPolicy) (failureMode : FailureMode) (allowLegacyStringBind : Bool) : UInt64 :=
  if failureMode ≠ .kOpen then 0
  else
    match validatePolicy policy with
    | .error _ => 0
    | .ok canonical => planGeneration canonical failureMode allowLegacyStringBind

/-- The key of the sort in `NormalizeUsers`. -/
def userSortKey (user : Bytes) : Nat := (fromCharsUnsigned user).getD 0

/-- The four lists of a policy that `ValidatePolicy` sorts can come out of the sorts in no other order. -/
structure SortedLists (policy : AppPolicy) : Prop where
  users : SortedOneWay userSortKey policy.users
  processes : SortedOneWay id policy.processes
  mounts : SortedOneWay mountSortKey policy.mounts
  events : SortedOneWay eventSortKey policy.events

/-! ## Keys -/

theorem sortedOneWay_users {users out : List Bytes} (hdistinct : (users.map fromCharsUnsigned).Nodup)
    (h : normalizeUsers users = some out) : SortedOneWay userSortKey out := by
  unfold normalizeUsers at h
  split at h
  · next hstar =>
    obtain rfl := Option.some.inj h
    intro users' hperm _
    rw [hstar] at hperm ⊢
    exact List.perm_singleton.mp hperm
  · split at h
    · next hall =>
      obtain rfl := Option.some.inj h
      rw [List.all_eq_true] at hall
      refine sortedOneWay_sortOn fun a ha b hb hkey => ?_
      obtain ⟨m, hm⟩ := Option.isSome_iff_exists.mp (hall a ha)
      obtain ⟨n, hn⟩ := Option.isSome_iff_exists.mp (hall b hb)
      have hvalue : m = n := by rwa [userSortKey, userSortKey, hm, hn, Option.getD_some, Option.getD_some] at hkey
      exact List.inj_on_of_nodup_map hdistinct ha hb (by rw [hm, hn, hvalue])
    · cases h

/-- The normal rules of an app differ in what they are sorted by: there is one isolate rule, and the others have
visible paths of their own. -/
theorem mountSortKey_injOn {rules : List LogicalMountRule} (hnodup : (visiblePaths rules).Nodup)
    (hcount : (rules.filter isIsolate).length ≤ 1) :
    ∀ a ∈ rules, ∀ b ∈ rules, mountSortKey a = mountSortKey b → a = b := by
  intro a ha b hb hkey
  have hstage : mountStage a.action = mountStage b.action := congrArg (fun key => (ofLex key).1) hkey
  have hvisible : a.visiblePath = b.visiblePath := congrArg (fun key => (ofLex (ofLex (ofLex key).2).2).1) hkey
  have haction : a.action = b.action := by
    revert hstage
    cases a.action <;> cases b.action <;> decide
  have hsame : isIsolate a = isIsolate b := by rw [isIsolate, isIsolate, haction]
  by_cases hisolate : isIsolate a = true
  · have ha' := List.mem_filter.mpr ⟨ha, hisolate⟩
    have hb' := List.mem_filter.mpr ⟨hb, hsame ▸ hisolate⟩
    obtain ⟨i, hi, rfl⟩ := List.getElem_of_mem ha'
    obtain ⟨j, hj, rfl⟩ := List.getElem_of_mem hb'
    obtain rfl : i = j := by omega
    rfl
  · have ha' : a ∈ rules.filter fun rule => !isIsolate rule := List.mem_filter.mpr ⟨ha, by simp [hisolate]⟩
    have hb' : b ∈ rules.filter fun rule => !isIsolate rule := List.mem_filter.mpr ⟨hb, by simp [← hsame, hisolate]⟩
    exact List.inj_on_of_nodup_map hnodup ha' hb' hvisible

theorem eventSortKey_injOn {rules : List EventRule} (hnodup : (rules.map eventKey).Nodup) :
    ∀ a ∈ rules, ∀ b ∈ rules, eventSortKey a = eventSortKey b → a = b := by
  intro a ha b hb hkey
  have haction : a.action.code = b.action.code := congrArg (fun key => (ofLex key).1) hkey
  have hsource : a.sourcePath = b.sourcePath := congrArg (fun key => (ofLex (ofLex key).2).1) hkey
  have htarget : a.targetPath = b.targetPath := congrArg (fun key => (ofLex (ofLex (ofLex key).2).2).1) hkey
  have hoptions : a.options.toNat = b.options.toNat := congrArg (fun key => (ofLex (ofLex (ofLex key).2).2).2) hkey
  refine List.inj_on_of_nodup_map hnodup ha hb ?_
  rw [eventKey, eventKey, haction, hsource, htarget, hoptions]

theorem sortedLists_of_validatePolicy {policy out : AppPolicy} (hdistinct : (policy.users.map fromCharsUnsigned).Nodup)
    (h : validatePolicy policy = .ok out) : SortedLists out := by
  obtain ⟨-, users, mounts, root, events, husers, hmounts, -, -, hevents, rfl⟩ := validatePolicy_ok_iff.mp h
  obtain ⟨-, hnodup, -, hcount, -⟩ := normalizeMounts_ok_iff.mp hmounts
  obtain ⟨-, hkeys, -⟩ := normalizeEvents_ok_iff.mp hevents
  exact ⟨sortedOneWay_users hdistinct husers, sortedOneWay_sortOn fun _ _ _ _ hkey => hkey,
    sortedOneWay_sortOn (mountSortKey_injOn hnodup (by simpa using hcount)),
    sortedOneWay_sortOn (eventSortKey_injOn hkeys)⟩

/-- **Validation is a projection.** What `ValidatePolicy` makes of a policy is accepted and left as it is, whatever
`std::sort` does with equal keys, and it has the generation of the policy. -/
theorem validatePolicy_fixed {policy out : AppPolicy} (hdistinct : (policy.users.map fromCharsUnsigned).Nodup)
    (h : validatePolicy policy = .ok out) :
    validatePolicy out = .ok out ∧ SortedLists out ∧
      ∀ failureMode allowLegacyStringBind, computePlanGeneration out failureMode allowLegacyStringBind =
        computePlanGeneration policy failureMode allowLegacyStringBind := by
  have hfixed := validatePolicy_idempotent h
  refine ⟨hfixed, sortedLists_of_validatePolicy hdistinct h, fun failureMode allowLegacyStringBind => ?_⟩
  rw [computePlanGeneration, computePlanGeneration, hfixed, h]

/-- An app with a rule of every kind, out of order. -/
def mixedPolicy : AppPolicy where
  package := ascii "b.app"
  users := [ascii "10", ascii "007"]
  processes := [ascii "b.app:remote", ascii "b.app"]
  mounts := [
    { action := .deny, visiblePath := ascii "DCIM", backingPath := ascii "unused", depth := 9, line := 7 },
    { action := .redirect, visiblePath := ascii "Music", backingPath := ascii "Data/\x7bpackage\x7d/\x7buser\x7d" },
    { action := .isolateRoot, visiblePath := ascii "unused", backingPath := ascii "Isolated", line := 3 },
    { action := .restore, visiblePath := ascii "Download/Shared" }]
  events := [
    { action := .kExport, sourcePath := ascii "Download", targetPath := ascii "Out", options := 4 },
    { action := .kObserve, sourcePath := ascii "Download", targetPath := ascii "unused", options := 3 }]

theorem validatePolicy_fixed_mixed :
    ∃ out, validatePolicy mixedPolicy = .ok out ∧ validatePolicy out = .ok out ∧ SortedLists out ∧
      ∀ failureMode allowLegacyStringBind, computePlanGeneration out failureMode allowLegacyStringBind =
        computePlanGeneration mixedPolicy failureMode allowLegacyStringBind := by
  have hok : (validatePolicy mixedPolicy).isOk = true := by decide +kernel
  cases hvalid : validatePolicy mixedPolicy with
  | error failure => simp [hvalid, Except.isOk, Except.toBool] at hok
  | ok out => exact ⟨out, rfl, validatePolicy_fixed (by decide) hvalid⟩

end PathGuard
