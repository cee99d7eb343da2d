import Mathlib.Data.List.Forall2
import PathGuard.Core.Validation

/-!
# What `ValidatePolicy` accepts

The loops of `ValidatePolicy` carry what they have seen so far. Here each is described by what it asks of every rule
by itself and by what it asks of all of them together, which does not depend on their order. From that:
`ValidatePolicy` leaves its own output alone, and it does not look at source lines.

* `normalRule`, `visiblePaths` : what one rule comes to, and what the rules are compared by;
* `validatePolicy_ok_iff` : what is accepted, and as what;
* `validatePolicy_idempotent`, `validatePolicy_clearLines` : the two facts every later module uses.
-/

namespace PathGuard

theorem bind_ok_iff {ε α β : Type} {step : Except ε α} {next : α → Except ε β} {result : β} :
    step >>= next = .ok result ↔ ∃ value, step = .ok value ∧ next value = .ok result := by
  refine ⟨fun h => ?_, ?_⟩
  · cases step with
    | ok value => exact ⟨value, rfl, h⟩
    | error failure => exact absurd h (by rintro ⟨⟩)
  · rintro ⟨value, rfl, h⟩
    exact h

section Forall
variable {α β : Type} {R : α → β → Prop} {l : List α} {l' : List β}

theorem exists_of_forall₂ (h : List.Forall₂ R l l') {a : α} (ha : a ∈ l) : ∃ b, R a b := by
  induction h with
  | nil => exact absurd ha List.not_mem_nil
  | cons hab _ ih =>
      rcases List.mem_cons.mp ha with rfl | ha
      · exact ⟨_, hab⟩
      · exact ih ha

theorem map_eq_of_forall₂ {γ : Type} {f : α → γ} {g : β → γ} (h : List.Forall₂ R l l')
    (heq : ∀ a ∈ l, ∀ b, R a b → f a = g b) : l.map f = l'.map g := by
  induction h with
  | nil => rfl
  | cons hab _ ih =>
      rw [List.forall_mem_cons] at heq
      rw [List.map_cons, List.map_cons, heq.1 _ hab, ih heq.2]

theorem mem_iff_of_forall₂ {f : α → Option β} (h : List.Forall₂ (fun a b => f a = some b) l l') {b : β} :
    b ∈ l' ↔ ∃ a ∈ l, f a = some b := by
  induction h with
  | nil => simp
  | cons hab _ ih => rw [List.mem_cons, ih, List.exists_mem_cons_iff, hab, Option.some.injEq, eq_comm]

end Forall

/-! ## Paths -/

theorem normalizeLogicalPath_some {input output : Bytes} (h : normalizeLogicalPath input = some output) :
    output = input ∧ 0 ∉ input := by
  unfold normalizeLogicalPath at h
  split at h
  · cases h
  · next hstart =>
    obtain ⟨parts, hparts, rfl⟩ := Option.map_eq_some_iff.mp h
    simp only [Bool.or_eq_true, decide_eq_true_eq, not_or] at hstart
    unfold splitAndValidate at hparts
    split at hparts
    · cases hparts
    · next hbytes =>
      simp only [Bool.or_eq_true, decide_eq_true_eq, List.contains_iff_mem, not_or] at hbytes
      simp only [hstart.2, if_false] at hparts
      split at hparts
      · rw [← Option.some.inj hparts]
        exact ⟨List.intercalate_splitOn slash, hbytes.2⟩
      · cases hparts

theorem normalizeLogicalPath_parts {input output : Bytes} (h : normalizeLogicalPath input = some output) :
    output.length ≤ kMaxLogicalPathBytes ∧ ∀ part ∈ output.splitOn slash, isPathPart part = true := by
  obtain ⟨rfl, -⟩ := normalizeLogicalPath_some h
  unfold normalizeLogicalPath at h
  split at h
  · cases h
  · next hstart =>
    obtain ⟨parts, hparts, -⟩ := Option.map_eq_some_iff.mp h
    simp only [Bool.or_eq_true, decide_eq_true_eq, not_or] at hstart
    unfold splitAndValidate at hparts
    split at hparts
    · cases hparts
    · next hbytes =>
      simp only [Bool.or_eq_true, decide_eq_true_eq, not_or, Nat.not_lt] at hbytes
      simp only [hstart.2, if_false] at hparts
      split at hparts
      · next hall => exact ⟨hbytes.1.2, List.all_eq_true.mp hall⟩
      · cases hparts

theorem normalizeVisible_some {input output : Bytes} (h : normalizeVisible input = some output) :
    output = input ∧ 0 ∉ input := by
  unfold normalizeVisible at h
  split at h
  · cases h
  · exact normalizeLogicalPath_some h

theorem replacePackage_of_not_mem (package : Bytes) {input : Bytes} (h : openBrace ∉ input) :
    replacePackage package 0 input = input := by
  induction input with
  | nil => rfl
  | cons byte rest ih =>
      rw [List.mem_cons, not_or] at h
      have hprefix : (ascii "\x7bpackage\x7d").isPrefixOf (byte :: rest) = false := by
        rw [← Bool.not_eq_true, List.isPrefixOf_iff_prefix]
        intro hpre
        exact h.1 (List.cons_prefix_cons.mp hpre).1
      rw [replacePackage, hprefix, if_neg (by decide), ih h.2]

/-- What is left after the replacement holds no placeholder but `{user}`, so a second one changes nothing; the bytes
that the check passes over are those of `user}`. -/
theorem replacePackage_of_onlyUserBraces (package : Bytes) {skip : Nat} {input : Bytes}
    (h : onlyUserBraces skip input = true) (hskip : openBrace ∉ input.take skip) :
    replacePackage package 0 input = input := by
  induction input generalizing skip with
  | nil => rfl
  | cons byte rest ih =>
      have hprefix : (ascii "\x7bpackage\x7d").isPrefixOf (byte :: rest) = false ∧
          replacePackage package 0 rest = rest := by
        cases skip with
        | succ skip =>
            rw [onlyUserBraces] at h
            rw [List.take_succ_cons, List.mem_cons, not_or] at hskip
            refine ⟨?_, ih h hskip.2⟩
            rw [← Bool.not_eq_true, List.isPrefixOf_iff_prefix]
            intro hpre
            exact hskip.1 (List.cons_prefix_cons.mp hpre).1
        | zero =>
            rw [onlyUserBraces] at h
            split at h
            · cases h
            · split at h
              · next hopen =>
                rw [Bool.and_eq_true, List.isPrefixOf_iff_prefix] at h
                obtain ⟨⟨tail, htail⟩, hrest⟩ := h
                have hcons : byte :: rest = openBrace :: (ascii "user\x7d" ++ tail) := by
                  rw [← htail]
                  rfl
                obtain ⟨-, hrest'⟩ := List.cons.inj hcons
                refine ⟨?_, ih hrest ?_⟩
                · rw [hcons]
                  rfl
                · rw [hrest']
                  simp [ascii, openBrace]
              · next hopen =>
                refine ⟨?_, ih h (by simp)⟩
                rw [← Bool.not_eq_true, List.isPrefixOf_iff_prefix]
                intro hpre
                exact hopen (List.cons_prefix_cons.mp hpre).1.symm
      rw [replacePackage, hprefix.1, if_neg (by decide), hprefix.2]

theorem expandPathPlaceholders_iff {input package output : Bytes} :
    expandPathPlaceholders input package = some output ↔
      (package.isEmpty || package.any isPackageStop) = false ∧ replacePackage package 0 input = output ∧
        onlyUserBraces 0 output = true := by
  unfold expandPathPlaceholders
  cases package.isEmpty || package.any isPackageStop with
  | true => simp
  | false =>
      rw [if_neg (by decide)]
      simp only [Option.ite_none_right_eq_some, Option.some.injEq, true_and]
      exact ⟨fun h => ⟨h.2, h.2 ▸ h.1⟩, fun h => ⟨h.1 ▸ h.2, h.1⟩⟩

theorem normalizeBacking_some {input package output : Bytes} (h : normalizeBacking input package = some output) :
    normalizeBacking output package = some output ∧ 0 ∉ output := by
  obtain ⟨expanded, hexpand, hnormal⟩ := Option.bind_eq_some_iff.mp h
  obtain ⟨rfl, hnul⟩ := normalizeLogicalPath_some hnormal
  obtain ⟨hpackage, -, hbraces⟩ := expandPathPlaceholders_iff.mp hexpand
  refine ⟨?_, hnul⟩
  rw [normalizeBacking, expandPathPlaceholders_iff.mpr
    ⟨hpackage, replacePackage_of_onlyUserBraces package hbraces (by simp), hbraces⟩]
  exact hnormal

theorem normalizeBacking_of_not_mem {input package output : Bytes} (hbrace : openBrace ∉ input)
    (h : normalizeBacking input package = some output) : output = input := by
  obtain ⟨expanded, hexpand, hnormal⟩ := Option.bind_eq_some_iff.mp h
  obtain ⟨rfl, -⟩ := normalizeLogicalPath_some hnormal
  obtain ⟨-, hreplaced, -⟩ := expandPathPlaceholders_iff.mp hexpand
  rw [← hreplaced, replacePackage_of_not_mem package hbrace]

/-! ## One rule -/

/-- The backing path of a rule whose visible path is fine. -/
def normalBacking (package : Bytes) (rule : LogicalMountRule) (visible : Bytes) : Option Bytes :=
  match rule.action with
  | .redirect => normalizeBacking rule.backingPath package
  | .restore => some visible
  | .deny => some []
  | .isolateRoot => some rule.backingPath

/-- The normal form of a rule by itself. -/
def normalRule (package : Bytes) (rule : LogicalMountRule) : Option LogicalMountRule :=
  if rule.action = .isolateRoot then
    (normalizeBacking rule.backingPath package).map fun backing =>
      { rule with visiblePath := [], backingPath := backing, depth := 0 }
  else
    (normalizeVisible rule.visiblePath).bind fun visible =>
      (normalBacking package rule visible).map fun backing =>
        { rule with visiblePath := visible, backingPath := backing, depth := visibleDepth visible }

theorem normalRule_action {package : Bytes} {rule out : LogicalMountRule} (h : normalRule package rule = some out) :
    out.action = rule.action := by
  unfold normalRule at h
  split at h
  · obtain ⟨backing, -, rfl⟩ := Option.map_eq_some_iff.mp h
    rfl
  · obtain ⟨visible, -, h⟩ := Option.bind_eq_some_iff.mp h
    obtain ⟨backing, -, rfl⟩ := Option.map_eq_some_iff.mp h
    rfl

theorem normalRule_visiblePath {package : Bytes} {rule out : LogicalMountRule} (h : normalRule package rule = some out)
    (haction : rule.action ≠ .isolateRoot) : out.visiblePath = rule.visiblePath := by
  rw [normalRule, if_neg haction] at h
  obtain ⟨visible, hvisible, h⟩ := Option.bind_eq_some_iff.mp h
  obtain ⟨backing, -, rfl⟩ := Option.map_eq_some_iff.mp h
  exact (normalizeVisible_some hvisible).1

theorem normalRule_backingPath {package : Bytes} {rule out : LogicalMountRule} (h : normalRule package rule = some out)
    (haction : rule.action = .redirect) : normalizeBacking rule.backingPath package = some out.backingPath := by
  rw [normalRule, haction, if_neg (by decide)] at h
  obtain ⟨visible, -, h⟩ := Option.bind_eq_some_iff.mp h
  rw [normalBacking, haction] at h
  obtain ⟨backing, hbacking, rfl⟩ := Option.map_eq_some_iff.mp h
  exact hbacking

theorem normalRule_some {package : Bytes} {rule out : LogicalMountRule} (h : normalRule package rule = some out) :
    normalRule package out = some out ∧ 0 ∉ out.visiblePath ∧ 0 ∉ out.backingPath := by
  unfold normalRule at h
  split at h
  · next haction =>
    obtain ⟨backing, hbacking, rfl⟩ := Option.map_eq_some_iff.mp h
    obtain ⟨hagain, hnul⟩ := normalizeBacking_some hbacking
    refine ⟨?_, by simp, hnul⟩
    simp [normalRule, haction, hagain]
  · next haction =>
    obtain ⟨visible, hvisible, h⟩ := Option.bind_eq_some_iff.mp h
    obtain ⟨backing, hbacking, rfl⟩ := Option.map_eq_some_iff.mp h
    obtain ⟨rfl, hnul⟩ := normalizeVisible_some hvisible
    cases hkind : rule.action with
    | isolateRoot => exact absurd hkind haction
    | redirect =>
        rw [normalBacking, hkind] at hbacking
        obtain ⟨hagain, hnul'⟩ := normalizeBacking_some hbacking
        refine ⟨?_, hnul, hnul'⟩
        simp [normalRule, normalBacking, hvisible, hagain]
    | restore =>
        rw [normalBacking, hkind] at hbacking
        obtain rfl := Option.some.inj hbacking
        refine ⟨?_, hnul, hnul⟩
        simp [normalRule, normalBacking, hvisible]
    | deny =>
        rw [normalBacking, hkind] at hbacking
        obtain rfl := Option.some.inj hbacking
        refine ⟨?_, hnul, by simp⟩
        simp [normalRule, normalBacking, hvisible]

theorem normalizeMount_ok_iff {package : Bytes} {seen : List Bytes} {rule out : LogicalMountRule}
    (haction : rule.action ≠ .isolateRoot) :
    normalizeMount package seen rule = .ok out ↔ normalRule package rule = some out ∧ out.visiblePath ∉ seen := by
  unfold normalizeMount normalRule
  rw [if_neg haction]
  cases hvisible : normalizeVisible rule.visiblePath with
  | none => simp
  | some visible =>
      simp only [Option.bind_some]
      by_cases hseen : visible ∈ seen
      · rw [if_pos (by simpa using hseen)]
        simp only [reduceCtorEq, false_iff]
        rintro ⟨h, hfresh⟩
        obtain ⟨backing, -, rfl⟩ := Option.map_eq_some_iff.mp h
        exact absurd hseen hfresh
      · rw [if_neg (by simpa using hseen), normalBacking]
        cases hkind : rule.action with
        | isolateRoot => exact absurd hkind haction
        | restore =>
            simp only [Except.ok.injEq, Option.map_some, Option.some.injEq]
            exact ⟨fun h => ⟨h, h ▸ hseen⟩, fun h => h.1⟩
        | deny =>
            simp only [Except.ok.injEq, Option.map_some, Option.some.injEq]
            exact ⟨fun h => ⟨h, h ▸ hseen⟩, fun h => h.1⟩
        | redirect =>
            simp only
            cases hbacking : normalizeBacking rule.backingPath package with
            | none => simp
            | some backing =>
                simp only [Except.ok.injEq, Option.map_some, Option.some.injEq]
                exact ⟨fun h => ⟨h, h ▸ hseen⟩, fun h => h.1⟩

/-! ## All mounts -/

def isIsolate (rule : LogicalMountRule) : Bool := rule.action == .isolateRoot

/-- The visible paths that must be different. -/
def visiblePaths (rules : List LogicalMountRule) : List Bytes :=
  (rules.filter fun rule => !isIsolate rule).map LogicalMountRule.visiblePath

theorem visiblePaths_cons_isolate {rule : LogicalMountRule} (h : rule.action = .isolateRoot)
    (rules : List LogicalMountRule) : visiblePaths (rule :: rules) = visiblePaths rules := by
  simp [visiblePaths, isIsolate, h]

theorem visiblePaths_cons_other {rule : LogicalMountRule} (h : rule.action ≠ .isolateRoot)
    (rules : List LogicalMountRule) : visiblePaths (rule :: rules) = rule.visiblePath :: visiblePaths rules := by
  simp [visiblePaths, isIsolate, h]

/-- The first loop: every rule has a normal form, no visible path comes twice, and there is one isolate rule at
most. -/
theorem normalizeMounts_ok_iff {package : Bytes} {rules out : List LogicalMountRule}
    {isolate root : Option LogicalMountRule} {seen : List Bytes} :
    normalizeMounts package rules isolate seen = .ok (out, root) ↔
      List.Forall₂ (fun rule out => normalRule package rule = some out) rules out ∧
        (visiblePaths out).Nodup ∧ (∀ path ∈ visiblePaths out, path ∉ seen) ∧
        (isolate.toList ++ out.filter isIsolate).length ≤ 1 ∧
        root = (isolate.toList ++ out.filter isIsolate).head? := by
  induction rules generalizing out isolate root seen with
  | nil =>
      rw [normalizeMounts, List.forall₂_nil_left_iff]
      constructor
      · intro h
        obtain ⟨rfl, rfl⟩ := Prod.mk.inj (Except.ok.inj h)
        refine ⟨rfl, by simp [visiblePaths], by simp [visiblePaths], ?_, ?_⟩ <;> cases isolate <;> simp
      · rintro ⟨rfl, -, -, -, rfl⟩
        cases isolate <;> simp
  | cons rule rules ih =>
      rw [normalizeMounts, List.forall₂_cons_left_iff]
      by_cases haction : rule.action = .isolateRoot
      · rw [if_pos haction]
        cases isolate with
        | some first =>
            simp only [Option.isSome_some, if_true, reduceCtorEq, false_iff]
            rintro ⟨⟨o, out', hrule, -, rfl⟩, -, -, hcount, -⟩
            have ho : isIsolate o = true := by simp [isIsolate, normalRule_action hrule, haction]
            simp [ho] at hcount
        | none =>
            have hnormal : normalRule package rule = (normalizeBacking rule.backingPath package).map fun backing =>
                { rule with visiblePath := [], backingPath := backing, depth := 0 } := by
              rw [normalRule, if_pos haction]
            simp only [Option.isSome_none, Bool.false_eq_true, if_false]
            cases hbacking : normalizeBacking rule.backingPath package with
            | none =>
                simp only [reduceCtorEq, false_iff]
                rintro ⟨⟨o, out', hrule, -, -⟩, -⟩
                rw [hnormal, hbacking] at hrule
                cases hrule
            | some backing =>
                rw [hbacking, Option.map_some] at hnormal
                simp only [bind_ok_iff, ih]
                generalize ho : ({ rule with visiblePath := [], backingPath := backing, depth := 0 } :
                  LogicalMountRule) = o at hnormal ⊢
                have hoa : o.action = .isolateRoot := by
                  rw [← ho]
                  exact haction
                constructor
                · rintro ⟨⟨out', root'⟩, ⟨hrules, hnodup, hfresh, hcount, hroot⟩, hout⟩
                  obtain ⟨rfl, rfl⟩ := Prod.mk.inj (Except.ok.inj hout)
                  rw [visiblePaths_cons_isolate hoa]
                  refine ⟨⟨o, out', hnormal, hrules, rfl⟩, hnodup, hfresh, ?_, ?_⟩
                  · simpa [isIsolate, hoa] using hcount
                  · simpa [isIsolate, hoa] using hroot
                · rintro ⟨⟨o', out', hrule, hrules, rfl⟩, hnodup, hfresh, hcount, hroot⟩
                  rw [hnormal, Option.some.injEq] at hrule
                  subst hrule
                  rw [visiblePaths_cons_isolate hoa] at hnodup hfresh
                  refine ⟨(out', root), ⟨hrules, hnodup, hfresh, ?_, ?_⟩, rfl⟩
                  · simpa [isIsolate, hoa] using hcount
                  · simpa [isIsolate, hoa] using hroot
      · rw [if_neg haction]
        simp only [bind_ok_iff, normalizeMount_ok_iff haction, ih]
        constructor
        · rintro ⟨o, ⟨hrule, hseen⟩, ⟨out', root'⟩, ⟨hrules, hnodup, hfresh, hcount, hroot⟩, hout⟩
          obtain ⟨rfl, rfl⟩ := Prod.mk.inj (Except.ok.inj hout)
          have ho : o.action ≠ .isolateRoot := normalRule_action hrule ▸ haction
          rw [visiblePaths_cons_other ho, List.nodup_cons]
          refine ⟨⟨o, out', hrule, hrules, rfl⟩, ⟨fun hmem => ?_, hnodup⟩, ?_, ?_, ?_⟩
          · exact hfresh _ hmem (by simp)
          · rw [List.forall_mem_cons]
            exact ⟨hseen, fun path hpath hmem => hfresh path hpath (List.mem_append_left _ hmem)⟩
          · simpa [isIsolate, ho] using hcount
          · simpa [isIsolate, ho] using hroot
        · rintro ⟨⟨o, out', hrule, hrules, rfl⟩, hnodup, hfresh, hcount, hroot⟩
          have ho : o.action ≠ .isolateRoot := normalRule_action hrule ▸ haction
          rw [visiblePaths_cons_other ho, List.nodup_cons] at hnodup
          rw [visiblePaths_cons_other ho, List.forall_mem_cons] at hfresh
          refine ⟨o, ⟨hrule, hfresh.1⟩, (out', root), ⟨hrules, hnodup.2, ?_, ?_, ?_⟩, rfl⟩
          · intro path hpath hmem
            rcases List.mem_append.mp hmem with hmem | hmem
            · exact hfresh.2 path hpath hmem
            · exact hnodup.1 (List.mem_singleton.mp hmem ▸ hpath)
          · simpa [isIsolate, ho] using hcount
          · simpa [isIsolate, ho] using hroot

/-! ## The other checks -/

/-- What the second loop asks of a rule. -/
def isolateAllows (isolate : Option LogicalMountRule) (rule : LogicalMountRule) : Bool :=
  match isolate with
  | none => rule.action != .restore
  | some root => !(rule.action ≠ .isolateRoot && (isPathOrDescendant rule.visiblePath root.backingPath ||
      isPathOrDescendant root.backingPath rule.visiblePath))

theorem checkIsolate_ok_iff {isolate : Option LogicalMountRule} {rules : List LogicalMountRule} :
    checkIsolate isolate rules = .ok () ↔ ∀ rule ∈ rules, isolateAllows isolate rule = true := by
  induction rules with
  | nil => simp [checkIsolate]
  | cons rule rules ih =>
      rw [List.forall_mem_cons]
      cases isolate with
      | none =>
          rw [checkIsolate, ← ih]
          by_cases haction : rule.action = .restore
          · simp [isolateAllows, haction]
          · simp [isolateAllows, haction]
      | some root =>
          rw [checkIsolate, ← ih]
          split
          · next hconflict =>
            rw [isolateAllows, hconflict]
            simp
          · next hconflict =>
            rw [isolateAllows, Bool.eq_false_iff.mpr hconflict]
            simp

theorem checkProvider_congr {policy policy' : AppPolicy} (hcompat : policy.providerCompat = policy'.providerCompat)
    (husers : policy.users = policy'.users)
    (hmounts : policy.mounts.any (fun rule => rule.action == .redirect) =
      policy'.mounts.any fun rule => rule.action == .redirect) :
    checkProvider policy = checkProvider policy' := by
  rw [checkProvider, checkProvider, hcompat, husers, hmounts]

theorem normalizeUsers_some {users out : List Bytes} (h : normalizeUsers users = some out) :
    normalizeUsers out = some out ∧ out.Perm users := by
  unfold normalizeUsers at h
  split at h
  · next hstar =>
    obtain rfl := Option.some.inj h
    rw [normalizeUsers, if_pos hstar]
    exact ⟨rfl, List.Perm.refl _⟩
  · next hstar =>
    split at h
    · next hall =>
      obtain rfl := Option.some.inj h
      have hperm := sortOn_perm (fun user => (fromCharsUnsigned user).getD 0) users
      refine ⟨?_, hperm⟩
      rw [normalizeUsers, if_neg, if_pos, sortOn_of_pairwise (pairwise_sortOn _ _)]
      · rw [List.all_eq_true] at hall ⊢
        exact fun user huser => hall user (hperm.mem_iff.mp huser)
      · intro heq
        rw [heq] at hperm
        exact hstar (List.perm_singleton.mp hperm.symm)
    · cases h

/-! ## Events -/

theorem normalizeEvent_ok {package : Bytes} {rule out : EventRule} (h : normalizeEvent package rule = .ok out) :
    normalizeEvent package out = .ok out := by
  unfold normalizeEvent at h
  cases hsource : normalizeVisible rule.sourcePath with
  | none => simp [hsource] at h
  | some source =>
      obtain ⟨rfl, -⟩ := normalizeVisible_some hsource
      cases haction : rule.action with
      | kObserve =>
          simp only [hsource, haction, Except.ok.injEq] at h
          subst h
          simp [normalizeEvent, hsource]
      | kExport =>
          simp only [hsource, haction] at h
          cases htarget : normalizeBacking rule.targetPath package with
          | none => simp [htarget] at h
          | some target =>
              simp only [htarget] at h
              split at h
              · cases h
              · next hinside =>
                split at h
                · cases h
                · next hoptions =>
                  obtain rfl := Except.ok.inj h
                  simp only [normalizeEvent, hsource, (normalizeBacking_some htarget).1]
                  rw [if_neg hinside, if_neg hoptions]

/-- The third loop: every event has a normal form, and no key comes twice. -/
theorem normalizeEvents_ok_iff {package : Bytes} {rules out : List EventRule} {seen : List Bytes} :
    normalizeEvents package rules seen = .ok out ↔
      List.Forall₂ (fun rule out => normalizeEvent package rule = .ok out) rules out ∧
        (out.map eventKey).Nodup ∧ ∀ key ∈ out.map eventKey, key ∉ seen := by
  induction rules generalizing out seen with
  | nil =>
      rw [normalizeEvents, List.forall₂_nil_left_iff]
      constructor
      · intro h
        obtain rfl := Except.ok.inj h
        simp
      · rintro ⟨rfl, -⟩
        rfl
  | cons rule rules ih =>
      rw [normalizeEvents, List.forall₂_cons_left_iff]
      simp only [bind_ok_iff]
      constructor
      · rintro ⟨o, hrule, h⟩
        split at h
        · cases h
        · next hseen =>
          obtain ⟨out', hrules, hout⟩ := bind_ok_iff.mp h
          obtain rfl := Except.ok.inj hout
          obtain ⟨hforall, hnodup, hfresh⟩ := ih.mp hrules
          rw [List.map_cons, List.nodup_cons, List.forall_mem_cons]
          refine ⟨⟨o, out', hrule, hforall, rfl⟩, ⟨fun hmem => hfresh _ hmem (by simp), hnodup⟩, by simpa using hseen,
            fun key hkey hmem => hfresh key hkey (List.mem_append_left _ hmem)⟩
      · rintro ⟨⟨o, out', hrule, hforall, rfl⟩, hnodup, hfresh⟩
        rw [List.map_cons, List.nodup_cons] at hnodup
        rw [List.map_cons, List.forall_mem_cons] at hfresh
        refine ⟨o, hrule, ?_⟩
        rw [if_neg (by simpa using hfresh.1), bind_ok_iff]
        refine ⟨out', ih.mpr ⟨hforall, hnodup.2, fun key hkey hmem => ?_⟩, rfl⟩
        rcases List.mem_append.mp hmem with hmem | hmem
        · exact hfresh.2 key hkey hmem
        · exact hnodup.1 (List.mem_singleton.mp hmem ▸ hkey)

/-! ## ValidatePolicy -/

theorem validatePolicy_ok_iff {policy out : AppPolicy} :
    validatePolicy policy = .ok out ↔ policy.package.isEmpty = false ∧ ∃ users mounts root events,
      normalizeUsers policy.users = some users ∧
      normalizeMounts policy.package policy.mounts none [] = .ok (mounts, root) ∧
      checkIsolate root mounts = .ok () ∧ checkProvider { policy with users := users, mounts := mounts } = .ok () ∧
      normalizeEvents policy.package policy.events [] = .ok events ∧
      out = { policy with
        users := users
        processes := sortOn id policy.processes
        mounts := sortOn mountSortKey mounts
        events := sortOn eventSortKey events } := by
  unfold validatePolicy
  cases hpackage : policy.package.isEmpty with
  | true => simp
  | false =>
      cases husers : normalizeUsers policy.users with
      | none => simp
      | some users =>
          simp only [Bool.false_eq_true, if_false, bind_ok_iff, true_and]
          constructor
          · rintro ⟨⟨mounts, root⟩, hmounts, ⟨⟩, hisolate, ⟨⟩, hprovider, events, hevents, hout⟩
            exact ⟨users, mounts, root, events, rfl, hmounts, hisolate, hprovider, hevents, (Except.ok.inj hout).symm⟩
          · rintro ⟨_, mounts, root, events, heq, hmounts, hisolate, hprovider, hevents, rfl⟩
            obtain rfl := Option.some.inj heq
            exact ⟨(mounts, root), hmounts, (), hisolate, (), hprovider, events, hevents, rfl⟩

theorem eq_of_perm_of_length_le_one {α : Type} {l l' : List α} (h : l.Perm l') (hl : l'.length ≤ 1) : l = l' := by
  cases l' with
  | nil => exact h.eq_nil
  | cons a l' =>
      obtain rfl : l' = [] := List.length_eq_zero_iff.mp (by simpa using hl)
      exact List.perm_singleton.mp h

theorem validatePolicy_idempotent {policy out : AppPolicy} (h : validatePolicy policy = .ok out) :
    validatePolicy out = .ok out := by
  obtain ⟨hpackage, users, mounts, root, events, husers, hmounts, hisolate, hprovider, hevents, rfl⟩ :=
    validatePolicy_ok_iff.mp h
  obtain ⟨hrules, hnodup, -, hcount, hroot⟩ := normalizeMounts_ok_iff.mp hmounts
  obtain ⟨hevent, hkeys, -⟩ := normalizeEvents_ok_iff.mp hevents
  have hperm := sortOn_perm mountSortKey mounts
  have heperm := sortOn_perm eventSortKey events
  -- every rule is its own normal form, in whatever order they come
  have hself : ∀ rule ∈ mounts, normalRule policy.package rule = some rule := fun rule hrule => by
    obtain ⟨original, -, horiginal⟩ := (mem_iff_of_forall₂ hrules).mp hrule
    exact (normalRule_some horiginal).1
  have heself : ∀ rule ∈ events, normalizeEvent policy.package rule = .ok rule := fun rule hrule => by
    obtain ⟨i, hi, rfl⟩ := List.getElem_of_mem hrule
    have hlen := hevent.length_eq
    exact normalizeEvent_ok (List.forall₂_iff_get.mp hevent |>.2 i (by omega) hi)
  have hfilter : (sortOn mountSortKey mounts).filter isIsolate = mounts.filter isIsolate :=
    eq_of_perm_of_length_le_one (hperm.filter _) (by simpa using hcount)
  refine validatePolicy_ok_iff.mpr ⟨hpackage, users, sortOn mountSortKey mounts, root, sortOn eventSortKey events,
    (normalizeUsers_some husers).1, ?_, ?_, ?_, ?_, ?_⟩
  · refine normalizeMounts_ok_iff.mpr ⟨List.forall₂_same.mpr fun rule hrule => hself rule (mem_sortOn.mp hrule), ?_,
      by simp, ?_, ?_⟩
    · exact ((hperm.filter _).map _).nodup_iff.mpr hnodup
    · rw [hfilter]
      exact hcount
    · rw [hfilter]
      exact hroot
  · exact checkIsolate_ok_iff.mpr fun rule hrule => checkIsolate_ok_iff.mp hisolate rule (mem_sortOn.mp hrule)
  · rw [← hprovider]
    refine checkProvider_congr rfl rfl ?_
    exact hperm.any_eq
  · refine normalizeEvents_ok_iff.mpr ⟨List.forall₂_same.mpr fun rule hrule => heself rule (mem_sortOn.mp hrule), ?_,
      by simp⟩
    exact (heperm.map _).nodup_iff.mpr hkeys
  · rw [sortOn_of_pairwise (pairwise_sortOn _ _), sortOn_of_pairwise (pairwise_sortOn _ _),
      sortOn_of_pairwise (pairwise_sortOn _ _)]

/-! ## Source lines -/

def LogicalMountRule.clearLine (rule : LogicalMountRule) : LogicalMountRule := { rule with line := 0 }

def EventRule.clearLine (rule : EventRule) : EventRule := { rule with line := 0 }

/-- The app without its source lines, which the binary format does not keep. -/
def AppPolicy.clearLines (app : AppPolicy) : AppPolicy :=
  { app with
    mounts := app.mounts.map LogicalMountRule.clearLine
    events := app.events.map EventRule.clearLine }

theorem normalRule_clearLine {package : Bytes} {rule out : LogicalMountRule} (h : normalRule package rule = some out) :
    normalRule package rule.clearLine = some out.clearLine := by
  unfold normalRule at h ⊢
  split at h
  · next haction =>
    obtain ⟨backing, hbacking, rfl⟩ := Option.map_eq_some_iff.mp h
    simp only [LogicalMountRule.clearLine, haction, if_true, hbacking, Option.map_some]
  · next haction =>
    obtain ⟨visible, hvisible, h⟩ := Option.bind_eq_some_iff.mp h
    obtain ⟨backing, hbacking, rfl⟩ := Option.map_eq_some_iff.mp h
    have hagain : normalBacking package rule.clearLine visible = some backing := hbacking
    simp only [LogicalMountRule.clearLine, haction, if_false, hvisible, Option.bind_some] at hagain ⊢
    rw [hagain, Option.map_some]

theorem normalizeEvent_clearLine {package : Bytes} {rule out : EventRule} (h : normalizeEvent package rule = .ok out) :
    normalizeEvent package rule.clearLine = .ok out.clearLine := by
  unfold normalizeEvent at h ⊢
  simp only [EventRule.clearLine]
  cases hsource : normalizeVisible rule.sourcePath with
  | none => simp [hsource] at h
  | some source =>
      cases haction : rule.action with
      | kObserve =>
          simp only [hsource, haction, Except.ok.injEq] at h
          subst h
          rfl
      | kExport =>
          simp only [hsource, haction] at h ⊢
          cases htarget : normalizeBacking rule.targetPath package with
          | none => simp [htarget] at h
          | some target =>
              simp only [htarget] at h ⊢
              split at h
              · cases h
              · next hinside =>
                split at h
                · cases h
                · next hoptions =>
                  obtain rfl := Except.ok.inj h
                  rw [if_neg hinside]
                  exact if_neg hoptions

theorem isolateAllows_clearLine (isolate : Option LogicalMountRule) (rule : LogicalMountRule) :
    isolateAllows (isolate.map LogicalMountRule.clearLine) rule.clearLine = isolateAllows isolate rule := by
  cases isolate <;> rfl

theorem visiblePaths_clearLine (rules : List LogicalMountRule) :
    visiblePaths (rules.map LogicalMountRule.clearLine) = visiblePaths rules := by
  rw [visiblePaths, List.filter_map, List.map_map]
  rfl

theorem validatePolicy_clearLines {policy out : AppPolicy} (h : validatePolicy policy = .ok out) :
    validatePolicy policy.clearLines = .ok out.clearLines := by
  obtain ⟨hpackage, users, mounts, root, events, husers, hmounts, hisolate, hprovider, hevents, rfl⟩ :=
    validatePolicy_ok_iff.mp h
  obtain ⟨hrules, hnodup, -, hcount, hroot⟩ := normalizeMounts_ok_iff.mp hmounts
  obtain ⟨hevent, hkeys, -⟩ := normalizeEvents_ok_iff.mp hevents
  refine validatePolicy_ok_iff.mpr ⟨hpackage, users, mounts.map .clearLine, root.map .clearLine,
    events.map .clearLine, husers, ?_, ?_, ?_, ?_, ?_⟩
  · have hfilter : (mounts.map LogicalMountRule.clearLine).filter isIsolate =
        (mounts.filter isIsolate).map .clearLine := by
      rw [List.filter_map]
      rfl
    refine normalizeMounts_ok_iff.mpr ⟨?_, ?_, by simp, ?_, ?_⟩
    · rw [AppPolicy.clearLines, List.forall₂_map_left_iff, List.forall₂_map_right_iff]
      exact hrules.imp fun rule out => normalRule_clearLine
    · rw [visiblePaths_clearLine]
      exact hnodup
    · rw [hfilter]
      simpa using hcount
    · rw [hfilter, hroot]
      simp
  · refine checkIsolate_ok_iff.mpr (List.forall_mem_map.mpr fun rule hrule => ?_)
    rw [isolateAllows_clearLine]
    exact checkIsolate_ok_iff.mp hisolate rule hrule
  · rw [← hprovider]
    refine checkProvider_congr rfl rfl ?_
    rw [List.any_map]
    rfl
  · refine normalizeEvents_ok_iff.mpr ⟨?_, ?_, by simp⟩
    · rw [AppPolicy.clearLines, List.forall₂_map_left_iff, List.forall₂_map_right_iff]
      exact hevent.imp fun rule out => normalizeEvent_clearLine
    · rw [List.map_map]
      exact hkeys
  · have hmountKey : ∀ rule ∈ mounts, mountSortKey rule.clearLine = mountSortKey rule := fun _ _ => rfl
    have heventKey : ∀ rule ∈ events, eventSortKey rule.clearLine = eventSortKey rule := fun _ _ => rfl
    rw [sortOn_map LogicalMountRule.clearLine mounts hmountKey, sortOn_map EventRule.clearLine events heventKey]
    rfl

/-! ## What is known of the result -/

theorem validatePolicy_strings {policy out : AppPolicy} (h : validatePolicy policy = .ok out) :
    out.package = policy.package ∧ out.package ≠ [] ∧ out.users.Perm policy.users ∧
      out.processes.Perm policy.processes ∧ ∀ rule ∈ out.mounts, 0 ∉ rule.visiblePath ∧ 0 ∉ rule.backingPath := by
  obtain ⟨hpackage, users, mounts, root, events, husers, hmounts, -, -, -, rfl⟩ := validatePolicy_ok_iff.mp h
  obtain ⟨hrules, -⟩ := normalizeMounts_ok_iff.mp hmounts
  refine ⟨rfl, by simpa using hpackage, (normalizeUsers_some husers).2, sortOn_perm _ _, fun rule hrule => ?_⟩
  obtain ⟨original, -, horiginal⟩ := (mem_iff_of_forall₂ hrules).mp (mem_sortOn.mp hrule)
  exact (normalRule_some horiginal).2

theorem mem_mounts_of_validatePolicy {policy out : AppPolicy} (h : validatePolicy policy = .ok out)
    {rule : LogicalMountRule} :
    rule ∈ out.mounts ↔ ∃ original ∈ policy.mounts, normalRule policy.package original = some rule := by
  obtain ⟨-, users, mounts, root, events, -, hmounts, -, -, -, rfl⟩ := validatePolicy_ok_iff.mp h
  rw [mem_sortOn]
  exact mem_iff_of_forall₂ (normalizeMounts_ok_iff.mp hmounts).1

theorem exists_mem_mounts_of_validatePolicy {policy out : AppPolicy} (h : validatePolicy policy = .ok out)
    {original : LogicalMountRule} (horiginal : original ∈ policy.mounts) :
    ∃ rule ∈ out.mounts, normalRule policy.package original = some rule := by
  obtain ⟨-, users, mounts, root, events, -, hmounts, -, -, -, rfl⟩ := validatePolicy_ok_iff.mp h
  obtain ⟨rule, hrule⟩ := exists_of_forall₂ (normalizeMounts_ok_iff.mp hmounts).1 horiginal
  exact ⟨rule, (mem_mounts_of_validatePolicy h).mpr ⟨original, horiginal, hrule⟩, hrule⟩

end PathGuard
