import PathGuard.Core.ValidationSpec
import PathGuard.Zygisk.ProcessPlan

/-!
# The plan of a canonical package

What the loop of `LoadProcessPlan` makes of rules that `ValidatePolicy` has put into their normal form: every rule is
planned, with the number of the user for `{user}` in its backing path, and the loop fails only when the arena of the
plan is full.

* `CanonicalRule`, `LogicalPath` : rules and paths in their normal form;
* `expandRuntimePath_eq`, `plannedMount_eq` : one path, one rule; `loadRules_eq` : the loop.
-/

namespace PathGuard.Zygisk

/-! ## Replacing the user -/

def userPlaceholder : Bytes := ascii "\x7buser\x7d"

/-- Every `{user}` replaced, from the left; `skip` counts the bytes of a placeholder that are still to be passed
over. -/
def replaceUser (user : Bytes) : Nat → Bytes → Bytes
  | _, [] => []
  | skip + 1, _ :: rest => replaceUser user skip rest
  | 0, byte :: rest =>
      if userPlaceholder.isPrefixOf (byte :: rest) then user ++ replaceUser user 5 rest
      else byte :: replaceUser user 0 rest

section Replace
variable {user : Bytes}

theorem replaceUser_placeholder (rest : Bytes) :
    replaceUser user 0 (userPlaceholder ++ rest) = user ++ replaceUser user 0 rest := by
  have hstarts : userPlaceholder.isPrefixOf (userPlaceholder ++ rest) = true := by
    rw [List.isPrefixOf_iff_prefix]
    exact List.prefix_append _ _
  rw [show userPlaceholder ++ rest = openBrace :: (ascii "user\x7d" ++ rest) from rfl] at hstarts ⊢
  rw [replaceUser, if_pos hstarts]
  rfl

theorem replaceUser_cons {byte : UInt8} {rest : Bytes} (h : ¬ userPlaceholder <+: byte :: rest) :
    replaceUser user 0 (byte :: rest) = byte :: replaceUser user 0 rest := by
  rw [replaceUser, if_neg]
  rwa [List.isPrefixOf_iff_prefix]

theorem replaceUser_induction {motive : Bytes → Prop} (nil : motive [])
    (placeholder : ∀ rest, motive rest → motive (userPlaceholder ++ rest))
    (cons : ∀ byte rest, ¬ userPlaceholder <+: byte :: rest → motive rest → motive (byte :: rest)) (input : Bytes) :
    motive input := by
  induction hlength : input.length using Nat.strong_induction_on generalizing input with
  | _ length ih =>
      by_cases hstarts : userPlaceholder <+: input
      · obtain ⟨rest, rfl⟩ := hstarts
        refine placeholder rest (ih rest.length ?_ rest rfl)
        rw [← hlength, List.length_append]
        exact Nat.lt_add_of_pos_left (by decide)
      · cases input with
        | nil => exact nil
        | cons byte rest => exact cons byte rest hstarts (ih rest.length (by rw [← hlength]; simp) rest rfl)

theorem replaceUser_of_not_mem {input : Bytes} (h : openBrace ∉ input) : replaceUser user 0 input = input := by
  induction input with
  | nil => rfl
  | cons byte rest ih =>
      rw [List.mem_cons, not_or] at h
      rw [replaceUser_cons, ih h.2]
      intro hstarts
      exact h.1 (List.cons_prefix_cons.mp hstarts).1

theorem length_replaceUser_le (huser : user.length ≤ 6) (input : Bytes) :
    (replaceUser user 0 input).length ≤ input.length := by
  induction input using replaceUser_induction with
  | nil => simp [replaceUser]
  | placeholder rest ih =>
      rw [replaceUser_placeholder, List.length_append, List.length_append]
      exact Nat.add_le_add huser ih
  | cons byte rest hstarts ih =>
      rw [replaceUser_cons hstarts, List.length_cons, List.length_cons]
      exact Nat.succ_le_succ ih

theorem splitOn_append_of_not_mem {front : Bytes} (h : slash ∉ front) (rest : Bytes) :
    (front ++ rest).splitOn slash = (rest.splitOn slash).modifyHead (front ++ ·) := by
  induction front with
  | nil =>
      rw [List.nil_append]
      cases rest.splitOn slash with
      | nil => rfl
      | cons head tail => rfl
  | cons byte front ih =>
      rw [List.mem_cons, not_or] at h
      rw [List.cons_append, List.splitOn_cons_eq_if_modifyHead, if_neg (by simpa using Ne.symm h.1), ih h.2,
        List.modifyHead_modifyHead]
      rfl

theorem isPrefix_of_splitOn {input head : Bytes} {tail : List Bytes} (h : input.splitOn slash = head :: tail) :
    head <+: input := by
  have hinput : [slash].intercalate (head :: tail) = input := by
    rw [← h]
    exact List.intercalate_splitOn slash
  rw [← hinput]
  cases tail with
  | nil => simp
  | cons next tail =>
      rw [List.intercalate_cons_of_ne_nil (List.cons_ne_nil _ _), List.append_assoc]
      exact List.prefix_append _ _

theorem splitOn_replaceUser (huser : slash ∉ user) (input : Bytes) :
    (replaceUser user 0 input).splitOn slash = (input.splitOn slash).map (replaceUser user 0) := by
  induction input using replaceUser_induction with
  | nil => rfl
  | placeholder rest ih =>
      rw [replaceUser_placeholder, splitOn_append_of_not_mem huser, ih,
        splitOn_append_of_not_mem (show slash ∉ userPlaceholder by decide)]
      cases rest.splitOn slash with
      | nil => rfl
      | cons head tail => simp [replaceUser_placeholder]
  | cons byte rest hstarts ih =>
      rw [replaceUser_cons hstarts, List.splitOn_cons_eq_if_modifyHead, List.splitOn_cons_eq_if_modifyHead, ih]
      split
      · rfl
      · cases hsplit : rest.splitOn slash with
        | nil => rfl
        | cons head tail =>
            have hhead : ¬ userPlaceholder <+: byte :: head := by
              intro hhead
              exact hstarts (hhead.trans (List.cons_prefix_cons.mpr ⟨rfl, isPrefix_of_splitOn hsplit⟩))
            simp [replaceUser_cons hhead]

theorem replaceUser_eq_or_mem (input : Bytes) :
    replaceUser user 0 input = input ∨ ∀ byte ∈ user, byte ∈ replaceUser user 0 input := by
  induction input using replaceUser_induction with
  | nil => exact Or.inl rfl
  | placeholder rest ih =>
      rw [replaceUser_placeholder]
      exact Or.inr fun byte hbyte => List.mem_append_left _ hbyte
  | cons byte rest hstarts ih =>
      rw [replaceUser_cons hstarts]
      rcases ih with heq | hmem
      · exact Or.inl (by rw [heq])
      · exact Or.inr fun other hother => List.mem_cons_of_mem _ (hmem other hother)

theorem onlyUserBraces_placeholder (rest : Bytes) :
    onlyUserBraces 0 (userPlaceholder ++ rest) = onlyUserBraces 0 rest := by
  have hstarts : userPlaceholder.isPrefixOf (userPlaceholder ++ rest) = true := by
    rw [List.isPrefixOf_iff_prefix]
    exact List.prefix_append _ _
  rw [show userPlaceholder ++ rest = openBrace :: (ascii "user\x7d" ++ rest) from rfl] at hstarts ⊢
  rw [onlyUserBraces, if_neg (by decide), if_pos rfl, show ascii "\x7buser\x7d" = userPlaceholder from rfl, hstarts]
  rfl

theorem onlyUserBraces_cons {byte : UInt8} {rest : Bytes} (hstarts : ¬ userPlaceholder <+: byte :: rest)
    (h : onlyUserBraces 0 (byte :: rest) = true) :
    byte ≠ openBrace ∧ byte ≠ closeBrace ∧ onlyUserBraces 0 rest = true := by
  rw [onlyUserBraces] at h
  split at h
  · cases h
  · next hclose =>
    split at h
    · rw [Bool.and_eq_true, List.isPrefixOf_iff_prefix] at h
      exact absurd h.1 hstarts
    · next hopen => exact ⟨hopen, hclose, h⟩

theorem brace_not_mem_replaceUser (huser : openBrace ∉ user ∧ closeBrace ∉ user) {input : Bytes}
    (h : onlyUserBraces 0 input = true) :
    openBrace ∉ replaceUser user 0 input ∧ closeBrace ∉ replaceUser user 0 input := by
  induction input using replaceUser_induction with
  | nil => simp [replaceUser]
  | placeholder rest ih =>
      rw [onlyUserBraces_placeholder] at h
      rw [replaceUser_placeholder, List.mem_append, List.mem_append, not_or, not_or]
      exact ⟨⟨huser.1, (ih h).1⟩, huser.2, (ih h).2⟩
  | cons byte rest hstarts ih =>
      obtain ⟨hopen, hclose, hrest⟩ := onlyUserBraces_cons hstarts h
      rw [replaceUser_cons hstarts, List.mem_cons, List.mem_cons, not_or, not_or]
      exact ⟨⟨hopen.symm, (ih hrest).1⟩, hclose.symm, (ih hrest).2⟩

/-- The loop of `ExpandRuntimePath` replaces the user, as long as the result and its NUL fit. -/
theorem expandUser_eq {capacity : Nat} {input output : Bytes} (h : onlyUserBraces 0 input = true)
    (hcapacity : output.length + (replaceUser user 0 input).length < capacity) :
    expandUser user capacity 0 input output = some (output ++ replaceUser user 0 input) := by
  induction input using replaceUser_induction generalizing output with
  | nil => simp [expandUser, replaceUser]
  | placeholder rest ih =>
      rw [onlyUserBraces_placeholder] at h
      rw [replaceUser_placeholder, List.length_append] at hcapacity
      have hstarts : (ascii "\x7buser\x7d").isPrefixOf (userPlaceholder ++ rest) = true := by
        rw [List.isPrefixOf_iff_prefix]
        exact List.prefix_append _ _
      have hrest := @ih (output ++ user) h (by rw [List.length_append]; omega)
      rw [replaceUser_placeholder, ← List.append_assoc, ← hrest]
      rw [show userPlaceholder ++ rest = openBrace :: (ascii "user\x7d" ++ rest) from rfl] at hstarts ⊢
      rw [expandUser, if_pos hstarts, if_neg (by omega)]
      rfl
  | cons byte rest hstarts ih =>
      obtain ⟨hopen, hclose, hrest⟩ := onlyUserBraces_cons hstarts h
      rw [replaceUser_cons hstarts, List.length_cons] at hcapacity
      have hnext := @ih (output ++ [byte]) hrest (by rw [List.length_append, List.length_singleton]; omega)
      rw [replaceUser_cons hstarts, List.append_cons, ← hnext, expandUser,
        if_neg (by rwa [List.isPrefixOf_iff_prefix]), if_neg]
      simp only [Bool.or_eq_true, decide_eq_true_eq, not_or]
      exact ⟨⟨hopen, hclose⟩, by omega⟩

end Replace

/-! ## Canonical paths -/

/-- What `NormalizeLogicalPath` accepts. -/
structure LogicalPath (path : Bytes) : Prop where
  length_le : path.length ≤ kMaxLogicalPathBytes
  parts : ∀ part ∈ path.splitOn slash, isPathPart part = true

theorem logicalPath_of_normalize {input output : Bytes} (h : normalizeLogicalPath input = some output) :
    LogicalPath output :=
  ⟨(normalizeLogicalPath_parts h).1, (normalizeLogicalPath_parts h).2⟩

theorem visible_of_normalize {input output : Bytes} (h : normalizeVisible input = some output) :
    LogicalPath output ∧ openBrace ∉ output ∧ closeBrace ∉ output := by
  obtain ⟨rfl, -⟩ := normalizeVisible_some h
  unfold normalizeVisible at h
  split at h
  · cases h
  · next hbraces =>
    simp only [containsPlaceholder, Bool.or_eq_true, List.contains_iff_mem, not_or] at hbraces
    exact ⟨logicalPath_of_normalize h, hbraces⟩

theorem backing_of_normalize {input package output : Bytes} (h : normalizeBacking input package = some output) :
    LogicalPath output ∧ onlyUserBraces 0 output = true := by
  obtain ⟨expanded, hexpand, hnormal⟩ := Option.bind_eq_some_iff.mp h
  obtain ⟨rfl, -⟩ := normalizeLogicalPath_some hnormal
  exact ⟨logicalPath_of_normalize hnormal, (expandPathPlaceholders_iff.mp hexpand).2.2⟩

theorem isAllowedTarget_of_parts {path : Bytes}
    (hparts : ∀ part ∈ path.splitOn slash, part ≠ [] ∧ part ≠ ascii "." ∧ part ≠ ascii "..")
    (hopen : openBrace ∉ path) (hclose : closeBrace ∉ path) : isAllowedTarget path = true := by
  have hne : path ≠ [] := by
    rintro rfl
    exact (hparts [] (by simp)).1 rfl
  have hrelative : path.head? ≠ some slash := by
    intro hhead
    cases path with
    | nil => cases hhead
    | cons byte rest =>
        obtain rfl := Option.some.inj hhead
        refine (hparts [] ?_).1 rfl
        rw [List.splitOn_cons_eq_if_modifyHead, if_pos (by decide)]
        exact List.mem_cons_self
  have hvisited : ∀ part ∈ safePathComponents path, part ∈ path.splitOn slash := by
    intro part hpart
    unfold safePathComponents at hpart
    simp only at hpart
    split at hpart
    · exact List.dropLast_subset _ hpart
    · exact hpart
  simp only [isAllowedTarget, hasSafePathComponents, Bool.and_eq_true, Bool.not_eq_true', bne_iff_ne,
    List.isEmpty_eq_false_iff, List.all_eq_true, List.contains_eq_mem, decide_eq_false_iff_not]
  exact ⟨⟨⟨⟨hne, hrelative⟩, fun part hpart =>
    ⟨⟨(hparts part (hvisited part hpart)).1, (hparts part (hvisited part hpart)).2.1⟩,
      (hparts part (hvisited part hpart)).2.2⟩⟩, hopen⟩, hclose⟩

theorem LogicalPath.ne {path : Bytes} (h : LogicalPath path) :
    ∀ part ∈ path.splitOn slash, part ≠ [] ∧ part ≠ ascii "." ∧ part ≠ ascii ".." := by
  intro part hpart
  have hgood := h.parts part hpart
  simp only [isPathPart, Bool.and_eq_true, Bool.not_eq_true', bne_iff_ne, List.isEmpty_eq_false_iff] at hgood
  exact ⟨hgood.1.1.1, hgood.1.2, hgood.2⟩

/-! ## The number of a user -/

section Plan
variable {userId : Nat}

/-- The components of an expanded path are good: one that shows the user has a digit. -/
theorem LogicalPath.replaceUser_ne {backing : Bytes} (hpath : LogicalPath backing) (userId : Nat) :
    ∀ part ∈ (replaceUser (decimalBytes userId) 0 backing).splitOn slash,
      part ≠ [] ∧ part ≠ ascii "." ∧ part ≠ ascii ".." := by
  rw [splitOn_replaceUser (not_mem_decimalBytes (by decide) userId)]
  intro replaced hreplaced
  obtain ⟨part, hpart, rfl⟩ := List.mem_map.mp hreplaced
  rcases @replaceUser_eq_or_mem (decimalBytes userId) part with heq | hmem
  · rw [heq]
    exact hpath.ne part hpart
  · obtain ⟨hne, hdigits, -⟩ := decimalBytes_digits userId
    obtain ⟨digit, hdigit⟩ := List.exists_mem_of_ne_nil _ hne
    have hin := hmem digit hdigit
    have hisDigit := hdigits digit hdigit
    refine ⟨List.ne_nil_of_mem hin, fun hdot => ?_, fun hdots => ?_⟩
    · rw [hdot] at hin
      rw [List.mem_singleton.mp hin] at hisDigit
      cases hisDigit
    · rw [hdots] at hin
      rw [show digit = 0x2e by simpa [ascii] using hin] at hisDigit
      cases hisDigit

theorem brace_not_mem_expanded {backing : Bytes} (hbraces : onlyUserBraces 0 backing = true) (userId : Nat) :
    openBrace ∉ replaceUser (decimalBytes userId) 0 backing ∧ closeBrace ∉ replaceUser (decimalBytes userId) 0 backing :=
  brace_not_mem_replaceUser ⟨not_mem_decimalBytes (by decide) userId, not_mem_decimalBytes (by decide) userId⟩ hbraces

theorem expandRuntimePath_eq (huser : userId < 10 ^ 6) {backing : Bytes} (hpath : LogicalPath backing)
    (hbraces : onlyUserBraces 0 backing = true) :
    expandRuntimePath backing userId PATH_MAX = some (replaceUser (decimalBytes userId) 0 backing) := by
  have hlength := length_replaceUser_le (length_decimalBytes_le (by decide) huser) backing
  have hpathLength := hpath.length_le
  have hexpand : expandUser (decimalBytes userId) PATH_MAX 0 backing [] =
      some (replaceUser (decimalBytes userId) 0 backing) := by
    refine expandUser_eq hbraces ?_
    rw [List.length_nil, PATH_MAX]
    rw [kMaxLogicalPathBytes] at hpathLength
    omega
  obtain ⟨hopen, hclose⟩ := brace_not_mem_expanded hbraces userId
  rw [expandRuntimePath, hexpand, Option.filter_some, if_pos]
  exact isAllowedTarget_of_parts (hpath.replaceUser_ne userId) hopen hclose

/-- What a canonical rule puts into the plan. -/
def plannedRule (userId : Nat) (rule : LogicalMountRule) : PlannedMount :=
  ⟨rule.action, rule.visiblePath, replaceUser (decimalBytes userId) 0 rule.backingPath⟩

/-- A rule that is its own normal form and can be executed. -/
structure CanonicalRule (package : Bytes) (rule : LogicalMountRule) : Prop where
  normal : normalRule package rule = some rule
  action : rule.action = .redirect ∨ rule.action = .deny

theorem CanonicalRule.visible {package : Bytes} {rule : LogicalMountRule} (h : CanonicalRule package rule) :
    LogicalPath rule.visiblePath ∧ openBrace ∉ rule.visiblePath ∧ closeBrace ∉ rule.visiblePath := by
  have hnormal := h.normal
  rw [normalRule, if_neg (by rcases h.action with h | h <;> simp [h])] at hnormal
  obtain ⟨visible, hvisible, hrest⟩ := Option.bind_eq_some_iff.mp hnormal
  obtain ⟨backing, -, heq⟩ := Option.map_eq_some_iff.mp hrest
  have hsame : visible = rule.visiblePath := congrArg LogicalMountRule.visiblePath heq
  exact hsame ▸ visible_of_normalize hvisible

theorem CanonicalRule.deny_backing {package : Bytes} {rule : LogicalMountRule} (h : CanonicalRule package rule)
    (haction : rule.action = .deny) : rule.backingPath = [] := by
  have hnormal := h.normal
  rw [normalRule, if_neg (by simp [haction])] at hnormal
  obtain ⟨visible, -, hrest⟩ := Option.bind_eq_some_iff.mp hnormal
  rw [normalBacking, haction] at hrest
  obtain ⟨backing, hbacking, heq⟩ := Option.map_eq_some_iff.mp hrest
  obtain rfl := Option.some.inj hbacking
  exact (congrArg LogicalMountRule.backingPath heq).symm

theorem CanonicalRule.visible_allowed {package : Bytes} {rule : LogicalMountRule} (h : CanonicalRule package rule) :
    isAllowedTarget rule.visiblePath = true ∧ ¬ PATH_MAX ≤ rule.visiblePath.length := by
  obtain ⟨hvisible, hopen, hclose⟩ := h.visible
  refine ⟨isAllowedTarget_of_parts hvisible.ne hopen hclose, ?_⟩
  have hle := hvisible.length_le
  rw [kMaxLogicalPathBytes] at hle
  rw [PATH_MAX]
  omega

theorem CanonicalRule.backing_expanded (huser : userId < 10 ^ 6) {package : Bytes} {rule : LogicalMountRule}
    (h : CanonicalRule package rule) (haction : rule.action = .redirect) :
    expandRuntimePath rule.backingPath userId PATH_MAX =
      some (replaceUser (decimalBytes userId) 0 rule.backingPath) := by
  obtain ⟨hpath, hbraces⟩ := backing_of_normalize (normalRule_backingPath h.normal haction)
  exact expandRuntimePath_eq huser hpath hbraces

theorem plannedMount_eq (huser : userId < 10 ^ 6) {package : Bytes} {rule : LogicalMountRule}
    (h : CanonicalRule package rule) : plannedMount userId rule = some (plannedRule userId rule) := by
  obtain ⟨hallowed, hlength⟩ := h.visible_allowed
  rcases h.action with haction | haction
  · simp [plannedMount, isExecutableMountAction, haction, hallowed, h.backing_expanded huser haction, hlength,
      plannedRule]
  · have hbacking := h.deny_backing haction
    simp [plannedMount, isExecutableMountAction, haction, hallowed, hbacking, hlength, plannedRule, replaceUser]

/-- The bytes a mount takes in the arena of the plan. -/
def arenaBytes (mount : PlannedMount) : Nat := mount.visiblePath.length + 1 + (mount.backingPath.length + 1)

theorem storePlanPath_eq {pathBytes : Nat} (h : pathBytes ≤ kMaxPlanPathBytes) (path : Bytes) :
    storePlanPath pathBytes path =
      if pathBytes + (path.length + 1) ≤ kMaxPlanPathBytes then some (pathBytes + (path.length + 1)) else none := by
  unfold storePlanPath
  split
  · rw [if_neg (by omega)]
  · rw [if_pos (by omega)]

theorem loadRules_eq (huser : userId < 10 ^ 6) {package : Bytes} {rules : List LogicalMountRule}
    (hrules : ∀ rule ∈ rules, CanonicalRule package rule) {plan : ProcessPlan} (hplan : plan.pathBytes ≤ kMaxPlanPathBytes) :
    loadRules userId rules plan =
      if plan.pathBytes + ((rules.map (plannedRule userId)).map arenaBytes).sum ≤ kMaxPlanPathBytes then
        some { mounts := plan.mounts ++ rules.map (plannedRule userId)
               pathBytes := plan.pathBytes + ((rules.map (plannedRule userId)).map arenaBytes).sum }
      else none := by
  induction rules generalizing plan with
  | nil => simp [loadRules, hplan]
  | cons rule rules ih =>
      rw [List.forall_mem_cons] at hrules
      simp only [loadRules, plannedMount_eq huser hrules.1, Option.bind_eq_bind, Option.bind_some, List.map_cons,
        List.sum_cons, arenaBytes]
      rw [storePlanPath_eq hplan]
      by_cases hvisible : plan.pathBytes + ((plannedRule userId rule).visiblePath.length + 1) ≤ kMaxPlanPathBytes
      · rw [if_pos hvisible, Option.bind_some, storePlanPath_eq hvisible]
        split
        · next hbacking =>
          rw [Option.bind_some, ih hrules.2 hbacking]
          simp only [List.append_assoc, List.singleton_append, Nat.add_assoc]
        · next hbacking =>
          rw [Option.bind_none, if_neg (by omega)]
      · rw [if_neg hvisible, Option.bind_none, if_neg (by omega)]

end Plan

end PathGuard.Zygisk
