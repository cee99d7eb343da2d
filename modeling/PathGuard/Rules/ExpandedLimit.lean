import PathGuard.Lib.Checked
import PathGuard.Rules.Semantic

/-!
# The expanded rule limit is exact

`ValidateExpandedRuleLimit` multiplies and adds in `std::size_t`, and divides the limit before each product so that
none is taken that could exceed it. Here it is written once more with arithmetic that stops where it would wrap: it
never stops, and its answer is that of the sum over the integers.

* `expandedTotal` : the sum over the integers;
* `validateExpandedRuleLimitSize` : the loop with arithmetic that stops;
* `validateExpandedRuleLimit_exact` : it never stops, and compares the sum with the limit.
-/

namespace PathGuard.Rules

/-- What one enabled app adds to the total. -/
def expandedRules (app : AppRules) : Nat :=
  max app.users.length 1 * max app.processes.length 1 * (app.deny.length + app.redirects.length)

/-- The total over the integers. -/
def expandedTotal (apps : List AppRules) : Nat := ((apps.filter AppRules.enabled).map expandedRules).sum

/-! ## The check in `std::size_t` -/

/-- The outcome of one round: an operation that would wrap, `return false`, or the new total. -/
abbrev Expansion := Option (Option Nat)

/-- `AddExpanded`. -/
def addExpandedSize (width value limit total : Nat) : Expansion :=
  if limit < value then some none
  else do
    let room ← checkedSub limit value
    if room < total then return none
    else
      let total ← checkedAdd width total value
      return some total

/-- One round of the loop over the apps. -/
def expandAppSize (width limit : Nat) (app : AppRules) (expanded : Nat) : Expansion :=
  let users := max app.users.length 1
  let processes := max app.processes.length 1
  do
    let rules ← checkedAdd width app.deny.length app.redirects.length
    if rules = 0 then return some expanded
    else if limit / rules < users then return none
    else
      let usersRules ← checkedMul width users rules
      if limit / processes < usersRules then return none
      else
        let value ← checkedMul width usersRules processes
        addExpandedSize width value limit expanded

/-- `ValidateExpandedRuleLimit`, unless an operation would wrap. -/
def validateExpandedRuleLimitSize (width limit : Nat) : List AppRules → Nat → Option Bool
  | [], _ => some true
  | app :: apps, expanded =>
      if !app.enabled then validateExpandedRuleLimitSize width limit apps expanded
      else
        match expandAppSize width limit app expanded with
        | none => none
        | some none => some false
        | some (some expanded) => validateExpandedRuleLimitSize width limit apps expanded

/-- The vectors of an app have sizes that vectors can have: `std::vector::max_size` is at most the largest
`std::ptrdiff_t`. -/
structure VectorSizes (width : Nat) (app : AppRules) : Prop where
  users : app.users.length < 2 ^ (width - 1)
  processes : app.processes.length < 2 ^ (width - 1)
  deny : app.deny.length < 2 ^ (width - 1)
  redirects : app.redirects.length < 2 ^ (width - 1)

variable {width limit : Nat} {app : AppRules}

theorem VectorSizes.rules_lt (h : VectorSizes width app) :
    app.deny.length + app.redirects.length < 2 ^ width := by
  have hdeny := h.deny
  have hredirects := h.redirects
  cases width with
  | zero =>
      rw [Nat.zero_sub, Nat.pow_zero] at hdeny hredirects
      omega
  | succ width =>
      rw [Nat.add_sub_cancel] at hdeny hredirects
      rw [Nat.pow_succ]
      omega

theorem addExpandedSize_eq {value total : Nat} (hlimit : limit < 2 ^ width) :
    addExpandedSize width value limit total = some (if total + value ≤ limit then some (total + value) else none) := by
  unfold addExpandedSize
  by_cases hvalue : limit < value
  · rw [if_pos hvalue, if_neg (by omega)]
  · rw [if_neg hvalue, checkedSub_of_le (by omega), Option.bind_eq_bind, Option.bind_some]
    by_cases hroom : limit - value < total
    · rw [if_pos hroom, if_neg (by omega)]
      rfl
    · rw [if_neg hroom, checkedAdd_of_lt (by omega), if_pos (by omega)]
      rfl

theorem expandAppSize_eq {expanded : Nat} (hlimit : limit < 2 ^ width) (hsizes : VectorSizes width app)
    (hexpanded : expanded ≤ limit) :
    expandAppSize width limit app expanded =
      some (if expanded + expandedRules app ≤ limit then some (expanded + expandedRules app) else none) := by
  have hprocesses : 0 < max app.processes.length 1 := by omega
  have htotal : expandedRules app = max app.users.length 1 * (app.deny.length + app.redirects.length) *
      max app.processes.length 1 := by
    rw [expandedRules, Nat.mul_right_comm]
  unfold expandAppSize
  rw [checkedAdd_of_lt hsizes.rules_lt, Option.bind_eq_bind, Option.bind_some, htotal]
  generalize app.deny.length + app.redirects.length = rules
  generalize max app.users.length 1 = users
  generalize max app.processes.length 1 = processes at hprocesses
  by_cases hrules : rules = 0
  · rw [if_pos hrules, hrules, Nat.mul_zero, Nat.zero_mul, Nat.add_zero, if_pos hexpanded]
    rfl
  · have hproduct : users * rules ≤ users * rules * processes := Nat.le_mul_of_pos_right _ hprocesses
    rw [if_neg hrules]
    by_cases hfirst : limit / rules < users
    · rw [Nat.div_lt_iff_lt_mul (by omega)] at hfirst
      rw [if_pos ((Nat.div_lt_iff_lt_mul (by omega)).mpr hfirst), if_neg (by omega)]
      rfl
    · have hbound : ¬ limit < users * rules := fun h => hfirst ((Nat.div_lt_iff_lt_mul (by omega)).mpr h)
      rw [if_neg hfirst, checkedMul_of_lt (by omega), Option.bind_some]
      by_cases hsecond : limit / processes < users * rules
      · have := (Nat.div_lt_iff_lt_mul hprocesses).mp hsecond
        rw [if_pos hsecond, if_neg (by omega)]
        rfl
      · have hbound : ¬ limit < users * rules * processes :=
          fun h => hsecond ((Nat.div_lt_iff_lt_mul hprocesses).mpr h)
        rw [if_neg hsecond, checkedMul_of_lt (by omega), Option.bind_some, addExpandedSize_eq hlimit]

theorem expandedTotal_cons (app : AppRules) (apps : List AppRules) :
    expandedTotal (app :: apps) = (if app.enabled then expandedRules app else 0) + expandedTotal apps := by
  unfold expandedTotal
  by_cases henabled : app.enabled = true
  · rw [if_pos henabled, List.filter_cons_of_pos henabled, List.map_cons, List.sum_cons]
  · rw [if_neg henabled, List.filter_cons_of_neg henabled, Nat.zero_add]

/-- The loop never stops short, and compares the total with the limit. -/
theorem validateExpandedRuleLimitSize_eq {apps : List AppRules} {expanded : Nat} (hlimit : limit < 2 ^ width)
    (hsizes : ∀ app ∈ apps, VectorSizes width app) (hexpanded : expanded ≤ limit) :
    validateExpandedRuleLimitSize width limit apps expanded =
      some (decide (expanded + expandedTotal apps ≤ limit)) := by
  induction apps generalizing expanded with
  | nil => simp [validateExpandedRuleLimitSize, expandedTotal, hexpanded]
  | cons app apps ih =>
      have hrest : ∀ app ∈ apps, VectorSizes width app := fun app happ => hsizes app (List.mem_cons_of_mem _ happ)
      rw [validateExpandedRuleLimitSize, expandedTotal_cons]
      by_cases henabled : app.enabled = true
      · rw [if_neg (by simp [henabled]), if_pos henabled,
          expandAppSize_eq hlimit (hsizes app List.mem_cons_self) hexpanded]
        by_cases hroom : expanded + expandedRules app ≤ limit
        · rw [if_pos hroom, ← Nat.add_assoc]
          exact ih hrest hroom
        · rw [if_neg hroom, decide_eq_false (by omega)]
      · rw [if_pos (by simp [henabled]), if_neg henabled, Nat.zero_add]
        exact ih hrest hexpanded

/-! ## The check of the compiler model -/

theorem addExpanded_eq (value limit total : Nat) :
    addExpanded value limit total = if total + value ≤ limit then some (total + value) else none := by
  unfold addExpanded
  by_cases hroom : total + value ≤ limit
  · rw [if_pos hroom, if_neg (by simp; omega)]
  · rw [if_neg hroom, if_pos (by simp; omega)]

theorem validateExpandedRuleLimit_cons {limits : RulesLimits} {apps : List AppRules} {expanded : Nat}
    (henabled : app.enabled = true) (hexpanded : expanded ≤ limits.maxExpandedRules) :
    validateExpandedRuleLimit limits (app :: apps) expanded =
      if expanded + expandedRules app ≤ limits.maxExpandedRules then
        validateExpandedRuleLimit limits apps (expanded + expandedRules app)
      else some (firstRuleId app) := by
  have hprocesses : 0 < max app.processes.length 1 := by omega
  have htotal : expandedRules app = max app.users.length 1 * (app.deny.length + app.redirects.length) *
      max app.processes.length 1 := by
    rw [expandedRules, Nat.mul_right_comm]
  rw [validateExpandedRuleLimit, if_neg (by simp [henabled]), htotal]
  generalize app.deny.length + app.redirects.length = rules
  generalize max app.users.length 1 = users
  generalize max app.processes.length 1 = processes at hprocesses
  simp only [addExpanded_eq]
  by_cases hrules : rules = 0
  · simp [hrules, hexpanded]
  · have hproduct : users * rules ≤ users * rules * processes := Nat.le_mul_of_pos_right _ hprocesses
    have hfirst : limits.maxExpandedRules / rules < users ↔ limits.maxExpandedRules < users * rules :=
      Nat.div_lt_iff_lt_mul (by omega)
    have hsecond : limits.maxExpandedRules / processes < users * rules ↔
        limits.maxExpandedRules < users * rules * processes := Nat.div_lt_iff_lt_mul hprocesses
    by_cases hroom : expanded + users * rules * processes ≤ limits.maxExpandedRules
    · have hnone : ¬ (limits.maxExpandedRules < users * rules ∨ limits.maxExpandedRules < users * rules * processes) := by
        omega
      simp [hrules, hfirst, hsecond, hnone, hroom]
    · simp [hrules, hfirst, hsecond, hroom]

theorem validateExpandedRuleLimit_eq_none_iff {limits : RulesLimits} {apps : List AppRules} {expanded : Nat}
    (hexpanded : expanded ≤ limits.maxExpandedRules) :
    validateExpandedRuleLimit limits apps expanded = none ↔
      expanded + expandedTotal apps ≤ limits.maxExpandedRules := by
  induction apps generalizing expanded with
  | nil => simp [validateExpandedRuleLimit, expandedTotal, hexpanded]
  | cons app apps ih =>
      rw [expandedTotal_cons]
      by_cases henabled : app.enabled = true
      · rw [validateExpandedRuleLimit_cons henabled hexpanded, if_pos henabled, ← Nat.add_assoc]
        by_cases hroom : expanded + expandedRules app ≤ limits.maxExpandedRules
        · rw [if_pos hroom]
          exact ih hroom
        · rw [if_neg hroom]
          exact iff_of_false (Option.some_ne_none _) (by omega)
      · rw [validateExpandedRuleLimit, if_pos (by simp [henabled]), if_neg henabled, Nat.zero_add]
        exact ih hexpanded

/-- **The limit is exact.** No operation wraps, and the answer is that of the comparison of the exact total. -/
theorem validateExpandedRuleLimit_exact {limits : RulesLimits} {document : RulesDocument}
    (hlimit : limits.maxExpandedRules < 2 ^ width) (hsizes : ∀ app ∈ document.apps, VectorSizes width app) :
    validateExpandedRuleLimitSize width limits.maxExpandedRules document.apps 0 =
        some (decide (expandedTotal document.apps ≤ limits.maxExpandedRules)) ∧
      (validateExpandedRuleLimit limits document.apps 0 = none ↔
        expandedTotal document.apps ≤ limits.maxExpandedRules) := by
  constructor
  · rw [validateExpandedRuleLimitSize_eq hlimit hsizes (Nat.zero_le _), Nat.zero_add]
  · rw [validateExpandedRuleLimit_eq_none_iff (Nat.zero_le _), Nat.zero_add]

/-- Two users and two processes make four rules of one. -/
def sharedApp : AppRules where
  package := ascii "com.example.app"
  users := [0, 1]
  processes := [ascii "com.example.app", ascii "com.example.app:worker"]
  redirects := [{ source := ascii "A", target := ascii "B" }]

theorem validateExpandedRuleLimit_exact_sharedApp :
    validateExpandedRuleLimitSize 64 3 [sharedApp] 0 = some false ∧
      validateExpandedRuleLimitSize 64 4 [sharedApp] 0 = some true := by
  have hsizes : ∀ app ∈ [sharedApp], VectorSizes 64 app := by
    intro app happ
    rw [List.mem_singleton.mp happ]
    exact ⟨by decide, by decide, by decide, by decide⟩
  have hthree := @validateExpandedRuleLimit_exact 64 { maxExpandedRules := 3 } { apps := [sharedApp] } (by decide) hsizes
  have hfour := @validateExpandedRuleLimit_exact 64 { maxExpandedRules := 4 } { apps := [sharedApp] } (by decide) hsizes
  exact ⟨hthree.1.trans (by decide), hfour.1.trans (by decide)⟩

end PathGuard.Rules
