import Mathlib.Data.Prod.Lex
import PathGuard.Lib.OrderedMap
import PathGuard.Rules.Semantic

/-!
# The plan of a change

`rules/src/tools.cpp`, `IndexPolicy` and `BuildPolicyPlan`: the rules of two policies, keyed by package, kind and
source, and the changes that take the one to the other.

* `buildPolicyPlan` : the merge of two indexed policies; `ruleMap` : what a policy binds its keys to;
* `editsBetween_buildPolicyPlan`, `foldlM_apply_buildPolicyPlan` : the changes are the edits between the two;
* `buildPolicyPlan_patches` : they patch the one policy into the other, in order.
-/

namespace PathGuard.Rules

inductive PolicyChangeKind
  | add
  | remove
  | modify
  deriving DecidableEq, Repr

inductive PolicyRuleKind
  | deny
  | redirect
  deriving DecidableEq, Repr

def PolicyRuleKind.value : PolicyRuleKind → Nat
  | deny => 0
  | redirect => 1

instance : LinearOrder PolicyRuleKind :=
  LinearOrder.lift' PolicyRuleKind.value fun a b h => by cases a <;> cases b <;> first | rfl | cases h

structure PolicyChange where
  kind : PolicyChangeKind := .add
  ruleKind : PolicyRuleKind := .redirect
  package : Bytes := []
  source : Bytes := []
  beforeTarget : Bytes := []
  afterTarget : Bytes := []
  deriving DecidableEq, Repr

/-- Package, kind and source, compared in this order. -/
abbrev PlanKey : Type := Bytes ×ₗ PolicyRuleKind ×ₗ Bytes

def planKey (package : Bytes) (kind : PolicyRuleKind) (source : Bytes) : PlanKey := toLex (package, toLex (kind, source))

/-- `std::get<0>`, `std::get<1>` and `std::get<2>` of a key, in a change of the given kind. -/
def changeAt (kind : PolicyChangeKind) (key : PlanKey) (beforeTarget afterTarget : Bytes) : PolicyChange where
  kind := kind
  ruleKind := (ofLex (ofLex key).2).1
  package := (ofLex key).1
  source := (ofLex (ofLex key).2).2
  beforeTarget := beforeTarget
  afterTarget := afterTarget

/-! ## IndexPolicy -/

def indexApp (output : OrderedMap PlanKey Bytes) (app : CanonicalAppPolicy) : OrderedMap PlanKey Bytes :=
  let output := app.deny.foldl (fun output deny => output.emplace (planKey app.package .deny deny.bytes) []) output
  app.redirects.foldl (fun output redirect =>
    output.emplace (planKey app.package .redirect redirect.source.bytes) redirect.target.bytes) output

def indexPolicy (policy : CanonicalPolicy) : OrderedMap PlanKey Bytes := policy.apps.foldl indexApp OrderedMap.empty

/-! ## BuildPolicyPlan -/

/-- The loop over the rest of both maps. -/
def mergeRules : List (PlanKey × Bytes) → List (PlanKey × Bytes) → List PolicyChange
  | [], [] => []
  | oldRule :: oldRules, [] => changeAt .remove oldRule.1 oldRule.2 [] :: mergeRules oldRules []
  | [], newRule :: newRules => changeAt .add newRule.1 [] newRule.2 :: mergeRules [] newRules
  | oldRule :: oldRules, newRule :: newRules =>
      if oldRule.1 < newRule.1 then
        changeAt .remove oldRule.1 oldRule.2 [] :: mergeRules oldRules (newRule :: newRules)
      else if newRule.1 < oldRule.1 then
        changeAt .add newRule.1 [] newRule.2 :: mergeRules (oldRule :: oldRules) newRules
      else if oldRule.2 ≠ newRule.2 then
        changeAt .modify oldRule.1 oldRule.2 newRule.2 :: mergeRules oldRules newRules
      else mergeRules oldRules newRules
termination_by oldRules newRules => oldRules.length + newRules.length

def buildPolicyPlan (before after : CanonicalPolicy) : List PolicyChange :=
  mergeRules (indexPolicy before).entries (indexPolicy after).entries

/-! ## The rules of a policy -/

/-- The rules of an app: a denied path has no target. -/
def keyedRules (app : CanonicalAppPolicy) : List (PlanKey × Bytes) :=
  app.deny.map (fun deny => (planKey app.package .deny deny.bytes, [])) ++
    app.redirects.map fun redirect => (planKey app.package .redirect redirect.source.bytes, redirect.target.bytes)

/-- What a policy binds a package, a kind and a source to. -/
def ruleMap (policy : CanonicalPolicy) : PlanKey → Option Bytes :=
  OrderedMap.bound (policy.apps.flatMap keyedRules)

theorem indexApp_eq (output : OrderedMap PlanKey Bytes) (app : CanonicalAppPolicy) :
    indexApp output app = (keyedRules app).foldl (fun output rule => output.emplace rule.1 rule.2) output := by
  rw [keyedRules, List.foldl_append, List.foldl_map, List.foldl_map]
  rfl

theorem indexPolicy_eq (policy : CanonicalPolicy) :
    indexPolicy policy =
      (policy.apps.flatMap keyedRules).foldl (fun output rule => output.emplace rule.1 rule.2) OrderedMap.empty := by
  rw [indexPolicy, List.foldl_flatMap]
  congr 1
  funext output app
  exact indexApp_eq output app

theorem get?_indexPolicy (policy : CanonicalPolicy) : (indexPolicy policy).get? = ruleMap policy := by
  funext key
  rw [indexPolicy_eq, OrderedMap.get?_foldl_emplace]
  exact Option.none_or

/-! ## What a change says -/

namespace PolicyChange

def key (change : PolicyChange) : PlanKey := planKey change.package change.ruleKind change.source

/-- What the rule is bound to before and after, as the kind of the change has it. -/
def edit (change : PolicyChange) : Edit PlanKey Bytes where
  key := change.key
  before := if change.kind = .add then none else some change.beforeTarget
  after := if change.kind = .remove then none else some change.afterTarget

/-- A rule is added where there is none, and removed or modified where it is what the change says it was. -/
def apply (rules : PlanKey → Option Bytes) (change : PolicyChange) : Option (PlanKey → Option Bytes) :=
  change.edit.apply rules

/-- The change says what the two maps say. -/
structure Agrees (before after : PlanKey → Option Bytes) (change : PolicyChange) : Prop where
  add : change.kind = .add →
    before change.key = none ∧ change.beforeTarget = [] ∧ after change.key = some change.afterTarget
  remove : change.kind = .remove →
    before change.key = some change.beforeTarget ∧ after change.key = none ∧ change.afterTarget = []
  modify : change.kind = .modify →
    before change.key = some change.beforeTarget ∧ after change.key = some change.afterTarget ∧
      change.beforeTarget ≠ change.afterTarget

end PolicyChange

/-! ## The plan is what lies between two policies -/

theorem forall_lt_of_lt {key : PlanKey} {rule : PlanKey × Bytes} {rules : List (PlanKey × Bytes)} (h : key < rule.1)
    (hsorted : (rule :: rules).Pairwise fun a b => a.1 < b.1) : ∀ entry ∈ rule :: rules, key < entry.1 := by
  intro entry hentry
  rcases List.mem_cons.mp hentry with rfl | hentry
  · exact h
  · exact h.trans ((List.pairwise_cons.mp hsorted).1 entry hentry)

theorem editsBetween_mergeRules (oldRules newRules : List (PlanKey × Bytes))
    (hold : oldRules.Pairwise fun a b => a.1 < b.1) (hnew : newRules.Pairwise fun a b => a.1 < b.1) :
    EditsBetween (OrderedMap.bound oldRules) (OrderedMap.bound newRules)
      ((mergeRules oldRules newRules).map PolicyChange.edit) := by
  fun_induction mergeRules oldRules newRules with
  | case1 => exact EditsBetween.refl _
  | case2 oldRule oldRules ih =>
      have hrest := List.pairwise_cons.mp hold
      exact (ih hrest.2 hnew).removed hrest.1 (fun entry hentry => absurd hentry List.not_mem_nil) oldRule.2
  | case3 newRule newRules ih =>
      have hrest := List.pairwise_cons.mp hnew
      exact (ih hold hrest.2).added (fun entry hentry => absurd hentry List.not_mem_nil) hrest.1 newRule.2
  | case4 oldRule oldRules newRule newRules hlt ih =>
      have hrest := List.pairwise_cons.mp hold
      exact (ih hrest.2 hnew).removed hrest.1 (forall_lt_of_lt hlt hnew) oldRule.2
  | case5 oldRule oldRules newRule newRules hge hlt ih =>
      have hrest := List.pairwise_cons.mp hnew
      exact (ih hold hrest.2).added (forall_lt_of_lt hlt hold) hrest.1 newRule.2
  | case6 oldRule oldRules newRule newRules hge hge' hne ih =>
      obtain ⟨key, target⟩ := oldRule
      obtain ⟨key', target'⟩ := newRule
      obtain rfl : key = key' := le_antisymm (not_lt.mp hge') (not_lt.mp hge)
      have hold' := List.pairwise_cons.mp hold
      have hnew' := List.pairwise_cons.mp hnew
      exact (ih hold'.2 hnew'.2).modified hold'.1 hnew'.1 hne
  | case7 oldRule oldRules newRule newRules hge hge' heq ih =>
      obtain ⟨key, target⟩ := oldRule
      obtain ⟨key', target'⟩ := newRule
      obtain rfl : key = key' := le_antisymm (not_lt.mp hge') (not_lt.mp hge)
      obtain rfl : target = target' := not_not.mp heq
      have hold' := List.pairwise_cons.mp hold
      have hnew' := List.pairwise_cons.mp hnew
      exact (ih hold'.2 hnew'.2).kept hold'.1 hnew'.1 target

theorem targets_of_mem {oldRules newRules : List (PlanKey × Bytes)} {change : PolicyChange}
    (h : change ∈ mergeRules oldRules newRules) :
    (change.kind = .add → change.beforeTarget = []) ∧ (change.kind = .remove → change.afterTarget = []) := by
  fun_induction mergeRules oldRules newRules with
  | case1 => exact absurd h List.not_mem_nil
  | case2 oldRule oldRules ih =>
      rcases List.mem_cons.mp h with rfl | h
      · exact ⟨PolicyChangeKind.noConfusion, fun _ => rfl⟩
      · exact ih h
  | case3 newRule newRules ih =>
      rcases List.mem_cons.mp h with rfl | h
      · exact ⟨fun _ => rfl, PolicyChangeKind.noConfusion⟩
      · exact ih h
  | case4 oldRule oldRules newRule newRules hlt ih =>
      rcases List.mem_cons.mp h with rfl | h
      · exact ⟨PolicyChangeKind.noConfusion, fun _ => rfl⟩
      · exact ih h
  | case5 oldRule oldRules newRule newRules hge hlt ih =>
      rcases List.mem_cons.mp h with rfl | h
      · exact ⟨fun _ => rfl, PolicyChangeKind.noConfusion⟩
      · exact ih h
  | case6 oldRule oldRules newRule newRules hge hge' hne ih =>
      rcases List.mem_cons.mp h with rfl | h
      · exact ⟨PolicyChangeKind.noConfusion, PolicyChangeKind.noConfusion⟩
      · exact ih h
  | case7 oldRule oldRules newRule newRules hge hge' heq ih => exact ih h

section Plan
variable (before after : CanonicalPolicy)

theorem editsBetween_buildPolicyPlan :
    EditsBetween (ruleMap before) (ruleMap after) ((buildPolicyPlan before after).map PolicyChange.edit) := by
  rw [← get?_indexPolicy, ← get?_indexPolicy]
  exact editsBetween_mergeRules _ _ (indexPolicy before).sorted (indexPolicy after).sorted

theorem foldlM_apply_buildPolicyPlan :
    (buildPolicyPlan before after).foldlM PolicyChange.apply (ruleMap before) = some (ruleMap after) := by
  have h := (editsBetween_buildPolicyPlan before after).foldlM_apply
  rw [List.foldlM_map] at h
  exact h

theorem buildPolicyPlan_ordered :
    ((buildPolicyPlan before after).map PolicyChange.key).Pairwise (· < ·) := by
  have h := (editsBetween_buildPolicyPlan before after).ordered
  rw [List.pairwise_map] at h ⊢
  exact h

theorem agrees_of_mem {change : PolicyChange} (h : change ∈ buildPolicyPlan before after) :
    change.Agrees (ruleMap before) (ruleMap after) := by
  obtain ⟨hbefore, hafter, hne⟩ := ((editsBetween_buildPolicyPlan before after).mem_iff change.edit).mp
    (List.mem_map_of_mem h)
  obtain ⟨hadd, hremove⟩ := targets_of_mem h
  obtain ⟨kind, ruleKind, package, source, beforeTarget, afterTarget⟩ := change
  cases kind with
  | add => exact ⟨fun _ => ⟨hbefore.symm, hadd rfl, hafter.symm⟩, PolicyChangeKind.noConfusion, PolicyChangeKind.noConfusion⟩
  | remove =>
      exact ⟨PolicyChangeKind.noConfusion, fun _ => ⟨hbefore.symm, hafter.symm, hremove rfl⟩, PolicyChangeKind.noConfusion⟩
  | modify =>
      refine ⟨PolicyChangeKind.noConfusion, PolicyChangeKind.noConfusion, fun _ => ⟨hbefore.symm, hafter.symm, ?_⟩⟩
      exact fun heq => hne (congrArg some heq)

/-- **The plan.** The changes take the rules of `before` to those of `after`; they are in the order of their keys,
each key once, and each says what the two policies bind its key to. -/
theorem buildPolicyPlan_patches :
    (buildPolicyPlan before after).foldlM PolicyChange.apply (ruleMap before) = some (ruleMap after) ∧
      ((buildPolicyPlan before after).map PolicyChange.key).Pairwise (· < ·) ∧
      ∀ change ∈ buildPolicyPlan before after, change.Agrees (ruleMap before) (ruleMap after) :=
  ⟨foldlM_apply_buildPolicyPlan before after, buildPolicyPlan_ordered before after,
    fun _ => agrees_of_mem before after⟩

end Plan

end PathGuard.Rules
