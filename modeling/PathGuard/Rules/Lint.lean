import PathGuard.Lib.OrderedMap
import PathGuard.Rules.Semantic
import PathGuard.Rules.VisualSkeleton

/-!
# The linter

`rules/src/tools.cpp`, `LintRules`: the warnings of the compiler, one for string bind mounts, and one for every path of an
app that looks like an earlier one and is not the same.

* `LooksLike` : one skeleton, other bytes;
* `LintedPaths.take`, `LintedPaths.meet` : one path; `LintedPaths.run`, `LintedApps.run` : the loops;
* `lintRules_reports` : which pairs are warned of, in which order, up to the limit.
-/

namespace PathGuard.Rules

def kLintUnicode : String := "PG-LINT-UNICODE"
def kLintLegacy : String := "PG-LINT-LEGACY"

structure PathRef where
  bytes : Bytes
  id : RuleId
  deriving DecidableEq, Repr

/-- The paths of an app, in the order in which `LintRules` takes them. -/
def pathRefs (app : ResolvedAppPolicy) : List PathRef :=
  (app.deny.map fun deny => ⟨deny.path.bytes, deny.id⟩) ++
    app.redirects.flatMap fun redirect => [⟨redirect.source.bytes, redirect.id⟩, ⟨redirect.target.bytes, redirect.id⟩]

def legacyWarning : Diagnostic where
  code := kLintLegacy
  messageKey := "rules.lint_legacy"
  severity := .warning
  phase := .semantic

/-- The warning of a path that looks like `found`. -/
def nearWarning (origins : OriginMap) (path found : PathRef) : Diagnostic where
  code := kLintUnicode
  messageKey := "rules.lint_unicode_near"
  primary := originSpan origins path.id
  severity := .warning
  phase := .semantic
  related := [⟨originSpan origins found.id, "near_path"⟩]

/-- One round of the loop over the paths of an app: what the skeletons are taken by, and the output. -/
def lintPath (origins : OriginMap) (limits : RulesLimits) (state : OrderedMap Bytes PathRef × List Diagnostic)
    (path : PathRef) : OrderedMap Bytes PathRef × List Diagnostic :=
  match state.1.get? (visualSkeleton path.bytes) with
  | none => (state.1.emplace (visualSkeleton path.bytes) path, state.2)
  | some found =>
      if found.bytes ≠ path.bytes ∧ state.2.length < limits.maxDiagnostics then
        (state.1, state.2 ++ [nearWarning origins path found])
      else state

def lintApp (origins : OriginMap) (limits : RulesLimits) (output : List Diagnostic) (app : ResolvedAppPolicy) :
    List Diagnostic :=
  ((pathRefs app).foldl (lintPath origins limits) (OrderedMap.empty, output)).2

def lintLegacy (limits : RulesLimits) (resolved : ResolvedPolicy) (output : List Diagnostic) : List Diagnostic :=
  if resolved.allowLegacyMount && output.length < limits.maxDiagnostics then output ++ [legacyWarning] else output

def lintRules (result : RulesBuildResult) (limits : RulesLimits) : List Diagnostic :=
  let output := result.diagnostics.filter fun diagnostic => diagnostic.severity == .warning
  match result.resolved with
  | none => output
  | some resolved => resolved.apps.foldl (lintApp result.origins limits) (lintLegacy limits resolved output)

/-! ## One app -/

/-- Two different paths look alike. -/
def LooksLike (path found : PathRef) : Prop :=
  path.bytes ≠ found.bytes ∧ foldedCodePoints path.bytes = foldedCodePoints found.bytes

/-- After some paths of an app: which paths the skeletons belong to, and what the output says of the paths. -/
structure LintedPaths (origins : OriginMap) (limits : RulesLimits) (before : List Diagnostic) (paths : List PathRef)
    (state : OrderedMap Bytes PathRef × List Diagnostic) : Prop where
  taken : ∀ path ∈ paths, ∃ found ∈ paths, state.1.get? (visualSkeleton path.bytes) = some found
  taker : ∀ skeleton found, state.1.get? skeleton = some found → found ∈ paths ∧ visualSkeleton found.bytes = skeleton
  output : ∃ near, state.2 = before ++ near ∧
    ∀ warning ∈ near, ∃ path ∈ paths, ∃ found ∈ paths, LooksLike path found ∧ warning = nearWarning origins path found
  length_le : state.2.length ≤ max limits.maxDiagnostics before.length
  complete : state.2.length < limits.maxDiagnostics → ∀ path ∈ paths, ∀ found,
    state.1.get? (visualSkeleton path.bytes) = some found → found.bytes ≠ path.bytes →
      nearWarning origins path found ∈ state.2

variable {origins : OriginMap} {limits : RulesLimits} {before : List Diagnostic} {paths : List PathRef}
  {state : OrderedMap Bytes PathRef × List Diagnostic}

theorem lintedPaths_nil (origins : OriginMap) (hlength : state.2 = before) (hempty : state.1 = OrderedMap.empty) :
    LintedPaths origins limits before [] state where
  taken := List.forall_mem_nil _
  taker := by
    intro skeleton found hget
    rw [hempty] at hget
    cases hget
  output := ⟨[], by rw [hlength, List.append_nil], List.forall_mem_nil _⟩
  length_le := by
    rw [hlength]
    exact le_max_right _ _
  complete := fun _ => List.forall_mem_nil _

/-- A path that looks like no earlier one takes its skeleton. -/
theorem LintedPaths.take (h : LintedPaths origins limits before paths state) {path : PathRef}
    (hget : state.1.get? (visualSkeleton path.bytes) = none) :
    LintedPaths origins limits before (paths ++ [path]) (state.1.emplace (visualSkeleton path.bytes) path, state.2) := by
  have hself : (state.1.emplace (visualSkeleton path.bytes) path).get? (visualSkeleton path.bytes) = some path :=
    OrderedMap.get?_emplace_self hget path
  have hother : ∀ skeleton, skeleton ≠ visualSkeleton path.bytes →
      (state.1.emplace (visualSkeleton path.bytes) path).get? skeleton = state.1.get? skeleton := fun skeleton hne =>
    OrderedMap.get?_emplace_of_ne state.1 hne path
  have hearlier : ∀ path' ∈ paths, visualSkeleton path'.bytes ≠ visualSkeleton path.bytes := fun path' hpath' heq => by
    obtain ⟨found, -, hfound⟩ := h.taken path' hpath'
    rw [heq, hget] at hfound
    cases hfound
  obtain ⟨near, hnear, hsound⟩ := h.output
  constructor
  · intro path' hpath'
    rcases List.mem_append.mp hpath' with hold | hnew
    · obtain ⟨found, hfound, hgot⟩ := h.taken path' hold
      exact ⟨found, List.mem_append_left _ hfound, (hother _ (hearlier path' hold)).trans hgot⟩
    · obtain rfl := List.mem_singleton.mp hnew
      exact ⟨path', hpath', hself⟩
  · intro skeleton found hgot
    by_cases heq : skeleton = visualSkeleton path.bytes
    · rw [heq, hself] at hgot
      obtain rfl := Option.some.inj hgot
      exact ⟨List.mem_append_right _ (List.mem_singleton_self _), heq.symm⟩
    · rw [hother skeleton heq] at hgot
      obtain ⟨hfound, hskeleton⟩ := h.taker skeleton found hgot
      exact ⟨List.mem_append_left _ hfound, hskeleton⟩
  · refine ⟨near, hnear, fun warning hwarning => ?_⟩
    obtain ⟨path', hpath', found, hfound, hlike⟩ := hsound warning hwarning
    exact ⟨path', List.mem_append_left _ hpath', found, List.mem_append_left _ hfound, hlike⟩
  · exact h.length_le
  · intro hroom path' hpath' found hgot hne
    rcases List.mem_append.mp hpath' with hold | hnew
    · rw [hother _ (hearlier path' hold)] at hgot
      exact h.complete hroom path' hold found hgot hne
    · obtain rfl := List.mem_singleton.mp hnew
      rw [hself] at hgot
      exact absurd (congrArg PathRef.bytes (Option.some.inj hgot)).symm hne

/-- A path that looks like an earlier one is warned of, when it is not the same and there is room. -/
theorem LintedPaths.meet (h : LintedPaths origins limits before paths state) {path found : PathRef}
    (hget : state.1.get? (visualSkeleton path.bytes) = some found) {output : List Diagnostic}
    (houtput : output = state.2 ∧ (found.bytes = path.bytes ∨ limits.maxDiagnostics ≤ state.2.length) ∨
      output = state.2 ++ [nearWarning origins path found] ∧ found.bytes ≠ path.bytes ∧
        state.2.length < limits.maxDiagnostics) :
    LintedPaths origins limits before (paths ++ [path]) (state.1, output) := by
  obtain ⟨near, hnear, hsound⟩ := h.output
  obtain ⟨hfound, hskeleton⟩ := h.taker _ _ hget
  have hkept : ∀ warning ∈ near, ∃ path' ∈ paths ++ [path], ∃ found ∈ paths ++ [path], LooksLike path' found ∧
      warning = nearWarning origins path' found := fun warning hwarning => by
    obtain ⟨path', hpath', found, hfound, hlike⟩ := hsound warning hwarning
    exact ⟨path', List.mem_append_left _ hpath', found, List.mem_append_left _ hfound, hlike⟩
  have hgrows : state.2 <+: output := by
    rcases houtput with ⟨rfl, -⟩ | ⟨rfl, -⟩
    · exact List.prefix_refl _
    · exact List.prefix_append _ _
  constructor
  · intro path' hpath'
    rcases List.mem_append.mp hpath' with hold | hnew
    · obtain ⟨found', hfound', hgot⟩ := h.taken path' hold
      exact ⟨found', List.mem_append_left _ hfound', hgot⟩
    · obtain rfl := List.mem_singleton.mp hnew
      exact ⟨found, List.mem_append_left _ hfound, hget⟩
  · intro skeleton found' hgot
    obtain ⟨hfound', hskeleton'⟩ := h.taker skeleton found' hgot
    exact ⟨List.mem_append_left _ hfound', hskeleton'⟩
  · rcases houtput with ⟨rfl, -⟩ | ⟨rfl, hne, -⟩
    · exact ⟨near, hnear, hkept⟩
    · refine ⟨near ++ [nearWarning origins path found], by rw [hnear, List.append_assoc], ?_⟩
      rw [List.forall_mem_append, List.forall_mem_singleton]
      exact ⟨hkept, path, List.mem_append_right _ (List.mem_singleton_self _), found, List.mem_append_left _ hfound,
        ⟨Ne.symm hne, visualSkeleton_inj.mp hskeleton.symm⟩, rfl⟩
  · rcases houtput with ⟨rfl, -⟩ | ⟨rfl, -, hroom⟩
    · exact h.length_le
    · show (state.2 ++ [nearWarning origins path found]).length ≤ _
      rw [List.length_append, List.length_singleton]
      omega
  · intro hroom path' hpath' found' hgot hne
    have hroom' : state.2.length < limits.maxDiagnostics := Nat.lt_of_le_of_lt hgrows.length_le hroom
    rcases List.mem_append.mp hpath' with hold | hnew
    · exact hgrows.subset (h.complete hroom' path' hold found' hgot hne)
    · obtain rfl := List.mem_singleton.mp hnew
      obtain rfl : found = found' := Option.some.inj (hget.symm.trans hgot)
      rcases houtput with ⟨-, hsame | hfull⟩ | ⟨rfl, -⟩
      · exact absurd hsame hne
      · omega
      · exact List.mem_append_right _ (List.mem_singleton_self _)

theorem LintedPaths.step (h : LintedPaths origins limits before paths state) (path : PathRef) :
    LintedPaths origins limits before (paths ++ [path]) (lintPath origins limits state path) := by
  rw [lintPath]
  cases hget : state.1.get? (visualSkeleton path.bytes) with
  | none => exact h.take hget
  | some found =>
      simp only
      split
      · next hwarned => exact h.meet hget (Or.inr ⟨rfl, hwarned⟩)
      · next hquiet =>
        refine h.meet hget (Or.inl ⟨rfl, ?_⟩)
        rw [not_and_or, not_not, Nat.not_lt] at hquiet
        exact hquiet

theorem LintedPaths.run (h : LintedPaths origins limits before paths state) (more : List PathRef) :
    LintedPaths origins limits before (paths ++ more) (more.foldl (lintPath origins limits) state) := by
  induction more generalizing paths state with
  | nil => rwa [List.append_nil]
  | cons path more ih =>
      have hrest := ih (h.step path)
      rwa [List.append_assoc] at hrest

/-! ## All apps -/

/-- What the linter says of the paths of some apps. -/
structure LintedApps (origins : OriginMap) (limits : RulesLimits) (before : List Diagnostic) (apps : List ResolvedAppPolicy)
    (output : List Diagnostic) : Prop where
  sound : ∃ near, output = before ++ near ∧ ∀ warning ∈ near, ∃ app ∈ apps, ∃ path ∈ pathRefs app, ∃ found ∈ pathRefs app,
    LooksLike path found ∧ warning = nearWarning origins path found
  length_le : output.length ≤ max limits.maxDiagnostics before.length
  complete : output.length < limits.maxDiagnostics → ∀ app ∈ apps, ∀ path ∈ pathRefs app, ∀ other ∈ pathRefs app,
    LooksLike path other → ∃ found ∈ pathRefs app,
      LooksLike path found ∧ nearWarning origins path found ∈ output ∨
        LooksLike other found ∧ nearWarning origins other found ∈ output

theorem lintedApps_nil (origins : OriginMap) (limits : RulesLimits) (before : List Diagnostic) :
    LintedApps origins limits before [] before where
  sound := ⟨[], (List.append_nil before).symm, List.forall_mem_nil _⟩
  length_le := le_max_right _ _
  complete := fun _ => List.forall_mem_nil _

theorem LintedApps.step {apps : List ResolvedAppPolicy} {output : List Diagnostic}
    (h : LintedApps origins limits before apps output) (app : ResolvedAppPolicy) :
    LintedApps origins limits before (apps ++ [app]) (lintApp origins limits output app) := by
  have hstart : LintedPaths origins limits output [] (OrderedMap.empty, output) := lintedPaths_nil origins rfl rfl
  have hpaths := hstart.run (pathRefs app)
  rw [List.nil_append] at hpaths
  rw [lintApp]
  generalize (pathRefs app).foldl (lintPath origins limits) (OrderedMap.empty, output) = state at hpaths
  obtain ⟨near, hnear, hsound⟩ := hpaths.output
  obtain ⟨earlier, hearlier, hsound'⟩ := h.sound
  constructor
  · refine ⟨earlier ++ near, by rw [hnear, hearlier, List.append_assoc], ?_⟩
    rw [List.forall_mem_append]
    refine ⟨fun warning hwarning => ?_, fun warning hwarning => ?_⟩
    · obtain ⟨app', happ', hrest⟩ := hsound' warning hwarning
      exact ⟨app', List.mem_append_left _ happ', hrest⟩
    · exact ⟨app, List.mem_append_right _ (List.mem_singleton_self _), hsound warning hwarning⟩
  · exact hpaths.length_le.trans (max_le (le_max_left _ _) h.length_le)
  · intro hroom app' happ' path hpath other hother hlike
    rcases List.mem_append.mp happ' with hold | hnew
    · have hgrows : output <+: state.2 := hnear ▸ List.prefix_append output near
      have hroom' : output.length < limits.maxDiagnostics := Nat.lt_of_le_of_lt hgrows.length_le hroom
      obtain ⟨found, hfound, hwarned⟩ := h.complete hroom' app' hold path hpath other hother hlike
      exact ⟨found, hfound, hwarned.imp (fun hw => ⟨hw.1, hgrows.subset hw.2⟩) fun hw => ⟨hw.1, hgrows.subset hw.2⟩⟩
    · obtain rfl := List.mem_singleton.mp hnew
      obtain ⟨found, hfound, hgot⟩ := hpaths.taken path hpath
      have hsame : visualSkeleton path.bytes = visualSkeleton other.bytes := visualSkeleton_inj.mpr hlike.2
      have hfolded : foldedCodePoints found.bytes = foldedCodePoints path.bytes :=
        visualSkeleton_inj.mp (hpaths.taker _ _ hgot).2
      refine ⟨found, hfound, ?_⟩
      by_cases hne : found.bytes = path.bytes
      · -- the skeleton belongs to a path like the first, so that the second is warned of
        have hne' : found.bytes ≠ other.bytes := fun heq => hlike.1 (hne.symm.trans heq)
        exact Or.inr ⟨⟨hne'.symm, (hfolded.trans hlike.2).symm⟩,
          hpaths.complete hroom other hother found (hsame ▸ hgot) hne'⟩
      · exact Or.inl ⟨⟨Ne.symm hne, hfolded.symm⟩, hpaths.complete hroom path hpath found hgot hne⟩

theorem LintedApps.run {apps : List ResolvedAppPolicy} {output : List Diagnostic}
    (h : LintedApps origins limits before apps output) (more : List ResolvedAppPolicy) :
    LintedApps origins limits before (apps ++ more) (more.foldl (lintApp origins limits) output) := by
  induction more generalizing apps output with
  | nil => rwa [List.append_nil]
  | cons app more ih =>
      have hrest := ih (h.step app)
      rwa [List.append_assoc] at hrest

/-- **What the linter reports.** The warnings of the compiler come first, in their order, and the legacy warning. Every
further one is of a path that looks like another path of its app and is not the same. While there is room, of any two such
paths one at least is warned of. -/
theorem lintRules_reports (result : RulesBuildResult) (limits : RulesLimits) {resolved : ResolvedPolicy}
    (h : result.resolved = some resolved) :
    LintedApps result.origins limits
      (lintLegacy limits resolved (result.diagnostics.filter fun diagnostic => diagnostic.severity == .warning))
      resolved.apps (lintRules result limits) := by
  rw [lintRules, h]
  have hrun := (lintedApps_nil result.origins limits (lintLegacy limits resolved
    (result.diagnostics.filter fun diagnostic => diagnostic.severity == .warning))).run resolved.apps
  rwa [List.nil_append] at hrun

/-- A redirect from `Path/A` to the path with the fullwidth letter. -/
def fullwidthApp : ResolvedAppPolicy where
  package := ascii "com.example.app"
  enabled := true
  users := []
  processes := []
  filePicker := false
  deny := []
  redirects := [⟨1, ⟨ascii "Path/A", []⟩, ⟨ascii "Path/" ++ [0xef, 0xbc, 0xa1], []⟩⟩]

theorem lintRules_reports_fullwidth :
    ∃ warning ∈ lintRules { resolved := some ⟨false, [fullwidthApp]⟩ } {}, warning.code = kLintUnicode := by
  have hreports := lintRules_reports { resolved := some ⟨false, [fullwidthApp]⟩ } {} rfl
  have hlike : LooksLike ⟨ascii "Path/A", 1⟩ ⟨ascii "Path/" ++ [0xef, 0xbc, 0xa1], 1⟩ := ⟨by decide, by decide⟩
  obtain ⟨found, -, hwarned⟩ := hreports.complete (by decide +kernel) fullwidthApp (List.mem_singleton_self _) _
    List.mem_cons_self _ (List.mem_cons_of_mem _ List.mem_cons_self) hlike
  rcases hwarned with hwarned | hwarned
  · exact ⟨_, hwarned.2, rfl⟩
  · exact ⟨_, hwarned.2, rfl⟩

end PathGuard.Rules
