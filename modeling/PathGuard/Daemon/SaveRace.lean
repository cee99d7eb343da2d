import PathGuard.Daemon.SaveRules

/-!
# Saves that run at one time

Any number of `SaveRules` calls and an editor work on one `rules.toml`. A call loads the file and compares its digest,
validates, loads and compares again, writes a temporary file and renames it; the steps of the calls and the
replacements of the editor come in any order. Nothing holds the file between the second comparison of a call and its
rename, so a call can replace what it has not seen.

* `SaveWorld.next` : one step of a call or one replacement by the editor;
* `NoLostUpdate` : what every rename replaces was seen by its call; `RaceInv` : the invariant (`raceInv_next`);
* `noLostUpdate_of_undisturbed` : no update is lost in a run without the race.
-/

namespace PathGuard.Control

open Rules (TomlParser SourceBuffer)

/-! ## The calls -/

/-- How far a call is. What a call replaced at its rename is kept beside it. -/
inductive SavePhase
  | called
  | compared
  | validated
  | rechecked
  | written (temporary : Bytes)
  | saved (replaced : Bytes)
  | refused
  deriving DecidableEq, Repr

namespace SavePhase

/-- Between the second comparison and the rename. -/
def pending : SavePhase → Bool
  | .rechecked | .written _ => true
  | _ => false

def isSaved : SavePhase → Bool
  | .saved _ => true
  | _ => false

end SavePhase

structure SaveCall where
  reconciler : Reconciler
  expected : Bytes
  replacement : Bytes
  phase : SavePhase := .called

/-- The candidate of a save compiles and is admitted. -/
def Reconciler.validates (toml : TomlParser) (reconciler : Reconciler) (replacement : Bytes) : Bool :=
  match SourceBuffer.create kRulesFileName replacement reconciler.limits with
  | .error _ => false
  | .ok source =>
      match buildCandidate toml reconciler.limits source with
      | .error _ => false
      | .ok candidate => candidate.admitted reconciler.snapshot

/-- A load of the content, and the comparison of its digest. -/
def Reconciler.compares (reconciler : Reconciler) (expected content : Bytes) : Bool :=
  match loadRulesSource reconciler.limits (.stable content) with
  | .error _ => false
  | .ok loaded => loaded.digest == expected

inductive SaveAction
  | compare
  | validate
  | recheck
  | write
  | rename (synced : Bool)
  | fail
  deriving DecidableEq, Repr

/-- A step of a call: its next phase, and the content of `rules.toml` after it. A step of the file system that fails
refuses the call; the directory sync comes after the rename. -/
def SaveCall.act (toml : TomlParser) (call : SaveCall) (content : Bytes) (action : SaveAction) :
    Option (SavePhase × Bytes) :=
  match call.phase, action with
  | .called, .compare => some (if call.reconciler.compares call.expected content then .compared else .refused, content)
  | .compared, .validate =>
      some (if call.reconciler.validates toml call.replacement then .validated else .refused, content)
  | .validated, .recheck => some (if call.reconciler.compares call.expected content then .rechecked else .refused, content)
  | .rechecked, .write => some (.written call.replacement, content)
  | .written temporary, .rename synced => some (if synced then .saved content else .refused, temporary)
  | .called, .fail | .validated, .fail | .rechecked, .fail | .written _, .fail => some (.refused, content)
  | _, _ => none

/-! ## The runs -/

/-- What `rules.toml` holds, and the calls. -/
structure SaveWorld where
  content : Bytes
  calls : List SaveCall

inductive SaveEvent
  | act (i : Nat) (action : SaveAction)
  | edit (content : Bytes)
  deriving DecidableEq, Repr

def SaveWorld.next (toml : TomlParser) (world : SaveWorld) : SaveEvent → Option SaveWorld
  | .edit content => some { world with content := content }
  | .act i action => do
      let call ← world.calls[i]?
      let (phase, content) ← call.act toml world.content action
      return ⟨content, world.calls.set i { call with phase := phase }⟩

/-- No call has begun. -/
def SaveWorld.Fresh (world : SaveWorld) : Prop := ∀ call ∈ world.calls, call.phase = .called

/-- No save replaces what it has not been told of, so of two saves that are told the same one is refused. -/
structure NoLostUpdate (world : SaveWorld) : Prop where
  replaced : ∀ (i : Nat) (call : SaveCall) (replaced : Bytes), world.calls[i]? = some call →
    call.phase = .saved replaced → sourceDigest replaced = call.expected
  single : ∀ (i j : Nat) (first second : SaveCall), world.calls[i]? = some first → world.calls[j]? = some second →
    first.expected = second.expected → first.replacement ≠ second.replacement →
    ¬ (first.phase.isSaved = true ∧ second.phase.isSaved = true)

/-- The content is not what a save that has gone through was told to replace. -/
def SaveWorld.isNew (world : SaveWorld) (content : Bytes) : Bool :=
  world.calls.all fun call => !call.phase.isSaved || sourceDigest content != call.expected

/-- A step that replaces the file does so while no other call is between its second comparison and its rename, and
does not bring back what a save was told to replace. -/
def SaveWorld.undisturbed (world : SaveWorld) : SaveEvent → Bool
  | .edit content => world.calls.all (fun call => !call.phase.pending) && world.isNew content
  | .act i (.rename synced) =>
      (world.calls.eraseIdx i).all (fun call => !call.phase.pending) &&
        world.calls[i]?.all fun call =>
          world.isNew call.replacement && (!synced || sourceDigest call.replacement != call.expected)
  | .act _ _ => true

/-! ## The law -/

theorem digest_of_compares {reconciler : Reconciler} {expected content : Bytes}
    (h : reconciler.compares expected content = true) : sourceDigest content = expected := by
  unfold Reconciler.compares at h
  split at h
  · cases h
  · next loaded hload =>
    have hbytes : loaded.source.bytes = content := loadRulesSource_bytes hload
    rw [← eq_of_beq h, (loadRulesSource_ok hload).2, hbytes]

/-- What holds of a call whose rename is undisturbed: a pending one still sees what it compared, and the content is not
what a saved one replaced. -/
structure CallInv (content : Bytes) (call : SaveCall) : Prop where
  pending : call.phase.pending = true → sourceDigest content = call.expected
  temporary : ∀ temporary, call.phase = .written temporary → temporary = call.replacement
  replaced : ∀ replaced, call.phase = .saved replaced →
    sourceDigest replaced = call.expected ∧ sourceDigest content ≠ call.expected

structure RaceInv (world : SaveWorld) : Prop where
  each : ∀ (i : Nat) (call : SaveCall), world.calls[i]? = some call → CallInv world.content call
  single : ∀ (i j : Nat) (first second : SaveCall), world.calls[i]? = some first → world.calls[j]? = some second →
    i ≠ j → first.expected = second.expected → first.phase.isSaved = true → second.phase.isSaved = false

theorem RaceInv.noLostUpdate {world : SaveWorld} (h : RaceInv world) : NoLostUpdate world := by
  constructor
  · intro i call replaced hcall hphase
    exact ((h.each i call hcall).replaced replaced hphase).1
  · rintro i j first second hfirst hsecond hexpected hreplacement ⟨hsaved, hsavedToo⟩
    have hne : i ≠ j := by
      rintro rfl
      rw [hfirst] at hsecond
      exact hreplacement (congrArg SaveCall.replacement (Option.some.inj hsecond))
    rw [h.single i j first second hfirst hsecond hne hexpected hsaved] at hsavedToo
    cases hsavedToo

theorem raceInv_fresh {world : SaveWorld} (h : world.Fresh) : RaceInv world := by
  constructor
  · intro i call hcall
    have hphase := h call (List.mem_of_getElem? hcall)
    refine ⟨?_, ?_, ?_⟩
    · simp [hphase, SavePhase.pending]
    · simp [hphase]
    · simp [hphase]
  · intro i j first second hfirst _ _ _ hsaved
    rw [h first (List.mem_of_getElem? hfirst)] at hsaved
    cases hsaved

theorem CallInv.of_content {content after : Bytes} {call : SaveCall} (h : CallInv content call)
    (hpending : call.phase.pending = true → sourceDigest after = sourceDigest content)
    (hsaved : call.phase.isSaved = true → sourceDigest after ≠ call.expected) : CallInv after call := by
  refine ⟨fun hphase => (hpending hphase).trans (h.pending hphase), h.temporary, fun replaced hphase => ?_⟩
  exact ⟨(h.replaced replaced hphase).1, hsaved (by rw [hphase]; rfl)⟩

section Act
variable {toml : TomlParser} {call : SaveCall} {content : Bytes}

/-- **What a step of a call does.** Only a rename writes the file. -/
theorem act_cases {action : SaveAction} {phase : SavePhase} {after : Bytes}
    (h : call.act toml content action = some (phase, after)) :
    (after = content ∧ phase.isSaved = false ∧ (phase.pending = true → call.phase.pending = true ∨
        sourceDigest content = call.expected) ∧ (∀ temporary, phase = .written temporary → temporary = call.replacement)) ∨
      ∃ temporary synced, call.phase = .written temporary ∧ action = .rename synced ∧ after = temporary ∧
        phase = if synced then .saved content else .refused := by
  unfold SaveCall.act at h
  split at h
  · next hphase =>
    obtain ⟨rfl, rfl⟩ : _ = phase ∧ content = after := by simpa using h
    left
    cases call.reconciler.compares call.expected content <;> simp [SavePhase.isSaved, SavePhase.pending]
  · next hphase =>
    obtain ⟨rfl, rfl⟩ : _ = phase ∧ content = after := by simpa using h
    left
    cases call.reconciler.validates toml call.replacement <;> simp [SavePhase.isSaved, SavePhase.pending]
  · next hphase =>
    obtain ⟨rfl, rfl⟩ : _ = phase ∧ content = after := by simpa using h
    left
    cases hcompares : call.reconciler.compares call.expected content with
    | false => simp [SavePhase.isSaved, SavePhase.pending]
    | true => simp [SavePhase.isSaved, digest_of_compares hcompares]
  · next hphase =>
    obtain ⟨rfl, rfl⟩ : _ = phase ∧ content = after := by simpa using h
    left
    simp [SavePhase.isSaved, SavePhase.pending, hphase]
  · next temporary synced hphase =>
    obtain ⟨rfl, rfl⟩ : _ = phase ∧ temporary = after := by simpa using h
    exact Or.inr ⟨temporary, synced, hphase, rfl, rfl, rfl⟩
  -- the steps that fail
  iterate 4
    · obtain ⟨rfl, rfl⟩ : _ = phase ∧ content = after := by simpa using h
      simp [SavePhase.isSaved, SavePhase.pending]
  · cases h

section Steps
variable {reconciler : Reconciler} {expected replacement : Bytes}

theorem act_compare (h : reconciler.compares expected content = true) :
    (SaveCall.mk reconciler expected replacement .called).act toml content .compare = some (.compared, content) := by
  simp [SaveCall.act, h]

theorem act_stale (h : reconciler.compares expected content = false) :
    (SaveCall.mk reconciler expected replacement .called).act toml content .compare = some (.refused, content) := by
  simp [SaveCall.act, h]

theorem act_validate (h : reconciler.validates toml replacement = true) :
    (SaveCall.mk reconciler expected replacement .compared).act toml content .validate = some (.validated, content) := by
  simp [SaveCall.act, h]

theorem act_invalid (h : reconciler.validates toml replacement = false) :
    (SaveCall.mk reconciler expected replacement .compared).act toml content .validate = some (.refused, content) := by
  simp [SaveCall.act, h]

theorem act_recheck (h : reconciler.compares expected content = true) :
    (SaveCall.mk reconciler expected replacement .validated).act toml content .recheck = some (.rechecked, content) := by
  simp [SaveCall.act, h]

end Steps

end Act

section Next
variable {toml : TomlParser} {world after : SaveWorld}

theorem next_act {i : Nat} {action : SaveAction} (h : world.next toml (.act i action) = some after) :
    ∃ call phase content, world.calls[i]? = some call ∧ call.act toml world.content action = some (phase, content) ∧
      after = ⟨content, world.calls.set i { call with phase := phase }⟩ := by
  simp only [SaveWorld.next, Option.bind_eq_bind, Option.bind_eq_some_iff] at h
  obtain ⟨call, hcall, ⟨phase, content⟩, hact, hafter⟩ := h
  exact ⟨call, phase, content, hcall, hact, (Option.some.inj hafter).symm⟩

theorem next_of_act {i : Nat} {action : SaveAction} {call : SaveCall} {phase : SavePhase} {content : Bytes}
    (hcall : world.calls[i]? = some call) (hact : call.act toml world.content action = some (phase, content)) :
    world.next toml (.act i action) = some ⟨content, world.calls.set i { call with phase := phase }⟩ := by
  simp only [SaveWorld.next, hcall, Option.bind_eq_bind, Option.bind_some, hact]
  rfl

theorem getElem?_set_phase {calls : List SaveCall} {i j : Nat} {call found : SaveCall} {phase : SavePhase}
    (hcall : calls[i]? = some call) (hfound : (calls.set i { call with phase := phase })[j]? = some found) :
    (j = i ∧ found = { call with phase := phase }) ∨ (j ≠ i ∧ calls[j]? = some found) := by
  rw [List.getElem?_set] at hfound
  by_cases hij : i = j
  · subst hij
    rw [if_pos rfl, if_pos (List.getElem?_eq_some_iff.mp hcall).1] at hfound
    exact Or.inl ⟨rfl, (Option.some.inj hfound).symm⟩
  · rw [if_neg hij] at hfound
    exact Or.inr ⟨Ne.symm hij, hfound⟩

theorem isNew_iff {content : Bytes} :
    world.isNew content = true ↔
      ∀ call ∈ world.calls, call.phase.isSaved = true → sourceDigest content ≠ call.expected := by
  rw [SaveWorld.isNew, List.all_eq_true]
  refine forall₂_congr fun call _ => ?_
  cases call.phase.isSaved <;> simp

theorem raceInv_kept (h : RaceInv world) {i : Nat} {call : SaveCall} {phase : SavePhase}
    (hcall : world.calls[i]? = some call) (hsaved : phase.isSaved = false)
    (hpending : phase.pending = true → call.phase.pending = true ∨ sourceDigest world.content = call.expected)
    (htemporary : ∀ temporary, phase = .written temporary → temporary = call.replacement) :
    RaceInv ⟨world.content, world.calls.set i { call with phase := phase }⟩ := by
  have hold := h.each i call hcall
  constructor
  · intro j found hfound
    obtain ⟨rfl, rfl⟩ | ⟨-, hfound⟩ := getElem?_set_phase hcall hfound
    · refine ⟨fun hphase => ?_, htemporary, fun replaced hphase => ?_⟩
      · exact (hpending hphase).elim hold.pending id
      · rw [show phase = .saved replaced from hphase] at hsaved
        cases hsaved
    · exact h.each j found hfound
  · intro j k first second hfirst hsecond hne hexpected hfirstSaved
    obtain ⟨rfl, rfl⟩ | ⟨-, hfirst⟩ := getElem?_set_phase hcall hfirst
    · rw [show phase.isSaved = true from hfirstSaved] at hsaved
      cases hsaved
    · obtain ⟨rfl, rfl⟩ | ⟨-, hsecond⟩ := getElem?_set_phase hcall hsecond
      · exact hsaved
      · exact h.single j k first second hfirst hsecond hne hexpected hfirstSaved

theorem raceInv_renamed (h : RaceInv world) {i : Nat} {call : SaveCall} {synced : Bool}
    (hcall : world.calls[i]? = some call) (hpending : call.phase.pending = true)
    (hothers : ∀ j other, j ≠ i → world.calls[j]? = some other → other.phase.pending = false)
    (hnew : world.isNew call.replacement = true)
    (hsynced : synced = true → sourceDigest call.replacement ≠ call.expected) :
    RaceInv ⟨call.replacement,
      world.calls.set i { call with phase := if synced then .saved world.content else .refused }⟩ := by
  have hdigest := (h.each i call hcall).pending hpending
  rw [isNew_iff] at hnew
  -- a call that is saved already saw another digest go than this one
  have hother : ∀ (j : Nat) (other : SaveCall), world.calls[j]? = some other → other.phase.isSaved = true →
      call.expected ≠ other.expected := by
    intro j other hfound hsaved hexpected
    cases hphase : other.phase with
    | saved replaced =>
        exact ((h.each j other hfound).replaced replaced hphase).2 (hdigest.trans hexpected)
    | _ => simp [hphase, SavePhase.isSaved] at hsaved
  constructor
  · intro j found hfound
    obtain ⟨rfl, rfl⟩ | ⟨hne, hfound⟩ := getElem?_set_phase hcall hfound
    · cases synced with
      | false => exact ⟨nofun, nofun, nofun⟩
      | true => exact ⟨nofun, nofun, fun replaced hphase => ⟨by cases hphase; exact hdigest, hsynced rfl⟩⟩
    · refine (h.each j found hfound).of_content (fun hphase => ?_) (hnew found (List.mem_of_getElem? hfound))
      rw [hothers j found hne hfound] at hphase
      cases hphase
  · intro j k first second hfirst hsecond hne hexpected hfirstSaved
    obtain ⟨rfl, rfl⟩ | ⟨-, hfirstOld⟩ := getElem?_set_phase hcall hfirst
    · obtain ⟨rfl, rfl⟩ | ⟨-, hsecond⟩ := getElem?_set_phase hcall hsecond
      · exact absurd rfl hne
      · rw [← Bool.not_eq_true]
        exact fun hsaved => hother k second hsecond hsaved hexpected
    · obtain ⟨rfl, rfl⟩ | ⟨-, hsecond⟩ := getElem?_set_phase hcall hsecond
      · exact absurd hexpected.symm (hother j first hfirstOld hfirstSaved)
      · exact h.single j k first second hfirstOld hsecond hne hexpected hfirstSaved

/-- **Every undisturbed step keeps the invariant.** -/
theorem raceInv_next {event : SaveEvent} (h : RaceInv world) (hok : world.undisturbed event = true)
    (hnext : world.next toml event = some after) : RaceInv after := by
  cases event with
  | edit content =>
      obtain rfl : { world with content := content } = after := Option.some.inj hnext
      simp only [SaveWorld.undisturbed, Bool.and_eq_true, List.all_eq_true, Bool.not_eq_true'] at hok
      have hnew := isNew_iff.mp hok.2
      refine ⟨fun i call hcall => ?_, h.single⟩
      have hmem := List.mem_of_getElem? hcall
      refine (h.each i call hcall).of_content (fun hphase => ?_) (hnew call hmem)
      rw [hok.1 call hmem] at hphase
      cases hphase
  | act i action =>
      obtain ⟨call, phase, content, hcall, hact, rfl⟩ := next_act hnext
      obtain ⟨rfl, hsaved, hpending, htemporary⟩ | ⟨temporary, synced, hphase, rfl, rfl, rfl⟩ := act_cases hact
      · exact raceInv_kept h hcall hsaved hpending htemporary
      · obtain rfl := (h.each i call hcall).temporary _ hphase
        simp only [SaveWorld.undisturbed, hcall, Option.all_some, Bool.and_eq_true, List.all_eq_true,
          Bool.not_eq_true'] at hok
        obtain ⟨hothers, hnew, hsynced⟩ := hok
        refine raceInv_renamed h hcall (by rw [hphase]; rfl) (fun j other hne hother => ?_) hnew (fun htrue => ?_)
        · exact hothers other (List.mem_eraseIdx_iff_getElem?.mpr ⟨j, hne, hother⟩)
        · simpa [htrue] using hsynced

end Next

/-- **No update is lost** in a run whose steps are undisturbed. -/
theorem noLostUpdate_of_undisturbed {toml : TomlParser} {start world : SaveWorld} (hstart : start.Fresh)
    (hrun : Run.ReachesBy (SaveWorld.next toml) (fun world event => world.undisturbed event = true) start world) :
    NoLostUpdate world := by
  have hinv : RaceInv world :=
    hrun.invariant (raceInv_fresh hstart) fun _ _ _ h hok hnext => raceInv_next h hok hnext
  exact hinv.noLostUpdate

/-! ## A save on its own -/

section Alone
variable {toml : TomlParser} {daemon : Daemon} {content expected replacement : Bytes}

theorem compares_iff {reconciler : Reconciler} :
    reconciler.compares expected content = true ↔ HasDigest reconciler.limits (.stable content) expected := by
  unfold Reconciler.compares HasDigest
  cases loadRulesSource reconciler.limits (.stable content) with
  | error error => simp
  | ok loaded => simp

theorem validates_iff : daemon.reconciler.validates toml replacement = true ↔ daemon.Admits toml replacement := by
  unfold Reconciler.validates Daemon.Admits
  cases hcreate : SourceBuffer.create kRulesFileName replacement daemon.reconciler.limits with
  | error diagnostic => simp
  | ok source =>
      cases hbuild : buildCandidate toml daemon.reconciler.limits source with
      | error error => simp [hbuild]
      | ok candidate => simp [hbuild]

/-- The steps of one save. -/
def saveSteps (i : Nat) : List SaveEvent :=
  [.act i .compare, .act i .validate, .act i .recheck, .act i .write, .act i (.rename true)]

/-- The steps of a save that nothing comes between save what `SaveRules` saves. -/
theorem saveSteps_alone {directory : ConfigDirectory} {publishing : Option PublishStep} {suffix : Nat}
    (hcontent : directory .rules = some content) :
    Run.runLabels (SaveWorld.next toml) ⟨content, [⟨daemon.reconciler, expected, replacement, .called⟩]⟩ (saveSteps 0) =
        some ⟨replacement, [⟨daemon.reconciler, expected, replacement, .saved content⟩]⟩ ↔
      (daemon.saveRulesFile toml directory expected replacement none publishing suffix).1.saved = true := by
  have hpasses : daemon.Passes toml directory expected replacement none ↔
      daemon.reconciler.compares expected content = true ∧ daemon.reconciler.validates toml replacement = true := by
    rw [compares_iff, validates_iff]
    exact passes_iff hcontent rfl rfl
  by_cases hsave : daemon.Passes toml directory expected replacement none
  · obtain ⟨hcompares, hvalidates⟩ := hpasses.mp hsave
    have hwrite : replaceRules directory replacement none suffix =
        (true, (replaceRules directory replacement none suffix).2) := rfl
    obtain ⟨_, _, hcall, hsaved, -, -⟩ := saveRulesFile_passed hsave hwrite publishing
    rw [hcall]
    refine iff_of_true ?_ hsaved
    rw [saveSteps, Run.runLabels_cons (next_of_act rfl (act_compare hcompares)),
      Run.runLabels_cons (next_of_act rfl (act_validate hvalidates)),
      Run.runLabels_cons (next_of_act rfl (act_recheck hcompares)), Run.runLabels_cons (next_of_act rfl rfl),
      Run.runLabels_cons (next_of_act rfl rfl)]
    rfl
  · rcases hcall : daemon.saveRulesFile toml directory expected replacement none publishing suffix with
      ⟨result, after, directoryAfter⟩
    refine iff_of_false ?_ (by simp [(saveRulesFile_refused hsave hcall).1])
    rw [hpasses, not_and_or, Bool.not_eq_true, Bool.not_eq_true] at hsave
    cases hcompares : daemon.reconciler.compares expected content with
    | false =>
        rw [saveSteps, Run.runLabels_cons (next_of_act rfl (act_stale hcompares))]
        exact nofun
    | true =>
        rw [saveSteps, Run.runLabels_cons (next_of_act rfl (act_compare hcompares)),
          Run.runLabels_cons (next_of_act rfl (act_invalid (hsave.resolve_left (by simp [hcompares]))))]
        exact nofun

end Alone

/-! ## Two saves at one time -/

section Race
variable {toml : TomlParser} {reconciler : Reconciler} {content expected first second : Bytes}

/-- Both compare before either writes. -/
def racingSteps : List SaveEvent :=
  [.act 0 .compare, .act 1 .compare, .act 0 .validate, .act 1 .validate, .act 0 .recheck, .act 1 .recheck,
    .act 0 .write, .act 1 .write, .act 0 (.rename true), .act 1 (.rename true)]

theorem racingSteps_saved (hcompares : reconciler.compares expected content = true)
    (hfirst : reconciler.validates toml first = true) (hsecond : reconciler.validates toml second = true) :
    Run.runLabels (SaveWorld.next toml)
        ⟨content, [⟨reconciler, expected, first, .called⟩, ⟨reconciler, expected, second, .called⟩]⟩ racingSteps =
      some ⟨second, [⟨reconciler, expected, first, .saved content⟩, ⟨reconciler, expected, second, .saved first⟩]⟩ := by
  rw [racingSteps, Run.runLabels_cons (next_of_act rfl (act_compare hcompares)),
    Run.runLabels_cons (next_of_act rfl (act_compare hcompares)),
    Run.runLabels_cons (next_of_act rfl (act_validate hfirst)), Run.runLabels_cons (next_of_act rfl (act_validate hsecond)),
    Run.runLabels_cons (next_of_act rfl (act_recheck hcompares)),
    Run.runLabels_cons (next_of_act rfl (act_recheck hcompares)), Run.runLabels_cons (next_of_act rfl rfl),
    Run.runLabels_cons (next_of_act rfl rfl), Run.runLabels_cons (next_of_act rfl rfl),
    Run.runLabels_cons (next_of_act rfl rfl)]
  rfl

theorem turns_refused (second : Bytes) (hcompares : reconciler.compares expected content = true)
    (hfirst : reconciler.validates toml first = true) (hnew : sourceDigest first ≠ expected) :
    Run.runLabels (Run.guarded (SaveWorld.next toml) fun world event => world.undisturbed event = true)
        ⟨content, [⟨reconciler, expected, first, .called⟩, ⟨reconciler, expected, second, .called⟩]⟩
        (saveSteps 0 ++ [.act 1 .compare]) =
      some ⟨first, [⟨reconciler, expected, first, .saved content⟩, ⟨reconciler, expected, second, .refused⟩]⟩ := by
  have hstale : reconciler.compares expected first = false := by
    rw [← Bool.not_eq_true]
    exact fun h => hnew (digest_of_compares h)
  have hrenames : SaveWorld.undisturbed ⟨content, [⟨reconciler, expected, first, .written first⟩,
      ⟨reconciler, expected, second, .called⟩]⟩ (.act 0 (.rename true)) = true := by
    simp [SaveWorld.undisturbed, SaveWorld.isNew, SavePhase.isSaved, SavePhase.pending, hnew]
  have hturn : ∀ {world after : SaveWorld} {event : SaveEvent}, world.undisturbed event = true →
      world.next toml event = some after →
      Run.guarded (SaveWorld.next toml) (fun world event => world.undisturbed event = true) world event = some after :=
    fun hok hnext => Run.guarded_eq_some hok hnext
  rw [show saveSteps 0 ++ [.act 1 .compare] = [SaveEvent.act 0 .compare, .act 0 .validate, .act 0 .recheck,
      .act 0 .write, .act 0 (.rename true), .act 1 .compare] from rfl,
    Run.runLabels_cons (hturn rfl (next_of_act rfl (act_compare hcompares))),
    Run.runLabels_cons (hturn rfl (next_of_act rfl (act_validate hfirst))),
    Run.runLabels_cons (hturn rfl (next_of_act rfl (act_recheck hcompares))),
    Run.runLabels_cons (hturn rfl (next_of_act rfl rfl)),
    Run.runLabels_cons (hturn (by exact hrenames) (next_of_act rfl rfl)),
    Run.runLabels_cons (hturn rfl (next_of_act rfl (act_stale hstale)))]
  rfl

end Race

/-- A parser that knows both texts. -/
def bothToml : TomlParser := fun text name =>
  if text = oneRedirect.generatedText then .ok oneRedirect.tree else markedToml text name

theorem validates_both : sampleDaemon.reconciler.validates bothToml oneRedirect.text = true ∧
    sampleDaemon.reconciler.validates bothToml markedText = true := by
  decide +kernel

def blankText : Bytes := [newline]

/-- Two saves that are told the digest of the blank text. -/
def twoSaves : SaveWorld :=
  ⟨blankText, [⟨sampleDaemon.reconciler, sourceDigest blankText, oneRedirect.text, .called⟩,
    ⟨sampleDaemon.reconciler, sourceDigest blankText, markedText, .called⟩]⟩

theorem twoSaves_fresh : twoSaves.Fresh := by
  intro call hcall
  obtain rfl | rfl : call = _ ∨ call = _ := by simpa [twoSaves] using hcall
  · rfl
  · rfl

theorem compares_blank : sampleDaemon.reconciler.compares (sourceDigest blankText) blankText = true := by
  rw [compares_iff]
  exact ⟨_, loadRulesSource_stable (by decide +kernel) (by decide +kernel) (by decide +kernel), rfl⟩

theorem sourceDigest_blank : sourceDigest oneRedirect.text ≠ sourceDigest blankText := by decide +kernel

theorem noLostUpdate_of_undisturbed_turns :
    ∃ world, Run.ReachesBy (SaveWorld.next bothToml) (fun world event => world.undisturbed event = true) twoSaves world ∧
      world.calls.map SaveCall.phase = [.saved blankText, .refused] ∧ NoLostUpdate world := by
  have hrun := Run.reachesBy_of_runLabels _
    (turns_refused markedText compares_blank validates_both.1 sourceDigest_blank)
  exact ⟨_, hrun, rfl, noLostUpdate_of_undisturbed twoSaves_fresh hrun⟩

/-- The second save replaces what the first one wrote, and both are said to be saved. -/
theorem lostUpdate_twoSaves :
    ∃ world, twoSaves.Fresh ∧ Run.Reaches (SaveWorld.next bothToml) twoSaves world ∧
      world.calls.map SaveCall.phase = [.saved blankText, .saved oneRedirect.text] ∧
      world.calls.map SaveCall.expected = [sourceDigest blankText, sourceDigest blankText] ∧
      ¬ NoLostUpdate world := by
  have hrun := Run.reaches_of_runLabels _ (racingSteps_saved compares_blank validates_both.1 validates_both.2)
  refine ⟨_, twoSaves_fresh, hrun, rfl, rfl, fun h => sourceDigest_blank ?_⟩
  exact h.replaced 1 _ oneRedirect.text rfl rfl

end PathGuard.Control
