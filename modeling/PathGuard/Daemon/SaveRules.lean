import PathGuard.Daemon.Convergence

/-!
# Saving the rules

`Reconciler::SaveRules` of `daemon/src/rules_control.cpp` on the directory that holds `rules.toml`, with
`AtomicWriteText` as its file system steps, any one of which can fail. What a save checks is said once; from it follow
when the reconcile after a save goes well, and when a save that is refused has left the file alone.

* `Daemon.Admits`, `Daemon.Passes` : what a save checks, of the text and of the file;
* `saveRulesFile_unchanged_iff` : when a refused save has left the file alone;
* `saveRulesFile_reconciled_iff` : when the reconcile behind a save succeeds.
-/

namespace PathGuard.Control

open Rules (TomlParser RulesLimits SourceBuffer)

/-! ## The configuration directory -/

/-- The files of the configuration directory. A suffix of `UniqueSuffix` is a number. -/
inductive ConfigFile
  | rules
  | temporary (suffix : Nat)
  | other (name : Bytes)
  deriving DecidableEq, Repr

abbrev ConfigDirectory := Directory ConfigFile Bytes

/-- The steps of `LoadRulesSource` that can fail. -/
inductive LoadStep
  | openDirectory
  | openFile
  | attributes
  | read
  | rewind
  | repeatRead
  deriving DecidableEq, Repr

/-- A reading of `rules.toml` that fails at the step. -/
def LoadStep.fails (size : Nat) : LoadStep → SourceRead
  | .openDirectory => .noDirectory
  | .openFile => .notOpened
  | .attributes => .unsafeFile
  | .read => .incomplete size
  | .rewind => .notRepeated size
  | .repeatRead => .unstable size

def readRules (directory : ConfigDirectory) (failing : Option LoadStep) : SourceRead :=
  match directory .rules, failing with
  | some bytes, some step => step.fails bytes.length
  | some bytes, none => .stable bytes
  | none, some .openDirectory => .noDirectory
  | none, _ => .notOpened

/-- The steps of `AtomicWriteText` that can fail. An unfinished write leaves some bytes in the temporary file, and so
does closing it; only the write is noticed. -/
inductive WriteStep
  | create
  | write (written : Bytes)
  | close (kept : Nat)
  | setMode
  | fileSync
  | rename
  | directorySync
  deriving DecidableEq, Repr

/-- What closing the temporary file leaves in it. -/
def closedText (failing : Option WriteStep) (bytes : Bytes) : Bytes :=
  match failing with
  | some (.close kept) => bytes.take kept
  | _ => bytes

/-- `AtomicWriteText` of `rules.toml`. -/
def replaceRules (directory : ConfigDirectory) (bytes : Bytes) (failing : Option WriteStep) (suffix : Nat) :
    Bool × ConfigDirectory :=
  if failing = some .create then (false, directory)
  else
    match failing with
    | some (.write written) =>
        (false, (directory.write (.temporary suffix) written).remove (.temporary suffix))
    | _ =>
        let directory := directory.write (.temporary suffix) (closedText failing bytes)
        if failing = some .setMode || failing = some .fileSync then (false, directory.remove (.temporary suffix))
        else if failing = some .rename then (false, directory.remove (.temporary suffix))
        else (failing ≠ some .directorySync, directory.rename (.temporary suffix) .rules)

/-! ## SaveRules on the directory -/

/-- The steps of `SaveRules` that can fail. -/
inductive SaveStep
  | firstLoad (step : LoadStep)
  | secondLoad (step : LoadStep)
  | replace (step : WriteStep)
  deriving DecidableEq, Repr

namespace SaveStep

def atFirstLoad : SaveStep → Option LoadStep
  | .firstLoad step => some step
  | _ => none

def atSecondLoad : SaveStep → Option LoadStep
  | .secondLoad step => some step
  | _ => none

def atReplace : SaveStep → Option WriteStep
  | .replace step => some step
  | _ => none

end SaveStep

/-- What a save meets when nobody else writes. -/
def saveEnvironment (directory : ConfigDirectory) (failing : Option SaveStep) (written : Bool)
    (after : ConfigDirectory) : SaveEnvironment where
  current := readRules directory (failing.bind SaveStep.atFirstLoad)
  beforeCommit := readRules directory (failing.bind SaveStep.atSecondLoad)
  written := written
  afterCommit := readRules after none

/-- `SaveRules`: the write comes once every check has passed. `publishing` is the failing step of the publish of the
reconcile that follows. -/
def Daemon.saveRulesFile (toml : TomlParser) (daemon : Daemon) (directory : ConfigDirectory)
    (expected replacement : Bytes) (failing : Option SaveStep) (publishing : Option PublishStep) (suffix : Nat) :
    ManagerSaveResult × Daemon × ConfigDirectory :=
  let (written, after) :=
    match daemon.checkSave toml expected replacement (saveEnvironment directory failing true directory) with
    | .error _ => (false, directory)
    | .ok () => replaceRules directory replacement (failing.bind SaveStep.atReplace) suffix
  let (result, daemon) := daemon.saveRules toml expected replacement
    (saveEnvironment directory failing written after) publishing suffix
  (result, daemon, after)

/-! ## What a save checks -/

/-- The source that is read has the digest. -/
def HasDigest (limits : RulesLimits) (source : SourceRead) (expected : Bytes) : Prop :=
  ∃ loaded, loadRulesSource limits source = .ok loaded ∧ loaded.digest = expected

/-- The replacement compiles, and the device admits it. -/
def Daemon.Admits (toml : TomlParser) (daemon : Daemon) (replacement : Bytes) : Prop :=
  ∃ source candidate, SourceBuffer.create kRulesFileName replacement daemon.reconciler.limits = .ok source ∧
    buildCandidate toml daemon.reconciler.limits source = .ok candidate ∧
    candidate.admitted daemon.reconciler.snapshot = true

section Checks
variable {toml : TomlParser} {daemon : Daemon} {expected replacement : Bytes} {environment : SaveEnvironment}

theorem checkSave_ok_iff :
    daemon.checkSave toml expected replacement environment = .ok () ↔
      HasDigest daemon.reconciler.limits environment.current expected ∧ daemon.Admits toml replacement ∧
        HasDigest daemon.reconciler.limits environment.beforeCommit expected ∧ environment.written = true := by
  unfold Daemon.checkSave HasDigest Daemon.Admits
  cases hcurrent : loadRulesSource daemon.reconciler.limits environment.current with
  | error error => simp [hcurrent]
  | ok current =>
      by_cases hdigest : current.digest = expected
      · cases hcreate : SourceBuffer.create kRulesFileName replacement daemon.reconciler.limits with
        | error diagnostic => simp [hcurrent, hdigest, hcreate]
        | ok source =>
            cases hbuild : buildCandidate toml daemon.reconciler.limits source with
            | error error => simp [hcurrent, hdigest, hcreate, hbuild]
            | ok candidate =>
                cases hadmitted : candidate.admitted daemon.reconciler.snapshot with
                | false => simp [hcurrent, hdigest, hcreate, hbuild, hadmitted]
                | true =>
                    cases hbefore : loadRulesSource daemon.reconciler.limits environment.beforeCommit with
                    | error error => simp [hcurrent, hdigest, hcreate, hbuild, hadmitted, hbefore]
                    | ok before =>
                        by_cases hbeforeDigest : before.digest = expected
                        · simp [hcurrent, hdigest, hcreate, hbuild, hadmitted, hbefore, hbeforeDigest]
                        · simp [hcurrent, hdigest, hcreate, hbuild, hadmitted, hbefore, hbeforeDigest]
      · simp [hcurrent, hdigest]

end Checks

section Save
variable {toml : TomlParser} {daemon after : Daemon} {directory directoryAfter : ConfigDirectory}
  {expected replacement content : Bytes} {failing : Option SaveStep} {publishing : Option PublishStep} {suffix : Nat}
  {result : ManagerSaveResult}

/-- The checks before the write. -/
def Daemon.Passes (toml : TomlParser) (daemon : Daemon) (directory : ConfigDirectory) (expected replacement : Bytes)
    (failing : Option SaveStep) : Prop :=
  daemon.checkSave toml expected replacement (saveEnvironment directory failing true directory) = .ok ()

/-- The write decides a save whose checks pass. -/
theorem Daemon.Passes.checkSave_iff (h : daemon.Passes toml directory expected replacement failing) (written : Bool)
    (directoryAfter : ConfigDirectory) :
    daemon.checkSave toml expected replacement (saveEnvironment directory failing written directoryAfter) = .ok () ↔
      written = true := by
  rw [Daemon.Passes, checkSave_ok_iff] at h
  obtain ⟨hcurrent, hadmits, hbefore, -⟩ := h
  rw [checkSave_ok_iff]
  exact ⟨fun hchecked => hchecked.2.2.2, fun hwritten => ⟨hcurrent, hadmits, hbefore, hwritten⟩⟩

theorem saveRulesFile_refused (h : ¬ daemon.Passes toml directory expected replacement failing)
    (hcall : daemon.saveRulesFile toml directory expected replacement failing publishing suffix =
      (result, after, directoryAfter)) :
    result.saved = false ∧ after = daemon ∧ directoryAfter = directory := by
  unfold Daemon.Passes at h
  have hnot : ∀ written, daemon.checkSave toml expected replacement
      (saveEnvironment directory failing written directory) ≠ .ok () := by
    intro written hchecked
    rw [checkSave_ok_iff] at hchecked
    exact h (checkSave_ok_iff.mpr ⟨hchecked.1, hchecked.2.1, hchecked.2.2.1, rfl⟩)
  cases hfirst : daemon.checkSave toml expected replacement (saveEnvironment directory failing true directory) with
  | ok _ => exact absurd hfirst h
  | error first =>
      cases hsecond : daemon.checkSave toml expected replacement (saveEnvironment directory failing false directory) with
      | ok _ => exact absurd hsecond (hnot false)
      | error error =>
          simp only [Daemon.saveRulesFile, hfirst, Daemon.saveRules, hsecond, Prod.mk.injEq] at hcall
          obtain ⟨rfl, rfl, rfl⟩ := hcall
          exact ⟨rfl, rfl, rfl⟩

theorem saveRulesFile_passed (h : daemon.Passes toml directory expected replacement failing) {written : Bool}
    (hwrite : replaceRules directory replacement (failing.bind SaveStep.atReplace) suffix = (written, directoryAfter))
    (publishing : Option PublishStep) :
    ∃ result after,
      daemon.saveRulesFile toml directory expected replacement failing publishing suffix =
        (result, after, directoryAfter) ∧
      result.saved = written ∧ (written = false → after = daemon) ∧
      (written = true →
        (result.reconcile, after) = daemon.reconcile toml (readRules directoryAfter none) publishing suffix) := by
  have hchecked := h.checkSave_iff written directoryAfter
  unfold Daemon.Passes at h
  simp only [Daemon.saveRulesFile, h, hwrite, Daemon.saveRules]
  cases written with
  | true =>
      simp only [hchecked.mpr rfl]
      exact ⟨_, _, rfl, rfl, fun h => absurd h (by decide), fun _ => rfl⟩
  | false =>
      split
      · exact ⟨_, _, rfl, rfl, fun _ => rfl, fun h => absurd h (by decide)⟩
      · next hok => cases hchecked.mp hok

/-! ## A save that is refused -/

/-- What `AtomicWriteText` leaves of `rules.toml`, and what it says of it. -/
theorem replaceRules_rules (directory : ConfigDirectory) (bytes : Bytes) (step : Option WriteStep) (suffix : Nat) :
    (replaceRules directory bytes step suffix).2 .rules =
        (match step with
        | none | some .directorySync => some bytes
        | some (.close kept) => some (bytes.take kept)
        | _ => directory .rules) ∧
      ((replaceRules directory bytes step suffix).1 = true ↔ step = none ∨ ∃ kept, step = some (.close kept)) := by
  unfold replaceRules
  cases step with
  | none => simp [closedText]
  | some step => cases step <;> simp [closedText]

theorem readRules_stable (hcontent : directory .rules = some content) : readRules directory none = .stable content := by
  simp only [readRules, hcontent]

/-- With the file there and no failing load, both loads read what `rules.toml` holds. -/
theorem passes_iff (hcontent : directory .rules = some content) (hfirst : failing.bind SaveStep.atFirstLoad = none)
    (hsecond : failing.bind SaveStep.atSecondLoad = none) :
    daemon.Passes toml directory expected replacement failing ↔
      HasDigest daemon.reconciler.limits (.stable content) expected ∧ daemon.Admits toml replacement := by
  rw [Daemon.Passes, checkSave_ok_iff, saveEnvironment, hfirst, hsecond, readRules_stable hcontent]
  exact ⟨fun h => ⟨h.1, h.2.1⟩, fun h => ⟨h.1, h.2, h.1, rfl⟩⟩

/-- **When a refused save changes nothing.** It does unless everything is checked, the file is replaced by other bytes,
and the sync of the directory fails then. -/
theorem saveRulesFile_unchanged_iff (hcontent : directory .rules = some content)
    (hcall : daemon.saveRulesFile toml directory expected replacement failing publishing suffix =
      (result, after, directoryAfter)) :
    (result.saved = false → directoryAfter .rules = some content ∧ after = daemon) ↔
      ¬ (failing = some (.replace .directorySync) ∧ replacement ≠ content ∧
        HasDigest daemon.reconciler.limits (.stable content) expected ∧ daemon.Admits toml replacement) := by
  by_cases hpasses : daemon.Passes toml directory expected replacement failing
  · obtain ⟨hrules, hwritten⟩ := replaceRules_rules directory replacement (failing.bind SaveStep.atReplace) suffix
    cases hwrite : replaceRules directory replacement (failing.bind SaveStep.atReplace) suffix with
    | mk written afterWrite =>
    obtain ⟨_, _, hsave, hsaved, hkept, -⟩ := saveRulesFile_passed hpasses hwrite publishing
    rw [hcall] at hsave
    obtain ⟨rfl, rfl, rfl⟩ : result = _ ∧ after = _ ∧ directoryAfter = _ := by simpa using hsave
    rw [hwrite] at hrules hwritten
    rw [hsaved]
    by_cases hsync : failing = some (.replace .directorySync)
    · subst hsync
      obtain ⟨hdigest, hadmits⟩ := (passes_iff hcontent rfl rfl).mp hpasses
      have hfalse : written = false := by
        rw [← Bool.not_eq_true]
        intro htrue
        obtain h | ⟨kept, h⟩ := hwritten.mp htrue
        · cases h
        · cases h
      have hreplaced : directoryAfter .rules = some replacement := hrules
      constructor
      · rintro hunchanged ⟨-, hne, -⟩
        exact hne (Option.some.inj (hreplaced.symm.trans (hunchanged hfalse).1))
      · intro hnot _
        refine ⟨?_, hkept hfalse⟩
        by_contra hne
        refine hnot ⟨rfl, fun heq => hne ?_, hdigest, hadmits⟩
        rw [hreplaced, heq]
    · refine iff_of_true (fun hfalse => ⟨?_, hkept hfalse⟩) fun h => hsync h.1
      have hstep : failing.bind SaveStep.atReplace ≠ some .directorySync := by
        intro h
        obtain ⟨step, rfl, hstep⟩ := Option.bind_eq_some_iff.mp h
        cases step with
        | replace step => exact hsync (by rw [Option.some.inj hstep])
        | _ => cases hstep
      rw [← hcontent, show directoryAfter .rules = _ from hrules]
      split
      · next hnone => exact absurd (hwritten.mpr (Or.inl hnone)) (by simp [hfalse])
      · next hdirectory => exact absurd hdirectory hstep
      · next kept hclose => exact absurd (hwritten.mpr (Or.inr ⟨kept, hclose⟩)) (by simp [hfalse])
      · rfl
  · obtain ⟨-, rfl, rfl⟩ := saveRulesFile_refused hpasses hcall
    refine iff_of_true (fun _ => ⟨hcontent, rfl⟩) ?_
    rintro ⟨rfl, -, hdigest, hadmits⟩
    exact hpasses ((passes_iff hcontent rfl rfl).mpr ⟨hdigest, hadmits⟩)

/-! ## The reconcile after a save -/

/-- A byte order mark that the loader does not skip. -/
def hasLaterBom (bytes : Bytes) : Bool :=
  (findFirst utf8Bom (bytes.drop (if utf8Bom.isPrefixOf bytes then utf8Bom.length else 0))).isSome

/-- The reconcile of a save goes well: the file loads, its source compiles, and the call ends active. -/
def Reconciled (toml : TomlParser) (daemon : Daemon) (directory : ConfigDirectory) (result : ManagerSaveResult) : Prop :=
  ∃ loaded candidate, loadRulesSource daemon.reconciler.limits (readRules directory none) = .ok loaded ∧
    buildCandidate toml daemon.reconciler.limits loaded.source = .ok candidate ∧ result.reconcile.ok = true

/-- A mark within the text is what the loader refuses in a text of the right size. -/
theorem loadRulesSource_bom {limits : RulesLimits} {bytes : Bytes} {loaded : SourceSnapshot}
    (h : loadRulesSource limits (.stable bytes) = .ok loaded) : hasLaterBom bytes = false := by
  have h := withinSourceLimit_ok h
  unfold hasLaterBom
  generalize (findFirst utf8Bom _).isSome = bom at h ⊢
  cases bom with
  | false => rfl
  | true => cases h

theorem create_ok {fileName bytes : Bytes} {limits : RulesLimits} {source : SourceBuffer}
    (h : SourceBuffer.create fileName bytes limits = .ok source) :
    ¬ limits.maxSourceBytes < bytes.length ∧ ∃ hlength : bytes.length < 2 ^ 32, source = ⟨fileName, bytes, hlength⟩ := by
  unfold SourceBuffer.create at h
  split at h
  · cases h
  · next hsize =>
    split at h
    · next hlength =>
      cases h
      exact ⟨hsize, hlength, rfl⟩
    · cases h

theorem loadRulesSource_bytes {limits : RulesLimits} {bytes : Bytes} {loaded : SourceSnapshot}
    (h : loadRulesSource limits (.stable bytes) = .ok loaded) : loaded.source.bytes = bytes := by
  have hbom := loadRulesSource_bom h
  have h := withinSourceLimit_ok h
  unfold hasLaterBom at hbom
  rw [hbom, if_neg (by decide)] at h
  cases hcreate : SourceBuffer.create kRulesFileName bytes limits with
  | error diagnostic => simp [hcreate] at h
  | ok source =>
      rw [hcreate] at h
      cases h
      obtain ⟨-, _, hsource⟩ := create_ok hcreate
      rw [hsource]

/-- **When the reconcile after a save goes well.** The loader looks for byte order marks, which the checks of the save
do not; and a text that was compiled last is not compiled again, so its status is the one that was left. -/
theorem saveRulesFile_reconciled_iff
    (hcall : daemon.saveRulesFile toml directory expected replacement none none suffix =
      (result, after, directoryAfter)) (hsaved : result.saved = true) :
    Reconciled toml daemon directoryAfter result ↔
      hasLaterBom replacement = false ∧
        (sourceDigest replacement ≠ daemon.reconciler.state.sourceDigest ∨ daemon.reconciler.deviceDirty = true ∨
          daemon.reconciler.state.status = .active) := by
  have hpasses : daemon.Passes toml directory expected replacement none := by
    by_contra hnot
    rw [(saveRulesFile_refused hnot hcall).1] at hsaved
    cases hsaved
  have hchecked := hpasses
  unfold Daemon.Passes at hchecked
  obtain ⟨-, ⟨source, candidate, hcreate, hbuild, hadmitted⟩, -⟩ := checkSave_ok_iff.mp hchecked
  obtain ⟨hsize, hlength, rfl⟩ := create_ok hcreate
  obtain ⟨hrules, hwritten⟩ := replaceRules_rules directory replacement none suffix
  have hwrite : replaceRules directory replacement none suffix =
      (true, (replaceRules directory replacement none suffix).2) := Prod.ext (hwritten.mpr (Or.inl rfl)) rfl
  obtain ⟨_, _, hsave, -, -, hreconcile⟩ := saveRulesFile_passed hpasses hwrite none
  rw [hcall] at hsave
  obtain ⟨rfl, rfl, hafter⟩ : result = _ ∧ after = _ ∧ directoryAfter = _ := by simpa using hsave
  rw [← hafter] at hrules hreconcile
  have hresult : result.reconcile = (daemon.reconcile toml (readRules directoryAfter none) none suffix).1 :=
    congrArg Prod.fst (hreconcile rfl)
  have hread : readRules directoryAfter none = .stable replacement := readRules_stable hrules
  rw [hread] at hresult
  unfold Reconciled
  rw [hread]
  cases hbom : hasLaterBom replacement with
  | true =>
      refine iff_of_false ?_ (by simp)
      rintro ⟨loaded, -, hload, -⟩
      rw [loadRulesSource_bom hload] at hbom
      cases hbom
  | false =>
      have hload := loadRulesSource_stable hsize hlength hbom
      have hok : Reconciled toml daemon directoryAfter result ↔ result.reconcile.state.status = .active := by
        unfold Reconciled
        rw [hread, hload]
        constructor
        · rintro ⟨_, _, -, -, hactive⟩
          simpa [ReconcileResult.ok] using hactive
        · intro hactive
          exact ⟨_, candidate, rfl, hbuild, by simpa [ReconcileResult.ok] using hactive⟩
      unfold Reconciled at hok
      rw [hread] at hok
      rw [hok]
      by_cases hskip : sourceDigest replacement = daemon.reconciler.state.sourceDigest ∧
          daemon.reconciler.deviceDirty = false
      · rw [hresult, reconcile_skipped hload hskip.1 hskip.2]
        simp [Daemon.report, ControlState.onDevice, hskip.1, hskip.2]
      · have hchanged : sourceDigest replacement ≠ daemon.reconciler.state.sourceDigest ∨
            daemon.reconciler.deviceDirty = true := by
          rw [not_and_or, Bool.not_eq_false] at hskip
          exact hskip
        refine iff_of_true ?_ ⟨rfl, hchanged.imp_right Or.inl⟩
        rw [hresult, reconcile_compiled hload hchanged]
        simp only [Daemon.compile, hbuild, hadmitted]
        exact deploy_status_of_verify (verify_of_buildCandidate hbuild)

end Save

/-! ## Saves of a sample -/

def sampleConfig : ConfigDirectory
  | .rules => some oneRedirect.text
  | _ => none

theorem sampleConfig_rules : sampleConfig .rules = some oneRedirect.text := rfl

def sampleDaemon : Daemon := Daemon.start {} fullDevice fun _ => none

theorem admits_oneRedirect : sampleDaemon.Admits oneRedirect.toml oneRedirect.text := by
  obtain ⟨candidate, hbuild, hadmitted, -⟩ := candidate_oneRedirect
  refine ⟨oneRedirect.source, candidate, ?_, hbuild, hadmitted⟩
  have hsize : ¬ sampleDaemon.reconciler.limits.maxSourceBytes < oneRedirect.text.length := by decide +kernel
  have hlength : oneRedirect.text.length < 2 ^ 32 := by decide +kernel
  rw [SourceBuffer.create, if_neg hsize, dif_pos hlength]
  rfl

theorem saveRulesFile_unchanged_iff_rename :
    ∃ result after directoryAfter,
      sampleDaemon.saveRulesFile oneRedirect.toml sampleConfig (sourceDigest oneRedirect.text) [newline]
        (some (.replace .rename)) none 0 = (result, after, directoryAfter) ∧
      (result.saved = false → directoryAfter .rules = some oneRedirect.text ∧ after = sampleDaemon) := by
  rcases hcall : sampleDaemon.saveRulesFile oneRedirect.toml sampleConfig (sourceDigest oneRedirect.text) [newline]
    (some (.replace .rename)) none 0 with ⟨result, after, directoryAfter⟩
  refine ⟨result, after, directoryAfter, rfl, (saveRulesFile_unchanged_iff sampleConfig_rules hcall).mpr ?_⟩
  rintro ⟨hsync, -⟩
  cases hsync

theorem saveRulesFile_reconciled_iff_oneRedirect :
    ∃ result after directoryAfter,
      sampleDaemon.saveRulesFile oneRedirect.toml sampleConfig (sourceDigest oneRedirect.text) oneRedirect.text
        none none 0 = (result, after, directoryAfter) ∧
      Reconciled oneRedirect.toml sampleDaemon directoryAfter result := by
  have hpasses : sampleDaemon.Passes oneRedirect.toml sampleConfig (sourceDigest oneRedirect.text) oneRedirect.text none :=
    (passes_iff sampleConfig_rules rfl rfl).mpr ⟨⟨_, load_oneRedirect, rfl⟩, admits_oneRedirect⟩
  have hwrite : replaceRules sampleConfig oneRedirect.text none 0 =
      (true, (replaceRules sampleConfig oneRedirect.text none 0).2) := rfl
  obtain ⟨result, after, hcall, hsaved, -, -⟩ := saveRulesFile_passed hpasses hwrite none
  refine ⟨result, after, _, hcall, (saveRulesFile_reconciled_iff hcall hsaved).mpr ⟨by decide +kernel, Or.inl ?_⟩⟩
  exact sourceDigest_ne_nil _

/-- A byte order mark in a comment. -/
def markedComment : Bytes := ascii "# " ++ utf8Bom ++ [newline]

def markedText : Bytes := oneRedirect.text ++ markedComment

/-- A parser that knows this one text. -/
def markedToml : TomlParser := fun text _ =>
  if text = oneRedirect.generatedText ++ markedComment then .ok oneRedirect.tree else .error (Rules.Sample.region 1 1 1)

theorem markedText_length : markedText.length < 2 ^ 32 := by decide +kernel

theorem admits_marked : sampleDaemon.Admits markedToml markedText := by
  have hsize : ¬ sampleDaemon.reconciler.limits.maxSourceBytes < markedText.length := by decide +kernel
  have hcheck : (match buildCandidate markedToml {} ⟨kRulesFileName, markedText, markedText_length⟩ with
      | .ok candidate => candidate.admitted fullDevice
      | .error _ => false) = true := by decide +kernel
  split at hcheck
  · next candidate hbuild =>
    refine ⟨⟨kRulesFileName, markedText, markedText_length⟩, candidate, ?_, hbuild, hcheck⟩
    rw [SourceBuffer.create, if_neg hsize, dif_pos markedText_length]
  · cases hcheck

theorem passes_marked {failing : Option SaveStep} (hfirst : failing.bind SaveStep.atFirstLoad = none)
    (hsecond : failing.bind SaveStep.atSecondLoad = none) :
    sampleDaemon.Passes markedToml sampleConfig (sourceDigest oneRedirect.text) markedText failing :=
  (passes_iff sampleConfig_rules hfirst hsecond).mpr ⟨⟨_, load_oneRedirect, rfl⟩, admits_marked⟩

/-- The save of a marked text replaces the file and is said to be saved. The daemon does not load it. -/
theorem saves_marked :
    ∃ result after directoryAfter,
      sampleDaemon.saveRulesFile markedToml sampleConfig (sourceDigest oneRedirect.text) markedText none none 0 =
        (result, after, directoryAfter) ∧
      result.saved = true ∧ directoryAfter .rules = some markedText ∧ result.reconcile.ok = false ∧
      ¬ Reconciled markedToml sampleDaemon directoryAfter result := by
  have hwrite : replaceRules sampleConfig markedText none 0 =
      (true, (replaceRules sampleConfig markedText none 0).2) := rfl
  have hpasses : sampleDaemon.Passes markedToml sampleConfig (sourceDigest oneRedirect.text) markedText none :=
    passes_marked rfl rfl
  obtain ⟨result, after, hcall, hsaved, -, hreconcile⟩ := saveRulesFile_passed hpasses hwrite none
  have hrules := (replaceRules_rules sampleConfig markedText none 0).1
  have hread := readRules_stable hrules
  have hnot : ∀ loaded, loadRulesSource sampleDaemon.reconciler.limits (.stable markedText) ≠ .ok loaded := by
    intro loaded hload
    have hbom := loadRulesSource_bom hload
    rw [show hasLaterBom markedText = true by decide +kernel] at hbom
    cases hbom
  refine ⟨result, after, _, hcall, hsaved, hrules, ?_, ?_⟩
  · have hresult : result.reconcile = _ := congrArg Prod.fst (hreconcile rfl)
    rw [hresult, hread]
    cases hload : loadRulesSource sampleDaemon.reconciler.limits (.stable markedText) with
    | ok loaded => exact absurd hload (hnot loaded)
    | error error =>
        simp only [Daemon.reconcile, hload]
        rfl
  · rintro ⟨loaded, _, hload, -⟩
    rw [hread] at hload
    exact hnot loaded hload

/-- The sync of the directory fails: the save is refused, and the file is replaced. -/
theorem refuses_marked :
    ∃ result after directoryAfter,
      sampleDaemon.saveRulesFile markedToml sampleConfig (sourceDigest oneRedirect.text) markedText
        (some (.replace .directorySync)) none 0 = (result, after, directoryAfter) ∧
      result.saved = false ∧ sampleConfig .rules = some oneRedirect.text ∧
      directoryAfter .rules = some markedText ∧ markedText ≠ oneRedirect.text := by
  have hwrite : replaceRules sampleConfig markedText (some .directorySync) 0 =
      (false, (replaceRules sampleConfig markedText (some .directorySync) 0).2) := rfl
  have hpasses : sampleDaemon.Passes markedToml sampleConfig (sourceDigest oneRedirect.text) markedText
      (some (.replace .directorySync)) := passes_marked rfl rfl
  obtain ⟨result, after, hcall, hsaved, -, -⟩ := saveRulesFile_passed hpasses hwrite none
  refine ⟨result, after, _, hcall, hsaved, rfl, (replaceRules_rules sampleConfig markedText _ 0).1, ?_⟩
  exact fun h => absurd (List.append_right_eq_self.mp h) (by decide)

end PathGuard.Control
