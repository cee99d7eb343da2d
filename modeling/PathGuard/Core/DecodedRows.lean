import PathGuard.Core.DecodeSafety

/-!
# What a decoded document owns

The packages of a document that `DecodePolicy` accepts come in the strict order of the package table, and the rows of
the mount table and of the event table are split among them: every row is in the range of one package, and that package
has the rule of the row in its place.

* `TakesRows`, `OwnsRun` : the runs of rows of the packages, as they are taken;
* `DecodedWhole`, `BelongsTo` : the whole of a decoded document;
* `safe_decodePolicy`, `decodePolicyInto_safe` : no wrap, no read outside, and the facts on success.
-/

namespace PathGuard

/-! ## The plan of a package is what was read -/

theorem eq_of_zipWith_all {α : Type} {same : α → α → Bool} {l l' : List α}
    (hsame : ∀ a ∈ l, ∀ b ∈ l', same a b = true → a = b) (hlength : l.length = l'.length)
    (h : (l.zipWith same l').all id = true) : l = l' := by
  induction l generalizing l' with
  | nil => exact (List.length_eq_zero_iff.mp hlength.symm).symm
  | cons a l ih =>
      cases l' with
      | nil => cases hlength
      | cons b l' =>
          rw [List.zipWith_cons_cons, List.all_cons, Bool.and_eq_true] at h
          rw [List.length_cons, List.length_cons, Nat.add_right_cancel_iff] at hlength
          rw [hsame a List.mem_cons_self b List.mem_cons_self h.1, ih (fun c hc d hd =>
            hsame c (List.mem_cons_of_mem a hc) d (List.mem_cons_of_mem b hd)) hlength h.2]

theorem eq_of_sameMount {a b : LogicalMountRule} (ha : a.clearLine = a) (hb : b.clearLine = b)
    (h : sameMount a b = true) : a = b := by
  simp only [sameMount, Bool.and_eq_true, beq_iff_eq] at h
  obtain ⟨⟨⟨⟨haction, hvisible⟩, hbacking⟩, hdepth⟩, hflags⟩ := h
  rw [← ha, ← hb, LogicalMountRule.clearLine, LogicalMountRule.clearLine, haction, hvisible, hbacking, hdepth, hflags]

theorem eq_of_sameEvent {a b : EventRule} (ha : a.clearLine = a) (hb : b.clearLine = b) (h : sameEvent a b = true) :
    a = b := by
  simp only [sameEvent, Bool.and_eq_true, beq_iff_eq] at h
  obtain ⟨⟨⟨haction, hsource⟩, htarget⟩, hoptions⟩ := h
  rw [← ha, ← hb, EventRule.clearLine, EventRule.clearLine, haction, hsource, htarget, hoptions]

theorem clearLines_eq_self {app : AppPolicy} (hmounts : app.mounts.map LogicalMountRule.clearLine = app.mounts)
    (hevents : app.events.map EventRule.clearLine = app.events) : app.clearLines = app := by
  rw [AppPolicy.clearLines, hmounts, hevents]

/-- Where no rule has a source line, the plan has the rules in the order in which they were encoded. -/
theorem checkPackagePlan_rules {encodedOrder app : AppPolicy} {failureMode : FailureMode} {legacy : Bool}
    {generation : UInt64} (hclear : encodedOrder.clearLines = encodedOrder)
    (h : checkPackagePlan encodedOrder failureMode legacy generation = .ok app) :
    app.package = encodedOrder.package ∧ app.mounts = encodedOrder.mounts ∧ app.events = encodedOrder.events := by
  have hvalid := (checkPackagePlan_generation h).1
  have hlines : app.clearLines = app := by
    have hagain := validatePolicy_clearLines hvalid
    rw [hclear, hvalid] at hagain
    exact (Except.ok.inj hagain).symm
  have hmountLine : ∀ policy : AppPolicy, policy.clearLines = policy → ∀ rule ∈ policy.mounts, rule.clearLine = rule := by
    intro policy hpolicy
    exact List.map_inj_left.mp ((congrArg AppPolicy.mounts hpolicy).trans (List.map_id _).symm)
  have heventLine : ∀ policy : AppPolicy, policy.clearLines = policy → ∀ rule ∈ policy.events, rule.clearLine = rule := by
    intro policy hpolicy
    exact List.map_inj_left.mp ((congrArg AppPolicy.events hpolicy).trans (List.map_id _).symm)
  refine ⟨(validatePolicy_strings hvalid).1, ?_⟩
  rw [checkPackagePlan, hvalid] at h
  dsimp only at h
  split at h
  · cases h
  · next hlength =>
    split at h
    · cases h
    · next hmounts =>
      split at h
      · cases h
      · next hevents =>
        split at h
        · cases h
        · simp only [Bool.or_eq_true, decide_eq_true_eq, not_or, ne_eq, not_not] at hlength
          rw [Bool.not_eq_true', Bool.not_eq_false] at hmounts hevents
          refine ⟨eq_of_zipWith_all (fun a ha b hb => ?_) hlength.1 hmounts,
            eq_of_zipWith_all (fun a ha b hb => ?_) hlength.2 hevents⟩
          · exact eq_of_sameMount (hmountLine app hlines a ha) (hmountLine encodedOrder hclear b hb)
          · exact eq_of_sameEvent (heventLine app hlines a ha) (heventLine encodedOrder hclear b hb)

/-! ## The rows that were read -/

theorem readRules_some {α : Type} {read : Nat → Read α} {tableOffset size : Nat} {first : UInt32} {count index : Nat}
    {rules : List α} (hsum : first.toNat + index + count < 2 ^ 32)
    (h : readRules read tableOffset size first count index = .ok rules) :
    rules.length = count ∧
      ∀ i rule, rules[i]? = some rule → read (tableOffset + (first.toNat + index + i) * size) = .ok rule := by
  induction count generalizing index rules with
  | zero =>
      obtain rfl := Except.ok.inj h
      exact ⟨rfl, fun i rule hi => by cases hi⟩
  | succ count ih =>
      rw [readRules] at h
      simp only [bind_ok_iff] at h
      obtain ⟨rule, hrule, rest, hrest, h⟩ := h
      obtain rfl := Except.ok.inj h
      obtain ⟨hlength, hrows⟩ := ih (by omega) hrest
      have hrow : (first + UInt32.ofNat index).toNat = first.toNat + index := by
        rw [UInt32.toNat_add, UInt32.toNat_ofNat_of_lt' (show index < 2 ^ 32 by omega), Nat.mod_eq_of_lt (by omega)]
      refine ⟨by rw [List.length_cons, hlength], fun i other hi => ?_⟩
      cases i with
      | zero =>
          obtain rfl := Option.some.inj hi
          rwa [hrow] at hrule
      | succ i =>
          rw [show first.toNat + index + (i + 1) = first.toNat + (index + 1) + i by omega]
          exact hrows i other hi

theorem map_eq_self_of_readRules {α : Type} {read : Nat → Read α} {tableOffset size : Nat} {first : UInt32}
    {count index : Nat} {rules : List α} {f : α → α} (hread : ∀ row rule, read row = .ok rule → f rule = rule)
    (h : readRules read tableOffset size first count index = .ok rules) : rules.map f = rules := by
  induction count generalizing index rules with
  | zero =>
      obtain rfl := Except.ok.inj h
      rfl
  | succ count ih =>
      rw [readRules] at h
      simp only [bind_ok_iff] at h
      obtain ⟨rule, hrule, rest, hrest, h⟩ := h
      obtain rfl := Except.ok.inj h
      rw [List.map_cons, hread _ _ hrule, ih hrest]

variable {input : Bytes} {header : PolicyHeader} {stringOffset : UInt32} {row : Nat}

theorem readMount_clearLine {rule : LogicalMountRule} (h : readMount input stringOffset row = .ok rule) :
    rule.clearLine = rule := by
  simp only [readMount, bind_ok_iff] at h
  obtain ⟨_, -, _, -, _, -, h⟩ := h
  split at h
  · cases h
  · split at h
    · cases h
    · obtain ⟨_, -, h⟩ := bind_ok_iff.mp h
      obtain ⟨_, -, h⟩ := bind_ok_iff.mp h
      obtain ⟨_, -, h⟩ := bind_ok_iff.mp h
      obtain ⟨_, -, h⟩ := bind_ok_iff.mp h
      split at h
      · obtain rfl := Except.ok.inj h
        rfl
      · cases h

theorem readEvent_clearLine {rule : EventRule} (h : readEvent input stringOffset row = .ok rule) :
    rule.clearLine = rule := by
  simp only [readEvent, bind_ok_iff] at h
  obtain ⟨_, -, _, -, _, -, h⟩ := h
  split at h
  · cases h
  · split at h
    · cases h
    · obtain ⟨_, -, h⟩ := bind_ok_iff.mp h
      obtain ⟨_, -, h⟩ := bind_ok_iff.mp h
      obtain ⟨_, -, h⟩ := bind_ok_iff.mp h
      split at h
      · obtain rfl := Except.ok.inj h
        rfl
      · cases h

/-! ## One package -/

/-- The order of the package table. -/
def IndexedBefore (a b : Bytes) : Prop :=
  packageNameHash a < packageNameHash b ∨ packageNameHash a = packageNameHash b ∧ a < b

theorem IndexedBefore.trans {a b c : Bytes} (hab : IndexedBefore a b) (hbc : IndexedBefore b c) :
    IndexedBefore a c := by
  rcases hab with hab | ⟨hab, hlt⟩
  · rcases hbc with hbc | ⟨hbc, -⟩
    · exact Or.inl (UInt32.lt_trans hab hbc)
    · exact Or.inl (hbc ▸ hab)
  · rcases hbc with hbc | ⟨hbc, hlt'⟩
    · exact Or.inl (hab ▸ hbc)
    · exact Or.inr ⟨hab.trans hbc, hlt.trans hlt'⟩

theorem IndexedBefore.hash_le {a b : Bytes} (h : IndexedBefore a b) : packageNameHash a ≤ packageNameHash b := by
  rcases h with h | ⟨h, -⟩
  · exact UInt32.le_of_lt h
  · exact UInt32.le_of_eq h

theorem IndexedBefore.ne {a b : Bytes} (h : IndexedBefore a b) : a ≠ b := by
  rintro rfl
  rcases h with h | ⟨-, h⟩
  · exact UInt32.lt_irrefl _ h
  · exact lt_irrefl _ h

theorem indexedBefore_of_checks {previous name : Bytes}
    (h : ¬ (packageNameHash name < packageNameHash previous ∨
      packageNameHash name = packageNameHash previous ∧ name ≤ previous)) : IndexedBefore previous name := by
  rw [not_or, not_and, not_le, UInt32.not_lt] at h
  rcases UInt32.lt_or_eq_of_le h.1 with hlt | heq
  · exact Or.inl hlt
  · exact Or.inr ⟨heq, h.2 heq.symm⟩

/-- One of the two rule tables of a file: how a row is read, and where an app and its entry in the package table say
which rows are its own. -/
structure RuleTable (α : Type) where
  read : Nat → Read α
  offset : Nat
  size : Nat
  count : UInt32
  firstField : Nat
  countField : Nat
  rules : AppPolicy → List α
  taken : DecodeState → UInt32

def mountTable (input : Bytes) (header : PolicyHeader) : RuleTable LogicalMountRule where
  read := readMount input header.stringOffset
  offset := header.mountOffset.toNat
  size := kMountRuleSize
  count := header.mountCount
  firstField := kPackageFirstMountOffset
  countField := kPackageMountCountOffset
  rules := AppPolicy.mounts
  taken := DecodeState.expectedFirstMount

def eventTable (input : Bytes) (header : PolicyHeader) : RuleTable EventRule where
  read := readEvent input header.stringOffset
  offset := header.eventOffset.toNat
  size := kEventRuleSize
  count := header.eventCount
  firstField := kPackageFirstEventOffset
  countField := kPackageEventCountOffset
  rules := AppPolicy.events
  taken := DecodeState.expectedFirstEvent

def packageRow (header : PolicyHeader) (index : Nat) : Nat := header.packageOffset.toNat + index * kPackageSize

/-- The entry at `index` gives the app the rows from `first` on, and the app has their rules. -/
structure OwnsRun {α : Type} (input : Bytes) (header : PolicyHeader) (table : RuleTable α) (index first : Nat)
    (app : AppPolicy) : Prop where
  readFirst : ∃ value, read32 input (packageRow header index + table.firstField) = .ok value ∧ value.toNat = first
  readCount : ∃ value, read32 input (packageRow header index + table.countField) = .ok value ∧
    value.toNat = (table.rules app).length
  row : ∀ i rule, (table.rules app)[i]? = some rule → table.read (table.offset + (first + i) * table.size) = .ok rule

/-- The app takes the next rows of a table. -/
structure TakesRows {α : Type} (input : Bytes) (header : PolicyHeader) (table : RuleTable α) (index : Nat)
    (state next : DecodeState) (app : AppPolicy) : Prop where
  run : OwnsRun input header table index (table.taken state).toNat app
  taken : (table.taken next).toNat = (table.taken state).toNat + (table.rules app).length
  room : table.taken next ≤ table.count

theorem takesRows_of_range {α : Type} {table : RuleTable α} {index : Nat} {state next : DecodeState} {app : AppPolicy}
    {first count : UInt32} (hfirst : read32 input (packageRow header index + table.firstField) = .ok first)
    (hcount : read32 input (packageRow header index + table.countField) = .ok count)
    (hexpected : first = table.taken state) (hle : table.taken state ≤ table.count)
    (hroom : ¬ table.count - first < count) (hnext : table.taken next = table.taken state + count)
    (hrules : readRules table.read table.offset table.size first count.toNat 0 = .ok (table.rules app)) :
    TakesRows input header table index state next app := by
  subst hexpected
  have hle' := UInt32.le_iff_toNat_le.mp hle
  have hlt := table.count.toNat_lt
  rw [sub_lt_iff hle, not_lt] at hroom
  obtain ⟨hlength, hrows⟩ := readRules_some (by omega) hrules
  have hsum : (table.taken next).toNat = (table.taken state).toNat + count.toNat := by
    rw [hnext, UInt32.toNat_add, Nat.mod_eq_of_lt (by omega)]
  refine ⟨⟨⟨_, hfirst, rfl⟩, ⟨_, hcount, hlength.symm⟩, fun i rule hi => hrows i rule hi⟩, ?_, ?_⟩
  · rw [hsum, hlength]
  · rw [UInt32.le_iff_toNat_le, hsum]
    omega

/-- What one round of the loop over the packages has found. -/
structure PackageFound (input : Bytes) (header : PolicyHeader) (index : Nat) (state next : DecodeState)
    (app : AppPolicy) : Prop where
  apps : next.apps = state.apps ++ [app]
  package : next.previousPackage = app.package
  hash : next.previousHash = packageNameHash app.package
  ordered : 0 < index → state.previousHash = packageNameHash state.previousPackage →
    IndexedBefore state.previousPackage app.package
  valid : validatePolicy app = .ok app
  mounts : TakesRows input header (mountTable input header) index state next app
  events : TakesRows input header (eventTable input header) index state next app

theorem packageFound_of_ok {index : Nat} {legacy : Bool} {state next : DecodeState} (hleft : RowsLeft header state)
    (h : decodePackage input header legacy index state = .ok next) :
    ∃ app, PackageFound input header index state next app := by
  simp only [decodePackage, bind_ok_iff] at h
  obtain ⟨packageHash, -, ⟨package, users, processes⟩, -, h⟩ := h
  dsimp only at h
  split at h
  · cases h
  · next hindex =>
    obtain ⟨⟨failure, media, provider⟩, -, h⟩ := bind_ok_iff.mp h
    dsimp only at h
    split at h
    · cases h
    · simp only [bind_ok_iff] at h
      obtain ⟨firstMount, hfirstMount, mountCount, hmountCount, firstEvent, hfirstEvent, eventCount, heventCount, h⟩ := h
      split at h
      · cases h
      · next hrange =>
        simp only [bind_ok_iff] at h
        obtain ⟨mounts, hmounts, events, hevents, generation, -, app, hplan, h⟩ := h
        obtain rfl := Except.ok.inj h
        simp only [Bool.or_eq_true, decide_eq_true_eq, not_or, ne_eq, not_not] at hrange
        obtain ⟨⟨⟨hmountFirst, hmountRoom⟩, heventFirst⟩, heventRoom⟩ := hrange
        simp only [Bool.or_eq_true, Bool.and_eq_true, decide_eq_true_eq, not_or, ne_eq, not_not] at hindex
        obtain ⟨rfl, hordered⟩ := hindex
        have hmountLines : mounts.map LogicalMountRule.clearLine = mounts :=
          map_eq_self_of_readRules (fun row rule => readMount_clearLine) hmounts
        have heventLines : events.map EventRule.clearLine = events :=
          map_eq_self_of_readRules (fun row rule => readEvent_clearLine) hevents
        obtain ⟨hpackage, happMounts, happEvents⟩ := checkPackagePlan_rules (clearLines_eq_self hmountLines heventLines) hplan
        dsimp only at hpackage happMounts happEvents
        refine ⟨app, rfl, hpackage.symm, by rw [hpackage], fun hpositive hprevious => ?_,
          validatePolicy_idempotent (checkPackagePlan_generation hplan).1, ?_, ?_⟩
        · rw [hpackage]
          refine indexedBefore_of_checks ?_
          rw [← hprevious]
          exact fun hbad => hordered ⟨hpositive, hbad⟩
        · exact takesRows_of_range hfirstMount hmountCount hmountFirst hleft.mounts hmountRoom rfl
            (hmounts.trans (congrArg Except.ok happMounts.symm))
        · exact takesRows_of_range hfirstEvent heventCount heventFirst hleft.events heventRoom rfl
            (hevents.trans (congrArg Except.ok happEvents.symm))

/-! ## All packages -/

/-- How many rules of a table the apps have. -/
def ruleCounts {α : Type} (table : RuleTable α) (apps : List AppPolicy) : List Nat :=
  apps.map fun app => (table.rules app).length

/-- The apps so far have taken the first rows of a table, one run after the other. -/
structure RunsSoFar {α : Type} (input : Bytes) (header : PolicyHeader) (table : RuleTable α) (state : DecodeState) :
    Prop where
  run : ∀ index app, state.apps[index]? = some app →
    OwnsRun input header table index (runStart (ruleCounts table state.apps) index) app
  taken : (table.taken state).toNat = (ruleCounts table state.apps).sum
  room : table.taken state ≤ table.count

theorem RunsSoFar.next {α : Type} {table : RuleTable α} {state next : DecodeState} {app : AppPolicy}
    (h : RunsSoFar input header table state) (happs : next.apps = state.apps ++ [app])
    (htakes : TakesRows input header table state.apps.length state next app) : RunsSoFar input header table next := by
  have hcounts : ruleCounts table next.apps = ruleCounts table state.apps ++ [(table.rules app).length] := by
    rw [happs, ruleCounts, List.map_append]
    rfl
  have hlength : (ruleCounts table state.apps).length = state.apps.length := List.length_map _
  refine ⟨fun index other hother => ?_, ?_, htakes.room⟩
  · rw [happs] at hother
    rcases Nat.lt_or_ge index state.apps.length with hlt | hge
    · rw [List.getElem?_append_left hlt] at hother
      have hstart : runStart (ruleCounts table next.apps) index = runStart (ruleCounts table state.apps) index := by
        rw [hcounts, runStart, runStart, List.take_append_of_le_length (by omega)]
      rw [hstart]
      exact h.run index other hother
    · rw [List.getElem?_append_right hge] at hother
      obtain ⟨hzero, happ⟩ := List.getElem?_eq_some_iff.mp hother
      rw [List.length_singleton] at hzero
      obtain rfl : index = state.apps.length := by omega
      obtain rfl : app = other := by simpa using happ
      have hstart : runStart (ruleCounts table next.apps) state.apps.length = (table.taken state).toNat := by
        rw [hcounts, runStart, h.taken, ← hlength, List.take_left]
      rw [hstart]
      exact htakes.run
  · rw [htakes.taken, h.taken, hcounts, List.sum_append, List.sum_singleton]

/-- What holds between two rounds of the loop over the packages. -/
structure DecodedSoFar (input : Bytes) (header : PolicyHeader) (state : DecodeState) : Prop where
  ordered : (state.apps.map AppPolicy.package).Pairwise IndexedBefore
  last : ∀ app, state.apps.getLast? = some app →
    state.previousPackage = app.package ∧ state.previousHash = packageNameHash app.package
  valid : ∀ app ∈ state.apps, validatePolicy app = .ok app
  mounts : RunsSoFar input header (mountTable input header) state
  events : RunsSoFar input header (eventTable input header) state

theorem DecodedSoFar.left {state : DecodeState} (h : DecodedSoFar input header state) : RowsLeft header state :=
  ⟨h.mounts.room, h.events.room⟩

theorem decodedSoFar_initial : DecodedSoFar input header {} where
  ordered := List.Pairwise.nil
  last app happ := by cases happ
  valid app happ := by cases happ
  mounts := ⟨fun index app happ => (by cases happ), rfl, UInt32.zero_le⟩
  events := ⟨fun index app happ => (by cases happ), rfl, UInt32.zero_le⟩

theorem DecodedSoFar.next {state next : DecodeState} {app : AppPolicy} (h : DecodedSoFar input header state)
    (hfound : PackageFound input header state.apps.length state next app) : DecodedSoFar input header next where
  ordered := by
    rw [hfound.apps, List.map_append, List.pairwise_append]
    refine ⟨h.ordered, List.pairwise_singleton _ _, fun name hname other hother => ?_⟩
    rw [List.map_singleton, List.mem_singleton] at hother
    subst hother
    obtain ⟨earlier, hearlier, rfl⟩ := List.mem_map.mp hname
    -- the last app before comes before this one, and all others come before it
    obtain ⟨front, final, hsplit⟩ : ∃ front final, state.apps = front ++ [final] :=
      ⟨_, _, (List.dropLast_append_getLast (List.ne_nil_of_mem hearlier)).symm⟩
    obtain ⟨hprevious, hhash⟩ := h.last final (by rw [hsplit, List.getLast?_concat])
    have hlast := hfound.ordered (List.length_pos_of_mem hearlier) (by rw [hhash, hprevious])
    rw [hprevious] at hlast
    rw [hsplit, List.mem_append, List.mem_singleton] at hearlier
    rcases hearlier with hearlier | rfl
    · have hordered := h.ordered
      rw [hsplit, List.map_append, List.pairwise_append] at hordered
      exact (hordered.2.2 _ (List.mem_map_of_mem hearlier) final.package (by simp)).trans hlast
    · exact hlast
  last other hother := by
    rw [hfound.apps, List.getLast?_concat, Option.some.injEq] at hother
    subst hother
    exact ⟨hfound.package, hfound.hash⟩
  valid other hother := by
    rw [hfound.apps, List.mem_append, List.mem_singleton] at hother
    rcases hother with hother | rfl
    · exact h.valid other hother
    · exact hfound.valid
  mounts := h.mounts.next hfound.apps hfound.mounts
  events := h.events.next hfound.apps hfound.events

theorem decodedSoFar_decodePackages {legacy : Bool} {count index : Nat} {state final : DecodeState}
    (h : DecodedSoFar input header state) (hindex : index = state.apps.length)
    (hdecode : decodePackages input header legacy count index state = .ok final) :
    DecodedSoFar input header final ∧ final.apps.length = index + count := by
  induction count generalizing index state with
  | zero =>
      obtain rfl := Except.ok.inj hdecode
      exact ⟨h, hindex.symm⟩
  | succ count ih =>
      rw [decodePackages] at hdecode
      obtain ⟨next, hnext, hrest⟩ := bind_ok_iff.mp hdecode
      obtain ⟨app, hfound⟩ := packageFound_of_ok h.left hnext
      subst hindex
      obtain ⟨hfinal, hlength⟩ := ih (h.next hfound) (by rw [hfound.apps, List.length_append]; rfl) hrest
      exact ⟨hfinal, by omega⟩

theorem safe_decodePackages {width : Nat} {legacy : Bool} (htables : TablesInside input header)
    (hwidth : input.length < 2 ^ width) {count index : Nat} {state : DecodeState} (h : DecodedSoFar input header state)
    (hindex : index = state.apps.length) (hcount : index + count = header.packageCount.toNat) :
    Safe (decodePackagesExact width input header legacy count index state)
      (decodePackages input header legacy count index state) := by
  induction count generalizing index state with
  | zero => exact Agrees.pure _
  | succ count ih =>
      have hpackages := header.packageCount.toNat_lt
      rw [decodePackagesExact, decodePackages]
      refine (safe_decodePackage htables hwidth (by omega) h.left).bind fun next hnext => ?_
      refine Agrees.step (checkedAdd_of_lt (by omega)) ?_
      obtain ⟨app, hfound⟩ := packageFound_of_ok h.left hnext
      subst hindex
      exact ih (h.next hfound) (by rw [hfound.apps, List.length_append]; rfl) (by omega)

/-- **`DecodePolicy` is safe on every input**: no operation wraps and no read leaves the input. -/
theorem safe_decodePolicy {width : Nat} (hwidth : input.length < 2 ^ width) :
    Safe (decodePolicyExact width input) (decodePolicy input) := by
  unfold decodePolicyExact decodePolicy
  refine Agrees.ite (fun _ => Agrees.error PolicyFailure.noConfusion) fun hlarge => ?_
  refine (safe_readHeader (not_lt.mp hlarge)).bind fun header hheader => ?_
  have htables : TablesInside input header := ⟨headerAccepted_of_ok hheader, stringOffset_lt_of_ok hheader⟩
  refine (safe_decodePackages htables hwidth decodedSoFar_initial rfl (Nat.zero_add _)).bind fun state _ => ?_
  refine Agrees.ite (fun _ => safe_fail _) fun _ => ?_
  have hheaderSize : kHeaderSize = 56 := rfl
  refine (safe_read64 (show 16 + 8 ≤ input.length by omega)).bind fun generation _ => ?_
  exact Agrees.ite (fun _ => safe_fail _) fun _ => Agrees.pure _

/-! ## The rows of an accepted file -/

/-- Row `row` of a table is in the range of the package at `index`, and the app has the rule of the row in its place. -/
def BelongsTo {α : Type} (input : Bytes) (header : PolicyHeader) (table : RuleTable α) (apps : List AppPolicy)
    (row index : Nat) : Prop :=
  ∃ app first count rule, apps[index]? = some app ∧
    read32 input (packageRow header index + table.firstField) = .ok first ∧
    read32 input (packageRow header index + table.countField) = .ok count ∧
    first.toNat ≤ row ∧ row < first.toNat + count.toNat ∧
    (table.rules app)[row - first.toNat]? = some rule ∧ table.read (table.offset + row * table.size) = .ok rule

theorem belongsTo_iff {α : Type} {table : RuleTable α} {state : DecodeState} (h : RunsSoFar input header table state)
    {index : Nat} :
    BelongsTo input header table state.apps row index ↔
      ∃ length, (ruleCounts table state.apps)[index]? = some length ∧
        runStart (ruleCounts table state.apps) index ≤ row ∧
        row < runStart (ruleCounts table state.apps) index + length := by
  constructor
  · rintro ⟨app, first, count, rule, happ, hfirst, hcount, hle, hlt, -⟩
    obtain ⟨⟨first', hfirst', heq⟩, ⟨count', hcount', heq'⟩, -⟩ := h.run index app happ
    obtain rfl : first = first' := Except.ok.inj (hfirst.symm.trans hfirst')
    obtain rfl : count = count' := Except.ok.inj (hcount.symm.trans hcount')
    refine ⟨(table.rules app).length, by rw [ruleCounts, List.getElem?_map, happ]; rfl, heq ▸ hle, ?_⟩
    rwa [heq, heq'] at hlt
  · rintro ⟨length, hlength, hle, hlt⟩
    rw [ruleCounts, List.getElem?_map] at hlength
    obtain ⟨app, happ, rfl⟩ := Option.map_eq_some_iff.mp hlength
    obtain ⟨⟨first, hfirst, heq⟩, ⟨count, hcount, heq'⟩, hrows⟩ := h.run index app happ
    have hplace : row - first.toNat < (table.rules app).length := by omega
    have hrow := hrows _ _ (List.getElem?_eq_getElem hplace)
    rw [← heq, Nat.add_sub_cancel' (by omega)] at hrow
    exact ⟨app, first, count, _, happ, hfirst, hcount, by omega, by omega, List.getElem?_eq_getElem hplace, hrow⟩

theorem existsUnique_belongsTo {α : Type} {table : RuleTable α} {state : DecodeState}
    (h : RunsSoFar input header table state) (htaken : table.taken state = table.count) (hrow : row < table.count.toNat) :
    ∃! index, BelongsTo input header table state.apps row index := by
  rw [existsUnique_congr fun index => belongsTo_iff h]
  exact existsUnique_run (by rwa [← h.taken, htaken])

/-- What an accepted file has given: the packages are all different, every row of the tables belongs to one app, and the
generation is that of the document. -/
structure DecodedWhole (input : Bytes) (document : PolicyDocument) (generation : UInt64) : Prop where
  packages : (document.apps.map AppPolicy.package).Nodup
  rows : ∃ header, readHeader input = .ok header ∧ document.apps.length = header.packageCount.toNat ∧
    (∀ row < header.mountCount.toNat, ∃! index, BelongsTo input header (mountTable input header) document.apps row index) ∧
    ∀ row < header.eventCount.toNat, ∃! index, BelongsTo input header (eventTable input header) document.apps row index
  contents : generation = contentGeneration document
  canonical : ∀ app ∈ document.apps, validatePolicy app = .ok app

theorem decodedWhole_of_ok {document : PolicyDocument} {generation : UInt64}
    (h : decodePolicy input = .ok (document, generation)) : DecodedWhole input document generation := by
  unfold decodePolicy at h
  split at h
  · cases h
  · simp only [bind_ok_iff] at h
    obtain ⟨header, hheader, state, hstate, h⟩ := h
    split at h
    · cases h
    · next htaken =>
      simp only [Bool.or_eq_true, decide_eq_true_eq, not_or, ne_eq, not_not] at htaken
      obtain ⟨encoded, -, h⟩ := bind_ok_iff.mp h
      split at h
      · cases h
      · next hcontent =>
        obtain ⟨rfl, rfl⟩ := Prod.mk.inj (Except.ok.inj h)
        obtain ⟨hfinal, hlength⟩ := decodedSoFar_decodePackages decodedSoFar_initial rfl hstate
        refine ⟨hfinal.ordered.imp fun hbefore => hbefore.ne, ⟨header, hheader, ?_, fun row hrow => ?_, fun row hrow => ?_⟩,
          ?_, hfinal.valid⟩
        · exact hlength.trans (Nat.zero_add _)
        · exact existsUnique_belongsTo hfinal.mounts htaken.1 hrow
        · exact existsUnique_belongsTo hfinal.events htaken.2 hrow
        · rw [ne_eq, not_not] at hcontent
          exact hcontent.symm

/-! ## The caller's variables -/

/-- The variables `document` and `content_generation` point to; a null pointer is `none`. -/
structure DecodeTargets where
  document : Option PolicyDocument
  contentGeneration : Option UInt64
  deriving DecidableEq

/-- `DecodePolicy` as it is called: the result and the variables after it. -/
def decodePolicyInto (width : Nat) (input : Bytes) (targets : DecodeTargets) : Exact (Bool × DecodeTargets) :=
  if targets.document.isNone || targets.contentGeneration.isNone then return (false, targets)
  else
    match decodePolicyExact width input with
    | .ok (decoded, generation) => return (true, { document := some decoded, contentGeneration := some generation })
    | .error (.failed (.rejected _)) => return (false, targets)
    | .error stop => .error stop

/-- **`DecodePolicy` on any bytes.** It returns without an operation that wraps or a read outside the input; when it
returns `false` the variables are as they were, and when it returns `true` they hold the document and its generation, the
packages are all different and every row of the file belongs to one app. -/
theorem decodePolicyInto_safe {width : Nat} (hwidth : input.length < 2 ^ width) (targets : DecodeTargets) :
    ∃ returned after, decodePolicyInto width input targets = .ok (returned, after) ∧
      (returned = false → after = targets) ∧
      (returned = true → ∃ document generation,
        after = { document := some document, contentGeneration := some generation } ∧
          decodePolicy input = .ok (document, generation) ∧ DecodedWhole input document generation) := by
  obtain ⟨heq, hinside⟩ := @safe_decodePolicy input width hwidth
  unfold decodePolicyInto
  by_cases hnull : (targets.document.isNone || targets.contentGeneration.isNone) = true
  · exact ⟨false, targets, if_pos hnull, fun _ => rfl, fun h => by cases h⟩
  · rw [if_neg hnull, heq]
    cases hdecode : decodePolicy input with
    | ok decoded =>
        obtain ⟨document, generation⟩ := decoded
        exact ⟨true, _, rfl, fun h => (by cases h), fun _ => ⟨document, generation, rfl, rfl, decodedWhole_of_ok hdecode⟩⟩
    | error failure =>
        cases failure with
        | rejected error => exact ⟨false, targets, rfl, fun _ => rfl, fun h => by cases h⟩
        | outOfBounds => exact absurd hdecode hinside

def sampleFile : Bytes := (encodePolicy sampleDocument).toOption.getD []

theorem decodePolicyInto_safe_sample :
    (decodePolicy sampleFile).isOk = true ∧
      ∃ returned after, decodePolicyInto 32 sampleFile { document := some {}, contentGeneration := some 0 } =
          .ok (returned, after) ∧
        (returned = false → after = { document := some {}, contentGeneration := some 0 }) ∧
        (returned = true → ∃ document generation,
          after = { document := some document, contentGeneration := some generation } ∧
            decodePolicy sampleFile = .ok (document, generation) ∧ DecodedWhole sampleFile document generation) :=
  ⟨by decide +kernel, decodePolicyInto_safe (by decide +kernel) _⟩

end PathGuard
