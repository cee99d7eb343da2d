import Mathlib.Data.List.Nodup
import PathGuard.Rules.Compiler

/-!
# What the parser guarantees of a document

A document comes out only when nothing at all was reported, and every decoding function reports what it does not
accept. So each one is described by what holds when the diagnostics are empty after it: they were empty before it,
and what it decoded is in order.

* `WellFormedApp`, `ValidUsers`, `ValidProcesses` : what holds of an app that comes out;
* `decodeUniqueItems_quiet`, `decodeField_quiet`, `decodeApp_quiet` : one lemma for each shape of decoder;
* `parseRulesDocument_some` : the document of a parse.
-/

namespace PathGuard.Rules

variable {context : DecoderContext} {decoder : Decoder}

/-- What the decoder lets through as an app. -/
structure WellFormedApp (app : AppRules) : Prop where
  package : isPackageName app.package = true
  users_ne_nil : app.users ≠ []
  users_range : ∀ user ∈ app.users, 0 ≤ user ∧ user ≤ 99999
  users_nodup : app.users.Nodup
  processes : ∀ process ∈ app.processes, isProcessName app.package process = true
  processes_nodup : app.processes.Nodup

theorem Decoder.add_not_quiet {limits : RulesLimits} {code messageKey : String} {span : ByteSpan}
    {phase : DiagnosticPhase} {fieldPath : Bytes}
    (h : (decoder.add limits code messageKey span phase fieldPath).diagnostics = []) : False := by
  unfold Decoder.add at h
  split at h
  · simp at h
  · next hfull =>
    split at h
    · simp at h
    · rw [h, List.length_nil] at hfull
      omega

theorem checkFields_quiet {allowed : List Bytes} {path : Bytes} {entries : List (TomlKey × TomlNode)}
    (h : (checkFields context allowed path entries decoder).2.diagnostics = []) : decoder.diagnostics = [] := by
  induction entries generalizing decoder with
  | nil => exact h
  | cons entry entries ih =>
      rw [checkFields] at h
      split at h
      · exact ih h
      · exact (Decoder.add_not_quiet (ih h)).elim

theorem decodeBool_quiet {entries : List (TomlKey × TomlNode)} {key path : Bytes} {output : Bool}
    (h : (decodeBool context entries key path output decoder).2.2.diagnostics = []) : decoder.diagnostics = [] := by
  unfold decodeBool at h
  split at h
  · exact h
  · split at h
    · exact (Decoder.add_not_quiet h).elim
    · exact h

theorem decodeUniqueItems_quiet {α : Type} [DecidableEq α] {valueOf : TomlNode → Option α} {refuses : α → Bool}
    {mismatchKey invalidKey : String} {path : Bytes} {items : List TomlNode} {output : List α}
    (h : (decodeUniqueItems context valueOf refuses mismatchKey invalidKey path items output decoder).2.2.diagnostics = []) :
    decoder.diagnostics = [] ∧ ((∀ value ∈ output, refuses value = false) → output.Nodup →
      (∀ value ∈ (decodeUniqueItems context valueOf refuses mismatchKey invalidKey path items output decoder).2.1,
        refuses value = false) ∧
      (decodeUniqueItems context valueOf refuses mismatchKey invalidKey path items output decoder).2.1.Nodup) := by
  induction items generalizing output decoder with
  | nil => exact ⟨h, fun haccepted hnodup => ⟨haccepted, hnodup⟩⟩
  | cons node items ih =>
      rw [decodeUniqueItems] at h ⊢
      split at h
      · exact (Decoder.add_not_quiet (ih h).1).elim
      · next value hvalue =>
        split at h
        · exact (Decoder.add_not_quiet (ih h).1).elim
        · next hok =>
          rw [if_neg hok]
          rw [Bool.or_eq_true, List.contains_iff_mem, not_or, Bool.not_eq_true] at hok
          obtain ⟨haccepted, hfresh⟩ := hok
          refine ⟨(ih h).1, fun houtput hnodup => (ih h).2 (fun other hother => ?_) ?_⟩
          · rcases List.mem_append.mp hother with hother | hother
            · exact houtput other hother
            · rw [List.mem_singleton.mp hother]
              exact haccepted
          · exact List.nodup_append.mpr ⟨hnodup, List.nodup_singleton value, fun a ha b hb => by
              rw [List.mem_singleton.mp hb]
              exact fun heq => hfresh (heq ▸ ha)⟩

/-- The numbers a `users` array may hold. -/
def ValidUsers (users : List Int) : Prop := (∀ user ∈ users, 0 ≤ user ∧ user ≤ 99999) ∧ users.Nodup

theorem decodeUsers_quiet {node : TomlNode} {path : Bytes} {output : List Int}
    (h : (decodeUsers context node path output decoder).2.2.diagnostics = []) :
    decoder.diagnostics = [] ∧ (decodeUsers context node path output decoder).2.1 ≠ [] ∧
      ValidUsers (decodeUsers context node path output decoder).2.1 := by
  unfold decodeUsers at h ⊢
  split at h
  · exact (Decoder.add_not_quiet h).elim
  · next items _ =>
    simp only at h ⊢
    split at h
    · exact (Decoder.add_not_quiet h).elim
    · next hne =>
      rw [if_neg hne]
      obtain ⟨hquiet, hvalid⟩ := decodeUniqueItems_quiet h
      obtain ⟨haccepted, hnodup⟩ := hvalid (List.forall_mem_nil _) List.nodup_nil
      refine ⟨hquiet, fun hnil => hne (by rw [hnil]; rfl), fun user huser => ?_, hnodup⟩
      simpa using haccepted user huser

def ValidProcesses (package : Bytes) (processes : List Bytes) : Prop :=
  (∀ process ∈ processes, isProcessName package process = true) ∧ processes.Nodup

theorem decodeProcesses_quiet {node : TomlNode} {package path : Bytes}
    (h : (decodeProcesses context node package path decoder).2.2.diagnostics = []) :
    decoder.diagnostics = [] ∧ ValidProcesses package (decodeProcesses context node package path decoder).2.1 := by
  unfold decodeProcesses at h ⊢
  split at h
  · exact (Decoder.add_not_quiet h).elim
  · obtain ⟨hquiet, hvalid⟩ := decodeUniqueItems_quiet h
    obtain ⟨haccepted, hnodup⟩ := hvalid (List.forall_mem_nil _) List.nodup_nil
    refine ⟨hquiet, fun process hprocess => ?_, hnodup⟩
    simpa using haccepted process hprocess

theorem Decoder.addOrigin_quiet {limits : RulesLimits} {id : RuleId} {origin : RuleOrigin} {path : Bytes}
    (h : (decoder.addOrigin limits id origin path).2.diagnostics = []) : decoder.diagnostics = [] := by
  unfold Decoder.addOrigin at h
  split at h
  · exact h
  · exact (Decoder.add_not_quiet h).elim

theorem decodeDenyItems_quiet {path : Bytes} {items : List TomlNode} {output : List DenyRule}
    (h : (decodeDenyItems context path items output decoder).2.2.diagnostics = []) : decoder.diagnostics = [] := by
  induction items generalizing output decoder with
  | nil => exact h
  | cons node items ih =>
      rw [decodeDenyItems] at h
      split at h
      · exact (Decoder.add_not_quiet (ih h)).elim
      · next value _ =>
        have hquiet := Decoder.addOrigin_quiet (ih h)
        exact hquiet

theorem decodeDeny_quiet {node : TomlNode} {path : Bytes}
    (h : (decodeDeny context node path decoder).2.2.diagnostics = []) : decoder.diagnostics = [] := by
  unfold decodeDeny at h
  split at h
  · exact (Decoder.add_not_quiet h).elim
  · exact decodeDenyItems_quiet h

theorem decodeRedirectItems_quiet {base : List Bytes} {path : Bytes} {items : List TomlNode} {index : Nat}
    {output : List RedirectRule}
    (h : (decodeRedirectItems context base path items index output decoder).2.2.diagnostics = []) :
    decoder.diagnostics = [] := by
  induction items generalizing index output decoder with
  | nil => exact h
  | cons node items ih =>
      rw [decodeRedirectItems] at h
      split at h
      · split at h
        · exact (Decoder.add_not_quiet (ih h)).elim
        · exact Decoder.addOrigin_quiet (ih h)
      · exact (Decoder.add_not_quiet (ih h)).elim

theorem decodeRedirect_quiet {base : List Bytes} {node : TomlNode} {path : Bytes}
    (h : (decodeRedirect context base node path decoder).2.2.diagnostics = []) : decoder.diagnostics = [] := by
  unfold decodeRedirect at h
  split at h
  · exact (Decoder.add_not_quiet h).elim
  · exact decodeRedirectItems_quiet h

theorem decodeField_quiet {α : Type} {P : α → Prop} {entries : List (TomlKey × TomlNode)} {key : Bytes} {unset : α}
    {decode : TomlNode → Decoder → Bool × α × Decoder} (hunset : P unset)
    (hdecode : ∀ node decoder, (decode node decoder).2.2.diagnostics = [] →
      decoder.diagnostics = [] ∧ P (decode node decoder).2.1)
    (h : (decodeField entries key unset decode decoder).2.2.diagnostics = []) :
    decoder.diagnostics = [] ∧ P (decodeField entries key unset decode decoder).2.1 := by
  unfold decodeField at h ⊢
  split at h
  · exact ⟨h, hunset⟩
  · exact hdecode _ _ h

theorem decodeApp_quiet {package : Bytes} {region : SourceRegion} {entries : List (TomlKey × TomlNode)}
    (hpackage : isPackageName package = true)
    (h : (decodeApp context package region entries decoder).2.2.diagnostics = []) :
    decoder.diagnostics = [] ∧ WellFormedApp (decodeApp context package region entries decoder).2.1 := by
  unfold decodeApp at h ⊢
  simp only at h ⊢
  split at h
  · exact (Decoder.add_not_quiet h).elim
  · next hrules =>
    rw [if_neg hrules]
    simp only at h ⊢
    have hredirect := (decodeField_quiet (P := fun _ => True) trivial
      (fun _ _ h => ⟨decodeRedirect_quiet h, trivial⟩) h).1
    have hdeny := (decodeField_quiet (P := fun _ => True) trivial (fun _ _ h => ⟨decodeDeny_quiet h, trivial⟩)
      hredirect).1
    obtain ⟨hprocesses, hvalidProcesses⟩ := decodeField_quiet (P := ValidProcesses package)
      ⟨fun _ hp => absurd hp List.not_mem_nil, List.nodup_nil⟩ (fun _ _ h => decodeProcesses_quiet h) hdeny
    obtain ⟨husers, husersNe, hvalidUsers⟩ := decodeField_quiet (P := fun users => users ≠ [] ∧ ValidUsers users)
      ⟨by decide, by decide, List.nodup_singleton 0⟩ (fun _ _ h => decodeUsers_quiet h) hprocesses
    have hfields := checkFields_quiet (decodeBool_quiet (decodeBool_quiet husers))
    exact ⟨hfields, {
      package := hpackage
      users_ne_nil := husersNe
      users_range := hvalidUsers.1
      users_nodup := hvalidUsers.2
      processes := hvalidProcesses.1
      processes_nodup := hvalidProcesses.2 }⟩

theorem decodeApps_quiet {entries : List (TomlKey × TomlNode)} {apps : List AppRules}
    (h : (decodeApps context entries apps decoder).2.2.diagnostics = []) :
    decoder.diagnostics = [] ∧ ((∀ app ∈ apps, WellFormedApp app) →
      ∀ app ∈ (decodeApps context entries apps decoder).2.1, WellFormedApp app) := by
  induction entries generalizing apps decoder with
  | nil => exact ⟨h, fun happs => happs⟩
  | cons entry entries ih =>
      rw [decodeApps] at h ⊢
      split at h
      · exact (Decoder.add_not_quiet (ih h).1).elim
      · next hname =>
        rw [if_neg hname]
        split at h
        · exact (Decoder.add_not_quiet (ih h).1).elim
        · next table htable =>
          simp only at h ⊢
          obtain ⟨hquiet, hrest⟩ := ih h
          obtain ⟨hquiet, hwell⟩ := decodeApp_quiet (by simpa using hname) hquiet
          refine ⟨hquiet, fun happs => hrest fun app happ => ?_⟩
          rcases List.mem_append.mp happ with happ | happ
          · exact happs app happ
          · rw [List.mem_singleton.mp happ]
            exact hwell

theorem decodeRoot_quiet {root : List (TomlKey × TomlNode)}
    (h : (decodeRoot context root decoder).2.2.diagnostics = []) :
    ∀ app ∈ (decodeRoot context root decoder).2.1.apps, WellFormedApp app := by
  unfold decodeRoot at h ⊢
  simp only at h ⊢
  split at h
  · split at h
    · exact (Decoder.add_not_quiet h).elim
    · next hlimit =>
      rw [if_neg hlimit]
      exact (decodeApps_quiet h).2 fun _ happ => absurd happ List.not_mem_nil
  · exact (Decoder.add_not_quiet h).elim

/-- A document comes without diagnostics, and its apps are well formed. -/
theorem decodeDesugaredRules_some {toml : TomlParser} {source : SourceBuffer} {desugared : DesugarResult}
    {limits : RulesLimits} {document : RulesDocument}
    (h : (decodeDesugaredRules toml source desugared limits).document = some document) :
    (decodeDesugaredRules toml source desugared limits).diagnostics = [] ∧
      ∀ app ∈ document.apps, WellFormedApp app := by
  unfold decodeDesugaredRules at h ⊢
  split at h
  · cases h
  · next hok =>
    rw [if_neg hok]
    simp only at h ⊢
    split at h
    · cases h
    · next root hparse =>
      split at h
      · cases h
      · next bound hbind =>
        split at h
        · cases h
        · next hdecoded =>
          rw [if_neg hdecoded]
          simp only [Bool.or_eq_true, Bool.not_eq_true', List.isEmpty_eq_false_iff, not_or, Bool.not_eq_false,
            not_not] at hdecoded
          rw [Option.some.injEq] at h
          subst h
          exact ⟨rfl, decodeRoot_quiet hdecoded.2⟩

theorem parseRulesDocument_some {toml : TomlParser} {source : SourceBuffer} {limits : RulesLimits}
    {document : RulesDocument} (h : (parseRulesDocument toml source limits).document = some document) :
    (parseRulesDocument toml source limits).diagnostics = [] ∧ ∀ app ∈ document.apps, WellFormedApp app := by
  unfold parseRulesDocument at h ⊢
  split at h
  · cases h
  · next hprobe =>
    simp only at h ⊢
    split at h
    · cases h
    · next hlexical =>
      rw [if_neg hlexical]
      split at h
      · cases h
      · next hdesugared =>
        rw [if_neg hdesugared]
        exact decodeDesugaredRules_some h

end PathGuard.Rules
