import PathGuard.Lib.OrderedMap
import PathGuard.Rules.TomlTree

/-!
# Which rule is which

A redirect of a document is an arrow of its source: the inline tables the desugarer writes are found again by their
spans, and nothing else is let into a redirect array. The origins are recorded as the rules are decoded, so their ids
are those of the rules, all different.

* `Recorded` : ids, nodes and origins as the decoder has them so far;
* `recorded_root`, `boundRule_eq` : the whole tree, and the arrow that a redirect is;
* `parseRulesDocument_identity` : one redirect for each arrow, one origin for each rule.
-/

namespace PathGuard.Rules

variable {context : DecoderContext} {decoder : Decoder}

/-! ## What is recorded -/

theorem Decoder.add_origins {limits : RulesLimits} {code messageKey : String} {span : ByteSpan} {phase : DiagnosticPhase}
    {fieldPath : Bytes} : (decoder.add limits code messageKey span phase fieldPath).origins = decoder.origins := by
  unfold Decoder.add
  split
  · rfl
  · split <;> rfl

theorem checkFields_origins {allowed : List Bytes} {path : Bytes} {entries : List (TomlKey × TomlNode)} :
    (checkFields context allowed path entries decoder).2.origins = decoder.origins := by
  induction entries generalizing decoder with
  | nil => rfl
  | cons entry entries ih =>
      rw [checkFields]
      split
      · exact ih
      · exact ih.trans Decoder.add_origins

theorem decodeBool_origins {entries : List (TomlKey × TomlNode)} {key path : Bytes} {output : Bool} :
    (decodeBool context entries key path output decoder).2.2.origins = decoder.origins := by
  unfold decodeBool
  split
  · rfl
  · split
    · exact Decoder.add_origins
    · rfl

theorem decodeUniqueItems_origins {α : Type} [DecidableEq α] {valueOf : TomlNode → Option α} {refuses : α → Bool}
    {mismatchKey invalidKey : String} {path : Bytes} {items : List TomlNode} {output : List α} :
    (decodeUniqueItems context valueOf refuses mismatchKey invalidKey path items output decoder).2.2.origins =
      decoder.origins := by
  induction items generalizing output decoder with
  | nil => rfl
  | cons node items ih =>
      rw [decodeUniqueItems]
      split
      · exact ih.trans Decoder.add_origins
      · split
        · exact ih.trans Decoder.add_origins
        · exact ih

theorem decodeUsers_origins {node : TomlNode} {path : Bytes} {output : List Int} :
    (decodeUsers context node path output decoder).2.2.origins = decoder.origins := by
  unfold decodeUsers
  split
  · exact Decoder.add_origins
  · dsimp only
    split
    · exact Decoder.add_origins.trans decodeUniqueItems_origins
    · exact decodeUniqueItems_origins

theorem decodeProcesses_origins {node : TomlNode} {package path : Bytes} :
    (decodeProcesses context node package path decoder).2.2.origins = decoder.origins := by
  unfold decodeProcesses
  split
  · exact Decoder.add_origins
  · exact decodeUniqueItems_origins

theorem decodeField_origins {α : Type} {entries : List (TomlKey × TomlNode)} {key : Bytes} {unset : α}
    {decode : TomlNode → Decoder → Bool × α × Decoder}
    (hdecode : ∀ node decoder, (decode node decoder).2.2.origins = decoder.origins) :
    (decodeField entries key unset decode decoder).2.2.origins = decoder.origins := by
  unfold decodeField
  split
  · rfl
  · exact hdecode _ _

/-- The origins that were added, with ids of their own. -/
structure Recorded (decoder after : Decoder) (added : OriginMap) : Prop where
  origins : after.origins = decoder.origins ++ added
  nodup : (decoder.origins.map Prod.fst).Nodup → (after.origins.map Prod.fst).Nodup

theorem Recorded.of_eq {after : Decoder} (h : after.origins = decoder.origins) : Recorded decoder after [] :=
  ⟨by rw [h, List.append_nil], fun hnodup => h ▸ hnodup⟩

theorem Recorded.trans {middle after : Decoder} {first second : OriginMap} (h₁ : Recorded decoder middle first)
    (h₂ : Recorded middle after second) : Recorded decoder after (first ++ second) :=
  ⟨by rw [h₂.origins, h₁.origins, List.append_assoc], fun hnodup => h₂.nodup (h₁.nodup hnodup)⟩

theorem recorded_addOrigin {limits : RulesLimits} {id : RuleId} {origin : RuleOrigin} {path : Bytes}
    (h : (decoder.addOrigin limits id origin path).2.diagnostics = []) :
    Recorded decoder (decoder.addOrigin limits id origin path).2 [(id, origin)] := by
  unfold Decoder.addOrigin at h ⊢
  split
  · next origins hadd =>
    unfold OriginMap.add at hadd
    split at hadd
    · cases hadd
    · next hfresh =>
      obtain rfl := Option.some.inj hadd
      refine ⟨rfl, fun hnodup => ?_⟩
      rw [List.map_append, List.nodup_append]
      refine ⟨hnodup, List.nodup_singleton _, fun first hfirst second hsecond heq => ?_⟩
      obtain ⟨entry, hentry, rfl⟩ := List.mem_map.mp hfirst
      have hne := List.lookup_eq_none_iff.mp hfresh entry hentry
      rw [heq, List.mem_singleton.mp hsecond] at hne
      simp at hne
  · next hadd =>
    rw [hadd] at h
    exact (Decoder.add_not_quiet h).elim

/-! ## Denied paths -/

theorem recorded_denyItems {path : Bytes} {items : List TomlNode} {output : List DenyRule}
    (h : (decodeDenyItems context path items output decoder).2.2.diagnostics = []) :
    ∃ rules added, (decodeDenyItems context path items output decoder).2.1 = output ++ rules ∧
      Recorded decoder (decodeDenyItems context path items output decoder).2.2 added ∧
      added.map Prod.fst = rules.map DenyRule.id := by
  induction items generalizing output decoder with
  | nil => exact ⟨[], [], (List.append_nil _).symm, .of_eq rfl, rfl⟩
  | cons node items ih =>
      rw [decodeDenyItems] at h ⊢
      split at h
      · exact (Decoder.add_not_quiet (decodeDenyItems_quiet h)).elim
      · next value hvalue =>
        dsimp only at h ⊢
        have hadded := recorded_addOrigin (decodeDenyItems_quiet h)
        obtain ⟨rules, added, hrules, hrest, hids⟩ := ih h
        refine ⟨⟨decoder.nextRuleId, value⟩ :: rules, _, ?_, Recorded.trans ⟨hadded.origins, hadded.nodup⟩ hrest, ?_⟩
        · rw [hrules, List.append_assoc]
          rfl
        · rw [List.map_append, hids]
          rfl

theorem recorded_deny {node : TomlNode} {path : Bytes} (h : (decodeDeny context node path decoder).2.2.diagnostics = []) :
    ∃ added, Recorded decoder (decodeDeny context node path decoder).2.2 added ∧
      added.map Prod.fst = (decodeDeny context node path decoder).2.1.map DenyRule.id := by
  unfold decodeDeny at h ⊢
  split at h
  · exact (Decoder.add_not_quiet h).elim
  · obtain ⟨rules, added, hrules, hrecorded, hids⟩ := recorded_denyItems h
    exact ⟨added, hrecorded, by rw [hids, hrules, List.nil_append]⟩

/-! ## Redirects -/

def originOf (redirect : GeneratedRedirect) : RuleOrigin where
  primary := redirect.originalRule
  source := redirect.originalSource
  arrow := redirect.originalArrow
  target := redirect.originalTarget
  hasRedirectOperands := true

/-- A node that is let in as a redirect: a generated table is at its path, and it has the two strings of one. -/
structure BoundRule (context : DecoderContext) (path : List Bytes) (node : TomlNode) (generated : GeneratedRedirect)
    (rule : RedirectRule) : Prop where
  bound : context.bound.lookup path = some generated
  operands : ∃ entries, node.asTable = some entries ∧ generatedOperands entries = some (rule.source, rule.target)
  id : rule.id = generated.id

/-- The rules are the nodes at the places of redirects, and all of them; their origins are among those added. -/
structure Redirects (context : DecoderContext) (places : List Bytes → TomlNode → Prop) (rules : List RedirectRule)
    (added : OriginMap) : Prop where
  rule : ∀ rule ∈ rules, ∃ path node generated, places path node ∧ BoundRule context path node generated rule ∧
    (generated.id, originOf generated) ∈ added
  place : ∀ path node, places path node → ∃ generated, ∃ rule ∈ rules, BoundRule context path node generated rule ∧
    (generated.id, originOf generated) ∈ added

theorem Redirects.imp {places places' : List Bytes → TomlNode → Prop} {rules : List RedirectRule}
    {added more : OriginMap} (h : Redirects context places rules added)
    (hplaces : ∀ path node, places path node ↔ places' path node) (hadded : ∀ origin ∈ added, origin ∈ more) :
    Redirects context places' rules more := by
  refine ⟨fun rule hmem => ?_, fun path node hplace => ?_⟩
  · obtain ⟨path, node, generated, hplace, hbound, horigin⟩ := h.rule rule hmem
    exact ⟨path, node, generated, (hplaces path node).mp hplace, hbound, hadded _ horigin⟩
  · obtain ⟨generated, rule, hmem, hbound, horigin⟩ := h.place path node ((hplaces path node).mpr hplace)
    exact ⟨generated, rule, hmem, hbound, hadded _ horigin⟩

theorem Redirects.append {places places' both : List Bytes → TomlNode → Prop} {rules rules' : List RedirectRule}
    {added added' : OriginMap} (h : Redirects context places rules added) (h' : Redirects context places' rules' added')
    (hboth : ∀ path node, both path node ↔ places path node ∨ places' path node) :
    Redirects context both (rules ++ rules') (added ++ added') := by
  constructor
  · intro rule hmem
    obtain hmem | hmem := List.mem_append.mp hmem
    · obtain ⟨path, node, generated, hplace, hbound, horigin⟩ := h.rule rule hmem
      exact ⟨path, node, generated, (hboth path node).mpr (Or.inl hplace), hbound, List.mem_append_left _ horigin⟩
    · obtain ⟨path, node, generated, hplace, hbound, horigin⟩ := h'.rule rule hmem
      exact ⟨path, node, generated, (hboth path node).mpr (Or.inr hplace), hbound, List.mem_append_right _ horigin⟩
  · intro path node hplace
    obtain hplace | hplace := (hboth path node).mp hplace
    · obtain ⟨generated, rule, hmem, hbound, horigin⟩ := h.place path node hplace
      exact ⟨generated, rule, List.mem_append_left _ hmem, hbound, List.mem_append_left _ horigin⟩
    · obtain ⟨generated, rule, hmem, hbound, horigin⟩ := h'.place path node hplace
      exact ⟨generated, rule, List.mem_append_right _ hmem, hbound, List.mem_append_right _ horigin⟩

theorem Redirects.none {places : List Bytes → TomlNode → Prop} (h : ∀ path node, ¬places path node) :
    Redirects context places [] [] :=
  ⟨nofun, fun path node hplace => absurd hplace (h path node)⟩

/-- The items of an array, at their paths. -/
def ItemPlace (base : List Bytes) (index : Nat) (items : List TomlNode) (path : List Bytes) (node : TomlNode) : Prop :=
  ∃ offset, items[offset]? = some node ∧ path = base ++ [decimalBytes (index + offset)]

theorem itemPlace_cons {base path : List Bytes} {index : Nat} {first node : TomlNode} {items : List TomlNode} :
    ItemPlace base index (first :: items) path node ↔
      (path = base ++ [decimalBytes index] ∧ node = first) ∨ ItemPlace base (index + 1) items path node := by
  constructor
  · rintro ⟨offset, hitem, hpath⟩
    cases offset with
    | zero => exact Or.inl ⟨hpath, (Option.some.inj hitem).symm⟩
    | succ offset =>
        refine Or.inr ⟨offset, hitem, ?_⟩
        rw [hpath, Nat.add_right_comm]
        rfl
  · rintro (⟨hpath, rfl⟩ | ⟨offset, hitem, hpath⟩)
    · exact ⟨0, rfl, hpath⟩
    · refine ⟨offset + 1, hitem, ?_⟩
      rw [hpath, Nat.add_right_comm]
      rfl

theorem recorded_redirectItems {base : List Bytes} {path : Bytes} {items : List TomlNode} {index : Nat}
    {output : List RedirectRule}
    (h : (decodeRedirectItems context base path items index output decoder).2.2.diagnostics = []) :
    ∃ rules added, (decodeRedirectItems context base path items index output decoder).2.1 = output ++ rules ∧
      Recorded decoder (decodeRedirectItems context base path items index output decoder).2.2 added ∧
      added.map Prod.fst = rules.map RedirectRule.id ∧ Redirects context (ItemPlace base index items) rules added := by
  induction items generalizing index output decoder with
  | nil => exact ⟨[], [], (List.append_nil _).symm, .of_eq rfl, rfl, .none fun _ _ hplace => by obtain ⟨_, ⟨⟩, _⟩ := hplace⟩
  | cons node items ih =>
      rw [decodeRedirectItems] at h ⊢
      split at h
      · next entries generated htable hbound =>
        split at h
        · exact (Decoder.add_not_quiet (decodeRedirectItems_quiet h)).elim
        · next source target hoperands =>
          dsimp only at h ⊢
          have hadded := recorded_addOrigin (decodeRedirectItems_quiet h)
          obtain ⟨rules, added, hrules, hrest, hids, hredirects⟩ := ih h
          have hfirst : Redirects context (fun path other => path = base ++ [decimalBytes index] ∧ other = node)
              [⟨generated.id, source, target⟩] [(generated.id, originOf generated)] := by
            have hrule : BoundRule context (base ++ [decimalBytes index]) node generated ⟨generated.id, source, target⟩ :=
              ⟨hbound, ⟨entries, htable, hoperands⟩, rfl⟩
            refine ⟨fun rule hmem => ?_, ?_⟩
            · obtain rfl := List.mem_singleton.mp hmem
              exact ⟨_, node, generated, ⟨rfl, rfl⟩, hrule, List.mem_singleton.mpr rfl⟩
            · rintro _ _ ⟨rfl, rfl⟩
              exact ⟨generated, _, List.mem_singleton.mpr rfl, hrule, List.mem_singleton.mpr rfl⟩
          refine ⟨⟨generated.id, source, target⟩ :: rules, _, ?_, hadded.trans hrest, ?_,
            hfirst.append hredirects fun _ _ => itemPlace_cons⟩
          · rw [hrules, List.append_assoc]
            rfl
          · rw [List.map_append, hids]
            rfl
      · exact (Decoder.add_not_quiet (decodeRedirectItems_quiet h)).elim

/-- The nodes one step below a node. -/
def BelowPlace (base : List Bytes) (node : TomlNode) (path : List Bytes) (other : TomlNode) : Prop :=
  ∃ name, node.At [name] other ∧ path = base ++ [name]

theorem recorded_redirect {base : List Bytes} {node : TomlNode} {path : Bytes}
    (h : (decodeRedirect context base node path decoder).2.2.diagnostics = []) :
    ∃ added, Recorded decoder (decodeRedirect context base node path decoder).2.2 added ∧
      added.map Prod.fst = (decodeRedirect context base node path decoder).2.1.map RedirectRule.id ∧
      Redirects context (BelowPlace base node) (decodeRedirect context base node path decoder).2.1 added := by
  unfold decodeRedirect at h ⊢
  split at h
  · exact (Decoder.add_not_quiet h).elim
  · next items harray =>
    obtain ⟨rules, added, hrules, hrecorded, hids, hredirects⟩ := recorded_redirectItems h
    rw [List.nil_append] at hrules
    rw [hrules]
    refine ⟨added, hrecorded, hids, hredirects.imp (fun place other => ?_) fun _ hmem => hmem⟩
    unfold TomlNode.asArray at harray
    split at harray
    · next source items' =>
      obtain rfl := Option.some.inj harray
      constructor
      · rintro ⟨offset, hitem, hplace⟩
        rw [Nat.zero_add] at hplace
        exact ⟨_, .item hitem rfl (.here _), hplace⟩
      · rintro ⟨name, hat, hplace⟩
        cases hat with
        | @item _ _ index _ _ _ _ hitem hname hat =>
            cases hat
            subst hname
            exact ⟨index, hitem, by rw [Nat.zero_add]; exact hplace⟩
    · cases harray

/-! ## Apps -/

/-- The nodes two steps below a node, through the key of the redirects. -/
def AppPlace (package : Bytes) (node : TomlNode) (path : List Bytes) (other : TomlNode) : Prop :=
  ∃ name, node.At [ascii "redirect", name] other ∧ path = [ascii "apps", package, ascii "redirect", name]

theorem recorded_denyField {entries : List (TomlKey × TomlNode)} {path : Bytes}
    (h : (decodeField entries (ascii "deny") [] (fun node => decodeDeny context node path) decoder).2.2.diagnostics = []) :
    ∃ added, Recorded decoder
        (decodeField entries (ascii "deny") [] (fun node => decodeDeny context node path) decoder).2.2 added ∧
      added.map Prod.fst = (decodeField entries (ascii "deny") [] (fun node => decodeDeny context node path)
        decoder).2.1.map DenyRule.id := by
  unfold decodeField at h ⊢
  split at h
  · exact ⟨[], .of_eq rfl, rfl⟩
  · exact recorded_deny h

theorem recorded_redirectField {entries : List (TomlKey × TomlNode)} {package path : Bytes} {source : SourceRegion}
    {isInline : Bool} (hkeys : DistinctKeys entries)
    (h : (decodeField entries (ascii "redirect") [] (fun node => decodeRedirect context
      [ascii "apps", package, ascii "redirect"] node path) decoder).2.2.diagnostics = []) :
    ∃ added, Recorded decoder (decodeField entries (ascii "redirect") [] (fun node => decodeRedirect context
        [ascii "apps", package, ascii "redirect"] node path) decoder).2.2 added ∧
      added.map Prod.fst = (decodeField entries (ascii "redirect") [] (fun node => decodeRedirect context
        [ascii "apps", package, ascii "redirect"] node path) decoder).2.1.map RedirectRule.id ∧
      Redirects context (AppPlace package (.table source isInline entries)) (decodeField entries (ascii "redirect") []
        (fun node => decodeRedirect context [ascii "apps", package, ascii "redirect"] node path) decoder).2.1 added := by
  unfold decodeField at h ⊢
  split at h
  · next hmissing =>
    refine ⟨[], .of_eq rfl, rfl, .none ?_⟩
    rintro place node ⟨name, hat, -⟩
    cases hat with
    | entry hmem hname =>
        have hfound := hkeys.tomlGet hmem
        rw [hname, hmissing] at hfound
        cases hfound
  · next array harray =>
    obtain ⟨added, hrecorded, hids, hredirects⟩ := recorded_redirect h
    refine ⟨added, hrecorded, hids, hredirects.imp (fun place node => ?_) fun _ hmem => hmem⟩
    obtain ⟨key, hkey, hmem⟩ := mem_of_tomlGet harray
    constructor
    · rintro ⟨name, hat, hplace⟩
      exact ⟨name, .entry hmem hkey hat, hplace⟩
    · rintro ⟨name, hat, hplace⟩
      cases hat with
      | entry hother hname hat =>
          obtain ⟨-, rfl⟩ := Prod.mk.inj (hkeys.eq hmem hother (hkey.trans hname.symm))
          exact ⟨name, hat, hplace⟩

def AppRules.ids (app : AppRules) : List RuleId := app.deny.map DenyRule.id ++ app.redirects.map RedirectRule.id

theorem recorded_app {package : Bytes} {region source : SourceRegion} {isInline : Bool}
    {entries : List (TomlKey × TomlNode)} (hkeys : DistinctKeys entries)
    (h : (decodeApp context package region entries decoder).2.2.diagnostics = []) :
    ∃ added, Recorded decoder (decodeApp context package region entries decoder).2.2 added ∧
      added.map Prod.fst = (decodeApp context package region entries decoder).2.1.ids ∧
      Redirects context (AppPlace package (.table source isInline entries))
        (decodeApp context package region entries decoder).2.1.redirects added := by
  unfold decodeApp at h ⊢
  simp only at h ⊢
  split at h
  · exact (Decoder.add_not_quiet h).elim
  · next hfew =>
    rw [if_neg hfew]
    simp only at h ⊢
    obtain ⟨redirects, hredirect, hredirectIds, hplaces⟩ := recorded_redirectField hkeys h
    have hquiet := (decodeField_quiet (P := fun _ => True) trivial
      (fun _ _ h => ⟨decodeRedirect_quiet h, trivial⟩) h).1
    obtain ⟨denied, hdeny, hdenyIds⟩ := recorded_denyField hquiet
    refine ⟨denied ++ redirects, Recorded.trans (Recorded.trans (.of_eq ?_) hdeny) hredirect, ?_,
      hplaces.imp (fun _ _ => Iff.rfl) fun _ hmem => List.mem_append_right _ hmem⟩
    · rw [decodeField_origins (fun _ _ => decodeProcesses_origins), decodeField_origins (fun _ _ => decodeUsers_origins),
        decodeBool_origins, decodeBool_origins, checkFields_origins]
    · rw [List.map_append, hdenyIds, hredirectIds]
      rfl

/-- The places of redirects below the table of the apps. -/
def AppsPlace (apps : List (TomlKey × TomlNode)) (path : List Bytes) (node : TomlNode) : Prop :=
  ∃ key app, (key, app) ∈ apps ∧ AppPlace key.str app path node

theorem appsPlace_cons {key : TomlKey} {app node : TomlNode} {apps : List (TomlKey × TomlNode)} {path : List Bytes} :
    AppsPlace ((key, app) :: apps) path node ↔ AppPlace key.str app path node ∨ AppsPlace apps path node := by
  constructor
  · rintro ⟨other, found, hmem, hplace⟩
    obtain heq | hmem := List.mem_cons.mp hmem
    · obtain ⟨rfl, rfl⟩ := Prod.mk.inj heq
      exact Or.inl hplace
    · exact Or.inr ⟨other, found, hmem, hplace⟩
  · rintro (hplace | ⟨other, found, hmem, hplace⟩)
    · exact ⟨key, app, List.mem_cons_self, hplace⟩
    · exact ⟨other, found, List.mem_cons_of_mem _ hmem, hplace⟩

theorem recorded_apps {entries : List (TomlKey × TomlNode)} {apps : List AppRules}
    (hdistinct : ∀ (key : TomlKey) (node : TomlNode), (key, node) ∈ entries → node.Distinct)
    (h : (decodeApps context entries apps decoder).2.2.diagnostics = []) :
    ∃ decoded added, (decodeApps context entries apps decoder).2.1 = apps ++ decoded ∧
      Recorded decoder (decodeApps context entries apps decoder).2.2 added ∧
      added.map Prod.fst = decoded.flatMap AppRules.ids ∧
      (∀ key node, (key, node) ∈ entries → isPackageName key.str = true) ∧
      Redirects context (AppsPlace entries) (decoded.flatMap AppRules.redirects) added := by
  induction entries generalizing apps decoder with
  | nil =>
      refine ⟨[], [], (List.append_nil _).symm, .of_eq rfl, rfl, nofun, .none ?_⟩
      rintro path node ⟨_, _, ⟨⟩, _⟩
  | cons entry entries ih =>
      obtain ⟨key, node⟩ := entry
      rw [decodeApps] at h ⊢
      split at h
      · exact (Decoder.add_not_quiet (decodeApps_quiet h).1).elim
      · next hname =>
        rw [if_neg hname]
        split at h
        · exact (Decoder.add_not_quiet (decodeApps_quiet h).1).elim
        · next table htable =>
          dsimp only at h ⊢
          unfold TomlNode.asTable at htable
          split at htable
          · next source isInline entries' =>
            obtain rfl := Option.some.inj htable
            have hkeys : DistinctKeys entries' := hdistinct key _ List.mem_cons_self [] _ _ _ (.here _)
            obtain ⟨first, hfirst, hfirstIds, hfirstPlaces⟩ := recorded_app hkeys (decodeApps_quiet h).1
            obtain ⟨decoded, added, happs, hrest, hids, hnames, hplaces⟩ :=
              ih (fun other found hmem => hdistinct other found (List.mem_cons_of_mem _ hmem)) h
            refine ⟨_ :: decoded, first ++ added, ?_, hfirst.trans hrest, ?_, fun other found hmem => ?_,
              hfirstPlaces.append hplaces fun _ _ => appsPlace_cons⟩
            · rw [happs, List.append_assoc]
              rfl
            · rw [List.map_append, hfirstIds, hids]
              rfl
            · obtain heq | hmem := List.mem_cons.mp hmem
              · obtain ⟨rfl, -⟩ := Prod.mk.inj heq
                simpa using hname
              · exact hnames other found hmem
          · cases htable

/-! ## The document -/

/-- The places of redirects in a tree. -/
def RootPlace (root : List (TomlKey × TomlNode)) (path : List Bytes) (node : TomlNode) : Prop :=
  InTree root path node ∧ isRedirectScope path = true

theorem isRedirectScope_iff {path : List Bytes} :
    isRedirectScope path = true ↔
      ∃ package name, package ≠ [] ∧ path = [ascii "apps", package, ascii "redirect", name] := by
  constructor
  · intro h
    unfold isRedirectScope at h
    split at h
    · next apps package redirect name =>
      simp only [Bool.and_eq_true, beq_iff_eq, Bool.not_eq_true', List.isEmpty_eq_false_iff] at h
      obtain ⟨⟨rfl, hpackage⟩, rfl⟩ := h
      exact ⟨package, name, hpackage, rfl⟩
    · cases h
  · rintro ⟨package, name, hpackage, rfl⟩
    simp [isRedirectScope, hpackage]

theorem rootPlace_iff {root apps : List (TomlKey × TomlNode)} {key : TomlKey} {source : SourceRegion} {isInline : Bool}
    (hroot : DistinctTree root) (hmem : (key, .table source isInline apps) ∈ root) (hkey : key.str = ascii "apps")
    (hnames : ∀ (name : TomlKey) (node : TomlNode), (name, node) ∈ apps → isPackageName name.str = true)
    {path : List Bytes} {node : TomlNode} : AppsPlace apps path node ↔ RootPlace root path node := by
  constructor
  · rintro ⟨package, app, happ, name, hat, rfl⟩
    refine ⟨⟨key, _, _, hmem, by rw [hkey], .entry happ rfl hat⟩, isRedirectScope_iff.mpr ⟨package.str, name, ?_, rfl⟩⟩
    intro hempty
    have hname := hnames package app happ
    rw [hempty] at hname
    exact absurd hname (by decide)
  · rintro ⟨⟨first, child, rest, hfirst, hpath, hat⟩, hscope⟩
    obtain ⟨package, name, -, rfl⟩ := isRedirectScope_iff.mp hscope
    obtain ⟨hname, rfl⟩ := List.cons.inj hpath
    obtain ⟨-, rfl⟩ := Prod.mk.inj (hroot.keys.eq hmem hfirst (hkey.trans hname))
    cases hat with
    | entry happ hpackage hat =>
        subst hpackage
        exact ⟨_, _, happ, name, hat, rfl⟩

def RulesDocument.ruleIds (document : RulesDocument) : List RuleId := document.apps.flatMap AppRules.ids

def RulesDocument.redirects (document : RulesDocument) : List RedirectRule := document.apps.flatMap AppRules.redirects

theorem decodeFormat_origins {root : List (TomlKey × TomlNode)} :
    (decodeFormat context root decoder).2.origins = decoder.origins := by
  unfold decodeFormat
  dsimp only
  split
  · rfl
  · exact Decoder.add_origins

theorem decodeCompatibilityField_origins {root : List (TomlKey × TomlNode)} :
    (decodeCompatibilityField context root decoder).2.2.origins = decoder.origins := by
  unfold decodeCompatibilityField
  split
  · rfl
  · split
    · exact Decoder.add_origins
    · unfold decodeCompatibility
      exact decodeBool_origins.trans checkFields_origins

/-- **What a root without reports decodes to.** -/
theorem recorded_root {root : List (TomlKey × TomlNode)} (hroot : DistinctTree root)
    (h : (decodeRoot context root decoder).2.2.diagnostics = []) :
    ∃ added, Recorded decoder (decodeRoot context root decoder).2.2 added ∧
      added.map Prod.fst = (decodeRoot context root decoder).2.1.ruleIds ∧
      Redirects context (RootPlace root) (decodeRoot context root decoder).2.1.redirects added := by
  unfold decodeRoot at h ⊢
  simp only at h ⊢
  split at h
  · next first rest happs =>
    split at h
    · exact (Decoder.add_not_quiet h).elim
    · next hlimit =>
      rw [if_neg hlimit]
      simp only at h ⊢
      obtain ⟨apps, hget, htable⟩ := Option.bind_eq_some_iff.mp happs
      obtain ⟨key, hkey, hmem⟩ := mem_of_tomlGet hget
      unfold TomlNode.asTable at htable
      split at htable
      · next source isInline entries =>
        obtain rfl := Option.some.inj htable
        have hbelow := hroot.below key _ hmem
        obtain ⟨decoded, added, hdecoded, hrecorded, hids, hnames, hredirects⟩ :=
          recorded_apps (fun other node hother => hbelow.entry hother) h
        rw [List.nil_append] at hdecoded
        refine ⟨added, ⟨?_, fun hnodup => hrecorded.nodup ?_⟩, ?_, ?_⟩
        · rw [hrecorded.origins, decodeCompatibilityField_origins, decodeFormat_origins, checkFields_origins]
        · rw [decodeCompatibilityField_origins, decodeFormat_origins, checkFields_origins]
          exact hnodup
        · rw [hids, ← hdecoded]
          rfl
        · rw [← hdecoded] at hredirects
          exact hredirects.imp (fun path node => rootPlace_iff hroot hmem hkey hnames) fun _ horigin => horigin
      · cases htable
  · exact (Decoder.add_not_quiet h).elim

/-! ## The generated tables -/

theorem bindRedirects_ok {limits : RulesLimits} {nodes : List InlineNode} {redirects : List GeneratedRedirect}
    {spans : List ByteSpan} {bound after : List (List Bytes × GeneratedRedirect)}
    (h : bindRedirects limits nodes redirects spans bound decoder = .ok after) :
    ∃ more, after = bound ++ more ∧ more.map Prod.snd = redirects ∧
      (∀ entry ∈ more, ∃ node ∈ nodes, node.path = entry.1 ∧ node.generated = entry.2.generatedTable) ∧
      (redirects.map GeneratedRedirect.generatedTable).Nodup ∧ ∀ redirect ∈ redirects, redirect.generatedTable ∉ spans := by
  induction redirects generalizing spans bound with
  | nil =>
      obtain rfl : bound = after := by simpa [bindRedirects] using h
      exact ⟨[], (List.append_nil _).symm, rfl, nofun, List.nodup_nil, nofun⟩
  | cons redirect redirects ih =>
      rw [bindRedirects] at h
      split at h
      · cases h
      · next hfresh =>
        split at h
        · cases h
        · next node hfound =>
          obtain ⟨more, rfl, hredirects, hnodes, hnodup, hspans⟩ := ih h
          have hspan := List.find?_some hfound
          refine ⟨(node.path, redirect) :: more, by rw [List.append_assoc]; rfl, by rw [List.map_cons, hredirects],
            ?_, ?_, ?_⟩
          · intro entry hmem
            obtain rfl | hmem := List.mem_cons.mp hmem
            · exact ⟨node, List.mem_of_find?_eq_some hfound, rfl, eq_of_beq hspan⟩
            · exact hnodes entry hmem
          · rw [List.map_cons, List.nodup_cons]
            refine ⟨fun hmem => ?_, hnodup⟩
            obtain ⟨other, hother, hsame⟩ := List.mem_map.mp hmem
            exact hspans other hother (hsame ▸ List.mem_append_right _ (List.mem_singleton.mpr rfl))
          · intro other hmem
            obtain rfl | hmem := List.mem_cons.mp hmem
            · simpa using hfresh
            · exact fun hspan => hspans other hmem (List.mem_append_left _ hspan)

theorem checkScopes_ok {limits : RulesLimits} {bound : List (List Bytes × GeneratedRedirect)} {nodes : List InlineNode}
    (h : (checkScopes limits bound nodes decoder).1 = true) {node : InlineNode} (hmem : node ∈ nodes)
    {redirect : GeneratedRedirect} (hbound : bound.lookup node.path = some redirect) :
    isRedirectScope node.path = true := by
  induction nodes generalizing decoder with
  | nil => cases hmem
  | cons first nodes ih =>
      rw [checkScopes] at h
      obtain rfl | hmem := List.mem_cons.mp hmem
      · rw [hbound] at h
        dsimp only at h
        split at h
        · assumption
        · cases h
      · split at h
        · split at h
          · exact ih h hmem
          · cases h
        · exact ih h hmem

/-- Every redirect is bound to the inline table of the tree that has its span, in a redirect array. -/
structure Binding (text : Bytes) (root : List (TomlKey × TomlNode)) (redirects : List GeneratedRedirect)
    (bound : List (List Bytes × GeneratedRedirect)) : Prop where
  all : bound.map Prod.snd = redirects
  spans : (redirects.map GeneratedRedirect.generatedTable).Nodup
  table : ∀ {path redirect}, (path, redirect) ∈ bound → ∃ source entries,
    InTree root path (.table source true entries) ∧ regionSpan text source = redirect.generatedTable
  scope : ∀ {path redirect}, (path, redirect) ∈ bound → isRedirectScope path = true

theorem binding_of_ok {limits : RulesLimits} {text : Bytes} {root : List (TomlKey × TomlNode)}
    {redirects : List GeneratedRedirect} {bound : List (List Bytes × GeneratedRedirect)}
    (h : bindGenerated limits text root redirects decoder = .ok bound) : Binding text root redirects bound := by
  unfold bindGenerated at h
  dsimp only at h
  split at h
  · cases h
  · split at h
    · cases h
    · next bound' hbind =>
      split at h
      · next after hscopes =>
        obtain rfl := Except.ok.inj h
        obtain ⟨more, hmore, hredirects, hnodes, hspans, -⟩ := bindRedirects_ok hbind
        rw [List.nil_append] at hmore
        subst hmore
        refine ⟨hredirects, hspans, fun hmem => ?_, fun {path redirect} hmem => ?_⟩
        · obtain ⟨node, hnode, hpath, hspan⟩ := hnodes _ hmem
          obtain ⟨source, entries, htree, hregion⟩ := inTree_of_mem_collect hnode
          rw [hpath] at htree
          exact ⟨source, entries, htree, hregion.symm.trans hspan⟩
        · obtain ⟨node, hnode, rfl, -⟩ := hnodes _ hmem
          cases hlookup : bound'.lookup node.path with
          | none => exact absurd (List.lookup_eq_none_iff.mp hlookup _ hmem) (by simp)
          | some other => exact checkScopes_ok (congrArg Prod.fst hscopes) hnode hlookup
      · cases h

theorem Binding.unique {text : Bytes} {root : List (TomlKey × TomlNode)} {redirects : List GeneratedRedirect}
    {bound : List (List Bytes × GeneratedRedirect)} (h : Binding text root redirects bound) (hroot : DistinctTree root)
    {path : List Bytes} {first second : GeneratedRedirect} (hfirst : (path, first) ∈ bound)
    (hsecond : (path, second) ∈ bound) : first = second := by
  obtain ⟨source, entries, htree, hspan⟩ := h.table hfirst
  obtain ⟨source', entries', htree', hspan'⟩ := h.table hsecond
  obtain ⟨rfl, -, -⟩ := TomlNode.table.inj (htree.unique hroot htree')
  have hmem : ∀ {redirect}, (path, redirect) ∈ bound → redirect ∈ redirects := by
    intro redirect hmem
    rw [← h.all]
    exact List.mem_map_of_mem hmem
  exact List.inj_on_of_nodup_map h.spans (hmem hfirst) (hmem hsecond) (hspan.symm.trans hspan')

/-! ## A document and its source -/

section Document
variable {toml : TomlParser} {decode : Bytes → Bytes} {source : SourceBuffer} {limits : RulesLimits}
  {document : RulesDocument}

/-- What a document went through: its tree, the tables that were bound in it, and a decoder without reports. -/
structure Parsed (toml : TomlParser) (source : SourceBuffer) (limits : RulesLimits) (document : RulesDocument)
    (root : List (TomlKey × TomlNode)) (bound : List (List Bytes × GeneratedRedirect)) (context : DecoderContext)
    (decoder : Decoder) : Prop where
  desugared : (desugarRulesSource source limits).ok = true
  tree : toml ((desugarRulesSource source limits).parserInput source) source.fileName = .ok root
  binding : Binding ((desugarRulesSource source limits).parserInput source) root
    (desugarRulesSource source limits).redirects bound
  bindings : context.bound = bound
  start : decoder.origins = []
  quiet : (decodeRoot context root decoder).2.2.diagnostics = []
  document : document = (decodeRoot context root decoder).2.1
  origins : (parseRulesDocument toml source limits).origins = (decodeRoot context root decoder).2.2.origins

theorem parsed_of_some (h : (parseRulesDocument toml source limits).document = some document) :
    ∃ root bound context decoder, Parsed toml source limits document root bound context decoder := by
  have heq := parseRulesDocument_eq toml source limits
  have hresult := h
  rw [heq] at hresult
  unfold decodeDesugaredRules at hresult heq
  split at hresult
  · cases hresult
  · next hok =>
    rw [if_neg hok] at heq
    dsimp only at hresult heq
    split at hresult
    · cases hresult
    · next root htree =>
      rw [htree] at heq
      dsimp only at heq
      split at hresult
      · cases hresult
      · next bound hbind =>
        rw [hbind] at heq
        dsimp only at heq
        split at hresult
        · cases hresult
        · next hdecoded =>
          rw [if_neg hdecoded] at heq
          simp only [Bool.or_eq_true, Bool.not_eq_true', List.isEmpty_eq_false_iff, not_or, Bool.not_eq_false,
            not_not] at hdecoded
          refine ⟨root, bound, _, _, by simpa using hok, htree, binding_of_ok hbind, ?_, ?_, hdecoded.2,
            (Option.some.inj hresult).symm, congrArg RulesCompileResult.origins heq⟩
          · rfl
          · rfl

/-- The rewrite of a redirect. -/
def rewriteOf (redirect : GeneratedRedirect) : ArrowRewrite :=
  ⟨redirect.id, redirect.originalRule, redirect.originalSource, redirect.originalArrow, redirect.originalTarget⟩

/-- What an arrow says: its number, and what the parser makes of its strings. -/
def ruleOf (decode : Bytes → Bytes) (bytes : Bytes) (rewrite : ArrowRewrite) : RedirectRule where
  id := rewrite.id
  source := decode (sliceSpan bytes rewrite.source)
  target := decode (sliceSpan bytes rewrite.target)

theorem mem_numberRewrites {id : Nat} {candidates : List ArrowCandidate} {rewrite : ArrowRewrite}
    (h : rewrite ∈ numberRewrites id candidates) :
    ∃ candidate ∈ candidates, rewrite.source = candidate.source ∧ rewrite.target = candidate.target := by
  induction candidates generalizing id with
  | nil => cases h
  | cons candidate candidates ih =>
      obtain rfl | h := List.mem_cons.mp h
      · exact ⟨candidate, List.mem_cons_self, rfl, rfl⟩
      · obtain ⟨found, hmem, hfound⟩ := ih h
        exact ⟨found, List.mem_cons_of_mem _ hmem, hfound⟩

theorem isBareKey_operands : IsBareKey (ascii "from") ∧ IsBareKey (ascii "to") :=
  ⟨⟨by decide, List.all_eq_true.mp (by decide)⟩, ⟨by decide, List.all_eq_true.mp (by decide)⟩⟩

theorem nodup_operands : [ascii "from", ascii "to"].Nodup := by decide

theorem desugared_redirect (h : (desugarRulesSource source limits).ok = true) {redirect : GeneratedRedirect}
    (hmem : redirect ∈ (desugarRulesSource source limits).redirects) :
    rewriteOf redirect ∈ numberRewrites 1 (scanArrowCandidates source limits).candidates ∧
      StringFields [(ascii "from", sliceSpan source.bytes redirect.originalSource),
        (ascii "to", sliceSpan source.bytes redirect.originalTarget)] ∧
      sliceSpan ((desugarRulesSource source limits).parserInput source) redirect.generatedTable =
        inlineText [(ascii "from", sliceSpan source.bytes redirect.originalSource),
          (ascii "to", sliceSpan source.bytes redirect.originalTarget)] ∧
      ∀ offset, (desugarRulesSource source limits).rewriteMap.mapPosition redirect.generatedTable.first ≠
        some ⟨offset, offset⟩ := by
  obtain ⟨-, hquiet, hemitted⟩ := desugarRulesSource_ok h
  rw [hemitted] at h hmem ⊢
  obtain ⟨cursor, htiled⟩ := scan_tiled source limits
  obtain ⟨-, -, -, horiginals, hredirects, -⟩ := emitDesugaredSource_mapsBack h
  have hrewrite : rewriteOf redirect ∈ numberRewrites 1 (scanArrowCandidates source limits).candidates := by
    rw [← horiginals]
    exact List.mem_map_of_mem hmem
  have hne : numberRewrites 1 (scanArrowCandidates source limits).candidates ≠ [] := List.ne_nil_of_mem hrewrite
  have hdesugared := desugared_of_ok hne h
  obtain ⟨candidate, hcandidate, hsource, htarget⟩ := mem_numberRewrites hrewrite
  have hrule := (htiled.pairwise.2 candidate hcandidate).1
  refine ⟨hrewrite, ?_, ?_, hdesugared.tableFirst hmem⟩
  · have hsource : redirect.originalSource = candidate.source := hsource
    have htarget : redirect.originalTarget = candidate.target := htarget
    intro field hfield
    simp only [List.mem_cons, List.not_mem_nil, or_false] at hfield
    obtain rfl | rfl := hfield
    · exact ⟨isBareKey_operands.1, hsource ▸ hrule.source.isStringToken⟩
    · exact ⟨isBareKey_operands.2, htarget ▸ hrule.target.isStringToken⟩
  · exact ((hredirects redirect hmem).2.2.2).trans (tableOf_eq _ _)

variable {root : List (TomlKey × TomlNode)} {bound : List (List Bytes × GeneratedRedirect)}

/-- **A rule that is let in is the arrow of its table.** -/
theorem boundRule_eq (htoml : FaithfulToml toml decode) (h : Parsed toml source limits document root bound context decoder)
    {path : List Bytes} {node : TomlNode} {generated : GeneratedRedirect} {rule : RedirectRule}
    (htree : InTree root path node) (hrule : BoundRule context path node generated rule) :
    generated ∈ (desugarRulesSource source limits).redirects ∧ (path, generated) ∈ bound ∧
      rule = ruleOf decode source.bytes (rewriteOf generated) ∧
      ∃ region entries, node = .table region true entries ∧
        regionSpan ((desugarRulesSource source limits).parserInput source) region = generated.generatedTable := by
  have hbound : (path, generated) ∈ bound := by
    rw [← h.bindings]
    exact mem_of_lookup hrule.bound
  have hgenerated : generated ∈ (desugarRulesSource source limits).redirects := by
    rw [← h.binding.all]
    exact List.mem_map_of_mem hbound
  obtain ⟨region, entries, htable, hspan⟩ := h.binding.table hbound
  obtain rfl := htree.unique (htoml.distinct h.tree) htable
  obtain ⟨-, hfields, htext, -⟩ := desugared_redirect h.desugared hgenerated
  rw [← hspan] at htext
  obtain ⟨(hlength : entries.length = 2), hvalues⟩ := htoml.inline h.tree htree htext hfields nodup_operands
  obtain ⟨fromRegion, hfrom⟩ := hvalues _ List.mem_cons_self
  obtain ⟨toRegion, hto⟩ := hvalues _ (List.mem_cons_of_mem _ List.mem_cons_self)
  obtain ⟨found, htable', hoperands⟩ := hrule.operands
  obtain rfl : entries = found := Option.some.inj htable'
  have hgot : generatedOperands entries = some (decode (sliceSpan source.bytes generated.originalSource),
      decode (sliceSpan source.bytes generated.originalTarget)) := by
    unfold generatedOperands
    rw [if_neg (not_not_intro hlength), hfrom, hto]
    rfl
  obtain ⟨hsource, htarget⟩ := Prod.mk.inj (Option.some.inj (hgot.symm.trans hoperands))
  refine ⟨hgenerated, hbound, ?_, region, entries, rfl, hspan⟩
  obtain ⟨id, source', target'⟩ := rule
  dsimp only at hsource htarget
  rw [← hsource, ← htarget, show id = generated.id from hrule.id]
  rfl

theorem nodup_redirects (h : document.ruleIds.Nodup) : document.redirects.Nodup := by
  refine List.Nodup.of_map RedirectRule.id (List.Nodup.sublist ?_ h)
  unfold RulesDocument.redirects RulesDocument.ruleIds
  induction document.apps with
  | nil => exact .slnil
  | cons app apps ih =>
      rw [List.flatMap_cons, List.flatMap_cons, List.map_append]
      exact (List.sublist_append_right _ _).append ih

/-- **A rule is what its arrow says, and an arrow is one rule.** The redirects of a document are the arrows of its source
with what the parser makes of their strings; the ids of its rules are all different, and they are those of the origins,
where each arrow is at its places. Whatever stands in a redirect array is a table the desugarer wrote. -/
theorem parseRulesDocument_identity (htoml : FaithfulToml toml decode)
    (h : (parseRulesDocument toml source limits).document = some document) :
    let rewrites := numberRewrites 1 (scanArrowCandidates source limits).candidates
    let origins := (parseRulesDocument toml source limits).origins
    let desugared := desugarRulesSource source limits
    document.redirects.Perm (rewrites.map (ruleOf decode source.bytes)) ∧
      document.ruleIds.Nodup ∧ origins.map Prod.fst = document.ruleIds ∧
      (∀ rewrite ∈ rewrites, OriginMap.find origins rewrite.id =
        some ⟨rewrite.rule, rewrite.source, rewrite.arrow, rewrite.target, true⟩) ∧
      ∀ root path node, toml (desugared.parserInput source) source.fileName = .ok root → InTree root path node →
        isRedirectScope path = true →
          ∃ redirect ∈ desugared.redirects, ∃ region entries, node = .table region true entries ∧
            regionSpan (desugared.parserInput source) region = redirect.generatedTable ∧
            ∀ offset, desugared.rewriteMap.mapPosition (regionSpan (desugared.parserInput source) region).first ≠
              some ⟨offset, offset⟩ := by
  obtain ⟨root, bound, context, decoder, hparsed⟩ := parsed_of_some h
  have hroot := htoml.distinct hparsed.tree
  obtain ⟨added, hrecorded, hids, hredirects⟩ := recorded_root hroot hparsed.quiet
  rw [← hparsed.document] at hids hredirects
  have horigins : (parseRulesDocument toml source limits).origins = added := by
    rw [hparsed.origins, hrecorded.origins, hparsed.start, List.nil_append]
  have hnodup : document.ruleIds.Nodup := by
    rw [← hids]
    have hafter := hrecorded.nodup (by rw [hparsed.start]; exact List.nodup_nil)
    rwa [hrecorded.origins, hparsed.start, List.nil_append] at hafter
  have horiginals : (desugarRulesSource source limits).redirects.map rewriteOf =
      numberRewrites 1 (scanArrowCandidates source limits).candidates := by
    have hok := hparsed.desugared
    have hemitted := (desugarRulesSource_ok hok).2.2
    rw [hemitted] at hok ⊢
    exact (emitDesugaredSource_mapsBack hok).2.2.2.1
  -- every arrow is a rule, at the path of its table
  have hplaced : ∀ rewrite ∈ numberRewrites 1 (scanArrowCandidates source limits).candidates,
      ruleOf decode source.bytes rewrite ∈ document.redirects ∧
        (rewrite.id, ⟨rewrite.rule, rewrite.source, rewrite.arrow, rewrite.target, true⟩) ∈ added := by
    intro rewrite hrewrite
    rw [← horiginals] at hrewrite
    obtain ⟨generated, hgenerated, rfl⟩ := List.mem_map.mp hrewrite
    rw [← hparsed.binding.all] at hgenerated
    obtain ⟨⟨path, generated⟩, hbound, rfl⟩ := List.mem_map.mp hgenerated
    obtain ⟨region, entries, htree, -⟩ := hparsed.binding.table hbound
    obtain ⟨found, rule, hrule, hmatched, horigin⟩ :=
      hredirects.place path _ ⟨htree, hparsed.binding.scope hbound⟩
    obtain ⟨-, hfound, rfl, -⟩ := boundRule_eq htoml hparsed htree hmatched
    obtain rfl := hparsed.binding.unique hroot hbound hfound
    exact ⟨hrule, horigin⟩
  refine ⟨?_, hnodup, horigins ▸ hids, fun rewrite hrewrite => ?_, fun other path node hother htree hscope => ?_⟩
  · refine (List.perm_ext_iff_of_nodup (nodup_redirects hnodup) ?_).mpr fun rule => ⟨fun hrule => ?_, fun hrule => ?_⟩
    · refine List.Nodup.of_map RedirectRule.id ?_
      rw [List.map_map, show RedirectRule.id ∘ ruleOf decode source.bytes = ArrowRewrite.id from rfl, numberRewrites_ids]
      exact List.nodup_range'
    · obtain ⟨path, node, generated, ⟨htree, -⟩, hmatched, -⟩ := hredirects.rule rule hrule
      obtain ⟨hgenerated, -, rfl, -⟩ := boundRule_eq htoml hparsed htree hmatched
      exact List.mem_map_of_mem (desugared_redirect hparsed.desugared hgenerated).1
    · obtain ⟨rewrite, hrewrite, rfl⟩ := List.mem_map.mp hrule
      exact (hplaced rewrite hrewrite).1
  · rw [horigins]
    refine lookup_of_mem (hplaced rewrite hrewrite).2 fun origin horigin => ?_
    have hsame := List.inj_on_of_nodup_map (hids ▸ hnodup) horigin (hplaced rewrite hrewrite).2 rfl
    exact (Prod.mk.inj hsame).2
  · obtain rfl := Except.ok.inj (hother.symm.trans hparsed.tree)
    obtain ⟨generated, rule, -, hmatched, -⟩ := hredirects.place path node ⟨htree, hscope⟩
    obtain ⟨hgenerated, -, -, region, entries, hnode, hspan⟩ := boundRule_eq htoml hparsed htree hmatched
    refine ⟨generated, hgenerated, region, entries, hnode, hspan, ?_⟩
    rw [hspan]
    exact (desugared_redirect hparsed.desugared hgenerated).2.2.2

end Document

/-! ### A text with a rule of each kind -/

def oneOfEach : Sample := { deny := ["C"], redirects := [("A", "B")] }

/-- What a parser makes of a string without escapes. -/
def unquoted (token : Bytes) : Bytes := (token.drop 1).dropLast

theorem Sample.tables_denyNodes {P : SourceRegion → Bool → List (TomlKey × TomlNode) → Prop} {paths : List String}
    {column : Nat} : ∀ item ∈ denyNodes paths column, item.Tables P := by
  induction paths generalizing column with
  | nil => exact nofun
  | cons path paths ih => exact List.forall_mem_cons.mpr ⟨TomlNode.tables_string, ih⟩

theorem oneOfEach_tables {P : SourceRegion → Bool → List (TomlKey × TomlNode) → Prop}
    (hplain : ∀ source entries, DistinctKeys entries → P source false entries)
    (htable : P (Sample.region 4 13 37) true
      [(Sample.key "from" 4 15, .string (Sample.region 4 22 25) (ascii "A")),
        (Sample.key "to" 4 27, .string (Sample.region 4 32 35) (ascii "B"))]) :
    ∀ entry ∈ oneOfEach.tree, entry.2.Tables P := by
  have hredirect : ∀ item ∈ Sample.redirectNodes [("A", "B")] 13, item.Tables P := by
    intro item hitem
    obtain rfl := List.mem_singleton.mp hitem
    refine TomlNode.tables_table htable fun entry hentry => ?_
    simp only [List.mem_cons, List.not_mem_nil, or_false] at hentry
    obtain rfl | rfl := hentry <;> exact TomlNode.tables_string
  intro entry hentry
  simp only [Sample.tree, List.mem_cons, List.not_mem_nil, or_false] at hentry
  obtain rfl | rfl := hentry
  · refine TomlNode.tables_table (hplain _ _ (by decide)) fun entry hentry => ?_
    obtain rfl := List.mem_singleton.mp hentry
    refine TomlNode.tables_table (hplain _ _ (by decide)) fun entry hentry => ?_
    simp only [List.mem_cons, List.not_mem_nil, or_false] at hentry
    obtain rfl | rfl := hentry
    · exact TomlNode.tables_array Sample.tables_denyNodes
    · exact TomlNode.tables_array hredirect
  · exact TomlNode.tables_integer

theorem oneOfEach_faithful : FaithfulToml oneOfEach.toml unquoted := by
  have hroot : ∀ {text file root}, oneOfEach.toml text file = .ok root →
      text = oneOfEach.generatedText ∧ root = oneOfEach.tree := by
    intro text file root h
    unfold Sample.toml at h
    split at h
    · next htext => exact ⟨htext, (Except.ok.inj h).symm⟩
    · cases h
  constructor
  · intro text file root h
    obtain ⟨-, rfl⟩ := hroot h
    refine ⟨by decide, fun key child hmem => ?_⟩
    exact oneOfEach_tables (fun _ _ hkeys => hkeys) (by decide) _ hmem
  · intro text file root path source entries fields h htree hslice hfields hnodup
    obtain ⟨rfl, rfl⟩ := hroot h
    obtain ⟨key, child, rest, hmem, -, hat⟩ := htree
    let P : SourceRegion → Bool → List (TomlKey × TomlNode) → Prop := fun source isInline entries =>
      isInline = true → sliceSpan oneOfEach.generatedText (regionSpan oneOfEach.generatedText source) =
        inlineText fields → entries.length = fields.length ∧
          ∀ field ∈ fields, ∃ region, tomlGet entries field.1 = some (.string region (unquoted field.2))
    refine oneOfEach_tables (P := P) (fun _ _ _ => nofun) (fun _ hslice => ?_) _ hmem _ _ _ _ hat rfl hslice
    have htext : sliceSpan oneOfEach.generatedText (regionSpan oneOfEach.generatedText (Sample.region 4 13 37)) =
        inlineText [(ascii "from", Sample.quoted "A"), (ascii "to", Sample.quoted "B")] := by decide +kernel
    have hstrings : StringFields [(ascii "from", Sample.quoted "A"), (ascii "to", Sample.quoted "B")] := by
      intro field hfield
      simp only [List.mem_cons, List.not_mem_nil, or_false] at hfield
      obtain rfl | rfl := hfield
      · exact ⟨isBareKey_operands.1, doubleQuote, _, rfl, by decide, by decide⟩
      · exact ⟨isBareKey_operands.2, doubleQuote, _, rfl, by decide, by decide⟩
    obtain rfl := inlineText_injective hfields hstrings (hslice.symm.trans htext)
    refine ⟨rfl, fun field hfield => ?_⟩
    simp only [List.mem_cons, List.not_mem_nil, or_false] at hfield
    obtain rfl | rfl := hfield
    · exact ⟨Sample.region 4 22 25, rfl⟩
    · exact ⟨Sample.region 4 32 35, rfl⟩

theorem parseRulesDocument_identity_oneOfEach :
    ∃ document, (parseRulesDocument oneOfEach.toml oneOfEach.source {}).document = some document ∧
      document.redirects.Perm [⟨1, ascii "A", ascii "B"⟩] ∧ document.ruleIds.Nodup := by
  have hsome : (parseRulesDocument oneOfEach.toml oneOfEach.source {}).document.isSome = true := by decide +kernel
  obtain ⟨document, hdocument⟩ := Option.isSome_iff_exists.mp hsome
  obtain ⟨hperm, hnodup, -⟩ := parseRulesDocument_identity oneOfEach_faithful hdocument
  have hrules : (numberRewrites 1 (scanArrowCandidates oneOfEach.source {}).candidates).map
      (ruleOf unquoted oneOfEach.source.bytes) = [⟨1, ascii "A", ascii "B"⟩] := by decide +kernel
  exact ⟨document, hdocument, hrules ▸ hperm, hnodup⟩

end PathGuard.Rules
