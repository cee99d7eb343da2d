import PathGuard.Rules.Contract

/-!
# Rules documents

`rules/include/pathguard/rules/document.h`: what the parser hands to the semantic phase.
-/

namespace PathGuard.Rules

structure CompatibilityRules where
  allowLegacyMount : Bool := false
  deriving DecidableEq, Repr

structure DenyRule where
  id : RuleId := 0
  path : Bytes
  deriving DecidableEq, Repr

structure RedirectRule where
  id : RuleId := 0
  source : Bytes
  target : Bytes
  deriving DecidableEq, Repr

structure AppRules where
  package : Bytes
  enabled : Bool := true
  users : List Int := [0]
  processes : List Bytes := []
  filePicker : Bool := false
  deny : List DenyRule := []
  redirects : List RedirectRule := []
  deriving DecidableEq, Repr

structure RulesDocument where
  format : Nat := 1
  compatibility : CompatibilityRules := {}
  apps : List AppRules := []
  deriving DecidableEq, Repr

structure RuleOrigin where
  primary : ByteSpan
  source : ByteSpan := {}
  arrow : ByteSpan := {}
  target : ByteSpan := {}
  hasRedirectOperands : Bool := false
  deriving DecidableEq, Repr

/-- `OriginMap`. -/
abbrev OriginMap := List (RuleId × RuleOrigin)

/-- `OriginMap::Find`. -/
def OriginMap.find (origins : OriginMap) (id : RuleId) : Option RuleOrigin := origins.lookup id

/-- `OriginMap::Add`: nothing when the id is taken. -/
def OriginMap.add (origins : OriginMap) (id : RuleId) (origin : RuleOrigin) : Option OriginMap :=
  match OriginMap.find origins id with
  | some _ => none
  | none => some (origins ++ [(id, origin)])

/-- `RulesCompileResult`: the outcome of `ParseRulesDocument`. -/
structure RulesCompileResult where
  document : Option RulesDocument := none
  origins : OriginMap := []
  diagnostics : List Diagnostic := []

end PathGuard.Rules
