import PathGuard.Lib.Bytes

/-!
# The contract of the rules compiler

`rules/include/pathguard/rules_contract.h` and `rules/diagnostic.h`: the limits, the codes and the diagnostics.
The statistics, which nothing reads, are left out.
-/

namespace PathGuard.Rules

structure RulesLimits where
  maxSourceBytes : Nat := 1024 * 1024
  maxContainerDepth : Nat := 128
  maxTokensOrNodes : Nat := 65536
  maxApps : Nat := 1024
  maxRulesPerApp : Nat := 4096
  maxExpandedRules : Nat := 8192
  maxPathBytes : Nat := 4095
  maxPathComponents : Nat := 256
  maxStringTokenBytes : Nat := 4096
  maxRewrites : Nat := 4096
  maxRewriteSegments : Nat := 24577
  maxDiagnostics : Nat := 64
  maxRelatedSpans : Nat := 8
  maxGeneratedBytes : Nat := 2 * 1024 * 1024

def kArrowContext : String := "PG-ARROW-CONTEXT"
def kArrowOperand : String := "PG-ARROW-OPERAND"
def kArrowChained : String := "PG-ARROW-CHAINED"
def kArrowMissingComma : String := "PG-ARROW-MISSING-COMMA"
def kArrowCommentInside : String := "PG-ARROW-COMMENT-INSIDE"
def kArrowStringBoundary : String := "PG-ARROW-STRING-BOUNDARY"
def kRuleArrowScope : String := "PG-RULE-ARROW-SCOPE"
def kRedirectSyntax : String := "PG-REDIRECT-SYNTAX"
def kDesugarInternal : String := "PG-DESUGAR-INTERNAL"
def kResourceLimit : String := "PG-RESOURCE-LIMIT"
def kFormatMissing : String := "PG-FORMAT-MISSING"
def kFormatInvalid : String := "PG-FORMAT-INVALID"
def kFormatUnsupported : String := "PG-FORMAT-UNSUPPORTED"
def kDiagnosticsOmitted : String := "PG-DIAGNOSTICS-OMITTED"
def kTomlParse : String := "PG-TOML-PARSE"
def kTypeMismatch : String := "PG-RULE-TYPE"
def kUnknownField : String := "PG-RULE-UNKNOWN-FIELD"
def kInvalidValue : String := "PG-RULE-INVALID-VALUE"
def kPathInvalid : String := "PG-PATH-INVALID"
def kRuleRedundant : String := "PG-RULE-REDUNDANT"
def kRuleConflict : String := "PG-RULE-CONFLICT"
def kRedirectCycle : String := "PG-REDIRECT-CYCLE"
def kPolicyEncode : String := "PG-POLICY-ENCODE"
def kCompilerInternal : String := "PG-COMPILER-INTERNAL"

abbrev RuleId := Nat

/-- A range of bytes of the source; sources are shorter than 2^32 bytes. -/
structure ByteSpan where
  first : Nat := 0
  last : Nat := 0
  deriving DecidableEq, Repr

def ByteSpan.size (span : ByteSpan) : Nat := span.last - span.first

inductive DiagnosticSeverity
  | error
  | warning
  deriving DecidableEq, Repr

inductive DiagnosticPhase
  | source
  | lex
  | parse
  | decode
  | semantic
  | admission
  | publish
  | internal
  deriving DecidableEq, Repr

structure RelatedSpan where
  span : ByteSpan
  messageKey : String
  deriving DecidableEq, Repr

structure Diagnostic where
  code : String := ""
  messageKey : String := ""
  primary : ByteSpan := {}
  omitted : Bool := false
  severity : DiagnosticSeverity := .error
  phase : DiagnosticPhase := .lex
  related : List RelatedSpan := []
  fieldPath : Bytes := []
  deriving DecidableEq, Repr

def hasErrors (diagnostics : List Diagnostic) : Bool := diagnostics.any fun diagnostic => diagnostic.severity == .error

end PathGuard.Rules
