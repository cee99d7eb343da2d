import PathGuard.Lib.Decimal
import PathGuard.Lib.LittleEndian
import PathGuard.Lib.Sort
import PathGuard.Core.Path
import PathGuard.Core.Policy

/-!
# Checking and normalising one app

`core/src/validation.cpp`: `ValidatePolicy` normalises the paths of an app, rejects what cannot be executed and
puts users, processes, mounts and events into their canonical order.
-/

namespace PathGuard

def containsPlaceholder (path : Bytes) : Bool := path.contains openBrace || path.contains closeBrace

def normalizeBacking (input package : Bytes) : Option Bytes :=
  (expandPathPlaceholders input package).bind normalizeLogicalPath

def normalizeVisible (input : Bytes) : Option Bytes :=
  if containsPlaceholder input then none else normalizeLogicalPath input

/-- `std::from_chars` into an `unsigned` that must take the whole string. -/
def fromCharsUnsigned (text : Bytes) : Option Nat :=
  if text.isEmpty || !text.all isDigit then none
  else if decimalValue text < 2 ^ 32 then some (decimalValue text)
  else none

def normalizeUsers (users : List Bytes) : Option (List Bytes) :=
  if users = [ascii "*"] then some users
  else if users.all fun user => (fromCharsUnsigned user).isSome then
    some (sortOn (fun user => (fromCharsUnsigned user).getD 0) users)
  else none

def mountStage : MountAction → Nat
  | .isolateRoot => 0
  | .restore => 1
  | .redirect => 2
  | .deny => 3

/-- The depth of a normalised visible path. -/
def visibleDepth (path : Bytes) : UInt16 := UInt16.ofNat (1 + path.count slash)

/-- The body of the first loop of `ValidatePolicy` for a rule that is not an isolate rule; `seen` holds the
visible paths of the rules before it. -/
def normalizeMount (package : Bytes) (seen : List Bytes) (rule : LogicalMountRule) :
    Except ParseError LogicalMountRule :=
  match normalizeVisible rule.visiblePath with
  | none => .error ⟨rule.line, "invalid visible path"⟩
  | some visible =>
      let normalized := { rule with visiblePath := visible, depth := visibleDepth visible }
      if seen.contains visible then .error ⟨rule.line, "conflicting synchronous action"⟩
      else
        match rule.action with
        | .redirect =>
            match normalizeBacking rule.backingPath package with
            | none => .error ⟨rule.line, "invalid redirect backing path"⟩
            | some backing => .ok { normalized with backingPath := backing }
        | .restore => .ok { normalized with backingPath := visible }
        | .deny => .ok { normalized with backingPath := [] }
        | .isolateRoot => .ok normalized

/-- The first loop of `ValidatePolicy`: the normalised rules and the isolate rule, if there is one. -/
def normalizeMounts (package : Bytes) :
    List LogicalMountRule → Option LogicalMountRule → List Bytes →
      Except ParseError (List LogicalMountRule × Option LogicalMountRule)
  | [], isolate, _ => .ok ([], isolate)
  | rule :: rules, isolate, seen =>
      if rule.action = .isolateRoot then
        if isolate.isSome then .error ⟨rule.line, "multiple isolate rules"⟩
        else
          match normalizeBacking rule.backingPath package with
          | none => .error ⟨rule.line, "invalid isolate backing path"⟩
          | some backing => do
              let rule := { rule with visiblePath := [], backingPath := backing, depth := 0 }
              let (rules, isolate) ← normalizeMounts package rules (some rule) seen
              return (rule :: rules, isolate)
      else do
        let rule ← normalizeMount package seen rule
        let (rules, isolate) ← normalizeMounts package rules isolate (seen ++ [rule.visiblePath])
        return (rule :: rules, isolate)

/-- The second loop of `ValidatePolicy`. -/
def checkIsolate (isolate : Option LogicalMountRule) : List LogicalMountRule → Except ParseError Unit
  | [] => .ok ()
  | rule :: rules =>
      match isolate with
      | none =>
          if rule.action = .restore then .error ⟨rule.line, "allow requires isolate"⟩
          else checkIsolate none rules
      | some root =>
          if rule.action ≠ .isolateRoot &&
              (isPathOrDescendant rule.visiblePath root.backingPath ||
                isPathOrDescendant root.backingPath rule.visiblePath) then
            .error ⟨rule.line, "visible path conflicts with isolate backing path"⟩
          else checkIsolate (some root) rules

def checkProvider (policy : AppPolicy) : Except ParseError Unit :=
  if policy.providerCompat = .virtualize then
    if policy.users = [ascii "*"] then .error ⟨0, "provider virtualization requires explicit users"⟩
    else if !policy.mounts.any fun rule => rule.action == .redirect then
      .error ⟨0, "provider virtualization requires redirect rules"⟩
    else .ok ()
  else .ok ()

/-- The key under which the third loop remembers an event. -/
def eventKey (rule : EventRule) : Bytes :=
  [rule.action.code] ++ rule.sourcePath ++ [0] ++ rule.targetPath ++ leBytes 4 rule.options.toNat

def normalizeEvent (package : Bytes) (rule : EventRule) : Except ParseError EventRule :=
  match normalizeVisible rule.sourcePath with
  | none => .error ⟨rule.line, "invalid event source path"⟩
  | some source =>
      match rule.action with
      | .kExport =>
          match normalizeBacking rule.targetPath package with
          | none => .error ⟨rule.line, "invalid export target path"⟩
          | some target =>
              if isPathOrDescendant target source then .error ⟨rule.line, "invalid export target path"⟩
              else if kEventModeTrash < (rule.options &&& kEventModeMask) ||
                  rule.options &&& ~~~(kEventModeMask ||| kEventMediaScan) != 0 then
                .error ⟨rule.line, "invalid export options"⟩
              else .ok { rule with sourcePath := source, targetPath := target }
      | .kObserve => .ok { rule with sourcePath := source, targetPath := [], options := 0 }

/-- The third loop of `ValidatePolicy`; `seen` holds the keys of the events before. -/
def normalizeEvents (package : Bytes) : List EventRule → List Bytes → Except ParseError (List EventRule)
  | [], _ => .ok []
  | rule :: rules, seen => do
      let rule ← normalizeEvent package rule
      if seen.contains (eventKey rule) then .error ⟨rule.line, "duplicate event rule"⟩
      else
        let rules ← normalizeEvents package rules (seen ++ [eventKey rule])
        return rule :: rules

def mountSortKey (rule : LogicalMountRule) : Nat ×ₗ Nat ×ₗ Bytes ×ₗ Bytes ×ₗ Nat :=
  toLex (mountStage rule.action, toLex (rule.depth.toNat, toLex (rule.visiblePath,
    toLex (rule.backingPath, rule.flags.toNat))))

def eventSortKey (rule : EventRule) : UInt8 ×ₗ Bytes ×ₗ Bytes ×ₗ Nat :=
  toLex (rule.action.code, toLex (rule.sourcePath, toLex (rule.targetPath, rule.options.toNat)))

/-- `ValidatePolicy`: the canonical form of an app. -/
def validatePolicy (policy : AppPolicy) : Except ParseError AppPolicy :=
  if policy.package.isEmpty then .error {}
  else
    match normalizeUsers policy.users with
    | none => .error ⟨0, "invalid Android user list"⟩
    | some users => do
        let (mounts, isolate) ← normalizeMounts policy.package policy.mounts none []
        checkIsolate isolate mounts
        checkProvider { policy with users := users, mounts := mounts }
        let events ← normalizeEvents policy.package policy.events []
        return { policy with
          users := users
          processes := sortOn id policy.processes
          mounts := sortOn mountSortKey mounts
          events := sortOn eventSortKey events }

end PathGuard
