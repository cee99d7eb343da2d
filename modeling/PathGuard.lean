import PathGuard.Lib.Run
import PathGuard.Lib.Progress
import PathGuard.Lib.Sort
import PathGuard.Lib.Bytes
import PathGuard.Lib.LittleEndian
import PathGuard.Lib.Layout
import PathGuard.Lib.Components
import PathGuard.Lib.Cover
import PathGuard.Lib.Cycle
import PathGuard.Lib.MountNamespace
import PathGuard.Lib.Checksum
import PathGuard.Lib.Directory
import PathGuard.Lib.Sha256
import PathGuard.Lib.Text
import PathGuard.Lib.Search
import PathGuard.Lib.Stream
import PathGuard.Lib.Checked
import PathGuard.Lib.OrderedMap
import PathGuard.Lib.Delimited
import PathGuard.Lib.Sql
import PathGuard.Lib.SqlConjunction
import PathGuard.Lib.Fields
import PathGuard.Lib.Decimal
import PathGuard.Lib.Octal
import PathGuard.Lib.MountTable
import PathGuard.Lib.Unmount
import PathGuard.Lib.PathWalk
import PathGuard.Lib.Utf8
import PathGuard.Lib.Json
import PathGuard.Core.MountTransaction
import PathGuard.Core.MountBackend
import PathGuard.Core.Policy
import PathGuard.Core.PolicyFormat
import PathGuard.Core.Path
import PathGuard.Core.Validation
import PathGuard.Core.ValidationSpec
import PathGuard.Core.Binary
import PathGuard.Core.EncoderSpec
import PathGuard.Core.RoundTrip
import PathGuard.Core.Corruption
import PathGuard.Core.PlanGeneration
import PathGuard.Core.DecodeSafety
import PathGuard.Core.DecodedRows
import PathGuard.Core.ContentBytes
import PathGuard.Core.Topology
import PathGuard.Core.TopologySpec
import PathGuard.Rules.Contract
import PathGuard.Rules.Document
import PathGuard.Rules.Source
import PathGuard.Rules.ArrowScanner
import PathGuard.Rules.Desugarer
import PathGuard.Rules.Compiler
import PathGuard.Rules.CompilerSpec
import PathGuard.Rules.Lexing
import PathGuard.Rules.ScannerSpec
import PathGuard.Rules.DesugarerSpec
import PathGuard.Rules.RewriteMap
import PathGuard.Rules.Desugaring
import PathGuard.Rules.FormatLine
import PathGuard.Rules.Stability
import PathGuard.Rules.Semantic
import PathGuard.Rules.SemanticSpec
import PathGuard.Rules.Acceptance
import PathGuard.Rules.PathForm
import PathGuard.Rules.DenyFolding
import PathGuard.Rules.Redundancy
import PathGuard.Rules.Conflicts
import PathGuard.Rules.CompiledPolicy
import PathGuard.Rules.TomlTree
import PathGuard.Rules.RuleIdentity
import PathGuard.Rules.Admission
import PathGuard.Rules.Publication
import PathGuard.Rules.OrderIndependence
import PathGuard.Rules.RedirectCycles
import PathGuard.Rules.ExpandedLimit
import PathGuard.Rules.StringLexer
import PathGuard.Rules.Tools
import PathGuard.Rules.VisualSkeleton
import PathGuard.Rules.Lint
import PathGuard.Rules.EmptyPlan
import PathGuard.Rules.Explain
import PathGuard.Rules.NameGrammar
import PathGuard.Rules.FormatGrammar
import PathGuard.Rules.PositionSearch
import PathGuard.Daemon.Publisher
import PathGuard.Daemon.Status
import PathGuard.Daemon.Reconciler
import PathGuard.Daemon.ReconcilerInv
import PathGuard.Daemon.Convergence
import PathGuard.Daemon.SaveRules
import PathGuard.Daemon.SaveRace
import PathGuard.Daemon.StatusJson
import PathGuard.Daemon.EventLoop
import PathGuard.Daemon.Quiescence
import PathGuard.Zygisk.Transaction
import PathGuard.Zygisk.WorkerInv
import PathGuard.Zygisk.Moves
import PathGuard.Zygisk.TransactionInv
import PathGuard.Zygisk.Lease
import PathGuard.Zygisk.Rollback
import PathGuard.Zygisk.OwnerDeath
import PathGuard.Zygisk.MountedBackend
import PathGuard.Zygisk.ProcessPlan
import PathGuard.Zygisk.BackendLock
import PathGuard.Zygisk.Enforcement
import PathGuard.Zygisk.PolicyReader
import PathGuard.Zygisk.PackageSearch
import PathGuard.Zygisk.RuntimePath
import PathGuard.Zygisk.PolicyReaderSpec
import PathGuard.Zygisk.CompiledPlan
import PathGuard.Zygisk.PathMeaning
import PathGuard.Zygisk.ProviderRules
import PathGuard.Zygisk.ProviderRulesSpec
import PathGuard.Zygisk.Enforceable
import PathGuard.Zygisk.PlanArena
import PathGuard.Zygisk.PlanWire
import PathGuard.Zygisk.Session
import PathGuard.Zygisk.ResultRecord
import PathGuard.Zygisk.ProviderPathMapper
import PathGuard.Zygisk.CallerUid
import PathGuard.Zygisk.MediaQueryFilter
import PathGuard.Zygisk.JoinedLists
import PathGuard.Zygisk.Placeholders
import PathGuard.Zygisk.PathHooks
import PathGuard.Zygisk.HookInstall
import PathGuard.Zygisk.MediaQueryHook
import PathGuard.Zygisk.ModuleEntry
import PathGuard.Native.MountInfoSnapshot
import PathGuard.Native.SnapshotReader
import PathGuard.Native.MountInfoText
import PathGuard.Native.MountReaders
import PathGuard.Native.MountExecutor
import PathGuard.Native.MountLookup
import PathGuard.Native.MountVerify
import PathGuard.Native.MountRollback
import PathGuard.Native.DirectoryResolver
import PathGuard.Native.StillTree
import PathGuard.Zygisk.PinLoop
