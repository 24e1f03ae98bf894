import GovFuzz.EventLog.Reader
import GovFuzz.AdaRuntime.Probe
import GovFuzz.EventLog.RoundTrip
import GovFuzz.EventLog.Testcase
import GovFuzz.Corpus.Manager
import GovFuzz.Lib.Pipe
import GovFuzz.CRuntime.Driver
import GovFuzz.ForkServer.Framing
import GovFuzz.Iiop.IdlRoundTrip
import GovFuzz.Corpus.OriginalLines
import GovFuzz.Iiop.SubReader
import GovFuzz.Iiop.Fragmentation
import GovFuzz.AdaParser.StatementBoundaries
import GovFuzz.AdaParser.HandlersExact
import GovFuzz.AdaParser.Names
import GovFuzz.CRuntime.Selection
import GovFuzz.AdaRuntime.Decode
import GovFuzz.FuzzEngine.OperationEdits
import GovFuzz.FuzzEngine.BinaryShapes
import GovFuzz.FuzzEngine.JsonShapes
import GovFuzz.FuzzEngine.CsvShapes
import GovFuzz.FuzzEngine.MultipartShapes
import GovFuzz.FuzzEngine.SectionShapes
import GovFuzz.FuzzEngine.RecursiveShapes
import GovFuzz.FuzzEngine.Scheduler
import GovFuzz.FuzzEngine.Coverage
import GovFuzz.Iiop.Reservations
import GovFuzz.LicensePolicy.Spdx
import GovFuzz.IdlParser.ExpressionExact
import GovFuzz.IdlParser.LineMap
import GovFuzz.FuzzEngine.GrammarDerivation
import GovFuzz.Corpus.Limits
import GovFuzz.Corpus.Triage
import GovFuzz.Corpus.Signatures
import GovFuzz.Multicore.Sync
import GovFuzz.Sbom.Pinned
import GovFuzz.Sbom.DiscoveryOrder
import GovFuzz.Runtrace.Survival
import GovFuzz.Runtrace.Capsule
import GovFuzz.Runtrace.Replay
import GovFuzz.Runtrace.SinkTaint
import GovFuzz.Cli.CrashDedup
import GovFuzz.Cli.Seeds
import GovFuzz.Cli.LogCursor
import GovFuzz.ForkServer.FileReplay
import GovFuzz.ContinuousDaemon.JobIdentity
import GovFuzz.BuildProbe.Intercepted
import GovFuzz.BinaryAnalysis.Scan
import GovFuzz.BinaryAnalysis.BuildInfo
import GovFuzz.FuzzEngine.PersistentQueue
import GovFuzz.ReplayMin.TypedValues
import GovFuzz.Cli.Colorize
import GovFuzz.Cli.HeadTail
import GovFuzz.Cli.LengthControl
import GovFuzz.Runtrace.SysvTable
import GovFuzz.IdlParser.Literal
import GovFuzz.IdlParser.MacroExpansion
import GovFuzz.IdlParser.ConstExpression
import GovFuzz.IdlParser.ConstFolding
import GovFuzz.IdlParser.ConstScopes
import GovFuzz.IdlParser.TypeReference
import GovFuzz.AdaParser.Lexer
import GovFuzz.AdaParser.LexicalElements
import GovFuzz.AdaParser.LexerPositions
import GovFuzz.AdaParser.LexerLiterals
import GovFuzz.Governance.Vex
import GovFuzz.RustRuntime.Cursor
import GovFuzz.CRuntime.CompareLog
import GovFuzz.CRuntime.TokenLog
import GovFuzz.Lib.CommandLine
import GovFuzz.Multicore.FuzzArgs
import GovFuzz.Multicore.WorkerArgs
import GovFuzz.Multicore.WorkerSettings
import GovFuzz.Lib.GuardedWalk
import GovFuzz.FuzzEngine.CmpLogSplices
import GovFuzz.FuzzEngine.Dictionary
import GovFuzz.Corpus.BridgeFormats
import GovFuzz.Cli.CoverageMinimal
import GovFuzz.TypeModel.Registry
import GovFuzz.TypeModel.Memoised
import GovFuzz.TypeModel.Words
import GovFuzz.TypeModel.Declarator
import GovFuzz.TypeModel.Spelled
import GovFuzz.TypeModel.Normalized
import GovFuzz.TypeModel.Denotation
import GovFuzz.Auto.ClosureMemo
import GovFuzz.Auto.WorkState
import GovFuzz.Auto.MemoRuns
import GovFuzz.Auto.MemoEvidence
import GovFuzz.Auto.GprScenario
