import GuidedDataflow.Config.Basic
import GuidedDataflow.Config.Decode
import GuidedDataflow.Config.Error
import GuidedDataflow.Config.File
import GuidedDataflow.Config.Preset
import GuidedDataflow.Document.Basic
import GuidedDataflow.Document.Decimal
import GuidedDataflow.Document.Json.Reader
import GuidedDataflow.Document.Json.Writer
import GuidedDataflow.Document.Tree
import GuidedDataflow.Document.Yaml.Node
import GuidedDataflow.Document.Yaml.Resolve
import GuidedDataflow.Document.Yaml.Scalar
import GuidedDataflow.Document.Yaml.Source
import GuidedDataflow.Document.Yaml.Token
import GuidedDataflow.Document.Yaml.Writer
import GuidedDataflow.Flow.Fact
import GuidedDataflow.Flow.Transfer
import GuidedDataflow.Guide.Agenda
import GuidedDataflow.Guide.Backend
import GuidedDataflow.Guide.Policy
import GuidedDataflow.Guide.Prepared
import GuidedDataflow.Guide.Provenance
import GuidedDataflow.Guide.Report
import GuidedDataflow.Guide.Run
import GuidedDataflow.Guide.SiteCollector
import GuidedDataflow.Guide.Statistics
import GuidedDataflow.Matching.ConstructorRule
import GuidedDataflow.Matching.Spawn
import GuidedDataflow.OrderedSet
import GuidedDataflow.Program.Basic
import GuidedDataflow.Program.Instruction
import GuidedDataflow.Program.Signature
import GuidedDataflow.Program.Statement
import GuidedDataflow.Program.Value
import GuidedDataflow.Query.Basic
import GuidedDataflow.Query.CallString
import GuidedDataflow.Query.Demand
import GuidedDataflow.Query.Table
import GuidedDataflow.Rule.Compact
import GuidedDataflow.Rule.Decode
import GuidedDataflow.Rule.Error
import GuidedDataflow.Rule.File
import GuidedDataflow.Rule.Group
import GuidedDataflow.Rule.Selector
import GuidedDataflow.Rule.Specification
import GuidedDataflow.Solver.Error
import GuidedDataflow.Solver.Exploration
import GuidedDataflow.Solver.FactBound
import GuidedDataflow.Solver.FactStore
import GuidedDataflow.Solver.Options
import GuidedDataflow.Solver.Session
import GuidedDataflow.Text.Blank
import GuidedDataflow.Text.Split
import GuidedDataflow.Proofs.Config.RoundTrip
import GuidedDataflow.Proofs.FactBound
import GuidedDataflow.Proofs.Flow.Converse
import GuidedDataflow.Proofs.Flow.Pushdown
import GuidedDataflow.Proofs.Flow.Steps
import GuidedDataflow.Proofs.Guide.Accounts
import GuidedDataflow.Proofs.Guide.Agenda
import GuidedDataflow.Proofs.Guide.Cap
import GuidedDataflow.Proofs.Guide.Closure
import GuidedDataflow.Proofs.Guide.Completeness
import GuidedDataflow.Proofs.Guide.Deduplication
import GuidedDataflow.Proofs.Guide.Forest
import GuidedDataflow.Proofs.Guide.Lineage
import GuidedDataflow.Proofs.Guide.OrderFree
import GuidedDataflow.Proofs.Guide.Protocol
import GuidedDataflow.Proofs.Guide.Recording
import GuidedDataflow.Proofs.Guide.Rescan
import GuidedDataflow.Proofs.Guide.Scoping
import GuidedDataflow.Proofs.Guide.Termination
import GuidedDataflow.Proofs.Guide.Trace
import GuidedDataflow.Proofs.Program.Edges
import GuidedDataflow.Proofs.Program.FallThrough
import GuidedDataflow.Proofs.Query.CallWindow
import GuidedDataflow.Proofs.Rule.Loading
import GuidedDataflow.Proofs.Rule.Naming
import GuidedDataflow.Proofs.Rule.Residue
import GuidedDataflow.Proofs.Rule.Spelling
import GuidedDataflow.Proofs.Solver.Duality
import GuidedDataflow.Proofs.Solver.FactCover
import GuidedDataflow.Proofs.Solver.LeastSolve
import GuidedDataflow.Proofs.Solver.Origins
import GuidedDataflow.Proofs.Solver.Refusal
import GuidedDataflow.Proofs.Solver.Replay
import GuidedDataflow.Proofs.Solver.Scope
import GuidedDataflow.Proofs.Solver.SeedUnion
import GuidedDataflow.Proofs.Solver.StepBound
import GuidedDataflow.Proofs.Solver.StepLimit
import GuidedDataflow.Proofs.Solver.StoreViews
