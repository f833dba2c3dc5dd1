import ClientLoom.Archive
import ClientLoom.Attr
import ClientLoom.BuildInfo
import ClientLoom.Builder
import ClientLoom.CommandLine.Command
import ClientLoom.CommandLine.Flag
import ClientLoom.CommandLine.Run
import ClientLoom.Config.Basic
import ClientLoom.Config.Layers
import ClientLoom.Decl.Basic
import ClientLoom.Decl.Printer
import ClientLoom.Decl.Walk
import ClientLoom.Digest
import ClientLoom.Double
import ClientLoom.Dump.Decode
import ClientLoom.Dump.Schema
import ClientLoom.Expr.Basic
import ClientLoom.Expr.Printer
import ClientLoom.Expr.Walk
import ClientLoom.Facade
import ClientLoom.Failure
import ClientLoom.FileTree
import ClientLoom.Generate
import ClientLoom.Load
import ClientLoom.Log
import ClientLoom.Main
import ClientLoom.Manifest
import ClientLoom.Module.Basic
import ClientLoom.Module.Merge
import ClientLoom.Path
import ClientLoom.Pipeline
import ClientLoom.Proofs.Facade.Failure
import ClientLoom.Proofs.Module.MergeOrder
import ClientLoom.Proofs.Module.Pushing
import ClientLoom.Proofs.Module.Reachable
import ClientLoom.Proofs.Module.WellFormed
import ClientLoom.Proofs.Outcome
import ClientLoom.Prune
import ClientLoom.Registry
import ClientLoom.Render
import ClientLoom.Semver
import ClientLoom.Settings
import ClientLoom.SlashPath
import ClientLoom.SourceFile
import ClientLoom.Strip
import ClientLoom.Style
import ClientLoom.Text.Base64
import ClientLoom.Text.Blank
import ClientLoom.Text.CaseRuns
import ClientLoom.Text.CodeRanges
import ClientLoom.Text.Fold
import ClientLoom.Text.Hex
import ClientLoom.Text.Letter
import ClientLoom.Text.Lower
import ClientLoom.Text.Numeral
import ClientLoom.Text.Printable
import ClientLoom.Text.Quoted
import ClientLoom.Text.RawByte
import ClientLoom.Text.Split
import ClientLoom.Text.Upper
import ClientLoom.Toml.Document
import ClientLoom.Toml.Draft
import ClientLoom.Toml.Parse
import ClientLoom.Toml.Reader
import ClientLoom.Toml.Scalar
import ClientLoom.Toml.Syntax
import ClientLoom.Toml.Text
import ClientLoom.Toml.Value
import ClientLoom.Ty.Basic
import ClientLoom.Ty.Bracket
import ClientLoom.Ty.Parser
import ClientLoom.Ty.Token
import ClientLoom.Width
import ClientLoom.Yaml.Cursor
import ClientLoom.Yaml.Document
import ClientLoom.Yaml.Fit
import ClientLoom.Yaml.Meaning
import ClientLoom.Yaml.Node
import ClientLoom.Yaml.Scalar
import ClientLoom.Yaml.Scanner
import ClientLoom.Yaml.Token
import ClientLoom.Yaml.Window
import ClientLoom.Proofs.Registry.MergeAll
import ClientLoom.Proofs.Registry.VisitOrder
import ClientLoom.Proofs.Pipeline.ArrivalOrder
import ClientLoom.Proofs.Facade.Conservation
import ClientLoom.Proofs.Ty.Reading
import ClientLoom.Proofs.Ty.RoundTrip
import ClientLoom.Proofs.Dump.Endless
import ClientLoom.Proofs.Module.Outline
import ClientLoom.Proofs.Module.Offers
import ClientLoom.Proofs.Module.Pieces
import ClientLoom.Proofs.Registry.Calls
import ClientLoom.Proofs.Module.Replay
import ClientLoom.Proofs.Pipeline.Incremental
import ClientLoom.Proofs.Pipeline.Stages
import ClientLoom.Proofs.Pipeline.TypeNames
import ClientLoom.Proofs.Pipeline.Extraction
import ClientLoom.Proofs.Files.Paths
import ClientLoom.Proofs.Files.WalkOrder
import ClientLoom.Proofs.Load.Agreement
import ClientLoom.Proofs.Dump.Strictness
import ClientLoom.Proofs.Toml.Strings
import ClientLoom.Proofs.Toml.Numerals
import ClientLoom.Proofs.Manifest.Lines
import ClientLoom.Proofs.Manifest.RoundTrip
import ClientLoom.Proofs.Files.Following
import ClientLoom.Proofs.Files.Writing
import ClientLoom.Proofs.Load.Keeping
import ClientLoom.Proofs.Generate.Planning
import ClientLoom.Proofs.Generate.Again
import ClientLoom.Proofs.Walk.Paths
import ClientLoom.Proofs.Walk.Declarations
import ClientLoom.Proofs.Walk.Rules
import ClientLoom.Proofs.Strip.Exact
import ClientLoom.Proofs.Strip.Again
import ClientLoom.Proofs.Text.Occurrence
import ClientLoom.Proofs.Facade.Conversion
import ClientLoom.Proofs.Facade.MethodNames
import ClientLoom.Proofs.Module.ClosedForm
import ClientLoom.Proofs.Module.MergeAgain
import ClientLoom.Proofs.Walk.Literals
import ClientLoom.Proofs.Prune.Consistency
import ClientLoom.Proofs.Builder.Meaning
import ClientLoom.Proofs.Builder.Generation
import ClientLoom.Proofs.Pipeline.Builders
import ClientLoom.Proofs.Pipeline.ParamsShape
import ClientLoom.Proofs.Dump.Kinds
import ClientLoom.Proofs.Yaml.Sharing
import ClientLoom.Proofs.Dump.Sharing
import ClientLoom.Proofs.Dump.FirstFault
import ClientLoom.Proofs.Path.Rereading
import ClientLoom.Proofs.Path.Attributes
import ClientLoom.Proofs.Render.Indents
import ClientLoom.Proofs.Render.Depth
import ClientLoom.Proofs.Load.Workers
import ClientLoom.Proofs.Load.Schedules
import ClientLoom.Proofs.Ty.Nesting
import ClientLoom.Proofs.Walk.Terms
import ClientLoom.Proofs.Walk.Offers
import ClientLoom.Proofs.Walk.PostOrder
