import TraceTree.AbiType
import TraceTree.Address
import TraceTree.Artifact
import TraceTree.Artifact.StandardJson
import TraceTree.Build
import TraceTree.Build.Error
import TraceTree.Build.Pass
import TraceTree.Build.ScopeStack
import TraceTree.Build.Site
import TraceTree.BuildOptions.Document
import TraceTree.Bytecode
import TraceTree.CallTree
import TraceTree.CallTree.Codec
import TraceTree.CallTree.Query
import TraceTree.Declaration
import TraceTree.Instructions
import TraceTree.Json.Basic
import TraceTree.Json.Parser
import TraceTree.Json.Printer
import TraceTree.Json.Record
import TraceTree.Keccak
import TraceTree.LineIndex
import TraceTree.Opcode
import TraceTree.Proofs.AbiType.Canonical
import TraceTree.Proofs.AbiType.Grammar
import TraceTree.Proofs.Artifact
import TraceTree.Proofs.Build.Agreement
import TraceTree.Proofs.Build.Annotations
import TraceTree.Proofs.Build.Bracketing
import TraceTree.Proofs.Build.Breakpoints
import TraceTree.Proofs.Build.CallDepth
import TraceTree.Proofs.Build.Closing
import TraceTree.Proofs.Build.CommonPast
import TraceTree.Proofs.Build.Constructors
import TraceTree.Proofs.Build.Entry
import TraceTree.Proofs.Build.Faults
import TraceTree.Proofs.Build.GasAttribution
import TraceTree.Proofs.Build.GasConservation
import TraceTree.Proofs.Build.History
import TraceTree.Proofs.Build.Journal
import TraceTree.Proofs.Build.LastStep
import TraceTree.Proofs.Build.LastValid
import TraceTree.Proofs.Build.Layout
import TraceTree.Proofs.Build.LineGas
import TraceTree.Proofs.Build.Locations
import TraceTree.Proofs.Build.Nesting
import TraceTree.Proofs.Build.Passes
import TraceTree.Proofs.Build.Progress
import TraceTree.Proofs.Build.Records
import TraceTree.Proofs.Build.Run
import TraceTree.Proofs.Build.Scene
import TraceTree.Proofs.Build.ScopeLimit
import TraceTree.Proofs.Build.ScopeOrder
import TraceTree.Proofs.Build.Stage
import TraceTree.Proofs.Build.Step
import TraceTree.Proofs.Build.Truncation
import TraceTree.Proofs.Build.Untouched
import TraceTree.Proofs.Build.VariableIndex
import TraceTree.Proofs.Build.Variables
import TraceTree.Proofs.Build.WellFormed
import TraceTree.Proofs.Bytecode
import TraceTree.Proofs.CallTree.Codec
import TraceTree.Proofs.CallTree.Descendants
import TraceTree.Proofs.CallTree.LineGas
import TraceTree.Proofs.CallTree.PointQuery
import TraceTree.Proofs.CallTree.SameRun
import TraceTree.Proofs.CallTree.Skeleton
import TraceTree.Proofs.CallTree.VariableIndex
import TraceTree.Proofs.CallTree.WellFormed
import TraceTree.Proofs.Declaration
import TraceTree.Proofs.Declaration.Index
import TraceTree.Proofs.Declaration.Visited
import TraceTree.Proofs.Instructions
import TraceTree.Proofs.Json.Reads
import TraceTree.Proofs.Json.Reordered
import TraceTree.Proofs.LineIndex
import TraceTree.Proofs.Recording
import TraceTree.Proofs.ScopeId
import TraceTree.Proofs.ScopeId.Written
import TraceTree.Proofs.SortedMap
import TraceTree.Proofs.SourceRange
import TraceTree.Proofs.Text
import TraceTree.Proofs.Text.Numeral
import TraceTree.Proofs.Trace
import TraceTree.Proofs.Variable
import TraceTree.Proofs.VariableType
import TraceTree.Proofs.VariableType.ArrayLength
import TraceTree.Proofs.VariableType.Decoding
import TraceTree.Proofs.VariableType.InterfaceType
import TraceTree.Proofs.VariableType.Rendering
import TraceTree.Proofs.VariableType.UserDefined
import TraceTree.Recording
import TraceTree.Scope
import TraceTree.ScopeId
import TraceTree.SortedMap
import TraceTree.SourceLocation
import TraceTree.SourceMap
import TraceTree.SourceRange
import TraceTree.Text
import TraceTree.Toml.Basic
import TraceTree.Toml.Document
import TraceTree.Toml.Moment
import TraceTree.Toml.Number
import TraceTree.Toml.Quoted
import TraceTree.Trace
import TraceTree.Variable
import TraceTree.VariableType
