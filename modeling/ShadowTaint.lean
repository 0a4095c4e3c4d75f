import ShadowTaint.Table
import ShadowTaint.Text.Blank
import ShadowTaint.Text.Search
import ShadowTaint.Text.Natural
import ShadowTaint.Decimal.Text
import ShadowTaint.Decimal.Read
import ShadowTaint.Provenance.Node
import ShadowTaint.Taint.CharMap
import ShadowTaint.Taint.Fault
import ShadowTaint.Taint.Entry
import ShadowTaint.Taint.Encoding
import ShadowTaint.Fault
import ShadowTaint.Shadow.Frame
import ShadowTaint.Shadow.State
import ShadowTaint.Memory.Basic
import ShadowTaint.Memory.Taint
import ShadowTaint.Memory.Wrap
import ShadowTaint.Policy.Kind
import ShadowTaint.Policy.Wrap
import ShadowTaint.Policy.Trees
import ShadowTaint.Policy.Operands
import ShadowTaint.Propagation.Object
import ShadowTaint.Propagation.Text
import ShadowTaint.Propagation.Container
import ShadowTaint.Propagation
import ShadowTaint.Log
import ShadowTaint.Files.Path
import ShadowTaint.Files.Disk
import ShadowTaint.Json.Basic
import ShadowTaint.Provenance.Export
import ShadowTaint.Settings.Basic
import ShadowTaint.Sink
import ShadowTaint.Eval.Scope
import ShadowTaint.Eval.Rewrite
import ShadowTaint.Ghost.Basic
import ShadowTaint.Tracker.Basic
import ShadowTaint.Tracker.Operators
import ShadowTaint.Tracker.Fields
import ShadowTaint.Tracker.Ghosts
import ShadowTaint.Tracker.Calls
import ShadowTaint.Tracker.Code
import ShadowTaint.Tracker.Operations
import ShadowTaint.Provenance.Triage
import ShadowTaint.Import.Candidates
import ShadowTaint.Json.Reader
import ShadowTaint.Provenance.Reader
import ShadowTaint.Settings.Json
import ShadowTaint.Toml.Reader
import ShadowTaint.Settings.File
import ShadowTaint.CommandLine.Terminal
import ShadowTaint.CommandLine.Options
import ShadowTaint.CommandLine.Request
import ShadowTaint.CommandLine.Help
import ShadowTaint.CommandLine.Run
import ShadowTaint.Main
import ShadowTaint.Proofs.Action
import ShadowTaint.Proofs.Heap
import ShadowTaint.Proofs.Native
import ShadowTaint.Proofs.Shadow
import ShadowTaint.Proofs.Memory
import ShadowTaint.Proofs.Wrap
import ShadowTaint.Proofs.Trees
import ShadowTaint.Proofs.Operands
import ShadowTaint.Proofs.Rules
import ShadowTaint.Proofs.Hooks
import ShadowTaint.Proofs.Ghosts
import ShadowTaint.Proofs.Relabel
import ShadowTaint.Proofs.SinkCheck
import ShadowTaint.Proofs.Protocol
import ShadowTaint.Proofs.Stores
import ShadowTaint.Proofs.Calls
import ShadowTaint.Proofs.Steps
import ShadowTaint.Proofs.Runs
import ShadowTaint.Proofs.Discipline
import ShadowTaint.Proofs.Survival
import ShadowTaint.Proofs.Ownership
import ShadowTaint.Proofs.Stranding
import ShadowTaint.Proofs.Sessions
import ShadowTaint.Proofs.Quiet
import ShadowTaint.Proofs.Deeds
import ShadowTaint.Proofs.Records
import ShadowTaint.Proofs.Outside
import ShadowTaint.Proofs.Scopes
import ShadowTaint.Proofs.Spotless
import ShadowTaint.Proofs.Effects
import ShadowTaint.Proofs.Lasting
import ShadowTaint.Proofs.Texts
import ShadowTaint.Proofs.Persistence
import ShadowTaint.Proofs.Histories
import ShadowTaint.Proofs.Findings
import ShadowTaint.Proofs.Attribution
import ShadowTaint.Proofs.Settling
import ShadowTaint.Proofs.Blocking
import ShadowTaint.Proofs.Brackets
import ShadowTaint.Proofs.Aftermath
import ShadowTaint.Proofs.Pollution
import ShadowTaint.Proofs.Reach
import ShadowTaint.Proofs.Stripping
import ShadowTaint.Proofs.Sparing
import ShadowTaint.Proofs.Dressing
import ShadowTaint.Proofs.Returning
import ShadowTaint.Proofs.Transparency
import ShadowTaint.Proofs.Tallies
import ShadowTaint.Proofs.Notes
import ShadowTaint.Proofs.Lengths
import ShadowTaint.Proofs.Spans
import ShadowTaint.Proofs.Agreement
import ShadowTaint.Proofs.Evaluation
import ShadowTaint.Proofs.Laundering
import ShadowTaint.Proofs.Concatenation
import ShadowTaint.Proofs.Freshness
import ShadowTaint.Proofs.SinkGrowth
import ShadowTaint.Proofs.SinkChains
import ShadowTaint.Proofs.Keys
import ShadowTaint.Proofs.Contents
import ShadowTaint.Proofs.ContainerTaint
import ShadowTaint.Proofs.Methods
import ShadowTaint.Proofs.Maps
import ShadowTaint.Proofs.Elements
import ShadowTaint.Proofs.Sets
import ShadowTaint.Proofs.Unfolding
import ShadowTaint.Proofs.Summaries
import ShadowTaint.Proofs.JsonText
import ShadowTaint.Proofs.ExportText
import ShadowTaint.Proofs.SinkReports
import ShadowTaint.Proofs.Faithful
import ShadowTaint.Proofs.Respelling
import ShadowTaint.Proofs.StringCalls
import ShadowTaint.Proofs.Copying
import ShadowTaint.Proofs.Reexecution
import ShadowTaint.Proofs.Indices
import ShadowTaint.Proofs.Words
import ShadowTaint.Proofs.ArrayCalls
import ShadowTaint.Proofs.Dropping
import ShadowTaint.Proofs.ArrayTaint
import ShadowTaint.Proofs.Joining
import ShadowTaint.Proofs.NewArrays
import ShadowTaint.Proofs.EmptyWords
import ShadowTaint.Proofs.Planes
import ShadowTaint.Proofs.StringLiterals
import ShadowTaint.Proofs.Walks
import ShadowTaint.Proofs.Retracing
import ShadowTaint.Proofs.SinkLookup
import ShadowTaint.Proofs.Ranges
import ShadowTaint.Proofs.Sanitizers
import ShadowTaint.Proofs.GlobalPolicy
import ShadowTaint.Proofs.CallStack
import ShadowTaint.Proofs.Properties
import ShadowTaint.Proofs.WholeNumbers
import ShadowTaint.Proofs.Drawing
import ShadowTaint.Proofs.Ancestry
