import TreeJit.Main
import TreeJit.Proofs.SSA.Change
import TreeJit.Proofs.SSA.Sound
import TreeJit.Proofs.SSA.WellFormed
import TreeJit.Proofs.SSA.Paths
import TreeJit.Proofs.Word.Memory
import TreeJit.Proofs.Emit.Builder
import TreeJit.Proofs.Tree.Emit
import TreeJit.Proofs.Emit.Shape
import TreeJit.Proofs.Emit.Reference
import TreeJit.Proofs.Predicate.Row
import TreeJit.Proofs.Emit.LoopCode
import TreeJit.Proofs.Emit.LoopRun
import TreeJit.Proofs.Predicate.Vector
import TreeJit.Proofs.Host.Module
import TreeJit.Proofs.Host.Calling
import TreeJit.Proofs.Emit.CodeUnit
import TreeJit.Proofs.Predicate.Compile
import TreeJit.Proofs.Predicate.Agreement
import TreeJit.Proofs.SSA.Layout
import TreeJit.Proofs.SSA.FrameParts
import TreeJit.Proofs.SSA.Trace
import TreeJit.Proofs.X64.Machine
import TreeJit.Proofs.Compile.Homes
import TreeJit.Proofs.Compile.Moves
import TreeJit.Proofs.Compile.Operations
import TreeJit.Proofs.Code.Layout
import TreeJit.Proofs.Code.Field
import TreeJit.Proofs.Code.Labels
import TreeJit.Proofs.X64.Decode
import TreeJit.Proofs.X64.RoundTrip
import TreeJit.Proofs.SSA.Passing
import TreeJit.Proofs.SSA.Progress
import TreeJit.Proofs.SSA.Passage
import TreeJit.Proofs.Emit.LoopProgress
import TreeJit.Proofs.Compile.Blocks
import TreeJit.Proofs.Compile.X64Legal
import TreeJit.Proofs.A64.Accepts
import TreeJit.Proofs.Compile.A64Legal
import TreeJit.Proofs.Compile.Simulation
import TreeJit.Proofs.Emit.Work
import TreeJit.Proofs.Emit.Session
import TreeJit.Proofs.Emit.LoopRounds
import TreeJit.Proofs.Emit.LoopMap
import TreeJit.Proofs.Emit.Lifecycle
import TreeJit.Proofs.Emit.Faults
import TreeJit.Proofs.Emit.Closing
import TreeJit.Proofs.SSA.Calls
import TreeJit.Proofs.Code.Link
import TreeJit.Proofs.Compile.Linked
import TreeJit.Proofs.Emit.Linking
import TreeJit.Proofs.Host.Session
import TreeJit.Proofs.Json.Written
import TreeJit.Proofs.Trace.Table
import TreeJit.Proofs.Trace.RoundTrip
import TreeJit.Proofs.Json.Extent
import TreeJit.Proofs.Trace.Records
import TreeJit.Proofs.Trace.Totals
import TreeJit.Proofs.Host.Helper
import TreeJit.Proofs.Tree.Ready
import TreeJit.Proofs.Emit.Handling
import TreeJit.Proofs.Tree.Contract
import TreeJit.Proofs.Compile.FrameWord
import TreeJit.Proofs.Code.Relocation
import TreeJit.Proofs.SSA.Handover
import TreeJit.Proofs.SSA.Strokes
import TreeJit.Proofs.SSA.LastingFault
import TreeJit.Proofs.Emit.AtWork
import TreeJit.Proofs.Tree.Imports
import TreeJit.Proofs.Predicate.Ready
import TreeJit.Proofs.Host.Placing
import TreeJit.Proofs.Emit.Idle
import TreeJit.Proofs.Predicate.Making
import TreeJit.Proofs.Predicate.Success
import TreeJit.Proofs.Predicate.Batches
import TreeJit.Proofs.SSA.FrameRegions
import TreeJit.Proofs.Word.Copies
import TreeJit.Proofs.SSA.BranchArgs
import TreeJit.Proofs.Emit.NamedSlots
import TreeJit.Proofs.Emit.SlotStores
import TreeJit.Proofs.Emit.ScratchFrame
import TreeJit.Proofs.Emit.ScratchRun
import TreeJit.Proofs.Emit.Elements
import TreeJit.Proofs.A64.Machine
import TreeJit.Proofs.A64.Fields
import TreeJit.Proofs.A64.Performs
import TreeJit.Proofs.Compile.A64Moves
import TreeJit.Proofs.Compile.BranchArgs
import TreeJit.Proofs.Compile.A64Operations
import TreeJit.Proofs.Compile.A64Homes
import TreeJit.Proofs.Compile.A64Steps
import TreeJit.Proofs.Compile.A64Words
import TreeJit.Proofs.Compile.LoopAlignment
import TreeJit.Proofs.Tree.Grammar
import TreeJit.Proofs.Code.Constants
import TreeJit.Proofs.Host.Catalog
import TreeJit.Proofs.Host.Groups
import TreeJit.Proofs.Host.Registration
import TreeJit.Proofs.Code.LinkFaults
import TreeJit.Proofs.A64.System
import TreeJit.Proofs.A64.CacheSync
import TreeJit.Proofs.A64.Commands
import TreeJit.Proofs.Tree.Columns
