import PodCompiler.Archive.Crc32
import PodCompiler.Archive.Deflate
import PodCompiler.Archive.Fault
import PodCompiler.Archive.Huffman
import PodCompiler.Archive.Inflate
import PodCompiler.Archive.Store
import PodCompiler.Archive.Zip
import PodCompiler.Bytes
import PodCompiler.ClassFile.CodeBuffer
import PodCompiler.ClassFile.Constant
import PodCompiler.ClassFile.Draft
import PodCompiler.ClassFile.Error
import PodCompiler.ClassFile.Listing
import PodCompiler.ClassFile.Op
import PodCompiler.ClassFile.Parsed
import PodCompiler.ClassFile.Pool
import PodCompiler.ClassFile.Signature
import PodCompiler.Command.Arguments
import PodCompiler.Command.Console
import PodCompiler.Command.Dump
import PodCompiler.Command.Failure
import PodCompiler.Command.FileTree
import PodCompiler.Command.Run
import PodCompiler.Config.Basic
import PodCompiler.Config.Text
import PodCompiler.Decimal.Layout
import PodCompiler.Decimal.Shortest
import PodCompiler.Instruction.Assembler
import PodCompiler.Instruction.Basic
import PodCompiler.Instruction.Opcode
import PodCompiler.Lowering.Body
import PodCompiler.Lowering.Companion
import PodCompiler.Lowering.Comparison
import PodCompiler.Lowering.Conversion
import PodCompiler.Lowering.Descriptor
import PodCompiler.Lowering.Error
import PodCompiler.Lowering.FinallyBlock
import PodCompiler.Lowering.Frame
import PodCompiler.Lowering.Hierarchy
import PodCompiler.Lowering.Intrinsic
import PodCompiler.Lowering.Item
import PodCompiler.Lowering.Jump
import PodCompiler.Lowering.Layout
import PodCompiler.Lowering.LiteralClass
import PodCompiler.Lowering.Method
import PodCompiler.Lowering.MethodCode
import PodCompiler.Lowering.OpenClass
import PodCompiler.Lowering.Pod
import PodCompiler.Lowering.PodSet
import PodCompiler.Lowering.Protection
import PodCompiler.Lowering.Relocation
import PodCompiler.Lowering.Resolver
import PodCompiler.Lowering.Type
import PodCompiler.Main
import PodCompiler.Pod.Attributes
import PodCompiler.Pod.Basic
import PodCompiler.Pod.Builder
import PodCompiler.Pod.Cursor
import PodCompiler.Pod.Definition
import PodCompiler.Pod.Error
import PodCompiler.Pod.Literals
import PodCompiler.Pod.Symbols
import PodCompiler.Pod.Writer
import PodCompiler.Proofs.Archive.Entries
import PodCompiler.Proofs.Archive.PlainBlocks
import PodCompiler.Proofs.Archive.ZipRoundTrip
import PodCompiler.Proofs.Bytes
import PodCompiler.Proofs.ClassFile.CodeWalk
import PodCompiler.Proofs.ClassFile.ControlFlow
import PodCompiler.Proofs.ClassFile.Counts
import PodCompiler.Proofs.ClassFile.Descriptor
import PodCompiler.Proofs.ClassFile.Draft
import PodCompiler.Proofs.ClassFile.Edits
import PodCompiler.Proofs.ClassFile.Fields
import PodCompiler.Proofs.ClassFile.ListedCode
import PodCompiler.Proofs.ClassFile.MemberRefs
import PodCompiler.Proofs.ClassFile.Pool
import PodCompiler.Proofs.ClassFile.PoolIndices
import PodCompiler.Proofs.ClassFile.PoolTable
import PodCompiler.Proofs.ClassFile.RoundTrip
import PodCompiler.Proofs.ClassFile.SameCode
import PodCompiler.Proofs.ClassFile.StoredSlots
import PodCompiler.Proofs.Fcode.Cascade
import PodCompiler.Proofs.Fcode.Machine
import PodCompiler.Proofs.Instruction.Encoding
import PodCompiler.Proofs.Instruction.Stream
import PodCompiler.Proofs.Jvm.Calls
import PodCompiler.Proofs.Jvm.LocalAccess
import PodCompiler.Proofs.Jvm.Machine
import PodCompiler.Proofs.Jvm.Sequencing
import PodCompiler.Proofs.Jvm.StackTypes
import PodCompiler.Proofs.Lowering.AppendedCode
import PodCompiler.Proofs.Lowering.Arguments
import PodCompiler.Proofs.Lowering.AskedTypes
import PodCompiler.Proofs.Lowering.Backpatch
import PodCompiler.Proofs.Lowering.BaseChains
import PodCompiler.Proofs.Lowering.BlockEntries
import PodCompiler.Proofs.Lowering.BodyLayout
import PodCompiler.Proofs.Lowering.BranchOrder
import PodCompiler.Proofs.Lowering.CallingConvention
import PodCompiler.Proofs.Lowering.ClassMembers
import PodCompiler.Proofs.Lowering.ClassSteps
import PodCompiler.Proofs.Lowering.CodeStream
import PodCompiler.Proofs.Lowering.ComparedBranches
import PodCompiler.Proofs.Lowering.CopyCycles
import PodCompiler.Proofs.Lowering.CopyScopes
import PodCompiler.Proofs.Lowering.CoreItems
import PodCompiler.Proofs.Lowering.CoreSteps
import PodCompiler.Proofs.Lowering.CountedCalls
import PodCompiler.Proofs.Lowering.Declarations
import PodCompiler.Proofs.Lowering.DefaultCascade
import PodCompiler.Proofs.Lowering.DefaultFragments
import PodCompiler.Proofs.Lowering.DispatchOrder
import PodCompiler.Proofs.Lowering.DistinctMembers
import PodCompiler.Proofs.Lowering.Emission
import PodCompiler.Proofs.Lowering.ErrCarriers
import PodCompiler.Proofs.Lowering.FaithfulCopies
import PodCompiler.Proofs.Lowering.FfiCalls
import PodCompiler.Proofs.Lowering.FinalCode
import PodCompiler.Proofs.Lowering.FinallyCalls
import PodCompiler.Proofs.Lowering.Forwarders
import PodCompiler.Proofs.Lowering.FrameSlots
import PodCompiler.Proofs.Lowering.FusedJump
import PodCompiler.Proofs.Lowering.InterfaceCalls
import PodCompiler.Proofs.Lowering.KeptRoom
import PodCompiler.Proofs.Lowering.KeptSlots
import PodCompiler.Proofs.Lowering.KeptTypes
import PodCompiler.Proofs.Lowering.Linkage
import PodCompiler.Proofs.Lowering.LiteralFields
import PodCompiler.Proofs.Lowering.LocalSlots
import PodCompiler.Proofs.Lowering.MadeClasses
import PodCompiler.Proofs.Lowering.MixinClosure
import PodCompiler.Proofs.Lowering.MixinOrder
import PodCompiler.Proofs.Lowering.MixinRoutes
import PodCompiler.Proofs.Lowering.MixinSearch
import PodCompiler.Proofs.Lowering.PairedBlocks
import PodCompiler.Proofs.Lowering.PassedArguments
import PodCompiler.Proofs.Lowering.Placement
import PodCompiler.Proofs.Lowering.PodScripts
import PodCompiler.Proofs.Lowering.ProtectedRanges
import PodCompiler.Proofs.Lowering.Protection
import PodCompiler.Proofs.Lowering.RelocationExact
import PodCompiler.Proofs.Lowering.RepeatedBlocks
import PodCompiler.Proofs.Lowering.Repetition
import PodCompiler.Proofs.Lowering.Requests
import PodCompiler.Proofs.Lowering.Room
import PodCompiler.Proofs.Lowering.RouterChoice
import PodCompiler.Proofs.Lowering.Routers
import PodCompiler.Proofs.Lowering.Schedules
import PodCompiler.Proofs.Lowering.Scopes
import PodCompiler.Proofs.Lowering.Script
import PodCompiler.Proofs.Lowering.Scripts
import PodCompiler.Proofs.Lowering.Shape
import PodCompiler.Proofs.Lowering.Simulation
import PodCompiler.Proofs.Lowering.Sites
import PodCompiler.Proofs.Lowering.SlotDemand
import PodCompiler.Proofs.Lowering.SlotSums
import PodCompiler.Proofs.Lowering.StackDepth
import PodCompiler.Proofs.Lowering.Steps
import PodCompiler.Proofs.Lowering.SwitchDispatch
import PodCompiler.Proofs.Lowering.SwitchLayout
import PodCompiler.Proofs.Lowering.TwinScopes
import PodCompiler.Proofs.Lowering.TypeFields
import PodCompiler.Proofs.Lowering.TypedComparisons
import PodCompiler.Proofs.Lowering.TypedInstructions
import PodCompiler.Proofs.Lowering.TypedItems
import PodCompiler.Proofs.Lowering.UncheckedFinally
import PodCompiler.Proofs.Lowering.WholeItems
import PodCompiler.Proofs.Lowering.WrittenCode
import PodCompiler.Proofs.Lowering.WrittenCounts
import PodCompiler.Proofs.Pod.BodyRequests
import PodCompiler.Proofs.Pod.ItemsInRow
import PodCompiler.Proofs.Pod.Loading
import PodCompiler.Proofs.Pod.Reads
import PodCompiler.Proofs.Pod.RoundTrip
import PodCompiler.Proofs.Pod.Tables
import PodCompiler.Proofs.Pod.TypeBodies
import PodCompiler.Proofs.Text.ByteSequences
import PodCompiler.Proofs.Text.LossyUtf8
import PodCompiler.Proofs.Text.ModifiedUtf8
import PodCompiler.Proofs.TypeRef.Tables
import PodCompiler.Text.LossyUtf8
import PodCompiler.Text.ModifiedUtf8
import PodCompiler.Text.Numeral
import PodCompiler.Text.Quoted
import PodCompiler.Text.Visible
import PodCompiler.Toml.Reader
import PodCompiler.Toml.Value
import PodCompiler.TypeRef.Basic
import PodCompiler.TypeRef.JavaName
import PodCompiler.TypeRef.StackType
