import ShaderForge.Atom
import ShaderForge.Buffer.Basic
import ShaderForge.Buffer.Chain
import ShaderForge.Buffer.Edit
import ShaderForge.Buffer.Listing
import ShaderForge.Coded
import ShaderForge.Command.Arguments
import ShaderForge.Command.Folder
import ShaderForge.Command.Log
import ShaderForge.Command.Plan
import ShaderForge.Fault
import ShaderForge.Function
import ShaderForge.Generation
import ShaderForge.Index
import ShaderForge.Linkage.Aggregate
import ShaderForge.Linkage.Control
import ShaderForge.Linkage.Global
import ShaderForge.Linkage.Order
import ShaderForge.Linkage.Type
import ShaderForge.Linkage.Unit
import ShaderForge.Linkage.Warning
import ShaderForge.Literal
import ShaderForge.LittleEndian
import ShaderForge.Liveness
import ShaderForge.Main
import ShaderForge.Member
import ShaderForge.Native.Arithmetic
import ShaderForge.Native.Code
import ShaderForge.Native.Expr
import ShaderForge.Native.Layout
import ShaderForge.Native.Lowering
import ShaderForge.Native.Module
import ShaderForge.Native.Operand
import ShaderForge.Native.Register
import ShaderForge.Opcode.Branch
import ShaderForge.Opcode.Intrinsic
import ShaderForge.Opcode.Operator
import ShaderForge.Opcode.Qualifier
import ShaderForge.Opcode.Swizzle
import ShaderForge.Optimizer.Compaction
import ShaderForge.Optimizer.DeadCode
import ShaderForge.Optimizer.Elision
import ShaderForge.Optimizer.Pipeline
import ShaderForge.Optimizer.Storage
import ShaderForge.Overload
import ShaderForge.Prim
import ShaderForge.Proofs.Blocks.Agreement
import ShaderForge.Proofs.Blocks.Generators
import ShaderForge.Proofs.Blocks.Grammar
import ShaderForge.Proofs.Buffer.Addresses
import ShaderForge.Proofs.Buffer.Bypass
import ShaderForge.Proofs.Buffer.Fold
import ShaderForge.Proofs.Buffer.Results
import ShaderForge.Proofs.Buffer.Tree
import ShaderForge.Proofs.Buffer.Walks
import ShaderForge.Proofs.Effects
import ShaderForge.Proofs.Function.Bypass
import ShaderForge.Proofs.Function.Fold
import ShaderForge.Proofs.Function.Preparation
import ShaderForge.Proofs.Function.Signature
import ShaderForge.Proofs.Linkage.Attempts
import ShaderForge.Proofs.Linkage.Bypass
import ShaderForge.Proofs.Linkage.CallOrder
import ShaderForge.Proofs.Linkage.Closure
import ShaderForge.Proofs.Linkage.Fold
import ShaderForge.Proofs.Linkage.GlobalNames
import ShaderForge.Proofs.Linkage.Globals
import ShaderForge.Proofs.Linkage.LeastOrder
import ShaderForge.Proofs.Linkage.Lockstep
import ShaderForge.Proofs.Linkage.Placing
import ShaderForge.Proofs.Linkage.Reached
import ShaderForge.Proofs.Linkage.Records
import ShaderForge.Proofs.Linkage.Redefinition
import ShaderForge.Proofs.Linkage.Registration
import ShaderForge.Proofs.Linkage.Representation
import ShaderForge.Proofs.Linkage.Restated
import ShaderForge.Proofs.Linkage.Scan
import ShaderForge.Proofs.Linkage.Scannable
import ShaderForge.Proofs.Linkage.Shapes
import ShaderForge.Proofs.Linkage.Sweep
import ShaderForge.Proofs.Linkage.Towers
import ShaderForge.Proofs.Linkage.UniqueNames
import ShaderForge.Proofs.Linkage.Visible
import ShaderForge.Proofs.Linkage.Wrappers
import ShaderForge.Proofs.Liveness.Due
import ShaderForge.Proofs.Liveness.Fold
import ShaderForge.Proofs.Liveness.Least
import ShaderForge.Proofs.Liveness.Storing
import ShaderForge.Proofs.Native.Components
import ShaderForge.Proofs.Native.Construction
import ShaderForge.Proofs.Native.Counterpart
import ShaderForge.Proofs.Native.Courses
import ShaderForge.Proofs.Native.Extent
import ShaderForge.Proofs.Native.Fits
import ShaderForge.Proofs.Native.Fold
import ShaderForge.Proofs.Native.Modules
import ShaderForge.Proofs.Native.Packing
import ShaderForge.Proofs.Native.Passage
import ShaderForge.Proofs.Native.Refinement
import ShaderForge.Proofs.Native.Rename
import ShaderForge.Proofs.Native.Scalars
import ShaderForge.Proofs.Native.Soundness
import ShaderForge.Proofs.Native.Statements
import ShaderForge.Proofs.Native.Transfer
import ShaderForge.Proofs.Native.Values
import ShaderForge.Proofs.Optimizer.Aliases
import ShaderForge.Proofs.Optimizer.Answers
import ShaderForge.Proofs.Optimizer.Compaction
import ShaderForge.Proofs.Optimizer.CompactionRuns
import ShaderForge.Proofs.Optimizer.DeadCodeRuns
import ShaderForge.Proofs.Optimizer.Distinct
import ShaderForge.Proofs.Optimizer.ElisionBodies
import ShaderForge.Proofs.Optimizer.ElisionModules
import ShaderForge.Proofs.Optimizer.ElisionNames
import ShaderForge.Proofs.Optimizer.ElisionRuns
import ShaderForge.Proofs.Optimizer.ElisionSteps
import ShaderForge.Proofs.Optimizer.ElisionTypes
import ShaderForge.Proofs.Optimizer.ElisionValues
import ShaderForge.Proofs.Optimizer.Forwards
import ShaderForge.Proofs.Optimizer.LiveClosure
import ShaderForge.Proofs.Optimizer.Merging
import ShaderForge.Proofs.Optimizer.Passes
import ShaderForge.Proofs.Optimizer.Recorded
import ShaderForge.Proofs.Optimizer.Removal
import ShaderForge.Proofs.Optimizer.Retyping
import ShaderForge.Proofs.Optimizer.Rewrites
import ShaderForge.Proofs.Optimizer.Selections
import ShaderForge.Proofs.Optimizer.Settling
import ShaderForge.Proofs.Optimizer.Sharing
import ShaderForge.Proofs.Optimizer.Skeleton
import ShaderForge.Proofs.Optimizer.Termination
import ShaderForge.Proofs.Optimizer.Thinning
import ShaderForge.Proofs.Registry.Numbers
import ShaderForge.Proofs.Source.Bypass
import ShaderForge.Proofs.Source.Declarations
import ShaderForge.Proofs.Source.Drafts
import ShaderForge.Proofs.Source.EntryPoint
import ShaderForge.Proofs.Source.Extensions
import ShaderForge.Proofs.Source.GlobalDeclarations
import ShaderForge.Proofs.Source.Lexemes
import ShaderForge.Proofs.Source.Operators
import ShaderForge.Proofs.Source.Placeholders
import ShaderForge.Proofs.Source.Renderings
import ShaderForge.Proofs.Source.Resources
import ShaderForge.Proofs.Source.Spelling
import ShaderForge.Proofs.Source.Templates
import ShaderForge.Proofs.Source.Tracing
import ShaderForge.Proofs.Stream.Delimited
import ShaderForge.Proofs.Stream.Readers
import ShaderForge.Proofs.Stream.RoundTrip
import ShaderForge.Proofs.Typing.Complete
import ShaderForge.Proofs.Typing.Derivation
import ShaderForge.Proofs.Typing.Fold
import ShaderForge.Proofs.Typing.Links
import ShaderForge.Proofs.Typing.Names
import ShaderForge.Proofs.Typing.Recursion
import ShaderForge.Proofs.Typing.Structs
import ShaderForge.Proofs.Typing.Table
import ShaderForge.Proofs.Typing.Wide
import ShaderForge.Registry
import ShaderForge.Source.Cpp
import ShaderForge.Source.Dialect
import ShaderForge.Source.Extension
import ShaderForge.Source.Glsl
import ShaderForge.Source.Naming
import ShaderForge.Source.Preamble
import ShaderForge.Source.Spirv
import ShaderForge.Source.Statement
import ShaderForge.Stream.Decode
import ShaderForge.Stream.Encode
import ShaderForge.Target
import ShaderForge.Text.Decimal
import ShaderForge.Ty
import ShaderForge.Typing.Analysis
import ShaderForge.Typing.Inquiry
import ShaderForge.Typing.Rules
