import CilScope.Artifact.Assemble
import CilScope.Artifact.Basic
import CilScope.Artifact.Load
import CilScope.BuildError
import CilScope.Bytes
import CilScope.CommandLine
import CilScope.Compiler.Basic
import CilScope.Compiler.Bundled
import CilScope.Diagnostic.Basic
import CilScope.Diagnostic.Cause
import CilScope.Diagnostic.Log
import CilScope.Digest.SipHash
import CilScope.Draft.Basic
import CilScope.Draft.Layout
import CilScope.Flow.Dominators
import CilScope.Flow.Graph
import CilScope.Flow.Loops
import CilScope.Framework
import CilScope.Image
import CilScope.Instruction
import CilScope.Language
import CilScope.Library.Class
import CilScope.Library.Method
import CilScope.Listing.Body
import CilScope.Listing.Module
import CilScope.Listing.Names
import CilScope.Listing.Outline
import CilScope.Listing.Region
import CilScope.Listing.Writer
import CilScope.Lowering.Call
import CilScope.Lowering.Expression
import CilScope.Lowering.Method
import CilScope.Lowering.Operator
import CilScope.Lowering.Place
import CilScope.Lowering.State
import CilScope.Lowering.Statement
import CilScope.Main
import CilScope.Metadata.Basic
import CilScope.Metadata.Decode
import CilScope.Metadata.Encode
import CilScope.Metadata.Nesting
import CilScope.Module
import CilScope.Opcode
import CilScope.Pipeline
import CilScope.Program.Basic
import CilScope.Program.Declare
import CilScope.Program.Outline
import CilScope.Proofs.Artifact.RoundTrip
import CilScope.Proofs.Bytes
import CilScope.Proofs.Compiler.Verdict
import CilScope.Proofs.Core.Basis
import CilScope.Proofs.Core.Control
import CilScope.Proofs.Core.Correct
import CilScope.Proofs.Core.Declaration
import CilScope.Proofs.Core.Expression
import CilScope.Proofs.Core.Method
import CilScope.Proofs.Core.Operators
import CilScope.Proofs.Core.Semantics
import CilScope.Proofs.Core.Simple
import CilScope.Proofs.Core.Simulation
import CilScope.Proofs.Core.Steps
import CilScope.Proofs.Draft.Alive
import CilScope.Proofs.Draft.Block
import CilScope.Proofs.Draft.Depth
import CilScope.Proofs.Draft.Escape
import CilScope.Proofs.Draft.Faithful
import CilScope.Proofs.Draft.Growth
import CilScope.Proofs.Draft.History
import CilScope.Proofs.Draft.Layout
import CilScope.Proofs.Draft.Limits
import CilScope.Proofs.Draft.Reached
import CilScope.Proofs.Draft.Regions
import CilScope.Proofs.Draft.Sizing
import CilScope.Proofs.Draft.Twin
import CilScope.Proofs.Except
import CilScope.Proofs.Flow.Blocks
import CilScope.Proofs.Flow.Build
import CilScope.Proofs.Flow.Dominators
import CilScope.Proofs.Flow.Loops
import CilScope.Proofs.Flow.Paths
import CilScope.Proofs.Flow.Postorder
import CilScope.Proofs.Image.Bodies
import CilScope.Proofs.Image.Control
import CilScope.Proofs.Image.Debug
import CilScope.Proofs.Image.Finally
import CilScope.Proofs.Image.Jumps
import CilScope.Proofs.Image.Limits
import CilScope.Proofs.Image.Lookup
import CilScope.Proofs.Image.Pairing
import CilScope.Proofs.Image.Regions
import CilScope.Proofs.Image.Shown
import CilScope.Proofs.Image.Spelling
import CilScope.Proofs.Image.Tables
import CilScope.Proofs.Image.Tokens
import CilScope.Proofs.Image.Twin
import CilScope.Proofs.Instruction.Stream
import CilScope.Proofs.Listing.Exact
import CilScope.Proofs.Listing.Jumps
import CilScope.Proofs.Listing.Literal
import CilScope.Proofs.Listing.Names
import CilScope.Proofs.Listing.Nesting
import CilScope.Proofs.Listing.Placeholder
import CilScope.Proofs.Listing.Statement
import CilScope.Proofs.Listing.Structured
import CilScope.Proofs.Listing.Visits
import CilScope.Proofs.Listing.Writer
import CilScope.Proofs.Lowering.Ending
import CilScope.Proofs.Lowering.Finally
import CilScope.Proofs.Lowering.Frame
import CilScope.Proofs.Lowering.Known
import CilScope.Proofs.Lowering.Nesting
import CilScope.Proofs.Lowering.Overload
import CilScope.Proofs.Lowering.Probe
import CilScope.Proofs.Lowering.Readable
import CilScope.Proofs.Lowering.Settled
import CilScope.Proofs.Lowering.Tokens
import CilScope.Proofs.Lowering.Twin.Basic
import CilScope.Proofs.Lowering.Twin.Expression
import CilScope.Proofs.Lowering.Twin.Statement
import CilScope.Proofs.Lowering.Vouched
import CilScope.Proofs.Lowering.Walk
import CilScope.Proofs.Machine.Basic
import CilScope.Proofs.Metadata.Accepted
import CilScope.Proofs.Metadata.Nesting
import CilScope.Proofs.Metadata.RoundTrip
import CilScope.Proofs.Program.Declare
import CilScope.Proofs.Program.Known
import CilScope.Proofs.References
import CilScope.Proofs.References.Requests
import CilScope.Proofs.References.Stored
import CilScope.Proofs.Scratch
import CilScope.Proofs.Source.CSharp
import CilScope.Proofs.Source.CallStatement
import CilScope.Proofs.Source.Completion
import CilScope.Proofs.Source.Expression
import CilScope.Proofs.Source.ForLoop
import CilScope.Proofs.Source.Grammar
import CilScope.Proofs.Source.Grouping
import CilScope.Proofs.Source.Integers.CSharp
import CilScope.Proofs.Source.Integers.Exact
import CilScope.Proofs.Source.Integers.Expression
import CilScope.Proofs.Source.Integers.Numeral
import CilScope.Proofs.Source.Integers.Tree
import CilScope.Proofs.Source.Integers.VisualBasic
import CilScope.Proofs.Source.Lockstep.Basic
import CilScope.Proofs.Source.Lockstep.CSharp
import CilScope.Proofs.Source.Lockstep.Expression
import CilScope.Proofs.Source.Lockstep.Mending
import CilScope.Proofs.Source.Lockstep.Semicolon
import CilScope.Proofs.Source.Loops.Basic
import CilScope.Proofs.Source.Loops.CSharp
import CilScope.Proofs.Source.Loops.VisualBasic
import CilScope.Proofs.Source.Meaning
import CilScope.Proofs.Source.Positions
import CilScope.Proofs.Source.Printing
import CilScope.Proofs.Source.Progress
import CilScope.Proofs.Source.Termination
import CilScope.Proofs.Source.VisualBasic
import CilScope.Proofs.Spelling.Cursor
import CilScope.Proofs.Spelling.Expression
import CilScope.Proofs.Spelling.Program
import CilScope.Proofs.Spelling.Tree
import CilScope.Proofs.Spelling.VisualBasic
import CilScope.Proofs.Text.Lines
import CilScope.Proofs.Text.Sink
import CilScope.Proofs.Workshop.Run
import CilScope.Proofs.Workshop.Scratch
import CilScope.References
import CilScope.Scratch
import CilScope.Settings
import CilScope.Source.CSharp
import CilScope.Source.Completion
import CilScope.Source.Cursor
import CilScope.Source.Expression
import CilScope.Source.Lexeme
import CilScope.Source.Parse
import CilScope.Source.Position
import CilScope.Source.Tree
import CilScope.Source.VisualBasic
import CilScope.StaticType
import CilScope.Statistics
import CilScope.Text.Blank
import CilScope.Text.Hex
import CilScope.Text.Quoted
import CilScope.Text.Sink
import CilScope.Token
import CilScope.Workshop
