import ScriptMachine.Ast.Compact
import ScriptMachine.Ast.Decode
import ScriptMachine.Ast.Encode
import ScriptMachine.Code.Function
import ScriptMachine.Code.Hex
import ScriptMachine.Code.Listing
import ScriptMachine.Compile.Load
import ScriptMachine.Compile.Lower
import ScriptMachine.Compile.Monad
import ScriptMachine.Compile.Unit
import ScriptMachine.Config.Load
import ScriptMachine.Decimal.Text
import ScriptMachine.Diagnostic
import ScriptMachine.Fold
import ScriptMachine.Json.Parser
import ScriptMachine.Json.Printer
import ScriptMachine.Machine.Call
import ScriptMachine.Machine.Run
import ScriptMachine.Native.Host
import ScriptMachine.Native.Prelude
import ScriptMachine.Proofs.Layout.Compile
import ScriptMachine.Session
import ScriptMachine.Span
import ScriptMachine.Symbol
import ScriptMachine.Task.Scheduler
import ScriptMachine.Text.Blank
import ScriptMachine.Text.Quoted
import ScriptMachine.Toml.Reader
import ScriptMachine.Value.Arithmetic
import ScriptMachine.Value.Basic
import ScriptMachine.Value.Equal
import ScriptMachine.Value.Render
import ScriptMachine.Proofs.Layout.Bytes
import ScriptMachine.Proofs.Layout.Flow
import ScriptMachine.Proofs.Layout.Ways
import ScriptMachine.Proofs.Targets
import ScriptMachine.Proofs.Expression.Compile
import ScriptMachine.Proofs.History
import ScriptMachine.Proofs.Machine.Yields
import ScriptMachine.Proofs.Machine.Work
import ScriptMachine.Proofs.Machine.Triple
import ScriptMachine.Proofs.Machine.Bounds
import ScriptMachine.Proofs.Machine.Safety
import ScriptMachine.Proofs.Reach
import ScriptMachine.Proofs.Refusal
import ScriptMachine.Proofs.Finally.Laid
import ScriptMachine.Proofs.Finally.Tower
import ScriptMachine.Proofs.Finally.Parts
import ScriptMachine.Proofs.Finally.Unwind
import ScriptMachine.Proofs.Traffic.Order
import ScriptMachine.Proofs.Machine.Kit
import ScriptMachine.Proofs.Session.Moment
import ScriptMachine.Proofs.Session.Sound
import ScriptMachine.Proofs.Session.Tables
import ScriptMachine.Proofs.Session.Names
import ScriptMachine.Proofs.Traffic.Parties
import ScriptMachine.Proofs.Finally.Statement
import ScriptMachine.Proofs.Finally.Run
import ScriptMachine.Proofs.Finally.Program
import ScriptMachine.Proofs.Traffic.Outcome
import ScriptMachine.Proofs.Hierarchy.Link
import ScriptMachine.Proofs.Hierarchy.Load
import ScriptMachine.Proofs.Hierarchy.Units
import ScriptMachine.Proofs.Frames.Watch
import ScriptMachine.Proofs.Frames.Pile
import ScriptMachine.Proofs.Frames.Run
import ScriptMachine.Proofs.Frames.Life
import ScriptMachine.Proofs.Frames.Program
import ScriptMachine.Proofs.Handlers.Records
import ScriptMachine.Proofs.Handlers.Program
import ScriptMachine.Proofs.Frames.Heights
import ScriptMachine.Proofs.Codec
import ScriptMachine.Proofs.Joining.Rounds
import ScriptMachine.Proofs.Lifting.Limits
import ScriptMachine.Proofs.ReadBack
import ScriptMachine.Proofs.Capture
import ScriptMachine.Proofs.Containers.Comparing
import ScriptMachine.Proofs.Containers.Outline
import ScriptMachine.Proofs.Nesting.Bounded
import ScriptMachine.Proofs.Nesting.Enough
import ScriptMachine.Proofs.Calls.Arguments
import ScriptMachine.Proofs.Calls.Parameters
import ScriptMachine.Proofs.Calls.Program
import ScriptMachine.Proofs.Session.Result
import ScriptMachine.Proofs.Session.Stores
import ScriptMachine.Proofs.Constancy.Declared
import ScriptMachine.Proofs.Constancy.Forms
import ScriptMachine.Proofs.Constancy.Program
import ScriptMachine.Proofs.Folding
import ScriptMachine.Proofs.Hierarchy.Dispatch
import ScriptMachine.Proofs.Hierarchy.Program
import ScriptMachine.Proofs.Hierarchy.Walk
import ScriptMachine.Proofs.Spans.Forms
import ScriptMachine.Proofs.Spans.Program
import ScriptMachine.Proofs.Characters
import ScriptMachine.Proofs.HostData
import ScriptMachine.Proofs.Expression.MapLiteral
import ScriptMachine.Proofs.Configuration.Values
import ScriptMachine.Proofs.Configuration.Search
import ScriptMachine.Proofs.Expression.Division
import ScriptMachine.Proofs.Machine.Operands
import ScriptMachine.Proofs.Widths.Program
