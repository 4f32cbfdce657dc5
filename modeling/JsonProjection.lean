import JsonProjection.Arrival
import JsonProjection.Benchmark.Employees
import JsonProjection.Benchmark.Report
import JsonProjection.CommandLine.Options
import JsonProjection.CommandLine.Projector
import JsonProjection.Delivery
import JsonProjection.Delivery.Handover
import JsonProjection.Error
import JsonProjection.Json.Printer
import JsonProjection.Json.StrictNumber
import JsonProjection.Json.StrictReader
import JsonProjection.Json.StrictToken
import JsonProjection.Json.Value
import JsonProjection.Lines
import JsonProjection.Main
import JsonProjection.Number.Binary64
import JsonProjection.Number.Count
import JsonProjection.Number.Decimal
import JsonProjection.Number.Digits
import JsonProjection.Number.Layout
import JsonProjection.Number.Numeral
import JsonProjection.Pool.Parallel
import JsonProjection.Pool.Request
import JsonProjection.Pool.Schedule
import JsonProjection.Pool.State
import JsonProjection.Projection.Engine
import JsonProjection.Projection.Error
import JsonProjection.Projection.Match
import JsonProjection.Projection.ModeName
import JsonProjection.Projection.Walker
import JsonProjection.Proofs.CommandLine.Tuning
import JsonProjection.Proofs.Delivery.Calls
import JsonProjection.Proofs.Delivery.Handover
import JsonProjection.Proofs.Delivery.Settlement
import JsonProjection.Proofs.Engine.Checked
import JsonProjection.Proofs.Engine.Chunks
import JsonProjection.Proofs.Engine.Depth
import JsonProjection.Proofs.Engine.Drain
import JsonProjection.Proofs.Engine.Isolation
import JsonProjection.Proofs.Engine.Joined
import JsonProjection.Proofs.Engine.Language
import JsonProjection.Proofs.Engine.Leaves
import JsonProjection.Proofs.Engine.Operations
import JsonProjection.Proofs.Engine.Printed
import JsonProjection.Proofs.Engine.Project
import JsonProjection.Proofs.Engine.Prompt
import JsonProjection.Proofs.Engine.Reached
import JsonProjection.Proofs.Engine.Retained
import JsonProjection.Proofs.Engine.Skipped
import JsonProjection.Proofs.Engine.Standard
import JsonProjection.Proofs.Engine.Stream
import JsonProjection.Proofs.Json.Members
import JsonProjection.Proofs.Json.Numbers
import JsonProjection.Proofs.Json.Tokens
import JsonProjection.Proofs.Number.Classes
import JsonProjection.Proofs.Number.Grammar
import JsonProjection.Proofs.Number.Printed
import JsonProjection.Proofs.Number.Rounding
import JsonProjection.Proofs.Pool.Answers
import JsonProjection.Proofs.Pool.Breakage
import JsonProjection.Proofs.Pool.Collection
import JsonProjection.Proofs.Pool.Desk
import JsonProjection.Proofs.Pool.Order
import JsonProjection.Proofs.Pool.Parallel
import JsonProjection.Proofs.Pool.Progress
import JsonProjection.Proofs.Pool.Room
import JsonProjection.Proofs.Pool.Stopping
import JsonProjection.Proofs.Pool.Tickets
import JsonProjection.Proofs.Pool.Transition
import JsonProjection.Proofs.Selection.Compile
import JsonProjection.Proofs.Selection.Contained
import JsonProjection.Proofs.Selection.Distinct
import JsonProjection.Proofs.Selection.Grammar
import JsonProjection.Proofs.Selection.Index
import JsonProjection.Proofs.Selection.Layout
import JsonProjection.Proofs.Selection.Nesting
import JsonProjection.Proofs.Selection.Printed
import JsonProjection.Proofs.Selection.Viable
import JsonProjection.Proofs.Source.Chunks
import JsonProjection.Proofs.Source.Ended
import JsonProjection.Proofs.Source.Framing
import JsonProjection.Proofs.Source.Reads
import JsonProjection.Proofs.Source.Records
import JsonProjection.Proofs.Subscription.Background
import JsonProjection.Proofs.Subscription.Items
import JsonProjection.Proofs.Syntax.Narrow
import JsonProjection.Proofs.Syntax.Parts
import JsonProjection.Proofs.Syntax.Printed
import JsonProjection.Proofs.Syntax.Project
import JsonProjection.Proofs.Syntax.Readable
import JsonProjection.Proofs.Syntax.Tree
import JsonProjection.Proofs.Text.Encoding
import JsonProjection.Proofs.Token.Brackets
import JsonProjection.Proofs.Token.Cache
import JsonProjection.Proofs.Token.Follow
import JsonProjection.Proofs.Token.Layout
import JsonProjection.Proofs.Token.Policy
import JsonProjection.Proofs.Token.Printed
import JsonProjection.Proofs.Token.Ready
import JsonProjection.Proofs.Token.Resumption
import JsonProjection.Proofs.Token.Scan
import JsonProjection.Proofs.Token.Shift
import JsonProjection.Proofs.Token.Spans
import JsonProjection.Proofs.Token.Spelling
import JsonProjection.Proofs.Walk.Bounded
import JsonProjection.Proofs.Walk.Capture
import JsonProjection.Proofs.Walk.Carry
import JsonProjection.Proofs.Walk.Checked
import JsonProjection.Proofs.Walk.Completion
import JsonProjection.Proofs.Walk.Depth
import JsonProjection.Proofs.Walk.Document
import JsonProjection.Proofs.Walk.Emission
import JsonProjection.Proofs.Walk.Leaves
import JsonProjection.Proofs.Walk.Parts
import JsonProjection.Proofs.Walk.Prompt
import JsonProjection.Proofs.Walk.Recast
import JsonProjection.Proofs.Walk.Refusal
import JsonProjection.Proofs.Walk.Roots
import JsonProjection.Proofs.Walk.Run
import JsonProjection.Proofs.Walk.Single
import JsonProjection.Proofs.Walk.Skipped
import JsonProjection.Proofs.Walk.Sound
import JsonProjection.Proofs.Walk.Value
import JsonProjection.Records
import JsonProjection.Selection.Error
import JsonProjection.Selection.Group
import JsonProjection.Selection.Indexed
import JsonProjection.Selection.Lexeme
import JsonProjection.Selection.Query
import JsonProjection.Settings.Basic
import JsonProjection.Settings.EnvFile
import JsonProjection.Source
import JsonProjection.Stats
import JsonProjection.Subscription
import JsonProjection.Text.Alphanumeric
import JsonProjection.Text.Blank
import JsonProjection.Text.Utf8
import JsonProjection.Token.Basic
import JsonProjection.Token.Error
import JsonProjection.Token.Lexer
import JsonProjection.Token.StringCache
