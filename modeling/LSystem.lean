import LSystem.Symbol
import LSystem.Text.Blank
import LSystem.Number.Decimal
import LSystem.Number.Power
import LSystem.Number.Numeral
import LSystem.Number.Binary
import LSystem.Number.Shortest
import LSystem.Weight
import LSystem.Grammar.Error
import LSystem.Grammar.Production
import LSystem.Grammar.Listing
import LSystem.Random.ChaCha
import LSystem.Random.Stream
import LSystem.Rule.Basic
import LSystem.Rule.Selection
import LSystem.RuleSet
import LSystem.Expansion
import LSystem.Turtle.Point
import LSystem.Turtle.Basic
import LSystem.Turtle.Action
import LSystem.Turtle.ActionTable
import LSystem.Drawing.Basic
import LSystem.Drawing.Strokes
import LSystem.Drawing.Bounds
import LSystem.Interpreter.Handler
import LSystem.Interpreter.Error
import LSystem.Interpreter.Run
import LSystem.Interpreter.Basic
import LSystem.Pipeline
import LSystem.Json.Basic
import LSystem.Json.Number
import LSystem.Json.Reader
import LSystem.Codec.Turtle
import LSystem.Codec.Action
import LSystem.Codec.Drawing
import LSystem.Proofs.Bracketing
import LSystem.Proofs.Interpreter.Outcome
import LSystem.Proofs.Interpreter.Failure
import LSystem.Proofs.Interpreter.Concatenation
import LSystem.Proofs.Interpreter.Branch
import LSystem.Proofs.Expansion.Brackets
import LSystem.Proofs.Interpreter.Brackets
import LSystem.Proofs.Pipeline
import LSystem.Proofs.Expansion.Generations
import LSystem.Proofs.Number.PositiveSum
import LSystem.Proofs.Number.Single
import LSystem.Proofs.Rule.Valid
import LSystem.Proofs.Rule.Workbench
import LSystem.Proofs.Grammar.Spelling
import LSystem.Proofs.Grammar.Listing
import LSystem.Proofs.Rule.Merging
import LSystem.Proofs.Expansion.Deterministic
import LSystem.Proofs.Interpreter.Fusion
import LSystem.Proofs.Json.Tree
import LSystem.Proofs.Codec.Drawing
import LSystem.Proofs.Codec.Action
import LSystem.Proofs.Codec.RoundTrip
import LSystem.Proofs.Number.Order
import LSystem.Proofs.Number.Rounding
import LSystem.Proofs.Number.Monotone
import LSystem.Proofs.Number.Layout
import LSystem.Proofs.Random.Below
import LSystem.Proofs.Rule.Selection
import LSystem.Proofs.Expansion.Pass
import LSystem.Proofs.Interpreter.Trace
import LSystem.Proofs.Interpreter.Depth
import LSystem.Proofs.Turtle.Point
import LSystem.Proofs.Drawing.Strokes
import LSystem.Proofs.Interpreter.Pen
import LSystem.Proofs.Drawing.Bounds
import LSystem.Proofs.Grammar.Lines
import LSystem.Proofs.Rule.Construction
import LSystem.Proofs.Expansion.Growth
import LSystem.Proofs.Drawing.VisitingOrder
import LSystem.Proofs.Interpreter.Heading
import LSystem.Proofs.Interpreter.Relevance
import LSystem.Proofs.Turtle.ActionTable
import LSystem.Proofs.Interpreter.TableEdits
