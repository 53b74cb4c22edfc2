import TurtleGraphics.Main
import TurtleGraphics.Tree.Description
import TurtleGraphics.Proofs.Run.Log
import TurtleGraphics.Proofs.Run.Disturbance
import TurtleGraphics.Proofs.Run.Call
import TurtleGraphics.Proofs.Run.Step
import TurtleGraphics.Proofs.Forest.Shape
import TurtleGraphics.Proofs.Forest.Growth
import TurtleGraphics.Proofs.Grammar.Phrase
import TurtleGraphics.Proofs.Grammar.Reading
import TurtleGraphics.Proofs.Grammar.Building
import TurtleGraphics.Proofs.Grammar.Rules
import TurtleGraphics.Proofs.Grammar.Sound.Expression
import TurtleGraphics.Proofs.Grammar.Sound.Command
import TurtleGraphics.Proofs.Grammar.Complete.Command
import TurtleGraphics.Proofs.Grammar.Parse
import TurtleGraphics.Proofs.Grammar.Shape
import TurtleGraphics.Proofs.Grammar.Stack
import TurtleGraphics.Proofs.Grammar.Tidy
import TurtleGraphics.Proofs.Grammar.Discipline
import TurtleGraphics.Proofs.Grammar.Rendering
import TurtleGraphics.Proofs.Token.Line
import TurtleGraphics.Proofs.Grammar.Lookahead
import TurtleGraphics.Proofs.Grammar.Viable.Expression
import TurtleGraphics.Proofs.Grammar.Viable.Command
import TurtleGraphics.Proofs.Grammar.Halt
import TurtleGraphics.Proofs.Grammar.Earliest
import TurtleGraphics.Proofs.Run.Safety
import TurtleGraphics.Proofs.Forest.Ancestry
import TurtleGraphics.Proofs.Forest.Upkeep
import TurtleGraphics.Proofs.Forest.Roots
import TurtleGraphics.Proofs.Token.Partition
import TurtleGraphics.Proofs.Token.Delivery
import TurtleGraphics.Proofs.Tree.Written
import TurtleGraphics.Proofs.Token.Spelling
import TurtleGraphics.Proofs.Run.Scope
import TurtleGraphics.Proofs.Run.Renaming
import TurtleGraphics.Proofs.Run.Parameters
import TurtleGraphics.Proofs.Run.Stop
import TurtleGraphics.Proofs.Run.Hold
import TurtleGraphics.Proofs.Run.Access
import TurtleGraphics.Proofs.Token.Cursor
import TurtleGraphics.Proofs.Turtle.Pose
import TurtleGraphics.Proofs.Run.Termination
import TurtleGraphics.Proofs.Run.Dispatch
import TurtleGraphics.Proofs.Run.Failure
import TurtleGraphics.Proofs.Token.Tracking
import TurtleGraphics.Proofs.Token.Number
import TurtleGraphics.Proofs.Grammar.Longest
import TurtleGraphics.Proofs.Run.Unfinished
import TurtleGraphics.Proofs.Token.Boundary
import TurtleGraphics.Proofs.Token.Joined
import TurtleGraphics.Proofs.Grammar.Account
import TurtleGraphics.Proofs.Grammar.Layout
import TurtleGraphics.Proofs.Forest.Effect
import TurtleGraphics.Proofs.Grammar.Composition
import TurtleGraphics.Proofs.Tree.RoundTrip
import TurtleGraphics.Proofs.Forest.Undo
import TurtleGraphics.Proofs.Forest.Search
import TurtleGraphics.Proofs.Decimal.Truncation
import TurtleGraphics.Proofs.Turtle.Ink
import TurtleGraphics.Proofs.Run.Color
import TurtleGraphics.Proofs.CommandLine.Outcome
