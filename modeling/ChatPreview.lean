import ChatPreview.Text.Excerpt
import ChatPreview.Command.Outline
import ChatPreview.Preview
import ChatPreview.Scan.Script
import ChatPreview.Workspace
import ChatPreview.CommandLine.Run
import ChatPreview.Main
import ChatPreview.Proofs.Alignment.Basic
import ChatPreview.Proofs.Alignment.Relocate
import ChatPreview.Proofs.Alignment.Token
import ChatPreview.Proofs.Line.Basic
import ChatPreview.Proofs.Line.Local
import ChatPreview.Proofs.Line.Read
import ChatPreview.Proofs.Line.Commands
import ChatPreview.Proofs.Line.Shift
import ChatPreview.Proofs.Wrap.Basic
import ChatPreview.Proofs.Wrap.Commands
import ChatPreview.Proofs.Message.Plain
import ChatPreview.Proofs.Message.Leaf
import ChatPreview.Proofs.Message.Rounds
import ChatPreview.Proofs.Message.Value
import ChatPreview.Proofs.Message.Whole
import ChatPreview.Proofs.Message.Commands
import ChatPreview.Proofs.Line.Tiles
import ChatPreview.Proofs.Preview.Stopped
import ChatPreview.Proofs.Message.Numbers
import ChatPreview.Proofs.Message.Unescape
import ChatPreview.Proofs.Component.Formats
import ChatPreview.Proofs.Preview.Document
import ChatPreview.Proofs.Message.Translate
import ChatPreview.Proofs.Nesting.Token
import ChatPreview.Proofs.Nesting.Message
import ChatPreview.Proofs.Preview.Recovered
import ChatPreview.Proofs.Message.Apart
import ChatPreview.Proofs.Message.Spacing
import ChatPreview.Proofs.Nodes.Equations
import ChatPreview.Proofs.Nesting.Limit
import ChatPreview.Proofs.Nodes.Descent
import ChatPreview.Proofs.Nodes.Shape
import ChatPreview.Proofs.Nodes.Alone
import ChatPreview.Proofs.Nodes.Isolated
import ChatPreview.Proofs.Nodes.Content
import ChatPreview.Proofs.Returns.Text
import ChatPreview.Proofs.Returns.Commands
import ChatPreview.Proofs.Returns.Previews
import ChatPreview.Proofs.Component.Equations
import ChatPreview.Proofs.Component.Schema
import ChatPreview.Proofs.Component.Faults
import ChatPreview.Proofs.Message.Distinct
import ChatPreview.Proofs.Component.Restyle
import ChatPreview.Proofs.Counter.Basic
import ChatPreview.Proofs.Counter.Token
import ChatPreview.Proofs.Counter.Commands
import ChatPreview.Proofs.Template.Execute
import ChatPreview.Proofs.CommandLine.Course
import ChatPreview.Proofs.CommandLine.Flags
import ChatPreview.Proofs.CommandLine.Trouble
import ChatPreview.Proofs.Place.Basic
import ChatPreview.Proofs.Place.Commands
import ChatPreview.Proofs.Workspace.Answers
import ChatPreview.Proofs.Workspace.Agreement
import ChatPreview.Proofs.Line.Chain
import ChatPreview.Proofs.Line.Quote
import ChatPreview.Proofs.Format.Markers
import ChatPreview.Proofs.Format.Numbered
import ChatPreview.Proofs.Format.Segments
import ChatPreview.Proofs.Message.Decoded
import ChatPreview.Proofs.Template.First
import ChatPreview.Proofs.Template.Written
import ChatPreview.Proofs.Component.Placed
import ChatPreview.Proofs.Component.Reach
import ChatPreview.Proofs.Component.Sequence
import ChatPreview.Proofs.Place.Positions
import ChatPreview.Proofs.Excerpt.Lines
import ChatPreview.Proofs.Excerpt.Shown
import ChatPreview.Proofs.Continuation.Greedy
import ChatPreview.Proofs.Continuation.Scanner
import ChatPreview.Proofs.Enclosure.Ends
import ChatPreview.Proofs.Enclosure.Commands
import ChatPreview.Proofs.Backtracking.Basic
import ChatPreview.Proofs.Backtracking.Evaluation
import ChatPreview.Proofs.Backtracking.Longest
