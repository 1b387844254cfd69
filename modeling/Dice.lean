import Dice.Command.Basic
import Dice.Command.Logged
import Dice.Command.Options
import Dice.Command.Usage
import Dice.Datum
import Dice.Datum.Parts
import Dice.Decimal.Double
import Dice.Decimal.Shortest
import Dice.Die
import Dice.Draws
import Dice.Evaluation.Basic
import Dice.Evaluation.Counting
import Dice.Evaluation.Generation
import Dice.Evaluation.Selection
import Dice.Event
import Dice.Grammar
import Dice.Log.Book
import Dice.Log.Files
import Dice.Log.Handler
import Dice.Log.Layout
import Dice.Log.Record
import Dice.Main
import Dice.Modifier
import Dice.Moment
import Dice.Node
import Dice.Node.Data
import Dice.Package.Declaration
import Dice.Package.Dialogue
import Dice.Package.Folder
import Dice.Package.Task
import Dice.Parser.Basic
import Dice.Parser.Cursor
import Dice.Path
import Dice.Pattern
import Dice.Problem
import Dice.Release
import Dice.Report
import Dice.Roll
import Dice.Seed
import Dice.Session
import Dice.Settings
import Dice.Source.Basic
import Dice.Source.Bounds
import Dice.Source.Twister
import Dice.Symbol
import Dice.Text.Blank
import Dice.Text.Dump
import Dice.Text.Lines
import Dice.Text.Numeral
import Dice.Text.Printable
import Dice.Text.Quoted
import Dice.Text.Removal
import Dice.Text.ShellWords
import Dice.Text.Wildcard
import Dice.Proofs.Draws.Returns
import Dice.Proofs.Draws.Run
import Dice.Proofs.Evaluation.Generation
import Dice.Proofs.Evaluation.Growth
import Dice.Proofs.Evaluation.Sum
import Dice.Proofs.Evaluation.Replay
import Dice.Proofs.Parser.Reading
import Dice.Proofs.Parser.Taking
import Dice.Proofs.Parser.Lexing
import Dice.Proofs.Notation.Language
import Dice.Proofs.Notation.Soundness
import Dice.Proofs.Notation.Completeness
import Dice.Proofs.Notation.Acceptance
import Dice.Proofs.Notation.Image
import Dice.Proofs.Notation.Printing
import Dice.Proofs.Draws.Faultless
import Dice.Proofs.Evaluation.Handling
import Dice.Proofs.Evaluation.LifeCycle
import Dice.Proofs.Evaluation.Phases
import Dice.Proofs.Evaluation.Safety
import Dice.Proofs.Evaluation.Stages
import Dice.Proofs.Evaluation.Independence
import Dice.Proofs.Notation.Readings
import Dice.Proofs.Evaluation.Finalization
import Dice.Proofs.Evaluation.Ranking
import Dice.Proofs.Evaluation.Interleaving
import Dice.Proofs.Notation.Composition
import Dice.Proofs.Evaluation.Nesting
import Dice.Proofs.Source.Ranged
import Dice.Proofs.Evaluation.Seeded
import Dice.Proofs.Command.Conversation
import Dice.Proofs.Source.Twister
import Dice.Proofs.Command.Seeding
import Dice.Proofs.Evaluation.Heredity
import Dice.Proofs.Evaluation.Unknown
import Dice.Proofs.Evaluation.Faces
import Dice.Proofs.Parser.Advancing
import Dice.Proofs.Notation.Refusal
import Dice.Proofs.Command.Blocks
import Dice.Proofs.Source.Bounds
import Dice.Proofs.Session.Atomicity
import Dice.Proofs.Evaluation.Chains
import Dice.Proofs.Evaluation.ChainRuns
import Dice.Proofs.Evaluation.Rerolling
import Dice.Proofs.Evaluation.Exploding
import Dice.Proofs.Evaluation.Agreement
import Dice.Proofs.Evaluation.Conservation
import Dice.Proofs.Evaluation.Selection
import Dice.Proofs.Evaluation.Survivors
import Dice.Proofs.Evaluation.Closing
import Dice.Proofs.Evaluation.Complement
import Dice.Proofs.Evaluation.StaticRange
import Dice.Proofs.Parser.Failing
import Dice.Proofs.Notation.Stopping
import Dice.Proofs.Parser.Composed
import Dice.Proofs.Parser.Shifting
import Dice.Proofs.Notation.Parsers
import Dice.Proofs.Parser.Choosing
import Dice.Proofs.Parser.Nesting
import Dice.Proofs.Notation.Modifiers
import Dice.Proofs.Evaluation.Terms
import Dice.Proofs.Report.Display
import Dice.Proofs.Report.Steps
import Dice.Proofs.Evaluation.Uncounted
import Dice.Proofs.Report.Plain
import Dice.Proofs.Settings.Lookup
import Dice.Proofs.Parser.Repeating
