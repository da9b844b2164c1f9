import ReactiveScript.Arena
import ReactiveScript.Main
import ReactiveScript.Syntax.Preorder
import ReactiveScript.Proofs.Token.Scanning
import ReactiveScript.Proofs.Token.Tiling
import ReactiveScript.Proofs.Grammar.Running
import ReactiveScript.Proofs.Grammar.Contract
import ReactiveScript.Proofs.Grammar.Statements
import ReactiveScript.Proofs.Grammar.Markup
import ReactiveScript.Proofs.Grammar.Expressions
import ReactiveScript.Proofs.Grammar.Levels
import ReactiveScript.Proofs.Progress
import ReactiveScript.Proofs.Acceptance
import ReactiveScript.Proofs.RoundTrip.Written
import ReactiveScript.Proofs.RoundTrip.Lexing
import ReactiveScript.Proofs.Grammar.Ending
import ReactiveScript.Proofs.RoundTrip.Standing
import ReactiveScript.Proofs.RoundTrip.Reading
import ReactiveScript.Proofs.RoundTrip.Emitted
import ReactiveScript.Proofs.RoundTrip
import ReactiveScript.Proofs.RoundTrip.Chains
import ReactiveScript.Proofs.Script.ModifierBlocks
import ReactiveScript.Proofs.Grammar.Moves
import ReactiveScript.Proofs.Grammar.Clean
import ReactiveScript.Proofs.Syntax.Pieces
import ReactiveScript.Proofs.Syntax.Shallow
import ReactiveScript.Proofs.Grammar.Bounds
import ReactiveScript.Proofs.NestingLimit
import ReactiveScript.Proofs.Script.Success
import ReactiveScript.Proofs.Script.Runtime
import ReactiveScript.Proofs.Script.Places
import ReactiveScript.Proofs.Source.Lines
import ReactiveScript.Proofs.Token.Located
import ReactiveScript.Proofs.Token.Names
import ReactiveScript.Proofs.Syntax.Nodes
import ReactiveScript.Proofs.Token.Locality
import ReactiveScript.Proofs.Token.Closing
import ReactiveScript.Proofs.Syntax.Holes
import ReactiveScript.Proofs.Syntax.Splitting
import ReactiveScript.Proofs.Syntax.Located
import ReactiveScript.Proofs.Syntax.Order
import ReactiveScript.Proofs.Grammar.Located
import ReactiveScript.Proofs.Locations
import ReactiveScript.Proofs.Grammar.Cleanly
import ReactiveScript.Proofs.Grammar.Covers
import ReactiveScript.Proofs.Grammar.Gathering
import ReactiveScript.Proofs.SourceOrder
import ReactiveScript.Proofs.Syntax.Alike
import ReactiveScript.Proofs.Templates
import ReactiveScript.Proofs.Grammar.Rounds
import ReactiveScript.Proofs.Grammar.Beside
import ReactiveScript.Proofs.Grammar.Follows
import ReactiveScript.Proofs.Grammar.Mirroring
import ReactiveScript.Proofs.Grammar.MirroredMarkup
import ReactiveScript.Proofs.Grammar.MirroredExpressions
import ReactiveScript.Proofs.Grammar.Embedding
import ReactiveScript.Proofs.Grammar.Units
import ReactiveScript.Proofs.Grouping
import ReactiveScript.Proofs.Interpolation
import ReactiveScript.Proofs.Ladders
import ReactiveScript.Proofs.OptionalChains
import ReactiveScript.Proofs.Script.UnknownModifiers
import ReactiveScript.Proofs.Script.Woven
import ReactiveScript.Proofs.Script.SliceAssignments
import ReactiveScript.Proofs.Token.Walks
import ReactiveScript.Proofs.Grammar.Steps
import ReactiveScript.Proofs.Grammar.Reached
import ReactiveScript.Proofs.HeaderLines
import ReactiveScript.Proofs.Grammar.Throughout
import ReactiveScript.Proofs.Grammar.StartsLine
import ReactiveScript.Proofs.Grammar.Laying
import ReactiveScript.Proofs.StatementLines
import ReactiveScript.Proofs.Token.Returns
import ReactiveScript.Proofs.LineEndings
import ReactiveScript.Proofs.Grammar.Turns
import ReactiveScript.Proofs.DepthErrors
import ReactiveScript.Proofs.Syntax.Children
import ReactiveScript.Proofs.Grammar.Tags
import ReactiveScript.Proofs.ElementChildren
import ReactiveScript.Proofs.AssignmentTargets
import ReactiveScript.Proofs.LongestMatch
import ReactiveScript.Proofs.Token.Quoting
import ReactiveScript.Proofs.LexicalSoundness
import ReactiveScript.Proofs.Number.Numeral
import ReactiveScript.Proofs.NumberTokens
import ReactiveScript.Proofs.Syntax.Occurrences
import ReactiveScript.Proofs.FreeNames
import ReactiveScript.Proofs.StepwiseReading
import ReactiveScript.Proofs.WrittenText
import ReactiveScript.Proofs.CookedText
import ReactiveScript.Proofs.LineTable
import ReactiveScript.Proofs.ArenaRegions
import ReactiveScript.Proofs.RestoredCounts
import ReactiveScript.Proofs.CommandFiles
