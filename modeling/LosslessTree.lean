import LosslessTree.Check
import LosslessTree.Command
import LosslessTree.Database
import LosslessTree.Diagnostic.Basic
import LosslessTree.Diagnostic.Canvas
import LosslessTree.Diagnostic.Excerpt
import LosslessTree.Diagnostic.Render
import LosslessTree.Diagnostic.Window
import LosslessTree.Grammar.Calls
import LosslessTree.Grammar.Conservation
import LosslessTree.Grammar.Descent
import LosslessTree.Grammar.Expression
import LosslessTree.Grammar.Item
import LosslessTree.Grammar.Marking
import LosslessTree.Grammar.Name
import LosslessTree.Grammar.Parse
import LosslessTree.Grammar.Pattern
import LosslessTree.Grammar.Problem
import LosslessTree.Grammar.Rule
import LosslessTree.Grammar.Run
import LosslessTree.Grammar.TypeForm
import LosslessTree.Kind.Basic
import LosslessTree.Kind.Category
import LosslessTree.Kind.Lookup
import LosslessTree.Kind.Name
import LosslessTree.Kind.Set
import LosslessTree.Kind.Words
import LosslessTree.Main
import LosslessTree.Outline
import LosslessTree.Proofs.Check.Anchoring
import LosslessTree.Proofs.Check.Bounds
import LosslessTree.Proofs.Check.Duplicates
import LosslessTree.Proofs.Check.Merging
import LosslessTree.Proofs.Grammar.Accepting
import LosslessTree.Proofs.Grammar.Blocks
import LosslessTree.Proofs.Grammar.Bracketing
import LosslessTree.Proofs.Grammar.Building
import LosslessTree.Proofs.Grammar.Certifying
import LosslessTree.Proofs.Grammar.Confinement
import LosslessTree.Proofs.Grammar.Descent
import LosslessTree.Proofs.Grammar.Elements
import LosslessTree.Proofs.Grammar.Enclosing
import LosslessTree.Proofs.Grammar.Exhausting
import LosslessTree.Proofs.Grammar.Files
import LosslessTree.Proofs.Grammar.Form
import LosslessTree.Proofs.Grammar.Giving
import LosslessTree.Proofs.Grammar.Language
import LosslessTree.Proofs.Grammar.Likeness
import LosslessTree.Proofs.Grammar.Mirroring
import LosslessTree.Proofs.Grammar.Operands
import LosslessTree.Proofs.Grammar.Parts
import LosslessTree.Proofs.Grammar.Passing
import LosslessTree.Proofs.Grammar.Ranking
import LosslessTree.Proofs.Grammar.Readable
import LosslessTree.Proofs.Grammar.Recognition
import LosslessTree.Proofs.Grammar.Replay
import LosslessTree.Proofs.Grammar.Reporting
import LosslessTree.Proofs.Grammar.Rereading
import LosslessTree.Proofs.Grammar.Sealing
import LosslessTree.Proofs.Grammar.Shape
import LosslessTree.Proofs.Grammar.Spelling
import LosslessTree.Proofs.Grammar.Succession
import LosslessTree.Proofs.Grammar.Termination
import LosslessTree.Proofs.Grammar.Tracing
import LosslessTree.Proofs.Grammar.Wholeness
import LosslessTree.Proofs.Grammar.Wrapping
import LosslessTree.Proofs.Kind.Gathering
import LosslessTree.Proofs.Kind.Packing
import LosslessTree.Proofs.Outline.Collecting
import LosslessTree.Proofs.Outline.Indented
import LosslessTree.Proofs.Outline.Outlining
import LosslessTree.Proofs.Outline.Reaching
import LosslessTree.Proofs.Printing.Built
import LosslessTree.Proofs.Printing.Lexed
import LosslessTree.Proofs.Printing.Parsed
import LosslessTree.Proofs.Printing.ReadBack
import LosslessTree.Proofs.Printing.Roundtrip
import LosslessTree.Proofs.Printing.Viewed
import LosslessTree.Proofs.Printing.Written
import LosslessTree.Proofs.Snippet.Accepting
import LosslessTree.Proofs.Snippet.Calls
import LosslessTree.Proofs.Snippet.Composing
import LosslessTree.Proofs.Snippet.Extracting
import LosslessTree.Proofs.Snippet.Filling
import LosslessTree.Proofs.Snippet.Framed
import LosslessTree.Proofs.Text.Unquoting
import LosslessTree.Proofs.Token.Cursors
import LosslessTree.Proofs.Token.Cutting
import LosslessTree.Proofs.Token.Isolating
import LosslessTree.Proofs.Token.Joining
import LosslessTree.Proofs.Token.Lexing
import LosslessTree.Proofs.Token.Lines
import LosslessTree.Proofs.Token.Munching
import LosslessTree.Proofs.Token.Passages
import LosslessTree.Proofs.Token.Placing
import LosslessTree.Proofs.Token.Replacing
import LosslessTree.Proofs.Token.Scanning
import LosslessTree.Proofs.Token.Seams
import LosslessTree.Proofs.Token.Serving
import LosslessTree.Proofs.Token.Strands
import LosslessTree.Proofs.Token.Tiling
import LosslessTree.Proofs.Token.Truncating
import LosslessTree.Proofs.Token.Wording
import LosslessTree.Proofs.Tree.Abutting
import LosslessTree.Proofs.Tree.Acceptance
import LosslessTree.Proofs.Tree.Arenas
import LosslessTree.Proofs.Tree.Attaching
import LosslessTree.Proofs.Tree.Balance
import LosslessTree.Proofs.Tree.Carrying
import LosslessTree.Proofs.Tree.Chain
import LosslessTree.Proofs.Tree.Concatenation
import LosslessTree.Proofs.Tree.Covering
import LosslessTree.Proofs.Tree.Dumping
import LosslessTree.Proofs.Tree.Embedding
import LosslessTree.Proofs.Tree.Gaps
import LosslessTree.Proofs.Tree.Glimpses
import LosslessTree.Proofs.Tree.History
import LosslessTree.Proofs.Tree.Hulls
import LosslessTree.Proofs.Tree.Listing
import LosslessTree.Proofs.Tree.Nesting
import LosslessTree.Proofs.Tree.Numbering
import LosslessTree.Proofs.Tree.Recovery
import LosslessTree.Proofs.Tree.Resolving
import LosslessTree.Proofs.Tree.RoundTrip
import LosslessTree.Proofs.Tree.Sequence
import LosslessTree.Proofs.Tree.Site
import LosslessTree.Proofs.Tree.Skeleton
import LosslessTree.Proofs.Tree.Skipping
import LosslessTree.Proofs.Tree.Steering
import LosslessTree.Proofs.Tree.Substance
import LosslessTree.Proofs.Tree.Surroundings
import LosslessTree.Proofs.Tree.Touching
import LosslessTree.Proofs.Tree.Touring
import LosslessTree.Proofs.Tree.Trimming
import LosslessTree.Proofs.View.Arranged
import LosslessTree.Proofs.View.Handling
import LosslessTree.Proofs.View.Innermost
import LosslessTree.Proofs.View.Operators
import LosslessTree.Proofs.View.Queries
import LosslessTree.Proofs.View.Reading
import LosslessTree.Snippet
import LosslessTree.Text.Basic
import LosslessTree.Text.Position
import LosslessTree.Text.Quoted
import LosslessTree.Text.Span
import LosslessTree.Text.Trim
import LosslessTree.Token.Basic
import LosslessTree.Token.Cursor
import LosslessTree.Token.Lexeme
import LosslessTree.Token.Lexer
import LosslessTree.Token.Stream
import LosslessTree.Token.Trivia
import LosslessTree.Tree.Address
import LosslessTree.Tree.Arena
import LosslessTree.Tree.Assembly
import LosslessTree.Tree.Dump
import LosslessTree.Tree.Ends
import LosslessTree.Tree.Forest
import LosslessTree.Tree.Layout
import LosslessTree.Tree.Navigation
import LosslessTree.Tree.Search
import LosslessTree.Tree.Seeking
import LosslessTree.Tree.Walk
import LosslessTree.Unicode.Blank
import LosslessTree.Unicode.Letter
import LosslessTree.Unicode.Printable
import LosslessTree.Unicode.Ranges
import LosslessTree.Unicode.Width
import LosslessTree.View.Basic
import LosslessTree.View.Expression
import LosslessTree.View.Handlers
import LosslessTree.View.Item
import LosslessTree.View.Pattern
import LosslessTree.View.Production
import LosslessTree.View.Selection
