import FormulaEditor.Caret.Basic
import FormulaEditor.Caret.Movement
import FormulaEditor.Caret.Selection
import FormulaEditor.CommandLine
import FormulaEditor.Decimal.Display
import FormulaEditor.Decimal.Reading
import FormulaEditor.Decimal.Shortest
import FormulaEditor.Direction
import FormulaEditor.Document.Basic
import FormulaEditor.Document.Clipboard
import FormulaEditor.Document.Compact
import FormulaEditor.Document.Delete
import FormulaEditor.Document.Insert
import FormulaEditor.Document.Words
import FormulaEditor.Expression.Compiler
import FormulaEditor.Expression.Frame
import FormulaEditor.Expression.Options
import FormulaEditor.Expression.Progress
import FormulaEditor.Formula.Basic
import FormulaEditor.Formula.Element
import FormulaEditor.Formula.Path
import FormulaEditor.Formula.Plant
import FormulaEditor.Formula.Writer
import FormulaEditor.Main
import FormulaEditor.Misuse
import FormulaEditor.Node.Basic
import FormulaEditor.Node.Outline
import FormulaEditor.Operand
import FormulaEditor.Parens
import FormulaEditor.Row.Basic
import FormulaEditor.Row.Slider
import FormulaEditor.Session
import FormulaEditor.Settings
import FormulaEditor.Symbol.Greek
import FormulaEditor.Symbol.ScriptGlyph
import FormulaEditor.Symbol.Word
import FormulaEditor.Tex.Command
import FormulaEditor.Tex.Ending
import FormulaEditor.Tex.Lexer
import FormulaEditor.Tex.ParseError
import FormulaEditor.Tex.Reader
import FormulaEditor.Tex.Token
import FormulaEditor.Tex.Writer
import FormulaEditor.Text.Blank
import FormulaEditor.Text.Italic
import FormulaEditor.Text.Json
import FormulaEditor.Text.Numeral
import FormulaEditor.Text.Quoted
import FormulaEditor.Unicode.Alphabetic
import FormulaEditor.Unicode.Class
import FormulaEditor.Unicode.CodeRanges
import FormulaEditor.Unicode.DecimalDigit
import FormulaEditor.Unicode.GraphemeExtend
import FormulaEditor.Unicode.Invisible
import FormulaEditor.Unicode.Mark
import FormulaEditor.Unicode.Numeral
import FormulaEditor.Unicode.Recent
import FormulaEditor.Proofs.Formula.Links
import FormulaEditor.Proofs.Outcome
import FormulaEditor.Proofs.Node.Depth
import FormulaEditor.Proofs.Formula.Nesting
import FormulaEditor.Proofs.Formula.Planting
import FormulaEditor.Proofs.Formula.Splicing
import FormulaEditor.Proofs.Caret.Movement
import FormulaEditor.Proofs.Caret.Chain
import FormulaEditor.Proofs.Caret.Selection
import FormulaEditor.Proofs.Document.Vacating
import FormulaEditor.Proofs.Document.Delete
import FormulaEditor.Proofs.Document.Words
import FormulaEditor.Proofs.Document.Opening
import FormulaEditor.Proofs.Document.Insert
import FormulaEditor.Proofs.Tex.Notation
import FormulaEditor.Proofs.Tex.Legible
import FormulaEditor.Proofs.Document.Clipboard
import FormulaEditor.Proofs.Document.Compact
import FormulaEditor.Proofs.Session.Edits
import FormulaEditor.Proofs.Session.Reached
import FormulaEditor.Proofs.Formula.Additions
import FormulaEditor.Proofs.Formula.Snapshot
import FormulaEditor.Proofs.Formula.Writing
import FormulaEditor.Proofs.Tex.Lexing
import FormulaEditor.Proofs.Tex.Tokens
import FormulaEditor.Proofs.Tex.Offsets
import FormulaEditor.Proofs.Tex.Reading
import FormulaEditor.Proofs.Tex.Canonical
import FormulaEditor.Proofs.Tex.RoundTrip
import FormulaEditor.Proofs.Tex.Settled
import FormulaEditor.Proofs.Expression.Frame
import FormulaEditor.Proofs.Expression.Sums
import FormulaEditor.Proofs.Expression.Steps
import FormulaEditor.Proofs.Text.Characters
import FormulaEditor.Proofs.Text.Numeral
import FormulaEditor.Proofs.Text.Alike
import FormulaEditor.Proofs.Expression.Writing
import FormulaEditor.Proofs.Expression.Margin
import FormulaEditor.Proofs.Expression.Balanced
import FormulaEditor.Proofs.Expression.Excess
import FormulaEditor.Proofs.Expression.Isolation
import FormulaEditor.Proofs.Expression.Naming
import FormulaEditor.Proofs.Expression.Loops
import FormulaEditor.Proofs.Expression.Uniform
import FormulaEditor.Proofs.Expression.Accumulators
import FormulaEditor.Proofs.Expression.Statements
import FormulaEditor.Proofs.Expression.Promotion
import FormulaEditor.Proofs.Expression.Apart
import FormulaEditor.Proofs.Expression.Related
import FormulaEditor.Proofs.Expression.Difference
import FormulaEditor.Proofs.Expression.Exponent
import FormulaEditor.Proofs.Expression.Argument
import FormulaEditor.Proofs.Expression.Steady
import FormulaEditor.Proofs.Node.Gap
import FormulaEditor.Proofs.Caret.Order
import FormulaEditor.Proofs.Formula.Embedding
import FormulaEditor.Proofs.Caret.Embedding
import FormulaEditor.Proofs.Document.Embedding
import FormulaEditor.Proofs.Document.EmbeddedInsert
import FormulaEditor.Proofs.Document.Compaction
import FormulaEditor.Proofs.Session.Requests
import FormulaEditor.Proofs.Session.Compaction
import FormulaEditor.Proofs.Symbol.Word
import FormulaEditor.Proofs.Formula.Stored
import FormulaEditor.Proofs.Document.Legible
import FormulaEditor.Proofs.Session.Keyboard
import FormulaEditor.Proofs.Session.Ignored
import FormulaEditor.Proofs.Caret.Hull
import FormulaEditor.Proofs.Expression.Lasting
import FormulaEditor.Proofs.Expression.Signs
import FormulaEditor.Proofs.Decimal.Plain
import FormulaEditor.Proofs.Formula.Root
import FormulaEditor.Proofs.Session.Legible
import FormulaEditor.Proofs.Document.Figures
import FormulaEditor.Proofs.Expression.Literal
import FormulaEditor.Proofs.Expression.Level
import FormulaEditor.Proofs.Expression.Postfix
import FormulaEditor.Proofs.Row.Slider
import FormulaEditor.Proofs.Session.Slider
import FormulaEditor.Proofs.Operand
import FormulaEditor.Proofs.Operand.Extent
import FormulaEditor.Proofs.Formula.Leaves
import FormulaEditor.Proofs.Formula.GivingWay
import FormulaEditor.Proofs.Document.Deletion
import FormulaEditor.Proofs.Session.Deletion
import FormulaEditor.Proofs.Document.Seam
import FormulaEditor.Proofs.Operand.Matched
import FormulaEditor.Proofs.Formula.Amending
import FormulaEditor.Proofs.Document.Around
import FormulaEditor.Proofs.Session.Setting
import FormulaEditor.Proofs.Document.Wrapping
import FormulaEditor.Proofs.Document.Joining
import FormulaEditor.Proofs.Session.Wrapping
import FormulaEditor.Proofs.Formula.Locality
import FormulaEditor.Proofs.Document.Pasting
import FormulaEditor.Proofs.Session.Pasting
import FormulaEditor.Proofs.Document.Undoing
import FormulaEditor.Proofs.Session.Undoing
import FormulaEditor.Proofs.Symbol.Splitting
import FormulaEditor.Proofs.Document.Rereading
import FormulaEditor.Proofs.Document.Settling
import FormulaEditor.Proofs.Document.Raising
import FormulaEditor.Proofs.Document.Exponent
import FormulaEditor.Proofs.Session.Raised
import FormulaEditor.Proofs.Tex.Layout
import FormulaEditor.Proofs.Tex.Spelling
import FormulaEditor.Proofs.Tex.Spacing
import FormulaEditor.Proofs.Tex.Matching
import FormulaEditor.Proofs.Tex.Blanks
import FormulaEditor.Proofs.Tex.Errors
import FormulaEditor.Proofs.Parens
import FormulaEditor.Proofs.Row.Shape
import FormulaEditor.Proofs.Tex.Tiling
import FormulaEditor.Proofs.Tex.Meaningful
import FormulaEditor.Proofs.CommandLine
import FormulaEditor.Proofs.Session.Copying
import FormulaEditor.Proofs.Tex.Symbols
import FormulaEditor.Proofs.Session.Typing
import FormulaEditor.Proofs.Text.Runs
import FormulaEditor.Proofs.Symbol.Cuts
