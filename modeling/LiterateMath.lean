import LiterateMath.Region
import LiterateMath.Slice
import LiterateMath.Statement
import LiterateMath.Parse.Statement
import LiterateMath.Main
import LiterateMath.Number.Arithmetic
import LiterateMath.Proofs.Session
import LiterateMath.Proofs.Condensing
import LiterateMath.Proofs.Condensation
import LiterateMath.Proofs.Precedence
import LiterateMath.Proofs.Infix
import LiterateMath.Proofs.Seams
import LiterateMath.Proofs.Places.Running
import LiterateMath.Proofs.Brackets
import LiterateMath.Proofs.Splice
import LiterateMath.Proofs.Calls
import LiterateMath.Proofs.Reading
import LiterateMath.Proofs.Surroundings
import LiterateMath.Proofs.Passes
import LiterateMath.Proofs.Lowering
import LiterateMath.Proofs.Operands
import LiterateMath.Proofs.Fraction
import LiterateMath.Proofs.Composition
import LiterateMath.Proofs.Comments
import LiterateMath.Proofs.Prose
import LiterateMath.Proofs.Numerals
import LiterateMath.Proofs.Printing.Tokens
import LiterateMath.Proofs.Printing.Layout
import LiterateMath.Proofs.Printing.Legible
import LiterateMath.Proofs.Printing.Lexing
import LiterateMath.Proofs.Printing.Gathering
import LiterateMath.Proofs.Printing.Reading
import LiterateMath.Proofs.Printing.RoundTrip
import LiterateMath.Proofs.Closure
import LiterateMath.Proofs.Stopping
import LiterateMath.Proofs.Asking
import LiterateMath.Proofs.Literals
import LiterateMath.Proofs.Courses
import LiterateMath.Proofs.Blanks
import LiterateMath.Proofs.Whitespace
import LiterateMath.Proofs.Strictness
import LiterateMath.Proofs.Locality
import LiterateMath.Proofs.Commuting
import LiterateMath.Proofs.Arithmetic
import LiterateMath.Proofs.Kinds
import LiterateMath.Proofs.Strays
import LiterateMath.Proofs.Tiling
import LiterateMath.Proofs.Parting
import LiterateMath.Proofs.Stretches
import LiterateMath.Proofs.Extracts
import LiterateMath.Proofs.Pairing
import LiterateMath.Proofs.Naming
import LiterateMath.Proofs.Limits
import LiterateMath.Proofs.Arguments
import LiterateMath.Proofs.Building.Steps
import LiterateMath.Proofs.Building.Passes
import LiterateMath.Proofs.Building.Settled
import LiterateMath.Proofs.Building.Stacks
import LiterateMath.Proofs.Building.Values
import LiterateMath.Proofs.Building.Statements
import LiterateMath.Proofs.Building.Endings
import LiterateMath.Proofs.Separators
import LiterateMath.Proofs.Markers
import LiterateMath.Proofs.Capturing
import LiterateMath.Proofs.Sizing.Passes
import LiterateMath.Proofs.Sizing.Statements
import LiterateMath.Proofs.Sizing.Documents
import LiterateMath.Proofs.Settling
import LiterateMath.Proofs.Exactness
import LiterateMath.Proofs.Tallies
import LiterateMath.Proofs.Canonical
import LiterateMath.Proofs.Deepening
import LiterateMath.Proofs.Rules
