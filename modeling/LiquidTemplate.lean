import LiquidTemplate.Document
import LiquidTemplate.Node.Json
import LiquidTemplate.Node.Walk
import LiquidTemplate.Command
import LiquidTemplate.Main
import LiquidTemplate.Proofs.Nesting.Acceptance
import LiquidTemplate.Proofs.Nesting.Listing
import LiquidTemplate.Proofs.Nesting.Leniency
import LiquidTemplate.Proofs.Geometry.Document
import LiquidTemplate.Proofs.Geometry.Coverage
import LiquidTemplate.Proofs.Embedding.Document
import LiquidTemplate.Proofs.Citation.Document
import LiquidTemplate.Proofs.Failure.Reading
import LiquidTemplate.Proofs.Origin.Dash
import LiquidTemplate.Proofs.Fallback.Modes
import LiquidTemplate.Proofs.Nesting.Discipline
import LiquidTemplate.Proofs.Agreement.Documents
import LiquidTemplate.Proofs.Agreement.Lines
import LiquidTemplate.Proofs.Nesting.Bound
import LiquidTemplate.Proofs.Nesting.Branches
import LiquidTemplate.Proofs.Nesting.Context
import LiquidTemplate.Proofs.Nesting.Dangling
import LiquidTemplate.Proofs.Nesting.Recovery
import LiquidTemplate.Proofs.Writing.Text
import LiquidTemplate.Proofs.Writing.Delimiters
import LiquidTemplate.Proofs.Writing.Verbatim
import LiquidTemplate.Proofs.Writing.Element
import LiquidTemplate.Proofs.Writing.Variable
import LiquidTemplate.Proofs.Writing.Name
import LiquidTemplate.Proofs.Condition.Clauses
import LiquidTemplate.Proofs.Nesting.Blame
import LiquidTemplate.Proofs.Placeholder.Reading
import LiquidTemplate.Proofs.Rule.Remembering
import LiquidTemplate.Proofs.Embedding.Reentry
import LiquidTemplate.Proofs.Writing.Documentation
import LiquidTemplate.Proofs.Traversal.Order
