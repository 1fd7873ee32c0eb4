import RowSearch.Config.Yaml
import RowSearch.Search
import RowSearch.Proofs.Outcome
import RowSearch.Proofs.Scan
import RowSearch.Proofs.Trim
import RowSearch.Proofs.Layout
import RowSearch.Proofs.Blind
import RowSearch.Proofs.Balance
import RowSearch.Proofs.Canonical
import RowSearch.Proofs.Split
import RowSearch.Proofs.Token
import RowSearch.Proofs.Level
import RowSearch.Proofs.Structure
import RowSearch.Proofs.Ink
import RowSearch.Proofs.Cache
import RowSearch.Proofs.Visible
import RowSearch.Proofs.Connective
import RowSearch.Proofs.Sentence.Grammar
import RowSearch.Proofs.Sentence.Layout
import RowSearch.Proofs.Measure
import RowSearch.Proofs.Sentence.Build
import RowSearch.Proofs.Limits
import RowSearch.Proofs.Operation
import RowSearch.Proofs.Stepwise
import RowSearch.Proofs.Fault
import RowSearch.Proofs.Influence
import RowSearch.Proofs.Juxtaposition
import RowSearch.Proofs.Access
import RowSearch.Proofs.Sharing
import RowSearch.Proofs.Expression
import RowSearch.Proofs.Unbroken
import RowSearch.Proofs.Identify
import RowSearch.Proofs.Formed
import RowSearch.Proofs.Asking
import RowSearch.Proofs.Patterns
import RowSearch.Proofs.Spacing
import RowSearch.Proofs.Atoms
import RowSearch.Proofs.Escapes
import RowSearch.Proofs.Folding
import RowSearch.Proofs.Ordering
import RowSearch.Proofs.Partner
import RowSearch.Proofs.Extended
import RowSearch.Proofs.Reader
import RowSearch.Proofs.Sides
import RowSearch.Proofs.Rows
import RowSearch.Proofs.Settings
import RowSearch.Proofs.Equality
import RowSearch.Proofs.Safety
