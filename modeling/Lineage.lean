import Lineage.Main
import Lineage.Json.Records
import Lineage.Record.Documents
import Lineage.Proofs.Command.Set
import Lineage.Proofs.Construction.FileOrder
import Lineage.Proofs.Construction.Scan
import Lineage.Proofs.Document.Canonical
import Lineage.Proofs.Document.Diff
import Lineage.Proofs.Document.Full
import Lineage.Proofs.Document.Limits
import Lineage.Proofs.Document.Made
import Lineage.Proofs.Document.Rebound
import Lineage.Proofs.Document.Saved
import Lineage.Proofs.Construction.Stopped
import Lineage.Proofs.Construction.Uncommented
import Lineage.Proofs.Expression.Innermost
import Lineage.Proofs.Expression.Chain
import Lineage.Proofs.Expression.Marker
import Lineage.Proofs.Number.Regular
import Lineage.Proofs.Order.Cycle
import Lineage.Proofs.Order.Least
import Lineage.Proofs.Order.Construction
import Lineage.Proofs.Property.Stable
import Lineage.Proofs.Record.Integer
import Lineage.Proofs.Section.Origin
import Lineage.Proofs.Section.Reordered
import Lineage.Proofs.Section.Validation
import Lineage.Proofs.Source.Entries
