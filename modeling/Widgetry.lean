import Widgetry.Files.Tree
import Widgetry.Main
import Widgetry.Proofs.Context.Exactness
import Widgetry.Proofs.Expr.Coalescing
import Widgetry.Proofs.Source.ItemScope
import Widgetry.Proofs.View.Mirroring
import Widgetry.Proofs.View.Writes
import Widgetry.Proofs.Fingerprint
import Widgetry.Proofs.Expr.Substitution
import Widgetry.Proofs.Expr.Closure
import Widgetry.Proofs.View.Preview
import Widgetry.Proofs.Batch.Isolation
import Widgetry.Proofs.Blame
import Widgetry.Proofs.Source.Dispatch
import Widgetry.Proofs.Source.Quotation
import Widgetry.Proofs.Source.Reordering
import Widgetry.Proofs.Date.Pattern
import Widgetry.Proofs.Style.Overlay
import Widgetry.Proofs.View.Forest
import Widgetry.Proofs.View.Unresolved
import Widgetry.Proofs.Color
import Widgetry.Proofs.Expr.Slicing
import Widgetry.Proofs.Source.Wrapping
