import ClassEdit.Proofs.File.Comments
import ClassEdit.Proofs.File.RoundTrip
import ClassEdit.Proofs.Edit.Contiguous
import ClassEdit.Proofs.Edit.DistinctNames
import ClassEdit.Proofs.Edit.WellFormed
import ClassEdit.Proofs.Session.Draining
import ClassEdit.Proofs.Session.Persisting
import ClassEdit.Proofs.Session.Redraining
import ClassEdit.Proofs.Session.Widening
import ClassEdit.Scenario.Basic
import ClassEdit.Storage.Disk
import ClassEdit.Proofs.Edit.Facets
import ClassEdit.Proofs.Edit.MemberOrder
import ClassEdit.Proofs.Edit.Registered
import ClassEdit.Proofs.Edit.Store
import ClassEdit.Proofs.Edit.Undoing
import ClassEdit.Proofs.Expr.RoundTrip
import ClassEdit.Proofs.Session.Requests
import ClassEdit.Proofs.File.Blaming
import ClassEdit.Proofs.Fragment.Parts
import ClassEdit.Proofs.Text.MovedLeft
import ClassEdit.Proofs.Token.Cutting
import ClassEdit.Proofs.Token.Spanning
import ClassEdit.Proofs.Token.Relexing
import ClassEdit.Proofs.Fragment.Extent
import ClassEdit.Proofs.Fragment.Rejoining
import ClassEdit.Proofs.Fragment.Resplitting
import ClassEdit.Proofs.Expr.Merging
import ClassEdit.Proofs.Fragment.Reads
import ClassEdit.Proofs.Fragment.Brackets
import ClassEdit.Proofs.Fragment.Appending
import ClassEdit.Proofs.Fragment.Joining
import ClassEdit.Proofs.Text.MovedRight
import ClassEdit.Proofs.Token.Following
import ClassEdit.Proofs.Token.Reindenting
import ClassEdit.Proofs.Token.Escapes
import ClassEdit.Proofs.Edit.Access
import ClassEdit.Proofs.Offset.Termination
import ClassEdit.Proofs.Offset.Safety
import ClassEdit.Proofs.Host.Maps
import ClassEdit.Proofs.Offset.Tiling
import ClassEdit.Proofs.Offset.Dedenting
import ClassEdit.Proofs.File.Literals
