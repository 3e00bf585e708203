import Offside.Datum
import Offside.Host
import Offside.Proofs.Margins.Lookup
import Offside.Proofs.Margins.Validation
import Offside.Proofs.Reading.Boundaries
import Offside.Proofs.Reading.CodePoints
import Offside.Proofs.Reading.Pieces
import Offside.Proofs.Saving.Bounds
import Offside.Proofs.Saving.Description
import Offside.Proofs.Saving.Format
import Offside.Proofs.Saving.Groups
import Offside.Proofs.Saving.Losses
import Offside.Proofs.Saving.Shortest
import Offside.Proofs.Scanning.Answer
import Offside.Proofs.Scanning.Body
import Offside.Proofs.Scanning.Change
import Offside.Proofs.Scanning.Comments
import Offside.Proofs.Scanning.Items
import Offside.Proofs.Scanning.Lexeme
import Offside.Proofs.Scanning.Lines
import Offside.Proofs.Scanning.Locality
import Offside.Proofs.Scanning.Segmentation
import Offside.Proofs.Scanning.Text
import Offside.Proofs.Session.Bracketing
import Offside.Proofs.Session.Checking
import Offside.Proofs.Session.Deferral
import Offside.Proofs.Session.Hosting
import Offside.Proofs.Session.Invariants
import Offside.Proofs.Session.Literals
import Offside.Proofs.Session.Lossy
import Offside.Proofs.Session.Maximality
import Offside.Proofs.Session.Ranges
import Offside.Proofs.Session.Restoring
import Offside.Proofs.Session.Settling
import Offside.Proofs.Session.Shifting
