import Motif.Main
import Motif.Proofs.Anchors
import Motif.Proofs.Declarations
import Motif.Proofs.RoundTrip
import Motif.Proofs.Symmetry
import Motif.Proofs.Trim
import Motif.Proofs.Surroundings
import Motif.Proofs.Complement
import Motif.Proofs.Spelling
import Motif.Proofs.TokenForms
import Motif.Proofs.Exhaustion
import Motif.Proofs.Range
import Motif.Proofs.Report
import Motif.Proofs.Embedding
import Motif.Proofs.Reprint
import Motif.Proofs.Insertions
import Motif.Proofs.Reversal
import Motif.Proofs.Division
import Motif.Proofs.Consumption
import Motif.Proofs.Extent
