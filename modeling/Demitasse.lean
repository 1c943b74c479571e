import Demitasse.Main
import Demitasse.Proofs.ArraySizes
import Demitasse.Proofs.Comments
import Demitasse.Proofs.ElementGuards
import Demitasse.Proofs.ForestBuilding
import Demitasse.Proofs.Freshness
import Demitasse.Proofs.Globals
import Demitasse.Proofs.Initialization
import Demitasse.Proofs.Introducers
import Demitasse.Proofs.Language
import Demitasse.Proofs.LayoutHistory
import Demitasse.Proofs.Listing
import Demitasse.Proofs.Nesting
import Demitasse.Proofs.PrincipalTypes
import Demitasse.Proofs.Progress
import Demitasse.Proofs.RoundTrip
import Demitasse.Proofs.ScalarLowering
import Demitasse.Proofs.ScopeBuilding
import Demitasse.Proofs.ScopeMap
import Demitasse.Proofs.Separators
import Demitasse.Proofs.Soundness
import Demitasse.Proofs.Spacing
import Demitasse.Proofs.StringConstants
