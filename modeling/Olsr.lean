import Olsr.Proofs.JsonForm
import Olsr.Proofs.Sessions
import Olsr.Proofs.Payloads
import Olsr.Proofs.ReservedFields
import Olsr.Proofs.LinkRefusals
import Olsr.Proofs.Tracing
import Olsr.Proofs.NearestTime
import Olsr.Proofs.RelativeError
import Olsr.Proofs.Forwarding
