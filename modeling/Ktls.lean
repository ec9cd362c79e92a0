import Ktls.Lib.Framing
import Ktls.Lib.Machine
import Ktls.Lib.Window
import Ktls.Model.Records
import Ktls.Spec.Session
import Ktls.Spec.Keylog
import Ktls.Proofs.Scan
import Ktls.Proofs.Unhex
import Ktls.Proofs.Keylog
import Ktls.Spec.KeySchedule
import Ktls.Proofs.Exchange
import Ktls.Proofs.Kinds
import Ktls.Proofs.Session
import Ktls.Proofs.Sequence
import Ktls.Proofs.Handover
import Ktls.Proofs.Retry
import Ktls.Proofs.Pair
import Ktls.Spec.Rekey
import Ktls.Proofs.Rekey
import Ktls.Spec.Release
import Ktls.Proofs.Release
import Ktls.Spec.Keys
import Ktls.Proofs.Keys
import Ktls.Proofs.Names
import Ktls.Proofs.Table
import Ktls.Proofs.Suites
import Ktls.Proofs.Alpn
import Ktls.Model.Alpn
import Ktls.Proofs.Pick
import Ktls.Proofs.Negotiated
import Ktls.Spec.Update
import Ktls.Proofs.Update
import Ktls.Spec.Flow
import Ktls.Proofs.Flow
import Ktls.Proofs.Count
import Ktls.Model.Offload
import Ktls.Spec.Offload
import Ktls.Proofs.Offload
import Ktls.Model.Search
import Ktls.Proofs.Search
import Ktls.Model.Free
import Ktls.Spec.Free
import Ktls.Proofs.Free
import Ktls.Lib.Ratchet
import Ktls.Model.Kernel
import Ktls.Model.Traffic
import Ktls.Spec.Traffic
import Ktls.Proofs.Blob
import Ktls.Proofs.Traffic
import Ktls.Proofs.Delivery
import Ktls.Spec.Seals
import Ktls.Proofs.Seals
import Ktls.Proofs.Budget
import Ktls.Lib.Handles
import Ktls.Model.Memory
import Ktls.Proofs.Memory
import Ktls.Proofs.Handles
import Ktls.Proofs.Vm
import Ktls.Spec.Hostile
import Ktls.Proofs.Hostile
import Ktls.Model.FreeBsd
import Ktls.Spec.FreeBsd
import Ktls.Proofs.FreeBsd
import Ktls.Spec.Serve
import Ktls.Proofs.Serve
