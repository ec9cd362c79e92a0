import Ktls.Lib.Machine
import Ktls.Model.Offload

/-! Calls of `ktls_offload` on one socket, one after the other, and when a call leaves the
kernel with half of it. -/

namespace Ktls

/-- A call: the exchange that is offered, and what the kernel answers. -/
structure Offer where
  np : NullPending
  x : KtlsExchange
  fate : OffloadFate := {}

namespace TcpSocket

variable (sock : TcpSocket)

/-- Both directions' keys are there, or neither is. -/
def Whole : Prop := sock.tx.isSome = sock.rx.isSome

def Bare : Prop := sock.tx = none ∧ sock.rx = none

def slot : KtlsDirection → Option Bytes
  | .tx => sock.tx
  | .rx => sock.rx

instance : Decidable sock.Whole := inferInstanceAs (Decidable (_ = _))
instance : Decidable sock.Bare := inferInstanceAs (Decidable (_ ∧ _))

end TcpSocket

/-- An exchange both blobs can be had from. -/
def Ready (np : NullPending) (x : KtlsExchange) : Prop :=
  x.done = true ∧ pendingOut np x ≤ 0 ∧ x.tx.overflowed = false ∧ x.rx.overflowed = false

instance (np : NullPending) (x : KtlsExchange) : Decidable (Ready np x) :=
  inferInstanceAs (Decidable (_ ∧ _))

namespace Offer

variable (sock : TcpSocket) (o : Offer)

def result : Except String Unit := (ktlsOffload o.np o.x sock o.fate).1

def after : TcpSocket := (ktlsOffload o.np o.x sock o.fate).2.2

/-- Any exchange may be offered at any time, and the kernel may answer anything. -/
def machine : Machine TcpSocket Offer where
  permits _ _ := True
  next := after

instance : Decidable (machine.permits sock o) := .isTrue trivial

/-- Both or neither, and neither where a call on a socket without keys has failed. -/
def Promised : Prop :=
  (o.after sock).Whole ∧ (sock.Bare → o.result sock ≠ .ok () → (o.after sock).Bare)

/-- The kernel takes the key to send with and refuses the one to receive with, which the
socket does not have. -/
def Halves : Prop :=
  Ready o.np o.x ∧ o.fate.initialized = true ∧ o.fate.ulp = true ∧ o.fate.tx = true ∧
    o.fate.rx = false ∧ sock.rx = none

instance : Decidable (o.Halves sock) := inferInstanceAs (Decidable (_ ∧ _))

end Offer

end Ktls
