import Ktls.Model.FreeBsd
import Ktls.Spec.Release

/-! One program on both kernels: the same calls, and the same answers from OpenSSL. -/

namespace Ktls

/-- The blobs apart, an exchange is the same on both. -/
def KtlsExchange.bare (x : KtlsExchange) : KtlsExchange := { x with info := fun _ => {} }

section

variable (x : KtlsExchange)

@[simp] theorem bare_ssl : x.bare.ssl = x.ssl := rfl
@[simp] theorem bare_done : x.bare.done = x.done := rfl
@[simp] theorem bare_server : x.bare.server = x.server := rfl
@[simp] theorem bare_heldSecret : x.bare.heldSecret = x.heldSecret := rfl

end

namespace BsdExchange

variable (K : Kdf)

def opened (role : KtlsRole) : BsdExchange where
  x := ktlsExchangeOpen role

def after (b : BsdExchange) : Call → BsdExchange
  | .feed bytes written => { b with x := (ktlsExchangeFeed b.x bytes written).2 }
  | .step a fate => (Bsd.ktlsExchangeStep K b a fate).2
  | .take cap => { b with x := (ktlsExchangeTake b.x cap).2 }
  | .backlog a => { b with x := (ktlsExchangeBacklog b.x a).2 }
  | .ask np dir => (Bsd.ktlsCryptoInfo np b dir).2
  | .nextKey dir fate => (Bsd.ktlsNextKey K b dir fate).2
  | .release => { b with x := ktlsExchangeRelease b.x }

end BsdExchange

/-- The update gets as far as to put a key in the place of the one that is there. -/
def Replaces (x : KtlsExchange) (dir : KtlsDirection) (fate : NextKeyFate) : Prop :=
  x.done = true ∧ fate.upd = .derived ∧ x.secretLen (whichOf x.server dir) ≠ 0 ∧
    fate.fill.key = .derived

instance (x : KtlsExchange) (dir : KtlsDirection) (fate : NextKeyFate) :
    Decidable (Replaces x dir fate) := inferInstanceAs (Decidable (_ ∧ _))

/-- Both builds of one program. A direction is torn when its last new key came without an iv. -/
structure Builds where
  linux : KtlsExchange
  bsd : BsdExchange
  torn : Fin 2 → Bool := fun _ => false

namespace Builds

variable (K : Kdf)

def tornBy (B : Builds) : Call → Fin 2 → Bool
  | .nextKey dir fate =>
    if Replaces B.linux dir fate then
      Function.update B.torn (whichOf B.linux.server dir) (fate.fill.iv ≠ .derived)
    else B.torn
  | .feed _ _ | .step _ _ | .take _ | .backlog _ | .ask _ _ | .release => B.torn

def after (B : Builds) (call : Call) : Builds where
  linux := call.after K B.linux
  bsd := B.bsd.after K call
  torn := B.tornBy call

def machine : Machine Builds Call where
  permits B call := call.Takes B.linux
  next := after K

instance (B : Builds) (call : Call) : Decidable ((machine K).permits B call) :=
  inferInstanceAs (Decidable (call.Takes B.linux))

def opened (role : KtlsRole) : Builds where
  linux := ktlsExchangeOpen role
  bsd := BsdExchange.opened role

end Builds

def Bsd.Socket.slot (sock : Bsd.Socket) : KtlsDirection → Option KernelKey
  | .tx => sock.tx
  | .rx => sock.rx

end Ktls
