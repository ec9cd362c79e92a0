import Ktls.Lib.Machine
import Ktls.Model.Exchange

/-! Every call there is on an exchange, with any answer OpenSSL can give, and when
releasing the SSL is not felt. -/

namespace Ktls

/-- A call on an exchange. -/
inductive Call
  | feed (bytes : Bytes) (written : ℤ)
  | step (a : HandshakeAnswer) (fate : DeriveFate)
  | take (cap : ℕ)
  | backlog (a : ReadAnswer)
  | ask (np : NullPending) (dir : KtlsDirection)
  | nextKey (dir : KtlsDirection) (fate : NextKeyFate)
  | release

/-- What the SSL has not read yet, and what it still has to send. -/
def KtlsExchange.unread (x : KtlsExchange) : Bytes := (x.ssl.map Ssl.input).getD []
def KtlsExchange.owed (x : KtlsExchange) : Bytes := (x.ssl.map Ssl.output).getD []

namespace Call

variable (K : Kdf)

def after (x : KtlsExchange) : Call → KtlsExchange
  | .feed bytes written => (ktlsExchangeFeed x bytes written).2
  | .step a fate => (ktlsExchangeStep K x a fate).2
  | .take cap => (ktlsExchangeTake x cap).2
  | .backlog a => (ktlsExchangeBacklog x a).2
  | .ask np dir => (ktlsCryptoInfo np x dir).2
  | .nextKey dir fate => (ktlsNextKey K x dir fate).2
  | .release => ktlsExchangeRelease x

/-- The SSL only takes bytes out of its input BIO. -/
def Takes (x : KtlsExchange) : Call → Prop
  | .step a _ => a.input <:+ x.unread
  | .backlog a => a.input <:+ x.unread
  | .feed _ _ | .take _ | .ask _ _ | .nextKey _ _ | .release => True

instance (x : KtlsExchange) (call : Call) : Decidable (call.Takes x) :=
  match call with
  | .step a _ => inferInstanceAs (Decidable (a.input <:+ x.unread))
  | .backlog a => inferInstanceAs (Decidable (a.input <:+ x.unread))
  | .feed _ _ | .take _ | .ask _ _ | .nextKey _ _ | .release => .isTrue trivial

def machine : Machine KtlsExchange Call where
  permits x call := call.Takes x
  next := after K

instance (x : KtlsExchange) (call : Call) : Decidable ((machine K).permits x call) :=
  inferInstanceAs (Decidable (call.Takes x))

/-- The SSL that has finished reports `protocol` as the one that was selected. -/
def Reports (protocol : Option Bytes) : Call → Prop
  | .step a _ => a.rc = 1 → a.alpn = protocol.getD []
  | .feed _ _ | .take _ | .backlog _ | .ask _ _ | .nextKey _ _ | .release => True

instance (protocol : Option Bytes) (call : Call) : Decidable (call.Reports protocol) :=
  match call with
  | .step a _ => inferInstanceAs (Decidable (a.rc = 1 → _))
  | .feed _ _ | .take _ | .backlog _ | .ask _ _ | .nextKey _ _ | .release => .isTrue trivial

end Call

/-- A sequence of key updates, successful or not. -/
def updated (K : Kdf) (x : KtlsExchange) (updates : List (KtlsDirection × NextKeyFate)) :
    KtlsExchange :=
  updates.foldl (fun x u => (ktlsNextKey K x u.1 u.2).2) x

/-- Nothing is owed, or no blob can be had in any case; and what the SSL has not read
holds no end of a record the receive sequence is still to count. -/
def ReleaseSafe (x : KtlsExchange) : Prop :=
  (x.owed = [] ∨ x.tx.overflowed = true ∨ x.rx.overflowed = true) ∧
  (x.rekeyed (whichOf x.server .rx) = true ∨
    ∀ e ∈ x.rx.ends.take x.rx.count, x.rxAtDone < e → e ≤ x.rxFed - x.unread.length)

instance (x : KtlsExchange) : Decidable (ReleaseSafe x) := inferInstanceAs (Decidable (_ ∧ _))

end Ktls
