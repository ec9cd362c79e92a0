import Ktls.Model.Exchange
import Ktls.Model.Kernel

/-! A connection behind its handover, as the README serves it: the exchange is kept to turn
the keys, and the socket is read with `recvmsg`. -/

namespace Ktls

structure Served where
  x : KtlsExchange
  sock : KernelSocket

namespace Served

variable (A : Aead) (K : Kdf) (np : NullPending)

/-- `ktls_next_key`, `ktls_crypto_info`, `setsockopt`; no answer is looked at. -/
def turnKey (c : Served) (dir : KtlsDirection) (fate : NextKeyFate) (accepts : Bool) : Served :=
  match ktlsCryptoInfo np (ktlsNextKey K c.x dir fate).2 dir with
  | (.error _, x) => { c with x := x }
  | (.ok b, x) => ⟨x, (c.sock.setsockopt ktlsSolTls (ktlsOptname dir) b accepts).2⟩

/-- After a send of `len` bytes: the records are counted, as many as there can be, and at the
limit the key is turned and the count starts over. -/
def afterSend (c : Served) (records limit len : ℕ) (fate : NextKeyFate) (accepts : Bool) :
    ℕ × Served :=
  let records := records + (len + 16383) / 16384
  if limit ≠ 0 ∧ limit ≤ records then (0, c.turnKey K np .tx fate accepts) else (records, c)

/-- `sendmsg` with the type that `ktls_record_type_encode` spells, where it spells one. -/
def sendRecord (c : Served) (kind : KtlsRecord) (payload : Bytes) : Option Bytes × Served :=
  match ktlsRecordTypeEncode kind (some [0]) with
  | (1, some (type :: _)) =>
    ((c.sock.send A type payload).1, { c with sock := (c.sock.send A type payload).2 })
  | _ => (none, c)

/-- `recvmsg`, and the answer to a KeyUpdate. -/
def recvRecord (c : Served) (record : Bytes) (fate : NextKeyFate) (accepts : Bool) :
    Option (KtlsRecord × Bytes) × Served :=
  match c.sock.recv A record with
  | (none, sock) => (none, { c with sock := sock })
  | (some (type, payload), sock) =>
    let c := { c with sock := sock }
    match readARecord [⟨ktlsSolTls, ktlsRecordTypeCmsg, [type]⟩] with
    | .handshake => (some (.handshake, payload), c.turnKey K np .rx fate accepts)
    | kind => (some (kind, payload), c)

end Served

end Ktls
