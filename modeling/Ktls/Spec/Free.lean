import Ktls.Model.Free
import Ktls.Spec.Keylog
import Ktls.Spec.Release

/-! Two runs that differ only in the traffic secrets, and so in every byte that is
encrypted or derived under them: what they have in common. -/

namespace Ktls

/-- How a stream is cut into records: the header of each whole one, and of the unfinished
one what there is of its header, and its length. -/
def recordLayout (b : Bytes) : List Bytes × Bytes × ℕ :=
  ((tlsRecord.frames b).map fun f => f.take 5, (tlsRecord.rest b).take 5, (tlsRecord.rest b).length)

/-- Lines that differ only in the random and the digits of the secret, if at all. -/
inductive TwinLines : Bytes → Bytes → Prop
  | same (line : Bytes) : TwinLines line line
  | secret {l l' : KeylogLine} (label : l.label = l'.label)
      (digits : l.digits.length = l'.digits.length) : TwinLines l.bytes l'.bytes

structure HandshakeAnswer.Twin (a a' : HandshakeAnswer) : Prop where
  rc : a.rc = a'.rc
  error : a.error = a'.error
  input : a.input.length = a'.input.length
  output : a.output.length = a'.output.length
  keylog : List.Forall₂ TwinLines a.keylog a'.keylog
  suite : a.suite = a'.suite
  alpn : a.alpn = a'.alpn

structure ReadAnswer.Twin (a a' : ReadAnswer) : Prop where
  input : a.input.length = a'.input.length
  output : a.output.length = a'.output.length
  keylog : List.Forall₂ TwinLines a.keylog a'.keylog

namespace Call

/-- The same call, with other bytes of the same length. -/
inductive Twin : Call → Call → Prop
  | feed {bytes bytes' : Bytes} (written : ℤ) (length : bytes.length = bytes'.length) :
      Twin (.feed bytes written) (.feed bytes' written)
  | step {a a' : HandshakeAnswer} (fate : DeriveFate) (answer : a.Twin a') :
      Twin (.step a fate) (.step a' fate)
  | take (cap : ℕ) : Twin (.take cap) (.take cap)
  | backlog {a a' : ReadAnswer} (answer : a.Twin a') : Twin (.backlog a) (.backlog a')
  | ask (np : NullPending) (dir : KtlsDirection) : Twin (.ask np dir) (.ask np dir)
  | nextKey (dir : KtlsDirection) (fate : NextKeyFate) :
    Twin (.nextKey dir fate) (.nextKey dir fate)
  | release : Twin .release .release

/-- The bytes that pass the record scanner of a direction in a call. -/
def passed (x : KtlsExchange) : KtlsDirection → Call → Bytes
  | .rx, .feed bytes written => if (ktlsExchangeFeed x bytes written).1.isOk then bytes else []
  | .tx, .take cap => (ktlsExchangeTake x cap).1.toOption.getD []
  | _, _ => []

variable (K : Kdf)

/-- All that passes it while the calls are made one after another. -/
def stream (dir : KtlsDirection) : KtlsExchange → List Call → Bytes
  | _, [] => []
  | x, call :: calls => passed x dir call ++ stream dir (call.after K x) calls

/-- The call may expand a secret. -/
def Derives : Call → Prop
  | .step a _ => a.rc = 1
  | .nextKey _ fate => fate.upd = .derived
  | .feed _ _ | .take _ | .backlog _ | .ask _ _ | .release => False

instance (call : Call) : Decidable call.Derives :=
  match call with
  | .step a _ => inferInstanceAs (Decidable (a.rc = 1))
  | .nextKey _ fate => inferInstanceAs (Decidable (fate.upd = .derived))
  | .feed _ _ | .take _ | .backlog _ | .ask _ _ | .release => .isFalse id

end Call

end Ktls
