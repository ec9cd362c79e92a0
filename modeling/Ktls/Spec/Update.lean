import Ktls.Lib.Machine
import Ktls.Spec.KeySchedule

/-! What a key update that fails is to leave alone, and when it does. -/

namespace Ktls

/-- Everything a caller can tell the keys of two exchanges apart by. -/
structure Kept (np : NullPending) (x x' : KtlsExchange) : Prop where
  secret : x'.secret = x.secret
  secretLen : x'.secretLen = x.secretLen
  rekeyed : x'.rekeyed = x.rekeyed
  key : x'.key = x.key
  iv : x'.iv = x.iv
  info : ∀ dir, (ktlsCryptoInfo np x' dir).1 = (ktlsCryptoInfo np x dir).1
  sequence : ∀ dir, ktlsRecordSequence np x' dir = ktlsRecordSequence np x dir

section

variable (K : Kdf) (dir : KtlsDirection)

/-- An update that fails on its first expansion. Where that one succeeds, nothing is
lost only if the expansion gives back the very secret it was made from, on a direction
turned before, and no other key is written until the failure. -/
def Harmless (x : KtlsExchange) (fate : NextKeyFate) : Prop :=
  fate.upd ≠ .derived ∨
    K.expand (x.heldSecret (whichOf x.server dir)) "traffic upd"
        (x.secretLen (whichOf x.server dir)) = x.heldSecret (whichOf x.server dir) ∧
      x.rekeyed (whichOf x.server dir) = true ∧
      (x.secretLen (whichOf x.server dir) ≠ 0 → fate.fill.key = .derived →
        K.expand (x.heldSecret (whichOf x.server dir)) "key" (keyLen x.cipher) <+:
          x.key (whichOf x.server dir))

/-- One update tried over and over, and failing. -/
def attempts : Machine KtlsExchange NextKeyFate where
  permits x fate := (ktlsNextKey K x dir fate).1 ≠ .ok ()
  next x fate := (ktlsNextKey K x dir fate).2

end

end Ktls
