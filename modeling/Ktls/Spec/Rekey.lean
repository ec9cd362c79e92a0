import Ktls.Lib.Machine
import Ktls.Spec.KeySchedule

/-! Two finished exchanges of one connection that update keys and release their SSLs
in any order. -/

namespace Ktls

/-- A call after the handover. -/
inductive Rekey
  | nextKey (dir : KtlsDirection) (fate : NextKeyFate)
  | release
  | ask (np : NullPending) (dir : KtlsDirection)

namespace Rekey

variable (K : Kdf)

def after (x : KtlsExchange) : Rekey → KtlsExchange
  | .nextKey dir fate => (ktlsNextKey K x dir fate).2
  | .release => ktlsExchangeRelease x
  | .ask np dir => (ktlsCryptoInfo np x dir).2

/-- Every key update succeeds. -/
def Succeeds (x : KtlsExchange) : Rekey → Prop
  | .nextKey dir fate => (ktlsNextKey K x dir fate).1 = .ok ()
  | .release | .ask _ _ => True

instance (x : KtlsExchange) (r : Rekey) : Decidable (r.Succeeds K x) :=
  match r with
  | .nextKey _ _ => inferInstanceAs (Decidable (_ = _))
  | .release | .ask _ _ => .isTrue trivial

/-- Whether a call turns direction `dir`. -/
def turns (dir : KtlsDirection) : Rekey → Bool
  | .nextKey d _ => d = dir
  | .release | .ask _ _ => false

/-- The two sides, the server at `true`. -/
def machine : Machine (Bool → KtlsExchange) (Bool × Rekey) where
  permits xs call := call.2.Succeeds K (xs call.1)
  next xs call := Function.update xs call.1 (call.2.after K (xs call.1))

instance (xs : Bool → KtlsExchange) (call : Bool × Rekey) :
    Decidable ((machine K).permits xs call) :=
  inferInstanceAs (Decidable (call.2.Succeeds K (xs call.1)))

/-- How often `side` turned direction `dir`. -/
def count (side : Bool) (dir : KtlsDirection) (calls : List (Bool × Rekey)) : ℕ :=
  calls.countP fun c => c.1 == side && c.2.turns dir

end Rekey

/-- A finished exchange of the side `server` with suite `c` that holds these secrets,
owes nothing and counted every record. -/
structure Holding (server : Bool) (c : ℕ) (secret : KtlsDirection → Bytes) (x : KtlsExchange) :
    Prop where
  done : x.done = true
  server_eq : x.server = server
  cipher : x.cipher = c
  owed : ∀ np, pendingOut np x ≤ 0
  tx_counted : x.tx.overflowed = false
  rx_counted : x.rx.overflowed = false
  fits : ∀ i, x.secretLen i ≤ (x.secret i).length
  held : ∀ dir, x.heldSecret (whichOf server dir) = secret dir

end Ktls
