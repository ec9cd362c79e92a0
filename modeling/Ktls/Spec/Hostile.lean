import Ktls.Spec.Seals

/-! A network that puts what it likes before the two kernels: it drops, holds back, reorders
and repeats records, and makes some of its own. -/

namespace Ktls

/-- What the kernel opens the next record with. -/
def KernelSocket.opening (s : KernelSocket) : Option Sealing :=
  (s.tcp.rx.bind kernelKey).map fun k => ⟨k.cipherType, k.key, k.nonce (k.seq + s.read)⟩

/-- A record with what it was sealed with. -/
structure SealedRecord where
  sealing : Sealing
  type : UInt8
  payload : Bytes
  deriving DecidableEq

/-- What it looks like on the wire. -/
def SealedRecord.record (A : Aead) (e : SealedRecord) : Bytes :=
  A.wrap e.sealing.cipherType e.sealing.key e.sealing.nonce e.type e.payload

/-- Both sides of a connection, and every record that was ever sealed. -/
structure Hostile where
  traffic : Traffic
  sealed : List SealedRecord

inductive HostileOp
  | call (op : TrafficOp)
  | tamper (records : List Bytes)

namespace Hostile

variable (A : Aead) (K : Kdf)

/-- What this call of `side` seals. -/
def seals (H : Hostile) (side : Bool) : TrafficOp → List SealedRecord
  | .send m => (H.traffic.conn side).sock.sealing.toList.map fun e => ⟨e, m.kind.byte, m.payload⟩
  | .turn _ _ _ | .receive _ _ _ | .release => []

/-- One side makes a call, or the network gives `side` other records to read. -/
def after (H : Hostile) (call : Bool × HostileOp) : Hostile :=
  match call with
  | (side, .call op) =>
    { traffic := H.traffic.after A K (side, op), sealed := H.sealed ++ H.seals side op }
  | (side, .tamper records) =>
    { H with traffic.wire := Function.update H.traffic.wire side records }

/-- If the kernel opens the record that `side` reads next, then this is what was sealed with
the key and the nonce it opens it with. -/
def Authentic (H : Hostile) (side : Bool) : Prop :=
  ∀ r ∈ (H.traffic.wire side).head?, ∀ tp ∈ ((H.traffic.conn side).sock.recv A r).1,
    ∀ e ∈ (H.traffic.conn side).sock.opening, ⟨e, tp.1, tp.2⟩ ∈ H.sealed

instance (H : Hostile) (side : Bool) : Decidable (H.Authentic A side) :=
  inferInstanceAs (Decidable (∀ r ∈ (H.traffic.wire side).head?,
    ∀ tp ∈ ((H.traffic.conn side).sock.recv A r).1,
      ∀ e ∈ (H.traffic.conn side).sock.opening, ⟨e, tp.1, tp.2⟩ ∈ H.sealed))

/-- The network can do anything but forge a record. -/
def permits (H : Hostile) (call : Bool × HostileOp) : Prop :=
  match call with
  | (side, .call (.receive np fate accepts)) =>
    H.traffic.permits K (side, .receive np fate accepts) ∧ H.Authentic A side
  | (side, .call op) => H.traffic.permits K (side, op)
  | (_, .tamper _) => True

instance (H : Hostile) (call : Bool × HostileOp) : Decidable (H.permits A K call) :=
  match call with
  | (_, .call (.receive _ _ _)) => inferInstanceAs (Decidable (_ ∧ _))
  | (side, .call (.send m)) => inferInstanceAs (Decidable (H.traffic.permits K (side, .send m)))
  | (side, .call (.turn np fate accepts)) =>
    inferInstanceAs (Decidable (H.traffic.permits K (side, .turn np fate accepts)))
  | (side, .call .release) => inferInstanceAs (Decidable (H.traffic.permits K (side, .release)))
  | (_, .tamper _) => .isTrue trivial

def machine : Machine Hostile (Bool × HostileOp) where
  permits := permits A K
  next := after A K

instance (H : Hostile) (call : Bool × HostileOp) : Decidable ((machine A K).permits H call) :=
  inferInstanceAs (Decidable (H.permits A K call))

end Hostile

/-- The place its sender has got to with `side`'s direction. -/
def Traffic.reached (P : Traffic) (start : Bool → Standing) (side : Bool) : Standing :=
  Message.standing (start side) (P.sent side)

/-- No two of the keys that have come up are the same, and no direction runs out of numbers. -/
structure Traffic.Fresh (K : Kdf) (c : ℕ) (shared : Fin 2 → Bytes) (start : Bool → Standing)
    (P : Traffic) : Prop where
  keys : ∀ b b' g g', g ≤ (P.reached start b).generation → g' ≤ (P.reached start b').generation →
    K.expand (secretAfter K (shared (whichOf b .tx)) g) "key" (keyLen c) =
      K.expand (secretAfter K (shared (whichOf b' .tx)) g') "key" (keyLen c) → b = b' ∧ g = g'
  numbers : ∀ b, (start b).sequence + (P.sent b).length < 2 ^ 64

end Ktls
