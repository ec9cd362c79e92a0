import Ktls.Spec.Traffic

/-! Under which keys and nonces one side's records are sealed, whatever its peer sends. -/

namespace Ktls

/-- What goes into the cipher beside the record. -/
structure Sealing where
  cipherType : ℕ
  key : Bytes
  nonce : Bytes
  deriving DecidableEq

/-- What the kernel seals the next record with. -/
def KernelSocket.sealing (s : KernelSocket) : Option Sealing :=
  (s.tcp.tx.bind kernelKey).map fun k => ⟨k.cipherType, k.key, k.nonce (k.seq + s.wrote)⟩

/-- What RFC 8446 seals a record with that stands at `st`. -/
def sealedAt (K : Kdf) (c : ℕ) (s : Bytes) (st : Standing) : Sealing :=
  let k := trafficKey K c (secretAfter K s st.generation) st.sequence
  ⟨k.cipherType, k.key, recordNonce k.iv k.seq⟩

/-- Where the records stood that an SSL sent behind its Finished. -/
def Session.sealedBefore (S : Session) : List Standing :=
  (Ratchet.plain Standing.advance).keysUsed {} (behindFinished S.outKinds)

/-- One side of an offloaded connection, and what its kernel has sealed with. -/
structure Sender where
  conn : Served
  seals : List Sealing := []

inductive SenderOp
  | send (kind : KtlsRecord) (payload : Bytes)
  | turn (np : NullPending) (fate : NextKeyFate) (accepts : Bool)
  | receive (record : Bytes) (np : NullPending) (fate : NextKeyFate) (accepts : Bool)
  | release

namespace Sender

variable (A : Aead) (K : Kdf)

def after (S : Sender) : SenderOp → Sender
  | .send kind payload =>
    match S.conn.sendRecord A kind payload with
    | (none, C) => { S with conn := C }
    | (some _, C) => { conn := C, seals := S.seals ++ S.conn.sock.sealing.toList }
  | .turn np fate accepts => { S with conn := S.conn.turnKey K np .tx fate accepts }
  | .receive record np fate accepts =>
    { S with conn := (S.conn.recvRecord A K np record fate accepts).2 }
  | .release => { S with conn := { S.conn with x := ktlsExchangeRelease S.conn.x } }

/-- Any record may come in and any `setsockopt` be refused, and the key may be turned at any
time: but by a `ktls_next_key` that succeeds. -/
def permits (S : Sender) : SenderOp → Prop
  | .turn _ fate _ => (ktlsNextKey K S.conn.x .tx fate).1 = .ok ()
  | .send _ _ | .receive _ _ _ _ | .release => True

instance (S : Sender) (op : SenderOp) : Decidable (S.permits K op) :=
  match op with
  | .turn _ _ _ => inferInstanceAs (Decidable (_ = _))
  | .send _ _ | .receive _ _ _ _ | .release => .isTrue trivial

def machine : Machine Sender SenderOp where
  permits := permits K
  next := after A K

instance (S : Sender) (op : SenderOp) : Decidable ((machine A K).permits S op) :=
  inferInstanceAs (Decidable (S.permits K op))

/-- An exchange that was just offloaded. -/
def begun (x : KtlsExchange) (sock : TcpSocket) : Sender where
  conn := ⟨x, { tcp := sock }⟩

end Sender

/-- A sender that counts its records. -/
structure Budget where
  sender : Sender
  limit : ℕ
  records : ℕ := 0

/-- A send that the kernel makes records of, or what a sender does besides. -/
inductive BudgetOp
  | serve (chunks : List Bytes) (np : NullPending) (fate : NextKeyFate) (accepts : Bool)
  | receive (record : Bytes) (np : NullPending) (fate : NextKeyFate) (accepts : Bool)
  | release

namespace Budget

variable (A : Aead) (K : Kdf)

/-- The records of one send. -/
def sendAll (S : Sender) (chunks : List Bytes) : Sender :=
  chunks.foldl (fun S chunk => S.after A K (.send .data chunk)) S

def after (B : Budget) : BudgetOp → Budget
  | .serve chunks np fate accepts =>
    let S := sendAll A K B.sender chunks
    let r := S.conn.afterSend K np B.records B.limit chunks.flatten.length fate accepts
    { B with sender := { S with conn := r.2 }, records := r.1 }
  | .receive record np fate accepts =>
    { B with sender := B.sender.after A K (.receive record np fate accepts) }
  | .release => { B with sender := B.sender.after A K .release }

/-- A send of `len` bytes takes the count to the limit. -/
def Due (B : Budget) (len : ℕ) : Prop :=
  B.limit ≠ 0 ∧ B.limit ≤ B.records + (len + 16383) / 16384

instance (B : Budget) (len : ℕ) : Decidable (B.Due len) := inferInstanceAs (Decidable (_ ∧ _))

/-- `sendmsg` makes at most `ceil(len / 16384)` records, and no send is longer than `most` of
them. A turn that is due succeeds, and the kernel accepts the key. -/
def permits (most : ℕ) (B : Budget) : BudgetOp → Prop
  | .serve chunks _ fate accepts =>
    chunks.length ≤ (chunks.flatten.length + 16383) / 16384 ∧
      (chunks.flatten.length + 16383) / 16384 ≤ most ∧
      (B.Due chunks.flatten.length →
        (ktlsNextKey K B.sender.conn.x .tx fate).1 = .ok () ∧ accepts = true)
  | .receive _ _ _ _ | .release => True

instance (most : ℕ) (B : Budget) (op : BudgetOp) : Decidable (B.permits K most op) :=
  match op with
  | .serve _ _ _ _ => inferInstanceAs (Decidable (_ ∧ _ ∧ (_ → _ ∧ _)))
  | .receive _ _ _ _ | .release => .isTrue trivial

def machine (most : ℕ) : Machine Budget BudgetOp where
  permits := permits K most
  next := after A K

instance (most : ℕ) (B : Budget) (op : BudgetOp) :
    Decidable ((machine A K most).permits B op) :=
  inferInstanceAs (Decidable (B.permits K most op))

def begun (x : KtlsExchange) (sock : TcpSocket) : Budget where
  sender := Sender.begun x sock
  limit := ktlsRecordLimit x

end Budget

end Ktls
