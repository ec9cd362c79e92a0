import Ktls.Lib.Ratchet
import Ktls.Model.Traffic
import Ktls.Spec.KeySchedule
import Ktls.Spec.Session
import Mathlib.Data.Prod.Lex

/-! What the two directions of a connection are to carry once the kernels have them: every
record sealed and opened where RFC 8446 has its number and its key. -/

namespace Ktls

/-- RFC 8446 5.3: the number of the record, as long as the iv, and the iv. -/
def recordNonce (iv : Bytes) (seq : ℕ) : Bytes :=
  List.zipWith (· ^^^ ·) iv (List.replicate (iv.length - 8) 0 ++ be64 seq)

/-- What a traffic secret tells the kernel. -/
def trafficKey (K : Kdf) (c : ℕ) (s : Bytes) (seq : ℕ) : KernelKey where
  cipherType := if c = ktlsAesGcm128 then 51 else 54
  key := K.expand s "key" (keyLen c)
  iv := K.expand s "iv" 12
  seq := seq

/-- An earlier key comes first, and under one key the lower number. -/
instance : Preorder Standing := Preorder.lift fun s => toLex (s.generation, s.sequence)

theorem Standing.lt_iff {s t : Standing} : s < t ↔
    s.generation < t.generation ∨ s.generation = t.generation ∧ s.sequence < t.sequence :=
  Prod.Lex.lt_iff

/-- A record that moves its direction on: it is counted, or the last of its key. -/
def RecordKind.Moves : RecordKind → Prop
  | .ticket | .data | .alert | .keyUpdate _ => True
  | .handshake | .finished | .bad => False

/-- A record the program wrote or read, of a type that has a number. -/
structure Message where
  kind : KtlsRecord
  payload : Bytes
  spelled : kind ≠ .unknown
  deriving DecidableEq

/-- Behind the handover a handshake record is a KeyUpdate. -/
def Message.recordKind (m : Message) : RecordKind :=
  match m.kind with
  | .handshake => .keyUpdate false
  | .alert => .alert
  | .data | .unknown => .data

/-- A record as `recvmsg` reports it. -/
def Message.of? (r : KtlsRecord × Bytes) : Option Message :=
  if h : r.1 ≠ .unknown then some ⟨r.1, r.2, h⟩ else none

def KtlsRecord.byte (kind : KtlsRecord) : UInt8 := UInt8.ofNat (ktlsTypeOf kind).toNat

theorem ktlsRecordOf_byte {kind : KtlsRecord} (h : kind ≠ .unknown) :
    ktlsRecordOf kind.byte.toNat = kind := by
  cases kind with
  | unknown => exact absurd rfl h
  | data | alert | handshake => rfl

section

variable (A : Aead) (K : Kdf) (c : ℕ) (s : Bytes)

/-- The record layer of a direction whose first application secret is `s`. -/
def recordLayer : Ratchet Standing Message Bytes where
  step st m := st.advance m.recordKind
  wrap st m :=
    let k := trafficKey K c (secretAfter K s st.generation) st.sequence
    A.wrap k.cipherType k.key (recordNonce k.iv k.seq) m.kind.byte m.payload
  unwrap st r :=
    let k := trafficKey K c (secretAfter K s st.generation) st.sequence
    (A.unwrap k.cipherType k.key (recordNonce k.iv k.seq) r).bind fun tp =>
      Message.of? (ktlsRecordOf tp.1.toNat, tp.2)
  unwrap_wrap st m := by
    simp only [A.unwrap_wrap, Option.bind_some, ktlsRecordOf_byte m.spelled, Message.of?,
      dif_pos m.spelled]

end

/-- Where a direction that stood at `st` stands behind some records. -/
def Message.standing (st : Standing) (ms : List Message) : Standing :=
  ms.foldl (fun st m => st.advance m.recordKind) st

theorem Message.standing_concat (st : Standing) (ms : List Message) (m : Message) :
    Message.standing st (ms ++ [m]) = (Message.standing st ms).advance m.recordKind :=
  List.foldl_append

/-- Both sides of a connection, the server at `true`, the records on their way to each, and
what each has said and heard. A side that has sent a KeyUpdate owes a turn of its key. -/
structure Traffic where
  conn : Bool → Served
  wire : Bool → List Bytes := fun _ => []
  owes : Bool → Bool := fun _ => false
  failed : Bool → Bool := fun _ => false
  sent : Bool → List Message := fun _ => []
  got : Bool → List Message := fun _ => []

inductive TrafficOp
  | send (m : Message)
  | turn (np : NullPending) (fate : NextKeyFate) (accepts : Bool)
  | receive (np : NullPending) (fate : NextKeyFate) (accepts : Bool)
  | release

namespace Traffic

variable (A : Aead) (K : Kdf)

/-- One side makes a call. -/
def after (P : Traffic) (call : Bool × TrafficOp) : Traffic :=
  match call with
  | (side, .send m) =>
    match (P.conn side).sendRecord A m.kind m.payload with
    | (none, c) => { P with conn := Function.update P.conn side c }
    | (some r, c) =>
      { P with
        conn := Function.update P.conn side c
        wire := Function.update P.wire (!side) (P.wire (!side) ++ [r])
        owes := Function.update P.owes side (m.kind = .handshake)
        sent := Function.update P.sent side (P.sent side ++ [m]) }
  | (side, .turn np fate accepts) =>
    { P with
      conn := Function.update P.conn side ((P.conn side).turnKey K np .tx fate accepts)
      owes := Function.update P.owes side false }
  | (side, .receive np fate accepts) =>
    match P.wire side with
    | [] => P
    | r :: rs =>
      match (P.conn side).recvRecord A K np r fate accepts with
      | (none, c) =>
        { P with
          conn := Function.update P.conn side c
          failed := Function.update P.failed side true }
      | (some m, c) =>
        { P with
          conn := Function.update P.conn side c
          wire := Function.update P.wire side rs
          got := Function.update P.got side (P.got side ++ (Message.of? m).toList) }
  | (side, .release) =>
    { P with
      conn := Function.update P.conn side
        { P.conn side with x := ktlsExchangeRelease (P.conn side).x } }

/-- RFC 8446 4.6.3: the KeyUpdate is the last record of its key, so the key is turned before
anything else is sent and at no other time. Every turn succeeds, and the kernel accepts the
key. -/
def permits (P : Traffic) (call : Bool × TrafficOp) : Prop :=
  match call with
  | (side, .send _) => P.owes side = false
  | (side, .turn _ fate accepts) =>
    P.owes side = true ∧ (ktlsNextKey K (P.conn side).x .tx fate).1 = .ok () ∧ accepts = true
  | (side, .receive _ fate accepts) =>
    (ktlsNextKey K (P.conn side).x .rx fate).1 = .ok () ∧ accepts = true
  | (_, .release) => True

instance (P : Traffic) (call : Bool × TrafficOp) : Decidable (P.permits K call) :=
  match call with
  | (_, .send _) => inferInstanceAs (Decidable (_ = _))
  | (_, .turn _ _ _) => inferInstanceAs (Decidable (_ ∧ _ ∧ _))
  | (_, .receive _ _ _) => inferInstanceAs (Decidable (_ ∧ _))
  | (_, .release) => .isTrue trivial

/-- Every interleaving of calls on the two sides. -/
def machine : Machine Traffic (Bool × TrafficOp) where
  permits := permits K
  next := after A K

instance (P : Traffic) (call : Bool × TrafficOp) : Decidable ((machine A K).permits P call) :=
  inferInstanceAs (Decidable (P.permits K call))

/-- Two offloaded exchanges; the kernels have carried nothing yet. -/
def begun (x : Bool → KtlsExchange) (sock : Bool → TcpSocket) : Traffic where
  conn side := ⟨x side, { tcp := sock side }⟩

/-- What `side` sends, from where it stood when the kernels took over, as a link of its own. -/
def flow (P : Traffic) (start : Bool → Standing) (side : Bool) :
    Ratchet.Link Standing Message Bytes where
  sender := Message.standing (start side) (P.sent side)
  receiver := Message.standing (start side) (P.got (!side))
  wire := P.wire (!side)
  sent := P.sent side
  received := P.got (!side)

end Traffic

/-- A record of the sample connection, as AES-GCM seals it. -/
structure SealedSample where
  key : Bytes
  nonce : Bytes
  type : UInt8
  payload : Bytes
  record : Bytes
  deriving DecidableEq

/-- What its server says behind its two tickets: five bytes, a KeyUpdate, and five more under
the next key. -/
def sampleSealed : List SealedSample :=
  [⟨[159, 2, 40, 59, 108, 156, 7, 239, 194, 107, 185, 242, 172, 146, 227, 86],
    [207, 120, 43, 136, 221, 131, 84, 154, 173, 241, 233, 134], 23, [104, 101, 108, 108, 111],
    [23, 3, 3, 0, 22, 220, 234, 175, 156, 9, 130, 72, 195, 96, 63, 68, 248, 64, 124, 108, 179,
     175, 198, 63, 176, 209, 155]⟩,
   ⟨[159, 2, 40, 59, 108, 156, 7, 239, 194, 107, 185, 242, 172, 146, 227, 86],
    [207, 120, 43, 136, 221, 131, 84, 154, 173, 241, 233, 135], 22, [24, 0, 0, 1, 0],
    [23, 3, 3, 0, 22, 9, 113, 12, 122, 137, 142, 102, 35, 58, 121, 208, 162, 16, 52, 41, 87,
     148, 95, 157, 74, 201, 249]⟩,
   ⟨[46, 99, 190, 153, 214, 123, 57, 9, 127, 235, 151, 134, 207, 122, 21, 160],
    [98, 138, 10, 130, 152, 172, 149, 59, 174, 244, 37, 90], 23, [97, 103, 97, 105, 110],
    [23, 3, 3, 0, 22, 22, 205, 101, 51, 235, 172, 30, 205, 8, 50, 246, 24, 93, 113, 9, 197, 84,
     9, 97, 53, 232, 120]⟩]

theorem sampleSealed_record : ∀ e ∈ sampleSealed, e.record.head? = some 23 := by decide

theorem sampleSealed_unique : ∀ e ∈ sampleSealed, ∀ e' ∈ sampleSealed,
    e'.key = e.key ∧ e'.nonce = e.nonce ∧ e'.record = e.record → e' = e := by decide

/-- AES-GCM where the sample connection asks for it. -/
def sampleAead : Aead where
  wrap _ key nonce type payload :=
    match sampleSealed.find? fun e =>
      e.key = key ∧ e.nonce = nonce ∧ e.type = type ∧ e.payload = payload with
    | some e => e.record
    | none => 0 :: type :: payload
  unwrap _ key nonce record :=
    match sampleSealed.find? fun e => e.key = key ∧ e.nonce = nonce ∧ e.record = record with
    | some e => some (e.type, e.payload)
    | none =>
      match record with
      | 0 :: type :: payload => some (type, payload)
      | _ => none
  unwrap_wrap suite key nonce type payload := by
    cases hw : sampleSealed.find? fun e =>
        e.key = key ∧ e.nonce = nonce ∧ e.type = type ∧ e.payload = payload with
    | some e =>
      have hmem := List.mem_of_find?_eq_some hw
      have hasked := List.find?_some hw
      obtain ⟨rfl, rfl, rfl, rfl⟩ := of_decide_eq_true hasked
      simp only
      cases hfind : sampleSealed.find? fun e' =>
          e'.key = e.key ∧ e'.nonce = e.nonce ∧ e'.record = e.record with
      | none => exact absurd (List.find?_eq_none.mp hfind e hmem) (by simp)
      | some e' =>
        have hfound := List.find?_some hfind
        have he' := sampleSealed_unique e hmem e' (List.mem_of_find?_eq_some hfind)
          (of_decide_eq_true hfound)
        rw [he']
    | none =>
      have hfind : sampleSealed.find? (fun e =>
          e.key = key ∧ e.nonce = nonce ∧ e.record = 0 :: type :: payload) = none := by
        refine List.find?_eq_none.mpr fun e he hrec => ?_
        have hhead := sampleSealed_record e he
        rw [(of_decide_eq_true hrec).2.2] at hhead
        cases hhead
      simp only [hfind]

end Ktls
