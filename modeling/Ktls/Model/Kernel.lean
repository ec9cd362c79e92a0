import Ktls.Model.Offload

/-! The record layer of a socket that was handed over, as `linux/tls.h` describes it, and
the types of its records as the library names them. -/

namespace Ktls

/-- What a record on an offloaded socket turned out to be. -/
inductive KtlsRecord | data | alert | handshake | unknown
  deriving DecidableEq

def ktlsRecordOf (type : ℕ) : KtlsRecord :=
  if type = 21 then .alert
  else if type = 22 then .handshake
  else if type = 23 then .data
  else .unknown

def ktlsTypeOf : KtlsRecord → ℤ
  | .alert => 21
  | .handshake => 22
  | .data => 23
  | .unknown => -1

/-- `ktls_record_type_encode` into the buffer `out`, if there is one: the length of the
payload, and the buffer afterwards. -/
def ktlsRecordTypeEncode (kind : KtlsRecord) (out : Option Bytes) : ℕ × Option Bytes :=
  match out with
  | none => (0, none)
  | some buf =>
    if ktlsTypeOf kind < 0 ∨ buf.length < 1 then (0, some buf)
    else (1, some (buf.set 0 (UInt8.ofNat (ktlsTypeOf kind).toNat)))

/-- `ktls_record_type` of the payload of a control message, if there is one. -/
def ktlsRecordType (data : Option Bytes) : KtlsRecord :=
  match data with
  | none | some [] => .unknown
  | some (type :: _) => ktlsRecordOf type.toNat

def ktlsRecordTypeCmsg : ℤ := 2

/-- A control message. -/
structure Cmsg where
  level : ℤ
  type : ℤ
  data : Bytes

/-- `read_a_record`: the type, once `recvmsg` has delivered these control messages. -/
def readARecord (control : List Cmsg) : KtlsRecord :=
  control.foldl (fun type cm =>
    if cm.level = ktlsSolTls ∧ cm.type = ktlsRecordTypeCmsg then ktlsRecordType (some cm.data)
    else type) .unknown

/-- What the kernel holds of one direction: the suite by its number, its key, the iv, and the
number of the first record. -/
@[ext]
structure KernelKey where
  cipherType : ℕ
  key : Bytes
  iv : Bytes
  seq : ℕ
  deriving DecidableEq

def readLE16 (b : Bytes) : ℕ := (b.getD 0 0).toNat + 256 * (b.getD 1 0).toNat

/-- The kernel reads a `struct tls12_crypto_info_*` of TLS 1.3 by the number of its suite, and
refuses one of another size. The salt of AES-GCM stands in front of its iv. -/
def kernelKey (b : Bytes) : Option KernelKey :=
  if readLE16 b ≠ 0x0304 then none
  else if readLE16 (b.drop 2) = 51 then
    if b.length ≠ 40 then none
    else some {
      cipherType := 51
      key := (b.drop 12).take 16
      iv := (b.drop 28).take 4 ++ (b.drop 4).take 8
      seq := readBE (b.drop 32) }
  else if readLE16 (b.drop 2) = 54 then
    if b.length ≠ 56 then none
    else some {
      cipherType := 54
      key := (b.drop 16).take 32
      iv := (b.drop 4).take 12
      seq := readBE (b.drop 48) }
  else none

/-- The nonce of record `seq`: its number goes into all of the iv but its first 4 bytes. -/
def KernelKey.nonce (k : KernelKey) (seq : ℕ) : Bytes :=
  k.iv.take 4 ++ List.zipWith (· ^^^ ·) (k.iv.drop 4) (be64 seq)

/-- The ciphers of the two suites: a record of a type, under a key and a nonce. -/
structure Aead where
  wrap : ℕ → Bytes → Bytes → UInt8 → Bytes → Bytes
  unwrap : ℕ → Bytes → Bytes → Bytes → Option (UInt8 × Bytes)
  unwrap_wrap : ∀ suite key nonce type payload,
    unwrap suite key nonce (wrap suite key nonce type payload) = some (type, payload)

/-- A socket, and how many records were written and read since each key was set. -/
structure KernelSocket where
  tcp : TcpSocket := {}
  wrote : ℕ := 0
  read : ℕ := 0

/-- A key that is set starts its direction at the number it brings. -/
def KernelSocket.setsockopt (s : KernelSocket) (level name : ℤ) (value : Bytes)
    (accepts : Bool) : Bool × KernelSocket :=
  match Ktls.setsockopt s.tcp level name value accepts with
  | (false, tcp) => (false, { s with tcp := tcp })
  | (true, tcp) =>
    (true, {
      tcp := tcp
      wrote := if level = solTls ∧ name = tlsTx then 0 else s.wrote
      read := if level = solTls ∧ name = tlsRx then 0 else s.read })

variable (A : Aead)

/-- `sendmsg` of one record of a type. -/
def KernelSocket.send (s : KernelSocket) (type : UInt8) (payload : Bytes) :
    Option Bytes × KernelSocket :=
  match s.tcp.tx.bind kernelKey with
  | none => (none, s)
  | some k =>
    (some (A.wrap k.cipherType k.key (k.nonce (k.seq + s.wrote)) type payload),
      { s with wrote := s.wrote + 1 })

/-- `recvmsg` when `record` comes next: its type and what is in it, or `EBADMSG`. -/
def KernelSocket.recv (s : KernelSocket) (record : Bytes) :
    Option (UInt8 × Bytes) × KernelSocket :=
  match s.tcp.rx.bind kernelKey with
  | none => (none, s)
  | some k =>
    match A.unwrap k.cipherType k.key (k.nonce (k.seq + s.read)) record with
    | none => (none, s)
    | some m => (some m, { s with read := s.read + 1 })

end Ktls
