import Ktls.Model.Keylog

/-! The calls on an exchange. What OpenSSL answers inside a call is an argument of
it: how much a BIO accepted, what `SSL_do_handshake` and `SSL_read` did to the two
BIOs, which expansions `EVP_KDF_derive` carried out. A call returns its result and
the exchange afterwards; an error is the text `ktls_last_error` will show, or the
first half of it where `ktls_fail` appends OpenSSL's own reason. -/

namespace Ktls

/-- `BIO_write` on a memory BIO: all `len` bytes are taken, or none are and the
answer is not positive. -/
def bioWrite (b data : Bytes) (len answer : ℤ) : ℤ × Bytes :=
  if 0 < len ∧ answer = len then (len, b ++ data.take len.toNat) else (min answer 0, b)

/-- `BIO_read` on a memory BIO; no bytes stand for an answer that is not positive. -/
def bioRead (b : Bytes) (len : ℤ) : Bytes × Bytes := (b.take len.toNat, b.drop len.toNat)

/-- What `SSL_get_error` makes of a call that did not succeed. -/
inductive SslError | wantRead | wantWrite | zeroReturn | ssl
  deriving DecidableEq

/-- `SSL_do_handshake` and what the SSL says about itself right after it. -/
structure HandshakeAnswer where
  rc : ℤ
  error : SslError := .ssl
  input : Bytes
  output : Bytes
  keylog : List Bytes := []
  suite : Option Bytes := none
  alpn : Bytes := []
  deriving DecidableEq

/-- `SSL_read`; no plaintext stands for an answer that is not positive. -/
structure ReadAnswer where
  plain : Bytes
  error : SslError := .ssl
  input : Bytes
  output : Bytes
  keylog : List Bytes := []
  deriving DecidableEq

/-- How one expansion went. -/
inductive KdfFate | derived | noFetch | noContext | noDerive
  deriving DecidableEq

structure FillFate where
  key : KdfFate := .derived
  iv : KdfFate := .derived
  deriving DecidableEq

structure DeriveFate where
  ours : FillFate := {}
  theirs : FillFate := {}
  deriving DecidableEq

structure NextKeyFate where
  upd : KdfFate := .derived
  fill : FillFate := {}
  deriving DecidableEq

variable (K : Kdf)

/-- `ktls_exchange_open`, once its allocations have succeeded. -/
def ktlsExchangeOpen (role : KtlsRole) : KtlsExchange where
  ssl := some { server := role = .server }

def ktlsExchangeRelease (x : KtlsExchange) : KtlsExchange := { x with ssl := none }

def ktlsExchangeFeed (x : KtlsExchange) (bytes : Bytes) (written : ℤ) :
    Except String Unit × KtlsExchange :=
  match x.ssl with
  | none => (.error "feed after the exchange was released", x)
  | some s =>
    if bytes.length = 0 then (.ok (), x)
    else
      let w := bioWrite s.input bytes (cInt bytes.length) written
      let x := { x with ssl := some { s with input := w.2 } }
      if w.1 ≠ cInt bytes.length then (.error "BIO_write", x)
      else (.ok (), { x with rx := ktlsScan x.rx bytes, rxFed := x.rxFed + bytes.length })

def ktlsExchangeTake (x : KtlsExchange) (cap : ℕ) : Except String Bytes × KtlsExchange :=
  match x.ssl with
  | none => (.error "take after the exchange was released", x)
  | some s =>
    let got := bioRead s.output (cInt cap)
    let x := { x with ssl := some { s with output := got.2 } }
    if got.1.length = 0 then (.ok [], x)
    else (.ok got.1, { x with tx := ktlsScan x.tx got.1 })

def ktlsExpand (fate : KdfFate) (secret : Bytes) (label : String) (olen : ℕ) :
    Except String Bytes :=
  match fate with
  | .noFetch => .error "EVP_KDF_fetch(TLS13-KDF)"
  | .noContext => .error "EVP_KDF_CTX_new"
  | .noDerive => .error "EVP_KDF_derive"
  | .derived => .ok (K.expand secret label olen)

def keyLen (cipher : ℕ) : ℕ := if cipher = ktlsAesGcm128 then 16 else 32

/-- The union `ktls_fill` writes: AES-GCM splits the 12-byte iv into 4 bytes of
salt and 8 of iv, ChaCha takes all 12. -/
def infoOf (cipher : ℕ) (key iv : Bytes) : KtlsInfo :=
  if cipher = ktlsAesGcm128 then
    { version := 0x0304, cipherType := 51, key := key.take 16, salt := iv.take 4,
      iv := (iv.drop 4).take 8, recSeq := List.replicate 8 0 }
  else
    { version := 0x0304, cipherType := 54, key := key.take 32, iv := iv.take 12,
      recSeq := List.replicate 8 0 }

def ktlsFill (x : KtlsExchange) (which : Fin 2) (fate : FillFate) :
    Except String Unit × KtlsExchange :=
  if x.secretLen which = 0 then
    (.error "the traffic secret never arrived - is this OpenSSL built with TLS 1.3?", x)
  else
    match ktlsExpand K fate.key (x.heldSecret which) "key" (keyLen x.cipher) with
    | .error e => (.error e, x)
    | .ok key =>
      let x := { x with key := Function.update x.key which (memcpy (x.key which) 0 key) }
      match ktlsExpand K fate.iv (x.heldSecret which) "iv" 12 with
      | .error e => (.error e, x)
      | .ok iv =>
        let x := { x with iv := Function.update x.iv which (memcpy (x.iv which) 0 iv) }
        (.ok (), { x with
          info := Function.update x.info which (infoOf x.cipher (x.key which) (x.iv which)) })

def ktlsNegotiatedCipher (suite : Option Bytes) : ℕ :=
  if suite = some (ascii "TLS_AES_128_GCM_SHA256") then ktlsAesGcm128
  else if suite = some (ascii "TLS_CHACHA20_POLY1305_SHA256") then ktlsChacha20Poly1305
  else 0

/-- Which secret we SEND with is which side we are. -/
def ktlsDeriveBoth (x : KtlsExchange) (server : Bool) (suite : Option Bytes)
    (fate : DeriveFate) : Except String Unit × KtlsExchange :=
  let x := { x with cipher := ktlsNegotiatedCipher suite }
  if x.cipher = 0 then
    (.error "the negotiated cipher is not one the kernel is told about here", x)
  else
    match ktlsFill K x (whichOf server .tx) fate.ours with
    | (.error e, x) => (.error e, x)
    | (.ok (), x) => ktlsFill K x (whichOf server .rx) fate.theirs

/-- What `ktls_exchange_step` writes down when the exchange is done. -/
def noteDone (x : KtlsExchange) (s : Ssl) (a : HandshakeAnswer) : KtlsExchange :=
  let x := { x with
    txAtDone := if s.server then x.tx.offset else x.tx.offset + a.output.length
    server := s.server
    rxAtDone := ((x.rxFed : ℤ) - a.input.length).toNat
    cipherName := match a.suite with
      | some name => name.take 39
      | none => x.cipherName }
  let x :=
    if a.alpn.length ≠ 0 ∧ a.alpn.length ≤ 32 then
      { x with alpn := memcpy x.alpn 0 a.alpn, alpnLen := a.alpn.length }
    else x
  { x with done := true }

def ktlsExchangeStep (x : KtlsExchange) (a : HandshakeAnswer) (fate : DeriveFate) :
    Except String KtlsStep × KtlsExchange :=
  match x.ssl with
  | none => (.error "step after the exchange was released", x)
  | some s =>
    if x.done then (.ok (if 0 < s.output.length then .writing else .done), x)
    else
      let s := { s with input := a.input, output := a.output }
      let x := a.keylog.foldl ktlsKeylog { x with ssl := some s }
      if a.rc ≠ 1 then
        if a.error ≠ .wantRead ∧ a.error ≠ .wantWrite then (.error "SSL_do_handshake", x)
        else (.ok (if 0 < a.output.length then .writing else .reading), x)
      else
        match ktlsDeriveBoth K x s.server a.suite fate with
        | (.error e, x) => (.error e, x)
        | (.ok (), x) =>
          (.ok (if 0 < a.output.length then .writing else .done), noteDone x s a)

def ktlsExchangeAlpn (x : KtlsExchange) : Option Bytes :=
  if x.alpnLen = 0 then none else some (x.alpn.take x.alpnLen)

def ktlsExchangeBacklog (x : KtlsExchange) (a : ReadAnswer) :
    Except String Bytes × KtlsExchange :=
  if ¬ x.done then (.ok [], x)
  else
    match x.ssl with
    | none => (.error "backlog after the exchange was released", x)
    | some s =>
      let s := { s with input := a.input, output := a.output }
      (.ok a.plain, a.keylog.foldl ktlsKeylog { x with ssl := some s })

/-- The sequence both readers of it start from. -/
def sequenceOf (np : NullPending) (x : KtlsExchange) (dir : KtlsDirection) : ℕ :=
  if x.rekeyed (whichOf x.server dir) then 0
  else match dir with
    | .tx => ktlsRecordsBetween x.tx x.txAtDone x.tx.offset
    | .rx => ktlsRecordsBetween x.rx x.rxAtDone (consumed np x)

/-- `ktls_crypto_info`: the blob, with the sequence written into the exchange's own
copy of it. -/
def ktlsCryptoInfo (np : NullPending) (x : KtlsExchange) (dir : KtlsDirection) :
    Except String Bytes × KtlsExchange :=
  if ¬ x.done then (.error "the exchange has not finished", x)
  else if 0 < pendingOut np x then
    (.error "bytes are still owed to the peer - drain ktls_exchange_take first", x)
  else if x.tx.overflowed ∨ x.rx.overflowed then
    (.error "too many records before the handover to count the sequence", x)
  else
    let which := whichOf x.server dir
    let ci := { x.info which with recSeq := be64 (sequenceOf np x dir) }
    (.ok ci.bytes, { x with info := Function.update x.info which ci })

def ktlsRecordSequence (np : NullPending) (x : KtlsExchange) (dir : KtlsDirection) : ℕ :=
  if ¬ x.done then 0 else sequenceOf np x dir

def ktlsNextKey (x : KtlsExchange) (dir : KtlsDirection) (fate : NextKeyFate) :
    Except String Unit × KtlsExchange :=
  if ¬ x.done then (.error "the exchange has not finished", x)
  else
    let which := whichOf x.server dir
    match ktlsExpand K fate.upd (x.heldSecret which) "traffic upd" (x.secretLen which) with
    | .error e => (.error e, x)
    | .ok next =>
      let x := { x with
        secret := Function.update x.secret which (memcpy (x.secret which) 0 next)
        rekeyed := Function.update x.rekeyed which true }
      ktlsFill K x which fate.fill

def ktlsRecordLimit (x : KtlsExchange) : ℕ := if x.cipher = ktlsAesGcm128 then 2 ^ 23 else 0

end Ktls
