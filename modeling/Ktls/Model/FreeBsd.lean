import Ktls.Model.Kernel

/-! The exchange as FreeBSD builds it. Its struct holds neither the key nor the iv: it says
where in the exchange they are, and the kernel goes there when it is given the struct. -/

namespace Ktls

def cryptoAesNistGcm16 : ℕ := 25
def cryptoChacha20Poly1305 : ℕ := 41
def tlsMajorVerOne : ℕ := 3
def tlsMinorVerThree : ℕ := 4

/-- `struct tls_enable`; a pointer is the number of the key, or of the iv, it leads to. -/
structure TlsEnable where
  cipherAlgorithm : ℕ := 0
  cipherKey : Option (Fin 2) := none
  cipherKeyLen : ℕ := 0
  iv : Option (Fin 2) := none
  ivLen : ℕ := 0
  vmajor : ℕ := 0
  vminor : ℕ := 0
  recSeq : Bytes := List.replicate 8 0
  deriving DecidableEq

/-- `struct ktls_exchange`, with these structs for the blobs in `x`. -/
structure BsdExchange where
  x : KtlsExchange
  en : Fin 2 → TlsEnable := fun _ => {}

namespace Bsd

variable (K : Kdf)

def enableOf (cipher : ℕ) (which : Fin 2) : TlsEnable where
  cipherAlgorithm :=
    if cipher = ktlsAesGcm128 then cryptoAesNistGcm16 else cryptoChacha20Poly1305
  cipherKey := some which
  cipherKeyLen := keyLen cipher
  iv := some which
  ivLen := 12
  vmajor := tlsMajorVerOne
  vminor := tlsMinorVerThree

def ktlsFill (b : BsdExchange) (which : Fin 2) (fate : FillFate) :
    Except String Unit × BsdExchange :=
  if b.x.secretLen which = 0 then
    (.error "the traffic secret never arrived - is this OpenSSL built with TLS 1.3?", b)
  else
    match ktlsExpand K fate.key (b.x.heldSecret which) "key" (keyLen b.x.cipher) with
    | .error e => (.error e, b)
    | .ok key =>
      let b := { b with
        x.key := Function.update b.x.key which (memcpy (b.x.key which) 0 key) }
      match ktlsExpand K fate.iv (b.x.heldSecret which) "iv" 12 with
      | .error e => (.error e, b)
      | .ok iv =>
        let b := { b with x.iv := Function.update b.x.iv which (memcpy (b.x.iv which) 0 iv) }
        (.ok (), { b with en := Function.update b.en which (enableOf b.x.cipher which) })

def ktlsDeriveBoth (b : BsdExchange) (server : Bool) (suite : Option Bytes)
    (fate : DeriveFate) : Except String Unit × BsdExchange :=
  let b := { b with x.cipher := ktlsNegotiatedCipher suite }
  if b.x.cipher = 0 then
    (.error "the negotiated cipher is not one the kernel is told about here", b)
  else
    match ktlsFill K b (whichOf server .tx) fate.ours with
    | (.error e, b) => (.error e, b)
    | (.ok (), b) => ktlsFill K b (whichOf server .rx) fate.theirs

def ktlsExchangeStep (b : BsdExchange) (a : HandshakeAnswer) (fate : DeriveFate) :
    Except String KtlsStep × BsdExchange :=
  match b.x.ssl with
  | none => (.error "step after the exchange was released", b)
  | some s =>
    if b.x.done then (.ok (if 0 < s.output.length then .writing else .done), b)
    else
      let s := { s with input := a.input, output := a.output }
      let b := { b with x := a.keylog.foldl ktlsKeylog { b.x with ssl := some s } }
      if a.rc ≠ 1 then
        if a.error ≠ .wantRead ∧ a.error ≠ .wantWrite then (.error "SSL_do_handshake", b)
        else (.ok (if 0 < a.output.length then .writing else .reading), b)
      else
        match ktlsDeriveBoth K b s.server a.suite fate with
        | (.error e, b) => (.error e, b)
        | (.ok (), b) =>
          (.ok (if 0 < a.output.length then .writing else .done),
            { b with x := noteDone b.x s a })

/-- The struct, with the sequence written into the exchange's own copy of it. -/
def ktlsCryptoInfo (np : NullPending) (b : BsdExchange) (dir : KtlsDirection) :
    Except String TlsEnable × BsdExchange :=
  if ¬ b.x.done then (.error "the exchange has not finished", b)
  else if 0 < pendingOut np b.x then
    (.error "bytes are still owed to the peer - drain ktls_exchange_take first", b)
  else if b.x.tx.overflowed ∨ b.x.rx.overflowed then
    (.error "too many records before the handover to count the sequence", b)
  else
    let which := whichOf b.x.server dir
    let ci := { b.en which with recSeq := be64 (sequenceOf np b.x dir) }
    (.ok ci, { b with en := Function.update b.en which ci })

def ktlsNextKey (b : BsdExchange) (dir : KtlsDirection) (fate : NextKeyFate) :
    Except String Unit × BsdExchange :=
  if ¬ b.x.done then (.error "the exchange has not finished", b)
  else
    let which := whichOf b.x.server dir
    match ktlsExpand K fate.upd (b.x.heldSecret which) "traffic upd" (b.x.secretLen which) with
    | .error e => (.error e, b)
    | .ok next =>
      let b := { b with x := { b.x with
        secret := Function.update b.x.secret which (memcpy (b.x.secret which) 0 next)
        rekeyed := Function.update b.x.rekeyed which true } }
      ktlsFill K b which fate.fill

/-- What the kernel finds where the struct sends it; the suite goes by the number that Linux
has for it. Only TLS 1.3 is read here, as only that is ever asked for. -/
def kernelKey (x : KtlsExchange) (en : TlsEnable) : Option KernelKey :=
  match en.cipherKey, en.iv with
  | some key, some iv =>
    if en.vmajor ≠ tlsMajorVerOne ∨ en.vminor ≠ tlsMinorVerThree ∨ en.ivLen ≠ 12 then none
    else
      let found (cipherType : ℕ) : KernelKey := {
        cipherType := cipherType
        key := (x.key key).take en.cipherKeyLen
        iv := (x.iv iv).take en.ivLen
        seq := readBE en.recSeq }
      if en.cipherAlgorithm = cryptoAesNistGcm16 ∧ en.cipherKeyLen = 16 then some (found 51)
      else if en.cipherAlgorithm = cryptoAesNistGcm16 ∧ en.cipherKeyLen = 32 then some (found 52)
      else if en.cipherAlgorithm = cryptoChacha20Poly1305 ∧ en.cipherKeyLen = 32 then
        some (found 54)
      else none
  | _, _ => none

/-- What the kernel holds of a TCP socket. -/
structure Socket where
  tx : Option KernelKey := none
  rx : Option KernelKey := none

def tcpTxtlsEnable : ℤ := 39
def tcpRxtlsEnable : ℤ := 41

/-- The kernel takes the keys out of the exchange when it accepts the struct. -/
def setsockopt (x : KtlsExchange) (sock : Socket) (level name : ℤ) (value : TlsEnable)
    (accepts : Bool) : Bool × Socket :=
  if ¬ accepts ∨ level ≠ ipprotoTcp then (false, sock)
  else
    match kernelKey x value with
    | none => (false, sock)
    | some k =>
      if name = tcpTxtlsEnable then (true, { sock with tx := some k })
      else if name = tcpRxtlsEnable then (true, { sock with rx := some k })
      else (false, sock)

def ktlsAttachUlp (sock : Socket) : Except String Unit × Socket := (.ok (), sock)

def ktlsSolTls : ℤ := ipprotoTcp

/-- `receives` is whether `TCP_RXTLS_ENABLE` is there. -/
def ktlsOptname (receives : Bool) (dir : KtlsDirection) : ℤ :=
  if dir = .tx then tcpTxtlsEnable else if receives then tcpRxtlsEnable else -1

def ktlsOffload (receives : Bool) (np : NullPending) (b : BsdExchange) (sock : Socket)
    (fate : OffloadFate) : Except String Unit × BsdExchange × Socket :=
  match ktlsCryptoInfo np b .tx with
  | (tx, b) =>
    match ktlsCryptoInfo np b .rx with
    | (rx, b) =>
      match tx, rx with
      | _, .error e => (.error e, b, sock)
      | .error e, .ok _ => (.error e, b, sock)
      | .ok tx, .ok rx =>
        if ¬ fate.initialized then
          (.error ("kTLS is not initialized (tls module not loaded) - load it " ++
            "deliberately: modprobe tls, or ktls_load_module()"), b, sock)
        else if ktlsOptname receives .rx < 0 then
          (.error ("this kernel offloads sending but not receiving, and half a " ++
            "socket is not an offer this library makes"), b, sock)
        else
          match ktlsAttachUlp sock with
          | (.error e, sock) => (.error e, b, sock)
          | (.ok (), sock) =>
            match setsockopt b.x sock ktlsSolTls (ktlsOptname receives .tx) tx fate.tx with
            | (false, sock) => (.error "setsockopt(TLS_TX)", b, sock)
            | (true, sock) =>
              match setsockopt b.x sock ktlsSolTls (ktlsOptname receives .rx) rx fate.rx with
              | (false, sock) => (.error "setsockopt(TLS_RX)", b, sock)
              | (true, sock) => (.ok (), b, sock)

end Bsd

end Ktls
