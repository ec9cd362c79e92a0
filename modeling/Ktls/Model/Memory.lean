import Ktls.Lib.Heap
import Ktls.Model.Exchange
import Ktls.Model.Keys

/-! What the calls take from the heap and give back. An object is its pointer, the pointers
in it and what it holds besides; the result of a call is the one of the call without the
pointers. OpenSSL counts the references to a context: an `SSL` has one to the context it
uses, and `SSL_free` gives that back with the BIOs the `SSL` was given. -/

namespace Ktls

inductive Resource | keys | named | ctx | bio | pem | exchange | ssl | kdf | kdfCtx
  deriving DecidableEq

abbrev Pointer := Ref Resource

/-- `struct ktls_keys` at its address: its contexts and the array of the named ones. -/
structure KeysObject where
  self : Pointer
  ctx : Pointer
  array : Option Pointer := none
  namedCtx : List Pointer := []
  keys : KtlsKeys

/-- An `SSL`: the context in force, and the BIOs `SSL_set_bio` gave it. -/
structure SslObject where
  self : Pointer
  ctx : Pointer
  bios : List Pointer := []

/-- `struct ktls_exchange` at its address, with the keys it was opened from. -/
structure ExchangeObject where
  self : Pointer
  keys : Pointer
  ssl : Option SslObject := none
  input : Option Pointer := none
  output : Option Pointer := none
  x : KtlsExchange

namespace Memory

open Heap

variable (lib : Libssl) (aesIsFast : Bool) (K : Kdf)

/-- Whether `PEM_read_bio_*` made an object of a text OpenSSL then refused. -/
structure PemFate where
  certificate : Bool := false
  key : Bool := false

def ktlsCtxNew (fate : CtxFate) : Prog Resource (Option (Pointer × SslCtx)) :=
  if !fate.new then pure none
  else do
    let r ← create .ctx
    match Ktls.ktlsCtxNew lib aesIsFast fate with
    | .error _ => do
      drop r
      pure none
    | .ok ctx => pure (some (r, ctx))

/-- The object that was read is the context's as well, where it is taken; this one's
reference to it goes back either way. -/
def ktlsPemInto (ctx : SslCtx) (pem : Bytes) (isKey bio parsed : Bool) :
    Prog Resource (Option SslCtx) :=
  if !bio then pure none
  else do
    let b ← create .bio
    let used := (Ktls.ktlsPemInto lib ctx pem isKey true).toOption
    let object ← createIf (parsed || used.isSome) .pem
    dropMaybe object
    drop b
    pure used

def ctxWithPair (certPem keyPem : Bytes) (fate : KeysFate) (parsed : PemFate) :
    Prog Resource (Option (Pointer × SslCtx)) := do
  match ← ktlsCtxNew lib aesIsFast fate.ctx with
  | none => pure none
  | some (r, ctx) =>
    match ← ktlsPemInto lib ctx certPem false fate.certificateBio parsed.certificate with
    | none => do
      drop r
      pure none
    | some ctx =>
      match ← ktlsPemInto lib ctx keyPem true fate.keyBio parsed.key with
      | none => do
        drop r
        pure none
      | some ctx =>
        if lib.checkPrivateKey ctx.certificate ctx.privateKey then pure (some (r, ctx))
        else do
          drop r
          pure none

def ktlsKeysServer (certPem keyPem : Bytes) (fate : KeysFate) (parsed : PemFate) :
    Prog Resource (Option KeysObject) :=
  if !fate.memory then pure none
  else do
    let self ← create .keys
    match ← ctxWithPair lib aesIsFast certPem keyPem fate parsed with
    | none => do
      drop self
      pure none
    | some (r, ctx) => pure (some { self := self, ctx := r, keys := { ctx := ctx } })

def ktlsKeysClient (fate : KeysFate) : Prog Resource (Option KeysObject) :=
  if !fate.memory then pure none
  else do
    let self ← create .keys
    match ← ktlsCtxNew lib aesIsFast fate.ctx with
    | none => do
      drop self
      pure none
    | some (r, ctx) =>
      pure (some {
        self := self
        ctx := r
        keys := { ctx := { ctx with verifyMode := sslVerifyNone } } })

/-- The default context, the array and the contexts in it. -/
def touchContexts (k : KeysObject) : Prog Resource Unit := do
  touch k.self
  touch k.ctx
  touchMaybe k.array
  touchEach k.namedCtx

/-- The loop over the named contexts may end before the last of them. -/
def ktlsKeysSetCiphers (k : KeysObject) (suites : Option Bytes) (works : SetFate) :
    Prog Resource KeysObject := do
  touchContexts k
  pure { k with keys := (Ktls.ktlsKeysSetCiphers lib k.keys suites works).2 }

def ktlsKeysSetAlpn (k : KeysObject) (protocols : List Bytes) (works : SetFate) :
    Prog Resource KeysObject := do
  touchContexts k
  pure { k with keys := (Ktls.ktlsKeysSetAlpn lib k.keys protocols works).2 }

/-- `realloc` gives back the old array, if there is one, for the new. -/
def ktlsKeysAddCertificate (k : KeysObject) (host : Option Bytes) (certPem keyPem : Bytes)
    (fate : KeysFate) (parsed : PemFate) : Prog Resource KeysObject := do
  let host := host.getD []
  touch k.self
  touchMaybe k.array
  if host.length = 0 ∨ 256 ≤ host.length then pure k
  else if k.keys.named.any fun e => strcasecmp e.host host then pure k
  else
    match ← ctxWithPair lib aesIsFast certPem keyPem fate parsed with
    | none => pure k
    | some (r, ctx) =>
      match ktlsCtxFollow lib k.keys ctx fate.suites fate.protos with
      | .error _ => do
        drop r
        pure k
      | .ok ctx =>
        if !fate.memory then do
          drop r
          pure k
        else do
          let grown ← create .named
          dropMaybe k.array
          touch k.ctx
          pure { k with
            array := some grown
            namedCtx := k.namedCtx ++ [r]
            keys := { k.keys with
              named := k.keys.named ++ [{ host := host, ctx := ctx }]
              ctx := { k.keys.ctx with servername := true } } }

def ktlsKeysFree (k : KeysObject) : Prog Resource Unit := do
  touch k.self
  dropEach k.namedCtx
  dropMaybe k.array
  drop k.ctx
  drop k.self

/-- `SSL_free`: what the `SSL` holds goes with it. -/
def sslFree (s : SslObject) : Prog Resource Unit := do
  dropEach s.bios
  drop s.ctx
  drop s.self

structure OpenFate where
  memory : Bool := true
  ssl : Bool := true
  input : Bool := true
  output : Bool := true

/-- `ktls_exchange_free`: the two BIOs are given back only where there is no `SSL` to have
them. -/
def ktlsExchangeFree (e : ExchangeObject) : Prog Resource Unit := do
  match e.ssl with
  | some s => sslFree s
  | none => do
    dropMaybe e.input
    dropMaybe e.output
  drop e.self

/-- `SSL_new`: a reference to the context goes with it. -/
def sslNew (made : Bool) (ctx : Pointer) : Prog Resource (Option SslObject) :=
  if made then do
    let self ← create .ssl
    retain ctx
    pure (some { self := self, ctx := ctx })
  else pure none

/-- `SSL_set_bio` comes only once all three are there. -/
def ktlsExchangeOpen (keys : Option KeysObject) (role : KtlsRole) (fate : OpenFate) :
    Prog Resource (Option ExchangeObject) :=
  match keys with
  | none => pure none
  | some k =>
    if !fate.memory then pure none
    else do
      let self ← create .exchange
      touch k.self
      let ssl ← sslNew fate.ssl k.ctx
      let input ← createIf fate.input .bio
      let output ← createIf fate.output .bio
      let e : ExchangeObject :=
        { self := self, keys := k.self, ssl := ssl, input := input, output := output
          x := Ktls.ktlsExchangeOpen role }
      match ssl, input, output with
      | some s, some i, some o => pure (some { e with ssl := some { s with bios := [i, o] } })
      | _, _, _ => do
        ktlsExchangeFree e
        pure none

def ktlsExchangeRelease (e : ExchangeObject) : Prog Resource ExchangeObject := do
  touch e.self
  match e.ssl with
  | none => pure e
  | some s => do
    sslFree s
    pure { e with ssl := none, input := none, output := none
                  x := Ktls.ktlsExchangeRelease e.x }

/-- What OpenSSL calls back for while it reads a ClientHello. -/
inductive HelloCallback
  | serverName (name : Option Bytes) (refused : Bool)
  | alpn

/-- `SSL_set_SSL_CTX`. -/
def sslSetSslCtx (s : SslObject) (ctx : Pointer) : Prog Resource SslObject := do
  touch s.self
  retain ctx
  drop s.ctx
  pure { s with ctx := ctx }

/-- `ktls_name_pick` and `ktls_alpn_pick` read the keys at the address the contexts were
given. `keys` is what stands there, if anything does. -/
def callback (address : Pointer) (keys : Option KeysObject) (s : SslObject) :
    HelloCallback → Prog Resource SslObject
  | .alpn => do
    touch address
    pure s
  | .serverName name refused => do
    touch address
    match keys, name with
    | some k, some name => do
      touchMaybe k.array
      match (k.keys.named.zip k.namedCtx).find? fun e => ktlsHostMatches e.1.host name with
      | none => pure s
      | some e => if refused then pure s else sslSetSslCtx s e.2
    | _, _ => pure s

def callbacks (address : Pointer) (keys : Option KeysObject) :
    SslObject → List HelloCallback → Prog Resource SslObject
  | s, [] => pure s
  | s, c :: cs => do
    let s ← callback address keys s c
    callbacks address keys s cs

/-- `EVP_KDF_CTX_new` takes a reference to the KDF, which `EVP_KDF_CTX_free` gives back. -/
def ktlsExpand (fate : KdfFate) : Prog Resource Unit :=
  match fate with
  | .noFetch => pure ()
  | .noContext => do
    let kdf ← create .kdf
    drop kdf
  | .noDerive | .derived => do
    let kdf ← create .kdf
    let kctx ← create .kdfCtx
    retain kdf
    drop kdf
    drop kctx
    drop kdf

def ktlsFill (secretLen : ℕ) (fate : FillFate) : Prog Resource Unit :=
  if secretLen = 0 then pure ()
  else do
    ktlsExpand fate.key
    if fate.key = .derived then ktlsExpand fate.iv else pure ()

/-- The second half waits for the first to succeed. -/
def ktlsDeriveBoth (x : KtlsExchange) (server : Bool) (suite : Option Bytes)
    (fate : DeriveFate) : Prog Resource Unit :=
  if ktlsNegotiatedCipher suite = 0 then pure ()
  else do
    let ours := x.secretLen (whichOf server .tx)
    ktlsFill ours fate.ours
    if ours ≠ 0 ∧ fate.ours = {} then ktlsFill (x.secretLen (whichOf server .rx)) fate.theirs
    else pure ()

/-- `SSL_do_handshake` with what it calls back for, and the derivation where it is done. -/
def handshake (keys : Option KeysObject) (e : ExchangeObject) (s : SslObject)
    (hello : List HelloCallback) (a : HandshakeAnswer) (fate : DeriveFate) :
    Prog Resource SslObject := do
  touch s.self
  touchEach s.bios
  let s ← callbacks e.keys keys s hello
  let x := a.keylog.foldl Ktls.ktlsKeylog e.x
  if a.rc = 1 then do
    ktlsDeriveBoth x (e.x.ssl.map Ssl.server = some true) a.suite fate
    pure s
  else pure s

/-- `ktls_still_has_ssl`, and what is done with the `SSL`. -/
def withSsl (e : ExchangeObject) (f : SslObject → Prog Resource SslObject) :
    Prog Resource (Option SslObject) := do
  touch e.self
  match e.ssl with
  | none => pure none
  | some s => do
    let s ← f s
    pure (some s)

def ktlsExchangeFeed (e : ExchangeObject) (bytes : Bytes) (written : ℤ) :
    Prog Resource ExchangeObject := do
  let ssl ← withSsl e fun s => do
    if bytes.length = 0 then pure s
    else do
      touchMaybe e.input
      pure s
  pure { e with ssl := ssl, x := (Ktls.ktlsExchangeFeed e.x bytes written).2 }

def ktlsExchangeTake (e : ExchangeObject) (cap : ℕ) : Prog Resource ExchangeObject := do
  let ssl ← withSsl e fun s => do
    touchMaybe e.output
    pure s
  pure { e with ssl := ssl, x := (Ktls.ktlsExchangeTake e.x cap).2 }

def ktlsExchangeStep (keys : Option KeysObject) (e : ExchangeObject)
    (hello : List HelloCallback) (a : HandshakeAnswer) (fate : DeriveFate) :
    Prog Resource ExchangeObject := do
  let ssl ← withSsl e fun s => do
    let s ← if e.x.done then pure s else handshake keys e s hello a fate
    touchMaybe e.output
    pure s
  pure { e with ssl := ssl, x := (Ktls.ktlsExchangeStep K e.x a fate).2 }

def ktlsExchangeBacklog (e : ExchangeObject) (a : ReadAnswer) :
    Prog Resource ExchangeObject := do
  let ssl ← withSsl e fun s =>
    if e.x.done then do
      touch s.self
      touchEach s.bios
      pure s
    else pure s
  pure { e with ssl := ssl, x := (Ktls.ktlsExchangeBacklog e.x a).2 }

/-- `BIO_pending` of the two BIOs, which may be gone. -/
def ktlsCryptoInfo (np : NullPending) (e : ExchangeObject) (dir : KtlsDirection) :
    Prog Resource ExchangeObject := do
  touch e.self
  touchMaybe e.output
  touchMaybe e.input
  pure { e with x := (Ktls.ktlsCryptoInfo np e.x dir).2 }

def ktlsNextKey (e : ExchangeObject) (dir : KtlsDirection) (fate : NextKeyFate) :
    Prog Resource ExchangeObject := do
  touch e.self
  if e.x.done then do
    ktlsExpand fate.upd
    if fate.upd = .derived then ktlsFill (e.x.secretLen (whichOf e.x.server dir)) fate.fill
    else pure ()
  else pure ()
  pure { e with x := (Ktls.ktlsNextKey K e.x dir fate).2 }

end Memory

end Ktls
