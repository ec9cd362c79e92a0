import Ktls.Model.Bytes

/-! The keys a listener answers with: one default context, and one more for each
certificate a `server_name` picks. A C string is the bytes before its NUL. What
OpenSSL makes of an argument is a parameter; which allocations and which
version calls and setters work is an argument of the call. -/

namespace Ktls

/-- What OpenSSL accepts: a suite list, an ALPN list, a PEM certificate, a PEM key
beside the certificate already there, and the two together. -/
structure Libssl where
  suites : Bytes → Bool
  protos : Bytes → Bool
  certificate : Bytes → Option Bytes
  privateKey : Option Bytes → Bytes → Option Bytes
  checkPrivateKey : Option Bytes → Option Bytes → Bool

def tls13Version : ℕ := 0x0304
def sslVerifyNone : ℕ := 0

/-- `SSL_CTX`, as far as these calls set it; the defaults are a new one's. -/
structure SslCtx where
  minProto : ℕ := 0
  maxProto : ℕ := 0
  serverPreference : Bool := false
  suites : Bytes := []
  keylog : Bool := false
  alpnSelect : Bool := false
  alpnProtos : Bytes := []
  servername : Bool := false
  verifyMode : ℕ := sslVerifyNone
  certificate : Option Bytes := none
  privateKey : Option Bytes := none
  deriving DecidableEq

/-- `struct ktls_named_ctx`. -/
structure KtlsNamedCtx where
  host : Bytes
  ctx : SslCtx
  deriving DecidableEq

/-- `struct ktls_keys`; every default is what `calloc` leaves. -/
structure KtlsKeys where
  ctx : SslCtx
  alpn : Bytes := List.replicate 256 0
  alpnLen : ℕ := 0
  named : List KtlsNamedCtx := []
  suites : Bytes := []
  deriving DecidableEq

structure CtxFate where
  new : Bool := true
  minProto : Bool := true
  maxProto : Bool := true
  suites : Bool := true

structure KeysFate where
  ctx : CtxFate := {}
  certificateBio : Bool := true
  keyBio : Bool := true
  suites : Bool := true
  protos : Bool := true
  memory : Bool := true

/-- At which contexts the setter finds the memory it needs: the default one is number 0,
the named ones follow. -/
abbrev SetFate := ℕ → Bool

variable (lib : Libssl) (aesIsFast : Bool)

def sslCtxSetCiphersuites (works : Bool) (ctx : SslCtx) (suites : Bytes) :
    Except String Unit × SslCtx :=
  if works && lib.suites suites then (.ok (), { ctx with suites := suites })
  else (.error "set_ciphersuites", ctx)

/-- `SSL_CTX_set_alpn_select_cb`, then `SSL_CTX_set_alpn_protos`. -/
def sslCtxSetAlpn (works : Bool) (ctx : SslCtx) (protos : Bytes) :
    Except String Unit × SslCtx :=
  let ctx := { ctx with alpnSelect := true }
  if works && lib.protos protos then (.ok (), { ctx with alpnProtos := protos })
  else (.error "SSL_CTX_set_alpn_protos", ctx)

/-- The order `ktls_ctx_new` chooses for the machine. -/
def ktlsSuites : Bytes :=
  if aesIsFast then ascii "TLS_AES_128_GCM_SHA256:TLS_CHACHA20_POLY1305_SHA256"
  else ascii "TLS_CHACHA20_POLY1305_SHA256:TLS_AES_128_GCM_SHA256"

def ktlsCtxNew (fate : CtxFate) : Except String SslCtx :=
  if !fate.new then .error "SSL_CTX_new"
  else if !fate.minProto || !fate.maxProto then .error "set_proto_version(TLS1.3)"
  else
    let ctx : SslCtx :=
      { minProto := tls13Version, maxProto := tls13Version, serverPreference := true }
    match sslCtxSetCiphersuites lib fate.suites ctx (ktlsSuites aesIsFast) with
    | (.error e, _) => .error e
    | (.ok (), ctx) => .ok { ctx with keylog := true }

/-- What `BIO_new_mem_buf(pem, (int) len)` reads from: a negative length stands for
`strlen`. -/
def bioMemBuf (pem : Bytes) : Bytes :=
  if 0 ≤ cInt pem.length then pem.take (cInt pem.length).toNat else pem.takeWhile (· ≠ 0)

def ktlsPemInto (ctx : SslCtx) (pem : Bytes) (isKey bio : Bool) : Except String SslCtx :=
  if !bio then .error "BIO_new_mem_buf"
  else if isKey then
    match lib.privateKey ctx.certificate (bioMemBuf pem) with
    | none => .error "use_PrivateKey"
    | some key => .ok { ctx with privateKey := some key }
  else
    match lib.certificate (bioMemBuf pem) with
    | none => .error "use_certificate"
    | some cert => .ok { ctx with certificate := some cert }

/-- A new context with a certificate, its key, and the check that they belong
together: the part `ktls_keys_server` and `ktls_keys_add_certificate` share. -/
def ctxWithPair (certPem keyPem : Bytes) (fate : KeysFate) : Except String SslCtx := do
  let ctx ← ktlsCtxNew lib aesIsFast fate.ctx
  let ctx ← ktlsPemInto lib ctx certPem false fate.certificateBio
  let ctx ← ktlsPemInto lib ctx keyPem true fate.keyBio
  if lib.checkPrivateKey ctx.certificate ctx.privateKey then .ok ctx
  else .error "the private key does not match the certificate"

def ktlsKeysServer (certPem keyPem : Bytes) (fate : KeysFate) : Except String KtlsKeys :=
  if !fate.memory then .error "out of memory"
  else (ctxWithPair lib aesIsFast certPem keyPem fate).map fun ctx => { ctx := ctx }

def ktlsKeysClient (fate : KeysFate) : Except String KtlsKeys :=
  if !fate.memory then .error "out of memory"
  else (ktlsCtxNew lib aesIsFast fate.ctx).map fun ctx =>
    { ctx := { ctx with verifyMode := sslVerifyNone } }

/-- The inner loop of `ktls_alpn_pick`, over what is left of the client's list, with
the byte `n` of our own list and the name behind it. -/
def alpnOffered (n : UInt8) (name : Bytes) : ℕ → Bytes → Option Bytes
  | 0, _ => none
  | _ + 1, [] => none
  | fuel + 1, c :: rest =>
    if c = n ∧ rest.take n.toNat = name then some (rest.take n.toNat)
    else alpnOffered n name fuel (rest.drop c.toNat)

/-- The outer loop, from index `i` of our own list. -/
def alpnPickFrom (keys : KtlsKeys) (input : Bytes) : ℕ → ℕ → Option Bytes
  | 0, _ => none
  | fuel + 1, i =>
    if i < keys.alpnLen then
      let n := keys.alpn.getD i 0
      match alpnOffered n ((keys.alpn.drop (i + 1)).take n.toNat) input.length input with
      | some out => some out
      | none => alpnPickFrom keys input fuel (i + 1 + n.toNat)
    else none

/-- `ktls_alpn_pick`; `none` is `SSL_TLSEXT_ERR_NOACK`. Every turn of either loop moves
on by a byte at least. -/
def ktlsAlpnPick (keys : KtlsKeys) (input : Bytes) : Option Bytes :=
  alpnPickFrom keys input keys.alpnLen 0

/-- The second half of `ktls_ctx_follow`. -/
def followAlpn (keys : KtlsKeys) (ctx : SslCtx) (protos : Bool) : Except String SslCtx :=
  if keys.alpnLen ≠ 0 then
    match sslCtxSetAlpn lib protos ctx (keys.alpn.take keys.alpnLen) with
    | (.error e, _) => .error e
    | (.ok (), ctx) => .ok ctx
  else .ok ctx

def ktlsCtxFollow (keys : KtlsKeys) (ctx : SslCtx) (suites protos : Bool) :
    Except String SslCtx :=
  if keys.suites ≠ [] then
    match sslCtxSetCiphersuites lib suites ctx keys.suites with
    | (.error e, _) => .error e
    | (.ok (), ctx) => followAlpn lib keys ctx protos
  else followAlpn lib keys ctx protos

/-- The loops over `named`, from context number `i`: the first that fails ends them. -/
def eachNamed (f : ℕ → SslCtx → Except String Unit × SslCtx) :
    ℕ → List KtlsNamedCtx → Except String Unit × List KtlsNamedCtx
  | _, [] => (.ok (), [])
  | i, e :: es =>
    match f i e.ctx with
    | (.error m, ctx) => (.error m, { e with ctx := ctx } :: es)
    | (.ok (), ctx) =>
      let r := eachNamed f (i + 1) es
      (r.1, { e with ctx := ctx } :: r.2)

def ktlsKeysSetCiphers (keys : KtlsKeys) (suites : Option Bytes) (works : SetFate) :
    Except String Unit × KtlsKeys :=
  let list := suites.getD []
  if list.length = 0 ∨ 256 ≤ list.length then
    (.error "ktls_keys_set_ciphers: the suite list is empty or too long", keys)
  else
    match sslCtxSetCiphersuites lib (works 0) keys.ctx list with
    | (.error e, _) => (.error e, keys)
    | (.ok (), ctx) =>
      let r := eachNamed (fun i ctx => sslCtxSetCiphersuites lib (works i) ctx list) 1 keys.named
      (r.1, { keys with ctx := ctx, suites := list, named := r.2 })

/-- The loop that lays the names out, each behind its length. -/
def alpnFill : List Bytes → ℕ → Bytes → Except String ℕ × Bytes
  | [], n, alpn => (.ok n, alpn)
  | p :: ps, n, alpn =>
    if p.length = 0 ∨ 255 < p.length ∨ 256 < n + 1 + p.length then
      (.error "ktls_keys_set_alpn: the protocol names do not fit", alpn)
    else
      alpnFill ps (n + 1 + p.length)
        (memcpy (memcpy alpn n [UInt8.ofNat p.length]) (n + 1) p)

def ktlsKeysSetAlpn (keys : KtlsKeys) (protocols : List Bytes) (works : SetFate) :
    Except String Unit × KtlsKeys :=
  match alpnFill protocols 0 keys.alpn with
  | (.error e, alpn) => (.error e, { keys with alpn := alpn })
  | (.ok n, alpn) =>
    let keys := { keys with alpn := alpn, alpnLen := n }
    match sslCtxSetAlpn lib (works 0) keys.ctx (alpn.take n) with
    | (.error e, ctx) => (.error e, { keys with ctx := ctx })
    | (.ok (), ctx) =>
      let r := eachNamed (fun i ctx => sslCtxSetAlpn lib (works i) ctx (alpn.take n)) 1 keys.named
      (r.1, { keys with ctx := ctx, named := r.2 })

/-- `tolower` of the C locale. -/
def toLower (c : UInt8) : UInt8 := if 65 ≤ c ∧ c ≤ 90 then c + 32 else c

/-- `strcasecmp(a, b) == 0`. -/
def strcasecmp (a b : Bytes) : Bool := a.map toLower = b.map toLower

def star : UInt8 := 42
def dot : UInt8 := 46

def ktlsHostMatches (pattern name : Bytes) : Bool :=
  if [star, dot].isPrefixOf pattern then
    match name.dropWhile (· ≠ dot) with
    | [] => false
    | _ :: rest => strcasecmp rest (pattern.drop 2)
  else strcasecmp pattern name

/-- `ktls_name_pick`: the context in force afterwards, or `none` for the fatal alert.
`refused`: `SSL_set_SSL_CTX` answered NULL. -/
def ktlsNamePick (keys : KtlsKeys) (name : Option Bytes) (refused : Bool) : Option SslCtx :=
  match name with
  | none => some keys.ctx
  | some name =>
    match keys.named.find? fun e => ktlsHostMatches e.host name with
    | none => some keys.ctx
    | some e => if refused then none else some e.ctx

def ktlsKeysAddCertificate (keys : KtlsKeys) (host : Option Bytes) (certPem keyPem : Bytes)
    (fate : KeysFate) : Except String Unit × KtlsKeys :=
  let host := host.getD []
  if host.length = 0 ∨ 256 ≤ host.length then
    (.error "ktls_keys_add_certificate: the host name is empty or too long", keys)
  else if keys.named.any fun e => strcasecmp e.host host then
    (.error "ktls_keys_add_certificate: that host name was already named", keys)
  else
    match ctxWithPair lib aesIsFast certPem keyPem fate with
    | .error e => (.error e, keys)
    | .ok ctx =>
      match ktlsCtxFollow lib keys ctx fate.suites fate.protos with
      | .error e => (.error e, keys)
      | .ok ctx =>
        if !fate.memory then (.error "out of memory", keys)
        else
          (.ok (), { keys with
            named := keys.named ++ [{ host := host, ctx := ctx }]
            ctx := { keys.ctx with servername := true } })

end Ktls
