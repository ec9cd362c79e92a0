import Ktls.Lib.Framing
import Ktls.Lib.Machine
import Ktls.Model.Keys

/-! What the keys of a listener are asked for, and what every context answers then. -/

namespace Ktls

/-- RFC 7301 lists its names each behind a byte of length. -/
def alpnFraming : Framing UInt8 where
  size := 1
  size_pos := Nat.one_pos
  body head := (head.headD 0).toNat

/-- The names a list carries. -/
def alpnNames (list : Bytes) : List Bytes := (alpnFraming.frames list).map List.tail

/-- The list that carries these names. -/
def alpnList (names : List Bytes) : Bytes :=
  names.flatMap fun name => UInt8.ofNat name.length :: name

/-- The names that are laid out, from offset `n` on, before one is refused: it is empty, too
long, or there is no room for it. -/
def laidOut : List Bytes → ℕ → List Bytes
  | [], _ => []
  | p :: ps, n =>
    if p.length = 0 ∨ 255 < p.length ∨ 256 < n + 1 + p.length then []
    else p :: laidOut ps (n + 1 + p.length)

/-- One certificate to be added. -/
structure NewPair where
  host : Option Bytes
  certPem : Bytes
  keyPem : Bytes
  deriving DecidableEq

/-- What holds for every certificate alike. -/
inductive KeysSetting
  | alpn (protocols : List Bytes)
  | ciphers (suites : Option Bytes)
  deriving DecidableEq

/-- A call on a keys object. -/
inductive KeysCall
  | set (s : KeysSetting) (works : SetFate := fun _ => true)
  | add (pair : NewPair) (fate : KeysFate)

namespace KeysCall

variable (lib : Libssl) (aesIsFast : Bool)

/-- The call's result and the keys afterwards. -/
def exec (keys : KtlsKeys) : KeysCall → Except String Unit × KtlsKeys
  | .set (.alpn protocols) works => ktlsKeysSetAlpn lib keys protocols works
  | .set (.ciphers suites) works => ktlsKeysSetCiphers lib keys suites works
  | .add p fate => ktlsKeysAddCertificate lib aesIsFast keys p.host p.certPem p.keyPem fate

/-- Every call succeeds. -/
def machine : Machine KtlsKeys KeysCall where
  permits keys call := (call.exec lib aesIsFast keys).1 = .ok ()
  next keys call := (call.exec lib aesIsFast keys).2

instance (keys : KtlsKeys) (call : KeysCall) :
    Decidable ((machine lib aesIsFast).permits keys call) :=
  inferInstanceAs (Decidable (_ = _))

/-- Any call, whatever comes of it. -/
def trials : Machine KtlsKeys KeysCall where
  permits _ _ := True
  next keys call := (call.exec lib aesIsFast keys).2

def setting? : KeysCall → Option KeysSetting
  | .set s _ => some s
  | .add _ _ => none

def added? : KeysCall → Option NewPair
  | .set _ _ => none
  | .add p _ => some p

end KeysCall

/-- The settings among the calls, and the certificates, each in the order of the calls. -/
def settings (calls : List KeysCall) : List KeysSetting := calls.filterMap KeysCall.setting?
def added (calls : List KeysCall) : List NewPair := calls.filterMap KeysCall.added?

def KeysSetting.suites? : KeysSetting → Option Bytes
  | .alpn _ => none
  | .ciphers suites => suites

def KeysSetting.protocols? : KeysSetting → Option (List Bytes)
  | .alpn protocols => some protocols
  | .ciphers _ => none

/-- The last suite list asked for, and the last list of protocols. -/
def lastSuites (l : List KeysSetting) : Option Bytes := (l.filterMap KeysSetting.suites?).getLast?
def lastProtocols (l : List KeysSetting) : Option (List Bytes) :=
  (l.filterMap KeysSetting.protocols?).getLast?

/-- Keys as one of the two constructors made them. -/
inductive Made (lib : Libssl) (aesIsFast : Bool) (keys : KtlsKeys) : Prop
  | server (certPem keyPem : Bytes) (fate : KeysFate)
      (h : ktlsKeysServer lib aesIsFast certPem keyPem fate = .ok keys)
  | client (fate : KeysFate) (h : ktlsKeysClient lib aesIsFast fate = .ok keys)

/-- How a context takes part in a handshake, its certificate apart. -/
structure Answers where
  minProto : ℕ
  maxProto : ℕ
  serverPreference : Bool
  keylog : Bool
  suites : Bytes
  /-- The list a ClientHello carries. -/
  offer : Bytes
  /-- The protocol picked from a ClientHello's list. -/
  pick : Bytes → Option Bytes

/-- The callback is asked only where one is set, and reads the list of the keys. -/
def SslCtx.answers (ctx : SslCtx) (keys : KtlsKeys) : Answers where
  minProto := ctx.minProto
  maxProto := ctx.maxProto
  serverPreference := ctx.serverPreference
  keylog := ctx.keylog
  suites := ctx.suites
  offer := ctx.alpnProtos
  pick list := if ctx.alpnSelect then ktlsAlpnPick keys list else none

/-- The protocol a handshake selects: the context the server goes on with is asked about the
list the client's context carries. -/
def selected (serverKeys : KtlsKeys) (server client : SslCtx) : Option Bytes :=
  (server.answers serverKeys).pick client.alpnProtos

/-- What the calls asked for: the last suites or the machine's own order, and of the last
protocols the first one the peer names too. -/
def configured (aesIsFast : Bool) (l : List KeysSetting) : Answers where
  minProto := tls13Version
  maxProto := tls13Version
  serverPreference := true
  keylog := true
  suites := (lastSuites l).getD (ktlsSuites aesIsFast)
  offer := alpnList ((lastProtocols l).getD [])
  pick list := ((lastProtocols l).getD []).find? fun name => name ∈ alpnNames list

/-- The certificate and key a context holds. -/
def SslCtx.pair (ctx : SslCtx) : Option Bytes × Option Bytes := (ctx.certificate, ctx.privateKey)

/-- What OpenSSL reads out of the two PEM texts. -/
def NewPair.pair (lib : Libssl) (p : NewPair) : Option Bytes × Option Bytes :=
  let cert := lib.certificate (bioMemBuf p.certPem)
  (cert, lib.privateKey cert (bioMemBuf p.keyPem))

/-- The default context and the named ones. -/
def KtlsKeys.contexts (keys : KtlsKeys) : List SslCtx :=
  keys.ctx :: keys.named.map KtlsNamedCtx.ctx

/-- The list of suites the keys remember, and the one of each context. -/
def KtlsKeys.orders (keys : KtlsKeys) : List Bytes :=
  keys.suites :: keys.contexts.map SslCtx.suites

/-- The list of suites in force: the last one taken, or the machine's own order. -/
def KtlsKeys.inForce (aesIsFast : Bool) (keys : KtlsKeys) : Bytes :=
  if keys.suites = [] then ktlsSuites aesIsFast else keys.suites

/-- The call for `suites` is turned down before it changes anything, or finds every context
willing, or finds its list in force already wherever it gets to. -/
def Unbroken (lib : Libssl) (keys : KtlsKeys) (suites : Option Bytes) (works : SetFate) : Prop :=
  let list := suites.getD []
  list.length = 0 ∨ 256 ≤ list.length ∨ (works 0 && lib.suites list) = false ∨
    (∀ i < keys.named.length, works (i + 1) = true) ∨
    keys.suites = list ∧ keys.ctx.suites = list ∧
      ∀ i e, keys.named[i]? = some e → (∀ j ≤ i, works (j + 1) = true) → e.ctx.suites = list

/-- Only a call for suites can be anything else. -/
def KeysCall.Unbroken (lib : Libssl) (keys : KtlsKeys) : KeysCall → Prop
  | .set (.ciphers suites) works => Ktls.Unbroken lib keys suites works
  | .set (.alpn _) _ | .add _ _ => True

/-- Each named host with its certificate and its answers. -/
def KtlsKeys.table (keys : KtlsKeys) : List (Bytes × (Option Bytes × Option Bytes) × Answers) :=
  keys.named.map fun e => (e.host, e.ctx.pair, e.ctx.answers keys)

/-- Keys beside the names of the last call for protocols that returned 0. -/
structure Offered where
  keys : KtlsKeys
  names : List Bytes := []

namespace Offered

/-- The list the keys answer from is the encoding of those names. -/
structure Exact (S : Offered) : Prop where
  length : S.keys.alpnLen = (alpnList S.names).length
  list : S.keys.alpn.take S.keys.alpnLen = alpnList S.names

variable (lib : Libssl) (aesIsFast : Bool)

def after (S : Offered) (call : KeysCall) : Offered :=
  let r := call.exec lib aesIsFast S.keys
  { keys := r.2
    names := match r.1 with
      | .ok () => (call.setting?.bind KeysSetting.protocols?).getD S.names
      | .error _ => S.names }

/-- Any calls, whatever comes of them. -/
def trials : Machine Offered KeysCall where
  permits _ _ := True
  next := after lib aesIsFast

/-- A call for protocols that is taken by every context, or asks for the names in force; or
one that is refused when all it has laid out are the first names in force, or these and
more. -/
def Undisturbed (S : Offered) : KeysCall → Prop
  | .set (.alpn protocols) works =>
    if laidOut protocols 0 = protocols then
      (lib.protos (alpnList protocols) = true ∧ ∀ i ≤ S.keys.named.length, works i = true) ∨
        protocols = S.names
    else laidOut protocols 0 <+: S.names ∨ S.names <+: laidOut protocols 0
  | .set (.ciphers _) _ | .add _ _ => True

end Offered

/-! Which name a host stands for. -/

/-- The same name without regard to letter case. -/
def SameName (a b : Bytes) : Prop := a.map toLower = b.map toLower

/-- `host` is a wildcard and `name` is one label in front of what it covers. -/
def Covers (host name : Bytes) : Prop :=
  ∃ domain label rest, host = star :: dot :: domain ∧ name = label ++ dot :: rest ∧
    dot ∉ label ∧ SameName rest domain

/-- What a host is to stand for: itself, or, as a wildcard, every name with one label in
front of what it covers. A label is not empty. -/
def StandsFor (host name : Bytes) : Prop :=
  (¬ [star, dot] <+: host ∧ SameName host name) ∨
    ∃ domain label rest, host = star :: dot :: domain ∧ name = label ++ dot :: rest ∧
      label ≠ [] ∧ dot ∉ label ∧ SameName rest domain

/-- Nothing stands in front of the dot. -/
def Unlabelled (host name : Bytes) : Prop :=
  ∃ domain rest, host = star :: dot :: domain ∧ name = dot :: rest ∧ SameName rest domain

/-- A host `ktls_host_matches` reads as a wildcard. -/
def isWildcard (host : Bytes) : Bool := [star, dot].isPrefixOf host

/-- The host a certificate was added under. -/
def NewPair.name (p : NewPair) : Bytes := p.host.getD []

/-- The context a handshake goes on with: OpenSSL asks `ktls_name_pick` where the default
context carries it, and nothing otherwise. -/
def KtlsKeys.serving (keys : KtlsKeys) (name : Option Bytes) (refused : Bool) : Option SslCtx :=
  if keys.ctx.servername then ktlsNamePick keys name refused else some keys.ctx

end Ktls
