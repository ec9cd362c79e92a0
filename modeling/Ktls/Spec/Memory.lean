import Ktls.Lib.Handles
import Ktls.Lib.Machine
import Ktls.Model.Memory
import Ktls.Spec.Keys
import Ktls.Spec.Release

/-! Who gives what back. The handles of `ktls.hpp` and what is done with them, in any order. -/

namespace Ktls

open Heap

/-- What an object has to give back. -/
def KeysObject.owned (k : KeysObject) : Multiset Pointer :=
  {k.self} + {k.ctx} + held k.array + (k.namedCtx : Multiset Pointer)

def SslObject.owned (s : SslObject) : Multiset Pointer :=
  {s.self} + {s.ctx} + (s.bios : Multiset Pointer)

def ExchangeObject.owned (e : ExchangeObject) : Multiset Pointer :=
  {e.self} + match e.ssl with
    | some s => s.owned
    | none => held e.input + held e.output

/-- Each named context has its entry. -/
def KeysObject.Built (k : KeysObject) : Prop := k.namedCtx.length = k.keys.named.length

/-- The exchange has an `SSL` that was given both of its BIOs, or it was released. -/
inductive ExchangeObject.Built (e : ExchangeObject) : Prop
  | full (s : SslObject) (input output : Pointer) (ssl : e.ssl = some s)
      (bios : s.bios = [input, output]) (hin : e.input = some input)
      (hout : e.output = some output) (x : e.x.ssl.isSome = true)
  | released (ssl : e.ssl = none) (hin : e.input = none) (hout : e.output = none)
      (x : e.x.ssl = none)

namespace Memory

variable (lib : Libssl) (aesIsFast : Bool) (K : Kdf)

def keysCall (k : KeysObject) (parsed : PemFate) : KeysCall → Prog Resource KeysObject
  | .set (.alpn protocols) works => ktlsKeysSetAlpn lib k protocols works
  | .set (.ciphers suites) works => ktlsKeysSetCiphers lib k suites works
  | .add p fate => ktlsKeysAddCertificate lib aesIsFast k p.host p.certPem p.keyPem fate parsed

/-- There is an `SSL` and one of the two BIOs, which it has not been given and which
`ktls_exchange_free` leaves to it. -/
def OpenFate.Strands (fate : OpenFate) : Prop :=
  fate.memory = true ∧ fate.ssl = true ∧ fate.input ≠ fate.output

instance (fate : OpenFate) : Decidable fate.Strands := inferInstanceAs (Decidable (_ ∧ _))

/-- The exchange that is opened, if there is memory for all of it. -/
def OpenFate.opened (fate : OpenFate) (role : KtlsRole) : Option KtlsExchange :=
  if fate.memory && fate.ssl && fate.input && fate.output then some (Ktls.ktlsExchangeOpen role)
  else none

/-- A call on an exchange. `keys` is what stands where its keys stood, and `hello` what
OpenSSL calls back for, should it get to read a ClientHello. -/
def exchangeCall (keys : Option KeysObject) (e : ExchangeObject) (hello : List HelloCallback) :
    Call → Prog Resource ExchangeObject
  | .feed bytes written => ktlsExchangeFeed e bytes written
  | .step a fate => ktlsExchangeStep K keys e hello a fate
  | .take cap => ktlsExchangeTake e cap
  | .backlog a => ktlsExchangeBacklog e a
  | .ask np dir => ktlsCryptoInfo np e dir
  | .nextKey dir fate => ktlsNextKey K e dir fate
  | .release => ktlsExchangeRelease e

end Memory

/-- What stands at an address. -/
def keysAt (keys : List (Option KeysObject)) (address : Pointer) : Option KeysObject :=
  keys.findSome? fun o => o.filter fun k => k.self = address

/-- The objects of `ktls.hpp` there are, `ktls::Keys` and `ktls::Exchange`. -/
structure Handles where
  keys : List (Option KeysObject) := []
  exchanges : List (Option ExchangeObject) := []

namespace Handles

/-- What is done with them. -/
inductive Op
  | server (certPem keyPem : Bytes) (fate : KeysFate) (parsed : Memory.PemFate)
  | client (fate : KeysFate)
  | keysCall (i : ℕ) (call : KeysCall) (parsed : Memory.PemFate)
  | keysLife (l : Lifetime)
  | open_ (i : ℕ) (role : KtlsRole) (fate : Memory.OpenFate)
  | call (j : ℕ) (call : Call) (hello : List Memory.HelloCallback)
  | exchangeLife (l : Lifetime)

variable (lib : Libssl) (aesIsFast : Bool) (K : Kdf)

def exec (S : Handles) : Op → Prog Resource Handles
  | .server certPem keyPem fate parsed => do
    let k ← Memory.ktlsKeysServer lib aesIsFast certPem keyPem fate parsed
    pure { S with keys := S.keys ++ [k] }
  | .client fate => do
    let k ← Memory.ktlsKeysClient lib aesIsFast fate
    pure { S with keys := S.keys ++ [k] }
  | .keysCall i call parsed =>
    match handle S.keys i with
    | none => pure S
    | some k => do
      let k ← Memory.keysCall lib aesIsFast k parsed call
      pure { S with keys := S.keys.set i (some k) }
  | .keysLife l => do
    let keys ← l.exec Memory.ktlsKeysFree S.keys
    pure { S with keys := keys }
  | .open_ i role fate => do
    let e ← Memory.ktlsExchangeOpen (handle S.keys i) role fate
    pure { S with exchanges := S.exchanges ++ [e] }
  | .call j call hello =>
    match handle S.exchanges j with
    | none => pure S
    | some e => do
      let e ← Memory.exchangeCall K (keysAt S.keys e.keys) e hello call
      pure { S with exchanges := S.exchanges.set j (some e) }
  | .exchangeLife l => do
    let exchanges ← l.exec Memory.ktlsExchangeFree S.exchanges
    pure { S with exchanges := exchanges }

/-- A handle that is named is there, one a method is called on is not empty, and the keys of
an exchange are still there when OpenSSL calls back for them. -/
def Permits (S : Handles) : Op → Prop
  | .server _ _ _ _ | .client _ => True
  | .keysCall i _ _ => (handle S.keys i).isSome = true
  | .keysLife l => l.InRange S.keys.length
  | .open_ i _ _ => i < S.keys.length
  | .call j _ hello => ∃ e ∈ handle S.exchanges j,
      hello = [] ∨ (keysAt S.keys e.keys).isSome = true
  | .exchangeLife l => l.InRange S.exchanges.length

instance (S : Handles) (op : Op) : Decidable (S.Permits op) :=
  match op with
  | .server _ _ _ _ | .client _ => .isTrue trivial
  | .keysCall _ _ _ => inferInstanceAs (Decidable (_ = _))
  | .keysLife l => inferInstanceAs (Decidable (l.InRange _))
  | .open_ _ _ _ => inferInstanceAs (Decidable (_ < _))
  | .call j _ hello => inferInstanceAs (Decidable (∃ e ∈ handle S.exchanges j,
      hello = [] ∨ (keysAt S.keys e.keys).isSome = true))
  | .exchangeLife l => inferInstanceAs (Decidable (l.InRange _))

def machine : Machine (Handles × Heap Resource) Op := Heap.machine Permits (exec lib aesIsFast K)

instance (S : Handles × Heap Resource) (op : Op) :
    Decidable ((machine lib aesIsFast K).permits S op) :=
  inferInstanceAs (Decidable (Permits S.1 op))

def owned (S : Handles) : Multiset Pointer :=
  ownedBy KeysObject.owned S.keys + ownedBy ExchangeObject.owned S.exchanges

/-- What was called on each object, by the handle that has it now. -/
structure History where
  keys : List (Option (Past KtlsKeys KeysCall)) := []
  exchanges : List (Option (Past KtlsExchange Call)) := []

/-- A call is noted with the object of the handle it is made on. -/
def History.note (H : History) : Op → History
  | .server certPem keyPem fate _ =>
    { H with keys := H.keys ++
        [(ktlsKeysServer lib aesIsFast certPem keyPem fate).toOption.map fun k => { made := k }] }
  | .client fate =>
    { H with keys := H.keys ++
        [(ktlsKeysClient lib aesIsFast fate).toOption.map fun k => { made := k }] }
  | .keysCall i call _ =>
    { H with keys := H.keys.set i ((handle H.keys i).map (Past.call call)) }
  | .keysLife l => { H with keys := l.arrange H.keys }
  | .open_ i role fate =>
    let x := (handle H.keys i).bind fun _ => fate.opened role
    { H with exchanges := H.exchanges ++ [x.map fun x => { made := x }] }
  | .call j call _ =>
    { H with exchanges := H.exchanges.set j ((handle H.exchanges j).map (Past.call call)) }
  | .exchangeLife l => { H with exchanges := l.arrange H.exchanges }

def history (ops : List Op) : History := ops.foldl (History.note lib aesIsFast) {}

/-- How many BIOs go out of reach. -/
def loses (S : Handles) : Op → ℕ
  | .open_ i _ fate => if (handle S.keys i).isSome ∧ fate.Strands then 1 else 0
  | _ => 0

end Handles

end Ktls
