import Ktls.Spec.Memory

/-! The objects of the mruby binding. A `KTLS::Exchange` remembers its `KTLS::Keys` in an
instance variable, so that the collector has no right to the keys while the exchange is in
use. `exchange_init` can fail to set it, and a program can set it to something else. -/

namespace Ktls

open Heap

/-- A `KTLS::Exchange`: the pointer it wraps, and the keys it remembers by their number. -/
structure RubyExchange where
  data : Option ExchangeObject := none
  keys : Option ℕ := none

/-- The objects there are, by number. Where one was finalized nothing is wrapped. -/
structure Vm where
  keys : List (Option KeysObject) := []
  exchanges : List RubyExchange := []

namespace Vm

inductive Object
  | keys (i : ℕ)
  | exchange (j : ℕ)
  deriving DecidableEq

/-- What a program does, and what the collector does. `room`: mruby finds the memory for a
new object. `remembers`: `mrb_iv_set` does not raise. -/
inductive Op
  | server (certPem keyPem : Bytes) (fate : KeysFate) (parsed : Memory.PemFate) (room : Bool)
  | client (fate : KeysFate) (room : Bool)
  | keysCall (i : ℕ) (call : KeysCall) (parsed : Memory.PemFate)
  | allocate
  | initialize_ (j i : ℕ) (role : KtlsRole) (fate : Memory.OpenFate) (remembers : Bool)
  | setKeys (j : ℕ) (keys : Option ℕ)
  | call (j : ℕ) (call : Call) (hello : List Memory.HelloCallback)
  | sweep (dead : List Object)

def data (S : Vm) : List (Option ExchangeObject) := S.exchanges.map RubyExchange.data

/-- `@keys` of an exchange, if it is a `KTLS::Keys`. -/
def keysOf (S : Vm) (j : ℕ) : Option ℕ := S.exchanges[j]?.bind RubyExchange.keys

/-- `keys_free` and `exchange_free`, which mruby calls with the pointer. -/
def finalize (S : Vm) : Object → Prog Resource Vm
  | .keys i => do
    freeHandle Memory.ktlsKeysFree (handle S.keys i)
    pure { S with keys := S.keys.set i none }
  | .exchange j => do
    freeHandle Memory.ktlsExchangeFree (handle S.data j)
    pure { S with exchanges := S.exchanges.set j {} }

def finalizeEach : Vm → List Object → Prog Resource Vm
  | S, [] => pure S
  | S, o :: dead => do
    let S ← finalize S o
    finalizeEach S dead

variable (lib : Libssl) (aesIsFast : Bool) (K : Kdf)

/-- `ktls_raise` where there is no pointer, else a new object around it. -/
def wrapKeys (S : Vm) (k : Option KeysObject) (room : Bool) : Vm :=
  if k.isSome && room then { S with keys := S.keys ++ [k] } else S

/-- `exchange_init` sets the pointer before the instance variable. -/
def exec (S : Vm) : Op → Prog Resource Vm
  | .server certPem keyPem fate parsed room => do
    let k ← Memory.ktlsKeysServer lib aesIsFast certPem keyPem fate parsed
    pure (wrapKeys S k room)
  | .client fate room => do
    let k ← Memory.ktlsKeysClient lib aesIsFast fate
    pure (wrapKeys S k room)
  | .keysCall i call parsed =>
    match handle S.keys i with
    | none => pure S
    | some k => do
      let k ← Memory.keysCall lib aesIsFast k parsed call
      pure { S with keys := S.keys.set i (some k) }
  | .allocate => pure { S with exchanges := S.exchanges ++ [{}] }
  | .initialize_ j i role fate remembers => do
    let e ← Memory.ktlsExchangeOpen (handle S.keys i) role fate
    match e with
    | none => pure S
    | some e =>
      let keys := if remembers then some i else S.keysOf j
      pure { S with exchanges := S.exchanges.set j { data := some e, keys := keys } }
  | .setKeys j keys =>
    pure { S with exchanges := S.exchanges.set j { data := handle S.data j, keys := keys } }
  | .call j call hello =>
    match S.exchanges[j]? with
    | none => pure S
    | some x =>
      match x.data with
      | none => pure S
      | some e => do
        let e ← Memory.exchangeCall K (keysAt S.keys e.keys) e hello call
        pure { S with exchanges := S.exchanges.set j { x with data := some e } }
  | .sweep dead => finalizeEach S dead

/-- The collector leaves what an exchange it leaves remembers. -/
def Permits (S : Vm) : Op → Prop
  | .initialize_ j _ _ _ _ | .setKeys j _ => j < S.exchanges.length
  | .sweep dead => ∀ j < S.exchanges.length, .exchange j ∉ dead →
      ∀ i ∈ S.keysOf j, .keys i ∉ dead
  | .server _ _ _ _ _ | .client _ _ | .keysCall _ _ _ | .allocate | .call _ _ _ => True

instance (S : Vm) (op : Op) : Decidable (S.Permits op) :=
  match op with
  | .initialize_ _ _ _ _ _ | .setKeys _ _ => inferInstanceAs (Decidable (_ < _))
  | .sweep dead => inferInstanceAs (Decidable (∀ j < S.exchanges.length, .exchange j ∉ dead →
      ∀ i ∈ S.keysOf j, .keys i ∉ dead))
  | .server _ _ _ _ _ | .client _ _ | .keysCall _ _ _ | .allocate | .call _ _ _ => .isTrue trivial

def machine : Machine (Vm × Heap Resource) Op := Heap.machine Permits (exec lib aesIsFast K)

instance (S : Vm × Heap Resource) (op : Op) :
    Decidable ((machine lib aesIsFast K).permits S op) :=
  inferInstanceAs (Decidable (Permits S.1 op))

/-- An exchange that wraps a pointer has the keys it was opened from in `@keys`. -/
def Remembers (S : Vm) (j : ℕ) : Prop :=
  ∀ e ∈ handle S.data j, ∃ k ∈ (S.keysOf j).bind (handle S.keys), k.self = e.keys

instance (S : Vm) (j : ℕ) : Decidable (S.Remembers j) :=
  inferInstanceAs (Decidable (∀ e ∈ handle S.data j,
    ∃ k ∈ (S.keysOf j).bind (handle S.keys), k.self = e.keys))

/-- When the collector comes by, every exchange it leaves remembers its keys. -/
def Tended (S : Vm) : Op → Prop
  | .sweep dead => ∀ j < S.exchanges.length, .exchange j ∉ dead → S.Remembers j
  | .server _ _ _ _ _ | .client _ _ | .keysCall _ _ _ | .allocate | .initialize_ _ _ _ _ _
  | .setKeys _ _ | .call _ _ _ => True

instance (S : Vm) (op : Op) : Decidable (S.Tended op) :=
  match op with
  | .sweep dead =>
    inferInstanceAs (Decidable (∀ j < S.exchanges.length, .exchange j ∉ dead → S.Remembers j))
  | .server _ _ _ _ _ | .client _ _ | .keysCall _ _ _ | .allocate | .initialize_ _ _ _ _ _
  | .setKeys _ _ | .call _ _ _ => .isTrue trivial

/-- `exchange_init` does not raise behind the pointer, and `@keys` is left alone. -/
def Op.Remembering : Op → Prop
  | .initialize_ _ _ _ _ remembers => remembers = true
  | .setKeys _ _ => False
  | .server _ _ _ _ _ | .client _ _ | .keysCall _ _ _ | .allocate | .call _ _ _ | .sweep _ => True

instance (op : Op) : Decidable op.Remembering :=
  match op with
  | .initialize_ _ _ _ _ _ => inferInstanceAs (Decidable (_ = _))
  | .setKeys _ _ => .isFalse id
  | .server _ _ _ _ _ | .client _ _ | .keysCall _ _ _ | .allocate | .call _ _ _ | .sweep _ =>
    .isTrue trivial

def tended : Machine (Vm × Heap Resource) Op :=
  (machine lib aesIsFast K).restrict fun S op => S.1.Tended op

instance (S : Vm × Heap Resource) (op : Op) :
    Decidable ((tended lib aesIsFast K).permits S op) :=
  inferInstanceAs (Decidable (_ ∧ _))

def owned (S : Vm) : Multiset Pointer :=
  ownedBy KeysObject.owned S.keys + ownedBy ExchangeObject.owned S.data

/-- The steps that may leave something behind: mruby has no room for the keys that were made,
a BIO is stranded, or an exchange is initialized again. -/
def wastes (S : Vm) : Op → ℕ
  | .server _ _ _ _ room | .client _ room => if room then 0 else 1
  | .initialize_ j _ _ fate _ => if fate.Strands ∨ (handle S.data j).isSome then 1 else 0
  | .keysCall _ _ _ | .allocate | .setKeys _ _ | .call _ _ _ | .sweep _ => 0

end Vm

end Ktls
