import Ktls.Model.Records
import Mathlib.Logic.Function.Basic

/-! What an exchange holds. The blob is the Linux one: on FreeBSD the struct
points at the key and the iv instead of holding them. -/

namespace Ktls

inductive KtlsRole | server | client
  deriving DecidableEq

inductive KtlsDirection | tx | rx
  deriving DecidableEq

inductive KtlsStep | done | reading | writing
  deriving DecidableEq

/-- `BIO_pending(NULL)` answers 0 or -1, by the version of OpenSSL. -/
inductive NullPending | zero | minusOne
  deriving DecidableEq

def NullPending.value : NullPending → ℤ
  | .zero => 0
  | .minusOne => -1

/-- TLS13-KDF: the first `n` bytes of the expansion of a secret under a label. -/
structure Kdf where
  expand : Bytes → String → ℕ → Bytes
  length_expand : ∀ s l n, (expand s l n).length = n

/-- The SSL as the exchange reaches it: the role `SSL_set_accept_state` or
`SSL_set_connect_state` gave it, and the two memory BIOs it owns. The three
pointers are set together and `SSL_free` frees all of them. -/
structure Ssl where
  server : Bool
  input : Bytes := []
  output : Bytes := []
  deriving DecidableEq

def ktlsAesGcm128 : ℕ := 1
def ktlsChacha20Poly1305 : ℕ := 2
def ktlsSecretMax : ℕ := 64

/-- `union ktls_info`, in the shape of the cipher it was filled for. -/
@[ext]
structure KtlsInfo where
  version : ℕ := 0
  cipherType : ℕ := 0
  iv : Bytes := []
  key : Bytes := []
  salt : Bytes := []
  recSeq : Bytes := []
  deriving DecidableEq

def le16 (n : ℕ) : Bytes := [UInt8.ofNat n, UInt8.ofNat (n >>> 8)]

/-- The bytes of `struct tls12_crypto_info_*`, in the kernel's field order. -/
def KtlsInfo.bytes (i : KtlsInfo) : Bytes :=
  le16 i.version ++ le16 i.cipherType ++ i.iv ++ i.key ++ i.salt ++ i.recSeq

/-- `struct ktls_exchange`; every default is what `calloc` leaves. -/
structure KtlsExchange where
  ssl : Option Ssl
  done : Bool := false
  tx : KtlsRecords := {}
  rx : KtlsRecords := {}
  txAtDone : ℕ := 0
  rxAtDone : ℕ := 0
  rxFed : ℕ := 0
  server : Bool := false
  cipherName : Bytes := []
  alpn : Bytes := List.replicate 32 0
  alpnLen : ℕ := 0
  rekeyed : Fin 2 → Bool := fun _ => false
  secret : Fin 2 → Bytes := fun _ => List.replicate ktlsSecretMax 0
  secretLen : Fin 2 → ℕ := fun _ => 0
  cipher : ℕ := 0
  info : Fin 2 → KtlsInfo := fun _ => {}
  key : Fin 2 → Bytes := fun _ => List.replicate 32 0
  iv : Fin 2 → Bytes := fun _ => List.replicate 12 0

/-- The secret the key schedule reads: `secret_len` bytes of the buffer. -/
def KtlsExchange.heldSecret (x : KtlsExchange) (which : Fin 2) : Bytes :=
  (x.secret which).take (x.secretLen which)

/-- Both secrets are numbered by one proof that there are two. -/
instance instNeZeroTwo : NeZero 2 := ⟨two_ne_zero⟩

/-- Which of the two secrets a direction uses, by the side the exchange is. -/
def whichOf (server : Bool) : KtlsDirection → Fin 2
  | .tx => if server then 1 else 0
  | .rx => if server then 0 else 1

/-- `BIO_pending(x->out)`, also when the pointer is NULL. -/
def pendingOut (np : NullPending) (x : KtlsExchange) : ℤ :=
  match x.ssl with
  | some s => s.output.length
  | none => np.value

/-- `BIO_pending(x->in)`, also when the pointer is NULL. -/
def pendingIn (np : NullPending) (x : KtlsExchange) : ℤ :=
  match x.ssl with
  | some s => s.input.length
  | none => np.value

/-- `x->rx_fed - (uint64_t) BIO_pending(x->in)`. Taking `(uint64_t) -1` away wraps
to one more, which is what the integers give as well. -/
def consumed (np : NullPending) (x : KtlsExchange) : ℕ := (x.rxFed - pendingIn np x).toNat

theorem whichOf_injective (server : Bool) : Function.Injective (whichOf server) := by
  intro d e
  cases server <;> cases d <;> cases e <;> decide

/-- What one side sends with, the other receives with. -/
theorem whichOf_peer (server : Bool) : whichOf server .tx = whichOf (!server) .rx := by
  cases server <;> rfl

end Ktls
