import Ktls.Model.Keys

/-! `ktls_alpn_pick` by position: where it reads and what it writes through its out
parameters. The two lists are borrowed, and a read behind the end of either is an
outcome of its own. -/

namespace Ktls

/-- How a walk ends: it returns, it reads outside its bytes, or it is still going when the
fuel is spent. -/
inductive Walk (α : Type) where
  | returned (a : α)
  | outside
  | running
  deriving DecidableEq

/-- `SSL_TLSEXT_ERR_OK` and `SSL_TLSEXT_ERR_NOACK`. -/
inductive AlpnAnswer | ok | noack
  deriving DecidableEq

/-- `*out`, as an offset into the client's list, and `*outlen`. -/
structure AlpnOut where
  out : ℕ
  outlen : ℕ
  deriving DecidableEq

/-- `memcmp(a + i, b + j, n) == 0`, which may read all `n` bytes of both. -/
def memcmpAt (a : Bytes) (i : ℕ) (b : Bytes) (j n : ℕ) : Option Bool :=
  if i + n ≤ a.length ∧ j + n ≤ b.length then some ((a.drop i).take n = (b.drop j).take n)
  else none

/-- The inner loop, from `j` of the client's list, for the name behind `ours[i]`: where
that name stands, if anywhere. -/
def alpnInner (ours input : Bytes) (i : ℕ) (n : UInt8) : ℕ → ℕ → Walk (Option ℕ)
  | 0, _ => .running
  | fuel + 1, j =>
    if h : j < input.length then
      if input[j] = n then
        match memcmpAt input (j + 1) ours (i + 1) n.toNat with
        | none => .outside
        | some true => .returned (some (j + 1))
        | some false => alpnInner ours input i n fuel (j + 1 + input[j].toNat)
      else alpnInner ours input i n fuel (j + 1 + input[j].toNat)
    else .returned none

/-- The outer loop, from `i` of our own list. Each turn of either loop moves on by one byte
at least, so a list's length is fuel enough and one turn to spare. -/
def alpnOuter (ours input : Bytes) (out : AlpnOut) : ℕ → ℕ → Walk (AlpnAnswer × AlpnOut)
  | 0, _ => .running
  | fuel + 1, i =>
    if h : i < ours.length then
      match alpnInner ours input i ours[i] (input.length + 1) 0 with
      | .running => .running
      | .outside => .outside
      | .returned (some j) => .returned (.ok, { out := j, outlen := ours[i].toNat })
      | .returned none => alpnOuter ours input out fuel (i + 1 + ours[i].toNat)
    else .returned (.noack, out)

/-- `out` is what the out parameters hold before the call. -/
def ktlsAlpnPickAt (keys : KtlsKeys) (input : Bytes) (out : AlpnOut) :
    Walk (AlpnAnswer × AlpnOut) :=
  alpnOuter (keys.alpn.take keys.alpnLen) input out (keys.alpnLen + 1) 0

end Ktls
