import Ktls.Model.Keylog
import Mathlib.Algebra.Group.Nat.Even

/-! What hex digits spell, what a line of the key log says, and on which strings
`ktls_unhex` can be trusted. -/

namespace Ktls

/-- An even number of hex digits. -/
def HexPairs (t : Bytes) : Prop := Even t.length ∧ ∀ c ∈ t, (hexDigit c).isSome = true

instance (t : Bytes) : Decidable (HexPairs t) :=
  decidable_of_iff (t.length % 2 = 0 ∧ t.all (fun c => (hexDigit c).isSome) = true)
    (and_congr Nat.even_iff.symm List.all_eq_true)

/-- The bytes that pairs of digits spell. -/
def spelled : Bytes → Bytes
  | h :: l :: rest =>
    UInt8.ofNat (16 * (hexDigit h).getD 0 + (hexDigit l).getD 0) :: spelled rest
  | [_] | [] => []

/-- The part of a string in front of its first space or newline. -/
def hexPart (s : Bytes) : Bytes := s.takeWhile fun c => c ≠ space ∧ c ≠ newline

/-- What decoding `s` into the `cap` bytes of `out` is to come to. -/
structure ExactlyHex (cap : ℕ) (s out : Bytes) (r : Unhexed × Bytes) : Prop where
  accepts : HexPairs (hexPart s) → (hexPart s).length ≤ 2 * cap →
    r = (.length ((hexPart s).length / 2), memcpy out 0 (spelled (hexPart s)))
  refuses : ¬ (HexPairs (hexPart s) ∧ (hexPart s).length ≤ 2 * cap) → r.1 = .refused

/-- At offset `2 * k` a space or a newline stands, or the string does not reach that far. -/
def EndsAt (s : Bytes) (k : ℕ) : Prop := ∀ c ∈ (s.drop (2 * k)).head?, c = space ∨ c = newline

/-- In front of the first even offset that is an end there are more than `cap` even ones, or
one at which `%2x` finds no number. -/
def Unreadable (cap : ℕ) (s : Bytes) : Prop :=
  ∀ k, EndsAt s k → (∀ i < k, ¬ EndsAt s i) → cap < k ∨ ∃ i < k, sscanf2x (s.drop (2 * i)) = none

/-- `<LABEL> <client_random> <secret>`, with the newline it may end in. -/
structure KeylogLine where
  label : Bytes
  random : Bytes
  digits : Bytes
  ended : Bool
  label_no_space : space ∉ label
  random_no_space : space ∉ random
  digits_pairs : HexPairs digits
  digits_fit : 0 < digits.length ∧ digits.length ≤ 2 * ktlsSecretMax
  deriving DecidableEq

namespace KeylogLine

variable (l : KeylogLine)

/-- What follows the digits. -/
def tail : Bytes := if l.ended then [newline] else []

def bytes : Bytes := l.label ++ space :: (l.random ++ space :: (l.digits ++ l.tail))

def secret : Bytes := spelled l.digits

/-- The line carries secret `i`. -/
def Names (i : Fin 2) : Prop := l.label ++ [space] = kLabel i

instance (i : Fin 2) : Decidable (l.Names i) := inferInstanceAs (Decidable (_ = _))

end KeylogLine

end Ktls
