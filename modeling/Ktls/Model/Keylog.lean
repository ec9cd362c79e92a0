import Ktls.Model.State

/-! The keylog callback: SSLKEYLOGFILE lines in, application secrets out. A line
is the bytes before its terminating NUL. -/

namespace Ktls

def space : UInt8 := 32
def newline : UInt8 := 10

/-- `isspace` of the C locale. -/
def isSpace (c : UInt8) : Bool := c = 32 || (9 ≤ c && c ≤ 13)

def hexDigit (c : UInt8) : Option ℕ :=
  if 48 ≤ c ∧ c ≤ 57 then some (c.toNat - 48)
  else if 97 ≤ c ∧ c ≤ 102 then some (c.toNat - 87)
  else if 65 ≤ c ∧ c ≤ 70 then some (c.toNat - 55)
  else none

/-- `sscanf(s, "%2x", &v)`: white space is skipped, then at most two characters of
an optionally signed, optionally prefixed hexadecimal number. `0x` alone is the
start of a number and not one, as the C standard has it; glibc answers 1 there. -/
def sscanf2x (s : Bytes) : Option ℕ :=
  match s.dropWhile isSpace with
  | [] => none
  | c :: t =>
    if c = 43 then t.head?.bind hexDigit
    else if c = 45 then (t.head?.bind hexDigit).map fun v => (2 ^ 32 - v) % 2 ^ 32
    else
      (hexDigit c).bind fun h =>
        match t with
        | [] => some h
        | d :: _ =>
          if c = 48 ∧ (d = 120 ∨ d = 88) then none
          else match hexDigit d with
            | some l => some (16 * h + l)
            | none => some h

/-- How `ktls_unhex` ended. `overrun`: a lone last character was read and
`hex += 2` stepped over the terminating NUL, so the loop reads on outside the string. -/
inductive Unhexed
  | length (n : ℕ)
  | refused
  | overrun
  deriving DecidableEq

/-- `ktls_unhex`, with `n` bytes already in `out`. -/
def ktlsUnhex (cap : ℕ) : Bytes → ℕ → Bytes → Unhexed × Bytes
  | [], n, out => (.length n, out)
  | [c], n, out =>
    if c = space ∨ c = newline then (.length n, out)
    else match sscanf2x [c] with
      | none => (.refused, out)
      | some v =>
        if cap ≤ n then (.refused, out) else (.overrun, out.set n (UInt8.ofNat v))
  | c :: d :: hex, n, out =>
    if c = space ∨ c = newline then (.length n, out)
    else match sscanf2x (c :: d :: hex) with
      | none => (.refused, out)
      | some v =>
        if cap ≤ n then (.refused, out)
        else ktlsUnhex cap hex (n + 1) (out.set n (UInt8.ofNat v))

def kClient : Bytes := ascii "CLIENT_TRAFFIC_SECRET_0 "
def kServer : Bytes := ascii "SERVER_TRAFFIC_SECRET_0 "

/-- The label of the line that carries secret `which`. -/
def kLabel (which : Fin 2) : Bytes := if which = 0 then kClient else kServer

/-- The part of `ktls_keylog` behind the label. -/
def keylogSecret (x : KtlsExchange) (which : Fin 2) (rest : Bytes) : KtlsExchange :=
  match rest.dropWhile (· ≠ space) with
  | [] => x
  | _ :: hex =>
    let got := ktlsUnhex ktlsSecretMax hex 0 (x.secret which)
    { x with
      secret := Function.update x.secret which got.2
      secretLen := match got.1 with
        | .length n => Function.update x.secretLen which n
        | _ => x.secretLen }

def ktlsKeylog (x : KtlsExchange) (line : Bytes) : KtlsExchange :=
  if kClient.isPrefixOf line then keylogSecret x 0 (line.drop kClient.length)
  else if kServer.isPrefixOf line then keylogSecret x 1 (line.drop kServer.length)
  else x

end Ktls
