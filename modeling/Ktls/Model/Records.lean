import Ktls.Lib.Framing
import Ktls.Model.Bytes

/-! The record scanner of the exchange: `ktls_records`, `ktls_scan` and
`ktls_records_between`. Offsets count bytes since the exchange was opened; they
are natural numbers where the C has `uint64_t`, and no wrap is within reach. -/

namespace Ktls

/-- RFC 8446 5.1: a 5-byte header whose last two bytes announce the body's length. -/
def tlsRecord : Framing UInt8 where
  size := 5
  size_pos := by decide
  body h := 256 * (h.getD 3 0).toNat + (h.getD 4 0).toNat

/-- `struct ktls_records`, zeroed by default as `calloc` leaves it. -/
@[ext]
structure KtlsRecords where
  offset : ℕ := 0
  bodyLeft : ℕ := 0
  head : Bytes := List.replicate 5 0
  headLen : ℕ := 0
  ends : List ℕ := List.replicate 64 0
  count : ℕ := 0
  overflowed : Bool := false
  deriving DecidableEq

/-- A record has just ended: note where, or that there was no room to. -/
def KtlsRecords.noteEnd (r : KtlsRecords) : KtlsRecords :=
  if r.count < 64 then { r with ends := r.ends.set r.count r.offset, count := r.count + 1 }
  else { r with overflowed := true }

theorem KtlsRecords.noteEnd_room {r : KtlsRecords} (h : r.count < 64) :
    r.noteEnd = { r with ends := r.ends.set r.count r.offset, count := r.count + 1 } := if_pos h

theorem KtlsRecords.noteEnd_full {r : KtlsRecords} (h : ¬ r.count < 64) :
    r.noteEnd = { r with overflowed := true } := if_neg h

/-- `((uint64_t) head[3] << 8) | head[4]`. -/
def KtlsRecords.announced (r : KtlsRecords) : ℕ :=
  (r.head.getD 3 0).toNat <<< 8 ||| (r.head.getD 4 0).toNat

/-- The loop of `ktls_scan`. Every turn moves at least one byte of `p`, so the
length of `p` is fuel enough: a scan always takes all of `p` (`ktlsScan_parsed`). -/
def scanLoop : ℕ → KtlsRecords → Bytes → KtlsRecords
  | 0, r, _ => r
  | fuel + 1, r, p =>
    if p.length = 0 then r
    else if r.bodyLeft = 0 then
      let got := min p.length (5 - r.headLen)
      let r := { r with
        head := memcpy r.head r.headLen (p.take got)
        headLen := r.headLen + got
        offset := r.offset + got }
      if r.headLen < 5 then r
      else
        let r := { r with bodyLeft := r.announced, headLen := 0 }
        scanLoop fuel (if r.bodyLeft = 0 then r.noteEnd else r) (p.drop got)
    else
      let got := min p.length r.bodyLeft
      let r := { r with bodyLeft := r.bodyLeft - got, offset := r.offset + got }
      scanLoop fuel (if r.bodyLeft = 0 then r.noteEnd else r) (p.drop got)

@[simp] theorem scanLoop_nil (fuel : ℕ) (r : KtlsRecords) : scanLoop fuel r [] = r := by
  cases fuel with
  | zero => rfl
  | succ fuel => rw [scanLoop, if_pos List.length_nil]

def ktlsScan (r : KtlsRecords) (p : Bytes) : KtlsRecords := scanLoop p.length r p

/-- How many whole records ended in `(after, upto]`. -/
def ktlsRecordsBetween (r : KtlsRecords) (after upto : ℕ) : ℕ :=
  (r.ends.take r.count).countP fun e => after < e ∧ e ≤ upto

end Ktls
