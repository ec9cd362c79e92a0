import Ktls.Model.Exchange

/-! The key schedule the blobs are to follow: what a traffic secret determines, and
the secret that stands behind it after a number of updates. -/

namespace Ktls

/-- The same key at another sequence. -/
def KtlsInfo.withSeq (i : KtlsInfo) (q : Bytes) : KtlsInfo := { i with recSeq := q }

@[simp] theorem KtlsInfo.withSeq_withSeq (i : KtlsInfo) (p q : Bytes) :
    (i.withSeq p).withSeq q = i.withSeq q := rfl

theorem KtlsInfo.withSeq_self (i : KtlsInfo) : i.withSeq i.recSeq = i := rfl

section

variable (K : Kdf)

/-- RFC 8446 7.2: the secret behind this one. -/
def nextSecret (s : Bytes) : Bytes := K.expand s "traffic upd" s.length

/-- The secret after `n` updates. -/
def secretAfter (s : Bytes) (n : ℕ) : Bytes := (nextSecret K)^[n] s

/-- RFC 8446 7.3: the key and the iv of a secret, in the kernel's layout and at
sequence zero. -/
def layout (c : ℕ) (s : Bytes) : KtlsInfo :=
  infoOf c (K.expand s "key" (keyLen c)) (K.expand s "iv" 12)

/-- The blob of secret `s` for a kernel that continues at record `seq`. -/
def blob (c : ℕ) (s : Bytes) (seq : ℕ) : Bytes := ((layout K c s).withSeq (be64 seq)).bytes

theorem secretAfter_succ (s : Bytes) (n : ℕ) :
    secretAfter K s (n + 1) = nextSecret K (secretAfter K s n) :=
  Function.iterate_succ_apply' _ _ _

end

/-- The number in a blob's `rec_seq`, its last field. -/
def recSeqOf (b : Bytes) : ℕ := readBE (b.drop (b.length - 8))

theorem drop_bytes (i : KtlsInfo) (seq : ℕ) :
    (i.withSeq (be64 seq)).bytes.drop ((i.withSeq (be64 seq)).bytes.length - 8) = be64 seq := by
  have hbytes : (i.withSeq (be64 seq)).bytes =
      (le16 i.version ++ le16 i.cipherType ++ i.iv ++ i.key ++ i.salt) ++ be64 seq := rfl
  rw [hbytes, List.length_append, length_be64, Nat.add_sub_cancel_right, List.drop_left]

theorem recSeqOf_bytes (i : KtlsInfo) {seq : ℕ} (h : seq < 2 ^ 64) :
    recSeqOf (i.withSeq (be64 seq)).bytes = seq := by
  rw [recSeqOf, drop_bytes, readBE_be64 h]

theorem recSeqOf_blob (K : Kdf) (c : ℕ) (s : Bytes) {seq : ℕ} (h : seq < 2 ^ 64) :
    recSeqOf (blob K c s seq) = seq := recSeqOf_bytes _ h

/-- The application secrets of one connection, the client's first. -/
def sampleSecret (i : Fin 2) : Bytes :=
  if i = 0 then
    [158, 64, 100, 108, 231, 154, 127, 157, 192, 90, 248, 136, 155, 206, 101, 82, 135, 90, 250,
     11, 6, 223, 0, 135, 247, 146, 235, 183, 193, 117, 4, 165]
  else
    [161, 26, 249, 240, 85, 49, 248, 86, 173, 71, 17, 107, 69, 169, 80, 50, 130, 4, 180, 244,
     75, 251, 107, 58, 75, 79, 31, 63, 203, 99, 22, 67]

/-- The secrets behind them. -/
def sampleNext (i : Fin 2) : Bytes :=
  if i = 0 then
    [252, 223, 204, 114, 114, 90, 174, 228, 139, 246, 78, 79, 216, 183, 73, 205, 189, 186, 179,
     157, 144, 218, 11, 38, 226, 36, 92, 166, 234, 22, 114, 7]
  else
    [81, 146, 27, 138, 163, 0, 25, 118, 235, 64, 29, 10, 67, 25, 168, 81, 100, 22, 166, 197, 96,
     1, 163, 87, 229, 209, 98, 3, 30, 132, 249, 22]

/-- HKDF-Expand-Label over SHA-256, tabulated where that connection asks for it. -/
def sampleTable : List (Bytes × String × Bytes) :=
  [(sampleSecret 0, "key",
     [23, 66, 45, 218, 89, 110, 213, 217, 172, 216, 144, 227, 198, 63, 80, 81]),
   (sampleSecret 0, "iv", [91, 120, 146, 61, 238, 8, 87, 144, 51, 229, 35, 217]),
   (sampleSecret 0, "traffic upd", sampleNext 0),
   (sampleNext 0, "key",
     [56, 121, 216, 47, 95, 20, 5, 110, 98, 63, 44, 229, 191, 198, 111, 206]),
   (sampleNext 0, "iv", [93, 251, 44, 89, 56, 195, 55, 155, 108, 197, 209, 242]),
   (sampleSecret 1, "key",
     [159, 2, 40, 59, 108, 156, 7, 239, 194, 107, 185, 242, 172, 146, 227, 86]),
   (sampleSecret 1, "iv", [207, 120, 43, 136, 221, 131, 84, 154, 173, 241, 233, 132]),
   (sampleSecret 1, "traffic upd", sampleNext 1),
   (sampleNext 1, "key",
     [46, 99, 190, 153, 214, 123, 57, 9, 127, 235, 151, 134, 207, 122, 21, 160]),
   (sampleNext 1, "iv", [98, 138, 10, 130, 152, 172, 149, 59, 174, 244, 37, 90])]

def sampleKdf : Kdf where
  expand s label n :=
    match sampleTable.find? fun e => e.1 = s ∧ e.2.1 = label ∧ e.2.2.length = n with
    | some e => e.2.2
    | none => List.replicate n 0
  length_expand s label n := by
    split
    · next e he =>
      have hp := List.find?_some he
      exact (of_decide_eq_true hp).2.2
    · exact List.length_replicate

end Ktls
