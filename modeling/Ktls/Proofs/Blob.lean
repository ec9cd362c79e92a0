import Ktls.Proofs.Free
import Ktls.Spec.Traffic

/-! What the kernel reads in a blob: the key and the iv of one secret, whatever was called
before and however it ended, and from them the nonces that RFC 8446 has. -/

namespace Ktls

variable {K : Kdf} {x : KtlsExchange} {np : NullPending} {dir : KtlsDirection}

theorem readLE16_le16 {n : ℕ} (h : n < 2 ^ 16) (rest : Bytes) : readLE16 (le16 n ++ rest) = n := by
  have hlow : (UInt8.ofNat n).toNat = n % 256 := UInt8.toNat_ofNat'
  have hhigh : (UInt8.ofNat (n >>> 8)).toNat = n / 256 % 256 := by
    rw [Nat.shiftRight_eq_div_pow]
    exact UInt8.toNat_ofNat'
  change (UInt8.ofNat n).toNat + 256 * (UInt8.ofNat (n >>> 8)).toNat = n
  rw [hlow, hhigh]
  omega

namespace KtlsInfo

variable (i : KtlsInfo)

theorem length_bytes : i.bytes.length =
    4 + i.iv.length + i.key.length + i.salt.length + i.recSeq.length := by
  simp only [bytes, List.length_append, le16, List.length_cons, List.length_nil]

theorem drop_version : i.bytes.drop 2 =
    le16 i.cipherType ++ (i.iv ++ (i.key ++ (i.salt ++ i.recSeq))) := by
  simp only [bytes, List.append_assoc]
  rfl

theorem drop_head : i.bytes.drop 4 = i.iv ++ (i.key ++ (i.salt ++ i.recSeq)) := by
  simp only [bytes, List.append_assoc]
  rfl

theorem drop_iv : i.bytes.drop (4 + i.iv.length) = i.key ++ (i.salt ++ i.recSeq) := by
  rw [← List.drop_drop, drop_head, List.drop_left]

theorem drop_key : i.bytes.drop (4 + i.iv.length + i.key.length) = i.salt ++ i.recSeq := by
  rw [← List.drop_drop, drop_iv, List.drop_left]

theorem drop_salt :
    i.bytes.drop (4 + i.iv.length + i.key.length + i.salt.length) = i.recSeq := by
  rw [← List.drop_drop, drop_key, List.drop_left]

/-- The kernel finds the fields where the exchange has put them. -/
theorem kernelKey_aes (hversion : i.version = 0x0304) (htype : i.cipherType = 51)
    (hiv : i.iv.length = 8) (hkey : i.key.length = 16) (hsalt : i.salt.length = 4)
    (hseq : i.recSeq.length = 8) :
    kernelKey i.bytes = some ⟨51, i.key, i.salt ++ i.iv, readBE i.recSeq⟩ := by
  have hlen := i.length_bytes
  have h12 := i.drop_iv
  have h28 := i.drop_key
  have h32 := i.drop_salt
  rw [hiv, hkey, hsalt, hseq] at hlen
  rw [hiv] at h12
  rw [hiv, hkey] at h28
  rw [hiv, hkey, hsalt] at h32
  have hv : readLE16 i.bytes = 0x0304 := by
    simp only [bytes, List.append_assoc, hversion]
    exact readLE16_le16 (by norm_num) _
  have ht : readLE16 (i.bytes.drop 2) = 51 := by
    rw [drop_version, htype]
    exact readLE16_le16 (by norm_num) _
  rw [kernelKey, if_neg (not_not.mpr hv), if_pos ht, if_neg (not_not.mpr hlen), h12, h28, h32,
    drop_head, List.take_left' hkey, List.take_left' hsalt, List.take_left' hiv]

theorem kernelKey_chacha (hversion : i.version = 0x0304) (htype : i.cipherType = 54)
    (hiv : i.iv.length = 12) (hkey : i.key.length = 32) (hsalt : i.salt.length = 0)
    (hseq : i.recSeq.length = 8) :
    kernelKey i.bytes = some ⟨54, i.key, i.iv, readBE i.recSeq⟩ := by
  have hlen := i.length_bytes
  have h16 := i.drop_iv
  have h48 := i.drop_salt
  rw [hiv, hkey, hsalt, hseq] at hlen
  rw [hiv] at h16
  rw [hiv, hkey, hsalt] at h48
  have hv : readLE16 i.bytes = 0x0304 := by
    simp only [bytes, List.append_assoc, hversion]
    exact readLE16_le16 (by norm_num) _
  have ht : readLE16 (i.bytes.drop 2) = 54 := by
    rw [drop_version, htype]
    exact readLE16_le16 (by norm_num) _
  rw [kernelKey, if_neg (not_not.mpr hv), ht, if_neg (by decide), if_pos rfl,
    if_neg (not_not.mpr hlen), h16, h48, drop_head, List.take_left' hkey, List.take_left' hiv]

end KtlsInfo

theorem kernelKey_infoOf {c : ℕ} {key iv : Bytes} (hkey : keyLen c ≤ key.length)
    (hiv : iv.length = 12) {seq : ℕ} (h : seq < 2 ^ 64) :
    kernelKey ((infoOf c key iv).withSeq (be64 seq)).bytes =
      some ⟨if c = ktlsAesGcm128 then 51 else 54, key.take (keyLen c), iv, seq⟩ := by
  by_cases hc : c = ktlsAesGcm128
  · rw [keyLen, if_pos hc] at hkey ⊢
    rw [infoOf, if_pos hc, if_pos hc]
    have htake : (key.take 16).length = 16 := List.length_take_of_le hkey
    have hsalt : (iv.take 4).length = 4 := by rw [List.length_take]; omega
    have hdrop : (iv.drop 4).length = 8 := by rw [List.length_drop]; omega
    have hrest : (iv.drop 4).take 8 = iv.drop 4 := List.take_of_length_le hdrop.le
    have hiv8 : ((iv.drop 4).take 8).length = 8 := hrest.symm ▸ hdrop
    refine (KtlsInfo.kernelKey_aes _ rfl rfl hiv8 htake hsalt (length_be64 _)).trans ?_
    simp only [KtlsInfo.withSeq, hrest, List.take_append_drop, readBE_be64 h]
  · rw [keyLen, if_neg hc] at hkey ⊢
    rw [infoOf, if_neg hc, if_neg hc]
    have htake : (key.take 32).length = 32 := List.length_take_of_le hkey
    have hdrop : (iv.take 12).length = 12 := by rw [List.length_take]; omega
    refine (KtlsInfo.kernelKey_chacha _ rfl rfl hdrop htake rfl (length_be64 _)).trans ?_
    simp only [KtlsInfo.withSeq, readBE_be64 h, List.take_of_length_le hiv.le]

/-- What the exchange filled from a secret is what that secret tells the kernel. -/
theorem kernelKey_blob (K : Kdf) (c : ℕ) (s : Bytes) {seq : ℕ} (h : seq < 2 ^ 64) :
    kernelKey (blob K c s seq) = some (trafficKey K c s seq) := by
  have hkey := K.length_expand s "key" (keyLen c)
  refine (kernelKey_infoOf hkey.ge (K.length_expand s "iv" 12) h).trans ?_
  rw [List.take_of_length_le hkey.le]
  rfl

/-- The kernel's nonce is the one of RFC 8446. -/
theorem nonce_eq {k : KernelKey} (h : k.iv.length = 12) (seq : ℕ) :
    k.nonce seq = recordNonce k.iv seq := by
  have hfour : (k.iv.take 4).length = 4 := by rw [List.length_take]; omega
  have hzero (a : Bytes) : List.zipWith (· ^^^ ·) a (List.replicate a.length (0 : UInt8)) = a := by
    induction a with
    | nil => rfl
    | cons c a ih =>
      rw [List.length_cons, List.replicate_succ, List.zipWith_cons_cons, ih, UInt8.xor_zero]
  have hfront := hzero (k.iv.take 4)
  rw [hfour] at hfront
  rw [recordNonce, h, KernelKey.nonce]
  nth_rewrite 3 [← List.take_append_drop 4 k.iv]
  rw [List.zipWith_append (by rw [hfour, List.length_replicate]), hfront]

/-- Each finished direction holds the key and the iv of one secret, which was the exchange's
behind some of its calls. -/
structure Filled (K : Kdf) (role : KtlsRole) (calls : List Call) (x : KtlsExchange) : Prop where
  cipher : x.done = true → x.cipher = ktlsAesGcm128 ∨ x.cipher = ktlsChacha20Poly1305
  info : x.done = true → ∀ i, ∃ pre y q, pre <+: calls ∧
    (Call.machine K).Run (ktlsExchangeOpen role) pre y ∧
    x.info i = (layout K x.cipher (y.heldSecret i)).withSeq q

variable {role : KtlsRole} {calls : List Call}

theorem Noted.suite {s : Ssl} {a : HandshakeAnswer} (h : Noted K s a x) :
    x.cipher = ktlsAesGcm128 ∨ x.cipher = ktlsChacha20Poly1305 := by
  have hne := h.cipher_ne
  rw [h.cipher, ktlsNegotiatedCipher] at hne ⊢
  split_ifs at hne ⊢
  · exact .inl rfl
  · exact .inr rfl
  · exact absurd rfl hne

theorem Filled.same {x' : KtlsExchange} (h : Filled K role calls x) (call : Call)
    (hd : x'.done = true → x.done = true) (hc : x'.cipher = x.cipher)
    (hi : ∀ i, ∃ q, x'.info i = (x.info i).withSeq q) : Filled K role (calls ++ [call]) x' := by
  refine ⟨fun hd' => hc ▸ h.cipher (hd hd'), fun hd' i => ?_⟩
  obtain ⟨pre, y, p, hpre, hrun, hinfo⟩ := h.info (hd hd') i
  obtain ⟨q, hq⟩ := hi i
  refine ⟨pre, y, q, hpre.trans (List.prefix_append _ _), hrun, ?_⟩
  rw [hq, hinfo, hc, KtlsInfo.withSeq_withSeq]

/-- A key update leaves the blob of the other direction, and of its own when it fails. -/
theorem ktlsNextKey_info (hs : Sized x) (fate : NextKeyFate) (i : Fin 2) :
    (ktlsNextKey K x dir fate).2.info i = x.info i ∨
    (ktlsNextKey K x dir fate).2.info i =
      layout K x.cipher ((ktlsNextKey K x dir fate).2.heldSecret i) := by
  by_cases hi : i = whichOf x.server dir
  swap
  · obtain ⟨sec, rek, key, iv, info, hframe, hkeep, -⟩ := ktlsNextKey_frame K x dir fate
    rw [hframe]
    exact .inl (hkeep i hi).2.2
  subst hi
  by_cases hok : (ktlsNextKey K x dir fate).1 = .ok ()
  · obtain ⟨hheld, -, hinfo⟩ := ktlsNextKey_ok hs.fits hok
    exact .inr (hinfo.trans (congrArg _ hheld.symm))
  refine .inl ?_
  by_cases hd : x.done = true
  swap
  · rw [ktlsNextKey_early hd]
  rcases ktlsNextKey_failed hd hok with ⟨-, hsame⟩ | ⟨-, z, hz, hfail, hafter⟩
  · rw [hsame]
  · rw [hafter, ktlsFill_failed hfail, hz]
    split_ifs <;> rfl

theorem Filled.after (h : Filled K role calls x)
    (hrun : (Call.machine K).Run (ktlsExchangeOpen role) calls x) {call : Call}
    (hp : call.Takes x) : Filled K role (calls ++ [call]) (call.after K x) := by
  have hs := sized_reachable hrun
  have hrun' : (Call.machine K).Run (ktlsExchangeOpen role) (calls ++ [call]) (call.after K x) :=
    hrun.append (.single hp)
  have self (x' : KtlsExchange) (i : Fin 2) (hi : x'.info i = x.info i) :
      ∃ q, x'.info i = (x.info i).withSeq q := ⟨(x.info i).recSeq, hi⟩
  generalize hx' : call.after K x = x' at hrun' ⊢
  have he := call.effect K x
  rw [hx'] at he
  cases he with
  | idle => exact h.same call id rfl fun i => self _ i rfl
  | feed => exact h.same _ id rfl fun i => self _ i rfl
  | @step s a fate hx hd =>
    rcases (ktlsExchangeStep_cases K a fate hx hd).2 with ⟨-, -, -, hn⟩ | ⟨-, hnd⟩
    · refine ⟨fun _ => hn.suite, fun _ i => ?_⟩
      exact ⟨_, _, _, List.prefix_refl _, hrun', hn.info i⟩
    · exact ⟨fun hd' => absurd (hnd.symm.trans hd') (by decide),
        fun hd' => absurd (hnd.symm.trans hd') (by decide)⟩
  | take => exact h.same _ id rfl fun i => self _ i rfl
  | @backlog s a hx hd =>
    obtain ⟨sec, len, hframe⟩ := ktlsExchangeBacklog_frame hx hd a
    rw [hframe]
    exact h.same _ id rfl fun i => self _ i rfl
  | ask seq => exact h.same _ id rfl fun i => ⟨seq i, rfl⟩
  | @nextKey dir fate =>
    obtain ⟨sec, rek, key, iv, info, hframe, -⟩ := ktlsNextKey_frame K x dir fate
    have hcipher : (ktlsNextKey K x dir fate).2.cipher = x.cipher := by rw [hframe]
    have hdone : (ktlsNextKey K x dir fate).2.done = x.done := by rw [hframe]
    refine ⟨fun hd => hcipher ▸ h.cipher (hdone ▸ hd), fun hd i => ?_⟩
    rcases ktlsNextKey_info (K := K) hs fate i with hkeep | hnew
    · obtain ⟨pre, y, q, hpre, hy, hinfo⟩ := h.info (hdone ▸ hd) i
      exact ⟨pre, y, q, hpre.trans (List.prefix_append _ _), hy, by rw [hkeep, hinfo, hcipher]⟩
    · exact ⟨_, _, _, List.prefix_refl _, hrun', by rw [hnew, hcipher]; rfl⟩
  | release => exact h.same _ id rfl fun i => self _ i rfl

theorem filled_reachable (hrun : (Call.machine K).Run (ktlsExchangeOpen role) calls x) :
    Filled K role calls x := by
  have hfresh : ¬ (ktlsExchangeOpen role).done = true := Bool.false_ne_true
  have hboth := hrun.history
    (P := fun calls x => (Call.machine K).Run (ktlsExchangeOpen role) calls x ∧
      Filled K role calls x)
    (fun calls x call h hp => ⟨h.1.append (.single hp), h.2.after h.1 hp⟩)
    ⟨.nil _, fun hd => absurd hd hfresh, fun hd => absurd hd hfresh⟩
  exact hboth.2

theorem sequence_le (hrun : (Call.machine K).Run (ktlsExchangeOpen role) calls x)
    (np : NullPending) (dir : KtlsDirection) : sequenceOf np x dir ≤ 64 := by
  have hle (b : Bytes) (after upto : ℕ) : ktlsRecordsBetween (parsed b) after upto ≤ 64 := by
    refine List.countP_le_length.trans ?_
    rw [ends_parsed, List.length_take]
    exact Nat.min_le_left _ _
  obtain ⟨hrx, htx⟩ := records_stream hrun parsed_nil.symm parsed_nil.symm
  unfold sequenceOf
  split_ifs
  · exact Nat.zero_le _
  · cases dir with
    | tx => exact htx ▸ hle _ _ _
    | rx => exact hrx ▸ hle _ _ _

theorem length_blob (K : Kdf) (c : ℕ) (s : Bytes) (seq : ℕ) :
    (blob K c s seq).length = if c = ktlsAesGcm128 then 40 else 56 := by
  have hiv := K.length_expand s "iv" 12
  have hkey := K.length_expand s "key" (keyLen c)
  rw [blob, KtlsInfo.length_bytes, layout, infoOf]
  unfold keyLen at hkey ⊢
  split_ifs at hkey ⊢ <;>
    simp only [KtlsInfo.withSeq, List.length_take, List.length_drop, List.length_nil, hiv, hkey,
      length_be64] <;> rfl

/-- Whatever was called before and however it ended, a blob is one the kernel takes: key and
iv are of one secret, which the exchange has held, and the kernel numbers the records on from
where the exchange has counted to, with the nonces of RFC 8446. -/
theorem blob_parses (hrun : (Call.machine K).Run (ktlsExchangeOpen role) calls x) {b : Bytes}
    (hb : (ktlsCryptoInfo np x dir).1 = .ok b) :
    (x.cipher = ktlsAesGcm128 ∧ b.length = 40 ∨
      x.cipher = ktlsChacha20Poly1305 ∧ b.length = 56) ∧
    ktlsRecordSequence np x dir ≤ 64 ∧
    ∃ pre y k, pre <+: calls ∧ (Call.machine K).Run (ktlsExchangeOpen role) pre y ∧
      k = trafficKey K x.cipher (y.heldSecret (whichOf x.server dir))
        (ktlsRecordSequence np x dir) ∧
      kernelKey b = some k ∧ ∀ seq, k.nonce seq = recordNonce k.iv seq := by
  obtain ⟨hd, -, -, -, rfl⟩ := ktlsCryptoInfo_ok.mp hb
  have hle := sequence_le hrun np dir
  have hseq : ktlsRecordSequence np x dir = sequenceOf np x dir := if_neg (not_not.mpr hd)
  have hfilled := filled_reachable hrun
  obtain ⟨pre, y, q, hpre, hy, hinfo⟩ := hfilled.info hd (whichOf x.server dir)
  rw [hinfo, KtlsInfo.withSeq_withSeq, hseq]
  refine ⟨?_, hle, pre, y, _, hpre, hy, rfl, ?_, ?_⟩
  · have hlen := length_blob K x.cipher (y.heldSecret (whichOf x.server dir)) (sequenceOf np x dir)
    rcases hfilled.cipher hd with hc | hc
    · exact .inl ⟨hc, hlen.trans (if_pos hc)⟩
    · exact .inr ⟨hc, hlen.trans (if_neg (by rw [hc]; decide))⟩
  · exact kernelKey_blob K _ _ (by omega)
  · exact nonce_eq (K.length_expand _ _ _)

/-- The server behind its tickets: record 2 under its first secret. -/
theorem blob_parses_sample :
    ∃ k, kernelKey (blob sampleKdf ktlsAesGcm128 (sampleSecret 1) 2) = some k ∧
      k.nonce 2 = recordNonce k.iv 2 := by
  have hrun : (Call.machine sampleKdf).Run (ktlsExchangeOpen .server) drainedServer
      (sampleCalled drainedServer) := Machine.Run.of_check (by decide +kernel)
  have hb : (ktlsCryptoInfo .zero (sampleCalled drainedServer) .tx).1 =
      .ok (blob sampleKdf ktlsAesGcm128 (sampleSecret 1) 2) := by decide +kernel
  obtain ⟨-, -, -, -, k, -, -, -, hk, hnonce⟩ := blob_parses hrun hb
  exact ⟨k, hk, hnonce 2⟩

end Ktls
