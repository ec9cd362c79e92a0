import Ktls.Proofs.Keylog
import Ktls.Proofs.Scan
import Ktls.Spec.KeySchedule

/-! What each call on an exchange does, in one statement a call. Nothing behind this
module unfolds a call again. -/

namespace Ktls

variable {K : Kdf} {x : KtlsExchange} {s : Ssl}

@[simp] theorem ktlsScan_nil (r : KtlsRecords) : ktlsScan r [] = r := scanLoop_nil _ _

theorem bioWrite_accepted {b data : Bytes} {len answer : ℤ}
    (h : (bioWrite b data len answer).1 = len) :
    (bioWrite b data len answer).2 = b ++ data.take len.toNat := by
  unfold bioWrite at h ⊢
  split_ifs at h ⊢ with hw
  · rfl
  · have hle : len ≤ 0 := h ▸ min_le_right answer 0
    rw [Int.toNat_of_nonpos hle, List.take_zero, List.append_nil]

theorem bioWrite_refused {b data : Bytes} {len answer : ℤ}
    (h : (bioWrite b data len answer).1 ≠ len) : (bioWrite b data len answer).2 = b := by
  unfold bioWrite at h ⊢
  split_ifs at h ⊢ with hw
  · exact absurd rfl h
  · rfl

/-- `BIO_write` takes what the feed asks it to. -/
def Accepted (s : Ssl) (bytes : Bytes) (written : ℤ) : Prop :=
  bytes = [] ∨ (bioWrite s.input bytes (cInt bytes.length) written).1 = cInt bytes.length

instance (s : Ssl) (bytes : Bytes) (written : ℤ) : Decidable (Accepted s bytes written) :=
  inferInstanceAs (Decidable (_ ∨ _))

/-- A feed that is accepted is counted whole, and placed as far as an `int` goes. -/
theorem ktlsExchangeFeed_exact (hx : x.ssl = some s) (bytes : Bytes) (written : ℤ) :
    ktlsExchangeFeed x bytes written =
      if Accepted s bytes written then
        (.ok (), { x with
          ssl := some { s with input := s.input ++ bytes.take (cInt bytes.length).toNat }
          rx := ktlsScan x.rx bytes
          rxFed := x.rxFed + bytes.length })
      else (.error "BIO_write", x) := by
  unfold ktlsExchangeFeed
  by_cases hnil : bytes = []
  · subst hnil
    rw [if_pos (.inl rfl)]
    simp only [hx, List.length_nil, if_true, List.take_nil, List.append_nil, ktlsScan_nil,
      Nat.add_zero]
    rw [← hx]
  · have hlen : ¬ bytes.length = 0 := fun h => hnil (List.length_eq_zero_iff.mp h)
    simp only [hx, Accepted, hnil, false_or, if_neg hlen]
    by_cases hw : (bioWrite s.input bytes (cInt bytes.length) written).1 = cInt bytes.length
    · rw [if_neg (not_not.mpr hw), if_pos hw, bioWrite_accepted hw]
    · rw [if_pos hw, if_neg hw, bioWrite_refused hw, ← hx]

theorem ktlsExchangeFeed_eq (hx : x.ssl = some s) {bytes : Bytes}
    (hlt : bytes.length < 2 ^ 31) (written : ℤ) :
    ktlsExchangeFeed x bytes written =
      if bytes = [] ∨ written = bytes.length then
        (.ok (), { x with
          ssl := some { s with input := s.input ++ bytes }
          rx := ktlsScan x.rx bytes
          rxFed := x.rxFed + bytes.length })
      else (.error "BIO_write", x) := by
  have hacc : Accepted s bytes written ↔ bytes = [] ∨ written = bytes.length := by
    unfold Accepted bioWrite
    rw [cInt_of_lt hlt]
    refine or_congr_right' fun hnil => ?_
    have hpos := List.length_pos_iff.mpr hnil
    split_ifs <;> omega
  rw [ktlsExchangeFeed_exact hx, if_congr hacc rfl rfl, cInt_of_lt hlt, Int.toNat_natCast,
    List.take_length]

/-- A feed of any size: it is refused and changes nothing, or all of it is counted and no
more than it goes into the BIO. -/
theorem ktlsExchangeFeed_cases (hx : x.ssl = some s) (bytes : Bytes) (written : ℤ) :
    ktlsExchangeFeed x bytes written = (.error "BIO_write", x) ∨
    ∃ more : Bytes, more.length ≤ bytes.length ∧ (ktlsExchangeFeed x bytes written).2 = { x with
      ssl := some { s with input := s.input ++ more }
      rx := ktlsScan x.rx bytes
      rxFed := x.rxFed + bytes.length } := by
  rw [ktlsExchangeFeed_exact hx]
  split_ifs
  · exact .inr ⟨_, List.length_take_le' _ _, rfl⟩
  · exact .inl rfl

theorem ktlsExchangeTake_eq (hx : x.ssl = some s) {cap n : ℕ} (hn : (cInt cap).toNat = n) :
    ktlsExchangeTake x cap =
      (.ok (s.output.take n), { x with
        ssl := some { s with output := s.output.drop n }
        tx := ktlsScan x.tx (s.output.take n) }) := by
  unfold ktlsExchangeTake bioRead
  simp only [hx, hn]
  by_cases h : (s.output.take n).length = 0
  · have hnil := List.length_eq_zero_iff.mp h
    rw [if_pos h, hnil, ktlsScan_nil]
  · rw [if_neg h]

theorem expand_derived {fate : KdfFate} {secret : Bytes} {label : String} {n : ℕ} {out : Bytes}
    (h : ktlsExpand K fate secret label n = .ok out) :
    fate = .derived ∧ out = K.expand secret label n := by
  cases fate <;> simp_all [ktlsExpand]

/-- The layout reads no further into the two buffers than was written. -/
theorem infoOf_memcpy (c : ℕ) (kbuf ibuf key iv : Bytes) (hk : key.length = keyLen c)
    (hi : iv.length = 12) :
    infoOf c (memcpy kbuf 0 key) (memcpy ibuf 0 iv) = infoOf c key iv := by
  have take_front (buf b : Bytes) (n : ℕ) (hn : n ≤ b.length) :
      (memcpy buf 0 b).take n = b.take n := by
    rw [memcpy, List.take_zero, List.nil_append, List.take_append_of_le_length hn]
  unfold infoOf keyLen at *
  have drop_take (b : Bytes) : (b.drop 4).take 8 = (b.take 12).drop 4 := by
    rw [List.drop_take]
  by_cases hc : c = ktlsAesGcm128
  · rw [if_pos hc] at hk
    rw [if_pos hc, if_pos hc, drop_take, drop_take, take_front _ _ _ (by omega),
      take_front _ _ _ (by omega), take_front _ _ _ (by omega)]
  · rw [if_neg hc] at hk
    rw [if_neg hc, if_neg hc, take_front _ _ _ (by omega), take_front _ _ _ (by omega)]

theorem heldSecret_key (x : KtlsExchange) (key : Fin 2 → Bytes) (which : Fin 2) :
    ({ x with key := key } : KtlsExchange).heldSecret which = x.heldSecret which := rfl

/-- Deriving one direction writes its key, its iv and its info, and nothing else. -/
theorem ktlsFill_frame (K : Kdf) (x : KtlsExchange) (which : Fin 2) (fate : FillFate) :
    ∃ key iv info, (ktlsFill K x which fate).2 = { x with key := key, iv := iv, info := info } ∧
      ∀ i, i ≠ which → info i = x.info i := by
  unfold ktlsFill
  split_ifs
  · exact ⟨x.key, x.iv, x.info, rfl, fun _ _ => rfl⟩
  cases ktlsExpand K fate.key (x.heldSecret which) "key" (keyLen x.cipher) with
  | error e => exact ⟨x.key, x.iv, x.info, rfl, fun _ _ => rfl⟩
  | ok key =>
    simp only [heldSecret_key]
    cases ktlsExpand K fate.iv (x.heldSecret which) "iv" 12 with
    | error e => exact ⟨_, x.iv, x.info, rfl, fun _ _ => rfl⟩
    | ok iv => exact ⟨_, _, _, rfl, fun i hi => Function.update_of_ne hi _ _⟩

theorem ktlsFill_ok {which : Fin 2} {fate : FillFate} (h : (ktlsFill K x which fate).1 = .ok ()) :
    x.secretLen which ≠ 0 ∧
      (ktlsFill K x which fate).2.info which = layout K x.cipher (x.heldSecret which) := by
  unfold ktlsFill at h ⊢
  split_ifs at h ⊢ with hlen
  refine ⟨hlen, ?_⟩
  cases hkey : ktlsExpand K fate.key (x.heldSecret which) "key" (keyLen x.cipher) with
  | error e =>
    rw [hkey] at h
    cases h
  | ok key =>
    obtain ⟨-, rfl⟩ := expand_derived hkey
    rw [hkey] at h
    simp only [heldSecret_key] at h ⊢
    cases hiv : ktlsExpand K fate.iv (x.heldSecret which) "iv" 12 with
    | error e =>
      rw [hiv] at h
      cases h
    | ok iv =>
      obtain ⟨-, rfl⟩ := expand_derived hiv
      simp only [Function.update_self]
      exact infoOf_memcpy _ _ _ _ _ (K.length_expand _ _ _) (K.length_expand _ _ _)

/-- Both directions come from what the keylog delivered, and the rest is left alone. -/
theorem ktlsDeriveBoth_frame (K : Kdf) (x : KtlsExchange) (server : Bool) (suite : Option Bytes)
    (fate : DeriveFate) :
    ∃ cipher key iv info, (ktlsDeriveBoth K x server suite fate).2 =
      { x with cipher := cipher, key := key, iv := iv, info := info } := by
  unfold ktlsDeriveBoth
  simp only
  split_ifs
  · exact ⟨_, x.key, x.iv, x.info, rfl⟩
  obtain ⟨k, v, i, hours, -⟩ := ktlsFill_frame K
    { x with cipher := ktlsNegotiatedCipher suite } (whichOf server .tx) fate.ours
  split
  · next e y h =>
    obtain rfl : _ = y := (congrArg Prod.snd h)
    exact ⟨_, k, v, i, hours⟩
  · next y h =>
    obtain rfl : _ = y := (congrArg Prod.snd h)
    rw [hours]
    obtain ⟨k', v', i', htheirs, -⟩ := ktlsFill_frame K
      { x with cipher := ktlsNegotiatedCipher suite, key := k, iv := v, info := i }
      (whichOf server .rx) fate.theirs
    exact ⟨_, k', v', i', htheirs⟩

theorem which_eq (server : Bool) (i : Fin 2) : i = whichOf server .tx ∨ i = whichOf server .rx := by
  cases server <;> obtain rfl | rfl := which_cases i <;> decide

theorem ktlsDeriveBoth_ok {server : Bool} {suite : Option Bytes} {fate : DeriveFate}
    (h : (ktlsDeriveBoth K x server suite fate).1 = .ok ()) :
    (ktlsDeriveBoth K x server suite fate).2.cipher = ktlsNegotiatedCipher suite ∧
    ktlsNegotiatedCipher suite ≠ 0 ∧
    ∀ i, (ktlsDeriveBoth K x server suite fate).2.info i =
      layout K (ktlsNegotiatedCipher suite) (x.heldSecret i) := by
  have hne : whichOf server .tx ≠ whichOf server .rx := fun h => by
    cases whichOf_injective server h
  unfold ktlsDeriveBoth at h ⊢
  simp only at h ⊢
  split_ifs at h ⊢ with hc
  obtain ⟨k, v, i, hours, -⟩ := ktlsFill_frame K
    { x with cipher := ktlsNegotiatedCipher suite } (whichOf server .tx) fate.ours
  split at h
  · cases h
  · next y hy =>
    obtain rfl : _ = y := (congrArg Prod.snd hy)
    have hfst := ktlsFill_ok (congrArg Prod.fst hy)
    rw [hours] at h hfst ⊢
    have hsnd := ktlsFill_ok h
    obtain ⟨k', v', i', htheirs, hi'⟩ := ktlsFill_frame K
      { x with cipher := ktlsNegotiatedCipher suite, key := k, iv := v, info := i }
      (whichOf server .rx) fate.theirs
    rw [htheirs] at hsnd ⊢
    refine ⟨rfl, hc, fun j => ?_⟩
    rcases which_eq server j with rfl | rfl
    · exact (hi' _ hne).trans hfst.2
    · exact hsnd.2

theorem noteDone_frame (x : KtlsExchange) (s : Ssl) (a : HandshakeAnswer) :
    ∃ cipherName alpn alpnLen, noteDone x s a = { x with
      done := true
      txAtDone := if s.server then x.tx.offset else x.tx.offset + a.output.length
      rxAtDone := ((x.rxFed : ℤ) - a.input.length).toNat
      server := s.server
      cipherName := cipherName
      alpn := alpn
      alpnLen := alpnLen } := by
  unfold noteDone
  simp only
  split_ifs
  · exact ⟨_, _, _, rfl⟩
  · exact ⟨_, _, _, rfl⟩
  · exact ⟨_, _, _, rfl⟩
  · exact ⟨_, _, _, rfl⟩

/-- What any step before the last leaves of an exchange. -/
structure Stepped (x : KtlsExchange) (s : Ssl) (a : HandshakeAnswer) (x' : KtlsExchange) :
    Prop where
  ssl : x'.ssl = some { s with input := a.input, output := a.output }
  tx : x'.tx = x.tx
  rx : x'.rx = x.rx
  rxFed : x'.rxFed = x.rxFed
  rekeyed : x'.rekeyed = x.rekeyed
  slot : ∀ i, slot x' i =
    (a.keylog.filter (kLabel i).isPrefixOf).foldl (slotAfter i) (Ktls.slot x i)

/-- What the step that ends the handshake writes down. -/
structure Noted (K : Kdf) (s : Ssl) (a : HandshakeAnswer) (x' : KtlsExchange) : Prop where
  server : x'.server = s.server
  txAtDone : x'.txAtDone = if s.server then x'.tx.offset else x'.tx.offset + a.output.length
  rxAtDone : x'.rxAtDone = ((x'.rxFed : ℤ) - a.input.length).toNat
  cipher : x'.cipher = ktlsNegotiatedCipher a.suite
  cipher_ne : x'.cipher ≠ 0
  info : ∀ i, x'.info i = layout K x'.cipher (x'.heldSecret i)

variable {a : HandshakeAnswer} {fate : DeriveFate}

theorem ktlsExchangeStep_again (hx : x.ssl = some s) (hd : x.done = true) :
    (ktlsExchangeStep K x a fate).2 = x := by
  simp only [ktlsExchangeStep, hx, hd, if_true]

/-- The three ways through a step: it goes on waiting, the derivation fails, or it
is done. -/
theorem ktlsExchangeStep_cases (K : Kdf) (a : HandshakeAnswer) (fate : DeriveFate)
    (hx : x.ssl = some s) (hd : x.done = false) :
    Stepped x s a (ktlsExchangeStep K x a fate).2 ∧
    ((a.rc = 1 ∧ (∃ r, (ktlsExchangeStep K x a fate).1 = .ok r) ∧
        (ktlsExchangeStep K x a fate).2.done = true ∧
        Noted K s a (ktlsExchangeStep K x a fate).2) ∨
      (¬ (a.rc = 1 ∧ ∃ r, (ktlsExchangeStep K x a fate).1 = .ok r) ∧
        (ktlsExchangeStep K x a fate).2.done = false)) := by
  have hslot (i : Fin 2) := slot_foldl_ktlsKeylog
    { x with ssl := some { s with input := a.input, output := a.output } } a.keylog i
  obtain ⟨sec, len, hlog⟩ := foldl_ktlsKeylog_frame
    { x with ssl := some { s with input := a.input, output := a.output } } a.keylog
  rw [hlog] at hslot
  have hnd : ¬ x.done = true := by rw [hd]; decide
  unfold ktlsExchangeStep
  rw [hx]
  simp only [if_neg hnd, hlog]
  by_cases hrc : a.rc = 1
  · rw [if_neg (not_not.mpr hrc)]
    obtain ⟨c, k, v, i, hframe⟩ := ktlsDeriveBoth_frame K
      { x with
        ssl := some { s with input := a.input, output := a.output }
        secret := sec
        secretLen := len } s.server a.suite fate
    split
    · next e y hy =>
      obtain rfl : _ = y := congrArg Prod.snd hy
      rw [hframe]
      refine ⟨⟨rfl, rfl, rfl, rfl, rfl, hslot⟩, .inr ⟨?_, hd⟩⟩
      rintro ⟨-, r, hr⟩
      cases hr
    · next y hy =>
      obtain rfl : _ = y := congrArg Prod.snd hy
      obtain ⟨hc, hc0, hinfo⟩ := ktlsDeriveBoth_ok (congrArg Prod.fst hy)
      rw [hframe] at hc hinfo ⊢
      obtain ⟨n, al, ll, hnote⟩ := noteDone_frame
        { x with
          ssl := some { s with input := a.input, output := a.output }
          secret := sec
          secretLen := len
          cipher := c
          key := k
          iv := v
          info := i } { s with input := a.input, output := a.output } a
      rw [hnote]
      refine ⟨⟨rfl, rfl, rfl, rfl, rfl, hslot⟩, .inl ⟨hrc, ⟨_, rfl⟩, rfl, ?_⟩⟩
      refine ⟨rfl, rfl, rfl, hc, ?_, ?_⟩
      · exact hc.symm ▸ hc0
      · intro j
        have hj := hinfo j
        rw [← hc] at hj
        exact hj
  · rw [if_pos hrc]
    split_ifs
    · exact ⟨⟨rfl, rfl, rfl, rfl, rfl, hslot⟩, .inr ⟨fun h => hrc h.1, hd⟩⟩
    · exact ⟨⟨rfl, rfl, rfl, rfl, rfl, hslot⟩, .inr ⟨fun h => hrc h.1, hd⟩⟩
    · exact ⟨⟨rfl, rfl, rfl, rfl, rfl, hslot⟩, .inr ⟨fun h => hrc h.1, hd⟩⟩

theorem ktlsExchangeBacklog_frame (hx : x.ssl = some s) (hd : x.done = true) (a : ReadAnswer) :
    ∃ secret secretLen, (ktlsExchangeBacklog x a).2 = { x with
      ssl := some { s with input := a.input, output := a.output }
      secret := secret
      secretLen := secretLen } := by
  obtain ⟨sec, len, hlog⟩ := foldl_ktlsKeylog_frame
    { x with ssl := some { s with input := a.input, output := a.output } } a.keylog
  unfold ktlsExchangeBacklog
  rw [if_neg (not_not.mpr hd), hx]
  exact ⟨sec, len, hlog⟩

theorem ktlsExchangeBacklog_slot (hx : x.ssl = some s) (hd : x.done = true) (a : ReadAnswer)
    (i : Fin 2) : slot (ktlsExchangeBacklog x a).2 i =
      (a.keylog.filter (kLabel i).isPrefixOf).foldl (slotAfter i) (slot x i) := by
  unfold ktlsExchangeBacklog
  rw [if_neg (not_not.mpr hd), hx]
  exact slot_foldl_ktlsKeylog _ a.keylog i

/-- A backlog moves bytes between the SSL and its BIOs and, with nothing logged,
touches nothing else. -/
theorem ktlsExchangeBacklog_eq (hx : x.ssl = some s) (hd : x.done = true) {a : ReadAnswer}
    (hlog : a.keylog = []) :
    ktlsExchangeBacklog x a =
      (.ok a.plain, { x with ssl := some { s with input := a.input, output := a.output } }) := by
  simp only [ktlsExchangeBacklog, hx, hd, not_true, if_false, hlog, List.foldl_nil]

theorem ktlsExchangeBacklog_early (hd : x.done = false) (a : ReadAnswer) :
    ktlsExchangeBacklog x a = (.ok [], x) := by
  simp only [ktlsExchangeBacklog, hd, Bool.false_eq_true, not_false_iff, if_true]

variable {np : NullPending} {dir : KtlsDirection}

theorem ktlsCryptoInfo_ok {b : Bytes} :
    (ktlsCryptoInfo np x dir).1 = .ok b ↔
      x.done = true ∧ pendingOut np x ≤ 0 ∧ x.tx.overflowed = false ∧ x.rx.overflowed = false ∧
      b = ((x.info (whichOf x.server dir)).withSeq (be64 (sequenceOf np x dir))).bytes := by
  unfold ktlsCryptoInfo KtlsInfo.withSeq
  by_cases hd : x.done = true
  · by_cases hp : 0 < pendingOut np x
    · simp [hd, hp]
    · by_cases hov : x.tx.overflowed = true ∨ x.rx.overflowed = true
      · rw [if_neg (not_not.mpr hd), if_neg hp, if_pos hov]
        simp only [reduceCtorEq, false_iff]
        rintro ⟨-, -, htx, hrx, -⟩
        simp [htx, hrx] at hov
      · rw [if_neg (not_not.mpr hd), if_neg hp, if_neg hov]
        simp only [not_or, Bool.not_eq_true] at hov
        simp only [Except.ok.injEq, hd, hov.1, hov.2, not_lt.mp hp, true_and]
        exact eq_comm
  · simp [hd]

theorem ktlsCryptoInfo_congr {y : KtlsExchange} (hdone : y.done = x.done)
    (hserver : y.server = x.server) (howed : pendingOut np y = pendingOut np x)
    (htx : y.tx.overflowed = x.tx.overflowed) (hrx : y.rx.overflowed = x.rx.overflowed)
    (hseq : sequenceOf np y dir = sequenceOf np x dir)
    (hinfo : y.info (whichOf x.server dir) = x.info (whichOf x.server dir)) :
    (ktlsCryptoInfo np y dir).1 = (ktlsCryptoInfo np x dir).1 := by
  unfold ktlsCryptoInfo
  simp only [hdone, hserver, howed, htx, hrx, hseq, hinfo]
  split_ifs <;> rfl

theorem ktlsCryptoInfo_frame (np : NullPending) (x : KtlsExchange) (dir : KtlsDirection) :
    ∃ q : Fin 2 → Bytes, (ktlsCryptoInfo np x dir).2 =
      { x with info := fun i => (x.info i).withSeq (q i) } := by
  have hself : ∃ q : Fin 2 → Bytes, x =
      { x with info := fun i => (x.info i).withSeq (q i) } :=
    ⟨fun i => (x.info i).recSeq, rfl⟩
  unfold ktlsCryptoInfo
  by_cases hd : x.done = true
  swap
  · rwa [if_pos hd]
  by_cases hp : 0 < pendingOut np x
  · rwa [if_neg (not_not.mpr hd), if_pos hp]
  by_cases hov : x.tx.overflowed = true ∨ x.rx.overflowed = true
  · rwa [if_neg (not_not.mpr hd), if_neg hp, if_pos hov]
  rw [if_neg (not_not.mpr hd), if_neg hp, if_neg hov]
  refine ⟨fun i => if i = whichOf x.server dir then be64 (sequenceOf np x dir)
    else (x.info i).recSeq, ?_⟩
  simp only
  congr 1
  funext i
  by_cases hi : i = whichOf x.server dir
  · subst hi
    rw [Function.update_self, if_pos rfl]
    rfl
  · rw [Function.update_of_ne hi, if_neg hi]
    rfl

/-- The exchange with secret `i` replaced, before its keys are derived. -/
def KtlsExchange.turn (x : KtlsExchange) (i : Fin 2) (next : Bytes) : KtlsExchange :=
  { x with
    secret := Function.update x.secret i (memcpy (x.secret i) 0 next)
    rekeyed := Function.update x.rekeyed i true }

theorem ktlsNextKey_eq (hd : x.done = true) (dir : KtlsDirection) (fate : NextKeyFate) :
    ktlsNextKey K x dir fate =
      match ktlsExpand K fate.upd (x.heldSecret (whichOf x.server dir)) "traffic upd"
        (x.secretLen (whichOf x.server dir)) with
      | .error e => (.error e, x)
      | .ok next =>
        ktlsFill K (x.turn (whichOf x.server dir) next) (whichOf x.server dir) fate.fill :=
  if_neg (not_not.mpr hd)

theorem ktlsNextKey_early (hd : ¬ x.done = true) (dir : KtlsDirection) (fate : NextKeyFate) :
    ktlsNextKey K x dir fate = (.error "the exchange has not finished", x) := if_pos hd

theorem ktlsNextKey_frame (K : Kdf) (x : KtlsExchange) (dir : KtlsDirection)
    (fate : NextKeyFate) :
    ∃ secret rekeyed key iv info, (ktlsNextKey K x dir fate).2 =
      { x with secret := secret, rekeyed := rekeyed, key := key, iv := iv, info := info } ∧
      (∀ i, i ≠ whichOf x.server dir →
        secret i = x.secret i ∧ rekeyed i = x.rekeyed i ∧ info i = x.info i) ∧
      (∀ i, x.rekeyed i = true → rekeyed i = true) := by
  have same : ∃ secret rekeyed key iv info, x =
      { x with secret := secret, rekeyed := rekeyed, key := key, iv := iv, info := info } ∧
      (∀ i, i ≠ whichOf x.server dir →
        secret i = x.secret i ∧ rekeyed i = x.rekeyed i ∧ info i = x.info i) ∧
      (∀ i, x.rekeyed i = true → rekeyed i = true) :=
    ⟨x.secret, x.rekeyed, x.key, x.iv, x.info, rfl, fun _ _ => ⟨rfl, rfl, rfl⟩, fun _ h => h⟩
  by_cases hd : x.done = true
  swap
  · rwa [ktlsNextKey_early hd]
  rw [ktlsNextKey_eq hd]
  generalize whichOf x.server dir = i at same ⊢
  cases ktlsExpand K fate.upd (x.heldSecret i) "traffic upd" (x.secretLen i) with
  | error e => exact same
  | ok next =>
    obtain ⟨key, iv, info, hfill, hinfo⟩ := ktlsFill_frame K (x.turn i next) i fate.fill
    refine ⟨_, _, key, iv, info, hfill, fun j hj => ?_, fun j hj => ?_⟩
    · exact ⟨Function.update_of_ne hj _ _, Function.update_of_ne hj _ _, hinfo j hj⟩
    · by_cases h : j = i
      · rw [h]
        exact Function.update_self ..
      · exact (Function.update_of_ne h _ _).trans hj

theorem heldSecret_turn {i : Fin 2} {next : Bytes} (hlen : next.length = x.secretLen i) :
    (x.turn i next).heldSecret i = next := by
  have htake : (memcpy (x.secret i) 0 next).take (0 + next.length) =
      (x.secret i).take 0 ++ next := take_memcpy (Nat.zero_le _)
  rw [hlen, Nat.zero_add, List.take_zero, List.nil_append] at htake
  simp only [KtlsExchange.heldSecret, KtlsExchange.turn, Function.update_self, htake]

theorem ktlsNextKey_ok {fate : NextKeyFate} (hfit : ∀ i, x.secretLen i ≤ (x.secret i).length)
    (h : (ktlsNextKey K x dir fate).1 = .ok ()) :
    (ktlsNextKey K x dir fate).2.heldSecret (whichOf x.server dir) =
      nextSecret K (x.heldSecret (whichOf x.server dir)) ∧
    (ktlsNextKey K x dir fate).2.rekeyed (whichOf x.server dir) = true ∧
    (ktlsNextKey K x dir fate).2.info (whichOf x.server dir) =
      layout K x.cipher (nextSecret K (x.heldSecret (whichOf x.server dir))) := by
  by_cases hd : x.done = true
  swap
  · rw [ktlsNextKey_early hd] at h
    cases h
  rw [ktlsNextKey_eq hd] at h ⊢
  have hfit' := hfit (whichOf x.server dir)
  generalize whichOf x.server dir = i at h hfit' ⊢
  cases hexp : ktlsExpand K fate.upd (x.heldSecret i) "traffic upd" (x.secretLen i) with
  | error e =>
    rw [hexp] at h
    cases h
  | ok next =>
    obtain ⟨-, hnext⟩ := expand_derived hexp
    have hheld : (x.heldSecret i).length = x.secretLen i := by
      rw [KtlsExchange.heldSecret, List.length_take, Nat.min_eq_left hfit']
    have hlen : next.length = x.secretLen i := by rw [hnext, K.length_expand]
    have hturn : next = nextSecret K (x.heldSecret i) := by rw [hnext, nextSecret, hheld]
    rw [hexp] at h
    simp only at h ⊢
    obtain ⟨key, iv, info, hfill, -⟩ := ktlsFill_frame K (x.turn i next) i fate.fill
    have hinfo := (ktlsFill_ok h).2
    rw [heldSecret_turn hlen] at hinfo
    rw [← hturn]
    refine ⟨?_, ?_, hinfo⟩
    · rw [hfill]
      exact heldSecret_turn hlen
    · rw [hfill]
      exact Function.update_self ..

/-- The buffers keep their size, so a secret that fits goes on fitting. -/
theorem fits_nextKey {fate : NextKeyFate} (hfit : ∀ i, x.secretLen i ≤ (x.secret i).length)
    (i : Fin 2) : (ktlsNextKey K x dir fate).2.secretLen i ≤
      ((ktlsNextKey K x dir fate).2.secret i).length := by
  by_cases hd : x.done = true
  swap
  · rw [ktlsNextKey_early hd]
    exact hfit i
  rw [ktlsNextKey_eq hd]
  have hfit' := hfit (whichOf x.server dir)
  generalize whichOf x.server dir = j at hfit' ⊢
  cases hexp : ktlsExpand K fate.upd (x.heldSecret j) "traffic upd" (x.secretLen j) with
  | error e => exact hfit i
  | ok next =>
    obtain ⟨-, rfl⟩ := expand_derived hexp
    simp only
    obtain ⟨key, iv, info, hfill, -⟩ := ktlsFill_frame K (x.turn j
      (K.expand (x.heldSecret j) "traffic upd" (x.secretLen j))) j fate.fill
    rw [hfill]
    change x.secretLen i ≤ (Function.update x.secret j _ i).length
    by_cases hi : i = j
    · rw [hi, Function.update_self, length_memcpy (by rw [K.length_expand]; omega)]
      exact hfit'
    · rw [Function.update_of_ne hi]
      exact hfit i

theorem pendingOut_release (np : NullPending) (x : KtlsExchange) :
    pendingOut np (ktlsExchangeRelease x) ≤ 0 := by
  change np.value ≤ 0
  cases np <;> decide

theorem ktlsFill_release (K : Kdf) (x : KtlsExchange) (i : Fin 2) (fate : FillFate) :
    ktlsFill K (ktlsExchangeRelease x) i fate =
      ((ktlsFill K x i fate).1, ktlsExchangeRelease (ktlsFill K x i fate).2) := by
  unfold ktlsFill ktlsExchangeRelease
  simp only [KtlsExchange.heldSecret]
  split_ifs
  · rfl
  cases ktlsExpand K fate.key (List.take (x.secretLen i) (x.secret i)) "key"
    (keyLen x.cipher) with
  | error e => rfl
  | ok key =>
    simp only
    cases ktlsExpand K fate.iv (List.take (x.secretLen i) (x.secret i)) "iv" 12 with
    | error e => rfl
    | ok iv => rfl

theorem ktlsNextKey_release (K : Kdf) (x : KtlsExchange) (dir : KtlsDirection)
    (fate : NextKeyFate) :
    ktlsNextKey K (ktlsExchangeRelease x) dir fate =
      ((ktlsNextKey K x dir fate).1, ktlsExchangeRelease (ktlsNextKey K x dir fate).2) := by
  by_cases hd : x.done = true
  · have hd' : (ktlsExchangeRelease x).done = true := hd
    rw [ktlsNextKey_eq hd, ktlsNextKey_eq hd']
    change (match ktlsExpand K fate.upd (x.heldSecret (whichOf x.server dir)) "traffic upd"
      (x.secretLen (whichOf x.server dir)) with
      | .error e => (Except.error e, ktlsExchangeRelease x)
      | .ok next => ktlsFill K (ktlsExchangeRelease (x.turn (whichOf x.server dir) next))
          (whichOf x.server dir) fate.fill) = _
    cases ktlsExpand K fate.upd (x.heldSecret (whichOf x.server dir)) "traffic upd"
      (x.secretLen (whichOf x.server dir)) with
    | error e => rfl
    | ok next => exact ktlsFill_release K _ _ _
  · have hd' : ¬ (ktlsExchangeRelease x).done = true := hd
    rw [ktlsNextKey_early hd, ktlsNextKey_early hd']

end Ktls
