import Ktls.Proofs.Blob
import Ktls.Proofs.Offload
import Ktls.Spec.FreeBsd

/-! The kernel of FreeBSD gets the keys that Linux gets, as long as no update stops between the
key and the iv. -/

namespace Ktls

variable {K : Kdf} {x : KtlsExchange} {en : Fin 2 → TlsEnable} {i : Fin 2}

section Bare

theorem bare_feed (x : KtlsExchange) (bytes : Bytes) (written : ℤ) :
    ktlsExchangeFeed x.bare bytes written =
      ((ktlsExchangeFeed x bytes written).1, (ktlsExchangeFeed x bytes written).2.bare) := by
  unfold ktlsExchangeFeed
  rw [bare_ssl]
  cases x.ssl with
  | none => rfl
  | some s =>
    simp only
    split_ifs <;> rfl

theorem bare_take (x : KtlsExchange) (cap : ℕ) : ktlsExchangeTake x.bare cap =
    ((ktlsExchangeTake x cap).1, (ktlsExchangeTake x cap).2.bare) := by
  unfold ktlsExchangeTake
  rw [bare_ssl]
  cases x.ssl with
  | none => rfl
  | some s =>
    simp only
    generalize bioRead s.output (cInt cap) = got
    split_ifs <;> rfl

theorem bare_keylog (x : KtlsExchange) (line : Bytes) :
    ktlsKeylog x.bare line = (ktlsKeylog x line).bare := by
  have hsecret (which : Fin 2) (rest : Bytes) :
      keylogSecret x.bare which rest = (keylogSecret x which rest).bare := by
    unfold keylogSecret
    cases rest.dropWhile (· ≠ space) with
    | nil => rfl
    | cons c hex => rfl
  unfold ktlsKeylog
  split_ifs
  · exact hsecret _ _
  · exact hsecret _ _
  · rfl

theorem bare_keylogs (x : KtlsExchange) (lines : List Bytes) :
    lines.foldl ktlsKeylog x.bare = (lines.foldl ktlsKeylog x).bare := by
  induction lines generalizing x with
  | nil => rfl
  | cons line lines ih => rw [List.foldl_cons, List.foldl_cons, bare_keylog, ih]

theorem bare_backlog (x : KtlsExchange) (a : ReadAnswer) : ktlsExchangeBacklog x.bare a =
    ((ktlsExchangeBacklog x a).1, (ktlsExchangeBacklog x a).2.bare) := by
  unfold ktlsExchangeBacklog
  rw [bare_ssl, bare_done]
  by_cases hd : ¬ x.done = true
  · rw [if_pos hd, if_pos hd]
  · rw [if_neg hd, if_neg hd]
    cases x.ssl with
    | none => rfl
    | some s =>
      simp only
      rw [← bare_keylogs]
      rfl

theorem bare_noteDone (x : KtlsExchange) (s : Ssl) (a : HandshakeAnswer) :
    noteDone x.bare s a = (noteDone x s a).bare := by
  unfold noteDone
  simp only
  split_ifs <;> rfl

end Bare

/-- How far a fill gets, on both kernels. -/
inductive Fills (K : Kdf) (x : KtlsExchange) (en : Fin 2 → TlsEnable) (i : Fin 2)
    (fate : FillFate) : Except String Unit → KtlsExchange → (Fin 2 → TlsEnable) → Prop
  | early (e : String) (h : ¬ (x.secretLen i ≠ 0 ∧ fate.key = .derived)) :
      Fills K x en i fate (.error e) x en
  | half (e : String) (h : x.secretLen i ≠ 0 ∧ fate.key = .derived) (hiv : fate.iv ≠ .derived)
      {key : Bytes} (hkey : key = memcpy (x.key i) 0 (K.expand (x.heldSecret i) "key"
        (keyLen x.cipher))) :
      Fills K x en i fate (.error e) { x with key := Function.update x.key i key } en
  | whole (h : x.secretLen i ≠ 0 ∧ fate.key = .derived) (hiv : fate.iv = .derived)
      {key iv : Bytes} (hkey : key = memcpy (x.key i) 0 (K.expand (x.heldSecret i) "key"
        (keyLen x.cipher)))
      (hiv' : iv = memcpy (x.iv i) 0 (K.expand (x.heldSecret i) "iv" 12)) :
      Fills K x en i fate (.ok ())
        { x with
          key := Function.update x.key i key
          iv := Function.update x.iv i iv
          info := Function.update x.info i (infoOf x.cipher key iv) }
        (Function.update en i (Bsd.enableOf x.cipher i))

theorem ktlsFill_both (K : Kdf) (x : KtlsExchange) (en : Fin 2 → TlsEnable) (i : Fin 2)
    (fate : FillFate) : ∃ r x' en', ktlsFill K x i fate = (r, x') ∧
      Bsd.ktlsFill K ⟨x.bare, en⟩ i fate = (r, ⟨x'.bare, en'⟩) ∧ Fills K x en i fate r x' en' := by
  unfold ktlsFill Bsd.ktlsFill
  dsimp only
  by_cases hlen : x.secretLen i = 0
  · have hlen' : x.bare.secretLen i = 0 := hlen
    rw [if_pos hlen, if_pos hlen']
    exact ⟨_, _, _, rfl, rfl, .early _ fun h => h.1 hlen⟩
  have hlen' : ¬ x.bare.secretLen i = 0 := hlen
  rw [if_neg hlen, if_neg hlen']
  cases hkey : ktlsExpand K fate.key (x.heldSecret i) "key" (keyLen x.cipher) with
  | error e =>
    have hkey' : ktlsExpand K fate.key (x.bare.heldSecret i) "key" (keyLen x.bare.cipher) =
        .error e := hkey
    rw [hkey']
    refine ⟨_, _, _, rfl, rfl, .early _ fun h => ?_⟩
    rw [h.2] at hkey
    cases hkey
  | ok key =>
    have hkey' : ktlsExpand K fate.key (x.bare.heldSecret i) "key" (keyLen x.bare.cipher) =
        .ok key := hkey
    rw [hkey']
    obtain ⟨hk, rfl⟩ := expand_derived hkey
    simp only [heldSecret_key, bare_heldSecret]
    cases hiv : ktlsExpand K fate.iv (x.heldSecret i) "iv" 12 with
    | error e =>
      refine ⟨_, _, _, rfl, rfl, .half _ ⟨hlen, hk⟩ (fun h => ?_) rfl⟩
      rw [h] at hiv
      cases hiv
    | ok iv =>
      obtain ⟨hv, rfl⟩ := expand_derived hiv
      refine ⟨_, _, _, rfl, rfl, ?_⟩
      simp only [Function.update_self]
      exact .whole ⟨hlen, hk⟩ hv rfl rfl

/-- The buffers keep their size. -/
structure Stored (x : KtlsExchange) : Prop where
  key : ∀ i, (x.key i).length = 32
  iv : ∀ i, (x.iv i).length = 12

/-- Both blobs of a direction are of one cipher, iv and sequence. The Linux one has its key from
when it was filled, and that is where the other still leads if the direction is not torn. -/
def Agrees (x : KtlsExchange) (en : Fin 2 → TlsEnable) (torn : Bool) (i : Fin 2) : Prop :=
  ∃ key q, key.length = 32 ∧ q.length = 8 ∧
    x.info i = (infoOf x.cipher key (x.iv i)).withSeq q ∧
    en i = { Bsd.enableOf x.cipher i with recSeq := q } ∧ (torn = false → key = x.key i)

theorem infoOf_fresh (c : ℕ) (key iv : Bytes) :
    (infoOf c key iv).withSeq (List.replicate 8 0) = infoOf c key iv := by
  unfold infoOf
  split_ifs <;> rfl

theorem length_filled {c : ℕ} {old : Bytes} (hold : old.length = 32) (K : Kdf) (s : Bytes) :
    (memcpy old 0 (K.expand s "key" (keyLen c))).length = 32 := by
  rw [length_memcpy, hold]
  rw [K.length_expand, hold, keyLen]
  split_ifs <;> norm_num

namespace Fills

variable {fate : FillFate} {r : Except String Unit} {x' : KtlsExchange}
  {en' : Fin 2 → TlsEnable} {torn : Bool}

theorem cipher (h : Fills K x en i fate r x' en') : x'.cipher = x.cipher := by
  cases h with
  | early | half | whole => rfl

theorem stored (h : Fills K x en i fate r x' en') (hs : Stored x) : Stored x' := by
  have hset {f : Fin 2 → Bytes} {n : ℕ} (hf : ∀ j, (f j).length = n) {b : Bytes}
      (hb : b.length = n) (j : Fin 2) : (Function.update f i b j).length = n := by
    by_cases hj : j = i
    · rw [hj, Function.update_self, hb]
    · rw [Function.update_of_ne hj, hf]
  cases h with
  | early => exact hs
  | half e _ _ hkey => exact ⟨hset hs.key (hkey ▸ length_filled (hs.key i) K _), hs.iv⟩
  | whole _ _ hkey hiv =>
    refine ⟨hset hs.key (hkey ▸ length_filled (hs.key i) K _), hset hs.iv ?_⟩
    rw [hiv, length_memcpy, hs.iv]
    rw [K.length_expand, hs.iv]

theorem other (h : Fills K x en i fate r x' en') {j : Fin 2} (hj : j ≠ i)
    (ha : Agrees x en torn j) : Agrees x' en' torn j := by
  obtain ⟨key, q, hlen, hq, hinfo, hen, htorn⟩ := ha
  cases h with
  | early => exact ⟨key, q, hlen, hq, hinfo, hen, htorn⟩
  | half =>
    refine ⟨key, q, hlen, hq, hinfo, hen, ?_⟩
    simp only [Function.update_of_ne hj]
    exact htorn
  | whole =>
    refine ⟨key, q, hlen, hq, ?_, ?_, ?_⟩
    · simp only [Function.update_of_ne hj]
      exact hinfo
    · rw [Function.update_of_ne hj]
      exact hen
    · simp only [Function.update_of_ne hj]
      exact htorn

theorem fresh (h : Fills K x en i fate r x' en') (hs : Stored x) (hok : r = .ok ()) :
    Agrees x' en' torn i := by
  have hs' := h.stored hs
  cases h with
  | early | half => cases hok
  | whole =>
    refine ⟨_, List.replicate 8 0, hs'.key i, List.length_replicate, ?_, ?_, fun _ => rfl⟩
    · simp only [Function.update_self, infoOf_fresh]
    · simp only [Function.update_self]
      rfl

/-- A fill that stops between the key and the iv tears the direction, and one that gets further
mends it. -/
theorem tears (h : Fills K x en i fate r x' en') (hs : Stored x) (ha : Agrees x en torn i) :
    Agrees x' en' (if x.secretLen i ≠ 0 ∧ fate.key = .derived then fate.iv ≠ .derived else torn)
      i := by
  cases h with
  | early e h => rwa [if_neg h]
  | half e h hiv =>
    obtain ⟨key, q, hlen, hq, hinfo, hen, -⟩ := ha
    refine ⟨key, q, hlen, hq, hinfo, hen, fun htorn => ?_⟩
    rw [if_pos h] at htorn
    exact absurd hiv (of_decide_eq_false htorn)
  | whole h hiv hkey hiv' => exact (Fills.whole h hiv hkey hiv').fresh hs rfl

end Fills

theorem ktlsDeriveBoth_both (hs : Stored x) (en : Fin 2 → TlsEnable) (server : Bool)
    (suite : Option Bytes) (fate : DeriveFate) : ∃ r x' en',
      ktlsDeriveBoth K x server suite fate = (r, x') ∧
      Bsd.ktlsDeriveBoth K ⟨x.bare, en⟩ server suite fate = (r, ⟨x'.bare, en'⟩) ∧ Stored x' ∧
      (r = .ok () → ∀ i torn, Agrees x' en' torn i) := by
  have hne : whichOf server .tx ≠ whichOf server .rx := fun h => by
    cases whichOf_injective server h
  unfold ktlsDeriveBoth Bsd.ktlsDeriveBoth
  dsimp only
  have hs0 : Stored { x with cipher := ktlsNegotiatedCipher suite } := ⟨hs.key, hs.iv⟩
  by_cases hc : ktlsNegotiatedCipher suite = 0
  · rw [if_pos hc, if_pos hc]
    refine ⟨_, _, _, rfl, rfl, hs0, fun hok => ?_⟩
    cases hok
  rw [if_neg hc, if_neg hc]
  obtain ⟨r, x', en', hours, hours', hfill⟩ := ktlsFill_both K
    { x with cipher := ktlsNegotiatedCipher suite } en (whichOf server .tx) fate.ours
  have hs' := hfill.stored hs0
  have hbare : Bsd.ktlsFill K ⟨{ x.bare with cipher := ktlsNegotiatedCipher suite }, en⟩
      (whichOf server .tx) fate.ours = (r, ⟨x'.bare, en'⟩) := hours'
  rw [hours, hbare]
  cases r with
  | error e =>
    refine ⟨_, _, _, rfl, rfl, hs', fun hok => ?_⟩
    cases hok
  | ok u =>
    obtain ⟨r, x'', en'', htheirs, htheirs', hfill'⟩ :=
      ktlsFill_both K x' en' (whichOf server .rx) fate.theirs
    refine ⟨r, x'', en'', htheirs, htheirs', hfill'.stored hs', fun hok j torn => ?_⟩
    rcases which_eq server j with rfl | rfl
    · exact hfill'.other hne (hfill.fresh hs0 rfl)
    · exact hfill'.fresh hs' hok

theorem stored_keylogs (hs : Stored x) (lines : List Bytes) :
    Stored (lines.foldl ktlsKeylog x) := by
  obtain ⟨sec, len, hlog⟩ := foldl_ktlsKeylog_frame x lines
  rw [hlog]
  exact ⟨hs.key, hs.iv⟩

theorem noteDone_agrees {s : Ssl} {a : HandshakeAnswer} {torn : Bool}
    (h : Agrees x en torn i) : Agrees (noteDone x s a) en torn i := by
  obtain ⟨n, al, ll, hnote⟩ := noteDone_frame x s a
  rw [hnote]
  exact h

theorem step_both (hs : Stored x) (en : Fin 2 → TlsEnable) (a : HandshakeAnswer)
    (fate : DeriveFate) : ∃ r x' en', ktlsExchangeStep K x a fate = (r, x') ∧
      Bsd.ktlsExchangeStep K ⟨x.bare, en⟩ a fate = (r, ⟨x'.bare, en'⟩) ∧ Stored x' ∧
      (x'.done = true → x.done = true ∧ x' = x ∧ en' = en ∨ ∀ i torn, Agrees x' en' torn i) := by
  unfold ktlsExchangeStep Bsd.ktlsExchangeStep
  dsimp only
  rw [bare_ssl]
  cases hx : x.ssl with
  | none => exact ⟨_, _, _, rfl, rfl, hs, fun hd => .inl ⟨hd, rfl, rfl⟩⟩
  | some s =>
    dsimp only
    by_cases hd : x.done = true
    · have hd' : x.bare.done = true := hd
      rw [if_pos hd, if_pos hd']
      exact ⟨_, _, _, rfl, rfl, hs, fun hd => .inl ⟨hd, rfl, rfl⟩⟩
    have hd' : ¬ x.bare.done = true := hd
    rw [if_neg hd, if_neg hd']
    have hs' : Stored (a.keylog.foldl ktlsKeylog
        { x with ssl := some { s with input := a.input, output := a.output } }) :=
      stored_keylogs (x := { x with ssl := some { s with input := a.input, output := a.output } })
        ⟨hs.key, hs.iv⟩ _
    have hbare : a.keylog.foldl ktlsKeylog
        { x.bare with ssl := some { s with input := a.input, output := a.output } } =
          (a.keylog.foldl ktlsKeylog
            { x with ssl := some { s with input := a.input, output := a.output } }).bare :=
      bare_keylogs { x with ssl := some { s with input := a.input, output := a.output } } a.keylog
    have hdone : ¬ (a.keylog.foldl ktlsKeylog
        { x with ssl := some { s with input := a.input, output := a.output } }).done = true := by
      obtain ⟨sec, len, hlog⟩ := foldl_ktlsKeylog_frame
        { x with ssl := some { s with input := a.input, output := a.output } } a.keylog
      rw [hlog]
      exact hd
    rw [hbare]
    generalize a.keylog.foldl ktlsKeylog
      { x with ssl := some { s with input := a.input, output := a.output } } = y at hs' hdone ⊢
    by_cases hrc : a.rc ≠ 1
    · rw [if_pos hrc, if_pos hrc]
      by_cases he : a.error ≠ .wantRead ∧ a.error ≠ .wantWrite
      · rw [if_pos he, if_pos he]
        exact ⟨_, _, _, rfl, rfl, hs', fun hy => absurd hy hdone⟩
      · rw [if_neg he, if_neg he]
        exact ⟨_, _, _, rfl, rfl, hs', fun hy => absurd hy hdone⟩
    rw [if_neg hrc, if_neg hrc]
    obtain ⟨r, x', en', hderive, hderive', hs'', hall⟩ := ktlsDeriveBoth_both (K := K) hs'
      en s.server a.suite fate
    rw [hderive, hderive']
    cases r with
    | error e =>
      obtain ⟨c, k, v, o, hframe⟩ := ktlsDeriveBoth_frame K y s.server a.suite fate
      rw [hderive] at hframe
      obtain rfl : x' = _ := hframe
      exact ⟨_, _, _, rfl, rfl, hs'', fun hy => absurd hy hdone⟩
    | ok u =>
      refine ⟨_, _, en', rfl, ?_, ?_, fun _ => .inr fun i torn => ?_⟩
      · dsimp only
        rw [bare_noteDone]
      · obtain ⟨n, al, ll, hnote⟩ :=
          noteDone_frame x' { s with input := a.input, output := a.output } a
        rw [hnote]
        exact ⟨hs''.key, hs''.iv⟩
      · exact noteDone_agrees (hall rfl i torn)

theorem nextKey_both (hs : Stored x) (en : Fin 2 → TlsEnable) (dir : KtlsDirection)
    (fate : NextKeyFate) : ∃ r x' en', ktlsNextKey K x dir fate = (r, x') ∧
      Bsd.ktlsNextKey K ⟨x.bare, en⟩ dir fate = (r, ⟨x'.bare, en'⟩) ∧ Stored x' ∧
      (x'.done = true → x.done = true) ∧
      (∀ i torn, i ≠ whichOf x.server dir → Agrees x en torn i → Agrees x' en' torn i) ∧
      ∀ torn, Agrees x en torn (whichOf x.server dir) → Agrees x' en'
        (if Replaces x dir fate then fate.fill.iv ≠ .derived else torn)
        (whichOf x.server dir) := by
  by_cases hd : x.done = true
  swap
  · refine ⟨_, _, _, if_pos hd, if_pos hd, hs, id, fun _ _ _ ha => ha, fun torn ha => ?_⟩
    rwa [if_neg fun h => hd h.1]
  unfold ktlsNextKey Bsd.ktlsNextKey
  have hd' : x.bare.done = true := hd
  rw [if_neg (not_not.mpr hd), if_neg (not_not.mpr hd')]
  dsimp only
  rw [bare_server]
  generalize hi : whichOf x.server dir = i
  cases hupd : ktlsExpand K fate.upd (x.heldSecret i) "traffic upd" (x.secretLen i) with
  | error e =>
    have hupd' : ktlsExpand K fate.upd (x.bare.heldSecret i) "traffic upd" (x.bare.secretLen i) =
        .error e := hupd
    rw [hupd']
    refine ⟨_, _, _, rfl, rfl, hs, id, fun _ _ _ ha => ha, fun torn ha => ?_⟩
    rwa [if_neg]
    intro hr
    rw [hr.2.1] at hupd
    cases hupd
  | ok next =>
    have hupd' : ktlsExpand K fate.upd (x.bare.heldSecret i) "traffic upd" (x.bare.secretLen i) =
        .ok next := hupd
    rw [hupd']
    obtain ⟨hderived, -⟩ := expand_derived hupd
    have hs' : Stored (x.turn i next) := ⟨hs.key, hs.iv⟩
    obtain ⟨r, x', en', hfill, hfill', hfills⟩ := ktlsFill_both K (x.turn i next) en i fate.fill
    refine ⟨r, x', en', hfill, hfill', hfills.stored hs', fun _ => hd, fun j torn hj ha => ?_,
      fun torn ha => ?_⟩
    · exact hfills.other hj ha
    · have htears := hfills.tears hs' ha
      have hiff : Replaces x dir fate ↔ x.secretLen i ≠ 0 ∧ fate.fill.key = .derived := by
        rw [Replaces, hi]
        exact ⟨fun h => h.2.2, fun h => ⟨hd, hderived, h⟩⟩
      simp only [hiff]
      exact htears

variable {np : NullPending} {dir : KtlsDirection} {torn : Bool}

/-- The struct of a direction, when there is one. -/
def Bsd.enableFor (np : NullPending) (x : KtlsExchange) (en : Fin 2 → TlsEnable)
    (dir : KtlsDirection) : TlsEnable :=
  { en (whichOf x.server dir) with recSeq := be64 (sequenceOf np x dir) }

/-- The structs once one was asked for. -/
def Bsd.enabled (np : NullPending) (x : KtlsExchange) (en : Fin 2 → TlsEnable)
    (dir : KtlsDirection) : Fin 2 → TlsEnable :=
  Function.update en (whichOf x.server dir) (Bsd.enableFor np x en dir)

theorem Bsd.ktlsCryptoInfo_ready (h : Ready np x) (en : Fin 2 → TlsEnable)
    (dir : KtlsDirection) : Bsd.ktlsCryptoInfo np ⟨x.bare, en⟩ dir =
      (.ok (Bsd.enableFor np x en dir), ⟨(sequenced np x dir).bare, Bsd.enabled np x en dir⟩) := by
  obtain ⟨hd, howed, htx, hrx⟩ := h
  have hd' : x.bare.done = true := hd
  have howed' : ¬ 0 < pendingOut np x.bare := not_lt.mpr howed
  have hov : ¬ (x.bare.tx.overflowed = true ∨ x.bare.rx.overflowed = true) := by
    rintro (h | h)
    · exact absurd (htx.symm.trans h) (by decide)
    · exact absurd (hrx.symm.trans h) (by decide)
  unfold Bsd.ktlsCryptoInfo
  rw [if_neg (not_not.mpr hd'), if_neg howed', if_neg hov]
  rfl

/-- What keeps a blob back keeps back the struct, with the same error. -/
theorem ktlsCryptoInfo_unready_both (h : ¬ Ready np x) (en : Fin 2 → TlsEnable) :
    ∃ e, ∀ dir, ktlsCryptoInfo np x dir = (.error e, x) ∧
      Bsd.ktlsCryptoInfo np ⟨x.bare, en⟩ dir = (.error e, ⟨x.bare, en⟩) := by
  unfold ktlsCryptoInfo Bsd.ktlsCryptoInfo
  by_cases hd : x.done = true
  swap
  · exact ⟨_, fun dir => ⟨if_pos hd, if_pos hd⟩⟩
  have hd' : x.bare.done = true := hd
  by_cases howed : 0 < pendingOut np x
  · have howed' : 0 < pendingOut np x.bare := howed
    exact ⟨_, fun dir => ⟨by rw [if_neg (not_not.mpr hd), if_pos howed],
      by rw [if_neg (not_not.mpr hd'), if_pos howed']⟩⟩
  have howed' : ¬ 0 < pendingOut np x.bare := howed
  by_cases hov : x.tx.overflowed = true ∨ x.rx.overflowed = true
  · have hov' : x.bare.tx.overflowed = true ∨ x.bare.rx.overflowed = true := hov
    exact ⟨_, fun dir => ⟨by rw [if_neg (not_not.mpr hd), if_neg howed, if_pos hov],
      by rw [if_neg (not_not.mpr hd'), if_neg howed', if_pos hov']⟩⟩
  · rw [not_or, Bool.not_eq_true, Bool.not_eq_true] at hov
    exact absurd ⟨hd, not_lt.mp howed, hov⟩ h

theorem Agrees.ask (h : Agrees x en torn i) (np : NullPending) (dir : KtlsDirection) :
    Agrees (sequenced np x dir) (Bsd.enabled np x en dir) torn i := by
  obtain ⟨key, q, hlen, hq, hinfo, hen, htorn⟩ := h
  by_cases hi : i = whichOf x.server dir
  · subst hi
    refine ⟨key, be64 (sequenceOf np x dir), hlen, length_be64 _, ?_, ?_, htorn⟩
    · rw [sequenced]
      simp only [Function.update_self, hinfo, KtlsInfo.withSeq_withSeq]
    · rw [Bsd.enabled, Function.update_self, Bsd.enableFor, hen]
      rfl
  · refine ⟨key, q, hlen, hq, ?_, ?_, htorn⟩
    · rw [sequenced]
      simp only [Function.update_of_ne hi, hinfo]
    · rw [Bsd.enabled, Function.update_of_ne hi, hen]
      rfl

/-- The struct leads the kernel to the key and the iv the exchange has now. -/
theorem Bsd.kernelKey_enableOf {c : ℕ} (hc : c = ktlsAesGcm128 ∨ c = ktlsChacha20Poly1305)
    (hiv : (x.iv i).length = 12) {seq : ℕ} (h : seq < 2 ^ 64) :
    Bsd.kernelKey x { Bsd.enableOf c i with recSeq := be64 seq } =
      some ⟨if c = ktlsAesGcm128 then 51 else 54, (x.key i).take (keyLen c), x.iv i, seq⟩ := by
  have htake : (x.iv i).take 12 = x.iv i := List.take_of_length_le hiv.le
  rcases hc with rfl | rfl
  · simp [Bsd.kernelKey, Bsd.enableOf, keyLen, htake, readBE_be64 h]
  · simp [Bsd.kernelKey, Bsd.enableOf, keyLen, ktlsAesGcm128, ktlsChacha20Poly1305,
      cryptoAesNistGcm16, cryptoChacha20Poly1305, htake, readBE_be64 h]

theorem Agrees.kernelKeys (h : Agrees x en torn (whichOf x.server dir)) (hs : Stored x)
    (hc : x.cipher = ktlsAesGcm128 ∨ x.cipher = ktlsChacha20Poly1305)
    (hseq : sequenceOf np x dir < 2 ^ 64) : ∃ k, kernelKey (blobFor np x dir) = some k ∧
      Bsd.kernelKey x.bare (Bsd.enableFor np x en dir) =
        some { k with key := (x.key (whichOf x.server dir)).take (keyLen x.cipher) } ∧
      (torn = false → k.key = (x.key (whichOf x.server dir)).take (keyLen x.cipher)) := by
  obtain ⟨key, q, hlen, -, hinfo, hen, htorn⟩ := h
  have hkey : keyLen x.cipher ≤ key.length := by
    rw [hlen, keyLen]
    split_ifs <;> norm_num
  rw [blobFor, hinfo, KtlsInfo.withSeq_withSeq]
  refine ⟨_, kernelKey_infoOf hkey (hs.iv _) hseq, ?_, fun ht => ?_⟩
  · rw [Bsd.enableFor, hen]
    exact Bsd.kernelKey_enableOf (x := x.bare) hc (hs.iv _) hseq
  · rw [htorn ht]

theorem Bsd.setsockopt_key {value : TlsEnable} {k : KernelKey}
    (hk : Bsd.kernelKey x value = some k) (sock : Bsd.Socket) (dir : KtlsDirection)
    (accepts : Bool) :
    Bsd.setsockopt x sock Bsd.ktlsSolTls (Bsd.ktlsOptname true dir) value accepts =
      (accepts, if accepts then
        match dir with
        | .tx => { sock with tx := some k }
        | .rx => { sock with rx := some k }
        else sock) := by
  unfold Bsd.setsockopt
  rw [hk]
  cases accepts <;> cases dir <;> rfl

theorem Bsd.enableFor_enabled (np : NullPending) (x : KtlsExchange) (en : Fin 2 → TlsEnable) :
    Bsd.enableFor np (sequenced np x .tx) (Bsd.enabled np x en .tx) .rx =
      Bsd.enableFor np x en .rx := by
  have hne : whichOf x.server .rx ≠ whichOf x.server .tx :=
    fun h => KtlsDirection.noConfusion (whichOf_injective x.server h)
  have hother : Bsd.enabled np x en .tx (whichOf x.server .rx) = en (whichOf x.server .rx) :=
    Function.update_of_ne hne _ _
  change ({ Bsd.enabled np x en .tx (whichOf x.server .rx) with
    recSeq := be64 (sequenceOf np (sequenced np x .tx) .rx) } : TlsEnable) = _
  rw [hother]
  rfl

/-- Where both kernels have their way with the keys, both calls end in the same way. -/
theorem ktlsOffload_both (hr : Ready np x) {k k' : KtlsDirection → KernelKey}
    (hk : ∀ dir, kernelKey (blobFor np x dir) = some (k dir))
    (hk' : ∀ dir, Bsd.kernelKey x.bare (Bsd.enableFor np x en dir) = some (k' dir))
    {fate : OffloadFate} (hulp : fate.ulp = true) :
    (Bsd.ktlsOffload true np ⟨x.bare, en⟩ {} fate).1 = (ktlsOffload np x {} fate).1 ∧
    ∀ dir, ∃ sets : Bool,
      ((ktlsOffload np x {} fate).2.2.slot dir).bind kernelKey =
        (if sets then some (k dir) else none) ∧
      (Bsd.ktlsOffload true np ⟨x.bare, en⟩ {} fate).2.2.slot dir =
        if sets then some (k' dir) else none := by
  have hr' : Ready np (sequenced np x .tx) := hr
  have hname : ¬ ktlsOptname .rx < 0 := by decide
  have hname' : ¬ Bsd.ktlsOptname true .rx < 0 := by decide
  have hbare : (sequenced np (sequenced np x .tx) .rx).bare = x.bare := rfl
  obtain ⟨initialized, ulp, tx, rx⟩ := fate
  obtain rfl : ulp = true := hulp
  unfold ktlsOffload Bsd.ktlsOffload
  simp only [ktlsCryptoInfo_ready hr, ktlsCryptoInfo_ready hr', Bsd.ktlsCryptoInfo_ready hr,
    Bsd.ktlsCryptoInfo_ready hr', blobFor_sequenced, Bsd.enableFor_enabled, hname, hname', hbare,
    Bsd.ktlsAttachUlp, ktlsAttachUlp_eq, Bsd.setsockopt_key (hk' .tx),
    Bsd.setsockopt_key (hk' .rx), if_false, if_true]
  cases initialized with
  | false => exact ⟨rfl, fun dir => ⟨false, by cases dir <;> rfl, by cases dir <;> rfl⟩⟩
  | true =>
    simp only [not_true, if_false, setsockopt_tx]
    cases tx with
    | false => exact ⟨rfl, fun dir => ⟨false, by cases dir <;> rfl, by cases dir <;> rfl⟩⟩
    | true =>
      simp only [if_true, setsockopt_rx]
      cases rx with
      | false =>
        refine ⟨rfl, fun dir => ?_⟩
        cases dir with
        | tx => exact ⟨true, hk .tx, rfl⟩
        | rx => exact ⟨false, rfl, rfl⟩
      | true =>
        refine ⟨rfl, fun dir => ⟨true, ?_⟩⟩
        cases dir with
        | tx => exact ⟨hk .tx, rfl⟩
        | rx => exact ⟨hk .rx, rfl⟩

namespace Builds

variable {B B' : Builds} {role : KtlsRole} {calls : List Call}

/-- Both builds hold the same, but for their blobs; and these agree once there are any. -/
structure Inv (B : Builds) : Prop where
  bare : B.bsd.x = B.linux.bare
  stored : Stored B.linux
  agrees : B.linux.done = true → ∀ i, Agrees B.linux B.bsd.en (B.torn i) i

theorem inv_opened (role : KtlsRole) : (opened role).Inv where
  bare := rfl
  stored := ⟨fun _ => List.length_replicate, fun _ => List.length_replicate⟩
  agrees hd := absurd hd Bool.false_ne_true

theorem moved {call : Call} {y : KtlsExchange} (he : call.Effect K x y)
    (hcall : match call with
      | .feed _ _ | .take _ | .backlog _ | .release => True
      | .step _ _ | .ask _ _ | .nextKey _ _ => False) :
    y.key = x.key ∧ y.iv = x.iv ∧ y.info = x.info ∧ y.cipher = x.cipher ∧ y.done = x.done := by
  cases he with
  | idle | feed | take | release => exact ⟨rfl, rfl, rfl, rfl, rfl⟩
  | @backlog s a hx hd =>
    obtain ⟨sec, len, hframe⟩ := ktlsExchangeBacklog_frame hx hd a
    rw [hframe]
    exact ⟨rfl, rfl, rfl, rfl, rfl⟩
  | step | ask | nextKey => exact hcall.elim

theorem Inv.moved {torn : Fin 2 → Bool} (h : Inv ⟨x, ⟨x.bare, en⟩, torn⟩) {y : KtlsExchange}
    (hy : y.key = x.key ∧ y.iv = x.iv ∧ y.info = x.info ∧ y.cipher = x.cipher ∧
      y.done = x.done) : Inv ⟨y, ⟨y.bare, en⟩, torn⟩ := by
  obtain ⟨hkey, hiv, hinfo, hcipher, hdone⟩ := hy
  refine ⟨rfl, ⟨hkey ▸ h.stored.key, hiv ▸ h.stored.iv⟩, fun hd i => ?_⟩
  have ha := h.agrees (hdone.symm.trans hd) i
  rw [Agrees] at ha ⊢
  simp only [hinfo, hkey, hiv, hcipher]
  exact ha

theorem Inv.after (h : B.Inv) (call : Call) : (B.after K call).Inv := by
  obtain ⟨x, ⟨y, en⟩, torn⟩ := B
  obtain rfl : y = x.bare := h.bare
  cases call with
  | feed bytes written =>
    rw [Builds.after, BsdExchange.after, bare_feed]
    exact h.moved (Builds.moved (Call.effect K x (.feed bytes written)) trivial)
  | step a fate =>
    obtain ⟨r, x', en', hlinux, hbsd, hs, hall⟩ := step_both (K := K) h.stored en a fate
    rw [Builds.after, BsdExchange.after, Call.after, hlinux, hbsd]
    refine ⟨rfl, hs, fun hd i => ?_⟩
    rcases hall hd with ⟨hd', rfl, rfl⟩ | hall
    · exact h.agrees hd' i
    · exact hall i _
  | take cap =>
    rw [Builds.after, BsdExchange.after, bare_take]
    exact h.moved (Builds.moved (Call.effect K x (.take cap)) trivial)
  | backlog a =>
    rw [Builds.after, BsdExchange.after, bare_backlog]
    exact h.moved (Builds.moved (Call.effect K x (.backlog a)) trivial)
  | ask np dir =>
    by_cases hr : Ready np x
    · rw [Builds.after, BsdExchange.after, Call.after, ktlsCryptoInfo_ready hr,
        Bsd.ktlsCryptoInfo_ready hr]
      exact ⟨rfl, ⟨h.stored.key, h.stored.iv⟩, fun hd i => (h.agrees hd i).ask np dir⟩
    · obtain ⟨e, he⟩ := ktlsCryptoInfo_unready_both hr en
      obtain ⟨hlinux, hbsd⟩ := he dir
      rw [Builds.after, BsdExchange.after, Call.after, hlinux, hbsd]
      exact h
  | nextKey dir fate =>
    obtain ⟨r, x', en', hlinux, hbsd, hs, hd, hother, hself⟩ :=
      nextKey_both (K := K) h.stored en dir fate
    rw [Builds.after, BsdExchange.after, Call.after, hlinux, hbsd]
    refine ⟨rfl, hs, fun hd' i => ?_⟩
    have ha := h.agrees (hd hd') i
    by_cases hi : i = whichOf x.server dir
    · subst hi
      have htears := hself _ ha
      by_cases hr : Replaces x dir fate
      · simp only [tornBy, if_pos hr, Function.update_self] at htears ⊢
        exact htears
      · simp only [tornBy, if_neg hr] at htears ⊢
        exact htears
    · have hsame := hother i _ hi ha
      by_cases hr : Replaces x dir fate
      · simp only [tornBy, if_pos hr, Function.update_of_ne hi]
        exact hsame
      · simp only [tornBy, if_neg hr]
        exact hsame
  | release => exact h.moved (Builds.moved (Call.effect K x .release) trivial)

theorem linux_run (h : (machine K).Run B calls B') :
    (Call.machine K).Run B.linux calls B'.linux := by
  induction h with
  | nil B => exact .nil _
  | cons hp _ ih => exact .cons hp ih

theorem offload_sending (np : NullPending) (b : BsdExchange) (sock : Bsd.Socket)
    (fate : OffloadFate) : (∃ e, (Bsd.ktlsOffload false np b sock fate).1 = .error e) ∧
      (Bsd.ktlsOffload false np b sock fate).2.2 = sock := by
  have hname : Bsd.ktlsOptname false .rx < 0 := by decide
  unfold Bsd.ktlsOffload
  rcases Bsd.ktlsCryptoInfo np b .tx with ⟨tx, b'⟩
  dsimp only
  rcases Bsd.ktlsCryptoInfo np b' .rx with ⟨rx, b''⟩
  cases rx with
  | error e => exact ⟨⟨e, rfl⟩, rfl⟩
  | ok rx =>
    cases tx with
    | error e => exact ⟨⟨e, rfl⟩, rfl⟩
    | ok tx =>
      by_cases hinit : ¬ fate.initialized = true
      · simp only [if_pos hinit]
        exact ⟨⟨_, rfl⟩, trivial⟩
      · simp only [if_neg hinit, if_pos hname]
        exact ⟨⟨_, rfl⟩, trivial⟩

theorem offload_unready (hr : ¬ Ready np x) (en : Fin 2 → TlsEnable) (fate : OffloadFate) :
    (Bsd.ktlsOffload true np ⟨x.bare, en⟩ {} fate).1 = (ktlsOffload np x {} fate).1 ∧
      (ktlsOffload np x {} fate).2.2 = {} ∧
      (Bsd.ktlsOffload true np ⟨x.bare, en⟩ {} fate).2.2 = {} := by
  obtain ⟨e, he⟩ := ktlsCryptoInfo_unready_both hr en
  unfold ktlsOffload Bsd.ktlsOffload
  simp only [(he .tx).1, (he .rx).1, (he .tx).2, (he .rx).2, and_self]

/-- One program is run on both kernels, with whatever calls and whatever failures. Its calls
answer alike, and when it offloads the exchange, to kernels that accept the same, FreeBSD gets the
suite, the iv and the number that Linux gets, and the key that is in the exchange now: the same
one, unless an update of this direction got its key and then no iv. Where there is no receiving,
nothing is touched. -/
theorem agree (hrun : (machine K).Run (opened role) calls B) :
    B.bsd.x = B.linux.bare ∧
    (∀ a fate, (Bsd.ktlsExchangeStep K B.bsd a fate).1 = (ktlsExchangeStep K B.linux a fate).1) ∧
    (∀ dir fate, (Bsd.ktlsNextKey K B.bsd dir fate).1 = (ktlsNextKey K B.linux dir fate).1) ∧
    (∀ np fate l f, fate.ulp = true → l = ktlsOffload np B.linux {} fate →
      f = Bsd.ktlsOffload true np B.bsd {} fate → f.1 = l.1 ∧
      ∀ dir i, i = whichOf B.linux.server dir →
        f.2.2.slot dir = ((l.2.2.slot dir).bind kernelKey).map (fun k =>
          { k with key := (B.linux.key i).take (keyLen B.linux.cipher) }) ∧
        (B.torn i = false → f.2.2.slot dir = (l.2.2.slot dir).bind kernelKey)) ∧
    ∀ np sock fate, (∃ e, (Bsd.ktlsOffload false np B.bsd sock fate).1 = .error e) ∧
      (Bsd.ktlsOffload false np B.bsd sock fate).2.2 = sock := by
  have h := hrun.invariant (P := Inv) (fun _ call hi _ => hi.after call) (inv_opened role)
  have hlinux := linux_run hrun
  have hfilled := filled_reachable hlinux
  have hseq := sequence_le hlinux
  obtain ⟨x, ⟨y, en⟩, torn⟩ := B
  obtain rfl : y = x.bare := h.bare
  refine ⟨rfl, fun a fate => ?_, fun dir fate => ?_, ?_, fun np sock fate => ?_⟩
  · obtain ⟨r, x', en', hstep, hstep', -⟩ := step_both (K := K) h.stored en a fate
    exact (congrArg Prod.fst hstep').trans (congrArg Prod.fst hstep).symm
  · obtain ⟨r, x', en', hnext, hnext', -⟩ := nextKey_both (K := K) h.stored en dir fate
    exact (congrArg Prod.fst hnext').trans (congrArg Prod.fst hnext).symm
  · rintro np fate l f hulp rfl rfl
    by_cases hr : Ready np x
    · have hagrees := h.agrees hr.1
      have hkeys (dir : KtlsDirection) := (hagrees (whichOf x.server dir)).kernelKeys h.stored
        (hfilled.cipher hr.1) ((hseq np dir).trans_lt (by norm_num))
      choose k hk hk' huntorn using hkeys
      obtain ⟨hsame, hslots⟩ := ktlsOffload_both hr hk hk' hulp
      refine ⟨hsame, fun dir i hi => ?_⟩
      subst hi
      obtain ⟨sets, hl, hf⟩ := hslots dir
      rw [hl, hf]
      refine ⟨by cases sets <;> rfl, fun ht => ?_⟩
      rw [← huntorn dir ht]
    · obtain ⟨hsame, hl, hf⟩ := offload_unready hr en fate
      refine ⟨hsame, fun dir i _ => ?_⟩
      rw [hl, hf]
      cases dir <;> exact ⟨rfl, fun _ => rfl⟩
  · exact offload_sending np ⟨x.bare, en⟩ sock fate

/-- A server behind its tickets turns the key it sends with, and gets no iv. -/
def sampleCalls : List Call := drainedServer ++ [.nextKey .tx { fill := { iv := .noDerive } }]

def sampleBuilds : Builds := sampleCalls.foldl (machine sampleKdf).next (opened .server)

/-- Linux goes on with the old key, and FreeBSD takes the new one with the old iv. -/
theorem agree_sample :
    (Bsd.ktlsOffload true .zero sampleBuilds.bsd {} {}).2.2.slot .rx =
      ((ktlsOffload .zero sampleBuilds.linux {} {}).2.2.slot .rx).bind kernelKey ∧
    (Bsd.ktlsOffload true .zero sampleBuilds.bsd {} {}).2.2.slot .tx = some
      (trafficKey sampleKdf ktlsAesGcm128 (sampleSecret 1) 0 |> fun k =>
        { k with key := sampleKdf.expand (sampleNext 1) "key" 16 }) := by
  have hrun : (machine sampleKdf).Run (opened .server) sampleCalls sampleBuilds :=
    Machine.Run.of_check (by decide +kernel)
  obtain ⟨-, -, -, hoffload, -⟩ := agree hrun
  obtain ⟨-, hslots⟩ := hoffload .zero {} _ _ rfl rfl rfl
  refine ⟨(hslots .rx 0 (by decide +kernel)).2 (by decide +kernel), ?_⟩
  decide +kernel

end Builds

end Ktls
