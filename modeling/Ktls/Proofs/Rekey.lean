import Ktls.Proofs.Exchange
import Ktls.Spec.Rekey

/-! Key updates on the two sides of a connection, in any interleaving. -/

namespace Ktls

variable {K : Kdf} {x : KtlsExchange} {server : Bool} {c : ℕ} {secret : KtlsDirection → Bytes}

theorem whichOf_ne {d e : KtlsDirection} (h : d ≠ e) (server : Bool) :
    whichOf server d ≠ whichOf server e := fun he => h (whichOf_injective server he)

/-- What a key update leaves of the other direction: everything it answers with. -/
theorem ktlsNextKey_other {dir other : KtlsDirection} (h : other ≠ dir) (fate : NextKeyFate)
    (np : NullPending) :
    (ktlsNextKey K x dir fate).2.heldSecret (whichOf x.server other) =
      x.heldSecret (whichOf x.server other) ∧
    (ktlsCryptoInfo np (ktlsNextKey K x dir fate).2 other).1 = (ktlsCryptoInfo np x other).1 ∧
    ktlsRecordSequence np (ktlsNextKey K x dir fate).2 other = ktlsRecordSequence np x other := by
  obtain ⟨sec, rek, key, iv, info, hframe, hkeep, -⟩ := ktlsNextKey_frame K x dir fate
  obtain ⟨hsec, hrek, hinfo⟩ := hkeep _ (whichOf_ne h x.server)
  rw [hframe]
  have hseq : sequenceOf np { x with
      secret := sec, rekeyed := rek, key := key, iv := iv, info := info } other =
      sequenceOf np x other := by
    unfold sequenceOf
    simp only [hrek]
    rfl
  refine ⟨?_, ?_, ?_⟩
  · simp only [KtlsExchange.heldSecret, hsec]
  · exact ktlsCryptoInfo_congr rfl rfl rfl rfl rfl hseq hinfo
  · unfold ktlsRecordSequence
    rw [hseq]

/-- After `n dir` updates of each direction: the secret is the `n`-th, and once there
was one the flag is up and the blob is that secret's. -/
structure Turned (K : Kdf) (server : Bool) (c : ℕ) (secret : KtlsDirection → Bytes)
    (n : KtlsDirection → ℕ) (x : KtlsExchange) : Prop where
  holding : Holding server c (fun dir => secretAfter K (secret dir) (n dir)) x
  rekeyed : ∀ dir, 0 < n dir → x.rekeyed (whichOf server dir) = true
  info : ∀ dir, 0 < n dir →
    ∃ q, x.info (whichOf server dir) = (layout K c (secretAfter K (secret dir) (n dir))).withSeq q

variable {n : KtlsDirection → ℕ}

theorem Holding.turned (h : Holding server c secret x) (K : Kdf) :
    Turned K server c secret (fun _ => 0) x :=
  ⟨h, fun _ h0 => absurd h0 (lt_irrefl 0), fun _ h0 => absurd h0 (lt_irrefl 0)⟩

theorem Turned.release (h : Turned K server c secret n x) :
    Turned K server c secret n (ktlsExchangeRelease x) := by
  have hh := h.holding
  exact ⟨⟨hh.done, hh.server_eq, hh.cipher, fun np => pendingOut_release np x, hh.tx_counted,
    hh.rx_counted, hh.fits, hh.held⟩, h.rekeyed, h.info⟩

theorem Turned.ask (h : Turned K server c secret n x) (np : NullPending) (dir : KtlsDirection) :
    Turned K server c secret n (ktlsCryptoInfo np x dir).2 := by
  obtain ⟨q, hq⟩ := ktlsCryptoInfo_frame np x dir
  have hh := h.holding
  rw [hq]
  refine ⟨⟨hh.done, hh.server_eq, hh.cipher, hh.owed, hh.tx_counted, hh.rx_counted, hh.fits,
    hh.held⟩, h.rekeyed, fun d hd => ?_⟩
  obtain ⟨p, hp⟩ := h.info d hd
  refine ⟨q (whichOf server d), ?_⟩
  simp only [hp, KtlsInfo.withSeq_withSeq]

theorem Turned.nextKey (h : Turned K server c secret n x) {dir : KtlsDirection}
    {fate : NextKeyFate} (hok : (ktlsNextKey K x dir fate).1 = .ok ()) :
    Turned K server c secret (Function.update n dir (n dir + 1)) (ktlsNextKey K x dir fate).2 := by
  have hh := h.holding
  have hserver := hh.server_eq
  subst hserver
  obtain ⟨hheld, hrek, hinfo⟩ := ktlsNextKey_ok hh.fits hok
  have hlen (i : Fin 2) : (ktlsNextKey K x dir fate).2.secretLen i ≤
      ((ktlsNextKey K x dir fate).2.secret i).length := fits_nextKey hh.fits i
  obtain ⟨sec, rek, key, iv, info, hframe, hkeep, -⟩ := ktlsNextKey_frame K x dir fate
  rw [hframe] at hheld hrek hinfo hlen ⊢
  rw [hh.held, ← secretAfter_succ] at hheld hinfo
  rw [hh.cipher] at hinfo
  have keep {d : KtlsDirection} (hd : d ≠ dir) := hkeep _ (whichOf_ne hd x.server)
  refine ⟨⟨hh.done, rfl, hh.cipher, hh.owed, hh.tx_counted, hh.rx_counted, hlen, fun d => ?_⟩,
    fun d hd => ?_, fun d hd => ?_⟩
  · by_cases hdd : d = dir
    · rw [hdd, Function.update_self]
      exact hheld
    · rw [Function.update_of_ne hdd, ← hh.held]
      simp only [KtlsExchange.heldSecret, (keep hdd).1]
  · by_cases hdd : d = dir
    · rw [hdd]
      exact hrek
    · rw [Function.update_of_ne hdd] at hd
      exact (keep hdd).2.1.trans (h.rekeyed d hd)
  · by_cases hdd : d = dir
    · rw [hdd, Function.update_self]
      exact ⟨_, hinfo⟩
    · rw [Function.update_of_ne hdd] at hd ⊢
      obtain ⟨q, hq⟩ := h.info d hd
      exact ⟨q, (keep hdd).2.2.trans hq⟩

theorem Turned.after (h : Turned K server c secret n x) {r : Rekey} (hr : r.Succeeds K x) :
    Turned K server c secret (fun dir => n dir + if r.turns dir then 1 else 0) (r.after K x) := by
  cases r with
  | nextKey dir fate =>
    have hn : (fun d => n d + if (Rekey.nextKey dir fate).turns d then 1 else 0) =
        Function.update n dir (n dir + 1) := by
      funext d
      by_cases hd : d = dir
      · rw [hd, Function.update_self, Rekey.turns, if_pos (decide_eq_true rfl)]
      · have hne : ¬ dir = d := fun h => hd h.symm
        rw [Function.update_of_ne hd, Rekey.turns, if_neg (by simpa using hne), Nat.add_zero]
    rw [hn]
    exact h.nextKey hr
  | release => exact h.release
  | ask np dir => exact h.ask np dir

theorem Turned.answers (h : Turned K server c secret n x) (dir : KtlsDirection)
    (hn : 0 < n dir) (np : NullPending) :
    (ktlsCryptoInfo np x dir).1 = .ok (blob K c (secretAfter K (secret dir) (n dir)) 0) ∧
      ktlsRecordSequence np x dir = 0 := by
  have hh := h.holding
  have hseq : sequenceOf np x dir = 0 := by
    unfold sequenceOf
    rw [hh.server_eq, h.rekeyed dir hn, if_pos rfl]
  refine ⟨?_, ?_⟩
  · obtain ⟨q, hq⟩ := h.info dir hn
    refine ktlsCryptoInfo_ok.mpr ⟨hh.done, hh.owed np, hh.tx_counted, hh.rx_counted, ?_⟩
    rw [hseq, hh.server_eq, hq, KtlsInfo.withSeq_withSeq, blob]
  · rw [ktlsRecordSequence, hseq, ite_self]

variable {xs ys : Bool → KtlsExchange} {calls : List (Bool × Rekey)}

/-- Each side has moved each direction on as often as it was asked to. -/
theorem turned_run (hrun : (Rekey.machine K).Run xs calls ys) {side : Bool}
    (h : Turned K server c secret n (xs side)) :
    Turned K server c secret (fun dir => n dir + Rekey.count side dir calls) (ys side) := by
  induction hrun generalizing n with
  | nil => exact h
  | @cons xs call calls ys hp _ ih =>
    obtain ⟨b, r⟩ := call
    by_cases hb : b = side
    · subst hb
      have hx : (Rekey.machine K).next xs (b, r) b = r.after K (xs b) := Function.update_self ..
      have hcount : (fun dir => n dir + (if r.turns dir then 1 else 0) + Rekey.count b dir calls) =
          fun dir => n dir + Rekey.count b dir ((b, r) :: calls) := by
        funext dir
        rw [Rekey.count, Rekey.count, List.countP_cons]
        simp only [beq_self_eq_true, Bool.true_and]
        omega
      rw [← hcount]
      exact ih (hx ▸ h.after hp)
    · have hx : (Rekey.machine K).next xs (b, r) side = xs side :=
        Function.update_of_ne (Ne.symm hb) _ _
      have hcount : (fun dir => n dir + Rekey.count side dir calls) =
          fun dir => n dir + Rekey.count side dir ((b, r) :: calls) := by
        funext dir
        rw [Rekey.count, Rekey.count, List.countP_cons]
        simp only [beq_eq_false_iff_ne.mpr hb, Bool.false_and, Bool.false_eq_true, if_false,
          Nat.add_zero]
      rw [← hcount]
      exact ih (hx ▸ h)

/-- However updates and releases of the two sides interleave: where one side has turned
what it sends with as often as the other what it receives with, both hand out the same
blob at record 0, and no update is felt in the other direction. -/
theorem rekeyed_in_step {shared : Fin 2 → Bytes} (hrun : (Rekey.machine K).Run xs calls ys)
    (h : ∀ side, Holding side c (fun dir => shared (whichOf side dir)) (xs side))
    (np np' : NullPending) :
    (∀ side n, 1 ≤ n → Rekey.count side .tx calls = n → Rekey.count (!side) .rx calls = n →
      (ktlsCryptoInfo np (ys side) .tx).1 =
        .ok (blob K c (secretAfter K (shared (whichOf side .tx)) n) 0) ∧
      (ktlsCryptoInfo np' (ys (!side)) .rx).1 =
        .ok (blob K c (secretAfter K (shared (whichOf side .tx)) n) 0) ∧
      ktlsRecordSequence np (ys side) .tx = 0 ∧ ktlsRecordSequence np' (ys (!side)) .rx = 0) ∧
    (∀ side dir other fate, other ≠ dir →
      (ktlsNextKey K (ys side) dir fate).2.heldSecret (whichOf (ys side).server other) =
        (ys side).heldSecret (whichOf (ys side).server other) ∧
      (ktlsCryptoInfo np (ktlsNextKey K (ys side) dir fate).2 other).1 =
        (ktlsCryptoInfo np (ys side) other).1 ∧
      ktlsRecordSequence np (ktlsNextKey K (ys side) dir fate).2 other =
        ktlsRecordSequence np (ys side) other) := by
  refine ⟨?_, ?_⟩
  · intro side n hn htx hrx
    have hs := turned_run hrun ((h side).turned K)
    have hp := turned_run hrun ((h (!side)).turned K)
    simp only [Nat.zero_add] at hs hp
    obtain ⟨hblob, hseq⟩ := hs.answers .tx (by omega) np
    obtain ⟨hblob', hseq'⟩ := hp.answers .rx (by omega) np'
    rw [htx] at hblob
    rw [hrx, ← whichOf_peer] at hblob'
    exact ⟨hblob, hblob', hseq, hseq'⟩
  · intro side dir other fate hne
    exact ktlsNextKey_other hne fate np

/-- A side of the sample connection right after its handover. -/
def sampleExchange (server : Bool) : KtlsExchange where
  ssl := some { server := server }
  done := true
  server := server
  secret i := sampleSecret i ++ List.replicate 32 0
  secretLen _ := 32
  cipher := ktlsAesGcm128

/-- The server turns what it sends with, and each side releases its SSL at some point. -/
def sampleUpdates : List (Bool × Rekey) :=
  [(false, .release), (true, .nextKey .tx {}), (true, .release), (false, .nextKey .rx {})]

theorem rekeyed_in_step_sample :
    (ktlsCryptoInfo .zero (sampleUpdates.foldl (Rekey.machine sampleKdf).next sampleExchange
      true) .tx).1 = .ok (blob sampleKdf ktlsAesGcm128 (sampleNext 1) 0) := by
  have hrun : (Rekey.machine sampleKdf).Run sampleExchange sampleUpdates
      (sampleUpdates.foldl (Rekey.machine sampleKdf).next sampleExchange) :=
    Machine.Run.of_check (by decide +kernel)
  have hholding (side : Bool) : Holding side ktlsAesGcm128
      (fun dir => sampleSecret (whichOf side dir)) (sampleExchange side) := by
    refine ⟨rfl, rfl, rfl, fun _ => le_rfl, rfl, rfl, ?_, ?_⟩
    · cases side <;> decide
    · intro dir
      cases side <;> cases dir <;> decide
  have h := (rekeyed_in_step hrun hholding .zero .zero).1 true 1 le_rfl (by decide) (by decide)
  have hnext : secretAfter sampleKdf (sampleSecret (whichOf true .tx)) 1 = sampleNext 1 := by
    decide +kernel
  rw [hnext] at h
  exact h.1

end Ktls
