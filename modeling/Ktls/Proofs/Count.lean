import Ktls.Proofs.Flow

/-! How many records a direction has carried since the exchange was done. They are counted
in a table of 64, which the handshake has drawn on before. -/

namespace Ktls

open Framing (cuts cuts_take length_cuts pairwise_cuts countP_take_iff)

variable {K : Kdf} {np : NullPending}

/-- The table answers for the first 64 records of a stream. -/
theorem ktlsRecordsBetween_stream (b : Bytes) (after upto : ℕ) :
    ktlsRecordsBetween (parsed b) after upto =
      ((cuts 0 (tlsRecord.frames (b.take upto))).take 64).countP fun e => after < e := by
  obtain ⟨hle, l, hb, hlt⟩ := tlsRecord.cuts_take b upto
  rw [ktlsRecordsBetween, ends_parsed, hb, List.take_append, List.countP_append]
  have hnone : (l.take (64 - (cuts 0 (tlsRecord.frames (b.take upto))).length)).countP
      (fun e => after < e ∧ e ≤ upto) = 0 := by
    refine List.countP_eq_zero.mpr fun e he => ?_
    have := hlt e (List.mem_of_mem_take he)
    simp only [decide_eq_true_eq]
    omega
  rw [hnone, Nat.add_zero]
  refine List.countP_congr fun e he => ?_
  simp only [decide_eq_true_eq, and_iff_left (hle e (List.mem_of_mem_take he))]

namespace Flow

variable {F : Flow} {dir : KtlsDirection}

/-- Both directions hold what their streams say. -/
def Counts (F : Flow) : KtlsDirection → Prop
  | .tx => F.Sent
  | .rx => F.Received

theorem Counts.sequence (h : F.Counts dir) (hd : F.x.done = true)
    (hr : F.x.rekeyed (whichOf F.x.server dir) = false) (np : NullPending) :
    sequenceOf np F.x dir = ((F.ends dir).take 64).countP fun e => F.boundary dir < e := by
  unfold sequenceOf
  rw [if_neg (Bool.eq_false_iff.mp hr)]
  cases dir with
  | tx =>
    have hs : F.Sent := h
    simp only
    rw [hs.tx, offset_parsed, hs.boundary hd, ktlsRecordsBetween_stream, List.take_length]
    rfl
  | rx =>
    have hrx : F.Received := h
    obtain ⟨s, hx⟩ := hrx.live
    have hread := hrx.read
    rw [unread_ssl hx] at hread
    have hconsumed : consumed np F.x = F.read := by
      rw [consumed, pendingIn, hx, hrx.fed]
      simp only
      omega
    simp only
    rw [hrx.rx, hrx.boundary hd, hconsumed, ktlsRecordsBetween_stream]
    rfl

theorem pairwise_ends (F : Flow) (dir : KtlsDirection) : (F.ends dir).Pairwise (· < ·) :=
  tlsRecord.pairwise_cuts (tlsRecord.isFrame_of_mem _)

/-- Where neither table has overflowed, the stream has no more records than the table. -/
theorem Counts.ends_le (h : F.Counts dir) (htx : F.x.tx.overflowed = false)
    (hrx : F.x.rx.overflowed = false) : (F.ends dir).length ≤ 64 := by
  rw [ends, length_cuts]
  cases dir with
  | tx =>
    have hs : F.Sent := h
    rw [hs.tx, Bool.eq_false_iff, ne_eq, overflowed_parsed] at htx
    exact not_lt.mp htx
  | rx =>
    have hr : F.Received := h
    rw [hr.rx, Bool.eq_false_iff, ne_eq, overflowed_parsed] at hrx
    exact (tlsRecord.frames_length_mono (List.take_prefix _ _)).trans (not_lt.mp hrx)

/-- On a finished exchange that was never rekeyed: the sequence it reports is the number of
records behind the boundary exactly when the direction has carried no more than 64 in all, or
none behind the boundary, and it is never more; the sequence in a blob is always that
number. -/
theorem sequence_exact_iff {role : KtlsRole} {calls : List Call}
    (hrun : ((machine K).restrict fun F call => dir = .rx → F.FeedFits call).Run
      (opened role) calls F) (hd : F.x.done = true)
    (hr : F.x.rekeyed (whichOf F.x.server dir) = false) (np : NullPending) :
    (ktlsRecordSequence np F.x dir = F.since dir ↔
      (F.ends dir).length ≤ 64 ∨ F.since dir = 0) ∧
    ktlsRecordSequence np F.x dir ≤ F.since dir ∧
    ∀ b, (ktlsCryptoInfo np F.x dir).1 = .ok b → recSeqOf b = F.since dir := by
  have hcounts : F.Counts dir := by
    cases dir with
    | tx => exact hrun.invariant (fun _ _ h hp => h.after hp.1) (sent_opened role)
    | rx => exact hrun.invariant (fun _ _ h hp => h.after hp.1 (hp.2 rfl)) (received_opened role)
  have hseq := hcounts.sequence hd hr np
  have hrecord : ktlsRecordSequence np F.x dir =
      ((F.ends dir).take 64).countP fun e => F.boundary dir < e :=
    (if_neg (not_not.mpr hd)).trans hseq
  refine ⟨?_, ?_, fun b hb => ?_⟩
  · rw [hrecord]
    exact countP_take_iff (F.pairwise_ends dir) 64 (F.boundary dir)
  · rw [hrecord]
    exact (List.take_sublist 64 (F.ends dir)).countP_le
  · obtain ⟨-, -, htx, hrx, rfl⟩ := ktlsCryptoInfo_ok.mp hb
    have hle := hcounts.ends_le htx hrx
    rw [List.take_of_length_le hle] at hseq
    have hlt : F.since dir < 2 ^ 64 := by
      have hcount : F.since dir ≤ (F.ends dir).length := List.countP_le_length
      omega
    rw [hseq]
    exact recSeqOf_bytes _ hlt

open Session in
/-- A client that is done, has sent its Finished, and reads `n` tickets. -/
def ticketed (n : ℕ) : List Call :=
  [.feed (helloRecord ++ sealedRecord 53) 153,
   .step (sampleDone false (sealedRecord 53)) {},
   .take 1000,
   .feed (List.replicate n (sealedRecord 20)).flatten (25 * n),
   .backlog wantsMore]

theorem sequence_exact_sample :
    ktlsRecordSequence .zero (sampleFlow .client (ticketed 60)).x .rx =
      (sampleFlow .client (ticketed 60)).since .rx := by
  have hrun : ((machine sampleKdf).restrict fun F call =>
      KtlsDirection.rx = .rx → F.FeedFits call).Run (opened .client) (ticketed 60)
      (sampleFlow .client (ticketed 60)) := Machine.Run.of_check (by decide +kernel)
  exact (sequence_exact_iff hrun (by decide +kernel) (by decide +kernel) .zero).1.mpr
    (.inl (by decide +kernel))

/-- Seventy tickets behind the two records of the handshake: there is no blob any more, and
the sequence stays at 62. -/
theorem sequence_saturates :
    ((machine sampleKdf).restrict fun F call => F.FeedFits call).Run (opened .client)
      (ticketed 70) (sampleFlow .client (ticketed 70)) ∧
    (sampleFlow .client (ticketed 70)).x.done = true ∧
    (∀ i, (sampleFlow .client (ticketed 70)).x.rekeyed i = false) ∧
    (sampleFlow .client (ticketed 70)).since .rx = 70 ∧
    ktlsRecordSequence .zero (sampleFlow .client (ticketed 70)).x .rx = 62 ∧
    (ktlsCryptoInfo .zero (sampleFlow .client (ticketed 70)).x .rx).1 =
      .error "too many records before the handover to count the sequence" :=
  ⟨Machine.Run.of_check (by decide +kernel), by decide +kernel, by decide +kernel,
    by decide +kernel, by decide +kernel, by decide +kernel⟩

end Flow

end Ktls
