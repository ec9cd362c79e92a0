import Ktls.Proofs.Handover

/-! A step that fails to derive the keys and is called again. -/

namespace Ktls

namespace Session

variable {K : Kdf} {T : Tls} {S S' : Session} {np : NullPending}

/-- A handshake that is over can only be found over again. -/
theorem Handshake.again_of_complete {a : HandshakeAnswer} {got : List RecordKind}
    {wrote : List Wrote} (hp : S.Handshake T a got wrote) (hc : S.Complete) :
    S.Again T a got wrote := by
  cases hp with
  | waits h => exact absurd hc h.fresh
  | completes h => exact absurd hc h.fresh
  | again h => exact h

/-- A step that answers on a handshake that is over has ended the exchange. -/
theorem Inv.done_of_ok (h : S.Inv K T) (hd : S.x.done = false) {a : HandshakeAnswer}
    {fate : DeriveFate} (hrc : a.rc = 1) {r : KtlsStep}
    (hok : (ktlsExchangeStep K S.x a fate).1 = .ok r) :
    (ktlsExchangeStep K S.x a fate).2.done = true := by
  obtain ⟨-, ⟨-, -, hdone, -⟩ | ⟨hno, -⟩⟩ := ktlsExchangeStep_cases K a fate h.accounts.ssl hd
  · exact hdone
  · exact absurd ⟨hrc, r, hok⟩ hno

/-- The handshake was over, the exchange was not, and a later step succeeds. From then
on both blobs count every record behind the Finished exactly when, on a server, the
records taken whole before that step are the ones up to its Finished. -/
theorem retried_step_exact_iff {es ops : List Op} {a : HandshakeAnswer} {fate : DeriveFate}
    {got : List RecordKind} {wrote : List Wrote} {r : KtlsStep} {bt br : Bytes}
    (hrun : (machine K T).Run (opened T) es S) (hc : S.Complete) (hd : S.x.done = false)
    (hp : S.permits T (.step a fate got wrote)) (hok : (ktlsExchangeStep K S.x a fate).1 = .ok r)
    (hrest : (machine K T).Run (S.after K (.step a fate got wrote)) ops S')
    (hbt : (ktlsCryptoInfo np S'.x .tx).1 = .ok bt)
    (hbr : (ktlsCryptoInfo np S'.x .rx).1 = .ok br) :
    (recSeqOf bt = (behindFinished S'.outKinds).length ∧
      recSeqOf br = (behindFinished S'.inbox).length) ↔
    (T.server = true → (tlsRecord.frames S.taken).length = flight S.outKinds) := by
  have hov : S'.x.rx.overflowed = false := (ktlsCryptoInfo_ok.mp hbr).2.2.2.1
  have hall : (machine K T).Run S (.step a fate got wrote :: ops) S' := .cons hp hrest
  have hi := Inv.reachable hrun (overflowed_run hall hov)
  have hagain := (hp hd).again_of_complete hc
  have hi₁ := hi.after (K := K) hp trivial
  have hd₁ : (S.after K (.step a fate got wrote)).x.done = true := by
    rw [after_step hd]
    exact hi.done_of_ok hd hagain.rc hok
  have hi' := hi₁.run hrest hov
  obtain ⟨hd', hb, hf⟩ := hi₁.boundary_run hd₁ hrest hov
  obtain ⟨-, howed, htx, hrx, rfl⟩ := hi'.cryptoInfo_ok.mp hbt
  obtain ⟨-, -, -, -, rfl⟩ := hi'.cryptoInfo_ok.mp hbr
  have hrxseq := hi'.rx_sequence hd' hrx np
  have htxseq := hi'.tx_sequence hd' htx howed np
  have hlen := length_behindFinished (hi'.kinds.outbox (hi'.kinds.done hd'))
  have hflight := (S.grows_after (K := K) (.step a fate got wrote)).flight_outKinds
    (hi.kinds.outbox hc)
  rw [hi'.recSeqOf_blob, hi'.recSeqOf_blob, hrxseq, and_iff_left rfl]
  -- the send count is right exactly when the boundary is the end of the flight
  have hiff : sequenceOf np S'.x .tx = (behindFinished S'.outKinds).length ↔
      S'.boundary = flight S'.outKinds := by omega
  rw [hiff, hb, hf, hflight]
  cases hside : T.server with
  | false =>
    rw [boundary, (hi₁.notes hd₁).client hside, hflight]
    simp
  | true =>
    rw [hi.boundary_step hd hp hd₁ hside]
    exact ⟨fun heq _ => heq, fun heq => heq rfl⟩

/-- `SSL_do_handshake` that has written a server's flight and waits for the answer. -/
def serverWaits : HandshakeAnswer where
  rc := -1
  error := .wantRead
  input := []
  output := helloRecord ++ sealedRecord 53

/-- A server whose handshake is over while its first derivation fails. Two tickets of
80 bytes are owed then. -/
def sampleServer : List Op :=
  [.feed helloRecord 95,
   .step serverWaits {} [.handshake] [⟨.handshake, helloRecord⟩, ⟨.finished, sealedRecord 53⟩],
   .take 1000,
   .feed (sealedRecord 53) 58,
   .step (sampleDone true (sealedRecord 80 ++ sealedRecord 80))
     { ours := { key := .noDerive } } [.finished]
     [⟨.ticket, sealedRecord 80⟩, ⟨.ticket, sealedRecord 80⟩]]

/-- The same handshake, asked again once `owed` is what is left. -/
def askedAgain (owed : Bytes) : HandshakeAnswer where
  rc := 1
  input := []
  output := owed
  suite := some (sampleTls true).suite

/-- The tickets are taken before the retry, and the kernel is told to send record 0. -/
def takenFirst : List Op := sampleServer ++ [.take 1000, .step (askedAgain []) {} [] []]

/-- The tickets are taken after the retry. -/
def takenLast : List Op :=
  sampleServer ++ [.step (askedAgain (sealedRecord 80 ++ sealedRecord 80)) {} [] []] ++
    [.take 1000]

theorem retried_step_loses_tickets :
    (machine sampleKdf (sampleTls true)).Run (opened (sampleTls true)) takenFirst
      (sampleRun true takenFirst) ∧
    (ktlsExchangeStep sampleKdf (sampleRun true (sampleServer.take 4)).x
      (sampleDone true (sealedRecord 80 ++ sealedRecord 80))
      { ours := { key := .noDerive } }).1 = .error "EVP_KDF_derive" ∧
    (ktlsCryptoInfo .zero (sampleRun true takenFirst).x .tx).1 =
      .ok (blob sampleKdf ktlsAesGcm128 (sampleSecret 1) 0) ∧
    behindFinished (sampleRun true takenFirst).outKinds = [.ticket, .ticket] := by
  refine ⟨?_, by decide +kernel, by decide +kernel, by decide +kernel⟩
  exact Machine.Run.of_check (by decide +kernel)

theorem retried_step_keeps_tickets :
    recSeqOf (blob sampleKdf ktlsAesGcm128 (sampleSecret 1) 2) =
      (behindFinished (sampleRun true takenLast).outKinds).length ∧
    recSeqOf (blob sampleKdf ktlsAesGcm128 (sampleSecret 0) 0) =
      (behindFinished (sampleRun true takenLast).inbox).length := by
  have hrun : (machine sampleKdf (sampleTls true)).Run (opened (sampleTls true)) sampleServer
      (sampleRun true sampleServer) := Machine.Run.of_check (by decide +kernel)
  have hrest : (machine sampleKdf (sampleTls true)).Run
      ((sampleRun true sampleServer).after sampleKdf
        (.step (askedAgain (sealedRecord 80 ++ sealedRecord 80)) {} [] [])) [.take 1000]
      (sampleRun true takenLast) := by
    rw [takenLast, sampleRun_concat, ← sampleRun_concat]
    exact Machine.Run.single (by decide +kernel)
  have htx : (ktlsCryptoInfo .zero (sampleRun true takenLast).x .tx).1 =
      .ok (blob sampleKdf ktlsAesGcm128 (sampleSecret 1) 2) := by decide +kernel
  have hrx : (ktlsCryptoInfo .zero (sampleRun true takenLast).x .rx).1 =
      .ok (blob sampleKdf ktlsAesGcm128 (sampleSecret 0) 0) := by decide +kernel
  have hok : (ktlsExchangeStep sampleKdf (sampleRun true sampleServer).x
      (askedAgain (sealedRecord 80 ++ sealedRecord 80)) {}).1 = .ok .writing := by
    decide +kernel
  exact (retried_step_exact_iff hrun (by decide +kernel) (by decide +kernel) (by decide +kernel)
    hok hrest htx hrx).mpr (by decide +kernel)

end Session

end Ktls
