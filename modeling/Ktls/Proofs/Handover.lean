import Ktls.Proofs.Sequence

/-! What the kernel is told at the handover, over every run of one exchange. -/

namespace Ktls

namespace Session

/-- Either side of the sample connection. -/
def sampleTls (server : Bool) : Tls where
  server := server
  secret := sampleSecret
  secret_fits := by decide
  random := List.replicate 64 97
  random_no_space := by decide
  suite := ascii "TLS_AES_128_GCM_SHA256"

def sampleRun (server : Bool) (ops : List Op) : Session :=
  ops.foldl (after sampleKdf) (opened (sampleTls server))

theorem sampleRun_concat (server : Bool) (ops : List Op) (op : Op) :
    sampleRun server (ops ++ [op]) = (sampleRun server ops).after sampleKdf op := by
  rw [sampleRun, List.foldl_append]
  rfl

theorem sampleRun_run {server : Bool} {ops : List Op}
    (h : (machine sampleKdf (sampleTls server)).check (opened (sampleTls server)) ops = true) :
    (machine sampleKdf (sampleTls server)).Run (opened (sampleTls server)) ops
      (sampleRun server ops) := Machine.Run.of_check h

/-- A hello, which is not protected yet. -/
def helloRecord : Bytes := 22 :: 3 :: 3 :: 0 :: 90 :: List.replicate 90 0

/-- A protected record with a body of `n` bytes. -/
def sealedRecord (n : ℕ) : Bytes := 23 :: 3 :: 3 :: 0 :: UInt8.ofNat n :: List.replicate n 0

/-- The last answer of `SSL_do_handshake`, with everything that arrived read. -/
def sampleDone (server : Bool) (output : Bytes) : HandshakeAnswer where
  rc := 1
  input := []
  output := output
  keylog := [(sampleTls server).line 0, (sampleTls server).line 1]
  suite := some (sampleTls server).suite

/-- `SSL_read` that has read all there was and wants more. -/
def wantsMore : ReadAnswer where
  plain := []
  error := .wantRead
  input := []
  output := []

/-- The client up to its handover. -/
def sampleClient : List Op :=
  [.feed (helloRecord ++ sealedRecord 53) 153,
   .step (sampleDone false (sealedRecord 53)) {} [.handshake, .finished]
     [⟨.finished, sealedRecord 53⟩],
   .take 100]

variable {K : Kdf} {T : Tls} {S S₁ S' : Session} {np : NullPending}

theorem between_records (b : Bytes) :
    (parsed b).headLen = 0 ∧ (parsed b).bodyLeft = 0 ↔ tlsRecord.rest b = [] := by
  rcases unfinished_parsed b with ⟨h5, hbody, hhead, -⟩ | ⟨h5, hhead, -, hbody, -⟩
  · rw [hhead, hbody, List.length_eq_zero_iff]
    exact and_iff_left rfl
  · refine ⟨?_, ?_⟩
    · rintro ⟨-, h0⟩
      omega
    · intro hr
      rw [hr] at h5
      exact absurd h5 (by decide)

theorem unread_run {ops : List Op} (hrun : (machine K T).Run S ops S') (h : S.Inv K T)
    (hd : S.x.done = true) (hops : ∀ op ∈ ops, op.Outward) : S'.unread = S.unread := by
  induction hrun with
  | nil => rfl
  | @cons S op ops S' hp _ ih =>
    have hout := hops op (by simp)
    have hfit : op.Fits := hout.fits
    obtain ⟨hd', -, hu⟩ := h.done_after hd hp hfit
    rw [ih (h.after hp hfit) hd' fun op hop => hops op (by simp [hop])]
    exact hu hout

/-- Nothing that was fed is lost to the kernel: every byte is part of a whole record,
the SSL has taken all of them in, and `seq` counts the ones behind the Finished. -/
def Settled (S : Session) (seq : ℕ) : Prop :=
  tlsRecord.rest S.fed = [] ∧ S.inbox.length = (tlsRecord.frames S.fed).length ∧
    seq + flight S.inbox = (tlsRecord.frames S.fed).length

theorem Accounts.pendingIn (h : S.Accounts T) (np : NullPending) :
    pendingIn np S.x = S.unread.length := by
  rw [Ktls.pendingIn, h.ssl]

/-- The SSL has opened every whole record only if nothing is left in its BIO. -/
theorem Accounts.drained_iff (h : S.Accounts T) (hrest : tlsRecord.rest S.arrived = []) :
    S.inbox.length = (tlsRecord.frames S.arrived).length ↔ S.unread = [] := by
  have hread := h.unread_length
  rw [← h.opened, ← List.length_eq_zero_iff]
  refine ⟨?_, ?_⟩
  · intro hlen
    have hall : (tlsRecord.frames S.arrived).flatten = S.arrived := by
      have hflat := tlsRecord.flatten_frames S.arrived
      rwa [hrest, List.append_nil] at hflat
    have hle := tlsRecord.length_le_of_frames_take (tlsRecord.frames S.arrived) S.read
      (tlsRecord.isFrame_of_mem _) (by rw [hall, hlen])
    rw [hall] at hle
    omega
  · intro hu
    rw [List.take_of_length_le (by omega)]

/-- After the last backlog of a done exchange, a blob leaves no byte behind exactly
when nothing is pending and the scanner stands between two records. A backlog that
wanted to read leaves nothing pending. -/
theorem handover_settled_iff {es ops : List Op} {cap : ℕ} {a : ReadAnswer}
    {got : List RecordKind} {wrote : List Wrote} {b : Bytes}
    (hrun : (machine K T).Run (opened T) es S) (hd : S.x.done = true)
    (hread : S.SslRead cap a got wrote)
    (hrest : (machine K T).Run (S.after K (.backlog cap a got wrote)) ops S')
    (hops : ∀ op ∈ ops, op.Outward) (hb : (ktlsCryptoInfo np S'.x .rx).1 = .ok b) :
    (S'.Settled (recSeqOf b) ↔
      pendingIn np S'.x = 0 ∧ S'.x.rx.headLen = 0 ∧ S'.x.rx.bodyLeft = 0) ∧
    (a.error = .wantRead → pendingIn np S'.x = 0) := by
  have hov : S'.x.rx.overflowed = false := (ktlsCryptoInfo_ok.mp hb).2.2.2.1
  have hall : (machine K T).Run S (.backlog cap a got wrote :: ops) S' :=
    .cons (fun _ => hread) hrest
  have hi := Inv.reachable hrun (overflowed_run hall hov)
  have hback : S.after K (.backlog cap a got wrote) = S.drain a.input a.output got wrote :=
    after_backlog hi.accounts hd hread.keylog
  have hi₁ : (S.after K (.backlog cap a got wrote)).Inv K T := hi.after (fun _ => hread) trivial
  have hd₁ : (S.after K (.backlog cap a got wrote)).x.done = true := by rw [hback]; exact hd
  have hi' := hi₁.run hrest hov
  obtain ⟨hd', -, -, hrx, rfl⟩ := hi'.cryptoInfo_ok.mp hb
  have hseq := hi'.rx_sequence hd' hrx np
  have hlen := length_behindFinished (hi'.kinds.done hd')
  rw [hi'.accounts.pendingIn, Int.natCast_eq_zero, List.length_eq_zero_iff]
  refine ⟨?_, ?_⟩
  · rw [hi'.recSeqOf_blob, Settled, hi'.accounts.fed, hi'.accounts.rx, between_records, hseq, hlen]
    refine ⟨?_, ?_⟩
    · rintro ⟨hr, hall, -⟩
      exact ⟨(hi'.accounts.drained_iff hr).mp hall, hr⟩
    · rintro ⟨hu, hr⟩
      have hall := (hi'.accounts.drained_iff hr).mpr hu
      exact ⟨hr, hall, hall⟩
  · intro hwant
    have hssl : (S.after K (.backlog cap a got wrote)).x.ssl =
        some ⟨T.server, a.input, a.output⟩ := by
      rw [hback]
      simp only [drain, hi.accounts.ssl, Option.map_some]
    rw [unread_run hrest hi₁ hd₁ hops, unread_eq hssl]
    exact hread.wants hwant

/-- The client, then one record of `n` body bytes that the SSL finds to be `k`. -/
def sampleReads (n : ℕ) (k : RecordKind) : List Op :=
  sampleClient ++ [.feed (sealedRecord n) (5 + n), .backlog 100 wantsMore [k] []]

/-- A record header cut after two bytes: the SSL has taken both out of its BIO, so a
backlog finds nothing, and there is a blob all the same. -/
def midRecord : List Op := sampleClient ++ [.feed [23, 3] 2, .backlog 100 wantsMore [] []]

theorem handover_midrecord :
    (machine sampleKdf (sampleTls false)).Run (opened (sampleTls false)) midRecord
      (sampleRun false midRecord) ∧
    (ktlsExchangeBacklog (sampleRun false (sampleClient ++ [.feed [23, 3] 2])).x wantsMore).1 =
      .ok [] ∧
    (ktlsCryptoInfo .zero (sampleRun false midRecord).x .rx).1 =
      .ok (blob sampleKdf ktlsAesGcm128 (sampleSecret 1) 0) ∧
    ¬ (sampleRun false midRecord).Settled
      (recSeqOf (blob sampleKdf ktlsAesGcm128 (sampleSecret 1) 0)) := by
  refine ⟨sampleRun_run (by decide +kernel), by decide +kernel,
    by decide +kernel, ?_⟩
  intro h
  exact absurd h.1 (by decide +kernel)

/-- A ticket that arrives whole leaves nothing behind. -/
theorem handover_settled_whole :
    (sampleRun false (sampleReads 40 .ticket)).Settled
      (recSeqOf (blob sampleKdf ktlsAesGcm128 (sampleSecret 1) 1)) := by
  have hrest : (machine sampleKdf (sampleTls false)).Run
      ((sampleRun false (sampleClient ++ [.feed (sealedRecord 40) 45])).after sampleKdf
        (.backlog 100 wantsMore [.ticket] [])) []
      (sampleRun false (sampleReads 40 .ticket)) := by
    rw [← sampleRun_concat]
    exact .nil _
  have hblob : (ktlsCryptoInfo .zero (sampleRun false (sampleReads 40 .ticket)).x .rx).1 =
      .ok (blob sampleKdf ktlsAesGcm128 (sampleSecret 1) 1) := by decide +kernel
  have h := handover_settled_iff (sampleRun_run (by decide +kernel)) (by decide +kernel)
    (by decide +kernel) hrest (by simp) hblob
  exact h.1.mpr ⟨h.2 rfl, by decide +kernel, by decide +kernel⟩

/-- Behind the Finished a direction carries nothing that moves its key. -/
def PlainBehind (dir : KtlsDirection) (S : Session) : Prop :=
  S.Complete → ∀ k ∈ behindFinished (S.carried dir), k.Plain

/-- Behind the Finished a KeyUpdate is written only where one that asks for it came in. -/
def Answers (S : Session) : Prop :=
  S.Complete → ∀ asks, .keyUpdate asks ∈ behindFinished S.outKinds →
    .keyUpdate true ∈ behindFinished S.inbox

/-- Behind the Finished nothing asks for a KeyUpdate. -/
def Unasked (S : Session) : Prop := S.Complete → .keyUpdate true ∉ behindFinished S.inbox

theorem Unasked.plain (hun : S.Unasked) (ha : S.Answers) (h : S.Inv K T) :
    S.PlainBehind .tx := by
  intro hc k hk
  obtain ⟨hhs, hfin, hbad⟩ := h.kinds.outbox_behind hc k hk
  cases k with
  | handshake => exact absurd rfl hhs
  | finished => exact absurd rfl hfin
  | bad => exact absurd rfl hbad
  | keyUpdate asks => exact absurd (ha hc asks hk) (hun hc)
  | ticket | data | alert => trivial

/-- The handshake itself ends on nothing but tickets and data. -/
theorem Completes.plain {a : HandshakeAnswer} {got : List RecordKind} {wrote : List Wrote}
    (h : S.Completes T a got wrote) :
    ∀ k ∈ behindFinished (S.outKinds ++ wrote.map Wrote.kind), k.Plain := by
  cases hside : T.server with
  | false =>
    rw [(h.client hside).behind]
    exact fun k hk => absurd hk List.not_mem_nil
  | true =>
    obtain ⟨hends, hkinds⟩ := h.server hside
    rw [behindFinished_append hends.mem, hends.behind, List.nil_append]
    intro k hk
    obtain ⟨r, hr, rfl⟩ := List.mem_map.mp hk
    rcases hkinds r hr with h | h <;> rw [h] <;> trivial

theorem Answers.after (ha : S.Answers) (h : S.Inv K T) {op : Op} (hp : S.permits T op)
    (hfit : op.Fits) : (S.after K op).Answers := by
  intro hc' asks hk
  rcases h.kinds_after (K := K) hp hfit with ⟨hin, hout⟩ |
    ⟨cap, a, got, wrote, rfl, hd, hin, hout⟩ | hn | ⟨a, fate, got, wrote, rfl, hd, hcomp, hout, -⟩
  · rw [Complete, hin] at hc'
    rw [outKinds_same hout] at hk
    rw [hin]
    exact ha hc' asks hk
  · have hc := h.kinds.done hd
    rw [S.outKinds_append hout, behindFinished_append (h.kinds.outbox hc)] at hk
    rw [hin, behindFinished_append hc]
    rcases List.mem_append.mp hk with hk | hk
    · exact List.mem_append_left _ (ha hc asks hk)
    · exact (hp hd).asked asks hk
  · exact absurd hc' hn
  · rw [S.outKinds_append hout] at hk
    exact (hcomp.plain _ hk).elim

theorem PlainBehind.after (hpl : S.PlainBehind .rx) (h : S.Inv K T) {op : Op}
    (hp : S.permits T op) (hfit : op.Fits) (hq : op.Quiet .rx) :
    (S.after K op).PlainBehind .rx := by
  intro hc'
  rw [carried]
  rcases h.kinds_after (K := K) hp hfit with ⟨hin, -⟩ | ⟨cap, a, got, wrote, rfl, hd, hin, -⟩ |
    hn | ⟨a, fate, got, wrote, rfl, hd, -, -, hfresh⟩
  · rw [Complete, hin] at hc'
    rw [hin]
    exact hpl hc'
  · have hc := h.kinds.done hd
    rw [hin, behindFinished_append hc]
    intro k hk
    rcases List.mem_append.mp hk with hk | hk
    · exact hpl hc k hk
    · exact hq k hk
  · exact absurd hc' hn
  · rw [hfresh.inbox]
    exact fun k hk => absurd hk List.not_mem_nil

theorem Unasked.after (hun : S.Unasked) (h : S.Inv K T) {op : Op} (hp : S.permits T op)
    (hfit : op.Fits) (hq : op.Quiet .tx) : (S.after K op).Unasked := by
  intro hc'
  rcases h.kinds_after (K := K) hp hfit with ⟨hin, -⟩ | ⟨cap, a, got, wrote, rfl, hd, hin, -⟩ |
    hn | ⟨a, fate, got, wrote, rfl, hd, -, -, hfresh⟩
  · rw [Complete, hin] at hc'
    rw [hin]
    exact hun hc'
  · have hc := h.kinds.done hd
    rw [hin, behindFinished_append hc]
    exact List.mem_append.not.mpr (not_or.mpr ⟨hun hc, hq⟩)
  · exact absurd hc' hn
  · rw [hfresh.inbox]
    exact List.not_mem_nil

theorem following_reachable {dir : KtlsDirection} {es : List Op}
    (hrun : (following K T dir).Run (opened T) es S) (hov : S.x.rx.overflowed = false) :
    S.Inv K T ∧ (dir = .tx → S.Exact) ∧ S.PlainBehind dir := by
  have hnot : ¬ S.x.rx.overflowed = true := by rw [hov]; decide
  cases dir with
  | tx =>
    have hinv := invariant_or_overflowed rfl
      (P := fun S => S.Inv K T ∧ S.Exact ∧ S.Answers ∧ S.Unasked)
      (fun _ hi => hi.1.accounts) ?_ hrun
      ⟨inv_opened K T, exact_opened T, fun hc => absurd hc List.not_mem_nil,
        fun hc => absurd hc List.not_mem_nil⟩
    · obtain ⟨hi, hex, ha, hun⟩ := hinv.resolve_right hnot
      exact ⟨hi, fun _ => hex, hun.plain ha hi⟩
    · rintro S op ⟨hi, hex, ha, hun⟩ ⟨hp, hq, hprompt⟩ hfit
      exact ⟨hi.after hp hfit, hex.after hi hp hfit (hprompt rfl), ha.after hi hp hfit,
        hun.after hi hp hfit hq⟩
  | rx =>
    have hinv := invariant_or_overflowed rfl
      (P := fun S => S.Inv K T ∧ S.PlainBehind .rx)
      (fun _ hi => hi.1.accounts) ?_ hrun
      ⟨inv_opened K T, fun hc => absurd hc List.not_mem_nil⟩
    · obtain ⟨hi, hpl⟩ := hinv.resolve_right hnot
      exact ⟨hi, fun htx => absurd htx (by decide), hpl⟩
    · rintro S op ⟨hi, hpl⟩ ⟨hp, hq, -⟩ hfit
      exact ⟨hi.after hp hfit, hpl.after hi hp hfit hq⟩

theorem PlainBehind.standing {dir : KtlsDirection} (hpl : S.PlainBehind dir) (h : S.Inv K T)
    (hd : S.x.done = true) :
    standing (S.carried dir) = { sequence := (behindFinished (S.carried dir)).length } := by
  have hc := h.kinds.done hd
  have hfin : .finished ∈ S.carried dir := by
    cases dir with
    | tx => exact h.kinds.outbox hc
    | rx => exact hc
  rw [standing_behind hfin, foldl_advance_plain _ (hpl hc), Nat.zero_add]

/-- In a run that moves no key, every blob is the one for the key and the record at
which the SSL stands. -/
theorem handover_follows_ssl {dir : KtlsDirection} {es : List Op} {b : Bytes}
    (hrun : (following K T dir).Run (opened T) es S)
    (hb : (ktlsCryptoInfo np S.x dir).1 = .ok b) :
    b = blob K (ktlsNegotiatedCipher (some T.suite))
      (secretAfter K (T.secret (whichOf T.server dir)) (standing (S.carried dir)).generation)
      (standing (S.carried dir)).sequence := by
  have hov : S.x.rx.overflowed = false := (ktlsCryptoInfo_ok.mp hb).2.2.2.1
  obtain ⟨hi, hex, hpl⟩ := following_reachable hrun hov
  obtain ⟨hd, howed, htx, hrx, rfl⟩ := hi.cryptoInfo_ok.mp hb
  have hseq : sequenceOf np S.x dir = (behindFinished (S.carried dir)).length := by
    cases dir with
    | rx => exact hi.rx_sequence hd hrx np
    | tx =>
      have hcount := hi.tx_sequence hd htx howed np
      have hlen := length_behindFinished (h := hi.kinds.outbox (hi.kinds.done hd))
      rw [hex rfl hd] at hcount
      rw [carried]
      omega
  rw [hpl.standing hi hd, hseq, (hi.notes hd).cipher]
  rfl

/-- A KeyUpdate moves the SSL to the next secret and record 0; the blob still has the
first secret and record 1. -/
theorem handover_misses_keyUpdate :
    (machine sampleKdf (sampleTls false)).Run (opened (sampleTls false))
      (sampleReads 22 (.keyUpdate false)) (sampleRun false (sampleReads 22 (.keyUpdate false))) ∧
    (ktlsCryptoInfo .zero (sampleRun false (sampleReads 22 (.keyUpdate false))).x .rx).1 =
      .ok (blob sampleKdf ktlsAesGcm128 (sampleSecret 1) 1) ∧
    standing (sampleRun false (sampleReads 22 (.keyUpdate false))).inbox = ⟨1, 0⟩ ∧
    blob sampleKdf ktlsAesGcm128 (sampleSecret 1) 1 ≠
      blob sampleKdf ktlsAesGcm128 (secretAfter sampleKdf (sampleSecret 1) 1) 0 := by
  exact ⟨sampleRun_run (by decide +kernel), by decide +kernel, by decide +kernel,
    by decide +kernel⟩

theorem handover_follows_ticket :
    blob sampleKdf ktlsAesGcm128 (sampleSecret 1) 1 =
      blob sampleKdf (ktlsNegotiatedCipher (some (sampleTls false).suite))
        (secretAfter sampleKdf (sampleSecret 1)
          (standing (sampleRun false (sampleReads 40 .ticket)).inbox).generation)
        (standing (sampleRun false (sampleReads 40 .ticket)).inbox).sequence := by
  have hrun : (following sampleKdf (sampleTls false) .rx).Run (opened (sampleTls false))
      (sampleReads 40 .ticket) (sampleRun false (sampleReads 40 .ticket)) :=
    Machine.Run.of_check (by decide +kernel)
  have hblob : (ktlsCryptoInfo .zero (sampleRun false (sampleReads 40 .ticket)).x .rx).1 =
      .ok (blob sampleKdf ktlsAesGcm128 (sampleSecret 1) 1) := by decide +kernel
  have h := handover_follows_ssl hrun hblob
  exact h

/-- What was read stays read, so a refused record stays in the count of what stands behind the
Finished. -/
theorem refused_counted {ops : List Op} {cap : ℕ} {a : ReadAnswer}
    {pre post : List RecordKind} {wrote : List Wrote}
    (hi : S.Inv K T) (hd : S.x.done = true)
    (hread : S.SslRead cap a (pre ++ .bad :: post) wrote)
    (hrest : (machine K T).Run (S.after K (.backlog cap a (pre ++ .bad :: post) wrote)) ops S') :
    (behindFinished (S.inbox ++ pre)).length < (behindFinished S'.inbox).length := by
  have hc := hi.kinds.done hd
  have hback : S.after K (.backlog cap a (pre ++ .bad :: post) wrote) =
      S.drain a.input a.output (pre ++ .bad :: post) wrote :=
    after_backlog hi.accounts hd hread.keylog
  have hgrows := hrest.invariant (P := (S.after K (.backlog cap a _ wrote)).Grows)
    (fun s op hg _ => hg.trans (s.grows_after op)) (Grows.refl _)
  have hin : S.inbox ++ (pre ++ .bad :: post) <+: S'.inbox := by
    have hinbox := hgrows.inbox
    rw [hback] at hinbox
    exact hinbox
  obtain ⟨t, ht⟩ := hin
  rw [← ht, List.append_assoc, behindFinished_append hc, behindFinished_append hc]
  simp only [List.length_append, List.length_cons]
  omega

theorem Inv.wire_le (h : S.Inv K T) : S.wire.length ≤ 65540 * S.outbox.length := by
  have hwhole : ∀ f ∈ S.outbox.map Wrote.bytes, tlsRecord.IsFrame f := by
    intro f hf
    obtain ⟨r, hr, rfl⟩ := List.mem_map.mp hf
    exact h.accounts.whole r hr
  have hle := length_records_le hwhole
  rwa [List.length_map] at hle

/-- With nothing owed, the send table has overflowed if too many records were written. -/
theorem Accounts.tx_overflowed (h : S.Accounts T) (howed : S.owed = []) :
    S.x.tx.overflowed = true ↔ 64 < S.outbox.length := by
  have hwire : S.taken = S.wire := by rw [h.wire, howed, List.append_nil]
  rw [h.tx, hwire, overflowed_parsed, h.frames_wire, List.length_map]

theorem Inv.take_all (h : S.Inv K T) (hfew : S.outbox.length ≤ 64) :
    ∃ cap, 0 < cap ∧ (S.after K (.take cap)).owed = [] ∧
      (S.after K (.take cap)).x.rx = S.x.rx := by
  have hcap : (cInt (2 ^ 23)).toNat = 2 ^ 23 := by decide
  refine ⟨2 ^ 23, by norm_num, ?_⟩
  rw [after_take h.accounts hcap]
  refine ⟨?_, rfl⟩
  have hssl : (S.ship (2 ^ 23)).x.ssl = some ⟨T.server, S.unread, S.owed.drop (2 ^ 23)⟩ := by
    simp only [Session.ship, h.accounts.ssl, Option.map_some]
  rw [owed_eq hssl, List.drop_eq_nil_iff]
  have hle := h.wire_le
  rw [h.accounts.wire, List.length_append] at hle
  omega

/-- The receive side can be handed over with more than `n` records counted. -/
def Counts (np : NullPending) (S : Session) (n : ℕ) : Prop :=
  ∃ b, (ktlsCryptoInfo np S.x .rx).1 = .ok b ∧ n < recSeqOf b

theorem Inv.counts_iff (h : S.Inv K T) (hd : S.x.done = true) {n : ℕ}
    (hn : n < (behindFinished S.inbox).length) :
    S.Counts np n ↔ S.owed = [] ∧ S.x.tx.overflowed = false ∧ S.x.rx.overflowed = false := by
  constructor
  · rintro ⟨b, hb, -⟩
    obtain ⟨-, howed, htx, hrx, -⟩ := h.cryptoInfo_ok.mp hb
    exact ⟨howed, htx, hrx⟩
  · rintro ⟨howed, htx, hrx⟩
    refine ⟨_, h.cryptoInfo_ok.mpr ⟨hd, howed, htx, hrx, rfl⟩, ?_⟩
    rw [h.recSeqOf_blob, h.rx_sequence hd hrx]
    exact hn

/-- Behind a record the SSL refused, the receive side hands out a blob that counts the
record, unless something is still owed or a table overflowed. The alert the SSL answers with
is owed at first; takes and backlogs come to such a blob all the same, unless more than 64
records were written by then, or received. -/
theorem forged_uncounted_iff {es : List Op} {cap : ℕ} {a : ReadAnswer}
    {pre post : List RecordKind} {wrote : List Wrote}
    (hrun : (machine K T).Run (opened T) es S) (hd : S.x.done = true)
    (hread : S.SslRead cap a (pre ++ .bad :: post) wrote)
    (hafter : S₁ = S.after K (.backlog cap a (pre ++ .bad :: post) wrote)) :
    (∀ ops S', (machine K T).Run S₁ ops S' →
      (¬ S'.Counts np (behindFinished (S.inbox ++ pre)).length ↔
        S'.owed ≠ [] ∨ S'.x.tx.overflowed = true ∨ S'.x.rx.overflowed = true)) ∧
    ((∀ ops S', (∀ op ∈ ops, op.Fetches) → (machine K T).Run S₁ ops S' →
      ¬ S'.Counts np (behindFinished (S.inbox ++ pre)).length) ↔
        64 < S₁.outbox.length ∨ S₁.x.rx.overflowed = true) := by
  have behind {ops : List Op} {S' : Session} (hrest : (machine K T).Run S₁ ops S') :
      (machine K T).Run S (.backlog cap a (pre ++ .bad :: post) wrote :: ops) S' := by
    subst hafter
    exact .cons (fun _ => hread) hrest
  have hinv {ops : List Op} {S' : Session} (hrest : (machine K T).Run S₁ ops S')
      (hov : S'.x.rx.overflowed = false) : S'.Inv K T :=
    (Inv.reachable hrun (overflowed_run (behind hrest) hov)).run (behind hrest) hov
  have uncounted {ops : List Op} {S' : Session} (hrest : (machine K T).Run S₁ ops S') :
      ¬ S'.Counts np (behindFinished (S.inbox ++ pre)).length ↔
        S'.owed ≠ [] ∨ S'.x.tx.overflowed = true ∨ S'.x.rx.overflowed = true := by
    by_cases hover : S'.x.rx.overflowed = true
    · refine iff_of_true ?_ (.inr (.inr hover))
      rintro ⟨b, hb, -⟩
      exact absurd (hover.symm.trans (ktlsCryptoInfo_ok.mp hb).2.2.2.1) (by decide)
    have hov : S'.x.rx.overflowed = false := Bool.eq_false_iff.mpr hover
    have hi := Inv.reachable hrun (overflowed_run (behind hrest) hov)
    have hd' := (hi.boundary_run hd (behind hrest) hov).1
    rw [(hinv hrest hov).counts_iff hd' (refused_counted hi hd hread (hafter ▸ hrest))]
    simp only [not_and_or, Bool.not_eq_false, ne_eq]
  refine ⟨fun ops S' => uncounted, ?_, ?_⟩
  · intro hnever
    by_contra hopen
    simp only [not_or, not_lt, Bool.not_eq_true] at hopen
    obtain ⟨hfew, hrx⟩ := hopen
    have hi := hinv (.nil S₁) hrx
    obtain ⟨cap', hcap, howed, hsame⟩ := hi.take_all hfew
    have htakes : S₁.permits T (.take cap') := hcap
    have htake : (machine K T).Run S₁ [.take cap'] (S₁.after K (.take cap')) := .single htakes
    have hi' := hi.after (K := K) htakes trivial
    rcases (uncounted htake).mp (hnever _ _ (by simp [Op.Fetches]) htake) with h | h | h
    · exact h howed
    · have hmany := (hi'.accounts.tx_overflowed howed).mp h
      exact absurd hmany (not_lt.mpr hfew)
    · rw [hsame] at h
      exact absurd (hrx.symm.trans h) (by decide)
  · rintro hfull ops S' - hrest hcounts
    have hno := (uncounted hrest).not.mp (not_not.mpr hcounts)
    simp only [not_or, ne_eq, not_not, Bool.not_eq_true] at hno
    obtain ⟨howed, htx, hrx⟩ := hno
    rcases hfull with hmany | hover
    · have hgrows := hrest.invariant (P := S₁.Grows)
        (fun s op hg _ => hg.trans (s.grows_after op)) (Grows.refl _)
      have hfull := ((hinv hrest hrx).accounts.tx_overflowed howed).mpr
        (hmany.trans_le hgrows.outbox.length_le)
      exact absurd (htx.symm.trans hfull) (by decide)
    · exact absurd ((overflowed_run hrest hrx).symm.trans hover) (by decide)

/-- `SSL_read` on a forged record: an alert of 19 bytes, and nothing else. -/
def refuses : ReadAnswer where
  plain := []
  input := []
  output := sealedRecord 19

def refused : List Op :=
  sampleClient ++ [.feed (sealedRecord 40) 45] ++
    [.backlog 100 refuses [.bad] [⟨.alert, sealedRecord 19⟩]]

/-- Once the alert has been taken there is a blob, and it counts the forged record. -/
theorem forged_counted :
    (machine sampleKdf (sampleTls false)).Run (opened (sampleTls false)) (refused ++ [.take 100])
      (sampleRun false (refused ++ [.take 100])) ∧
    behindFinished (sampleRun false refused).inbox = [.bad] ∧
    (ktlsCryptoInfo .zero (sampleRun false (refused ++ [.take 100])).x .rx).1 =
      .ok (blob sampleKdf ktlsAesGcm128 (sampleSecret 1) 1) ∧
    recSeqOf (blob sampleKdf ktlsAesGcm128 (sampleSecret 1) 1) = 1 := by
  refine ⟨sampleRun_run (by decide +kernel), by decide +kernel, by decide +kernel,
    by decide +kernel⟩

theorem forged_uncounted_owed :
    ¬ (sampleRun false refused).Counts .zero (behindFinished [.handshake, .finished]).length := by
  have hafter : sampleRun false refused =
      (sampleRun false (sampleClient ++ [.feed (sealedRecord 40) 45])).after sampleKdf
        (.backlog 100 refuses ([] ++ .bad :: []) [⟨.alert, sealedRecord 19⟩]) :=
    sampleRun_concat ..
  have hrun : (machine sampleKdf (sampleTls false)).Run (opened (sampleTls false))
      (sampleClient ++ [.feed (sealedRecord 40) 45])
      (sampleRun false (sampleClient ++ [.feed (sealedRecord 40) 45])) :=
    sampleRun_run (by decide +kernel)
  have hin : (sampleRun false (sampleClient ++ [.feed (sealedRecord 40) 45])).inbox ++ [] =
      [.handshake, .finished] := by decide +kernel
  rw [← hin]
  exact ((forged_uncounted_iff hrun (by decide +kernel) (by decide +kernel) hafter).1 [] _
    (.nil _)).mpr (.inl (by decide +kernel))

end Session

end Ktls
