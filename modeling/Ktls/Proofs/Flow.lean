import Ktls.Proofs.Release
import Ktls.Spec.Flow

/-! The counters of an exchange against its two BIOs. Lengths become an `int` on their way
to `BIO_write` and `BIO_read`; the counters go on with what they were. -/

namespace Ktls

variable {K : Kdf} {x : KtlsExchange} {s : Ssl} {np : NullPending}

namespace Flow

variable {F : Flow}

/-- What holds in every run of the send side. -/
structure Sent (F : Flow) : Prop where
  live : ∃ s, F.x.ssl = some s
  tx : F.x.tx = parsed F.removed
  boundary : F.x.done = true → F.x.txAtDone = F.boundary .tx

/-- And of the receive side, where every length fitted. -/
structure Received (F : Flow) : Prop where
  live : ∃ s, F.x.ssl = some s
  rx : F.x.rx = parsed F.placed
  fed : F.x.rxFed = F.placed.length
  read : F.read + F.x.unread.length = F.placed.length
  boundary : F.x.done = true → F.x.rxAtDone = F.boundary .rx

theorem Received.rxFed (h : F.Received) : F.x.rxFed - F.x.unread.length = F.read := by
  have := h.read
  have := h.fed
  omega

theorem unread_input (x : KtlsExchange) (s : Ssl) (input : Bytes) (r : KtlsRecords) (n : ℕ) :
    ({ x with ssl := some { s with input := input }, rx := r, rxFed := n } : KtlsExchange).unread =
      input := rfl

theorem owed_ssl (h : x.ssl = some s) : x.owed = s.output := by
  rw [KtlsExchange.owed, h]
  rfl

theorem stepped_done {a : HandshakeAnswer} {fate : DeriveFate} (hx : x.ssl = some s)
    (hd : x.done = false) (h : (ktlsExchangeStep K x a fate).2.done = true) :
    Noted K s a (ktlsExchangeStep K x a fate).2 := by
  obtain ⟨-, ⟨-, -, -, hnoted⟩ | ⟨-, hnot⟩⟩ := ktlsExchangeStep_cases K a fate hx hd
  · exact hnoted
  · rw [hnot] at h
    cases h

theorem seen_idle (F : Flow) (call : Call) : F.seen F.x call = F := by
  cases call with
  | feed bytes written => simp only [seen, List.drop_length, List.append_nil]
  | step a fate =>
    have hcond : ¬ (F.x.done = false ∧ F.x.done = true) := by
      rintro ⟨hd, hd'⟩
      rw [hd] at hd'
      cases hd'
    simp only [seen, Nat.sub_self, Nat.add_zero, if_neg hcond]
  | take cap => simp only [seen, Nat.sub_self, List.take_zero, List.append_nil]
  | backlog a => simp only [seen, Nat.sub_self, Nat.add_zero]
  | ask np dir => rfl
  | nextKey dir fate => rfl
  | release => rfl

/-- The step that ends the handshake notes where each direction stands. -/
theorem boundary_seen {x : KtlsExchange} {a : HandshakeAnswer} {fate : DeriveFate}
    (hd : F.x.done = false) (hd' : x.done = true) :
    (F.seen x (.step a fate)).boundary = boundaryAt x.server F.removed x.owed
      (F.seen x (.step a fate)).read :=
  if_pos ⟨hd, hd'⟩

theorem take_sub_drop (l : Bytes) (n : ℕ) : l.take (l.length - (l.drop n).length) = l.take n := by
  rw [List.length_drop]
  rcases Nat.le_total n l.length with h | h
  · rw [Nat.sub_sub_self h]
  · rw [Nat.sub_eq_zero_of_le h, Nat.sub_zero, List.take_length, List.take_of_length_le h]

theorem Sent.effect (h : F.Sent) {call : Call} (hp : F.permits call) {x : KtlsExchange}
    (he : call.Effect K F.x x) : (F.seen x call).Sent := by
  cases he with
  | idle =>
    rw [seen_idle]
    exact h
  | feed => exact ⟨⟨_, rfl⟩, h.tx, h.boundary⟩
  | @step s a fate hx hd =>
    obtain ⟨hst, -⟩ := ktlsExchangeStep_cases K a fate hx hd
    refine ⟨⟨_, hst.ssl⟩, hst.tx.trans h.tx, fun hd' => ?_⟩
    replace hd' : (ktlsExchangeStep K F.x a fate).2.done = true := hd'
    have hnoted := stepped_done hx hd hd'
    rw [boundary_seen hd hd', boundaryAt]
    change (ktlsExchangeStep K F.x a fate).2.txAtDone = _
    rw [hnoted.txAtDone, hnoted.server, hst.tx, h.tx, offset_parsed, owed_ssl hst.ssl]
  | @take s cap hx =>
    refine ⟨⟨_, rfl⟩, ?_, h.boundary⟩
    simp only [seen]
    rw [owed_ssl hx, h.tx, ktlsScan_parsed, owed_ssl rfl, take_sub_drop]
  | @backlog s a hx hd =>
    obtain ⟨sec, len, hframe⟩ := ktlsExchangeBacklog_frame hx hd a
    rw [hframe]
    exact ⟨⟨_, rfl⟩, h.tx, h.boundary⟩
  | ask => exact ⟨h.live, h.tx, h.boundary⟩
  | @nextKey dir fate =>
    obtain ⟨sec, rek, key, iv, info, hframe, -⟩ := ktlsNextKey_frame K F.x dir fate
    rw [hframe]
    exact ⟨h.live, h.tx, h.boundary⟩
  | release => exact absurd hp.2 id

theorem Sent.after (h : F.Sent) {call : Call} (hp : F.permits call) : (F.after K call).Sent :=
  h.effect hp (call.effect K F.x)

theorem accepted_fits (hx : F.x.ssl = some s) {bytes : Bytes} {written : ℤ}
    (hacc : Accepted s bytes written) (hfit : F.FeedFits (.feed bytes written)) :
    bytes.take (cInt bytes.length).toNat = bytes := by
  rcases hacc with rfl | hacc
  · rfl
  · have hlt : bytes.length < 2 ^ 31 := by
      refine hfit.resolve_right (not_not.mpr ?_)
      rwa [unread_ssl hx]
    rw [cInt_of_lt hlt, Int.toNat_natCast, List.take_length]

theorem unread_suffix {input : Bytes} (h : input <:+ x.unread) (n m : ℕ)
    (hread : n + x.unread.length = m) :
    n + (x.unread.length - input.length) + input.length = m := by
  have := h.length_le
  omega

theorem Received.effect (h : F.Received) {call : Call} (hp : F.permits call)
    (hfit : F.FeedFits call) {x : KtlsExchange} (he : call.Effect K F.x x) :
    (F.seen x call).Received := by
  cases he with
  | idle =>
    rw [seen_idle]
    exact h
  | @feed s bytes written hx hacc =>
    have hunread := unread_ssl hx
    have hread := h.read
    rw [hunread] at hread
    rw [accepted_fits hx hacc hfit]
    simp only [seen, unread_input, hunread, List.drop_left]
    refine ⟨⟨_, rfl⟩, ?_, ?_, ?_, h.boundary⟩
    · rw [h.rx, ktlsScan_parsed]
    · rw [h.fed, List.length_append]
    · rw [unread_input, List.length_append, List.length_append, ← hread, Nat.add_assoc]
  | @step s a fate hx hd =>
    obtain ⟨hst, -⟩ := ktlsExchangeStep_cases K a fate hx hd
    have hunread : (ktlsExchangeStep K F.x a fate).2.unread = a.input := unread_ssl hst.ssl
    have hread := unread_suffix hp.1 _ _ h.read
    refine ⟨⟨_, hst.ssl⟩, hst.rx.trans h.rx, hst.rxFed.trans h.fed, ?_, fun hd' => ?_⟩
    · simp only [seen]
      rwa [hunread]
    · replace hd' : (ktlsExchangeStep K F.x a fate).2.done = true := hd'
      have hnoted := stepped_done hx hd hd'
      rw [boundary_seen hd hd', boundaryAt]
      simp only [seen]
      rw [hnoted.rxAtDone, hst.rxFed, h.fed, hunread]
      omega
  | @take s cap hx =>
    refine ⟨⟨_, rfl⟩, h.rx, h.fed, ?_, h.boundary⟩
    have hread := h.read
    rwa [unread_ssl hx] at hread
  | @backlog s a hx hd =>
    obtain ⟨sec, len, hframe⟩ := ktlsExchangeBacklog_frame hx hd a
    rw [hframe]
    exact ⟨⟨_, rfl⟩, h.rx, h.fed, unread_suffix hp.1 _ _ h.read, h.boundary⟩
  | ask => exact ⟨h.live, h.rx, h.fed, h.read, h.boundary⟩
  | @nextKey dir fate =>
    obtain ⟨sec, rek, key, iv, info, hframe, -⟩ := ktlsNextKey_frame K F.x dir fate
    rw [hframe]
    exact ⟨h.live, h.rx, h.fed, h.read, h.boundary⟩
  | release => exact absurd hp.2 id

theorem Received.after (h : F.Received) {call : Call} (hp : F.permits call)
    (hfit : F.FeedFits call) : (F.after K call).Received :=
  h.effect hp hfit (call.effect K F.x)

theorem sent_opened (role : KtlsRole) : (opened role).Sent :=
  ⟨⟨_, rfl⟩, parsed_nil.symm, fun h => absurd h Bool.false_ne_true⟩

theorem received_opened (role : KtlsRole) : (opened role).Received :=
  ⟨⟨_, rfl⟩, parsed_nil.symm, rfl, rfl, fun h => absurd h Bool.false_ne_true⟩

theorem Sent.accounts (h : F.Sent) (hr : F.Received) : F.Accounts := by
  have hread := hr.read
  refine ⟨hr.fed, ?_, ?_, ?_, hr.rxFed⟩
  · rw [hr.rx, offset_parsed]
  · rw [h.tx, offset_parsed]
  · rw [hr.fed]
    omega

/-- A feed that is taken as another length than it has puts the counters apart. -/
theorem feed_unaccounted (hr : F.Received) {bytes : Bytes} {written : ℤ}
    (hfit : ¬ F.FeedFits (.feed bytes written)) :
    ¬ (F.after K (.feed bytes written)).Accounts := by
  obtain ⟨s, hx⟩ := hr.live
  have hunread := unread_ssl hx
  obtain ⟨hlong, hacc⟩ := not_or.mp hfit
  rw [not_not, hunread] at hacc
  intro ha
  have hfed := ha.fed
  simp only [Flow.after, seen, Call.after, ktlsExchangeFeed_exact hx, hunread,
    if_pos (show Accepted s bytes written from .inr hacc), unread_input, List.drop_left, hr.fed,
    List.length_append, List.length_take] at hfed
  have hlt := cInt_lt bytes.length
  have h31 : ¬ bytes.length < 2147483648 := by simpa using hlong
  omega

theorem feed_keeps (hr : F.Received) {bytes : Bytes} {written : ℤ}
    (hfit : F.FeedFits (.feed bytes written)) : F.Keeps K (.feed bytes written) := by
  obtain ⟨s, hx⟩ := hr.live
  have hunread := unread_ssl hx
  simp only [Keeps, Flow.after, seen, Call.after, ktlsExchangeFeed_exact hx]
  split_ifs with hacc
  · refine ⟨fun _ => ?_, fun e he => ?_⟩
    · rw [accepted_fits hx hacc hfit, unread_input, hunread, List.drop_left]
    · cases he
  · refine ⟨fun h => ?_, fun _ _ => rfl⟩
    cases h

theorem take_keeps_iff (hs : F.Sent) (cap : ℕ) :
    F.Keeps K (.take cap) ↔ F.TakeFits (.take cap) := by
  obtain ⟨s, hx⟩ := hs.live
  simp only [Keeps, TakeFits, ktlsExchangeTake_eq hx rfl, owed_ssl hx, Except.ok.injEq,
    List.take_eq_nil_iff]
  have hzero : (cInt cap).toNat = 0 ↔ ¬ 0 < cInt cap := by omega
  rw [hzero]
  refine forall_congr' fun _ => ⟨fun h => ?_, ?_⟩
  · by_cases hpos : 0 < cInt cap
    · exact .inl hpos
    · exact .inr (h (.inl hpos))
  · rintro (hpos | hnil) h
    · exact h.resolve_left (not_not.mpr hpos)
    · exact hnil

/-- Only a feed can put the counters apart, and only a feed and a take promise anything. -/
theorem fits_of_kept (hs : F.Sent) (hr : F.Received) {call : Call}
    (ha : (F.after K call).Accounts) (hk : F.Keeps K call) : F.FeedFits call ∧ F.TakeFits call := by
  cases call with
  | feed bytes written =>
    exact ⟨by_contra fun hfit => feed_unaccounted hr hfit ha, trivial⟩
  | take cap => exact ⟨trivial, (take_keeps_iff hs cap).mp hk⟩
  | _ => exact ⟨trivial, trivial⟩

theorem kept_of_fits (hs : F.Sent) (hr : F.Received) {call : Call} (hf : F.FeedFits call)
    (ht : F.TakeFits call) : F.Keeps K call := by
  cases call with
  | feed bytes written => exact feed_keeps hr hf
  | take cap => exact (take_keeps_iff hs cap).mpr ht
  | _ => trivial

/-- In every run whose feeds and takes fit an `int`, the counters are those of the BIOs; and
the next call leaves them so and keeps its promise exactly when it fits too. -/
theorem accounts_iff {role : KtlsRole} {calls : List Call}
    (hrun : ((machine K).restrict fun F call => F.FeedFits call ∧ F.TakeFits call).Run
      (opened role) calls F) :
    F.Accounts ∧ ∀ call, F.permits call →
      ((F.after K call).Accounts ∧ F.Keeps K call ↔ F.FeedFits call ∧ F.TakeFits call) := by
  obtain ⟨hs, hr⟩ : F.Sent ∧ F.Received :=
    hrun.invariant (P := fun F => F.Sent ∧ F.Received)
      (fun _ _ h hp => ⟨h.1.after hp.1, h.2.after hp.1 hp.2.1⟩)
      ⟨sent_opened role, received_opened role⟩
  refine ⟨hs.accounts hr, fun call hp => ⟨fun ⟨ha, hk⟩ => fits_of_kept hs hr ha hk, ?_⟩⟩
  rintro ⟨hf, ht⟩
  exact ⟨(hs.after hp).accounts (hr.after hp hf), kept_of_fits hs hr hf ht⟩

open Session in
/-- A client that has said hello and not sent it yet. -/
def helloOwed : List Call :=
  [.step { rc := -1, error := .wantRead, input := [], output := helloRecord } {}]

def sampleFlow (role : KtlsRole) (calls : List Call) : Flow :=
  calls.foldl (machine sampleKdf).next (opened role)

theorem accounts_sample :
    (sampleFlow .client (helloOwed ++ [.take 50, .take 1000, .feed [22, 3, 3] 3])).Accounts := by
  have hrun : ((machine sampleKdf).restrict fun F call => F.FeedFits call ∧ F.TakeFits call).Run
      (opened .client) (helloOwed ++ [.take 50, .take 1000, .feed [22, 3, 3] 3])
      (sampleFlow .client (helloOwed ++ [.take 50, .take 1000, .feed [22, 3, 3] 3])) :=
    Machine.Run.of_check (by decide +kernel)
  exact (accounts_iff hrun).1

/-- A feed of 2^32 bytes asks `BIO_write` for none of them. -/
theorem feed_wrapped {bytes : Bytes} (hlen : bytes.length = 2 ^ 32) :
    (ktlsExchangeFeed (opened .client).x bytes 0).1 = .ok () ∧
    ((opened .client).after K (.feed bytes 0)).x.rxFed = 2 ^ 32 ∧
    ((opened .client).after K (.feed bytes 0)).placed = [] := by
  have hzero : cInt bytes.length = 0 := by
    rw [hlen]
    decide +kernel
  have hacc : Accepted { server := false } bytes 0 := .inr (by rw [hzero]; rfl)
  have hssl : (opened .client).x.ssl = some { server := false } := rfl
  have hfeed := ktlsExchangeFeed_exact hssl bytes 0
  rw [if_pos hacc, hzero] at hfeed
  simp only [Flow.after, Call.after, hfeed, hlen]
  exact ⟨trivial, Nat.zero_add _, rfl⟩

/-- A take of 2^31 bytes comes back empty while the hello is owed, and a feed of 2^32 bytes
succeeds, and is counted, with nothing delivered. -/
theorem accounts_lost :
    (sampleFlow .client helloOwed).permits (.take (2 ^ 31)) ∧
    (ktlsExchangeTake (sampleFlow .client helloOwed).x (2 ^ 31)).1 = .ok [] ∧
    (sampleFlow .client helloOwed).x.owed ≠ [] ∧
    (ktlsExchangeFeed (opened .client).x (List.replicate (2 ^ 32) 0) 0).1 = .ok () ∧
    ((opened .client).after sampleKdf (.feed (List.replicate (2 ^ 32) 0) 0)).x.rxFed = 2 ^ 32 ∧
    ((opened .client).after sampleKdf (.feed (List.replicate (2 ^ 32) 0) 0)).placed = [] :=
  ⟨by decide +kernel, by decide +kernel, by decide +kernel, feed_wrapped List.length_replicate⟩

end Flow

end Ktls
