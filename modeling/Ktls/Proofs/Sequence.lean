import Ktls.Proofs.Session

/-! From the invariant to the numbers: what a blob says, where the receive sequence
stands, and where the send sequence stands once the boundary is known. -/

namespace Ktls

namespace Session

variable {K : Kdf} {T : Tls} {S S' : Session}

/-- A receive table that overflowed stays so, whatever is called. -/
theorem overflowed_after (h : S.x.rx.overflowed = true) (op : Op) :
    (S.after K op).x.rx.overflowed = true := by
  cases op with
  | feed bytes written =>
    change (ktlsExchangeFeed S.x bytes written).2.rx.overflowed = true
    cases hx : S.x.ssl with
    | none => simpa only [ktlsExchangeFeed, hx] using h
    | some s =>
      rcases ktlsExchangeFeed_cases hx bytes written with hsame | ⟨more, -, hfeed⟩
      · rw [hsame]
        exact h
      · rw [hfeed]
        exact ktlsScan_overflowed bytes h
  | step a fate got wrote =>
    have hstep : (ktlsExchangeStep K S.x a fate).2.rx.overflowed = true := by
      cases hx : S.x.ssl with
      | none => simpa only [ktlsExchangeStep, hx] using h
      | some s =>
        cases hd : S.x.done with
        | true => rwa [ktlsExchangeStep_again hx hd]
        | false => rwa [(ktlsExchangeStep_cases K a fate hx hd).1.rx]
    simp only [after]
    split_ifs <;> exact hstep
  | take cap =>
    change (ktlsExchangeTake S.x cap).2.rx.overflowed = true
    cases hx : S.x.ssl with
    | none => simpa only [ktlsExchangeTake, hx] using h
    | some s => rwa [ktlsExchangeTake_eq hx rfl]
  | backlog cap a got wrote =>
    have hback : (ktlsExchangeBacklog S.x a).2.rx.overflowed = true := by
      cases hd : S.x.done with
      | false => rwa [ktlsExchangeBacklog_early hd]
      | true =>
        cases hx : S.x.ssl with
        | none => simpa only [ktlsExchangeBacklog, hd, not_true, if_false, hx] using h
        | some s =>
          obtain ⟨sec, len, hframe⟩ := ktlsExchangeBacklog_frame hx hd a
          rwa [hframe]
    simp only [after]
    split_ifs <;> exact hback
  | ask np dir =>
    change (ktlsCryptoInfo np S.x dir).2.rx.overflowed = true
    obtain ⟨q, hq⟩ := ktlsCryptoInfo_frame np S.x dir
    rwa [hq]

theorem overflowed_run {es : List Op} (hrun : (machine K T).Run S es S')
    (hov : S'.x.rx.overflowed = false) : S.x.rx.overflowed = false := by
  by_contra h
  have hend : S'.x.rx.overflowed = true :=
    hrun.invariant (P := fun S => S.x.rx.overflowed = true)
      (fun _ op h _ => overflowed_after h op) (Bool.not_eq_false _ ▸ h)
  exact absurd (hov.symm.trans hend) (by decide)

/-- What every call that fits preserves holds at the end of every run, or the receive
table has overflowed by then: a longer feed changes nothing or overflows it. -/
theorem invariant_or_overflowed {M : Machine Session Op} (hM : M.next = after K)
    {P : Session → Prop} (hacc : ∀ S, P S → S.Accounts T)
    (step : ∀ S op, P S → M.permits S op → op.Fits → P (S.after K op)) {es : List Op}
    (hrun : M.Run S es S') (h0 : P S) : P S' ∨ S'.x.rx.overflowed = true := by
  refine hrun.invariant (P := fun S => P S ∨ S.x.rx.overflowed = true) ?_ (.inl h0)
  rintro S op (h | h) hp
  · rw [hM]
    by_cases hfit : op.Fits
    · exact .inl (step S op h hp hfit)
    · cases op with
      | feed bytes written =>
        rcases after_feed_long (K := K) (hacc S h) (not_lt.mp hfit) written with hsame | hov
        · rw [hsame]
          exact .inl h
        · exact .inr hov
      | step a fate got wrote => exact absurd trivial hfit
      | take cap => exact absurd trivial hfit
      | backlog cap a got wrote => exact absurd trivial hfit
      | ask np dir => exact absurd trivial hfit
  · rw [hM]
    exact .inr (overflowed_after h op)

theorem Inv.run {es : List Op} (h : S.Inv K T) (hrun : (machine K T).Run S es S')
    (hov : S'.x.rx.overflowed = false) : S'.Inv K T := by
  refine (invariant_or_overflowed rfl (fun _ hi => hi.accounts)
    (fun _ _ hi hp hfit => hi.after hp hfit) hrun h).resolve_right ?_
  rw [hov]
  decide

theorem Inv.reachable {es : List Op} (hrun : (machine K T).Run (opened T) es S)
    (hov : S.x.rx.overflowed = false) : S.Inv K T :=
  (inv_opened K T).run hrun hov

/-- What a call may only add to. -/
structure Grows (S S' : Session) : Prop where
  inbox : S.inbox <+: S'.inbox
  outbox : S.outbox <+: S'.outbox
  taken : S.taken <+: S'.taken
  arrived : S.arrived <+: S'.arrived

theorem Grows.refl (S : Session) : S.Grows S :=
  ⟨List.prefix_rfl, List.prefix_rfl, List.prefix_rfl, List.prefix_rfl⟩

theorem Grows.trans {S'' : Session} (h : S.Grows S') (h' : S'.Grows S'') : S.Grows S'' :=
  ⟨h.inbox.trans h'.inbox, h.outbox.trans h'.outbox, h.taken.trans h'.taken,
    h.arrived.trans h'.arrived⟩

theorem grows_after (S : Session) (op : Op) : S.Grows (S.after K op) := by
  have keep {α : Type} (l t : List α) : l <+: l ++ t := List.prefix_append l t
  cases op with
  | feed bytes written => exact ⟨List.prefix_rfl, List.prefix_rfl, List.prefix_rfl, keep _ _⟩
  | step a fate got wrote =>
    simp only [after]
    split_ifs
    · exact ⟨List.prefix_rfl, List.prefix_rfl, List.prefix_rfl, List.prefix_rfl⟩
    · exact ⟨keep _ _, keep _ _, List.prefix_rfl, List.prefix_rfl⟩
  | take cap => exact ⟨List.prefix_rfl, List.prefix_rfl, keep _ _, List.prefix_rfl⟩
  | backlog cap a got wrote =>
    simp only [after]
    split_ifs
    · exact ⟨keep _ _, keep _ _, List.prefix_rfl, List.prefix_rfl⟩
    · exact ⟨List.prefix_rfl, List.prefix_rfl, List.prefix_rfl, List.prefix_rfl⟩
  | ask np dir => exact ⟨List.prefix_rfl, List.prefix_rfl, List.prefix_rfl, List.prefix_rfl⟩

theorem Grows.outKinds (h : S.Grows S') : S.outKinds <+: S'.outKinds :=
  h.outbox.map Wrote.kind

theorem Grows.wire (h : S.Grows S') : S.wire <+: S'.wire := by
  obtain ⟨t, ht⟩ := h.outbox
  rw [wire_append S ht.symm]
  exact List.prefix_append _ _

theorem Grows.complete (h : S.Grows S') (hc : S.Complete) : S'.Complete :=
  h.inbox.subset hc

theorem Grows.flight_outKinds (h : S.Grows S') (hf : .finished ∈ S.outKinds) :
    flight S'.outKinds = flight S.outKinds := by
  obtain ⟨t, ht⟩ := h.outKinds
  rw [← ht, flight_append hf]

variable {np : NullPending} {dir : KtlsDirection}

theorem Accounts.pendingOut (h : S.Accounts T) (np : NullPending) :
    pendingOut np S.x = S.owed.length := by
  rw [Ktls.pendingOut, h.ssl]

theorem Accounts.consumed (h : S.Accounts T) (np : NullPending) : consumed np S.x = S.read := by
  have := h.unread_length
  rw [Ktls.consumed, pendingIn, h.ssl, h.rxFed]
  simp only
  omega

theorem Inv.not_rekeyed (h : S.Inv K T) (np : NullPending) (dir : KtlsDirection) :
    sequenceOf np S.x dir = match dir with
      | .tx => ktlsRecordsBetween S.x.tx S.x.txAtDone S.x.tx.offset
      | .rx => ktlsRecordsBetween S.x.rx S.x.rxAtDone (consumed np S.x) := by
  cases dir with
  | tx => simp only [sequenceOf, h.keys.rekeyed, Bool.false_eq_true, if_false]
  | rx => simp only [sequenceOf, h.keys.rekeyed, Bool.false_eq_true, if_false]

theorem Inv.sequence_le (h : S.Inv K T) (np : NullPending) (dir : KtlsDirection) :
    sequenceOf np S.x dir ≤ 64 := by
  have hle (b : Bytes) (after upto : ℕ) : ktlsRecordsBetween (parsed b) after upto ≤ 64 := by
    refine List.countP_le_length.trans ?_
    rw [ends_parsed, List.length_take]
    exact Nat.min_le_left _ _
  rw [h.not_rekeyed]
  cases dir with
  | tx => exact h.accounts.tx ▸ hle _ _ _
  | rx => exact h.accounts.rx ▸ hle _ _ _

/-- The receive sequence is the number of records the SSL took in behind the Finished. -/
theorem Inv.rx_sequence (h : S.Inv K T) (hd : S.x.done = true)
    (hov : S.x.rx.overflowed = false) (np : NullPending) :
    sequenceOf np S.x .rx = (behindFinished S.inbox).length := by
  have hn := h.notes hd
  have h64 : (tlsRecord.frames S.arrived).length ≤ 64 := by
    by_contra hlt
    rw [h.accounts.rx, Bool.eq_false_iff] at hov
    exact hov ((overflowed_parsed _).mpr (not_le.mp hlt))
  have hcount := ktlsRecordsBetween_parsed h64 hn.rxAtDone_le
  have hlen := length_behindFinished (h.kinds.done hd)
  rw [hn.rxAtDone, h.accounts.opened] at hcount
  rw [h.not_rekeyed]
  simp only [h.accounts.consumed, h.accounts.rx]
  omega

/-- Where the send sequence starts to count: how many records ended by `tx_at_done`. -/
def boundary (S : Session) : ℕ := (tlsRecord.frames (S.wire.take S.x.txAtDone)).length

/-- With nothing owed, the send sequence is the number of records from the boundary on. -/
theorem Inv.tx_sequence (h : S.Inv K T) (hd : S.x.done = true)
    (hov : S.x.tx.overflowed = false) (howed : S.owed = []) (np : NullPending) :
    sequenceOf np S.x .tx + S.boundary = S.outKinds.length := by
  have hn := h.notes hd
  have hwire : S.taken = S.wire := by rw [h.accounts.wire, howed, List.append_nil]
  have h64 : (tlsRecord.frames S.taken).length ≤ 64 := by
    by_contra hlt
    rw [h.accounts.tx, Bool.eq_false_iff] at hov
    exact hov ((overflowed_parsed _).mpr (not_le.mp hlt))
  have hle : S.x.txAtDone ≤ S.taken.length := hwire ▸ hn.txAtDone_le
  have hcount := ktlsRecordsBetween_parsed h64 hle
  rw [List.take_length, hwire, h.accounts.frames_wire, List.length_map] at hcount
  rw [h.not_rekeyed, length_outKinds, boundary]
  simp only [h.accounts.tx, offset_parsed, hwire]
  exact hcount

theorem Inv.cryptoInfo_ok (h : S.Inv K T) {b : Bytes} :
    (ktlsCryptoInfo np S.x dir).1 = .ok b ↔
      S.x.done = true ∧ S.owed = [] ∧ S.x.tx.overflowed = false ∧ S.x.rx.overflowed = false ∧
      b = blob K S.x.cipher (T.secret (whichOf T.server dir)) (sequenceOf np S.x dir) := by
  have howed : pendingOut np S.x ≤ 0 ↔ S.owed = [] := by
    rw [h.accounts.pendingOut]
    exact Int.natCast_nonpos_iff.trans List.length_eq_zero_iff
  rw [ktlsCryptoInfo_ok, howed]
  constructor
  · rintro ⟨hd, ho, htx, hrx, rfl⟩
    obtain ⟨q, hq⟩ := (h.notes hd).info (whichOf S.x.server dir)
    refine ⟨hd, ho, htx, hrx, ?_⟩
    rw [hq, KtlsInfo.withSeq_withSeq, (h.notes hd).server, blob]
  · rintro ⟨hd, ho, htx, hrx, rfl⟩
    obtain ⟨q, hq⟩ := (h.notes hd).info (whichOf S.x.server dir)
    refine ⟨hd, ho, htx, hrx, ?_⟩
    rw [hq, KtlsInfo.withSeq_withSeq, (h.notes hd).server, blob]

theorem Inv.recSeqOf_blob (h : S.Inv K T) (c : ℕ) (s : Bytes) :
    recSeqOf (blob K c s (sequenceOf np S.x dir)) = sequenceOf np S.x dir := by
  have hle := h.sequence_le np dir
  exact Ktls.recSeqOf_blob K c s (by omega)

theorem Inv.ask_eq (np : NullPending) (dir : KtlsDirection) :
    ∃ q : Fin 2 → Bytes, S.after K (.ask np dir) =
      { S with x := { S.x with info := fun i => (S.x.info i).withSeq (q i) } } := by
  obtain ⟨q, hq⟩ := ktlsCryptoInfo_frame np S.x dir
  exact ⟨q, by rw [← hq]; rfl⟩

theorem Inv.done_after (h : S.Inv K T) (hd : S.x.done = true) {op : Op}
    (hp : S.permits T op) (hfit : op.Fits) :
    (S.after K op).x.done = true ∧ (S.after K op).x.txAtDone = S.x.txAtDone ∧
      (op.Outward → (S.after K op).unread = S.unread) := by
  cases op with
  | feed bytes written =>
    rw [after_feed h.accounts hfit]
    split_ifs
    · exact ⟨hd, rfl, False.elim⟩
    · exact ⟨hd, rfl, False.elim⟩
  | step a fate got wrote =>
    rw [after_step_done h.accounts hd]
    exact ⟨hd, rfl, fun _ => rfl⟩
  | take cap =>
    rw [after_take h.accounts rfl]
    refine ⟨hd, rfl, fun _ => ?_⟩
    simp only [Session.ship, unread_mk, h.accounts.ssl, Option.map_some, Option.getD_some]
  | backlog cap a got wrote =>
    rw [after_backlog h.accounts hd (hp hd).keylog]
    exact ⟨hd, rfl, False.elim⟩
  | ask np dir =>
    obtain ⟨q, hq⟩ := Inv.ask_eq (K := K) (S := S) np dir
    rw [hq]
    exact ⟨hd, rfl, fun _ => rfl⟩

/-- How a call can change what the two directions carry: not at all, by a backlog, by a
step that still waits, or by the step that ends the handshake. -/
theorem Inv.kinds_after (h : S.Inv K T) {op : Op} (hp : S.permits T op) (hfit : op.Fits) :
    ((S.after K op).inbox = S.inbox ∧ (S.after K op).outbox = S.outbox) ∨
    (∃ cap a got wrote, op = .backlog cap a got wrote ∧ S.x.done = true ∧
      (S.after K op).inbox = S.inbox ++ got ∧ (S.after K op).outbox = S.outbox ++ wrote) ∨
    ¬ (S.after K op).Complete ∨
    (∃ a fate got wrote, op = .step a fate got wrote ∧ S.x.done = false ∧
      S.Completes T a got wrote ∧ (S.after K op).outbox = S.outbox ++ wrote ∧
      (S.after K op).Fresh T) := by
  cases op with
  | feed bytes written =>
    rw [after_feed h.accounts hfit]
    split_ifs
    · exact .inl ⟨rfl, rfl⟩
    · exact .inl ⟨rfl, rfl⟩
  | take cap =>
    rw [after_take h.accounts rfl]
    exact .inl ⟨rfl, rfl⟩
  | ask np dir => exact .inl ⟨rfl, rfl⟩
  | backlog cap a got wrote =>
    cases hd : S.x.done with
    | false =>
      rw [after_backlog_early hd]
      exact .inl ⟨rfl, rfl⟩
    | true =>
      rw [after_backlog h.accounts hd (hp hd).keylog]
      exact .inr (.inl ⟨cap, a, got, wrote, rfl, rfl, rfl, rfl⟩)
  | step a fate got wrote =>
    cases hd : S.x.done with
    | true =>
      rw [after_step_done h.accounts hd]
      exact .inl ⟨rfl, rfl⟩
    | false =>
      rw [after_step hd]
      cases hp hd with
      | waits hw =>
        refine .inr (.inr (.inl fun hc => ?_))
        rcases List.mem_append.mp hc with hc | hc
        · exact hw.fresh hc
        · exact hw.not_finished hc
      | completes hc =>
        exact .inr (.inr (.inr ⟨a, fate, got, wrote, rfl, rfl, hc, rfl, hc.fresh_after _ _⟩))
      | again hg =>
        refine .inl ⟨?_, ?_⟩
        · exact hg.got_nil ▸ List.append_nil _
        · exact hg.wrote_nil ▸ List.append_nil _

theorem outKinds_same (h : S'.outbox = S.outbox) : S'.outKinds = S.outKinds := by
  rw [outKinds, h, ← outKinds]

/-- While the exchange is done, the boundary stays where it is. -/
theorem Inv.boundary_after (h : S.Inv K T) (hd : S.x.done = true) {op : Op}
    (hp : S.permits T op) (hfit : op.Fits) :
    (S.after K op).x.done = true ∧ (S.after K op).boundary = S.boundary ∧
      flight (S.after K op).outKinds = flight S.outKinds := by
  obtain ⟨hd', htx, -⟩ := h.done_after hd hp hfit
  have hgrows := S.grows_after (K := K) op
  refine ⟨hd', ?_, hgrows.flight_outKinds (h.kinds.outbox (h.kinds.done hd))⟩
  obtain ⟨t, ht⟩ := hgrows.wire
  rw [boundary, htx, ← ht, List.take_append_of_le_length (h.notes hd).txAtDone_le, ← boundary]

theorem Inv.boundary_run {ops : List Op} (h : S.Inv K T) (hd : S.x.done = true)
    (hrun : (machine K T).Run S ops S') (hov : S'.x.rx.overflowed = false) :
    S'.x.done = true ∧ S'.boundary = S.boundary ∧ flight S'.outKinds = flight S.outKinds := by
  have hinv := invariant_or_overflowed rfl
    (P := fun s => s.Inv K T ∧ s.x.done = true ∧ s.boundary = S.boundary ∧
      flight s.outKinds = flight S.outKinds)
    (fun _ hi => hi.1.accounts) ?_ hrun ⟨h, hd, rfl, rfl⟩
  · refine (hinv.resolve_right ?_).2
    rw [hov]
    decide
  · rintro s op ⟨hi, hdone, hb, hf⟩ hp hfit
    obtain ⟨hd', hb', hf'⟩ := hi.boundary_after hdone hp hfit
    exact ⟨hi.after hp hfit, hd', hb'.trans hb, hf'.trans hf⟩

/-- The step that ends a server's exchange puts the boundary behind what was taken. -/
theorem Inv.boundary_step (h : S.Inv K T) (hd : S.x.done = false) {a : HandshakeAnswer}
    {fate : DeriveFate} {got : List RecordKind} {wrote : List Wrote}
    (hp : S.permits T (.step a fate got wrote))
    (hd' : (S.after K (.step a fate got wrote)).x.done = true) (hs : T.server = true) :
    (S.after K (.step a fate got wrote)).boundary = (tlsRecord.frames S.taken).length := by
  have hi' := h.after (K := K) hp trivial
  rw [after_step hd] at hd' hi' ⊢
  obtain ⟨hst, hcases⟩ := ktlsExchangeStep_cases K a fate h.accounts.ssl hd
  rcases hcases with ⟨-, -, -, hn⟩ | ⟨-, hnot⟩
  · have htx : (ktlsExchangeStep K S.x a fate).2.txAtDone = S.taken.length := by
      rw [hn.txAtDone, if_pos hs, hst.tx, h.accounts.tx, offset_parsed]
    have hwire := hi'.accounts.wire
    rw [boundary, hwire]
    change (tlsRecord.frames ((S.taken ++ _).take
      (ktlsExchangeStep K S.x a fate).2.txAtDone)).length = _
    rw [htx, List.take_left]
  · exact absurd (hnot.symm.trans hd') (by decide)

/-- When the peer's answer is opened, exactly the flight has been taken. -/
theorem Inv.taken_at_answer (h : S.Inv K T) {a : HandshakeAnswer} {got : List RecordKind}
    {wrote : List Wrote} (hs : T.server = true) (hc : S.Completes T a got wrote)
    (howed : S.owed = []) : (tlsRecord.frames S.taken).length = flight S.outKinds := by
  have hwire := h.accounts.wire
  rw [howed, List.append_nil] at hwire
  rw [← hwire, h.accounts.frames_wire, List.length_map, (hc.server hs).1.flight, length_outKinds]

/-- The send sequence starts right behind the Finished. -/
def Exact (S : Session) : Prop := S.x.done = true → S.boundary = flight S.outKinds

theorem Exact.after (hex : S.Exact) (h : S.Inv K T) {op : Op} (hp : S.permits T op)
    (hfit : op.Fits) (hprompt : S.Prompt K T op) : (S.after K op).Exact := by
  intro hd'
  have hi' := h.after (K := K) hp hfit
  cases hd : S.x.done with
  | true =>
    obtain ⟨-, hb, hf⟩ := h.boundary_after hd hp hfit
    rw [hb, hf, hex hd]
  | false =>
    cases hside : T.server with
    | false => exact (hi'.notes hd').client hside
    | true =>
      -- only a step can have ended it, and only one that found the handshake over
      have hstep : ∃ a fate got wrote, op = .step a fate got wrote := by
        cases op with
        | step a fate got wrote => exact ⟨a, fate, got, wrote, rfl⟩
        | feed bytes written =>
          rw [after_feed h.accounts hfit] at hd'
          split_ifs at hd' <;> exact absurd (hd.symm.trans hd') (by decide)
        | take cap =>
          rw [after_take h.accounts rfl] at hd'
          exact absurd (hd.symm.trans hd') (by decide)
        | backlog cap a got wrote =>
          rw [after_backlog_early hd] at hd'
          exact absurd (hd.symm.trans hd') (by decide)
        | ask np dir =>
          obtain ⟨q, hq⟩ := Inv.ask_eq (K := K) (S := S) np dir
          rw [hq] at hd'
          exact absurd (hd.symm.trans hd') (by decide)
      obtain ⟨a, fate, got, wrote, rfl⟩ := hstep
      have hgrows := S.grows_after (K := K) (.step a fate got wrote)
      rw [h.boundary_step hd hp hd' hside]
      cases hp hd with
      | waits hw =>
        have hc := hi'.kinds.done hd'
        rw [after_step hd] at hc
        rcases List.mem_append.mp hc with hc | hc
        · exact absurd hc hw.fresh
        · exact absurd hc hw.not_finished
      | completes hc =>
        rw [hgrows.flight_outKinds (hc.server hside).1.mem]
        exact hprompt hside hd hd'
      | again hg =>
        rw [hgrows.flight_outKinds (h.kinds.outbox hg.complete)]
        exact hprompt hside hd hd'

theorem exact_opened (T : Tls) : (opened T).Exact := by
  intro hd
  have hnot : (opened T).x.done = false := rfl
  exact absurd (hd.symm.trans hnot) (by decide)

end Session

end Ktls
