import Ktls.Proofs.Exchange
import Ktls.Proofs.Kinds

/-! One exchange over any run. `Accounts` says where every byte is, `Keys` what the
keylog delivered, `Kinds` what the two directions carry, `Notes` what the exchange
wrote down when it was done; together they are an invariant of the machine. -/

namespace Ktls

/-- A feed whose length an `int` holds; any other operation. -/
def Op.Fits : Op → Prop
  | .feed bytes _ => bytes.length < 2 ^ 31
  | .step _ _ _ _ | .take _ | .backlog _ _ _ _ | .ask _ _ => True

theorem Op.Outward.fits {op : Op} (h : op.Outward) : op.Fits := by
  cases op with
  | feed bytes written => exact h.elim
  | step a fate got wrote => trivial
  | take cap => trivial
  | backlog cap a got wrote => trivial
  | ask np dir => trivial

namespace Session

variable {K : Kdf} {T : Tls} {S : Session}

theorem unread_eq {s : Ssl} (h : S.x.ssl = some s) : S.unread = s.input := by
  rw [unread, h]; rfl

theorem unread_mk (x : KtlsExchange) (fed arrived : Bytes) (inbox : List RecordKind)
    (outbox : List Wrote) (taken : Bytes) (logged : List Bytes) :
    (Session.mk x fed arrived inbox outbox taken logged).unread =
      (x.ssl.map Ssl.input).getD [] := rfl

theorem owed_eq {s : Ssl} (h : S.x.ssl = some s) : S.owed = s.output := by
  rw [owed, h]; rfl

/-- Where every byte is. -/
structure Accounts (T : Tls) (S : Session) : Prop where
  ssl : S.x.ssl = some ⟨T.server, S.unread, S.owed⟩
  fed : S.fed = S.arrived
  rxFed : S.x.rxFed = S.arrived.length
  rx : S.x.rx = parsed S.arrived
  unread : S.unread <:+ S.arrived
  opened : (tlsRecord.frames (S.arrived.take S.read)).length = S.inbox.length
  tx : S.x.tx = parsed S.taken
  wire : S.wire = S.taken ++ S.owed
  whole : ∀ r ∈ S.outbox, tlsRecord.IsFrame r.bytes

theorem read_le (S : Session) : S.read ≤ S.arrived.length := Nat.sub_le _ _

theorem Accounts.unread_length (h : S.Accounts T) :
    S.read + S.unread.length = S.arrived.length := by
  have := h.unread.length_le
  unfold Session.read
  omega

theorem Accounts.frames_wire (h : S.Accounts T) :
    tlsRecord.frames S.wire = S.outbox.map Wrote.bytes := by
  refine tlsRecord.frames_flatten _ fun f hf => ?_
  obtain ⟨r, hr, rfl⟩ := List.mem_map.mp hf
  exact h.whole r hr

/-- A call into the SSL: the bytes it moved are those of the records it opened and wrote. -/
theorem Accounts.call (h : S.Accounts T) {S' : Session} {input output : Bytes}
    {got : List RecordKind} {wrote : List Wrote} (hr : S.Reads input got)
    (hw : S.Writes output wrote) (hssl : S'.x.ssl = some ⟨T.server, input, output⟩)
    (hrxFed : S'.x.rxFed = S.x.rxFed) (hrx : S'.x.rx = S.x.rx) (htx : S'.x.tx = S.x.tx)
    (hfed : S'.fed = S.fed) (harrived : S'.arrived = S.arrived) (htaken : S'.taken = S.taken)
    (hinbox : S'.inbox = S.inbox ++ got) (houtbox : S'.outbox = S.outbox ++ wrote) :
    S'.Accounts T := by
  have hu : S'.unread = input := unread_eq hssl
  have ho : S'.owed = output := owed_eq hssl
  have hread : S'.read = S.arrived.length - input.length := by
    rw [Session.read, harrived, hu]
  constructor
  · rw [hssl, hu, ho]
  · rw [hfed, harrived, h.fed]
  · rw [hrxFed, harrived, h.rxFed]
  · rw [hrx, harrived, h.rx]
  · rw [hu, harrived]
    exact hr.suffix.trans h.unread
  · rw [harrived, hread, hr.opened, hinbox, List.length_append]
  · rw [htx, htaken, h.tx]
  · have hwire : S'.wire = S.wire ++ (wrote.map Wrote.bytes).flatten := by
      rw [Session.wire, houtbox, List.map_append, List.flatten_append]
      rfl
    rw [hwire, htaken, ho, hw.output_eq, h.wire, List.append_assoc]
  · rw [houtbox]
    intro r hr'
    rcases List.mem_append.mp hr' with hr' | hr'
    · exact h.whole r hr'
    · exact hw.whole r hr'

/-- The session once `bytes` have been accepted. -/
def accept (S : Session) (bytes : Bytes) : Session :=
  { S with
    x := { S.x with
      ssl := S.x.ssl.map fun s => { s with input := s.input ++ bytes }
      rx := parsed (S.arrived ++ bytes)
      rxFed := (S.arrived ++ bytes).length }
    fed := S.fed ++ bytes
    arrived := S.arrived ++ bytes }

theorem after_feed (h : S.Accounts T) {bytes : Bytes} (hlt : bytes.length < 2 ^ 31)
    (written : ℤ) :
    S.after K (.feed bytes written) =
      if bytes = [] ∨ written = bytes.length then S.accept bytes else S := by
  have hfeed := ktlsExchangeFeed_eq h.ssl hlt written
  by_cases hw : bytes = [] ∨ written = bytes.length
  · rw [if_pos hw] at hfeed ⊢
    simp only [after, hfeed, accept, unread_mk, h.rx, ktlsScan_parsed, h.rxFed, h.ssl,
      Option.map_some, Option.getD_some, List.drop_left, List.length_append, Except.isOk,
      Except.toBool, if_true]
  · rw [if_neg hw] at hfeed ⊢
    simp only [after, hfeed, unread_mk, ← unread.eq_def, List.drop_length, List.append_nil,
      Except.isOk, Except.toBool, Bool.false_eq_true, if_false]

/-- A longer feed is refused whole, or it overflows the receive table. -/
theorem after_feed_long (h : S.Accounts T) {bytes : Bytes} (hlong : 2 ^ 31 ≤ bytes.length)
    (written : ℤ) :
    S.after K (.feed bytes written) = S ∨
      (S.after K (.feed bytes written)).x.rx.overflowed = true := by
  rcases ktlsExchangeFeed_cases h.ssl bytes written with hsame | ⟨more, -, hfeed⟩
  · refine .inl ?_
    simp only [after, hsame, unread_mk, ← unread.eq_def, List.drop_length, List.append_nil,
      Except.isOk, Except.toBool, Bool.false_eq_true, if_false]
  · refine .inr ?_
    change (ktlsExchangeFeed S.x bytes written).2.rx.overflowed = true
    rw [hfeed]
    change (ktlsScan S.x.rx bytes).overflowed = true
    rw [h.rx, ktlsScan_parsed]
    exact overflowed_of_long (by rw [List.length_append]; omega)

/-- The session once `n` owed bytes have been taken. -/
def ship (S : Session) (n : ℕ) : Session :=
  { S with
    x := { S.x with
      ssl := S.x.ssl.map fun s => { s with output := s.output.drop n }
      tx := parsed (S.taken ++ S.owed.take n) }
    taken := S.taken ++ S.owed.take n }

theorem after_take (h : S.Accounts T) {cap n : ℕ} (hn : (cInt cap).toNat = n) :
    S.after K (.take cap) = S.ship n := by
  have htake := ktlsExchangeTake_eq h.ssl hn
  simp only [after, htake, ship, h.tx, ktlsScan_parsed, h.ssl, Option.map_some, Except.toOption,
    Option.getD_some]

theorem Accounts.accept (h : S.Accounts T) (bytes : Bytes) : (S.accept bytes).Accounts T := by
  have hssl : (S.accept bytes).x.ssl = some ⟨T.server, S.unread ++ bytes, S.owed⟩ := by
    simp only [Session.accept, h.ssl, Option.map_some]
  have hu := unread_eq hssl
  have ho := owed_eq hssl
  have hread : (S.accept bytes).read = S.read := by
    have := h.unread_length
    rw [Session.read, hu]
    simp only [Session.accept, List.length_append]
    omega
  constructor
  · rw [hssl, hu, ho]
  · exact congrArg (· ++ bytes) h.fed
  · rfl
  · rfl
  · obtain ⟨t, ht⟩ := h.unread
    exact ⟨t, by rw [hu, ← List.append_assoc, ht]; rfl⟩
  · rw [hread]
    change (tlsRecord.frames ((S.arrived ++ bytes).take S.read)).length = S.inbox.length
    rw [List.take_append_of_le_length S.read_le, h.opened]
  · exact h.tx
  · rw [ho]
    exact h.wire
  · exact h.whole

theorem Accounts.ship (h : S.Accounts T) (n : ℕ) : (S.ship n).Accounts T := by
  have hssl : (S.ship n).x.ssl = some ⟨T.server, S.unread, S.owed.drop n⟩ := by
    simp only [Session.ship, h.ssl, Option.map_some]
  have hu := unread_eq hssl
  have ho := owed_eq hssl
  have hread : (S.ship n).read = S.read := by
    rw [Session.read, hu]
    rfl
  constructor
  · rw [hssl, hu, ho]
  · exact h.fed
  · exact h.rxFed
  · exact h.rx
  · rw [hu]
    exact h.unread
  · rw [hread]
    exact h.opened
  · rfl
  · rw [ho]
    change S.wire = S.taken ++ S.owed.take n ++ S.owed.drop n
    rw [List.append_assoc, List.take_append_drop, h.wire]
  · exact h.whole

/-- What the keylog delivered. -/
structure Keys (T : Tls) (S : Session) : Prop where
  slot : ∀ i, slot S.x i = (S.logged.filter (kLabel i).isPrefixOf).foldl (slotAfter i)
    (List.replicate ktlsSecretMax 0, 0)
  logged : S.Complete → ∀ i, S.logged.filter (kLabel i).isPrefixOf = [T.line i]
  rekeyed : ∀ i, S.x.rekeyed i = false

theorem Keys.heldSecret (h : S.Keys T) (hc : S.Complete) (i : Fin 2) :
    S.x.heldSecret i = T.secret i := by
  have hs := h.slot i
  rw [h.logged hc i, List.foldl_cons, List.foldl_nil,
    slotAfter_line T i _ List.length_replicate] at hs
  obtain ⟨hsecret, hlen⟩ := Prod.mk.inj hs
  rw [KtlsExchange.heldSecret, hsecret, hlen, List.take_left]

/-- What the two directions carry. -/
structure Kinds (T : Tls) (S : Session) : Prop where
  done : S.x.done = true → S.Complete
  outbox : S.Complete → .finished ∈ S.outKinds
  inbox_behind : S.Complete →
    ∀ k ∈ behindFinished S.inbox, k ≠ .handshake ∧ k ≠ .finished
  outbox_behind : S.Complete →
    ∀ k ∈ behindFinished S.outKinds, k ≠ .handshake ∧ k ≠ .finished ∧ k ≠ .bad
  inbox_early : S.Complete → S.x.done = false → behindFinished S.inbox = []
  client_early : S.Complete → S.x.done = false → T.server = false →
    behindFinished S.outKinds = []
  client_quiet : ¬ S.Complete → T.server = false → .finished ∉ S.outKinds

/-- What the exchange wrote down when it was done. -/
structure Notes (K : Kdf) (T : Tls) (S : Session) : Prop where
  server : S.x.server = T.server
  rxAtDone_le : S.x.rxAtDone ≤ S.read
  rxAtDone : (tlsRecord.frames (S.arrived.take S.x.rxAtDone)).length = flight S.inbox
  txAtDone_le : S.x.txAtDone ≤ S.wire.length
  client : T.server = false →
    (tlsRecord.frames (S.wire.take S.x.txAtDone)).length = flight S.outKinds
  cipher : S.x.cipher = ktlsNegotiatedCipher (some T.suite)
  cipher_ne : S.x.cipher ≠ 0
  info : ∀ i, ∃ q, S.x.info i = (layout K S.x.cipher (T.secret i)).withSeq q

structure Inv (K : Kdf) (T : Tls) (S : Session) : Prop where
  accounts : S.Accounts T
  keys : S.Keys T
  kinds : S.Kinds T
  notes : S.x.done = true → S.Notes K T

theorem outKinds_append (S : Session) {S' : Session} {wrote : List Wrote}
    (h : S'.outbox = S.outbox ++ wrote) : S'.outKinds = S.outKinds ++ wrote.map Wrote.kind := by
  rw [outKinds, h, List.map_append]
  rfl

theorem wire_append (S : Session) {S' : Session} {wrote : List Wrote}
    (h : S'.outbox = S.outbox ++ wrote) :
    S'.wire = S.wire ++ (wrote.map Wrote.bytes).flatten := by
  rw [wire, h, List.map_append, List.flatten_append]
  rfl

theorem length_outKinds (S : Session) : S.outKinds.length = S.outbox.length := by
  rw [outKinds, List.length_map]

theorem Notes.extend (h : S.Notes K T) (hk : S.Kinds T) (hd : S.x.done = true) {S' : Session}
    {got : List RecordKind} {wrote : List Wrote} (hserver : S'.x.server = S.x.server)
    (hrx : S'.x.rxAtDone = S.x.rxAtDone) (htx : S'.x.txAtDone = S.x.txAtDone)
    (hcipher : S'.x.cipher = S.x.cipher)
    (hinfo : ∀ i, ∃ q, S'.x.info i = (S.x.info i).withSeq q)
    (harrived : S.arrived <+: S'.arrived) (hread : S.read ≤ S'.read)
    (hinbox : S'.inbox = S.inbox ++ got) (houtbox : S'.outbox = S.outbox ++ wrote) :
    S'.Notes K T := by
  have hc := hk.done hd
  have hwire := S.wire_append houtbox
  have hout := S.outKinds_append houtbox
  constructor
  · rw [hserver, h.server]
  · rw [hrx]
    exact h.rxAtDone_le.trans hread
  · obtain ⟨t, ht⟩ := harrived
    rw [hrx, ← ht, List.take_append_of_le_length (h.rxAtDone_le.trans S.read_le), h.rxAtDone,
      hinbox, flight_append hc]
  · rw [htx, hwire, List.length_append]
    exact Nat.le_add_right_of_le h.txAtDone_le
  · intro hs
    rw [htx, hwire, List.take_append_of_le_length h.txAtDone_le, h.client hs, hout,
      flight_append (hk.outbox hc)]
  · rw [hcipher, h.cipher]
  · rw [hcipher]
    exact h.cipher_ne
  · intro i
    obtain ⟨q, hq⟩ := hinfo i
    obtain ⟨q', hq'⟩ := h.info i
    exact ⟨q, by rw [hq, hcipher, hq', KtlsInfo.withSeq_withSeq]⟩

/-- The notes are right when they are written: both sides stand just behind their
Finished, a server perhaps further. -/
theorem Notes.of_noted (ha : S.Accounts T) (hk : S.Keys T) (hc : S.Complete)
    (hin : behindFinished S.inbox = []) (hfin : .finished ∈ S.outKinds)
    (hout : T.server = false → behindFinished S.outKinds = []) {s : Ssl} {a : HandshakeAnswer}
    (hs : s.server = T.server) (hinput : a.input = S.unread) (houtput : a.output = S.owed)
    (hsuite : a.suite = some T.suite) (hn : Noted K s a S.x) : S.Notes K T := by
  have hread : S.x.rxAtDone = S.read := by
    rw [hn.rxAtDone, hinput, ha.rxFed, Session.read]
    omega
  have htx : S.x.tx.offset = S.taken.length := by rw [ha.tx, offset_parsed]
  have hwire : S.wire.length = S.taken.length + S.owed.length := by
    rw [ha.wire, List.length_append]
  have hflight := length_behindFinished hc
  rw [hin, List.length_nil] at hflight
  constructor
  · rw [hn.server, hs]
  · exact hread.le
  · rw [hread, ha.opened]
    omega
  · rw [hn.txAtDone, htx, houtput]
    split_ifs <;> omega
  · intro hclient
    have hlen := length_behindFinished hfin
    rw [hout hclient, List.length_nil, length_outKinds] at hlen
    rw [hn.txAtDone, hs, hclient, if_neg (by decide), htx, houtput, ← hwire, List.take_length,
      ha.frames_wire, List.length_map]
    omega
  · rw [hn.cipher, hsuite]
  · exact hn.cipher_ne
  · intro i
    exact ⟨(S.x.info i).recSeq, by rw [hn.info i, hk.heldSecret hc i, KtlsInfo.withSeq_self]⟩

theorem Keys.same (h : S.Keys T) {S' : Session} (hsecret : S'.x.secret = S.x.secret)
    (hlen : S'.x.secretLen = S.x.secretLen) (hrekeyed : S'.x.rekeyed = S.x.rekeyed)
    (hcomplete : S'.Complete → S.Complete) (hlogged : S'.logged = S.logged) : S'.Keys T := by
  constructor
  · intro i
    rw [hlogged, ← h.slot i, Ktls.slot, Ktls.slot, hsecret, hlen]
  · intro hc i
    rw [hlogged]
    exact h.logged (hcomplete hc) i
  · intro i
    rw [hrekeyed]
    exact h.rekeyed i

theorem Kinds.same (h : S.Kinds T) {S' : Session} (hdone : S'.x.done = S.x.done)
    (hinbox : S'.inbox = S.inbox) (houtbox : S'.outbox = S.outbox) : S'.Kinds T := by
  have hout : S'.outKinds = S.outKinds := by rw [outKinds, houtbox, ← outKinds]
  have hcomplete : S'.Complete ↔ S.Complete := by rw [Complete, hinbox, ← Complete]
  constructor
  · rw [hdone, hcomplete]
    exact h.done
  · rw [hcomplete, hout]
    exact h.outbox
  · rw [hcomplete, hinbox]
    exact h.inbox_behind
  · rw [hcomplete, hout]
    exact h.outbox_behind
  · rw [hcomplete, hdone, hinbox]
    exact h.inbox_early
  · rw [hcomplete, hdone, hout]
    exact h.client_early
  · rw [hcomplete, hout]
    exact h.client_quiet

theorem Inv.accept (h : S.Inv K T) (bytes : Bytes) : (S.accept bytes).Inv K T := by
  have ha := h.accounts.accept bytes
  refine ⟨ha, h.keys.same rfl rfl rfl id rfl, h.kinds.same rfl rfl rfl, fun hd => ?_⟩
  have hu : (S.accept bytes).unread = S.unread ++ bytes := by
    simp only [Session.accept, unread_mk, h.accounts.ssl, Option.map_some, Option.getD_some]
  have hread : S.read ≤ (S.accept bytes).read := by
    rw [Session.read, Session.read, hu]
    simp only [Session.accept, List.length_append]
    omega
  exact (h.notes hd).extend h.kinds hd rfl rfl rfl rfl (fun i => ⟨_, rfl⟩)
    (List.prefix_append _ _) hread (List.append_nil _).symm (List.append_nil _).symm

theorem Inv.ship (h : S.Inv K T) (n : ℕ) : (S.ship n).Inv K T := by
  have ha := h.accounts.ship n
  refine ⟨ha, h.keys.same rfl rfl rfl id rfl, h.kinds.same rfl rfl rfl, fun hd => ?_⟩
  have hu : (S.ship n).unread = S.unread := by
    simp only [Session.ship, unread_mk, h.accounts.ssl, Option.map_some, Option.getD_some]
  have hread : S.read ≤ (S.ship n).read := by
    rw [Session.read, Session.read, hu]
    rfl
  exact (h.notes hd).extend h.kinds hd rfl rfl rfl rfl (fun i => ⟨_, rfl⟩)
    List.prefix_rfl hread (List.append_nil _).symm (List.append_nil _).symm

theorem Inv.ask (h : S.Inv K T) (np : NullPending) (dir : KtlsDirection) :
    (S.after K (.ask np dir)).Inv K T := by
  obtain ⟨q, hq⟩ := ktlsCryptoInfo_frame np S.x dir
  have hafter : S.after K (.ask np dir) =
      { S with x := { S.x with info := fun i => (S.x.info i).withSeq (q i) } } := by
    rw [← hq]
    rfl
  rw [hafter]
  have ha := h.accounts
  refine ⟨⟨ha.ssl, ha.fed, ha.rxFed, ha.rx, ha.unread, ha.opened, ha.tx, ha.wire, ha.whole⟩,
    h.keys.same rfl rfl rfl id rfl, h.kinds.same rfl rfl rfl, fun hd => ?_⟩
  exact (h.notes hd).extend h.kinds hd rfl rfl rfl rfl (fun i => ⟨q i, rfl⟩)
    List.prefix_rfl le_rfl (List.append_nil _).symm (List.append_nil _).symm

/-- The session once the SSL has opened `got` and written `wrote` in a backlog. -/
def drain (S : Session) (input output : Bytes) (got : List RecordKind) (wrote : List Wrote) :
    Session :=
  { S with
    x := { S.x with ssl := S.x.ssl.map fun s => { s with input := input, output := output } }
    inbox := S.inbox ++ got
    outbox := S.outbox ++ wrote }

theorem after_backlog (h : S.Accounts T) (hd : S.x.done = true) {cap : ℕ} {a : ReadAnswer}
    {got : List RecordKind} {wrote : List Wrote} (hlog : a.keylog = []) :
    S.after K (.backlog cap a got wrote) = S.drain a.input a.output got wrote := by
  simp only [after, ktlsExchangeBacklog_eq h.ssl hd hlog, if_pos hd, drain, h.ssl,
    Option.map_some, hlog, List.append_nil]

theorem after_backlog_early (hd : S.x.done = false) (cap : ℕ) (a : ReadAnswer)
    (got : List RecordKind) (wrote : List Wrote) :
    S.after K (.backlog cap a got wrote) = S := by
  simp only [after, ktlsExchangeBacklog_early hd, hd, Bool.false_eq_true, if_false]

theorem Inv.drain (h : S.Inv K T) (hd : S.x.done = true) {cap : ℕ} {a : ReadAnswer}
    {got : List RecordKind} {wrote : List Wrote} (hr : S.SslRead cap a got wrote) :
    (S.drain a.input a.output got wrote).Inv K T := by
  have hssl : (S.drain a.input a.output got wrote).x.ssl =
      some ⟨T.server, a.input, a.output⟩ := by
    simp only [Session.drain, h.accounts.ssl, Option.map_some]
  have hc := h.kinds.done hd
  have hfin := h.kinds.outbox hc
  have hout : (S.drain a.input a.output got wrote).outKinds =
      S.outKinds ++ wrote.map Wrote.kind := S.outKinds_append rfl
  have hc' : (S.drain a.input a.output got wrote).Complete := List.mem_append_left _ hc
  refine ⟨h.accounts.call hr.reads hr.writes hssl rfl rfl rfl rfl rfl rfl rfl rfl,
    h.keys.same rfl rfl rfl (fun _ => hc) rfl, ?_, fun _ => ?_⟩
  · constructor
    · exact fun _ => hc'
    · intro _
      rw [hout]
      exact List.mem_append_left _ hfin
    · intro _ k hk
      change k ∈ behindFinished (S.inbox ++ got) at hk
      rw [behindFinished_append hc] at hk
      rcases List.mem_append.mp hk with hk | hk
      · exact h.kinds.inbox_behind hc k hk
      · exact hr.kinds_in k hk
    · intro _ k hk
      rw [hout, behindFinished_append hfin] at hk
      rcases List.mem_append.mp hk with hk | hk
      · exact h.kinds.outbox_behind hc k hk
      · obtain ⟨r, hr', rfl⟩ := List.mem_map.mp hk
        exact hr.kinds_out r hr'
    · intro _ hd'
      exact absurd (hd.symm.trans hd') (by decide)
    · intro _ hd'
      exact absurd (hd.symm.trans hd') (by decide)
    · exact fun hn => absurd hc' hn
  · have hread : S.read ≤ (S.drain a.input a.output got wrote).read := by
      have hle := hr.reads.suffix.length_le
      rw [Session.read, Session.read, unread_eq hssl]
      change _ ≤ S.arrived.length - a.input.length
      omega
    exact (h.notes hd).extend h.kinds hd rfl rfl rfl rfl (fun i => ⟨_, rfl⟩)
      List.prefix_rfl hread rfl rfl

/-- The session once a step has left the exchange `x'`. -/
def stepped (S : Session) (x' : KtlsExchange) (lines : List Bytes) (got : List RecordKind)
    (wrote : List Wrote) : Session :=
  { S with
    x := x'
    inbox := S.inbox ++ got
    outbox := S.outbox ++ wrote
    logged := S.logged ++ lines }

theorem after_step (hd : S.x.done = false) (a : HandshakeAnswer) (fate : DeriveFate)
    (got : List RecordKind) (wrote : List Wrote) :
    S.after K (.step a fate got wrote) =
      S.stepped (ktlsExchangeStep K S.x a fate).2 a.keylog got wrote := by
  simp only [after, hd, Bool.false_eq_true, if_false, stepped]

theorem after_step_done (h : S.Accounts T) (hd : S.x.done = true) (a : HandshakeAnswer)
    (fate : DeriveFate) (got : List RecordKind) (wrote : List Wrote) :
    S.after K (.step a fate got wrote) = S := by
  simp only [after, hd, if_true, ktlsExchangeStep_again h.ssl hd]

theorem Handshake.reads {a : HandshakeAnswer} {got : List RecordKind} {wrote : List Wrote}
    (h : S.Accounts T) (hp : S.Handshake T a got wrote) : S.Reads a.input got := by
  cases hp with
  | waits hp => exact hp.reads
  | completes hp => exact hp.reads
  | again hp =>
    rw [hp.input, hp.got_nil]
    exact ⟨List.suffix_rfl, by rw [← Session.read, h.opened]; rfl⟩

theorem Handshake.writes {a : HandshakeAnswer} {got : List RecordKind} {wrote : List Wrote}
    (hp : S.Handshake T a got wrote) : S.Writes a.output wrote := by
  cases hp with
  | waits hp => exact hp.writes
  | completes hp => exact hp.writes
  | again hp =>
    rw [hp.output, hp.wrote_nil]
    exact ⟨by simp, by simp⟩

theorem Keys.stepped (h : S.Keys T) {s : Ssl} {a : HandshakeAnswer} {x' : KtlsExchange}
    (hst : Stepped S.x s a x') {got : List RecordKind} {wrote : List Wrote}
    (hlog : (S.stepped x' a.keylog got wrote).Complete →
      ∀ i, (S.logged ++ a.keylog).filter (kLabel i).isPrefixOf = [T.line i]) :
    (S.stepped x' a.keylog got wrote).Keys T := by
  constructor
  · intro i
    change Ktls.slot x' i = _
    rw [hst.slot i, h.slot i, ← List.foldl_append, ← List.filter_append]
    rfl
  · exact hlog
  · intro i
    change x'.rekeyed i = false
    rw [hst.rekeyed]
    exact h.rekeyed i

/-- A handshake that is not over leaves both directions without their last Finished. -/
theorem Waits.kinds {a : HandshakeAnswer} {got : List RecordKind} {wrote : List Wrote}
    (h : S.Kinds T) (hp : S.Waits T a got wrote) {x' : KtlsExchange} (hd : x'.done = false)
    {lines : List Bytes} : (S.stepped x' lines got wrote).Kinds T := by
  have hn : ¬ (S.stepped x' lines got wrote).Complete := by
    intro hc
    rcases List.mem_append.mp hc with hc | hc
    · exact hp.fresh hc
    · exact hp.not_finished hc
  have hout : (S.stepped x' lines got wrote).outKinds =
      S.outKinds ++ wrote.map Wrote.kind := S.outKinds_append rfl
  constructor
  · exact fun hd' => absurd (hd.symm.trans hd') (by decide)
  · exact fun hc => absurd hc hn
  · exact fun hc => absurd hc hn
  · exact fun hc => absurd hc hn
  · exact fun hc => absurd hc hn
  · exact fun hc => absurd hc hn
  · intro _ hs
    rw [hout, List.mem_append, not_or]
    exact ⟨h.client_quiet hp.fresh hs, hp.client hs⟩

/-- What the two directions carry once the handshake is over and the exchange has only
just been told. -/
structure Fresh (T : Tls) (S : Session) : Prop where
  complete : S.Complete
  outbox : .finished ∈ S.outKinds
  inbox : behindFinished S.inbox = []
  client : T.server = false → behindFinished S.outKinds = []
  behind : ∀ k ∈ behindFinished S.outKinds, k ≠ .handshake ∧ k ≠ .finished ∧ k ≠ .bad

theorem Fresh.kinds (h : S.Fresh T) : S.Kinds T where
  done _ := h.complete
  outbox _ := h.outbox
  inbox_behind _ := by
    rw [h.inbox]
    exact fun k hk => absurd hk (List.not_mem_nil)
  outbox_behind _ := h.behind
  inbox_early _ _ := h.inbox
  client_early _ _ := h.client
  client_quiet hn := absurd h.complete hn

theorem Completes.fresh_after {a : HandshakeAnswer} {got : List RecordKind}
    {wrote : List Wrote} (hp : S.Completes T a got wrote) (x' : KtlsExchange)
    (lines : List Bytes) : (S.stepped x' lines got wrote).Fresh T := by
  obtain ⟨hs, hgot, hhs⟩ := hp.got_ends
  have hin : (S.stepped x' lines got wrote).inbox = (S.inbox ++ hs) ++ .finished :: [] := by
    change S.inbox ++ got = _
    rw [hgot, List.append_assoc]
  have hnot : .finished ∉ S.inbox ++ hs := by
    rw [List.mem_append, not_or]
    exact ⟨hp.fresh, hhs⟩
  have hout : (S.stepped x' lines got wrote).outKinds =
      S.outKinds ++ wrote.map Wrote.kind := S.outKinds_append rfl
  have hcomplete : (S.stepped x' lines got wrote).Complete := by
    rw [Complete, hin]
    simp
  have hinbox : behindFinished (S.stepped x' lines got wrote).inbox = [] := by
    rw [hin, behindFinished_split hnot]
  cases hside : T.server with
  | false =>
    have hbehind : behindFinished (S.stepped x' lines got wrote).outKinds = [] := by
      rw [hout, (hp.client hside).behind]
    refine ⟨hcomplete, hout ▸ (hp.client hside).mem, hinbox, fun _ => hbehind, ?_⟩
    rw [hbehind]
    exact fun k hk => absurd hk List.not_mem_nil
  | true =>
    obtain ⟨hends, hkinds⟩ := hp.server hside
    have hfin := hends.mem
    refine ⟨hcomplete, by rw [hout]; exact List.mem_append_left _ hfin, hinbox,
      fun hf => absurd (hside.symm.trans hf) (by decide), ?_⟩
    intro k hk
    rw [hout, behindFinished_append hfin, hends.behind, List.nil_append] at hk
    obtain ⟨r, hr, rfl⟩ := List.mem_map.mp hk
    rcases hkinds r hr with h | h <;> rw [h] <;> decide

theorem Again.fresh_after (h : S.Kinds T) (hd : S.x.done = false) {a : HandshakeAnswer}
    {got : List RecordKind} {wrote : List Wrote} (hp : S.Again T a got wrote) (x' : KtlsExchange)
    (lines : List Bytes) : (S.stepped x' lines got wrote).Fresh T := by
  have hin : (S.stepped x' lines got wrote).inbox = S.inbox := by
    change S.inbox ++ got = _
    rw [hp.got_nil, List.append_nil]
  have hout : (S.stepped x' lines got wrote).outKinds = S.outKinds := by
    rw [S.outKinds_append rfl, hp.wrote_nil, List.map_nil, List.append_nil]
  have hc := hp.complete
  refine ⟨by rwa [Complete, hin], hout ▸ h.outbox hc, hin ▸ h.inbox_early hc hd, ?_, ?_⟩
  · intro hs
    exact hout ▸ h.client_early hc hd hs
  · rw [hout]
    exact h.outbox_behind hc

theorem Inv.stepped (h : S.Inv K T) (hd : S.x.done = false) {a : HandshakeAnswer}
    {fate : DeriveFate} {got : List RecordKind} {wrote : List Wrote}
    (hp : S.Handshake T a got wrote) :
    (S.stepped (ktlsExchangeStep K S.x a fate).2 a.keylog got wrote).Inv K T := by
  obtain ⟨hst, hcases⟩ := ktlsExchangeStep_cases K a fate h.accounts.ssl hd
  have ha : (S.stepped (ktlsExchangeStep K S.x a fate).2 a.keylog got wrote).Accounts T :=
    h.accounts.call (hp.reads h.accounts) hp.writes hst.ssl hst.rxFed hst.rx hst.tx rfl rfl rfl
      rfl rfl
  have hu := unread_eq (S := S.stepped (ktlsExchangeStep K S.x a fate).2 a.keylog got wrote)
    hst.ssl
  have ho := owed_eq (S := S.stepped (ktlsExchangeStep K S.x a fate).2 a.keylog got wrote)
    hst.ssl
  -- a finished handshake: whether or not the derivation then succeeds, the rest is the same
  have fresh (hf : (S.stepped (ktlsExchangeStep K S.x a fate).2 a.keylog got wrote).Fresh T)
      (hsuite : a.suite = some T.suite)
      (hlog : ∀ i, (S.logged ++ a.keylog).filter (kLabel i).isPrefixOf = [T.line i]) :
      (S.stepped (ktlsExchangeStep K S.x a fate).2 a.keylog got wrote).Inv K T := by
    have hk : (S.stepped (ktlsExchangeStep K S.x a fate).2 a.keylog got wrote).Keys T :=
      h.keys.stepped hst fun _ => hlog
    refine ⟨ha, hk, hf.kinds, fun hdone => ?_⟩
    rcases hcases with ⟨-, -, -, hn⟩ | ⟨-, hnot⟩
    · exact Notes.of_noted ha hk hf.complete hf.inbox hf.outbox hf.client rfl hu.symm ho.symm
        hsuite hn
    · exact absurd (hnot.symm.trans hdone) (by decide)
  cases hp with
  | waits hp =>
    have hnot : (ktlsExchangeStep K S.x a fate).2.done = false := by
      rcases hcases with ⟨hrc, -⟩ | ⟨-, hnot⟩
      · exact absurd hrc hp.rc
      · exact hnot
    have hkinds : (S.stepped (ktlsExchangeStep K S.x a fate).2 a.keylog got wrote).Kinds T :=
      hp.kinds h.kinds hnot
    refine ⟨ha, h.keys.stepped hst fun hc => ?_, hkinds,
      fun hd' => absurd (hnot.symm.trans hd') (by decide)⟩
    rcases List.mem_append.mp hc with hc | hc
    · exact absurd hc hp.fresh
    · exact absurd hc hp.not_finished
  | completes hp => exact fresh (hp.fresh_after _ _) hp.suite hp.logs
  | again hp =>
    refine fresh (hp.fresh_after h.kinds hd _ _) hp.suite ?_
    rw [hp.keylog, List.append_nil]
    exact h.keys.logged hp.complete

/-- The invariant of the machine, as long as every feed fits an `int`. -/
theorem Inv.after (h : S.Inv K T) {op : Op} (hp : S.permits T op) (hfit : op.Fits) :
    (S.after K op).Inv K T := by
  cases op with
  | feed bytes written =>
    rw [after_feed h.accounts hfit]
    split_ifs
    · exact h.accept bytes
    · exact h
  | step a fate got wrote =>
    cases hd : S.x.done with
    | false =>
      rw [after_step hd]
      exact h.stepped hd (hp hd)
    | true =>
      rw [after_step_done h.accounts hd]
      exact h
  | take cap =>
    rw [after_take h.accounts rfl]
    exact h.ship _
  | backlog cap a got wrote =>
    cases hd : S.x.done with
    | false =>
      rw [after_backlog_early hd]
      exact h
    | true =>
      rw [after_backlog h.accounts hd (hp hd).keylog]
      exact h.drain hd (hp hd)
  | ask np dir => exact h.ask np dir

theorem inv_opened (K : Kdf) (T : Tls) : (opened T).Inv K T := by
  have hno : ¬ (Session.opened T).Complete := List.not_mem_nil
  have hnot : (Session.opened T).x.done = false := rfl
  have hrole : (Session.opened T).x.ssl = some ⟨T.server, [], []⟩ := by
    unfold Session.opened
    cases T.server <;> rfl
  have hu := unread_eq hrole
  have ho := owed_eq hrole
  refine ⟨?_, ⟨fun i => rfl, fun hc => absurd hc hno, fun i => rfl⟩, ?_, fun hd => ?_⟩
  · constructor
    · rw [hu, ho, hrole]
    · rfl
    · rfl
    · exact parsed_nil.symm
    · rw [hu]
      exact List.nil_suffix
    · change (tlsRecord.frames (List.take _ [])).length = 0
      rw [List.take_nil, tlsRecord.frames_nil]
      rfl
    · exact parsed_nil.symm
    · rw [ho]
      rfl
    · exact fun r hr => absurd hr List.not_mem_nil
  · constructor
    · exact fun hd => absurd (hd.symm.trans hnot) (by decide)
    · exact fun hc => absurd hc hno
    · exact fun hc => absurd hc hno
    · exact fun hc => absurd hc hno
    · exact fun hc => absurd hc hno
    · exact fun hc => absurd hc hno
    · exact fun _ _ => List.not_mem_nil
  · exact absurd (hd.symm.trans hnot) (by decide)

end Session

end Ktls
