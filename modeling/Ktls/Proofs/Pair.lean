import Ktls.Proofs.Retry
import Ktls.Spec.Pair

/-! Both sides of a connection agree at the handover, over every interleaving. -/

namespace Ktls

namespace Session

variable {K : Kdf} {T : Tls} {S S' : Session}

theorem Inv.taken_wire (h : S.Inv K T) : S.taken <+: S.wire :=
  h.accounts.wire ▸ List.prefix_append _ _

/-- Only a feed that is accepted changes what was fed and what arrived. -/
theorem Inv.arrived_after (h : S.Inv K T) {op : Op} (hp : S.permits T op) (hfit : op.Fits) :
    (∃ bytes written, op = .feed bytes written ∧ (S.after K op).fed = S.fed ++ bytes ∧
      (S.after K op).arrived = S.arrived ++ bytes) ∨
    ((S.after K op).fed = S.fed ∧ (S.after K op).arrived = S.arrived) := by
  cases op with
  | feed bytes written =>
    rw [after_feed h.accounts hfit]
    split_ifs
    · exact .inl ⟨bytes, written, rfl, rfl, rfl⟩
    · exact .inr ⟨rfl, rfl⟩
  | step a fate got wrote =>
    cases hd : S.x.done with
    | true =>
      rw [after_step_done h.accounts hd]
      exact .inr ⟨rfl, rfl⟩
    | false =>
      rw [after_step hd]
      exact .inr ⟨rfl, rfl⟩
  | take cap => exact .inr ⟨rfl, rfl⟩
  | backlog cap a got wrote =>
    cases hd : S.x.done with
    | true =>
      rw [after_backlog h.accounts hd (hp hd).keylog]
      exact .inr ⟨rfl, rfl⟩
    | false =>
      rw [after_backlog_early hd]
      exact .inr ⟨rfl, rfl⟩
  | ask np dir => exact .inr ⟨rfl, rfl⟩

end Session

namespace Pair

open Session

variable {K : Kdf} {T : Tls} {P P' : Pair}

structure Inv (K : Kdf) (T : Tls) (P : Pair) : Prop where
  session : ∀ side, (P.session side).Inv K (T.side side)
  exact : ∀ side, (P.session side).Exact
  /-- No derivation fails, so a handshake that is over has ended the exchange. -/
  prompt : ∀ side, (P.session side).Complete → (P.session side).x.done = true
  channel : ∀ side, (P.session side).arrived ++ P.coming side = (P.session (!side)).taken
  heard : ∀ side, (P.session side).inbox <+: (P.session (!side)).outKinds
  few : ∀ side, (P.session side).outbox.length ≤ 64
  answers : ∀ side, (P.session side).Answers
  plain : (∀ side, (P.session side).Complete) → ∀ side, (P.session side).PlainBehind .tx

theorem Inv.arrived_prefix (h : P.Inv K T) (side : Bool) :
    (P.session side).arrived <+: (P.session (!side)).wire :=
  (h.channel side ▸ List.prefix_append _ _ :
    (P.session side).arrived <+: (P.session (!side)).taken).trans (h.session _).taken_wire

theorem Inv.fits (h : P.Inv K T) {side : Bool} {op : Op} (hg : P.Genuine K side op) :
    op.Fits := by
  cases op with
  | feed bytes written =>
    have hlen : bytes.length ≤ (P.coming side).length := List.IsPrefix.length_le hg
    have htaken := congrArg List.length (h.channel side)
    rw [List.length_append] at htaken
    have hwire := (h.session (!side)).taken_wire.length_le
    have hle := (h.session (!side)).wire_le
    have hfew := h.few (!side)
    change bytes.length < 2 ^ 31
    omega
  | step a fate got wrote => trivial
  | take cap => trivial
  | backlog cap a got wrote => trivial
  | ask np dir => trivial

/-- A client answers only what it has read to its end: when the server opens the
Finished of the client, nothing the server wrote is still owed. -/
theorem Inv.answered (h : P.Inv K T) {got : List RecordKind}
    (hends : EndsFinished (P.session true).outKinds)
    (hheard : (P.session true).inbox ++ got <+: (P.session false).outKinds)
    (hfin : .finished ∈ got) : (P.session true).owed = [] := by
  -- the client wrote a Finished, so it is complete and has read the server's
  have hwrote : .finished ∈ (P.session false).outKinds :=
    hheard.subset (List.mem_append_right _ hfin)
  have hc : (P.session false).Complete := by
    by_contra hc
    exact (h.session false).kinds.client_quiet hc rfl hwrote
  have hlen : (P.session true).outbox.length ≤ (P.session false).inbox.length := by
    have hread : (P.session false).inbox <+: (P.session true).outKinds := h.heard false
    obtain ⟨t, ht⟩ := hread
    have hflight := hends.flight
    rw [← ht, flight_append hc, ht, length_outKinds] at hflight
    exact hflight ▸ flight_le hc
  -- so all of its bytes have arrived there
  have harrived : (P.session false).arrived <+: (P.session true).wire := h.arrived_prefix false
  have htake : (P.session false).arrived.take (P.session false).read =
      (P.session true).wire.take (P.session false).read := by
    obtain ⟨t, ht⟩ := harrived
    rw [← ht, List.take_append_of_le_length (P.session false).read_le]
  have hopened := (h.session false).accounts.opened
  have hall := tlsRecord.length_le_of_frames_take ((P.session true).outbox.map Wrote.bytes)
    (P.session false).read (fun f hf => by
      obtain ⟨r, hr, rfl⟩ := List.mem_map.mp hf
      exact (h.session true).accounts.whole r hr) (by
      change _ ≤ (tlsRecord.frames ((P.session true).wire.take (P.session false).read)).length
      rw [List.length_map, ← htake, hopened]
      exact hlen)
  have hwire := congrArg List.length (h.session true).accounts.wire
  have hchannel := congrArg List.length (h.channel false)
  have hread := (P.session false).read_le
  change (P.session true).wire.length ≤ _ at hall
  rw [List.length_append] at hwire hchannel
  rw [Bool.not_false] at hchannel
  exact List.length_eq_zero_iff.mp (by omega)

/-- So the step that ends the server's exchange finds exactly its flight taken. -/
theorem Inv.timely (h : P.Inv K T) {side : Bool} {op : Op}
    (hp : (P.session side).permits (T.side side) op) (hg : P.Genuine K side op) :
    (P.session side).Prompt K (T.side side) op := by
  cases op with
  | feed bytes written => trivial
  | take cap => trivial
  | backlog cap a got wrote => trivial
  | ask np dir => trivial
  | step a fate got wrote =>
    intro (hserver : side = true) hd hd'
    subst hserver
    have hi := h.session true
    cases hp hd with
    | waits hw =>
      have hc := (hi.after (K := K) hp trivial).kinds.done hd'
      rw [after_step hd] at hc
      rcases List.mem_append.mp hc with hc | hc
      · exact absurd hc hw.fresh
      · exact absurd hc hw.not_finished
    | completes hc =>
      exact hi.taken_at_answer rfl hc (h.answered (hc.server rfl).1 (hg.2 hd) hc.got_ends.mem)
    | again ha => exact absurd (hd.symm.trans (h.prompt true ha.complete)) (by decide)

theorem session_self (P : Pair) (side : Bool) (op : Op) :
    (P.after K (side, op)).session side = (P.session side).after K op :=
  Function.update_self ..

theorem session_peer (P : Pair) (side : Bool) (op : Op) :
    (P.after K (side, op)).session (!side) = P.session (!side) :=
  Function.update_of_ne (Bool.not_ne_self side) _ _

/-- A statement about either side is one about the caller and one about its peer. -/
theorem both_sides {Q : Bool → Prop} (side : Bool) (hself : Q side) (hpeer : Q (!side)) :
    ∀ b, Q b := by
  intro b
  cases side <;> cases b <;> assumption

theorem Inv.channel_after (h : P.Inv K T) {side : Bool} {op : Op}
    (hp : (P.session side).permits (T.side side) op) (hg : P.Genuine K side op)
    (hfit : op.Fits) :
    ∀ b, ((P.after K (side, op)).session b).arrived ++ (P.after K (side, op)).coming b =
      ((P.after K (side, op)).session (!b)).taken := by
  have hself := h.channel side
  have hpeer := h.channel (!side)
  rw [Bool.not_not] at hpeer
  refine both_sides side ?_ ?_
  · have hcoming : (P.after K (side, op)).coming side = (P.coming side).drop
        (((P.session side).after K op).fed.length - (P.session side).fed.length) := if_pos rfl
    rw [session_self, session_peer, hcoming]
    rcases (h.session side).arrived_after (K := K) hp hfit with
      ⟨bytes, written, rfl, hfed, harrived⟩ | ⟨hfed, harrived⟩
    · obtain ⟨rest, hrest⟩ : bytes <+: P.coming side := hg
      rw [hfed, harrived, List.length_append, Nat.add_sub_cancel_left, ← hrest, List.drop_left,
        List.append_assoc, hrest, hself]
    · rw [hfed, harrived, Nat.sub_self, List.drop_zero, hself]
  · have hcoming : (P.after K (side, op)).coming (!side) = P.coming (!side) ++
        ((P.session side).after K op).taken.drop (P.session side).taken.length :=
      if_neg (Bool.not_ne_self side)
    obtain ⟨t, ht⟩ := ((P.session side).grows_after (K := K) op).taken
    rw [Bool.not_not, session_self, session_peer, hcoming, ← ht, List.drop_left,
      ← List.append_assoc, hpeer]

theorem Inv.heard_after (h : P.Inv K T) {side : Bool} {op : Op}
    (hp : (P.session side).permits (T.side side) op) (hg : P.Genuine K side op)
    (hfit : op.Fits) :
    ∀ b, ((P.after K (side, op)).session b).inbox <+:
      ((P.after K (side, op)).session (!b)).outKinds := by
  refine both_sides side ?_ ?_
  · rw [session_self, session_peer]
    cases op with
    | feed bytes written => exact h.heard side
    | take cap => exact h.heard side
    | ask np dir => exact h.heard side
    | step a fate got wrote =>
      cases hd : (P.session side).x.done with
      | true =>
        rw [after_step_done (h.session side).accounts hd]
        exact h.heard side
      | false =>
        rw [after_step hd]
        exact hg.2 hd
    | backlog cap a got wrote =>
      cases hd : (P.session side).x.done with
      | true =>
        rw [after_backlog (h.session side).accounts hd (hp hd).keylog]
        exact hg hd
      | false =>
        rw [after_backlog_early hd]
        exact h.heard side
  · have hpeer := h.heard (!side)
    rw [Bool.not_not] at hpeer
    rw [Bool.not_not, session_self, session_peer]
    exact hpeer.trans ((P.session side).grows_after (K := K) op).outKinds

theorem Inv.prompt_after (h : P.Inv K T) {side : Bool} {op : Op}
    (hp : (P.session side).permits (T.side side) op) (hg : P.Genuine K side op)
    (hfit : op.Fits) (hc : ((P.session side).after K op).Complete) :
    ((P.session side).after K op).x.done = true := by
  have hi := h.session side
  rcases hi.kinds_after (K := K) hp hfit with ⟨hin, -⟩ | ⟨_, _, _, _, -, hd, -⟩ | hn |
    ⟨a, fate, got, wrote, rfl, hd, hcomp, -, -⟩
  · have hc₀ : (P.session side).Complete := by rwa [Complete, hin] at hc
    exact (hi.done_after (h.prompt side hc₀) hp hfit).1
  · exact (hi.done_after hd hp hfit).1
  · exact absurd hc hn
  · have hok := hg.1
    rw [after_step hd]
    cases hr : (ktlsExchangeStep K (P.session side).x a fate).1 with
    | error e =>
      rw [hr] at hok
      exact absurd hok Bool.false_ne_true
    | ok r => exact hi.done_of_ok hd hcomp.rc hr

theorem unasked_of_heard {S S' : Session} (hheard : S.inbox <+: S'.outKinds)
    (hplain : ∀ k ∈ behindFinished S'.outKinds, k.Plain) : S.Unasked := by
  intro hc hasked
  obtain ⟨more, hmore⟩ := hheard
  rw [← hmore, behindFinished_append hc] at hplain
  exact hplain _ (List.mem_append_left _ hasked)

/-- Behind the two Finished no key is moved: a KeyUpdate would have to be asked for by one. -/
theorem Inv.plain_after (h : P.Inv K T) {side : Bool} {op : Op}
    (hp : (P.session side).permits (T.side side) op) (hg : P.Genuine K side op)
    (hfit : op.Fits) (hc : ∀ b, ((P.after K (side, op)).session b).Complete) :
    ∀ b, ((P.after K (side, op)).session b).PlainBehind .tx := by
  have hi := h.session side
  have hpeer := hc (!side)
  have hself := hc side
  rw [session_peer] at hpeer
  rw [session_self] at hself
  rcases hi.kinds_after (K := K) hp hfit with ⟨hin, hout⟩ | ⟨_, _, _, _, -, hd, -⟩ | hn |
    ⟨a, fate, got, wrote, -, -, hcomp, hout, -⟩
  · have hbefore : (P.session side).Complete := by rwa [Complete, hin] at hself
    refine both_sides side ?_ ?_
    · rw [session_self, PlainBehind, carried, outKinds_same hout]
      exact fun _ => h.plain (both_sides side hbefore hpeer) side hbefore
    · rw [session_peer]
      exact h.plain (both_sides side hbefore hpeer) _
  · have hplain := h.plain (both_sides side (hi.kinds.done hd) hpeer) (!side)
    have hheard := h.heard_after hp hg hfit side
    rw [session_self, session_peer] at hheard
    refine both_sides side ?_ ?_
    · rw [session_self]
      exact (unasked_of_heard hheard (hplain hpeer)).plain ((h.answers side).after hi hp hfit)
        (hi.after hp hfit)
    · rw [session_peer]
      exact hplain
  · exact absurd hself hn
  · cases side with
    | false =>
      -- the server has heard the client's Finished before the client wrote it
      exact absurd ((h.heard true).subset hpeer) (hi.kinds.client_quiet hcomp.fresh rfl)
    | true =>
      have hends := (hcomp.server rfl).1
      have hunasked : (P.session false).Unasked := by
        refine unasked_of_heard (h.heard false) ?_
        rw [Bool.not_false, hends.behind]
        exact fun k hk => absurd hk List.not_mem_nil
      refine both_sides true ?_ ?_
      · rw [session_self, PlainBehind, carried, (P.session true).outKinds_append hout]
        exact fun _ => hcomp.plain
      · rw [session_peer]
        exact hunasked.plain (h.answers false) (h.session false)

theorem Inv.after (h : P.Inv K T) {call : Bool × Op} (hp : P.permits K T call) :
    (P.after K call).Inv K T := by
  obtain ⟨side, op⟩ := call
  obtain ⟨hp, hg, hfew⟩ := hp
  have hfit := h.fits hg
  have hi := h.session side
  constructor
  · refine both_sides side ?_ ?_
    · rw [session_self]
      exact hi.after hp hfit
    · rw [session_peer]
      exact h.session _
  · refine both_sides side ?_ ?_
    · rw [session_self]
      exact (h.exact side).after hi hp hfit (h.timely hp hg)
    · rw [session_peer]
      exact h.exact _
  · refine both_sides side ?_ ?_
    · rw [session_self]
      exact h.prompt_after hp hg hfit
    · rw [session_peer]
      exact h.prompt _
  · exact h.channel_after hp hg hfit
  · exact h.heard_after hp hg hfit
  · refine both_sides side ?_ ?_
    · rw [session_self]
      exact hfew
    · rw [session_peer]
      exact h.few _
  · refine both_sides side ?_ ?_
    · rw [session_self]
      exact (h.answers side).after hi hp hfit
    · rw [session_peer]
      exact h.answers _
  · exact h.plain_after hp hg hfit

theorem inv_opened (K : Kdf) (T : Tls) : (opened T).Inv K T where
  session side := Session.inv_opened K (T.side side)
  exact side := exact_opened (T.side side)
  prompt _ hc := absurd hc List.not_mem_nil
  channel _ := rfl
  heard _ := List.nil_prefix
  few _ := Nat.zero_le _
  answers _ hc := absurd hc List.not_mem_nil
  plain hc := absurd (hc true) List.not_mem_nil

/-- No side writes as many records as its peer's table holds. -/
theorem Inv.not_overflowed (h : P.Inv K T) (side : Bool) :
    (P.session side).x.tx.overflowed = false ∧ (P.session side).x.rx.overflowed = false := by
  have hs := h.session side
  have htaken := tlsRecord.frames_length_mono hs.taken_wire
  have hin := tlsRecord.frames_length_mono (h.arrived_prefix side)
  rw [hs.accounts.frames_wire, List.length_map] at htaken
  rw [(h.session (!side)).accounts.frames_wire, List.length_map] at hin
  have hfew := h.few side
  have hfew' := h.few (!side)
  refine ⟨?_, ?_⟩
  · rw [hs.accounts.tx, Bool.eq_false_iff, ne_eq, overflowed_parsed]
    omega
  · rw [hs.accounts.rx, Bool.eq_false_iff, ne_eq, overflowed_parsed]
    omega

/-- Once the whole stream of `side` has arrived at its peer and was read, every record of it
was opened there. -/
theorem Inv.inbox_peer (h : P.Inv K T) {side : Bool} (hcoming : P.coming (!side) = [])
    (howed : (P.session side).owed = []) (hread : (P.session (!side)).unread = []) :
    (P.session (!side)).inbox = (P.session side).outKinds := by
  have hs := h.session side
  have hwire : (P.session side).taken = (P.session side).wire := by
    rw [hs.accounts.wire, howed, List.append_nil]
  have harrived : (P.session (!side)).arrived = (P.session side).wire := by
    have hch := h.channel (!side)
    rwa [hcoming, List.append_nil, Bool.not_not, hwire] at hch
  have hrest : tlsRecord.rest (P.session (!side)).arrived = [] := by
    rw [harrived]
    refine tlsRecord.rest_flatten _ fun f hf => ?_
    obtain ⟨r, hr, rfl⟩ := List.mem_map.mp hf
    exact hs.accounts.whole r hr
  have hlen := ((h.session (!side)).accounts.drained_iff hrest).mpr hread
  rw [harrived, hs.accounts.frames_wire, List.length_map] at hlen
  have hheard := h.heard (!side)
  rw [Bool.not_not] at hheard
  exact hheard.eq_of_length (by rw [hlen, length_outKinds])

/-- What one side sends with is, once everything has been delivered and read, byte for
byte what the other receives with, and it continues behind every record the sender
wrote after its Finished. -/
theorem handover_agrees {calls : List (Bool × Op)} {np np' : NullPending}
    (hrun : (Pair.machine K T).Run (opened T) calls P)
    (hdone : ∀ side, (P.session side).x.done = true) (hcoming : ∀ side, P.coming side = [])
    (hread : ∀ side, (P.session side).unread = []) (howed : ∀ side, (P.session side).owed = []) :
    ∀ side, ∃ b, (ktlsCryptoInfo np (P.session side).x .tx).1 = .ok b ∧
      (ktlsCryptoInfo np' (P.session (!side)).x .rx).1 = .ok b ∧
      b.drop (b.length - 8) = be64 (behindFinished (P.session side).outKinds).length := by
  intro side
  have h : P.Inv K T := hrun.invariant (fun _ _ hi hp => hi.after hp) (inv_opened K T)
  have hs := h.session side
  have hp := h.session (!side)
  have hkinds := h.inbox_peer (hcoming _) (howed side) (hread _)
  have hov := h.not_overflowed
  have htx : sequenceOf np (P.session side).x .tx =
      (behindFinished (P.session side).outKinds).length := by
    have hcount := hs.tx_sequence (hdone _) (hov side).1 (howed _) np
    have hsplit := length_behindFinished (hs.kinds.outbox (hs.kinds.done (hdone side)))
    rw [h.exact side (hdone _)] at hcount
    omega
  have hrx : sequenceOf np' (P.session (!side)).x .rx =
      (behindFinished (P.session side).outKinds).length := by
    rw [hp.rx_sequence (hdone _) (hov _).2, hkinds]
  have hcipher : (P.session (!side)).x.cipher = (P.session side).x.cipher := by
    rw [(hp.notes (hdone _)).cipher, (hs.notes (hdone _)).cipher]
    rfl
  have hwhich : whichOf (T.side (!side)).server .rx = whichOf (T.side side).server .tx :=
    (whichOf_peer side).symm
  refine ⟨_, hs.cryptoInfo_ok.mpr ⟨hdone _, howed _, (hov _).1, (hov _).2, rfl⟩,
    hp.cryptoInfo_ok.mpr ⟨hdone _, howed _, (hov _).1, (hov _).2, ?_⟩, ?_⟩
  · rw [hcipher, hwhich, htx, hrx]
    rfl
  · rw [htx]
    exact drop_bytes _ _

/-- `SSL_do_handshake` of a client that has written its hello. -/
def clientWaits : HandshakeAnswer where
  rc := -1
  error := .wantRead
  input := []
  output := helloRecord

/-- A whole connection: the client's last flight arrives in two pieces, and two tickets
follow the server's Finished. -/
def sampleCalls : List (Bool × Op) :=
  [(false, .step clientWaits {} [] [⟨.handshake, helloRecord⟩]),
   (false, .take 1000),
   (true, .feed helloRecord 95),
   (true, .step serverWaits {} [.handshake]
     [⟨.handshake, helloRecord⟩, ⟨.finished, sealedRecord 53⟩]),
   (true, .take 1000),
   (false, .feed (helloRecord ++ sealedRecord 53) 153),
   (false, .step (sampleDone false (sealedRecord 53)) {} [.handshake, .finished]
     [⟨.finished, sealedRecord 53⟩]),
   (false, .take 20),
   (true, .feed ((sealedRecord 53).take 20) 20),
   (false, .take 1000),
   (true, .feed ((sealedRecord 53).drop 20) 38),
   (true, .step (sampleDone true (sealedRecord 80 ++ sealedRecord 80)) {} [.finished]
     [⟨.ticket, sealedRecord 80⟩, ⟨.ticket, sealedRecord 80⟩]),
   (true, .take 1000),
   (false, .feed (sealedRecord 80 ++ sealedRecord 80) 170),
   (false, .backlog 100 wantsMore [.ticket, .ticket] [])]

def samplePair : Pair := sampleCalls.foldl (after sampleKdf) (opened (sampleTls true))

theorem handover_agrees_sample :
    ∃ b, (ktlsCryptoInfo .zero (samplePair.session true).x .tx).1 = .ok b ∧
      (ktlsCryptoInfo .minusOne (samplePair.session false).x .rx).1 = .ok b ∧
      b.drop (b.length - 8) = be64 (behindFinished (samplePair.session true).outKinds).length := by
  have hrun : (Pair.machine sampleKdf (sampleTls true)).Run (opened (sampleTls true)) sampleCalls
      samplePair := Machine.Run.of_check (by decide +kernel)
  exact handover_agrees hrun (by decide +kernel) (by decide +kernel) (by decide +kernel)
    (by decide +kernel) true

end Pair

end Ktls
