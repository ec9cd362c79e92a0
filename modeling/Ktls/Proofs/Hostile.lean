import Ktls.Proofs.Seals
import Ktls.Spec.Hostile

/-! Whatever the network does with the records, a side hears what the other has said, from the
first word on and in order. -/

namespace Ktls

variable {A : Aead} {K : Kdf} {c : ℕ} {s : Bytes}

theorem Installed.opening {st : Standing} {sock : KernelSocket}
    (h : Installed K c s st sock.tcp.rx sock.read) : sock.opening = some (sealedAt K c s st) := by
  obtain ⟨k, hk, htype, hkey, hnonce⟩ := h.kernelKey rfl
  rw [KernelSocket.opening, hk, Option.map_some, htype, hkey, hnonce]
  rfl

/-- A kernel opens what it can, and stays where it was with what it cannot. -/
theorem Installed.recv {st : Standing} {sock : KernelSocket}
    (h : Installed K c s st sock.tcp.rx sock.read) (r : Bytes) :
    (sock.recv A r).1 = A.unwrap (sealedAt K c s st).cipherType (sealedAt K c s st).key
        (sealedAt K c s st).nonce r ∧
      ((sock.recv A r).1 = none → (sock.recv A r).2 = sock) := by
  obtain ⟨k, hk, htype, hkey, hnonce⟩ := h.kernelKey rfl
  have hkey' : (⟨k.cipherType, k.key, k.nonce (k.seq + sock.read)⟩ : Sealing) =
      sealedAt K c s st := by
    rw [htype, hkey, hnonce]
    rfl
  rw [← hkey', KernelSocket.recv]
  simp only [hk]
  cases hopen : A.unwrap k.cipherType k.key (k.nonce (k.seq + sock.read)) r with
  | none => exact ⟨rfl, fun _ => rfl⟩
  | some m => exact ⟨rfl, fun hm => absurd hm (Option.some_ne_none m)⟩

theorem recordLayer_unwrap {st : Standing} {r : Bytes} {m : Message}
    (h : A.unwrap (sealedAt K c s st).cipherType (sealedAt K c s st).key
      (sealedAt K c s st).nonce r = some (m.kind.byte, m.payload)) :
    (recordLayer A K c s).unwrap st r = some m := by
  refine Option.bind_eq_some_iff.mpr ⟨_, h, ?_⟩
  simp only [ktlsRecordOf_byte m.spelled, Message.of?, dif_pos m.spelled]

theorem Standing.generation_le {st st' : Standing} (h : st ≤ st') :
    st.generation ≤ st'.generation :=
  Prod.Lex.monotone_fst _ _ h

namespace Message

/-- How messages move a direction on. -/
def track : Ratchet Standing Message Message := .plain fun st m => st.advance m.recordKind

theorem moves (m : Message) : m.recordKind.Moves := by
  rw [recordKind]
  cases m.kind with
  | handshake | alert | data | unknown => trivial

theorem lt_step (m : Message) (st : Standing) : st < track.step st m :=
  Standing.lt_advance m.moves st

theorem le_standing (st : Standing) (ms : List Message) : st ≤ standing st ms :=
  track.le_keyAfter fun m _ => m.lt_step

theorem standing_le {st : Standing} {ms ns : List Message} (h : ms <+: ns) :
    standing st ms ≤ standing st ns := by
  obtain ⟨rest, rfl⟩ := h
  exact (le_standing _ rest).trans_eq (track.keyAfter_append st ms rest).symm

theorem sequence_step_le (m : Message) (st : Standing) :
    (track.step st m).sequence ≤ st.sequence + 1 := by
  change (st.advance m.recordKind).sequence ≤ _
  cases howes : m.owes with
  | false => rw [advance_plain howes]
  | true =>
    rw [advance_update howes]
    exact Nat.zero_le _

theorem sequence_standing_le (st : Standing) (ms : List Message) :
    (standing st ms).sequence ≤ st.sequence + ms.length := by
  induction ms generalizing st with
  | nil => exact le_rfl
  | cons m ms ih =>
    have hstep := m.sequence_step_le st
    have hrest := ih (track.step st m)
    rw [List.length_cons]
    change (standing (track.step st m) ms).sequence ≤ _
    omega

/-- A record is sealed below where its sender has got to, and not before it began. -/
theorem bounds_of_places {st : Standing} {ms : List Message} {p : Standing × Message}
    (h : p ∈ track.places st ms) :
    p.1.generation ≤ (standing st ms).generation ∧ p.1.sequence ≤ st.sequence + ms.length := by
  refine ⟨Standing.generation_le (track.lt_keyAfter_of_mem (fun m _ => m.lt_step)
    (track.mem_keysUsed_of_places h)).le, ?_⟩
  induction ms generalizing st with
  | nil => exact absurd h List.not_mem_nil
  | cons m ms ih =>
    rw [List.length_cons]
    rcases List.mem_cons.mp h with rfl | h
    · exact Nat.le_add_right _ _
    · have hstep := m.sequence_step_le st
      have hrest := ih h
      omega

end Message

variable {shared : Fin 2 → Bytes} {start : Bool → Standing}

namespace Traffic

variable {P P' : Traffic}

theorem sent_after (P : Traffic) (call : Bool × TrafficOp) (b : Bool) :
    P.sent b <+: (P.after A K call).sent b := by
  obtain ⟨side, op⟩ := call
  cases op with
  | send m =>
    rw [Traffic.after]
    rcases (P.conn side).sendRecord A m.kind m.payload with ⟨_ | r, C⟩
    · exact List.prefix_rfl
    · by_cases hb : b = side
      · subst hb
        simp only [Function.update_self]
        exact List.prefix_append _ _
      · simp only [Function.update_of_ne hb]
        exact List.prefix_rfl
  | turn np fate accepts => exact List.prefix_rfl
  | receive np fate accepts =>
    rw [Traffic.after]
    cases P.wire side with
    | nil => exact List.prefix_rfl
    | cons r rs =>
      simp only
      rcases (P.conn side).recvRecord A K np r fate accepts with ⟨_ | m, C⟩
      · exact List.prefix_rfl
      · exact List.prefix_rfl
  | release => exact List.prefix_rfl

/-- A place that a direction may have come to. -/
def Within (P : Traffic) (start : Bool → Standing) (b : Bool) (st : Standing) : Prop :=
  st.generation ≤ (P.reached start b).generation ∧ st.sequence < 2 ^ 64

/-- Within these bounds every place has a sealing of its own. -/
theorem Fresh.sealedAt_inj (h : P.Fresh K c shared start) {b b' : Bool} {st st' : Standing}
    (hst : P.Within start b st) (hst' : P.Within start b' st')
    (heq : sealedAt K c (shared (whichOf b .tx)) st =
      sealedAt K c (shared (whichOf b' .tx)) st') : b = b' ∧ st = st' := by
  obtain ⟨rfl, hgen⟩ := h.keys b b' _ _ hst.1 hst'.1 (congrArg Sealing.key heq)
  obtain ⟨g, n⟩ := st
  obtain ⟨g', n'⟩ := st'
  obtain rfl : g = g' := hgen
  have hnonce := congrArg Sealing.nonce heq
  have hn : n = n' := recordNonce_inj (K.length_expand _ _ _) hst.2 hst'.2 hnonce
  rw [hn]
  exact ⟨rfl, rfl⟩

theorem Fresh.within_places (h : P.Fresh K c shared start) {b : Bool} {p : Standing × Message}
    (hp : p ∈ Message.track.places (start b) (P.sent b)) : P.Within start b p.1 :=
  have hbounds := Message.bounds_of_places hp
  ⟨hbounds.1, hbounds.2.trans_lt (h.numbers b)⟩

theorem Fresh.within_heard (h : P.Fresh K c shared start) {b : Bool} {ms : List Message}
    (hms : ms <+: P.sent b) : P.Within start b (Message.standing (start b) ms) := by
  refine ⟨Standing.generation_le (Message.standing_le hms), ?_⟩
  have hseq := Message.sequence_standing_le (start b) ms
  have hlen := hms.length_le
  have hlt := h.numbers b
  omega

theorem Fresh.mono (h : P'.Fresh K c shared start) (hsent : ∀ b, P.sent b <+: P'.sent b) :
    P.Fresh K c shared start := by
  have hgen (b : Bool) : (P.reached start b).generation ≤ (P'.reached start b).generation :=
    Standing.generation_le (Message.standing_le (hsent b))
  refine ⟨fun b b' g g' hg hg' => h.keys b b' g g' (hg.trans (hgen b)) (hg'.trans (hgen b')),
    fun b => ?_⟩
  exact (Nat.add_le_add_left (hsent b).length_le _).trans_lt (h.numbers b)

end Traffic

/-- What was sealed before the kernels took over is of no use now: under a key that comes up it
stands below where its direction began. -/
structure Traffic.Ideal (K : Kdf) (c : ℕ) (shared : Fin 2 → Bytes) (start : Bool → Standing)
    (before : List SealedRecord) (P : Traffic) : Prop where
  fresh : P.Fresh K c shared start
  earlier : ∀ e ∈ before, ∀ b st, P.Within start b st →
    e.sealing = sealedAt K c (shared (whichOf b .tx)) st → st < start b

theorem Traffic.Ideal.mono {before : List SealedRecord} {P P' : Traffic}
    (h : P'.Ideal K c shared start before) (hsent : ∀ b, P.sent b <+: P'.sent b) :
    P.Ideal K c shared start before := by
  refine ⟨h.fresh.mono hsent, fun e he b st hst => h.earlier e he b st ⟨?_, hst.2⟩⟩
  exact hst.1.trans (Standing.generation_le (Message.standing_le (hsent b)))

namespace Hostile

variable {before : List SealedRecord} {H H' : Hostile} {side : Bool}

/-- What the kernel of `b` seals for a message. -/
def sealedFor (K : Kdf) (c : ℕ) (shared : Fin 2 → Bytes) (b : Bool) (p : Standing × Message) :
    SealedRecord :=
  ⟨sealedAt K c (shared (whichOf b .tx)) p.1, p.2.kind.byte, p.2.payload⟩

/-- A record that one of the kernels sealed. -/
def SealedBy (K : Kdf) (c : ℕ) (shared : Fin 2 → Bytes) (start : Bool → Standing) (P : Traffic)
    (e : SealedRecord) : Prop :=
  ∃ b, ∃ p ∈ Message.track.places (start b) (P.sent b), e = sealedFor K c shared b p

theorem sealedBy_concat {P P' : Traffic} {m : Message}
    (h : P'.sent = Function.update P.sent side (P.sent side ++ [m])) (e : SealedRecord) :
    SealedBy K c shared start P' e ↔ SealedBy K c shared start P e ∨
      e = sealedFor K c shared side (P.reached start side, m) := by
  constructor
  · rintro ⟨b, p, hp, he⟩
    rw [h] at hp
    by_cases hb : b = side
    · subst hb
      rw [Function.update_self, Ratchet.places_concat] at hp
      rcases List.mem_append.mp hp with hp | hp
      · exact .inl ⟨b, p, hp, he⟩
      · rw [List.mem_singleton.mp hp] at he
        exact .inr he
    · rw [Function.update_of_ne hb] at hp
      exact .inl ⟨b, p, hp, he⟩
  · rintro (⟨b, p, hp, he⟩ | he)
    · refine ⟨b, p, ?_, he⟩
      rw [h]
      by_cases hb : b = side
      · subst hb
        rw [Function.update_self, Ratchet.places_concat]
        exact List.mem_append_left _ hp
      · rw [Function.update_of_ne hb]
        exact hp
    · refine ⟨side, _, ?_, he⟩
      rw [h, Function.update_self, Ratchet.places_concat]
      exact List.mem_append_right _ (List.mem_singleton_self _)

structure Inv (K : Kdf) (c : ℕ) (shared : Fin 2 → Bytes) (start : Bool → Standing)
    (before : List SealedRecord) (H : Hostile) : Prop where
  keyed : H.traffic.InKeys K c shared start
  sealed : ∀ e, e ∈ H.sealed ↔ e ∈ before ∨ SealedBy K c shared start H.traffic e
  heard : ∀ b, H.traffic.got (!b) <+: H.traffic.sent b

theorem Inv.send (h : Inv K c shared start before H) {m : Message}
    (hp : H.traffic.permits K (side, .send m)) :
    Inv K c shared start before (H.after A K (side, .call (.send m))) := by
  have hclear : H.traffic.owing side .tx = false := hp
  have hseals : H.seals side (.send m) =
      [sealedFor K c shared side (H.traffic.reached start side, m)] := by
    have hi := ((h.keyed side).installed .tx hclear).sealing
    rw [seals, hi]
    rfl
  obtain ⟨⟨C, hafter⟩, hkeyed⟩ := h.keyed.send (A := A) (m := m) hp
  refine ⟨hkeyed, fun e => ?_, fun b => ?_⟩
  · have hsent := congrArg Traffic.sent hafter
    change e ∈ H.sealed ++ H.seals side (.send m) ↔ e ∈ before ∨
      SealedBy K c shared start (H.traffic.after A K (side, .send m)) e
    rw [List.mem_append, hseals, List.mem_singleton, h.sealed, sealedBy_concat hsent, or_assoc]
  · have hgot : (H.traffic.after A K (side, .send m)).got = H.traffic.got := by rw [hafter]
    change (H.traffic.after A K (side, .send m)).got (!b) <+: _
    rw [hgot]
    exact (h.heard b).trans (H.traffic.sent_after (K := K) (side, .send m) b)

/-- The record that is opened is the one that was said next. -/
theorem Inv.opens (h : Inv K c shared start before H)
    (hideal : H.traffic.Ideal K c shared start before) {e : SealedRecord} (he : e ∈ H.sealed)
    (hplace : e.sealing =
      sealedAt K c (shared (whichOf side .rx)) (H.traffic.standings start side .rx)) :
    ∃ m : Message, e.type = m.kind.byte ∧ e.payload = m.payload ∧
      H.traffic.got side ++ [m] <+: H.traffic.sent (!side) := by
  have hheard := h.heard (!side)
  rw [Bool.not_not] at hheard
  have hwithin := hideal.fresh.within_heard hheard
  have hpeer : whichOf side .rx = whichOf (!side) .tx := by rw [whichOf_peer, Bool.not_not]
  rw [hpeer] at hplace
  rcases (h.sealed e).mp he with hbefore | ⟨b, ⟨st, m⟩, hp, rfl⟩
  · -- the kernels took over behind it
    have hlt := hideal.earlier e hbefore (!side) _ hwithin hplace
    exact absurd (hlt.trans_le (Message.le_standing _ _)) (lt_irrefl _)
  · obtain ⟨rfl, rfl⟩ := hideal.fresh.sealedAt_inj (hideal.fresh.within_places hp) hwithin hplace
    exact ⟨m, rfl, rfl, Message.track.prefix_concat (fun m _ => m.lt_step) hheard hp⟩

theorem Inv.unsealed (h : Inv K c shared start before H) {op : TrafficOp} {P : Traffic}
    (hafter : H.traffic.after A K (side, op) = P) (hseals : H.seals side op = [])
    (hkeyed : P.InKeys K c shared start) (hsent : P.sent = H.traffic.sent)
    (hheard : ∀ b, P.got (!b) <+: H.traffic.sent b) :
    Inv K c shared start before (H.after A K (side, .call op)) := by
  have heq : H.after A K (side, .call op) = ⟨P, H.sealed⟩ := by
    rw [Hostile.after, hafter, hseals, List.append_nil]
  rw [heq]
  refine ⟨hkeyed, fun e => ?_, fun b => ?_⟩
  · rw [SealedBy, hsent]
    exact h.sealed e
  · rw [hsent]
    exact hheard b

theorem refused {P : Traffic} {r : Bytes} {rs : List Bytes} (hw : P.wire side = r :: rs)
    (hnone : ((P.conn side).sock.recv A r).1 = none)
    (hsame : ((P.conn side).sock.recv A r).2 = (P.conn side).sock) (np : NullPending)
    (fate : NextKeyFate) (accepts : Bool) : P.after A K (side, .receive np fate accepts) =
      { P with failed := Function.update P.failed side true } := by
  have hrecv : (P.conn side).recvRecord A K np r fate accepts = (none, P.conn side) := by
    rw [Served.recvRecord]
    generalize (P.conn side).sock.recv A r = res at hnone hsame
    obtain ⟨res, sock⟩ := res
    subst hnone hsame
    rfl
  simp only [Traffic.after, hw, hrecv, Function.update_eq_self]

theorem Inv.receive (h : Inv K c shared start before H)
    (hideal : H.traffic.Ideal K c shared start before) {np : NullPending} {fate : NextKeyFate}
    {accepts : Bool} (hp : H.permits A K (side, .call (.receive np fate accepts))) :
    Inv K c shared start before (H.after A K (side, .call (.receive np fate accepts))) := by
  obtain ⟨hp, hauth⟩ := hp
  cases hw : H.traffic.wire side with
  | nil =>
    have hafter : H.traffic.after A K (side, .receive np fate accepts) = H.traffic := by
      simp only [Traffic.after, hw]
    exact h.unsealed hafter rfl h.keyed rfl h.heard
  | cons r rs =>
    have hi := (h.keyed side).installed .rx rfl
    obtain ⟨hopen, hstay⟩ := hi.recv (A := A) r
    cases hres : ((H.traffic.conn side).sock.recv A r).1 with
    | none =>
      exact h.unsealed (refused hw hres (hstay hres) np fate accepts) rfl h.keyed rfl h.heard
    | some tp =>
      have hmem : ⟨sealedAt K c (shared (whichOf side .rx)) (H.traffic.standings start side .rx),
          tp.1, tp.2⟩ ∈ H.sealed := by
        refine hauth r ?_ tp hres _ hi.opening
        rw [hw]
        rfl
      obtain ⟨m, htype, hpayload, hnext⟩ := h.opens hideal hmem rfl
      have hm : (recordLayer A K c (shared (whichOf side .rx))).unwrap
          (H.traffic.standings start side .rx) r = some m := by
        refine recordLayer_unwrap ?_
        rw [← hopen, hres, ← htype, ← hpayload]
      obtain ⟨⟨C, hafter⟩, hkeyed⟩ := h.keyed.receive hw hm hp
      refine h.unsealed hafter rfl (hafter ▸ hkeyed) rfl ?_
      refine Pair.both_sides (!side) ?_ ?_
      · rw [Bool.not_not]
        simp only [Function.update_self]
        exact hnext
      · have hheard := h.heard side
        simp only [Bool.not_not, Function.update_of_ne (Bool.not_ne_self side)]
        exact hheard

theorem Inv.after (h : Inv K c shared start before H)
    (hideal : H.traffic.Ideal K c shared start before) {call : Bool × HostileOp}
    (hp : H.permits A K call) : Inv K c shared start before (H.after A K call) := by
  obtain ⟨side, op⟩ := call
  cases op with
  | call op =>
    cases op with
    | send m => exact h.send hp
    | turn np fate accepts => exact h.unsealed rfl rfl (h.keyed.turn (A := A) hp) rfl h.heard
    | receive np fate accepts => exact h.receive hideal hp
    | release => exact h.unsealed rfl rfl (h.keyed.release (A := A)) rfl h.heard
  | tamper records => exact ⟨h.keyed, h.sealed, h.heard⟩

theorem sent_after (H : Hostile) (call : Bool × HostileOp) (b : Bool) :
    H.traffic.sent b <+: (H.after A K call).traffic.sent b := by
  obtain ⟨side, op⟩ := call
  cases op with
  | call op => exact H.traffic.sent_after (side, op) b
  | tamper records => exact List.prefix_rfl

theorem Inv.run (h : Inv K c shared start before H) {ops : List (Bool × HostileOp)}
    (hrun : (machine A K).Run H ops H') (hideal : H'.traffic.Ideal K c shared start before) :
    Inv K c shared start before H' := by
  refine hrun.invariant (P := fun H => H.traffic.Ideal K c shared start before →
    Inv K c shared start before H) ?_ (fun _ => h) hideal
  intro H call hi hp hideal
  have hideal' := hideal.mono (H.sent_after (A := A) (K := K) call)
  exact (hi hideal').after hideal' hp

end Hostile

namespace Pair

variable {T : Tls} {P : Pair}

variable {np : Bool → NullPending} {fate : Bool → OffloadFate} {x : Bool → KtlsExchange}
  {sock : Bool → TcpSocket}

end Pair

end Ktls
