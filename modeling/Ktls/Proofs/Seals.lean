import Ktls.Proofs.Delivery
import Ktls.Spec.Seals

/-! The SSL and the kernel behind it seal every record at a place of its own, as long as a key
is turned by calls that succeed. -/

namespace Ktls

variable {A : Aead} {K : Kdf} {c q n : ℕ} {s : Bytes} {server : Bool} {x : KtlsExchange}

theorem zipWith_xor_inj {iv a b : Bytes} (ha : a.length = iv.length) (hb : b.length = iv.length)
    (h : List.zipWith (· ^^^ ·) iv a = List.zipWith (· ^^^ ·) iv b) : a = b := by
  induction iv generalizing a b with
  | nil => rw [List.length_eq_zero_iff.mp ha, List.length_eq_zero_iff.mp hb]
  | cons c iv ih =>
    obtain ⟨x, a, rfl⟩ := List.exists_cons_of_length_eq_add_one ha
    obtain ⟨y, b, rfl⟩ := List.exists_cons_of_length_eq_add_one hb
    obtain ⟨hxy, hab⟩ := List.cons.inj h
    rw [UInt8.xor_right_inj] at hxy
    rw [hxy, ih (Nat.succ.inj ha) (Nat.succ.inj hb) hab]

theorem recordNonce_inj {iv : Bytes} (hiv : iv.length = 12) {a b : ℕ} (ha : a < 2 ^ 64)
    (hb : b < 2 ^ 64) (h : recordNonce iv a = recordNonce iv b) : a = b := by
  have hlen (n : ℕ) : (List.replicate (iv.length - 8) 0 ++ be64 n).length = iv.length := by
    rw [List.length_append, List.length_replicate, length_be64, hiv]
  have hbe := List.append_cancel_left (zipWith_xor_inj (hlen a) (hlen b) h)
  rw [← readBE_be64 ha, hbe, readBE_be64 hb]

/-- What an exchange sends with, behind `n` turns of a direction whose first secret is `s` and
which was handed over at record `q`. -/
structure Sending (K : Kdf) (server : Bool) (c : ℕ) (s : Bytes) (q n : ℕ) (x : KtlsExchange) :
    Prop where
  ready : ∀ np, Ready np x
  server_eq : x.server = server
  cipher : x.cipher = c
  fits : ∀ i, x.secretLen i ≤ (x.secret i).length
  held : x.heldSecret (whichOf server .tx) = secretAfter K s n
  rekeyed : x.rekeyed (whichOf server .tx) = decide (0 < n)
  counted : ktlsRecordsBetween x.tx x.txAtDone x.tx.offset = q
  lt : q < 2 ^ 64
  info : ∃ p, x.info (whichOf server .tx) = (layout K c (secretAfter K s n)).withSeq p

namespace Sending

theorem release (h : Sending K server c s q n x) :
    Sending K server c s q n (ktlsExchangeRelease x) where
  ready np := ⟨(h.ready np).1, pendingOut_release np x, (h.ready np).2.2⟩
  server_eq := h.server_eq
  cipher := h.cipher
  fits := h.fits
  held := h.held
  rekeyed := h.rekeyed
  counted := h.counted
  lt := h.lt
  info := h.info

theorem ask (h : Sending K server c s q n x) (np : NullPending) (dir : KtlsDirection) :
    Sending K server c s q n (ktlsCryptoInfo np x dir).2 := by
  obtain ⟨r, hr⟩ := ktlsCryptoInfo_frame np x dir
  obtain ⟨p, hp⟩ := h.info
  rw [hr]
  refine ⟨h.ready, h.server_eq, h.cipher, h.fits, h.held, h.rekeyed, h.counted, h.lt,
    r (whichOf server .tx), ?_⟩
  simp only [hp, KtlsInfo.withSeq_withSeq]

theorem other (h : Sending K server c s q n x) (fate : NextKeyFate) :
    Sending K server c s q n (ktlsNextKey K x .rx fate).2 := by
  have hserver := h.server_eq
  subst hserver
  have htx : KtlsDirection.tx ≠ .rx := by decide
  have hne : whichOf x.server .tx ≠ whichOf x.server .rx := whichOf_ne htx _
  have hheld := (ktlsNextKey_other (K := K) (x := x) htx fate .zero).1
  have hfits (i : Fin 2) : (ktlsNextKey K x .rx fate).2.secretLen i ≤
      ((ktlsNextKey K x .rx fate).2.secret i).length := fits_nextKey h.fits i
  obtain ⟨sec, rek, key, iv, info, hframe, hkeep, -⟩ := ktlsNextKey_frame K x .rx fate
  obtain ⟨-, hrek, hinfo⟩ := hkeep _ hne
  rw [hframe] at hheld hfits ⊢
  exact ⟨h.ready, rfl, h.cipher, hfits, hheld.trans h.held, hrek.trans h.rekeyed, h.counted,
    h.lt, h.info.imp fun _ hp => hinfo.trans hp⟩

theorem nextKey (h : Sending K server c s q n x) {fate : NextKeyFate}
    (hok : (ktlsNextKey K x .tx fate).1 = .ok ()) :
    Sending K server c s q (n + 1) (ktlsNextKey K x .tx fate).2 := by
  have hserver := h.server_eq
  subst hserver
  obtain ⟨hheld, hrek, hinfo⟩ := ktlsNextKey_ok h.fits hok
  have hfits (i : Fin 2) : (ktlsNextKey K x .tx fate).2.secretLen i ≤
      ((ktlsNextKey K x .tx fate).2.secret i).length := fits_nextKey h.fits i
  obtain ⟨sec, rek, key, iv, info, hframe, -, -⟩ := ktlsNextKey_frame K x .tx fate
  rw [h.held, ← secretAfter_succ] at hheld hinfo
  rw [h.cipher] at hinfo
  rw [hframe] at hheld hrek hinfo hfits ⊢
  exact ⟨h.ready, rfl, h.cipher, hfits, hheld, hrek, h.counted, h.lt, _, hinfo⟩

theorem sequence (h : Sending K server c s q n x) (np : NullPending) :
    sequenceOf np x .tx = if n = 0 then q else 0 := by
  unfold sequenceOf
  rw [h.server_eq, h.rekeyed]
  by_cases hn : n = 0
  · rw [if_pos hn, if_neg (by simp [hn])]
    exact h.counted
  · rw [if_neg hn, if_pos (decide_eq_true (Nat.pos_of_ne_zero hn))]

theorem answers (h : Sending K server c s q n x) (np : NullPending) :
    (ktlsCryptoInfo np x .tx).1 = .ok (blob K c (secretAfter K s n) (if n = 0 then q else 0)) := by
  obtain ⟨hd, howed, htx, hrx⟩ := h.ready np
  obtain ⟨p, hp⟩ := h.info
  refine ktlsCryptoInfo_ok.mpr ⟨hd, howed, htx, hrx, ?_⟩
  rw [h.sequence, h.server_eq, hp, KtlsInfo.withSeq_withSeq, blob]

/-- An update that fails leaves the blob at the key it had, and at record 0 where the failure
came late. -/
theorem failed (h : Sending K server c s q n x) {fate : NextKeyFate}
    (hfail : (ktlsNextKey K x .tx fate).1 ≠ .ok ()) (np : NullPending) :
    ∃ p, (ktlsCryptoInfo np (ktlsNextKey K x .tx fate).2 .tx).1 =
        .ok (blob K c (secretAfter K s n) p) ∧ (p = (if n = 0 then q else 0) ∨ p = 0) := by
  obtain ⟨hd, howed, htx, hrx⟩ := h.ready np
  rcases ktlsNextKey_failed hd hfail with ⟨-, hsame⟩ | ⟨-, z, hz, hlate, hafter⟩
  · rw [hsame]
    exact ⟨_, h.answers np, .inl rfl⟩
  obtain ⟨r, hr⟩ := h.info
  have hrek : z.rekeyed (whichOf x.server .tx) = true := by
    rw [hz]
    exact Function.update_self ..
  have hseq (key : Fin 2 → Bytes) : sequenceOf np { z with key := key } .tx = 0 := by
    refine if_pos ?_
    change z.rekeyed (whichOf z.server .tx) = true
    rw [hz] at hrek ⊢
    exact hrek
  have hinfo : z.info (whichOf z.server .tx) = (layout K c (secretAfter K s n)).withSeq r := by
    rw [hz]
    change x.info (whichOf x.server .tx) = _
    rw [h.server_eq, hr]
  have hanswer (key : Fin 2 → Bytes) : (ktlsCryptoInfo np { z with key := key } .tx).1 =
      .ok (blob K c (secretAfter K s n) 0) := by
    refine ktlsCryptoInfo_ok.mpr ⟨?_, ?_, ?_, ?_, ?_⟩
    · rw [hz]
      exact hd
    · rw [hz]
      exact howed
    · rw [hz]
      exact htx
    · rw [hz]
      exact hrx
    · rw [hseq]
      change _ = ((z.info (whichOf z.server .tx)).withSeq (be64 0)).bytes
      rw [hinfo, KtlsInfo.withSeq_withSeq, blob]
  refine ⟨0, ?_, .inr rfl⟩
  rw [hafter, ktlsFill_failed hlate]
  split_ifs
  · exact hanswer _
  · exact hanswer z.key

end Sending

/-- What a turn of the key of `dir` does to what the kernel sends with. -/
theorem Served.turnKey_rx {C : Served} (np : NullPending) (fate : NextKeyFate) (accepts : Bool)
    (hulp : C.sock.tcp.ulp = true) :
    (C.turnKey K np .rx fate accepts).x =
        (ktlsCryptoInfo np (ktlsNextKey K C.x .rx fate).2 .rx).2 ∧
      (C.turnKey K np .rx fate accepts).sock.tcp.ulp = true ∧
      (C.turnKey K np .rx fate accepts).sock.tcp.tx = C.sock.tcp.tx ∧
      (C.turnKey K np .rx fate accepts).sock.wrote = C.sock.wrote := by
  rw [Served.turnKey]
  rcases ktlsCryptoInfo np (ktlsNextKey K C.x .rx fate).2 .rx with ⟨e | b, x'⟩
  · exact ⟨rfl, hulp, rfl, rfl⟩
  cases accepts with
  | false => exact ⟨rfl, hulp, rfl, rfl⟩
  | true =>
    obtain ⟨sock', hsock, hulp', -, -, hother⟩ := KernelSocket.setsockopt_key hulp .rx b
    obtain ⟨htx, hwrote⟩ := hother .tx (by decide)
    simp only [hsock]
    exact ⟨trivial, hulp', htx, hwrote⟩

theorem Served.turnKey_tx {C : Served} {np : NullPending} {fate : NextKeyFate}
    (hulp : C.sock.tcp.ulp = true) {b : Bytes}
    (hb : (ktlsCryptoInfo np (ktlsNextKey K C.x .tx fate).2 .tx).1 = .ok b) (accepts : Bool) :
    (C.turnKey K np .tx fate accepts).x =
        (ktlsCryptoInfo np (ktlsNextKey K C.x .tx fate).2 .tx).2 ∧
      (C.turnKey K np .tx fate accepts).sock.tcp.ulp = true ∧
      (C.turnKey K np .tx fate accepts).sock.tcp.tx =
        (if accepts then some b else C.sock.tcp.tx) ∧
      (C.turnKey K np .tx fate accepts).sock.wrote = (if accepts then 0 else C.sock.wrote) := by
  rw [Served.turnKey]
  generalize ktlsCryptoInfo np (ktlsNextKey K C.x .tx fate).2 .tx = r at hb
  obtain ⟨res, x'⟩ := r
  obtain rfl : res = .ok b := hb
  cases accepts with
  | false => exact ⟨rfl, hulp, rfl, rfl⟩
  | true =>
    obtain ⟨sock', hsock, hulp', htx, hwrote, -⟩ := KernelSocket.setsockopt_key hulp .tx b
    simp only [hsock, if_true]
    exact ⟨trivial, hulp', htx, hwrote⟩

theorem Installed.sealing {st : Standing} {sock : KernelSocket}
    (h : Installed K c s st sock.tcp.tx sock.wrote) : sock.sealing = some (sealedAt K c s st) := by
  obtain ⟨k, hk, htype, hkey, hnonce⟩ := h.kernelKey rfl
  rw [KernelSocket.sealing, hk, Option.map_some, htype, hkey, hnonce]
  rfl

theorem Served.recvRecord_tx {C : Served} (record : Bytes) (np : NullPending)
    (fate : NextKeyFate) (accepts : Bool) (hulp : C.sock.tcp.ulp = true) {C' : Served}
    (hC' : C' = (C.recvRecord A K np record fate accepts).2) :
    (C'.x = C.x ∨ C'.x = (ktlsCryptoInfo np (ktlsNextKey K C.x .rx fate).2 .rx).2) ∧
      C'.sock.tcp.ulp = true ∧ C'.sock.tcp.tx = C.sock.tcp.tx ∧
      C'.sock.wrote = C.sock.wrote := by
  subst hC'
  have hrecv : (C.sock.recv A record).2.tcp = C.sock.tcp ∧
      (C.sock.recv A record).2.wrote = C.sock.wrote := by
    rw [KernelSocket.recv]
    cases C.sock.tcp.rx.bind kernelKey with
    | none => exact ⟨rfl, rfl⟩
    | some k =>
      simp only
      cases A.unwrap k.cipherType k.key (k.nonce (k.seq + C.sock.read)) record with
      | none => exact ⟨rfl, rfl⟩
      | some m => exact ⟨rfl, rfl⟩
  rw [Served.recvRecord]
  generalize C.sock.recv A record = r at hrecv
  obtain ⟨_ | ⟨type, payload⟩, sock⟩ := r <;> obtain ⟨htcp, hwrote⟩ := hrecv
  · exact ⟨.inl rfl, (congrArg TcpSocket.ulp htcp).trans hulp, congrArg TcpSocket.tx htcp, hwrote⟩
  simp only
  have hulp' : sock.tcp.ulp = true := (congrArg TcpSocket.ulp htcp).trans hulp
  obtain ⟨hx, hulp'', htx, hcount⟩ := Served.turnKey_rx (K := K) (C := { C with sock := sock }) np
    fate accepts hulp'
  split
  · exact ⟨.inr hx, hulp'', htx.trans (congrArg TcpSocket.tx htcp), hcount.trans hwrote⟩
  · exact ⟨.inl rfl, hulp', congrArg TcpSocket.tx htcp, hwrote⟩

namespace Sender

/-- The side has sealed at `ps`, behind the records that stood at `before`, and is at `st`. -/
structure Sealed (K : Kdf) (server : Bool) (c : ℕ) (s : Bytes) (q : ℕ) (before : List Standing)
    (S : Sender) (n : ℕ) (ps : List Standing) (st : Standing) : Prop where
  sending : Sending K server c s q n S.conn.x
  ulp : S.conn.sock.tcp.ulp = true
  installed : Installed K c s st S.conn.sock.tcp.tx S.conn.sock.wrote
  le : st.generation ≤ n
  seals : S.seals = ps.map (sealedAt K c s)
  fresh : (before ++ ps ++ [st]).Pairwise (· < ·)
  bound : ∀ t ∈ before ++ ps ++ [st], t.sequence ≤ 64 + ps.length
  recent : ∀ i, st.sequence - S.conn.sock.wrote ≤ i → i < st.sequence → ⟨st.generation, i⟩ ∈ ps

def Inv (K : Kdf) (server : Bool) (c : ℕ) (s : Bytes) (q : ℕ) (before : List Standing)
    (S : Sender) : Prop :=
  ∃ n ps st, Sealed K server c s q before S n ps st

variable {before ps : List Standing} {st st' : Standing} {S S' : Sender}

/-- The last of an ascending list may be put off. -/
theorem pairwise_later {l : List Standing} (h : (l ++ [st]).Pairwise (· < ·)) (hlt : st < st') :
    (l ++ [st']).Pairwise (· < ·) := by
  rw [List.pairwise_append] at h ⊢
  refine ⟨h.1, List.pairwise_singleton _ _, fun a ha b hb => ?_⟩
  rw [List.mem_singleton.mp hb]
  exact (h.2.2 a ha st (List.mem_singleton_self _)).trans hlt

theorem pairwise_next {l : List Standing} (h : (l ++ [st]).Pairwise (· < ·)) (hlt : st < st') :
    (l ++ [st] ++ [st']).Pairwise (· < ·) := by
  refine List.pairwise_append.mpr ⟨h, List.pairwise_singleton _ _, fun a ha b hb => ?_⟩
  rw [List.mem_singleton.mp hb]
  rcases List.mem_append.mp ha with ha | ha
  · exact ((List.pairwise_append.mp h).2.2 a ha st (List.mem_singleton_self _)).trans hlt
  · rwa [List.mem_singleton.mp ha]

theorem Sealed.same (h : Sealed K server c s q before S n ps st) {C' : Served}
    (hsending : Sending K server c s q n C'.x) (hulp : C'.sock.tcp.ulp = true)
    (htx : C'.sock.tcp.tx = S.conn.sock.tcp.tx) (hwrote : C'.sock.wrote = S.conn.sock.wrote) :
    Sealed K server c s q before { S with conn := C' } n ps st where
  sending := hsending
  ulp := hulp
  installed := by
    rw [htx, hwrote]
    exact h.installed
  le := h.le
  seals := h.seals
  fresh := h.fresh
  bound := h.bound
  recent := by
    rw [hwrote]
    exact h.recent

theorem Sealed.send (h : Sealed K server c s q before S n ps st) {kind : KtlsRecord}
    (hkind : kind ≠ .unknown) (payload : Bytes) :
    Sealed K server c s q before (S.after A K (.send kind payload)) n (ps ++ [st])
      ⟨st.generation, st.sequence + 1⟩ := by
  obtain ⟨k, hk, -⟩ := h.installed.kernelKey rfl
  have hafter : S.after A K (.send kind payload) =
      ⟨{ S.conn with sock := { S.conn.sock with wrote := S.conn.sock.wrote + 1 } },
        S.seals ++ [sealedAt K c s st]⟩ := by
    rw [after, Served.sendRecord, encode_spelled hkind]
    simp only [KernelSocket.send, hk, h.installed.sealing, Option.toList_some]
  rw [hafter]
  have hlt : st < ⟨st.generation, st.sequence + 1⟩ :=
    Standing.lt_iff.mpr (.inr ⟨rfl, Nat.lt_succ_self _⟩)
  refine ⟨h.sending, h.ulp, ?_, h.le, ?_, ?_, fun t ht => ?_, fun i hlo hi => ?_⟩
  · obtain ⟨p, hp, hslot, hcount⟩ := h.installed
    exact ⟨p, hp, hslot, congrArg Nat.succ hcount⟩
  · rw [h.seals, List.map_append]
    rfl
  · rw [← List.append_assoc]
    exact pairwise_next h.fresh hlt
  · rw [List.length_append, List.length_singleton]
    rw [← List.append_assoc] at ht
    rcases List.mem_append.mp ht with ht | ht
    · exact (h.bound t ht).trans (by omega)
    · rw [List.mem_singleton.mp ht]
      have hst := h.bound st (List.mem_append_right _ (List.mem_singleton_self _))
      change st.sequence + 1 ≤ _
      omega
  · have hlo' : st.sequence + 1 - (S.conn.sock.wrote + 1) ≤ i := hlo
    have hi' : i < st.sequence + 1 := hi
    by_cases hlast : i = st.sequence
    · rw [hlast]
      exact List.mem_append_right _ (List.mem_singleton_self _)
    · exact List.mem_append_left _ (h.recent i (by omega) (by omega))

section Turn

variable {np : NullPending} {fate : NextKeyFate}

/-- A turn that succeeds brings the kernel to record 0 of a key that was not there before. -/
theorem Sealed.turn (h : Sealed K server c s q before S n ps st)
    (hok : (ktlsNextKey K S.conn.x .tx fate).1 = .ok ()) :
    Sealed K server c s q before (S.after A K (.turn np fate true)) (n + 1) ps ⟨n + 1, 0⟩ := by
  have hnext := h.sending.nextKey hok
  have hb := hnext.answers np
  rw [if_neg (Nat.succ_ne_zero n)] at hb
  obtain ⟨hx, hulp, htx, hwrote⟩ := Served.turnKey_tx h.ulp hb true
  have hsending := hnext.ask np .tx
  rw [← hx] at hsending
  have hlt : st < ⟨n + 1, 0⟩ := Standing.lt_iff.mpr (.inl (Nat.lt_succ_of_le h.le))
  refine ⟨hsending, hulp, ⟨0, by norm_num, htx, ?_⟩, le_rfl, h.seals, pairwise_later h.fresh hlt,
    fun t ht => ?_, fun i _ hi => absurd hi (Nat.not_lt_zero i)⟩
  · rw [Nat.zero_add]
    exact hwrote
  · rcases List.mem_append.mp ht with ht | ht
    · exact h.bound t (List.mem_append_left _ ht)
    · rw [List.mem_singleton.mp ht]
      exact Nat.zero_le _

/-- One that the kernel refuses leaves it where it is, and the exchange a key ahead. -/
theorem Sealed.refused (h : Sealed K server c s q before S n ps st)
    (hok : (ktlsNextKey K S.conn.x .tx fate).1 = .ok ()) :
    Sealed K server c s q before (S.after A K (.turn np fate false)) (n + 1) ps st := by
  have hnext := h.sending.nextKey hok
  have hb := hnext.answers np
  obtain ⟨hx, hulp, htx, hwrote⟩ := Served.turnKey_tx h.ulp hb false
  have hsending := hnext.ask np .tx
  rw [← hx] at hsending
  rw [if_neg Bool.false_ne_true] at htx hwrote
  refine ⟨hsending, hulp, ?_, Nat.le_succ_of_le h.le, h.seals, h.fresh, h.bound, ?_⟩
  · have hinst := h.installed
    rwa [← htx, ← hwrote] at hinst
  · have hrecent := h.recent
    rwa [← hwrote] at hrecent

end Turn

theorem Sealed.receive (h : Sealed K server c s q before S n ps st) (record : Bytes)
    (np : NullPending) (fate : NextKeyFate) (accepts : Bool) :
    Sealed K server c s q before (S.after A K (.receive record np fate accepts)) n ps st := by
  obtain ⟨hx, hulp, htx, hwrote⟩ := Served.recvRecord_tx (A := A) (K := K) record np fate
    accepts h.ulp rfl
  refine h.same ?_ hulp htx hwrote
  rcases hx with hx | hx
  · rw [hx]
    exact h.sending
  · rw [hx]
    exact (h.sending.other fate).ask np .rx

theorem Sealed.release (h : Sealed K server c s q before S n ps st) :
    Sealed K server c s q before (S.after A K .release) n ps st :=
  h.same h.sending.release h.ulp rfl rfl

theorem Inv.after (h : Inv K server c s q before S) {op : SenderOp} (hp : S.permits K op) :
    Inv K server c s q before (S.after A K op) := by
  obtain ⟨n, ps, st, h⟩ := h
  cases op with
  | send kind payload =>
    by_cases hkind : kind = .unknown
    · subst hkind
      exact ⟨n, ps, st, h⟩
    · exact ⟨_, _, _, h.send hkind payload⟩
  | turn np fate accepts =>
    cases accepts with
    | false => exact ⟨_, _, _, h.refused hp⟩
    | true => exact ⟨_, _, _, h.turn hp⟩
  | receive record np fate accepts => exact ⟨n, ps, st, h.receive record np fate accepts⟩
  | release => exact ⟨n, ps, st, h.release⟩

end Sender

theorem Standing.lt_advance {k : RecordKind} (h : k.Moves) (st : Standing) : st < st.advance k := by
  cases k with
  | handshake | finished | bad => exact h.elim
  | ticket | data | alert => exact Standing.lt_iff.mpr (.inr ⟨rfl, Nat.lt_succ_self _⟩)
  | keyUpdate _ => exact Standing.lt_iff.mpr (.inl (Nat.lt_succ_self _))

theorem RecordKind.Plain.moves {k : RecordKind} (h : k.Plain) : k.Moves := by
  cases k with
  | ticket | data | alert => trivial
  | handshake | finished | keyUpdate _ | bad => exact h.elim

variable {T : Tls} {S : Session}

/-- An SSL that has not moved its key has sealed below where the kernel goes on. -/
theorem Session.pairwise_sealedBefore (h : ∀ k ∈ behindFinished S.outKinds, k.Plain) :
    (S.sealedBefore ++ [(⟨0, (behindFinished S.outKinds).length⟩ : Standing)]).Pairwise
      (· < ·) := by
  have hlast : (Ratchet.plain Standing.advance).keyAfter {} (behindFinished S.outKinds) =
      ⟨0, (behindFinished S.outKinds).length⟩ := by
    refine (foldl_advance_plain _ h).trans ?_
    rw [Nat.zero_add]
  rw [← hlast]
  exact Ratchet.pairwise_keysUsed _ fun k hk st => Standing.lt_advance (h k hk).moves st

theorem Sender.inv_begun {es : List Op} {np : NullPending} {fate : OffloadFate}
    {sock : TcpSocket} (hrun : (Session.following K T .tx).Run (Session.opened T) es S)
    (hoff : ktlsOffload np S.x {} fate = (.ok (), x, sock)) :
    Sender.Inv K T.server (ktlsNegotiatedCipher (some T.suite)) (T.secret (whichOf T.server .tx))
      (behindFinished S.outKinds).length S.sealedBefore (Sender.begun x sock) := by
  obtain ⟨hready, rfl, rfl⟩ := ktlsOffload_ok hoff
  obtain ⟨hd, -, htx, hrx⟩ := id hready
  obtain ⟨hi, hex, hpl⟩ := Session.following_reachable hrun hrx
  have howed := hi.owed_nil hready
  have hc := hi.kinds.done hd
  have hnotes := hi.notes hd
  have hseq : sequenceOf np S.x .tx = (behindFinished S.outKinds).length :=
    hi.sequence_behind hex hready
  have hle : (behindFinished S.outKinds).length ≤ 64 := hseq ▸ hi.sequence_le np .tx
  have hlt : (behindFinished S.outKinds).length < 2 ^ 64 := by omega
  have hrek : S.x.rekeyed (whichOf S.x.server .tx) = false := hi.keys.rekeyed _
  have hholding := hi.holding hd howed htx hrx
  have hsending : Sending K T.server (ktlsNegotiatedCipher (some T.suite))
      (T.secret (whichOf T.server .tx)) (behindFinished S.outKinds).length 0 S.x := by
    refine ⟨fun np => ⟨hd, hholding.owed np, htx, hrx⟩, hnotes.server, hnotes.cipher,
      hholding.fits, hholding.held .tx, hi.keys.rekeyed _, ?_, hlt, ?_⟩
    · rw [← hseq, sequenceOf, hrek]
      rfl
    · rw [← hnotes.cipher]
      exact hnotes.info _
  have hfresh := Session.pairwise_sealedBefore (hpl hc)
  refine ⟨0, [], ⟨0, (behindFinished S.outKinds).length⟩, (hsending.ask np .tx).ask np .rx, rfl,
    ⟨_, hlt, ?_, Nat.add_zero _⟩, le_rfl, rfl, ?_, fun t ht => ?_, fun i hlo hlt => ?_⟩
  · have hb := (hsending.answers np).symm.trans
      (congrArg Prod.fst (ktlsCryptoInfo_ready hready .tx))
    rw [if_pos rfl] at hb
    exact congrArg some (Except.ok.inj hb).symm
  · rw [List.append_nil]
    exact hfresh
  · rw [List.append_nil] at ht
    rcases List.mem_append.mp ht with ht | ht
    · have hlt := (List.pairwise_append.mp hfresh).2.2 t ht _ (List.mem_singleton_self _)
      rcases Standing.lt_iff.mp hlt with hgen | ⟨-, hseq⟩
      · exact absurd hgen (Nat.not_lt_zero _)
      · exact (Nat.le_of_lt hseq).trans hle
    · rw [List.mem_singleton.mp ht]
      exact hle
  · exact absurd (lt_of_le_of_lt hlo hlt) (lt_irrefl _)

theorem Sender.seals_le {ops : List SenderOp} {S S' : Sender}
    (hrun : (Sender.machine A K).Run S ops S') :
    S'.seals.length ≤ S.seals.length + ops.length := by
  induction hrun with
  | nil S => exact le_rfl
  | @cons S op ops S' _ _ ih =>
    have hone : (S.after A K op).seals.length ≤ S.seals.length + 1 := by
      cases op with
      | send kind payload =>
        rw [Sender.after]
        rcases S.conn.sendRecord A kind payload with ⟨_ | r, C⟩
        · exact Nat.le_succ _
        · rw [List.length_append]
          cases S.conn.sock.sealing with
          | none => exact Nat.le_succ _
          | some t => exact le_rfl
      | turn np fate accepts => exact Nat.le_succ _
      | receive record np fate accepts => exact Nat.le_succ _
      | release => exact Nat.le_succ _
    change S'.seals.length ≤ (S.after A K op).seals.length + ops.length at ih
    rw [List.length_cons]
    omega

/-- A side's SSL is followed to the handover, no key of its own being moved and a server ending
in time, and from there its kernel sends, while its key is turned by calls that succeed, records
of any kind come in, forged ones among them, and the kernel refuses what it likes. Every record
is sealed at a place of its own, the SSL's behind its Finished and the kernel's after them, and
as long as the numbers last, under one key no nonce comes back. -/
theorem sealed_once {es : List Op} {ops : List SenderOp} {Q : Sender} {np : NullPending}
    {fate : OffloadFate} {sock : TcpSocket}
    (hrun : (Session.following K T .tx).Run (Session.opened T) es S)
    (hoff : ktlsOffload np S.x {} fate = (.ok (), x, sock))
    (hops : (Sender.machine A K).Run (Sender.begun x sock) ops Q) {c : ℕ} {s : Bytes}
    (hc : c = ktlsNegotiatedCipher (some T.suite)) (hs : s = T.secret (whichOf T.server .tx)) :
    ∃ ps, Q.seals = ps.map (sealedAt K c s) ∧ (S.sealedBefore ++ ps).Pairwise (· < ·) ∧
      (ops.length < 2 ^ 64 - 64 → (S.sealedBefore ++ ps).Pairwise fun a b =>
        a.generation = b.generation → (sealedAt K c s a).nonce ≠ (sealedAt K c s b).nonce) := by
  subst hc hs
  obtain ⟨n, ps, st, h⟩ := hops.invariant (P := Sender.Inv K T.server _ _ _ S.sealedBefore)
    (fun _ _ hi hp => hi.after hp) (Sender.inv_begun hrun hoff)
  have hsorted := (List.pairwise_append.mp h.fresh).1
  refine ⟨ps, h.seals, hsorted, fun hlt => ?_⟩
  have hlen := Sender.seals_le hops
  rw [h.seals, List.length_map] at hlen
  have hbound (t : Standing) (ht : t ∈ S.sealedBefore ++ ps) : t.sequence < 2 ^ 64 := by
    have hle := h.bound t (List.mem_append_left _ ht)
    have hzero : (Sender.begun x sock).seals.length = 0 := rfl
    omega
  refine hsorted.imp_of_mem fun {a b} ha hb hab hgen hnonce => ?_
  have hiv := K.length_expand (secretAfter K (T.secret (whichOf T.server .tx)) a.generation) "iv" 12
  have hseq : a.sequence = b.sequence := by
    refine recordNonce_inj hiv (hbound a ha) (hbound b hb) (hnonce.trans ?_)
    rw [hgen]
    rfl
  rcases Standing.lt_iff.mp hab with h | ⟨-, h⟩
  · exact absurd hgen h.ne
  · exact absurd hseq h.ne

open Session in
/-- The server of the sample connection. -/
def servedOps : List Op := (Pair.sampleCalls.filter fun call => call.1).map Prod.snd

/-- It says something, turns its key, is sent nonsense, and says more. -/
def sampleSends : List SenderOp :=
  [.send .data (ascii "hello"), .turn .zero {} true, .receive [23, 3, 3, 0, 0] .zero {} true,
   .release, .send .data (ascii "again")]

def servedOffload : Except String Unit × KtlsExchange × TcpSocket :=
  ktlsOffload .zero (Session.sampleRun true servedOps).x {} {}

def sampleSender (ops : List SenderOp) : Sender :=
  ops.foldl (Sender.machine sampleAead sampleKdf).next
    (Sender.begun servedOffload.2.1 servedOffload.2.2)

theorem servedOps_run : (Session.following sampleKdf (Session.sampleTls true) .tx).Run
    (Session.opened (Session.sampleTls true)) servedOps (Session.sampleRun true servedOps) :=
  Machine.Run.of_check (by decide +kernel)

theorem servedOps_offload : ktlsOffload .zero (Session.sampleRun true servedOps).x {} {} =
    (.ok (), servedOffload.2.1, servedOffload.2.2) := by
  have hok : servedOffload.1 = .ok () := by decide +kernel
  have hpair {r : Except String Unit × KtlsExchange × TcpSocket} (h : r.1 = .ok ()) :
      r = (.ok (), r.2.1, r.2.2) := Prod.ext h rfl
  change servedOffload = _
  exact hpair hok

theorem sealed_once_sample : ∃ ps, (sampleSender sampleSends).seals =
      ps.map (sealedAt sampleKdf ktlsAesGcm128 (sampleSecret 1)) ∧
    ((Session.sampleRun true servedOps).sealedBefore ++ ps).Pairwise (· < ·) := by
  have hops : (Sender.machine sampleAead sampleKdf).Run
      (Sender.begun servedOffload.2.1 servedOffload.2.2) sampleSends (sampleSender sampleSends) :=
    Machine.Run.of_check (by decide +kernel)
  obtain ⟨ps, hseals, hsorted, -⟩ := sealed_once servedOps_run servedOps_offload hops
    (c := ktlsAesGcm128) (s := sampleSecret 1) (by decide +kernel) rfl
  exact ⟨ps, hseals, hsorted⟩

/-- `ktls_next_key` fails, and the blob is set all the same, as it is where no answer is looked
at. The kernel seals the next record as it or the SSL has sealed one before, once it has sealed
any under the key it has, and if that is the one the exchange has. -/
theorem failed_turn_repeats {es : List Op} {ops : List SenderOp} {Q : Sender} {np : NullPending}
    {fate : OffloadFate} {sock : TcpSocket}
    (hrun : (Session.following K T .tx).Run (Session.opened T) es S)
    (hoff : ktlsOffload np S.x {} fate = (.ok (), x, sock))
    (hops : (Sender.machine A K).Run (Sender.begun x sock) ops Q) {np' : NullPending} {b : Bytes}
    (hb : (ktlsCryptoInfo np' Q.conn.x .tx).1 = .ok b) (hcurrent : Q.conn.sock.tcp.tx = some b)
    (hsent : 0 < Q.conn.sock.wrote) {nextFate : NextKeyFate}
    (hfail : (ktlsNextKey K Q.conn.x .tx nextFate).1 ≠ .ok ()) {c : ℕ} {s : Bytes}
    (hc : c = ktlsNegotiatedCipher (some T.suite)) (hs : s = T.secret (whichOf T.server .tx)) :
    ∃ t, (Q.conn.turnKey K np' .tx nextFate true).sock.sealing = some t ∧
      t ∈ S.sealedBefore.map (sealedAt K c s) ++ Q.seals := by
  subst hc hs
  obtain ⟨n, ps, st, h⟩ := hops.invariant (P := Sender.Inv K T.server _ _ _ S.sealedBefore)
    (fun _ _ hi hp => hi.after hp) (Sender.inv_begun hrun hoff)
  obtain ⟨p, hanswer, hor⟩ := h.sending.failed hfail np'
  obtain ⟨-, -, htx, hwrote⟩ := Served.turnKey_tx h.ulp hanswer true
  have hq := h.sending.lt
  have hlt : p < 2 ^ 64 := by
    rcases hor with hor | hor
    · rw [hor]
      split_ifs <;> omega
    · omega
  have hinstalled : Installed K (ktlsNegotiatedCipher (some T.suite))
      (T.secret (whichOf T.server .tx)) ⟨n, p⟩
      (Q.conn.turnKey K np' .tx nextFate true).sock.tcp.tx
      (Q.conn.turnKey K np' .tx nextFate true).sock.wrote := ⟨p, hlt, htx, by rw [hwrote]; rfl⟩
  refine ⟨_, hinstalled.sealing, ?_⟩
  by_cases hp : p = if n = 0 then (behindFinished S.outKinds).length else 0
  · -- the blob the kernel has already, and has sealed with
    obtain ⟨p', hp', hslot, hcount⟩ := h.installed
    have hsame : trafficKey K (ktlsNegotiatedCipher (some T.suite))
        (secretAfter K (T.secret (whichOf T.server .tx)) n) p =
        trafficKey K (ktlsNegotiatedCipher (some T.suite))
        (secretAfter K (T.secret (whichOf T.server .tx)) st.generation) p' := by
      have hblob := Except.ok.inj ((h.sending.answers np').symm.trans hb)
      have hkey := kernelKey_blob K (ktlsNegotiatedCipher (some T.suite))
        (secretAfter K (T.secret (whichOf T.server .tx)) n) hlt
      rw [hp, hblob, ← hp, Option.some.inj (hcurrent.symm.trans hslot), kernelKey_blob K _ _ hp']
        at hkey
      exact (Option.some.inj hkey).symm
    have hmem := h.recent p' (by omega) (by omega)
    refine List.mem_append_right _ ?_
    rw [h.seals, sealedAt, hsame]
    exact List.mem_map_of_mem hmem
  · -- back to where the SSL began
    have hfirst : n = 0 ∧ p = 0 ∧ (behindFinished S.outKinds) ≠ [] := by
      have hzero := hor.resolve_left hp
      by_cases hn : n = 0
      · refine ⟨hn, hzero, fun hnil => hp ?_⟩
        rw [hzero, if_pos hn, hnil]
        rfl
      · exact absurd (hzero.trans (if_neg hn).symm) hp
    obtain ⟨rfl, rfl, hne⟩ := hfirst
    obtain ⟨k, ks, hks⟩ := List.exists_cons_of_ne_nil hne
    refine List.mem_append_left _ (List.mem_map_of_mem ?_)
    rw [Session.sealedBefore, hks]
    exact List.mem_cons_self

/-- The key is not turned, and the nonce of the record that was sent comes back. -/
theorem failed_turn_repeats_sample : ∃ t,
    ((sampleSender (sampleSends.take 1)).conn.turnKey sampleKdf .zero .tx
      { upd := .noDerive } true).sock.sealing = some t ∧
    t ∈ (Session.sampleRun true servedOps).sealedBefore.map
      (sealedAt sampleKdf ktlsAesGcm128 (sampleSecret 1)) ++
        (sampleSender (sampleSends.take 1)).seals := by
  have hops : (Sender.machine sampleAead sampleKdf).Run
      (Sender.begun servedOffload.2.1 servedOffload.2.2) (sampleSends.take 1)
      (sampleSender (sampleSends.take 1)) :=
    Machine.Run.of_check (by decide +kernel)
  exact failed_turn_repeats servedOps_run servedOps_offload hops
    (b := blob sampleKdf ktlsAesGcm128 (sampleSecret 1) 2) (by decide +kernel) (by decide +kernel)
    (by decide +kernel) (by decide +kernel) (by decide +kernel) rfl

end Ktls
