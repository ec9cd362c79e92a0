import Ktls.Proofs.Blob
import Ktls.Proofs.Pair

/-! The kernels of both sides carry each direction as a link of its own, whatever order the
calls of the two come in. -/

namespace Ktls

variable {A : Aead} {K : Kdf} {c : ℕ} {s : Bytes}

/-- The key of a direction, and the count of its records, as the socket has them. -/
def KernelSocket.slot (s : KernelSocket) : KtlsDirection → Option Bytes
  | .tx => s.tcp.tx
  | .rx => s.tcp.rx

def KernelSocket.count (s : KernelSocket) : KtlsDirection → ℕ
  | .tx => s.wrote
  | .rx => s.read

/-- The kernel is at record `st` of a direction whose first secret is `s`. -/
def Installed (K : Kdf) (c : ℕ) (s : Bytes) (st : Standing) (slot : Option Bytes) (count : ℕ) :
    Prop :=
  ∃ q < 2 ^ 64, slot = some (blob K c (secretAfter K s st.generation) q) ∧ q + count = st.sequence

theorem Installed.kernelKey {st : Standing} {slot : Option Bytes} {count : ℕ}
    (h : Installed K c s st slot count) {now : KernelKey}
    (hnow : now = trafficKey K c (secretAfter K s st.generation) st.sequence) :
    ∃ k, slot.bind Ktls.kernelKey = some k ∧ k.cipherType = now.cipherType ∧ k.key = now.key ∧
      k.nonce (k.seq + count) = recordNonce now.iv now.seq := by
  obtain ⟨q, hq, hslot, hcount⟩ := h
  subst hnow
  refine ⟨trafficKey K c (secretAfter K s st.generation) q, ?_, rfl, rfl, ?_⟩
  · rw [hslot, Option.bind_some, kernelKey_blob K c _ hq]
  · rw [nonce_eq (K.length_expand _ _ _)]
    change recordNonce _ (q + count) = _
    rw [hcount]
    rfl

theorem encode_spelled {kind : KtlsRecord} (h : kind ≠ .unknown) :
    ktlsRecordTypeEncode kind (some [0]) = (1, some [kind.byte]) := by
  cases kind with
  | unknown => exact absurd rfl h
  | data | alert | handshake => rfl

theorem readARecord_type (type : UInt8) :
    readARecord [⟨ktlsSolTls, ktlsRecordTypeCmsg, [type]⟩] = ktlsRecordOf type.toNat := rfl

theorem Served.sendRecord_eq {C : Served} {st : Standing}
    (h : Installed K c s st (C.sock.slot .tx) (C.sock.count .tx)) (m : Message) :
    C.sendRecord A m.kind m.payload = (some ((recordLayer A K c s).wrap st m),
      { C with sock := { C.sock with wrote := C.sock.wrote + 1 } }) := by
  obtain ⟨k, hk, htype, hkey, hnonce⟩ := h.kernelKey rfl
  have hslot : C.sock.tcp.tx.bind Ktls.kernelKey = some k := hk
  have hcount : C.sock.count .tx = C.sock.wrote := rfl
  rw [hcount] at hnonce
  rw [sendRecord, encode_spelled m.spelled]
  simp only [KernelSocket.send, hslot, htype, hkey, hnonce]
  rfl

theorem Served.recv_eq {C : Served} {st : Standing}
    (h : Installed K c s st (C.sock.slot .rx) (C.sock.count .rx)) {m : Message} {r : Bytes}
    (hm : (recordLayer A K c s).unwrap st r = some m) :
    ∃ type, C.sock.recv A r =
        (some (type, m.payload), { C.sock with read := C.sock.read + 1 }) ∧
      ktlsRecordOf type.toNat = m.kind := by
  obtain ⟨k, hk, htype, hkey, hnonce⟩ := h.kernelKey rfl
  have hslot : C.sock.tcp.rx.bind Ktls.kernelKey = some k := hk
  have hcount : C.sock.count .rx = C.sock.read := rfl
  rw [hcount] at hnonce
  obtain ⟨⟨type, payload⟩, hopen, hmsg⟩ := Option.bind_eq_some_iff.mp hm
  have hspelled : ktlsRecordOf type.toNat ≠ .unknown := by
    intro hunknown
    rw [Message.of?, dif_neg (not_not.mpr hunknown)] at hmsg
    cases hmsg
  rw [Message.of?, dif_pos hspelled, Option.some.injEq] at hmsg
  subst hmsg
  refine ⟨type, ?_, rfl⟩
  rw [KernelSocket.recv]
  simp only [hslot, htype, hkey, hnonce]
  rw [hopen]

/-- One side in step with where its two directions stand. Where a turn of the key is still
owed, the exchange is one secret behind, and the socket has the old key. -/
structure Keyed (K : Kdf) (c : ℕ) (side : Bool) (secret : KtlsDirection → Bytes)
    (st : KtlsDirection → Standing) (owe : KtlsDirection → Bool) (C : Served) : Prop where
  turned : ∃ n, Turned K side c secret n C.x ∧
    ∀ dir, n dir + (owe dir).toNat = (st dir).generation
  ulp : C.sock.tcp.ulp = true
  fresh : ∀ dir, owe dir = true → (st dir).sequence = 0
  installed : ∀ dir, owe dir = false →
    Installed K c (secret dir) (st dir) (C.sock.slot dir) (C.sock.count dir)

variable {side : Bool} {secret : KtlsDirection → Bytes} {st : KtlsDirection → Standing}
  {owe : KtlsDirection → Bool} {C : Served}

/-- What a record does to the standing of its direction, and to what is owed there. -/
def Message.owes (m : Message) : Bool := m.kind = .handshake

theorem Message.advance_plain {m : Message} (h : m.owes = false) (st : Standing) :
    st.advance m.recordKind = ⟨st.generation, st.sequence + 1⟩ := by
  have hne : m.kind ≠ .handshake := of_decide_eq_false h
  rw [Message.recordKind]
  cases hk : m.kind with
  | handshake => exact absurd hk hne
  | data | alert | unknown => rfl

theorem Message.advance_update {m : Message} (h : m.owes = true) (st : Standing) :
    st.advance m.recordKind = ⟨st.generation + 1, 0⟩ := by
  have hk : m.kind = .handshake := of_decide_eq_true h
  rw [Message.recordKind, hk]
  rfl

/-- A record in direction `dir` moves the count of that direction on, and nothing else. -/
theorem Keyed.record (h : Keyed K c side secret st owe C) {dir : KtlsDirection}
    (hclear : owe dir = false) (m : Message) (sock : KernelSocket) (htcp : sock.tcp = C.sock.tcp)
    (hcount : ∀ d, sock.count d = C.sock.count d + if d = dir then 1 else 0) :
    Keyed K c side secret (Function.update st dir ((st dir).advance m.recordKind))
      (Function.update owe dir m.owes) { C with sock := sock } := by
  have hslot (d : KtlsDirection) : sock.slot d = C.sock.slot d := by
    cases d with
    | tx => exact congrArg TcpSocket.tx htcp
    | rx => exact congrArg TcpSocket.rx htcp
  obtain ⟨n, hturned, hn⟩ := h.turned
  refine ⟨⟨n, hturned, fun d => ?_⟩, htcp ▸ h.ulp, fun d hd => ?_, fun d hd => ?_⟩
  · by_cases hdd : d = dir
    · subst hdd
      have hnd := hn d
      rw [hclear] at hnd
      rw [Function.update_self, Function.update_self]
      cases hm : m.owes with
      | false =>
        rw [Message.advance_plain hm]
        exact hnd
      | true =>
        rw [Message.advance_update hm]
        exact congrArg Nat.succ hnd
    · rw [Function.update_of_ne hdd, Function.update_of_ne hdd]
      exact hn d
  · by_cases hdd : d = dir
    · subst hdd
      rw [Function.update_self] at hd ⊢
      rw [Message.advance_update hd]
    · rw [Function.update_of_ne hdd] at hd ⊢
      exact h.fresh d hd
  · by_cases hdd : d = dir
    · subst hdd
      rw [Function.update_self] at hd ⊢
      obtain ⟨q, hq, hs, hcnt⟩ := h.installed d hclear
      rw [Message.advance_plain hd, hslot, hcount, if_pos rfl]
      exact ⟨q, hq, hs, by rw [← Nat.add_assoc, hcnt]⟩
    · rw [Function.update_of_ne hdd] at hd ⊢
      have hi := h.installed d hd
      rwa [hslot, hcount, if_neg hdd, Nat.add_zero]

theorem setsockopt_key {sock : TcpSocket} (hulp : sock.ulp = true) (dir : KtlsDirection)
    (b : Bytes) : setsockopt sock ktlsSolTls (ktlsOptname dir) b true =
      (true, match dir with
        | .tx => { sock with tx := some b }
        | .rx => { sock with rx := some b }) := by
  cases dir with
  | tx => simp [setsockopt, ktlsSolTls, ktlsOptname, solTls, tlsTx, ipprotoTcp, hulp]
  | rx => simp [setsockopt, ktlsSolTls, ktlsOptname, solTls, tlsTx, tlsRx, ipprotoTcp, hulp]

theorem KernelSocket.setsockopt_key {sock : KernelSocket} (hulp : sock.tcp.ulp = true)
    (dir : KtlsDirection) (b : Bytes) :
    ∃ sock', (sock.setsockopt ktlsSolTls (ktlsOptname dir) b true).2 = sock' ∧
      sock'.tcp.ulp = true ∧ sock'.slot dir = some b ∧ sock'.count dir = 0 ∧
      ∀ d, d ≠ dir → sock'.slot d = sock.slot d ∧ sock'.count d = sock.count d := by
  rw [KernelSocket.setsockopt, Ktls.setsockopt_key hulp]
  cases dir with
  | tx =>
    refine ⟨_, rfl, hulp, rfl, rfl, fun d hd => ?_⟩
    cases d with
    | tx => exact absurd rfl hd
    | rx => exact ⟨rfl, rfl⟩
  | rx =>
    refine ⟨_, rfl, hulp, rfl, rfl, fun d hd => ?_⟩
    cases d with
    | tx => exact ⟨rfl, rfl⟩
    | rx => exact absurd rfl hd

/-- The turn that is owed brings the exchange and the socket to where the direction stands. -/
theorem Keyed.turnKey (h : Keyed K c side secret st owe C) {dir : KtlsDirection}
    (howe : owe dir = true) {fate : NextKeyFate} (np : NullPending)
    (hok : (ktlsNextKey K C.x dir fate).1 = .ok ()) :
    Keyed K c side secret st (Function.update owe dir false)
      (C.turnKey K np dir fate true) := by
  obtain ⟨n, hturned, hn⟩ := h.turned
  have hturned' := hturned.nextKey hok
  have hnow : Function.update n dir (n dir + 1) dir = (st dir).generation := by
    have hnd := hn dir
    rw [howe] at hnd
    rw [Function.update_self]
    exact hnd
  obtain ⟨hblob, -⟩ := hturned'.answers dir (by rw [Function.update_self]; exact Nat.succ_pos _) np
  rw [hnow] at hblob
  have hasked := hturned'.ask np dir
  obtain ⟨sock', hsock, hulp, hslot, hcount, hother⟩ := KernelSocket.setsockopt_key h.ulp dir
    (blob K c (secretAfter K (secret dir) (st dir).generation) 0)
  have hturn : C.turnKey K np dir fate true =
      ⟨(ktlsCryptoInfo np (ktlsNextKey K C.x dir fate).2 dir).2, sock'⟩ := by
    rw [Served.turnKey]
    generalize ktlsCryptoInfo np (ktlsNextKey K C.x dir fate).2 dir = r at hblob
    obtain ⟨res, x'⟩ := r
    obtain rfl : res = _ := hblob
    simp only [hsock]
  rw [hturn]
  refine ⟨⟨_, hasked, fun d => ?_⟩, hulp, fun d hd => ?_, fun d hd => ?_⟩
  · by_cases hdd : d = dir
    · rw [hdd, hnow, Function.update_self]
      rfl
    · rw [Function.update_of_ne hdd, Function.update_of_ne hdd]
      exact hn d
  · by_cases hdd : d = dir
    · rw [hdd, Function.update_self] at hd
      cases hd
    · rw [Function.update_of_ne hdd] at hd
      exact h.fresh d hd
  · by_cases hdd : d = dir
    · subst hdd
      refine ⟨0, by norm_num, hslot, ?_⟩
      change 0 + sock'.count d = _
      rw [hcount, h.fresh d howe]
    · rw [Function.update_of_ne hdd] at hd
      obtain ⟨hs, hc⟩ := hother d hdd
      change Installed K c (secret d) (st d) (sock'.slot d) (sock'.count d)
      rw [hs, hc]
      exact h.installed d hd

theorem Keyed.sendRecord (h : Keyed K c side secret st owe C) (hclear : owe .tx = false)
    (m : Message) :
    ∃ C', C.sendRecord A m.kind m.payload =
        (some ((recordLayer A K c (secret .tx)).wrap (st .tx) m), C') ∧
      Keyed K c side secret (Function.update st .tx ((st .tx).advance m.recordKind))
        (Function.update owe .tx m.owes) C' := by
  refine ⟨_, Served.sendRecord_eq (h.installed .tx hclear) m, h.record hclear m _ rfl fun d => ?_⟩
  cases d with
  | tx => rfl
  | rx => rfl

/-- A KeyUpdate that is read is answered in the same call. -/
theorem Keyed.recvRecord (h : Keyed K c side secret st owe C) (hclear : owe .rx = false)
    {m : Message} {r : Bytes} (hm : (recordLayer A K c (secret .rx)).unwrap (st .rx) r = some m)
    {fate : NextKeyFate} (np : NullPending) (hok : (ktlsNextKey K C.x .rx fate).1 = .ok ()) :
    ∃ C', C.recvRecord A K np r fate true = (some (m.kind, m.payload), C') ∧
      Keyed K c side secret (Function.update st .rx ((st .rx).advance m.recordKind)) owe C' := by
  obtain ⟨type, hrecv, htype⟩ := Served.recv_eq (h.installed .rx hclear) hm
  have hread := h.record hclear m { C.sock with read := C.sock.read + 1 } rfl fun d => by
    cases d with
    | tx => rfl
    | rx => rfl
  rw [Served.recvRecord, hrecv]
  simp only [readARecord_type, htype]
  cases howes : m.owes with
  | false =>
    rw [howes, ← hclear, Function.update_eq_self] at hread
    have hne : m.kind ≠ .handshake := of_decide_eq_false howes
    cases hk : m.kind with
    | handshake => exact absurd hk hne
    | data => exact ⟨_, rfl, hread⟩
    | alert => exact ⟨_, rfl, hread⟩
    | unknown => exact ⟨_, rfl, hread⟩
  | true =>
    have hk : m.kind = .handshake := of_decide_eq_true howes
    rw [howes] at hread
    have hturn := hread.turnKey (Function.update_self ..) np hok
    rw [Function.update_idem, ← hclear, Function.update_eq_self] at hturn
    simp only [hk]
    exact ⟨_, rfl, hturn⟩

theorem Keyed.release (h : Keyed K c side secret st owe C) :
    Keyed K c side secret st owe { C with x := ktlsExchangeRelease C.x } := by
  obtain ⟨n, hturned, hn⟩ := h.turned
  exact ⟨⟨n, hturned.release, hn⟩, h.ulp, h.fresh, h.installed⟩

namespace Traffic

variable {P Q : Traffic} {shared : Fin 2 → Bytes} {start : Bool → Standing}

/-- Where the directions of a side stand: its own as far as it has sent, the other as far as it
has heard. -/
def standings (P : Traffic) (start : Bool → Standing) (side : Bool) : KtlsDirection → Standing
  | .tx => Message.standing (start side) (P.sent side)
  | .rx => Message.standing (start (!side)) (P.got side)

def owing (P : Traffic) (side : Bool) : KtlsDirection → Bool
  | .tx => P.owes side
  | .rx => false

/-- Both sides are in step with where their directions stand. -/
def InKeys (K : Kdf) (c : ℕ) (shared : Fin 2 → Bytes) (start : Bool → Standing) (P : Traffic) :
    Prop :=
  ∀ side, Keyed K c side (fun dir => shared (whichOf side dir)) (P.standings start side)
    (P.owing side) (P.conn side)

structure Inv (A : Aead) (K : Kdf) (c : ℕ) (shared : Fin 2 → Bytes) (start : Bool → Standing)
    (P : Traffic) : Prop where
  keyed : P.InKeys K c shared start
  link : ∀ side, Ratchet.Link.InStep (recordLayer A K c (shared (whichOf side .tx))) (start side)
    (P.flow start side)
  sound : ∀ side, P.failed side = false

theorem inv_begun {x : Bool → KtlsExchange} {sock : Bool → TcpSocket} {q : Bool → ℕ}
    (hx : ∀ side, Holding side c (fun dir => shared (whichOf side dir)) (x side))
    (hq : ∀ side, q side < 2 ^ 64) (hulp : ∀ side, (sock side).ulp = true)
    (htx : ∀ side, (sock side).tx = some (blob K c (shared (whichOf side .tx)) (q side)))
    (hrx : ∀ side, (sock side).rx = some (blob K c (shared (whichOf side .rx)) (q (!side)))) :
    (begun x sock).Inv A K c shared fun side => ⟨0, q side⟩ := by
  refine ⟨fun side => ?_, fun side => Ratchet.Link.inStep_start _, fun _ => rfl⟩
  refine ⟨⟨fun _ => 0, (hx side).turned K, fun dir => ?_⟩, hulp side, fun dir hd => ?_,
    fun dir _ => ?_⟩
  · cases dir <;> rfl
  · cases dir <;> cases hd
  · cases dir with
    | tx => exact ⟨q side, hq side, htx side, rfl⟩
    | rx => exact ⟨q (!side), hq (!side), hrx side, rfl⟩

/-- A call leaves the side that does not make it alone. -/
structure Spares (P P' : Traffic) (side : Bool) : Prop where
  conn : P'.conn side = P.conn side
  owes : P'.owes side = P.owes side
  sent : P'.sent side = P.sent side
  got : P'.got side = P.got side

theorem Spares.keyed {P' : Traffic} {side : Bool} (hs : P.Spares P' side)
    (h : P.InKeys K c shared start) :
    Keyed K c side (fun dir => shared (whichOf side dir)) (P'.standings start side)
      (P'.owing side) (P'.conn side) := by
  have hst : P'.standings start side = P.standings start side := by
    funext dir
    cases dir with
    | tx => exact congrArg _ hs.sent
    | rx => exact congrArg _ hs.got
  have howe : P'.owing side = P.owing side := by
    funext dir
    cases dir with
    | tx => exact hs.owes
    | rx => rfl
  rw [hst, howe, hs.conn]
  exact h side

theorem InKeys.of_call (h : P.InKeys K c shared start) {P' : Traffic} (side : Bool)
    {st : KtlsDirection → Standing} {owe : KtlsDirection → Bool} {C : Served}
    (hkeyed : Keyed K c side (fun dir => shared (whichOf side dir)) st owe C)
    (hst : P'.standings start side = st) (howe : P'.owing side = owe) (hconn : P'.conn side = C)
    (hspares : P.Spares P' (!side)) : P'.InKeys K c shared start := by
  subst hst howe hconn
  exact Pair.both_sides side hkeyed (hspares.keyed h)

variable {side : Bool}

theorem InKeys.send (h : P.InKeys K c shared start) {m : Message} (hclear : P.owes side = false) :
    (∃ C, P.after A K (side, .send m) = { P with
      conn := Function.update P.conn side C
      wire := Function.update P.wire (!side) (P.wire (!side) ++
        [(recordLayer A K c (shared (whichOf side .tx))).wrap (P.standings start side .tx) m])
      owes := Function.update P.owes side m.owes
      sent := Function.update P.sent side (P.sent side ++ [m]) }) ∧
    (P.after A K (side, .send m)).InKeys K c shared start := by
  obtain ⟨C, hsend, hkeyed⟩ := (h side).sendRecord (A := A) hclear m
  have hafter : P.after A K (side, .send m) = { P with
      conn := Function.update P.conn side C
      wire := Function.update P.wire (!side) (P.wire (!side) ++
        [(recordLayer A K c (shared (whichOf side .tx))).wrap (P.standings start side .tx) m])
      owes := Function.update P.owes side m.owes
      sent := Function.update P.sent side (P.sent side ++ [m]) } := by
    simp only [after, hsend]
    rfl
  refine ⟨⟨C, hafter⟩, ?_⟩
  have hne : (!side) ≠ side := Bool.not_ne_self side
  rw [hafter]
  refine h.of_call side hkeyed ?_ ?_ (Function.update_self ..) ⟨?_, ?_, ?_, rfl⟩
  · funext dir
    cases dir with
    | tx => simp only [standings, Function.update_self, Message.standing_concat]
    | rx => rfl
  · funext dir
    cases dir with
    | tx => simp only [owing, Function.update_self]
    | rx => rfl
  · exact Function.update_of_ne hne _ _
  · exact Function.update_of_ne hne _ _
  · exact Function.update_of_ne hne _ _

theorem InKeys.turn (h : P.InKeys K c shared start) {np : NullPending} {fate : NextKeyFate}
    {accepts : Bool} (hp : P.permits K (side, .turn np fate accepts)) :
    (P.after A K (side, .turn np fate accepts)).InKeys K c shared start := by
  have hne : (!side) ≠ side := Bool.not_ne_self side
  have howes : P.owing side .tx = true := hp.1
  obtain ⟨-, hok, rfl⟩ := hp
  refine h.of_call side ((h side).turnKey howes np hok) rfl ?_ (Function.update_self ..)
    ⟨?_, ?_, rfl, rfl⟩
  · funext dir
    cases dir with
    | tx =>
      rw [Function.update_self]
      exact Function.update_self side false P.owes
    | rx => rfl
  · exact Function.update_of_ne hne _ _
  · exact Function.update_of_ne hne _ _

theorem InKeys.release (h : P.InKeys K c shared start) :
    (P.after A K (side, .release)).InKeys K c shared start :=
  h.of_call side (h side).release rfl rfl (Function.update_self ..)
    ⟨Function.update_of_ne (Bool.not_ne_self side) _ _, rfl, rfl, rfl⟩

/-- A record that comes next and is opened where the receiver stands. -/
theorem InKeys.receive (h : P.InKeys K c shared start) {r : Bytes} {rs : List Bytes}
    (hw : P.wire side = r :: rs) {m : Message}
    (hm : (recordLayer A K c (shared (whichOf side .rx))).unwrap (P.standings start side .rx) r =
      some m)
    {np : NullPending} {fate : NextKeyFate} {accepts : Bool}
    (hp : P.permits K (side, .receive np fate accepts)) :
    (∃ C, P.after A K (side, .receive np fate accepts) = { P with
      conn := Function.update P.conn side C
      wire := Function.update P.wire side rs
      got := Function.update P.got side (P.got side ++ [m]) }) ∧
    (P.after A K (side, .receive np fate accepts)).InKeys K c shared start := by
  obtain ⟨hok, rfl⟩ := hp
  obtain ⟨C, hrecv, hkeyed⟩ := (h side).recvRecord (A := A) rfl hm np hok
  have hmsg : Message.of? (m.kind, m.payload) = some m := dif_pos m.spelled
  have hafter : P.after A K (side, .receive np fate true) = { P with
      conn := Function.update P.conn side C
      wire := Function.update P.wire side rs
      got := Function.update P.got side (P.got side ++ [m]) } := by
    simp only [after, hw, hrecv, hmsg]
    rfl
  refine ⟨⟨C, hafter⟩, ?_⟩
  have hne : (!side) ≠ side := Bool.not_ne_self side
  rw [hafter]
  refine h.of_call side hkeyed ?_ rfl (Function.update_self ..) ⟨?_, rfl, rfl, ?_⟩
  · funext dir
    cases dir with
    | tx => rfl
    | rx => simp only [standings, Function.update_self, Message.standing_concat]
  · exact Function.update_of_ne hne _ _
  · exact Function.update_of_ne hne _ _

/-- Each direction has made moves of a link. -/
def Follows (A : Aead) (K : Kdf) (c : ℕ) (shared : Fin 2 → Bytes) (start : Bool → Standing)
    (P P' : Traffic) : Prop :=
  ∀ b, ∃ moves, (Ratchet.Link.machine (recordLayer A K c (shared (whichOf b .tx)))).Run
    (P.flow start b) moves (P'.flow start b)

theorem Follows.same {P' : Traffic} (h : ∀ b, P'.flow start b = P.flow start b) :
    P.Follows A K c shared start P' := by
  intro b
  rw [h b]
  exact ⟨[], .nil _⟩

theorem Follows.single {P' : Traffic} {b : Bool} (move : Ratchet.Move Message)
    (hmove : P'.flow start b =
      (P.flow start b).after (recordLayer A K c (shared (whichOf b .tx))) move)
    (hother : P'.flow start (!b) = P.flow start (!b)) : P.Follows A K c shared start P' := by
  refine Pair.both_sides b ⟨[move], ?_⟩ ⟨[], ?_⟩
  · rw [hmove]
    exact Ratchet.Link.run_foldl _ _ [move]
  · rw [hother]
    exact .nil _

/-- The links go on as they did, whatever moves them. -/
theorem Inv.of_follows (h : P.Inv A K c shared start) {P' : Traffic}
    (hkeyed : P'.InKeys K c shared start) (hfollows : P.Follows A K c shared start P')
    (hsound : P'.failed = P.failed) : P'.Inv A K c shared start := by
  refine ⟨hkeyed, fun b => ?_, fun b => ?_⟩
  · obtain ⟨moves, hrun⟩ := hfollows b
    exact (h.link b).run hrun
  · rw [hsound]
    exact h.sound b

theorem Inv.send (h : P.Inv A K c shared start) {m : Message}
    (hp : P.permits K (side, .send m)) :
    (P.after A K (side, .send m)).Inv A K c shared start ∧
      P.Follows A K c shared start (P.after A K (side, .send m)) := by
  obtain ⟨⟨C, hafter⟩, hkeyed⟩ := h.keyed.send (A := A) (m := m) hp
  have hne : side ≠ !side := (Bool.not_ne_self side).symm
  have hne' : (!side) ≠ side := Bool.not_ne_self side
  have hfollows : P.Follows A K c shared start (P.after A K (side, .send m)) := by
    rw [hafter]
    refine Follows.single (.send m) (b := side) ?_ ?_
    · rw [flow, Ratchet.Link.after]
      simp only [Function.update_self, Message.standing_concat]
      rfl
    · rw [flow, flow]
      simp only [Bool.not_not, Function.update_of_ne hne, Function.update_of_ne hne']
  exact ⟨h.of_follows hkeyed hfollows (by rw [hafter]), hfollows⟩

theorem Inv.turn (h : P.Inv A K c shared start) {np : NullPending} {fate : NextKeyFate}
    {accepts : Bool} (hp : P.permits K (side, .turn np fate accepts)) :
    (P.after A K (side, .turn np fate accepts)).Inv A K c shared start ∧
      P.Follows A K c shared start (P.after A K (side, .turn np fate accepts)) := by
  have hfollows : P.Follows A K c shared start (P.after A K (side, .turn np fate accepts)) :=
    .same fun _ => rfl
  exact ⟨h.of_follows (h.keyed.turn hp) hfollows rfl, hfollows⟩

theorem Inv.release (h : P.Inv A K c shared start) :
    (P.after A K (side, .release)).Inv A K c shared start ∧
      P.Follows A K c shared start (P.after A K (side, .release)) := by
  have hfollows : P.Follows A K c shared start (P.after A K (side, .release)) :=
    .same fun _ => rfl
  exact ⟨h.of_follows h.keyed.release hfollows rfl, hfollows⟩

/-- The next record on the wire is opened, as the link of its sender would. -/
theorem Inv.receive (h : P.Inv A K c shared start) {np : NullPending} {fate : NextKeyFate}
    {accepts : Bool} (hp : P.permits K (side, .receive np fate accepts)) :
    (P.after A K (side, .receive np fate accepts)).Inv A K c shared start ∧
      P.Follows A K c shared start (P.after A K (side, .receive np fate accepts)) := by
  cases hw : P.wire side with
  | nil =>
    have hafter : P.after A K (side, .receive np fate accepts) = P := by simp only [after, hw]
    rw [hafter]
    exact ⟨h, .same fun _ => rfl⟩
  | cons r rs =>
    have hwire : (P.flow start (!side)).wire = r :: rs := by
      rw [← hw]
      exact congrArg P.wire (Bool.not_not side)
    obtain ⟨m, hm, -⟩ := (h.link (!side)).opens hwire
    have hm' : (recordLayer A K c (shared (whichOf side .rx))).unwrap
        (P.standings start side .rx) r = some m := by
      rw [whichOf_peer, Bool.not_not] at hm
      convert hm using 2
      simp only [flow, standings, Bool.not_not]
    obtain ⟨⟨C, hafter⟩, hkeyed⟩ := h.keyed.receive hw hm' hp
    have hne' : (!side) ≠ side := Bool.not_ne_self side
    have hfollows :
        P.Follows A K c shared start (P.after A K (side, .receive np fate accepts)) := by
      rw [hafter]
      refine Follows.single .receive (b := !side) ?_ ?_
      · rw [Ratchet.Link.after, hwire]
        simp only [hm]
        simp only [flow, Bool.not_not, Function.update_self, Message.standing_concat]
        rfl
      · rw [flow, flow]
        simp only [Bool.not_not, Function.update_of_ne hne']
    exact ⟨h.of_follows hkeyed hfollows (by rw [hafter]), hfollows⟩

theorem Inv.after (h : P.Inv A K c shared start) {call : Bool × TrafficOp}
    (hp : P.permits K call) : (P.after A K call).Inv A K c shared start ∧
      P.Follows A K c shared start (P.after A K call) := by
  obtain ⟨side, op⟩ := call
  cases op with
  | send m => exact h.send hp
  | turn np fate accepts => exact h.turn hp
  | receive np fate accepts => exact h.receive hp
  | release => exact h.release

/-- Every run of the two sides is a run of two links. -/
theorem Inv.run (h : P.Inv A K c shared start) {calls : List (Bool × TrafficOp)}
    (hrun : (machine A K).Run P calls Q) :
    Q.Inv A K c shared start ∧ P.Follows A K c shared start Q := by
  refine hrun.invariant (P := fun Q => Q.Inv A K c shared start ∧ P.Follows A K c shared start Q)
    ?_ ⟨h, .same fun _ => rfl⟩
  rintro R call ⟨hi, hf⟩ hp
  obtain ⟨hi', hf'⟩ := hi.after hp
  refine ⟨hi', fun b => ?_⟩
  obtain ⟨moves, hrun⟩ := hf b
  obtain ⟨moves', hrun'⟩ := hf' b
  exact ⟨moves ++ moves', hrun.append hrun'⟩

end Traffic

end Ktls
