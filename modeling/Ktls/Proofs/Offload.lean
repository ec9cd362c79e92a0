import Ktls.Proofs.Update
import Ktls.Spec.Offload

/-! Nothing takes a key out of the kernel again, so a call that has installed the first
and is refused the second leaves the socket with half of what it asked for. -/

namespace Ktls

variable {np : NullPending} {x : KtlsExchange} {dir : KtlsDirection} {sock : TcpSocket}

/-- The exchange once a blob was asked for. -/
def sequenced (np : NullPending) (x : KtlsExchange) (dir : KtlsDirection) : KtlsExchange :=
  { x with
    info := Function.update x.info (whichOf x.server dir)
      ((x.info (whichOf x.server dir)).withSeq (be64 (sequenceOf np x dir))) }

/-- The blob of a direction, when there is one. -/
def blobFor (np : NullPending) (x : KtlsExchange) (dir : KtlsDirection) : Bytes :=
  ((x.info (whichOf x.server dir)).withSeq (be64 (sequenceOf np x dir))).bytes

theorem ktlsCryptoInfo_ready (h : Ready np x) (dir : KtlsDirection) :
    ktlsCryptoInfo np x dir = (.ok (blobFor np x dir), sequenced np x dir) := by
  obtain ⟨hd, howed, htx, hrx⟩ := h
  have hov : ¬ (x.tx.overflowed = true ∨ x.rx.overflowed = true) := by simp [htx, hrx]
  unfold ktlsCryptoInfo
  rw [if_neg (not_not.mpr hd), if_neg (not_lt.mpr howed), if_neg hov]
  rfl

theorem ktlsCryptoInfo_unready (h : ¬ Ready np x) :
    ∃ e, ∀ dir, ktlsCryptoInfo np x dir = (.error e, x) := by
  unfold ktlsCryptoInfo
  by_cases hd : x.done = true
  swap
  · exact ⟨_, fun dir => if_pos hd⟩
  by_cases howed : 0 < pendingOut np x
  · exact ⟨_, fun dir => by rw [if_neg (not_not.mpr hd), if_pos howed]⟩
  by_cases hov : x.tx.overflowed = true ∨ x.rx.overflowed = true
  · exact ⟨_, fun dir => by rw [if_neg (not_not.mpr hd), if_neg howed, if_pos hov]⟩
  · rw [not_or, Bool.not_eq_true, Bool.not_eq_true] at hov
    exact absurd ⟨hd, not_lt.mp howed, hov⟩ h

theorem blobFor_sequenced (np : NullPending) (x : KtlsExchange) :
    blobFor np (sequenced np x .tx) .rx = blobFor np x .rx := by
  have hne : whichOf x.server .rx ≠ whichOf x.server .tx :=
    fun h => KtlsDirection.noConfusion (whichOf_injective x.server h)
  have hinfo : (sequenced np x .tx).info (whichOf x.server .rx) = x.info (whichOf x.server .rx) :=
    Function.update_of_ne hne _ _
  change (((sequenced np x .tx).info (whichOf x.server .rx)).withSeq _).bytes = _
  rw [hinfo]
  rfl

theorem ktlsAttachUlp_eq (sock : TcpSocket) (accepts : Bool) :
    ktlsAttachUlp sock accepts =
      if accepts then (.ok (), { sock with ulp := true })
      else (.error "setsockopt(TCP_ULP, \"tls\")", sock) := by
  cases accepts <;> rfl

theorem setsockopt_tx (h : sock.ulp = true) (value : Bytes) (accepts : Bool) :
    setsockopt sock ktlsSolTls (ktlsOptname .tx) value accepts =
      if accepts then (true, { sock with tx := some value }) else (false, sock) := by
  cases accepts
  · rfl
  · simp [setsockopt, ktlsSolTls, ktlsOptname, solTls, ipprotoTcp, h]

theorem setsockopt_rx (h : sock.ulp = true) (value : Bytes) (accepts : Bool) :
    setsockopt sock ktlsSolTls (ktlsOptname .rx) value accepts =
      if accepts then (true, { sock with rx := some value }) else (false, sock) := by
  cases accepts
  · rfl
  · simp [setsockopt, ktlsSolTls, ktlsOptname, solTls, ipprotoTcp, tlsTx, tlsRx, h]

namespace Offer

variable {o : Offer}

/-- A call that does not get as far as the first key. -/
def Stopped (o : Offer) : Prop :=
  ¬ (Ready o.np o.x ∧ o.fate.initialized = true ∧ o.fate.ulp = true)

theorem Stopped.same (h : o.Stopped) (sock : TcpSocket) :
    (∃ e, o.result sock = .error e) ∧ o.after sock = sock := by
  unfold result after ktlsOffload
  by_cases hr : Ready o.np o.x
  swap
  · obtain ⟨e, he⟩ := ktlsCryptoInfo_unready hr
    simp only [he]
    exact ⟨⟨e, rfl⟩, trivial⟩
  have hr' : Ready o.np (sequenced o.np o.x .tx) := hr
  simp only [ktlsCryptoInfo_ready hr, ktlsCryptoInfo_ready hr']
  by_cases hinit : o.fate.initialized = true
  swap
  · rw [if_pos hinit]
    exact ⟨⟨_, rfl⟩, rfl⟩
  have hulp : o.fate.ulp = false := Bool.eq_false_iff.mpr fun hu => h ⟨hr, hinit, hu⟩
  rw [if_neg (not_not.mpr hinit), if_neg (by decide), hulp]
  exact ⟨⟨_, rfl⟩, rfl⟩

/-- What a call does that gets as far as the first key. -/
theorem going (hr : Ready o.np o.x) (hinit : o.fate.initialized = true)
    (hulp : o.fate.ulp = true) (sock : TcpSocket) :
    (o.result sock, o.after sock) =
      if o.fate.tx then
        if o.fate.rx then
          (.ok (), ⟨true, some (blobFor o.np o.x .tx), some (blobFor o.np o.x .rx)⟩)
        else
          (.error "setsockopt(TLS_RX)", { sock with
            ulp := true
            tx := some (blobFor o.np o.x .tx) })
      else (.error "setsockopt(TLS_TX)", { sock with ulp := true }) := by
  have hr' : Ready o.np (sequenced o.np o.x .tx) := hr
  have hname : ¬ ktlsOptname .rx < 0 := by decide
  unfold result after ktlsOffload
  simp only [ktlsCryptoInfo_ready hr, ktlsCryptoInfo_ready hr', blobFor_sequenced, hinit, hulp,
    hname, not_true, if_false, ktlsAttachUlp_eq, if_true, setsockopt_tx]
  cases o.fate.tx with
  | false => rfl
  | true =>
    simp only [if_true, setsockopt_rx]
    cases o.fate.rx <;> rfl

theorem cases_of_call (o : Offer) (sock : TcpSocket) :
    (o.Stopped ∧ (∃ e, o.result sock = .error e) ∧ o.after sock = sock) ∨
    (¬ o.Stopped ∧ o.fate.tx = false ∧ o.result sock = .error "setsockopt(TLS_TX)" ∧
      o.after sock = { sock with ulp := true }) ∨
    (¬ o.Stopped ∧ o.fate.tx = true ∧ o.fate.rx = false ∧
      o.result sock = .error "setsockopt(TLS_RX)" ∧
      o.after sock = { sock with ulp := true, tx := some (blobFor o.np o.x .tx) }) ∨
    (¬ o.Stopped ∧ o.fate.tx = true ∧ o.fate.rx = true ∧ o.result sock = .ok () ∧
      o.after sock = ⟨true, some (blobFor o.np o.x .tx), some (blobFor o.np o.x .rx)⟩) := by
  by_cases hstop : o.Stopped
  · exact .inl ⟨hstop, hstop.same sock⟩
  obtain ⟨hr, hinit, hulp⟩ := not_not.mp hstop
  have hgoing := going hr hinit hulp sock
  cases htx : o.fate.tx with
  | false =>
    rw [htx] at hgoing
    exact .inr (.inl ⟨hstop, rfl, Prod.mk.inj hgoing⟩)
  | true =>
    cases hrx : o.fate.rx with
    | false =>
      rw [htx, hrx] at hgoing
      exact .inr (.inr (.inl ⟨hstop, rfl, rfl, Prod.mk.inj hgoing⟩))
    | true =>
      rw [htx, hrx] at hgoing
      exact .inr (.inr (.inr ⟨hstop, rfl, rfl, Prod.mk.inj hgoing⟩))

theorem halves_iff (sock : TcpSocket) :
    o.Halves sock ↔ ¬ o.Stopped ∧ o.fate.tx = true ∧ o.fate.rx = false ∧ sock.rx = none := by
  unfold Halves Stopped
  rw [not_not, and_assoc, and_assoc]

/-- From a socket that is whole, a call keeps the promise exactly when it does not halve. -/
theorem promised_iff (hw : sock.Whole) : o.Promised sock ↔ ¬ o.Halves sock := by
  rw [halves_iff]
  obtain ⟨hstop, -, hsame⟩ | ⟨-, htx, -, hafter⟩ | ⟨hgo, htx, hrx, hres, hafter⟩ |
    ⟨-, -, hrx, hok, hafter⟩ := o.cases_of_call sock
  · refine ⟨fun _ hh => hh.1 hstop, fun _ => ?_⟩
    unfold Promised
    rw [hsame]
    exact ⟨hw, fun hbare _ => hbare⟩
  · refine ⟨fun _ hh => ?_, fun _ => ?_⟩
    · rw [htx] at hh
      cases hh.2.1
    · unfold Promised
      rw [hafter]
      exact ⟨hw, fun hbare _ => hbare⟩
  · refine ⟨fun hp hh => ?_, fun hh => ?_⟩
    · -- the key to send with is there now, and the one to receive with is not
      have hwhole := hp.1
      rw [hafter, TcpSocket.Whole, hh.2.2.2] at hwhole
      cases hwhole
    · have hkey : sock.rx ≠ none := fun hnone => hh ⟨hgo, htx, hrx, hnone⟩
      unfold Promised
      rw [hafter]
      exact ⟨(Option.isSome_iff_ne_none.mpr hkey).symm, fun hbare _ => absurd hbare.2 hkey⟩
  · refine ⟨fun _ hh => ?_, fun _ => ?_⟩
    · rw [hrx] at hh
      cases hh.2.2.1
    · unfold Promised
      rw [hafter]
      exact ⟨rfl, fun _ hfail => absurd hok hfail⟩

/-- On a socket that starts without keys, in every run of calls none of which halves it, the
socket is whole, and the next call keeps its promise exactly when it does not halve it. -/
theorem offload_whole_iff {fresh : TcpSocket} (h0 : fresh.Bare) {offers : List Offer}
    (hrun : (machine.restrict fun sock o => ¬ o.Halves sock).Run fresh offers sock) :
    sock.Whole ∧ ∀ o : Offer, o.Promised sock ↔ ¬ o.Halves sock := by
  have hfresh : fresh.Whole := by rw [TcpSocket.Whole, h0.1, h0.2]
  have hwhole := hrun.invariant (P := TcpSocket.Whole) ?_ hfresh
  swap
  · exact fun s o hw hp => ((promised_iff hw).mpr hp.2).1
  exact ⟨hwhole, fun o => promised_iff hwhole⟩

end Offer

/-- A server that has sent everything, offered while the kernel refuses the key to receive
with. -/
def refusedRx : Offer := ⟨.zero, sampleCalled drainedServer, { rx := false }⟩

/-- The call fails, and the kernel encrypts what is sent while nothing decrypts what comes. -/
theorem offload_halved :
    (Call.machine sampleKdf).Run (ktlsExchangeOpen .server) drainedServer
      (sampleCalled drainedServer) ∧
    refusedRx.result {} = .error "setsockopt(TLS_RX)" ∧
    (refusedRx.after {}).tx = some (blob sampleKdf ktlsAesGcm128 (sampleSecret 1) 2) ∧
    (refusedRx.after {}).rx = none ∧
    ¬ (refusedRx.after {}).Whole :=
  ⟨Machine.Run.of_check (by decide +kernel), by decide +kernel, by decide +kernel,
    by decide +kernel, by decide +kernel⟩

/-- Refused the key to send with, and offered again. -/
def offeredTwice : List Offer :=
  [⟨.zero, sampleCalled drainedServer, { tx := false }⟩, ⟨.zero, sampleCalled drainedServer, {}⟩]

theorem offload_whole_twice : (offeredTwice.foldl Offer.machine.next {}).Whole := by
  have hrun : (Offer.machine.restrict fun sock o => ¬ o.Halves sock).Run {} offeredTwice
      (offeredTwice.foldl Offer.machine.next {}) := Machine.Run.of_check (by decide +kernel)
  exact (Offer.offload_whole_iff ⟨rfl, rfl⟩ hrun).1

end Ktls
