import Ktls.Proofs.Rekey
import Ktls.Proofs.Retry
import Ktls.Spec.Release

/-! Which finished exchanges answer the same with and without their SSL. -/

namespace Ktls

variable {K : Kdf} {x : KtlsExchange} {np : NullPending}

/-- What a call comes to: it gets past its guards, or it changes nothing. -/
inductive Call.Effect (K : Kdf) (x : KtlsExchange) : Call → KtlsExchange → Prop
  | idle (call : Call) : Effect K x call x
  | feed {s : Ssl} {bytes : Bytes} {written : ℤ} (hx : x.ssl = some s)
      (hacc : Accepted s bytes written) : Effect K x (.feed bytes written) { x with
        ssl := some { s with input := s.input ++ bytes.take (cInt bytes.length).toNat }
        rx := ktlsScan x.rx bytes
        rxFed := x.rxFed + bytes.length }
  | step {s : Ssl} {a : HandshakeAnswer} {fate : DeriveFate} (hx : x.ssl = some s)
      (hd : x.done = false) : Effect K x (.step a fate) (ktlsExchangeStep K x a fate).2
  | take {s : Ssl} {cap : ℕ} (hx : x.ssl = some s) : Effect K x (.take cap) { x with
        ssl := some { s with output := s.output.drop (cInt cap).toNat }
        tx := ktlsScan x.tx (s.output.take (cInt cap).toNat) }
  | backlog {s : Ssl} {a : ReadAnswer} (hx : x.ssl = some s) (hd : x.done = true) :
      Effect K x (.backlog a) (ktlsExchangeBacklog x a).2
  | ask {np : NullPending} {dir : KtlsDirection} (seq : Fin 2 → Bytes) :
      Effect K x (.ask np dir) { x with info := fun i => (x.info i).withSeq (seq i) }
  | nextKey {dir : KtlsDirection} {fate : NextKeyFate} :
      Effect K x (.nextKey dir fate) (ktlsNextKey K x dir fate).2
  | release : Effect K x .release (ktlsExchangeRelease x)

theorem Call.effect (K : Kdf) (x : KtlsExchange) (call : Call) :
    call.Effect K x (call.after K x) := by
  cases call with
  | feed bytes written =>
    rw [Call.after]
    cases hx : x.ssl with
    | none =>
      simp only [ktlsExchangeFeed, hx]
      exact .idle _
    | some s =>
      rw [ktlsExchangeFeed_exact hx]
      split_ifs with hacc
      · exact .feed hx hacc
      · exact .idle _
  | step a fate =>
    rw [Call.after]
    cases hx : x.ssl with
    | none =>
      simp only [ktlsExchangeStep, hx]
      exact .idle _
    | some s =>
      cases hd : x.done with
      | true =>
        rw [ktlsExchangeStep_again hx hd]
        exact .idle _
      | false => exact .step hx hd
  | take cap =>
    rw [Call.after]
    cases hx : x.ssl with
    | none =>
      simp only [ktlsExchangeTake, hx]
      exact .idle _
    | some s =>
      rw [ktlsExchangeTake_eq hx rfl]
      exact .take hx
  | backlog a =>
    rw [Call.after]
    cases hd : x.done with
    | false =>
      rw [ktlsExchangeBacklog_early hd]
      exact .idle _
    | true =>
      cases hx : x.ssl with
      | none =>
        simp only [ktlsExchangeBacklog, hd, not_true, if_false, hx]
        exact .idle _
      | some s => exact .backlog hx hd
  | ask np dir =>
    obtain ⟨seq, hseq⟩ := ktlsCryptoInfo_frame np x dir
    rw [Call.after, hseq]
    exact .ask seq
  | nextKey dir fate => exact .nextKey
  | release => exact .release

/-- Bytes are counted as they are fed, and the BIO holds no more than that. -/
structure Counted (x : KtlsExchange) : Prop where
  rx : ∃ b, x.rx = parsed b ∧ x.rxFed = b.length
  unread : x.unread.length ≤ x.rxFed

theorem unread_ssl {s : Ssl} (h : x.ssl = some s) : x.unread = s.input := by
  rw [KtlsExchange.unread, h]
  rfl

theorem Counted.same {x' : KtlsExchange} (h : Counted x) (hrx : x'.rx = x.rx)
    (hfed : x'.rxFed = x.rxFed) (hunread : x'.unread.length ≤ x.unread.length) : Counted x' :=
  ⟨hrx ▸ hfed ▸ h.rx, hfed ▸ hunread.trans h.unread⟩

theorem Counted.effect (h : Counted x) {call : Call} (hp : call.Takes x) {x' : KtlsExchange}
    (he : call.Effect K x x') : Counted x' := by
  cases he with
  | idle => exact h
  | @feed s bytes written hx hacc =>
    obtain ⟨b, hrx, hfed⟩ := h.rx
    have hunread := h.unread
    rw [unread_ssl hx] at hunread
    refine ⟨⟨b ++ bytes, ?_, ?_⟩, ?_⟩
    · change ktlsScan x.rx bytes = _
      rw [hrx, ktlsScan_parsed]
    · change x.rxFed + bytes.length = _
      rw [hfed, List.length_append]
    · change (s.input ++ bytes.take _).length ≤ x.rxFed + bytes.length
      rw [List.length_append]
      exact Nat.add_le_add hunread (List.length_take_le' _ _)
  | @step s a fate hx hd =>
    obtain ⟨hst, -⟩ := ktlsExchangeStep_cases K a fate hx hd
    refine h.same hst.rx hst.rxFed ?_
    rw [unread_ssl hst.ssl]
    exact List.IsSuffix.length_le hp
  | take hx => exact h.same rfl rfl (by rw [unread_ssl hx]; exact le_rfl)
  | backlog hx hd =>
    obtain ⟨sec, len, hframe⟩ := ktlsExchangeBacklog_frame hx hd _
    rw [hframe]
    exact h.same rfl rfl (List.IsSuffix.length_le hp)
  | ask => exact h.same rfl rfl le_rfl
  | nextKey =>
    obtain ⟨sec, rek, key, iv, info, hframe, -⟩ := ktlsNextKey_frame K x _ _
    rw [hframe]
    exact h.same rfl rfl le_rfl
  | release => exact h.same rfl rfl (Nat.zero_le _)

theorem counted_reachable {role : KtlsRole} {calls : List Call}
    (hrun : (Call.machine K).Run (ktlsExchangeOpen role) calls x) : Counted x :=
  hrun.invariant (fun x call h hp => h.effect hp (call.effect K x))
    ⟨⟨[], parsed_nil.symm, rfl⟩, Nat.zero_le _⟩

/-- A wider bound counts no more exactly when nothing lies in between. -/
theorem countP_widen_iff (l : List ℕ) {a u v : ℕ} (h : u ≤ v) :
    l.countP (fun e => a < e ∧ e ≤ v) = l.countP (fun e => a < e ∧ e ≤ u) ↔
      ∀ e ∈ l, a < e → e ≤ v → e ≤ u := by
  induction l with
  | nil => simp
  | cons e l ih =>
    have hmono : l.countP (fun e => a < e ∧ e ≤ u) ≤ l.countP (fun e => a < e ∧ e ≤ v) := by
      refine List.countP_mono_left fun e _ he => ?_
      simp only [decide_eq_true_eq] at he ⊢
      omega
    rw [List.forall_mem_cons, ← ih, List.countP_cons, List.countP_cons]
    simp only [decide_eq_true_eq]
    split_ifs <;> omega

theorem Counted.ends_le (h : Counted x) : ∀ e ∈ x.rx.ends.take x.rx.count, e ≤ x.rxFed := by
  obtain ⟨b, hrx, hfed⟩ := h.rx
  intro e he
  rw [hrx, ends_parsed] at he
  have hle := Framing.le_of_mem_cuts (List.mem_of_mem_take he)
  have hflat := congrArg List.length (tlsRecord.flatten_frames b)
  rw [List.length_append] at hflat
  omega

theorem Counted.consumed_release (h : Counted x) (np : NullPending) {s : Ssl}
    (hx : x.ssl = some s) :
    consumed np x = x.rxFed - x.unread.length ∧
      consumed np x ≤ consumed np (ktlsExchangeRelease x) ∧
      x.rxFed ≤ consumed np (ktlsExchangeRelease x) := by
  have hle := h.unread
  rw [unread_ssl hx] at hle ⊢
  have hbefore : consumed np x = x.rxFed - s.input.length := by
    rw [consumed, pendingIn, hx]
    simp only
    omega
  have hafter : x.rxFed ≤ consumed np (ktlsExchangeRelease x) := by
    have hvalue : np.value ≤ 0 := by cases np <;> decide
    change x.rxFed ≤ ((x.rxFed : ℤ) - np.value).toNat
    omega
  exact ⟨hbefore, by omega, hafter⟩

/-- Releasing keeps the receive sequence exactly when no record still to be counted
ends in what the SSL has not read. -/
theorem Counted.sequence_release_rx (h : Counted x) (np : NullPending) {s : Ssl}
    (hx : x.ssl = some s) :
    sequenceOf np (ktlsExchangeRelease x) .rx = sequenceOf np x .rx ↔
      x.rekeyed (whichOf x.server .rx) = true ∨
        ∀ e ∈ x.rx.ends.take x.rx.count, x.rxAtDone < e → e ≤ x.rxFed - x.unread.length := by
  obtain ⟨hbefore, hle, hafter⟩ := h.consumed_release np hx
  have hends := h.ends_le
  by_cases hrek : x.rekeyed (whichOf x.server .rx) = true
  · have hseq : sequenceOf np x .rx = 0 := if_pos hrek
    have hseq' : sequenceOf np (ktlsExchangeRelease x) .rx = 0 := if_pos hrek
    rw [hseq, hseq']
    simp [hrek]
  · have hseq : sequenceOf np x .rx = ktlsRecordsBetween x.rx x.rxAtDone (consumed np x) :=
      if_neg hrek
    have hseq' : sequenceOf np (ktlsExchangeRelease x) .rx =
        ktlsRecordsBetween x.rx x.rxAtDone (consumed np (ktlsExchangeRelease x)) := if_neg hrek
    rw [hseq, hseq', ktlsRecordsBetween, ktlsRecordsBetween, countP_widen_iff _ hle, hbefore,
      or_iff_right hrek]
    refine ⟨?_, ?_⟩
    · intro hall e he hlt
      exact hall e he hlt ((hends e he).trans hafter)
    · intro hall e he hlt _
      exact hall e he hlt

theorem toOption_eq_iff {r r' : Except String Bytes} :
    r.toOption = r'.toOption ↔ ∀ b, r = .ok b ↔ r' = .ok b := by
  refine ⟨?_, ?_⟩
  · intro h b
    cases r <;> cases r' <;> simp_all [Except.toOption]
  · intro h
    cases r with
    | ok b => rw [(h b).mp rfl]
    | error e =>
      cases r' with
      | ok b => cases (h b).mpr rfl
      | error e' => rfl

/-- One that was released before is safe to release: there is nothing left to lose. -/
theorem Counted.released_safe (h : Counted x) (hx : x.ssl = none) : ReleaseSafe x := by
  have hunread : x.unread = [] := by
    rw [KtlsExchange.unread, hx]
    rfl
  have howed : x.owed = [] := by
    rw [KtlsExchange.owed, hx]
    rfl
  refine ⟨.inl howed, .inr ?_⟩
  intro e he _
  rw [hunread]
  exact h.ends_le e he

theorem pendingOut_live {s : Ssl} (hx : x.ssl = some s) (np : NullPending) :
    pendingOut np x ≤ 0 ↔ x.owed = [] := by
  have howed : x.owed = s.output := by
    rw [KtlsExchange.owed, hx]
    rfl
  rw [howed, pendingOut, hx]
  exact Int.natCast_nonpos_iff.trans List.length_eq_zero_iff

/-- The blob of a direction survives, where its sequence does, exactly when nothing is owed
or there is none in any case. -/
theorem cryptoInfo_release_iff {s : Ssl} (hx : x.ssl = some s) (hd : x.done = true)
    {dir : KtlsDirection} (hseq : sequenceOf np (ktlsExchangeRelease x) dir = sequenceOf np x dir) :
    (ktlsCryptoInfo np (ktlsExchangeRelease x) dir).1.toOption =
        (ktlsCryptoInfo np x dir).1.toOption ↔
      x.owed = [] ∨ x.tx.overflowed = true ∨ x.rx.overflowed = true := by
  have hd' : (ktlsExchangeRelease x).done = true := hd
  refine ⟨fun hsame => ?_, fun hout => toOption_eq_iff.mpr fun b => ?_⟩
  · by_contra hno
    simp only [not_or, Bool.not_eq_true] at hno
    obtain ⟨hne, htx, hrx⟩ := hno
    -- the released exchange answers here, so the other would have to
    have hok := (toOption_eq_iff.mp hsame _).mp
      (ktlsCryptoInfo_ok.mpr ⟨hd', pendingOut_release np x, htx, hrx, rfl⟩)
    exact hne ((pendingOut_live hx np).mp (ktlsCryptoInfo_ok.mp hok).2.1)
  · rw [ktlsCryptoInfo_ok, ktlsCryptoInfo_ok, hseq, pendingOut_live hx]
    refine ⟨?_, ?_⟩
    · rintro ⟨-, -, htx, hrx, hb⟩
      refine ⟨hd, ?_, htx, hrx, hb⟩
      rcases hout with hout | hout | hout
      · exact hout
      · exact absurd (htx.symm.trans hout) (by decide)
      · exact absurd (hrx.symm.trans hout) (by decide)
    · rintro ⟨-, -, htx, hrx, hb⟩
      exact ⟨hd, pendingOut_release np x, htx, hrx, hb⟩

/-- One state: its answers survive the release exactly when it is safe. -/
theorem Counted.release_iff (h : Counted x) (hd : x.done = true) (np : NullPending) :
    (∀ dir, (ktlsCryptoInfo np (ktlsExchangeRelease x) dir).1.toOption =
        (ktlsCryptoInfo np x dir).1.toOption ∧
      ktlsRecordSequence np (ktlsExchangeRelease x) dir = ktlsRecordSequence np x dir) ↔
    ReleaseSafe x := by
  cases hx : x.ssl with
  | none =>
    have hsame : ktlsExchangeRelease x = x := by
      rw [ktlsExchangeRelease, ← hx]
    exact iff_of_true (fun dir => by rw [hsame]; exact ⟨rfl, rfl⟩) (h.released_safe hx)
  | some s =>
    have hd' : (ktlsExchangeRelease x).done = true := hd
    have hrecord (dir : KtlsDirection) : ktlsRecordSequence np x dir = sequenceOf np x dir :=
      if_neg (not_not.mpr hd)
    have hrecord' (dir : KtlsDirection) : ktlsRecordSequence np (ktlsExchangeRelease x) dir =
        sequenceOf np (ktlsExchangeRelease x) dir := if_neg (not_not.mpr hd')
    have hiff := h.sequence_release_rx np hx
    refine ⟨fun hall => ⟨(cryptoInfo_release_iff hx hd rfl).mp (hall .tx).1, hiff.mp ?_⟩, ?_⟩
    · rw [← hrecord, ← hrecord']
      exact (hall .rx).2
    · rintro ⟨hout, hin⟩ dir
      have hseq : sequenceOf np (ktlsExchangeRelease x) dir = sequenceOf np x dir := by
        cases dir with
        | tx => rfl
        | rx => exact hiff.mpr hin
      exact ⟨(cryptoInfo_release_iff hx hd hseq).mpr hout, by rw [hrecord, hrecord', hseq]⟩

theorem updated_release (updates : List (KtlsDirection × NextKeyFate)) :
    updated K (ktlsExchangeRelease x) updates = ktlsExchangeRelease (updated K x updates) := by
  induction updates generalizing x with
  | nil => rfl
  | cons u us ih =>
    change updated K (ktlsNextKey K (ktlsExchangeRelease x) u.1 u.2).2 us = _
    rw [ktlsNextKey_release]
    exact ih

theorem updated_safe (h : Counted x) (hd : x.done = true) (hs : ReleaseSafe x)
    (updates : List (KtlsDirection × NextKeyFate)) :
    Counted (updated K x updates) ∧ (updated K x updates).done = true ∧
      ReleaseSafe (updated K x updates) := by
  induction updates generalizing x with
  | nil => exact ⟨h, hd, hs⟩
  | cons u us ih =>
    obtain ⟨sec, rek, key, iv, info, hframe, -, hmono⟩ := ktlsNextKey_frame K x u.1 u.2
    have hnext : updated K x (u :: us) = updated K (ktlsNextKey K x u.1 u.2).2 us := rfl
    rw [hnext, hframe]
    refine ih (h.same rfl rfl le_rfl) hd ⟨hs.1, ?_⟩
    rcases hs.2 with hrek | hends
    · exact .inl (hmono _ hrek)
    · exact .inr hends

/-- An exchange answers the same with and without its SSL, now and after any key
updates, exactly when it is safe to release. -/
theorem release_transparent_iff {role : KtlsRole} {calls : List Call}
    (hrun : (Call.machine K).Run (ktlsExchangeOpen role) calls x) (hd : x.done = true)
    (np : NullPending) :
    (∀ updates dir,
      (ktlsCryptoInfo np (updated K (ktlsExchangeRelease x) updates) dir).1.toOption =
        (ktlsCryptoInfo np (updated K x updates) dir).1.toOption ∧
      ktlsRecordSequence np (updated K (ktlsExchangeRelease x) updates) dir =
        ktlsRecordSequence np (updated K x updates) dir) ↔
    ReleaseSafe x := by
  have h := counted_reachable hrun
  refine ⟨?_, ?_⟩
  · intro hall
    exact (h.release_iff hd np).mp fun dir => hall [] dir
  · intro hs updates dir
    obtain ⟨h', hd', hs'⟩ := updated_safe (K := K) h hd hs updates
    rw [updated_release]
    exact (h'.release_iff hd' np).mpr hs' dir

open Session in
/-- A server that is done and still owes its two tickets. -/
def owingServer : List Call :=
  [.feed helloRecord 95,
   .step serverWaits {},
   .take 1000,
   .feed (sealedRecord 53) 58,
   .step (sampleDone true (sealedRecord 80 ++ sealedRecord 80)) {}]

/-- The tickets are taken, and a record arrives that nobody has read. -/
def unreadServer : List Call :=
  owingServer ++ [.take 1000, .feed (Session.sealedRecord 40) 45]

def sampleCalled (calls : List Call) : KtlsExchange :=
  calls.foldl (Call.after sampleKdf) (ktlsExchangeOpen .server)

/-- A release turns the refusal for owed bytes into a blob, and counts the record that
was never read. -/
theorem release_changes_answers :
    (Call.machine sampleKdf).Run (ktlsExchangeOpen .server) unreadServer
      (sampleCalled unreadServer) ∧
    (ktlsCryptoInfo .zero (sampleCalled owingServer) .tx).1 =
      .error "bytes are still owed to the peer - drain ktls_exchange_take first" ∧
    (ktlsCryptoInfo .zero (ktlsExchangeRelease (sampleCalled owingServer)) .tx).1 =
      .ok (blob sampleKdf ktlsAesGcm128 (sampleSecret 1) 0) ∧
    ktlsRecordSequence .zero (sampleCalled unreadServer) .rx = 0 ∧
    ktlsRecordSequence .zero (ktlsExchangeRelease (sampleCalled unreadServer)) .rx = 1 :=
  ⟨Machine.Run.of_check (by decide +kernel), by decide +kernel, by decide +kernel,
    by decide +kernel, by decide +kernel⟩

/-- With everything taken and nothing unread the release is not felt, here after a key
update of what the server sends with. -/
theorem release_transparent_drained :
    (ktlsCryptoInfo .zero (updated sampleKdf (ktlsExchangeRelease
        (sampleCalled (owingServer ++ [.take 1000]))) [(.tx, {})]) .rx).1.toOption =
      (ktlsCryptoInfo .zero (updated sampleKdf
        (sampleCalled (owingServer ++ [.take 1000])) [(.tx, {})]) .rx).1.toOption ∧
    ktlsRecordSequence .zero (updated sampleKdf (ktlsExchangeRelease
        (sampleCalled (owingServer ++ [.take 1000]))) [(.tx, {})]) .rx =
      ktlsRecordSequence .zero (updated sampleKdf
        (sampleCalled (owingServer ++ [.take 1000])) [(.tx, {})]) .rx := by
  have hrun : (Call.machine sampleKdf).Run (ktlsExchangeOpen .server)
      (owingServer ++ [.take 1000]) (sampleCalled (owingServer ++ [.take 1000])) :=
    Machine.Run.of_check (by decide +kernel)
  exact (release_transparent_iff hrun (by decide +kernel) .zero).mpr (by decide +kernel)
    [(.tx, {})] .rx

end Ktls
