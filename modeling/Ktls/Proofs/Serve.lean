import Ktls.Proofs.Delivery
import Ktls.Spec.Serve

/-! What the README's loop has done when it hands the socket over, and that it never hands over
anything else. -/

namespace Ktls

variable {K : Kdf} {T : Tls}

theorem ktlsExchangeStep_answer {x : KtlsExchange} {s : Ssl} (hx : x.ssl = some s)
    {a : HandshakeAnswer} {fate : DeriveFate} {step : KtlsStep}
    (hok : (ktlsExchangeStep K x a fate).1 = .ok step) :
    (step = .done → (ktlsExchangeStep K x a fate).2.done = true) ∧
      (step = .reading → (ktlsExchangeStep K x a fate).2.done = false) := by
  cases hd : x.done with
  | true =>
    rw [ktlsExchangeStep_again hx hd]
    refine ⟨fun _ => hd, ?_⟩
    rintro rfl
    simp only [ktlsExchangeStep, hx, hd, if_true, Except.ok.injEq] at hok
    split_ifs at hok
  | false =>
    obtain ⟨-, ⟨hrc, -, hdone, -⟩ | ⟨hnot, hdone⟩⟩ := ktlsExchangeStep_cases K a fate hx hd
    · refine ⟨fun _ => hdone, ?_⟩
      rintro rfl
      simp only [ktlsExchangeStep, hx, hd, Bool.false_eq_true, if_false, hrc, ne_eq,
        not_true] at hok
      split at hok
      · cases hok
      · simp only [Except.ok.injEq] at hok
        split_ifs at hok
    · refine ⟨?_, fun _ => hdone⟩
      rintro rfl
      have hrc : a.rc ≠ 1 := fun hrc => hnot ⟨hrc, _, hok⟩
      simp only [ktlsExchangeStep, hx, hd, Bool.false_eq_true, if_false, if_pos hrc] at hok
      split_ifs at hok <;> cases hok

namespace Session

variable {S S' : Session}

/-- The handshake is all there was: no record behind the peer's Finished has been opened, and
none that moves the key was written. -/
structure Early (S : Session) : Prop where
  done : S.Complete → S.x.done = true
  inbox : S.Complete → behindFinished S.inbox = []
  plain : S.PlainBehind .tx

/-- No KeyUpdate was written and no record refused, or what was written is still owed. -/
structure Clean (S : Session) : Prop where
  done : S.x.done = true
  plain : S.owed = [] → S.PlainBehind .tx
  inbox : S.owed = [] → ∀ k ∈ behindFinished S.inbox, k.Plain ∨ ∃ asks, k = .keyUpdate asks

theorem Early.clean (h : S.Early) (hi : S.Inv K T) (hd : S.x.done = true) : S.Clean where
  done := hd
  plain _ := h.plain
  inbox _ := by
    rw [h.inbox (hi.kinds.done hd)]
    exact fun k hk => absurd hk List.not_mem_nil

theorem Early.same (h : S.Early) (hdone : S'.x.done = S.x.done) (hinbox : S'.inbox = S.inbox)
    (houtbox : S'.outbox = S.outbox) : S'.Early := by
  have hcomplete : S'.Complete ↔ S.Complete := by rw [Complete, hinbox, ← Complete]
  constructor
  · rw [hcomplete, hdone]
    exact h.done
  · rw [hcomplete, hinbox]
    exact h.inbox
  · rw [PlainBehind, hcomplete, carried, outKinds_same houtbox]
    exact h.plain

theorem Early.take (h : S.Early) (hi : S.Inv K T) (cap : ℕ) :
    (S.after K (.take cap)).Early := by
  rw [after_take hi.accounts rfl]
  exact h.same rfl rfl rfl

theorem Early.feed (h : S.Early) (hi : S.Inv K T) {bytes : Bytes} (hlt : bytes.length < 2 ^ 31)
    (written : ℤ) : (S.after K (.feed bytes written)).Early := by
  rw [after_feed hi.accounts hlt]
  split_ifs
  · exact h.same rfl rfl rfl
  · exact h

theorem owed_feed (hi : S.Inv K T) {bytes : Bytes} (hlt : bytes.length < 2 ^ 31) (written : ℤ) :
    (S.after K (.feed bytes written)).owed = S.owed := by
  rw [after_feed hi.accounts hlt]
  split_ifs
  · have hssl : (S.accept bytes).x.ssl = some ⟨T.server, S.unread ++ bytes, S.owed⟩ := by
      simp only [Session.accept, hi.accounts.ssl, Option.map_some]
    exact owed_eq hssl
  · rfl

variable {a : HandshakeAnswer} {fate : DeriveFate} {got : List RecordKind} {wrote : List Wrote}
  {answer : KtlsStep}

/-- The peer's Finished is opened by the call that ends the handshake. -/
theorem Early.completes (h : S.Early) (hd : S.x.done = false) (hp : S.Handshake T a got wrote)
    (hc : .finished ∈ S.inbox ++ got) : S.Completes T a got wrote := by
  cases hp with
  | waits hw =>
    rcases List.mem_append.mp hc with hc | hc
    · exact absurd hc hw.fresh
    · exact absurd hc hw.not_finished
  | completes hc => exact hc
  | again hg => exact absurd (hd.symm.trans (h.done hg.complete)) (by decide)

theorem Early.step (h : S.Early) (hi : S.Inv K T) (hp : S.permits T (.step a fate got wrote))
    (hok : (ktlsExchangeStep K S.x a fate).1 = .ok answer) :
    (S.after K (.step a fate got wrote)).Early ∧
      (answer = .done → (S.after K (.step a fate got wrote)).x.done = true) ∧
      (answer = .reading → ¬ (S.after K (.step a fate got wrote)).Complete) := by
  obtain ⟨hdone, hreading⟩ := ktlsExchangeStep_answer hi.accounts.ssl hok
  cases hd : S.x.done with
  | true =>
    have hsame : (ktlsExchangeStep K S.x a fate).2 = S.x :=
      ktlsExchangeStep_again hi.accounts.ssl hd
    rw [after_step_done hi.accounts hd]
    refine ⟨h, fun _ => hd, fun hr => ?_⟩
    exact absurd ((hreading hr).symm.trans (hsame ▸ hd)) (by decide)
  | false =>
    rw [after_step hd]
    have hcompletes := h.completes hd (hp hd)
    have hearly (hc : S.Completes T a got wrote) :
        (ktlsExchangeStep K S.x a fate).2.done = true := by
      obtain ⟨-, ⟨-, -, hdone', -⟩ | ⟨hnot, -⟩⟩ :=
        ktlsExchangeStep_cases K a fate hi.accounts.ssl hd
      · exact hdone'
      · exact absurd ⟨hc.rc, answer, hok⟩ hnot
    refine ⟨⟨fun hc => hearly (hcompletes hc), fun hc => ?_, fun hc => ?_⟩, hdone, fun hr hc => ?_⟩
    · exact ((hcompletes hc).fresh_after _ _).inbox
    · rw [carried, S.outKinds_append rfl]
      exact (hcompletes hc).plain
    · exact absurd ((hreading hr).symm.trans (hearly (hcompletes hc))) (by decide)

/-- With nothing owed, the step that ends the handshake comes in time. -/
theorem Early.prompt (h : S.Early) (hi : S.Inv K T) (howed : S.owed = [])
    (hp : S.permits T (.step a fate got wrote)) : S.Prompt K T (.step a fate got wrote) := by
  intro hs hd hd'
  have hc := (hi.after (K := K) hp trivial).kinds.done hd'
  rw [after_step hd] at hc
  have hcomp := h.completes hd (hp hd) hc
  have hgrows := S.grows_after (K := K) (.step a fate got wrote)
  rw [hi.taken_at_answer hs hcomp howed]

/-- A backlog that leaves nothing owed has written nothing. -/
theorem Clean.backlog (h : S.Clean) (hi : S.Inv K T) {cap : ℕ} {r : ReadAnswer}
    (hp : S.SslRead cap r got wrote) : (S.after K (.backlog cap r got wrote)).Clean := by
  rw [after_backlog hi.accounts h.done hp.keylog]
  have hssl : (S.drain r.input r.output got wrote).x.ssl = some ⟨T.server, r.input, r.output⟩ := by
    simp only [Session.drain, hi.accounts.ssl, Option.map_some]
  have hquiet (ho : (S.drain r.input r.output got wrote).owed = []) :
      S.owed = [] ∧ wrote = [] := by
    rw [owed_eq hssl, hp.writes.output_eq] at ho
    obtain ⟨howed, hflat⟩ := List.append_eq_nil_iff.mp ho
    refine ⟨howed, List.eq_nil_iff_forall_not_mem.mpr fun w hw => ?_⟩
    have hpos := (hp.writes.whole w hw).pos
    rw [List.flatten_eq_nil_iff.mp hflat _ (List.mem_map_of_mem hw)] at hpos
    exact absurd hpos (lt_irrefl _)
  have hc := hi.kinds.done h.done
  refine ⟨h.done, fun ho hc' => ?_, fun ho k hk => ?_⟩
  · obtain ⟨howed, rfl⟩ := hquiet ho
    rw [carried, S.outKinds_append rfl, List.map_nil, List.append_nil]
    exact h.plain howed hc
  · obtain ⟨howed, rfl⟩ := hquiet ho
    change k ∈ behindFinished (S.inbox ++ got) at hk
    rw [behindFinished_append hc] at hk
    rcases List.mem_append.mp hk with hk | hk
    · exact h.inbox howed k hk
    · obtain ⟨hhandshake, hfinished⟩ := hp.kinds_in k hk
      cases k with
      | handshake => exact absurd rfl hhandshake
      | finished => exact absurd rfl hfinished
      | bad => exact absurd (hp.fails hk).2 List.not_mem_nil
      | keyUpdate asks => exact .inr ⟨asks, rfl⟩
      | ticket | data | alert => exact .inl trivial

theorem standing_plain_iff (hi : S.Inv K T) (h : S.Clean) (howed : S.owed = [])
    (dir : KtlsDirection) :
    standing (S.carried dir) = { sequence := (behindFinished (S.carried dir)).length } ↔
      dir = .tx ∨ ∀ asks, .keyUpdate asks ∉ behindFinished S.inbox := by
  cases dir with
  | tx => exact iff_of_true ((h.plain howed).standing hi h.done) (.inl rfl)
  | rx =>
    have hc := hi.kinds.done h.done
    refine ⟨fun hst => .inr fun asks hk => ?_, fun hnot => ?_⟩
    · have hfinished : .finished ∉ behindFinished S.inbox :=
        fun hf => (hi.kinds.inbox_behind hc _ hf).2 rfl
      have hgen := generation_foldl_advance {} hfinished
      rw [carried, standing_behind hc] at hst
      rw [hst] at hgen
      have hpos : 0 < (behindFinished S.inbox).countP
          (fun k => k = .keyUpdate true ∨ k = .keyUpdate false) :=
        List.countP_pos_iff.mpr ⟨_, hk, by cases asks <;> decide⟩
      simp only at hgen
      omega
    · have hplain : S.PlainBehind .rx := by
        intro _ k hk
        rcases h.inbox howed k hk with hk' | ⟨asks, rfl⟩
        · exact hk'
        · exact absurd hk (hnot.resolve_left (by decide) asks)
      exact hplain.standing hi h.done

variable {np : NullPending}

/-- What the kernel reads out of a blob is the key and the count of the SSL. -/
theorem Inv.kernelKey_blobFor (hi : S.Inv K T) (hex : S.Exact) (hr : Ready np S.x)
    (dir : KtlsDirection) : kernelKey (blobFor np S.x dir) = some (trafficKey K
      (ktlsNegotiatedCipher (some T.suite)) (T.secret (whichOf T.server dir))
      (behindFinished (S.carried dir)).length) := by
  have hle := hi.sequence_le np dir
  rw [hi.blobFor_eq hr, kernelKey_blob _ _ _ (by omega), hi.sequence_behind (fun _ => hex) hr]

theorem asked (hi : S.Inv K T) (hex : S.Exact) (np : NullPending) (dir : KtlsDirection) :
    (S.after K (.ask np dir)).Inv K T ∧ (S.after K (.ask np dir)).Exact ∧
      (S.after K (.ask np dir)).owed = S.owed ∧ (S.Clean → (S.after K (.ask np dir)).Clean) := by
  refine ⟨hi.ask np dir, hex.after hi trivial trivial trivial, ?_⟩
  obtain ⟨q, hq⟩ := Inv.ask_eq (K := K) (S := S) np dir
  rw [hq]
  exact ⟨rfl, fun h => ⟨h.done, h.plain, h.inbox⟩⟩

end Session

theorem ktlsOffload_asks (np : NullPending) (x : KtlsExchange) (sock : TcpSocket)
    (fate : OffloadFate) : (ktlsOffload np x sock fate).2.1 =
      (ktlsCryptoInfo np (ktlsCryptoInfo np x .tx).2 .rx).2 := by
  unfold ktlsOffload
  rcases ktlsCryptoInfo np x .tx with ⟨tx, y⟩
  dsimp only
  rcases ktlsCryptoInfo np y .rx with ⟨rx, z⟩
  cases rx with
  | error e => rfl
  | ok rx =>
    cases tx with
    | error e => rfl
    | ok tx =>
      have hname : ¬ ktlsOptname .rx < 0 := by decide
      dsimp only
      rw [if_neg hname]
      by_cases hinit : ¬ fate.initialized = true
      · rw [if_pos hinit]
      rw [if_neg hinit]
      rcases ktlsAttachUlp sock fate.ulp with ⟨_ | _, sock⟩
      · rfl
      dsimp only
      rcases setsockopt sock ktlsSolTls (ktlsOptname .tx) tx fate.tx with ⟨_ | _, sock⟩
      · rfl
      dsimp only
      rcases setsockopt sock ktlsSolTls (ktlsOptname .rx) rx fate.rx with ⟨_ | _, sock⟩
      · rfl
      · rfl

namespace Serve

variable {V : Serve} {again : Bool}

/-- What holds at each place of the loop. -/
def Here (V : Serve) : Prop :=
  match V.pc with
  | .step => V.session.owed = [] ∧ V.session.Early
  | .take answer => V.session.Early ∧ (answer = .done → V.session.x.done = true) ∧
      (answer = .reading → ¬ V.session.Complete)
  | .read => V.session.owed = [] ∧ V.session.Early ∧ ¬ V.session.Complete
  | .backlog | .offload => V.session.Clean
  | .served => V.sock.tx.isSome ∧ V.sock.rx.isSome
  | .failed => True

/-- The kernel has been told of directions, and rightly. -/
structure Told (K : Kdf) (T : Tls) (V : Serve) : Prop where
  pc : V.pc = .served ∨ V.pc = .failed
  clean : V.session.Clean
  owed : V.session.owed = []
  written : V.written = V.session.taken
  slot : ∀ dir b, V.sock.slot dir = some b → kernelKey b = some (trafficKey K
    (ktlsNegotiatedCipher (some T.suite)) (T.secret (whichOf T.server dir))
    (behindFinished (V.session.carried dir)).length)

structure Inv (K : Kdf) (T : Tls) (V : Serve) : Prop where
  session : V.session.Inv K T
  exact : V.session.Exact
  written : V.pc ≠ .failed → V.written = V.session.taken
  here : V.Here
  told : V.sock.Bare ∨ V.Told K T

theorem inv_opened : (opened T).Inv K T where
  session := Session.inv_opened K T
  exact := Session.exact_opened T
  written _ := rfl
  here := by
    have hno : ¬ (Session.opened T).Complete := List.not_mem_nil
    have howed : (Session.opened T).owed = [] := by
      unfold Session.opened
      cases T.server <;> rfl
    exact ⟨howed, fun hc => absurd hc hno, fun hc => absurd hc hno, fun hc => absurd hc hno⟩
  told := .inl ⟨rfl, rfl⟩

/-- Until the socket is offered keys it has none, and what was taken is written. -/
theorem Inv.going (h : V.Inv K T) (hserved : V.pc ≠ .served) (hfailed : V.pc ≠ .failed) :
    V.sock.Bare ∧ V.written = V.session.taken :=
  ⟨h.told.resolve_right fun ht => ht.pc.elim hserved hfailed, h.written hfailed⟩

theorem inv_failed {S : Session} {sock : TcpSocket} (hi : S.Inv K T) (hex : S.Exact)
    (hbare : sock.Bare) (written : Bytes) : Inv K T ⟨.failed, S, sock, written⟩ :=
  ⟨hi, hex, fun hne => absurd rfl hne, trivial, .inl hbare⟩

theorem Inv.step {a : HandshakeAnswer} {fate : DeriveFate} {got : List RecordKind}
    {wrote : List Wrote} (h : V.Inv K T) (hp : V.permits T (.step a fate got wrote)) :
    (V.after K again (.step a fate got wrote)).Inv K T := by
  obtain ⟨hpc, hp⟩ := hp
  have hhere := h.here
  rw [Here, hpc] at hhere
  obtain ⟨howed, hearly⟩ := hhere
  obtain ⟨hbare, hwritten⟩ := h.going (by simp [hpc]) (by simp [hpc])
  have htaken : (V.session.after K (.step a fate got wrote)).taken = V.session.taken := by
    simp only [Session.after]
    split_ifs <;> rfl
  have hsession := h.session.after (K := K) hp trivial
  have hexact := h.exact.after h.session hp trivial (hearly.prompt h.session howed hp)
  rw [after]
  cases hres : (ktlsExchangeStep K V.session.x a fate).1 with
  | error e => exact inv_failed hsession hexact hbare _
  | ok answer =>
    exact ⟨hsession, hexact, fun _ => hwritten.trans htaken.symm,
      hearly.step h.session hp hres, .inl hbare⟩

theorem Inv.take {sends : Bool} (h : V.Inv K T) (hp : V.permits T (.take sends)) :
    (V.after K again (.take sends)).Inv K T := by
  obtain ⟨answer, hpc⟩ := hp
  have hhere := h.here
  rw [Here, hpc] at hhere
  obtain ⟨hearly, hdone, hreading⟩ := hhere
  obtain ⟨hbare, hwritten⟩ := h.going (by simp [hpc]) (by simp [hpc])
  have hcap : (cInt bufferSize).toNat = bufferSize := by decide
  have htake := congrArg Prod.fst (ktlsExchangeTake_eq h.session.accounts.ssl hcap)
  have hafter := Session.after_take (K := K) h.session.accounts hcap
  have hpos : 0 < bufferSize := by decide
  have htakes : V.session.permits T (.take bufferSize) := hpos
  have hsession := h.session.after (K := K) htakes trivial
  have hexact := h.exact.after (K := K) h.session htakes trivial trivial
  have hearly' := hearly.take h.session bufferSize
  simp only [after, htake, Except.toOption, Option.getD_some]
  rw [hafter] at hsession hexact hearly' ⊢
  cases hout : V.session.owed.take bufferSize with
  | nil =>
    have howed : V.session.owed = [] :=
      (List.take_eq_nil_iff.mp hout).resolve_left hpos.ne'
    have hssl : (V.session.ship bufferSize).x.ssl = some ⟨T.server, V.session.unread, []⟩ := by
      simp only [Session.ship, h.session.accounts.ssl, howed, List.drop_nil, Option.map_some]
    have howed' := Session.owed_eq hssl
    have htaken : V.written = (V.session.ship bufferSize).taken := by
      rw [hwritten, Session.ship, hout, List.append_nil]
    rw [hpc]
    cases answer with
    | done =>
      exact ⟨hsession, hexact, fun _ => htaken, hearly'.clean hsession (hdone rfl), .inl hbare⟩
    | reading =>
      exact ⟨hsession, hexact, fun _ => htaken, ⟨howed', hearly', hreading rfl⟩, .inl hbare⟩
    | writing => exact ⟨hsession, hexact, fun _ => htaken, ⟨howed', hearly'⟩, .inl hbare⟩
  | cons c out =>
    cases sends with
    | true =>
      have hhere' : (V.session.ship bufferSize).Early ∧
          (answer = .done → (V.session.ship bufferSize).x.done = true) ∧
          (answer = .reading → ¬ (V.session.ship bufferSize).Complete) :=
        ⟨hearly', hdone, hreading⟩
      refine ⟨hsession, hexact, fun _ => ?_, ?_, .inl hbare⟩
      · rw [Session.ship, hout, ← hwritten]
        rfl
      · rw [Here]
        simp only [hpc, if_true]
        exact hhere'
    | false => exact inv_failed hsession hexact hbare _

theorem Inv.read {bytes : Bytes} {written : ℤ} (h : V.Inv K T)
    (hp : V.permits T (.read bytes written)) : (V.after K again (.read bytes written)).Inv K T := by
  obtain ⟨hpc, hlen⟩ := hp
  have hhere := h.here
  rw [Here, hpc] at hhere
  obtain ⟨howed, hearly, -⟩ := hhere
  obtain ⟨hbare, hwritten⟩ := h.going (by simp [hpc]) (by simp [hpc])
  have hlt : bytes.length < 2 ^ 31 := lt_of_le_of_lt hlen (by decide)
  have hfeeds : V.session.permits T (.feed bytes written) := trivial
  have hsession := h.session.after (K := K) hfeeds hlt
  have hexact := h.exact.after (K := K) h.session hfeeds hlt trivial
  rw [after]
  split_ifs
  · exact inv_failed h.session h.exact hbare _
  · cases hres : (ktlsExchangeFeed V.session.x bytes written).1 with
    | error e => exact inv_failed hsession hexact hbare _
    | ok u =>
      exact ⟨hsession, hexact, fun _ => hwritten,
        ⟨(Session.owed_feed h.session hlt written).trans howed, hearly.feed h.session hlt written⟩,
        .inl hbare⟩

theorem Inv.backlog {a : ReadAnswer} {got : List RecordKind} {wrote : List Wrote}
    (h : V.Inv K T) (hp : V.permits T (.backlog a got wrote)) :
    (V.after K again (.backlog a got wrote)).Inv K T := by
  obtain ⟨hpc, hp⟩ := hp
  have hclean := h.here
  rw [Here, hpc] at hclean
  obtain ⟨hbare, hwritten⟩ := h.going (by simp [hpc]) (by simp [hpc])
  have htaken : (V.session.after K (.backlog bufferSize a got wrote)).taken =
      V.session.taken := by
    simp only [Session.after]
    split_ifs <;> rfl
  have hsession := h.session.after (K := K) hp trivial
  have hexact := h.exact.after h.session hp trivial (K := K) trivial
  have hclean' := hclean.backlog h.session (hp hclean.done)
  have hwritten' := hwritten.trans htaken.symm
  rw [after]
  rcases (ktlsExchangeBacklog V.session.x a).1 with e | _ | ⟨c, plain⟩
  · exact ⟨hsession, hexact, fun _ => hwritten', hclean', .inl hbare⟩
  · exact ⟨hsession, hexact, fun _ => hwritten', hclean', .inl hbare⟩
  · cases again with
    | true => exact ⟨hsession, hexact, fun _ => hwritten', hclean', .inl hbare⟩
    | false => exact ⟨hsession, hexact, fun _ => hwritten', hclean', .inl hbare⟩

theorem Inv.offload {np : NullPending} {fate : OffloadFate} (h : V.Inv K T)
    (hpc : V.pc = .offload) : (V.after K again (.offload np fate)).Inv K T := by
  have hclean := h.here
  rw [Here, hpc] at hclean
  obtain ⟨hbare, hwritten⟩ := h.going (by simp [hpc]) (by simp [hpc])
  have hasks : ({ V.session with x := (ktlsOffload np V.session.x V.sock fate).2.1 } : Session) =
      (V.session.after K (.ask np .tx)).after K (.ask np .rx) := by
    rw [ktlsOffload_asks]
    rfl
  obtain ⟨hsession, hexact, howed, hclean'⟩ := Session.asked h.session h.exact np .tx
  obtain ⟨hsession, hexact, howed', hclean''⟩ := Session.asked hsession hexact np .rx
  have hclean := hclean'' (hclean' hclean)
  have howed := howed'.trans howed
  have htaken : ((V.session.after K (.ask np .tx)).after K (.ask np .rx)).taken =
      V.session.taken := rfl
  have hcarried (dir : KtlsDirection) :
      ((V.session.after K (.ask np .tx)).after K (.ask np .rx)).carried dir =
        V.session.carried dir := by
    cases dir <;> rfl
  have hkey (hr : Ready np V.session.x) (dir : KtlsDirection) :=
    h.session.kernelKey_blobFor h.exact hr dir
  have htold {pc : ServePc} {sock : TcpSocket} (hpc : pc = .served ∨ pc = .failed)
      (hr : Ready np V.session.x)
      (hsock : ∀ dir b, sock.slot dir = some b → b = blobFor np V.session.x dir) :
      Told K T { V with
        session := (V.session.after K (.ask np .tx)).after K (.ask np .rx)
        sock := sock
        pc := pc } := by
    refine ⟨hpc, hclean, howed.trans (h.session.owed_nil hr), hwritten, fun dir b hb => ?_⟩
    rw [hsock dir b hb, hcarried, hkey hr dir]
  have hresult : (ktlsOffload np V.session.x V.sock fate).1 =
      (Offer.mk np V.session.x fate).result V.sock := rfl
  have hgiven : (ktlsOffload np V.session.x V.sock fate).2.2 =
      (Offer.mk np V.session.x fate).after V.sock := rfl
  rw [after]
  dsimp only
  rw [hasks, hresult, hgiven]
  rcases (Offer.mk np V.session.x fate).cases_of_call V.sock with ⟨-, ⟨e, he⟩, hsame⟩ |
    ⟨-, -, he, hsock⟩ | ⟨hgo, -, -, he, hsock⟩ | ⟨hgo, -, -, hok, hsock⟩
  · rw [he, hsame]
    exact inv_failed hsession hexact hbare _
  · rw [he, hsock]
    have hbare' : ({ V.sock with ulp := true } : TcpSocket).Bare := hbare
    exact inv_failed hsession hexact hbare' _
  · rw [he, hsock]
    obtain ⟨hr, -⟩ := not_not.mp hgo
    refine ⟨hsession, hexact, fun hne => absurd rfl hne, trivial,
      .inr (htold (.inr rfl) hr fun dir b hb => ?_)⟩
    cases dir with
    | tx => exact (Option.some.inj hb).symm
    | rx => exact absurd (hbare.2.symm.trans hb) (by simp)
  · rw [hok, hsock]
    obtain ⟨hr, -⟩ := not_not.mp hgo
    refine ⟨hsession, hexact, fun _ => hwritten, ⟨rfl, rfl⟩,
      .inr (htold (.inl rfl) hr fun dir b hb => ?_)⟩
    cases dir with
    | tx => exact (Option.some.inj hb).symm
    | rx => exact (Option.some.inj hb).symm

theorem Inv.after (h : V.Inv K T) {op : ServeOp} (hp : V.permits T op) :
    (V.after K again op).Inv K T := by
  cases op with
  | step a fate got wrote => exact h.step hp
  | take sends => exact h.take hp
  | read bytes written => exact h.read hp
  | backlog a got wrote => exact h.backlog hp
  | offload np fate => exact h.offload hp

/-- What the README's loop does with a socket, whatever is on the other side of it and whatever
fails. It reads only while the handshake waits for the peer, and has sent all it owes by then. If
the kernel is given a key, then behind everything the SSL wrote, and it goes on with the suite,
the key and the count of the SSL, unless it receives and a KeyUpdate has come in. A socket that
is handed over has both keys, and what the SSL has not read or not read to the end of a record
is all that the kernel will not find there. -/
theorem hands_over {ops : List ServeOp} (hrun : (machine K T again).Run (opened T) ops V) :
    (V.pc = .read → V.written = V.session.wire ∧ ¬ V.session.Complete) ∧
    (∀ dir b n, n = (behindFinished (V.session.carried dir)).length →
      V.sock.slot dir = some b →
      V.written = V.session.wire ∧
      kernelKey b = some (trafficKey K (ktlsNegotiatedCipher (some T.suite))
        (T.secret (whichOf T.server dir)) n) ∧
      (standing (V.session.carried dir) = { sequence := n } ↔
        dir = .tx ∨ ∀ asks, .keyUpdate asks ∉ behindFinished V.session.inbox)) ∧
    (V.pc = .served → V.sock.tx.isSome ∧ V.sock.rx.isSome ∧
      (V.session.Settled (behindFinished V.session.inbox).length ↔
        V.session.unread = [] ∧ tlsRecord.rest V.session.fed = [])) := by
  have h : V.Inv K T := hrun.invariant (fun _ _ hi hp => hi.after hp) inv_opened
  have hwire (howed : V.session.owed = []) : V.session.wire = V.session.taken := by
    rw [h.session.accounts.wire, howed, List.append_nil]
  refine ⟨fun hpc => ?_, fun dir b n hn hb => ?_, fun hpc => ?_⟩
  · have hhere := h.here
    rw [Here, hpc] at hhere
    obtain ⟨howed, -, hnot⟩ := hhere
    refine ⟨?_, hnot⟩
    rw [hwire howed]
    exact h.written (by simp [hpc])
  · subst hn
    have htold : V.Told K T := by
      refine h.told.resolve_left fun hbare => ?_
      cases dir with
      | tx => exact absurd (hbare.1.symm.trans hb) (by simp)
      | rx => exact absurd (hbare.2.symm.trans hb) (by simp)
    exact ⟨htold.written.trans (hwire htold.owed).symm, htold.slot dir b hb,
      Session.standing_plain_iff h.session htold.clean htold.owed dir⟩
  · have hhere := h.here
    rw [Here, hpc] at hhere
    obtain ⟨htx, hrx⟩ := hhere
    have htold : V.Told K T := by
      refine h.told.resolve_left fun hbare => ?_
      rw [hbare.1] at htx
      cases htx
    have hlen := length_behindFinished (h.session.kinds.done htold.clean.done)
    refine ⟨htx, hrx, ?_⟩
    rw [Session.Settled, h.session.accounts.fed, hlen]
    constructor
    · intro hsettled
      obtain ⟨hr, hall, -⟩ := hsettled
      exact ⟨(h.session.accounts.drained_iff hr).mp hall, hr⟩
    · intro hdrained
      obtain ⟨hu, hr⟩ := hdrained
      have hall := (h.session.accounts.drained_iff hr).mpr hu
      exact ⟨hr, hall, hall⟩

open Session

/-- A handshake that waits for the peer. -/
def waiting (output : Bytes) : HandshakeAnswer where
  rc := -1
  error := .wantRead
  input := []
  output := output

/-- A client whose peer's Finished and ticket arrive together. -/
def sampleServe : List ServeOp :=
  [.step (waiting helloRecord) {} [] [⟨.handshake, helloRecord⟩], .take true, .take true,
   .step (waiting []) {} [] [], .take true,
   .read (helloRecord ++ sealedRecord 53 ++ sealedRecord 40) 198,
   .step { sampleDone false (sealedRecord 53) with input := sealedRecord 40 } {}
     [.handshake, .finished] [⟨.finished, sealedRecord 53⟩],
   .take true, .take true,
   .step (waiting []) {} [] [], .take true,
   .backlog wantsMore [.ticket] [], .offload .zero {}]

def sampleServed : Serve :=
  sampleServe.foldl (machine sampleKdf (sampleTls false) false).next (opened (sampleTls false))

theorem hands_over_sample :
    sampleServed.written = helloRecord ++ sealedRecord 53 ∧
    (sampleServed.sock.rx.bind kernelKey) =
      some (trafficKey sampleKdf ktlsAesGcm128 (sampleSecret 1) 1) ∧
    sampleServed.session.Settled 1 := by
  have hrun : (machine sampleKdf (sampleTls false) false).Run (opened (sampleTls false))
      sampleServe sampleServed := Machine.Run.of_check (by decide +kernel)
  obtain ⟨-, hslot, hserved⟩ := hands_over hrun
  obtain ⟨-, hrx, hsettled⟩ := hserved (by decide +kernel)
  have hlen : (behindFinished sampleServed.session.inbox).length = 1 := by decide +kernel
  obtain ⟨b, hb⟩ := Option.isSome_iff_exists.mp hrx
  obtain ⟨hwritten, hkey, -⟩ := hslot .rx b 1 hlen.symm hb
  rw [hlen] at hsettled
  refine ⟨hwritten.trans (by decide +kernel), ?_, hsettled.mpr (by decide +kernel)⟩
  rw [hb, Option.bind_some, hkey]
  exact congrArg some (by decide +kernel)

end Serve

end Ktls
