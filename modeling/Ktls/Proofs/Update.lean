import Ktls.Proofs.Release
import Ktls.Spec.Update

/-! A key update whose later expansions fail has turned the secret already. -/

namespace Ktls

variable {K : Kdf} {x y : KtlsExchange} {dir : KtlsDirection} {i : Fin 2}

theorem memcpy_eq_self_iff {dst src : Bytes} : memcpy dst 0 src = dst ↔ src <+: dst := by
  rw [memcpy, List.take_zero, List.nil_append, Nat.zero_add]
  refine ⟨?_, ?_⟩
  · intro h
    exact ⟨_, h⟩
  · rintro ⟨t, rfl⟩
    rw [List.drop_left]

theorem expand_failed (K : Kdf) {fate : KdfFate} (secret : Bytes) (label : String) (n : ℕ)
    (h : fate ≠ .derived) : ∃ e, ktlsExpand K fate secret label n = .error e := by
  cases fate with
  | derived => exact absurd rfl h
  | noFetch => exact ⟨_, rfl⟩
  | noContext => exact ⟨_, rfl⟩
  | noDerive => exact ⟨_, rfl⟩

/-- A filling that fails has written the key, or nothing. -/
theorem ktlsFill_failed {fate : FillFate} (h : (ktlsFill K x i fate).1 ≠ .ok ()) :
    (ktlsFill K x i fate).2 =
      if x.secretLen i ≠ 0 ∧ fate.key = .derived then
        { x with
          key := Function.update x.key i
            (memcpy (x.key i) 0 (K.expand (x.heldSecret i) "key" (keyLen x.cipher))) }
      else x := by
  unfold ktlsFill at h ⊢
  by_cases hlen : x.secretLen i = 0
  · rw [if_pos hlen, if_neg fun hn => hn.1 hlen]
  rw [if_neg hlen] at h ⊢
  by_cases hkey : fate.key = .derived
  · rw [if_pos ⟨hlen, hkey⟩]
    simp only [hkey, ktlsExpand, heldSecret_key] at h ⊢
    cases hiv : fate.iv with
    | derived =>
      rw [hiv] at h
      exact absurd rfl h
    | noFetch => rfl
    | noContext => rfl
    | noDerive => rfl
  · obtain ⟨e, he⟩ := expand_failed K (x.heldSecret i) "key" (keyLen x.cipher) hkey
    rw [he, if_neg fun hn => hkey hn.2]

variable {np : NullPending} {fate : NextKeyFate}

/-- An update that fails on its first expansion has written nothing; one that fails
later has turned the secret and raised the flag. -/
theorem ktlsNextKey_failed (hd : x.done = true) (h : (ktlsNextKey K x dir fate).1 ≠ .ok ()) :
    (fate.upd ≠ .derived ∧ (ktlsNextKey K x dir fate).2 = x) ∨
    (fate.upd = .derived ∧ ∃ z, z = x.turn (whichOf x.server dir)
        (K.expand (x.heldSecret (whichOf x.server dir)) "traffic upd"
          (x.secretLen (whichOf x.server dir))) ∧
      (ktlsFill K z (whichOf x.server dir) fate.fill).1 ≠ .ok () ∧
      (ktlsNextKey K x dir fate).2 = (ktlsFill K z (whichOf x.server dir) fate.fill).2) := by
  rw [ktlsNextKey_eq hd] at h ⊢
  by_cases hupd : fate.upd = .derived
  · refine .inr ⟨hupd, _, rfl, ?_⟩
    simp only [hupd, ktlsExpand] at h ⊢
    exact ⟨h, trivial⟩
  · obtain ⟨e, he⟩ := expand_failed K (x.heldSecret (whichOf x.server dir)) "traffic upd"
      (x.secretLen (whichOf x.server dir)) hupd
    rw [he]
    exact .inl ⟨hupd, rfl⟩

theorem turn_held {next : Bytes} (hnext : next = x.heldSecret i) (hrek : x.rekeyed i = true) :
    x.turn i next = x := by
  have hsec : memcpy (x.secret i) 0 next = x.secret i :=
    memcpy_eq_self_iff.mpr (hnext ▸ List.take_prefix _ _)
  have hflag : Function.update x.rekeyed i true = x.rekeyed := by
    rw [← hrek, Function.update_eq_self]
  rw [KtlsExchange.turn, hsec, hflag, Function.update_eq_self]

theorem Harmless.same (hh : Harmless K dir x fate) (hd : x.done = true)
    (h : (ktlsNextKey K x dir fate).1 ≠ .ok ()) : (ktlsNextKey K x dir fate).2 = x := by
  rcases ktlsNextKey_failed hd h with ⟨-, hsame⟩ | ⟨hupd, z, hz, hfail, hafter⟩
  · exact hsame
  obtain ⟨hheld, hrek, hkey⟩ := hh.resolve_left (not_not.mpr hupd)
  have hzx : z = x := hz.trans (turn_held hheld hrek)
  rw [hafter, ktlsFill_failed hfail, hzx]
  split_ifs with hwrote
  · rw [memcpy_eq_self_iff.mpr (hkey hwrote.1 hwrote.2), Function.update_eq_self]
  · rfl

theorem Harmless.of_kept (hd : x.done = true) (h : (ktlsNextKey K x dir fate).1 ≠ .ok ())
    (hk : Kept np x (ktlsNextKey K x dir fate).2) : Harmless K dir x fate := by
  rcases ktlsNextKey_failed hd h with ⟨hupd, -⟩ | ⟨-, z, hz, hfail, hafter⟩
  · exact .inl hupd
  generalize hi : whichOf x.server dir = i at hz hfail hafter
  generalize hn : K.expand (x.heldSecret i) "traffic upd" (x.secretLen i) = next at hz
  have hlen : next.length = x.secretLen i := by rw [← hn, K.length_expand]
  rw [hafter, ktlsFill_failed hfail] at hk
  -- filling touches neither the secret nor the flag, so both are as turned
  have hsecret : z.secret = x.secret := by
    have hs := hk.secret
    split_ifs at hs <;> exact hs
  have hflag : z.rekeyed = x.rekeyed := by
    have hr := hk.rekeyed
    split_ifs at hr <;> exact hr
  have hheld : next = x.heldSecret i := by
    have hs := congrFun hsecret i
    rw [hz] at hs
    simp only [KtlsExchange.turn, Function.update_self] at hs
    have hpre := memcpy_eq_self_iff.mp hs
    rw [KtlsExchange.heldSecret, ← hlen]
    exact (List.prefix_iff_eq_take.mp hpre)
  have hrek : x.rekeyed i = true := by
    have hr := congrFun hflag i
    rw [hz] at hr
    simpa only [KtlsExchange.turn, Function.update_self] using hr.symm
  have hzx : z = x := hz.trans (turn_held hheld hrek)
  refine .inr ?_
  rw [hi]
  refine ⟨hn.trans hheld, hrek, fun hl hkey => ?_⟩
  have hkeys := congrFun hk.key i
  rw [hzx, if_pos ⟨hl, hkey⟩] at hkeys
  simp only [Function.update_self] at hkeys
  exact memcpy_eq_self_iff.mp hkeys

/-- The secrets as they lie in their buffers. -/
def Sized (x : KtlsExchange) : Prop :=
  ∀ i, (x.secret i).length = ktlsSecretMax ∧ x.secretLen i ≤ ktlsSecretMax

theorem Sized.fits (h : Sized x) (i : Fin 2) : x.secretLen i ≤ (x.secret i).length := by
  rw [(h i).1]
  exact (h i).2

theorem Sized.nextKey (h : Sized x) (dir : KtlsDirection) (fate : NextKeyFate) :
    Sized (ktlsNextKey K x dir fate).2 := by
  by_cases hd : x.done = true
  swap
  · rwa [ktlsNextKey_early hd]
  rw [ktlsNextKey_eq hd]
  generalize whichOf x.server dir = j
  cases hexp : ktlsExpand K fate.upd (x.heldSecret j) "traffic upd" (x.secretLen j) with
  | error e => exact h
  | ok next =>
    obtain ⟨-, rfl⟩ := expand_derived hexp
    obtain ⟨key, iv, info, hfill, -⟩ := ktlsFill_frame K (x.turn j
      (K.expand (x.heldSecret j) "traffic upd" (x.secretLen j))) j fate.fill
    simp only
    rw [hfill]
    intro i
    refine ⟨?_, (h i).2⟩
    change (Function.update x.secret j _ i).length = ktlsSecretMax
    by_cases hi : i = j
    · rw [hi, Function.update_self, length_memcpy (by rw [K.length_expand]; exact (by
        have := h.fits j
        omega))]
      exact (h j).1
    · rw [Function.update_of_ne hi]
      exact (h i).1

theorem Sized.logged {x' : KtlsExchange} (h : Sized x) {lines : Fin 2 → List Bytes}
    (hslot : ∀ i, slot x' i = (lines i).foldl (slotAfter i) (slot x i)) : Sized x' := by
  intro i
  have hsized := foldl_slotAfter_sized i (lines i) (s := slot x i) (h i)
  rw [← hslot i] at hsized
  exact hsized

theorem Sized.effect (h : Sized x) {call : Call} {x' : KtlsExchange} (he : call.Effect K x x') :
    Sized x' := by
  cases he with
  | idle => exact h
  | feed => exact h
  | @step s a fate hx hd => exact h.logged (ktlsExchangeStep_cases K a fate hx hd).1.slot
  | take => exact h
  | @backlog s a hx hd => exact h.logged (ktlsExchangeBacklog_slot hx hd a)
  | ask => exact h
  | @nextKey dir fate => exact h.nextKey dir fate
  | release => exact h

theorem sized_reachable {role : KtlsRole} {calls : List Call}
    (hrun : (Call.machine K).Run (ktlsExchangeOpen role) calls x) : Sized x :=
  hrun.invariant (fun x call h _ => h.effect (call.effect K x)) fun _ =>
    ⟨List.length_replicate, Nat.zero_le _⟩

theorem Kept.refl (np : NullPending) (x : KtlsExchange) : Kept np x x :=
  ⟨rfl, rfl, rfl, rfl, rfl, fun _ => rfl, fun _ => rfl⟩

/-- Every attempt that gets past its first expansion turns the secret by one notch, also
when it fails afterwards. -/
theorem heldSecret_attempt (hs : Sized x) (hd : x.done = true)
    (h : (ktlsNextKey K x dir fate).1 ≠ .ok ()) :
    (ktlsNextKey K x dir fate).2.heldSecret (whichOf x.server dir) =
      secretAfter K (x.heldSecret (whichOf x.server dir))
        (if fate.upd = .derived then 1 else 0) := by
  rcases ktlsNextKey_failed hd h with ⟨hupd, hsame⟩ | ⟨hupd, z, hz, hfail, hafter⟩
  · rw [hsame, if_neg hupd]
    rfl
  · generalize whichOf x.server dir = i at hz hfail hafter ⊢
    have hheld : (x.heldSecret i).length = x.secretLen i := by
      rw [KtlsExchange.heldSecret, List.length_take, Nat.min_eq_left (hs.fits i)]
    rw [hafter, if_pos hupd, ktlsFill_failed hfail, hz]
    have hturn := heldSecret_turn (x := x) (i := i) (K.length_expand (x.heldSecret i) "traffic upd"
      (x.secretLen i))
    have hone : secretAfter K (x.heldSecret i) 1 =
        K.expand (x.heldSecret i) "traffic upd" (x.secretLen i) := by
      rw [← hheld]
      rfl
    split_ifs
    · rw [heldSecret_key, hturn, hone]
    · rw [hturn, hone]

/-- Over any number of failed attempts: the exchange stays one with the same side, and its
secret is turned as often as an attempt got past its first expansion. -/
theorem attempts_run {fates : List NextKeyFate} (hrun : (attempts K dir).Run x fates y)
    (hs : Sized x) (hd : x.done = true) :
    Sized y ∧ y.done = true ∧ y.server = x.server ∧
      y.heldSecret (whichOf x.server dir) = secretAfter K (x.heldSecret (whichOf x.server dir))
        (fates.countP fun fate => fate.upd = .derived) := by
  induction hrun with
  | nil x => exact ⟨hs, hd, rfl, rfl⟩
  | @cons x fate fates y hp _ ih =>
    have hturn := heldSecret_attempt hs hd hp
    have hs' : Sized ((attempts K dir).next x fate) := hs.nextKey dir fate
    obtain ⟨sec, rek, key, iv, info, hframe, -⟩ := ktlsNextKey_frame K x dir fate
    have hd' : ((attempts K dir).next x fate).done = true := by
      change (ktlsNextKey K x dir fate).2.done = true
      rwa [hframe]
    have hserver : ((attempts K dir).next x fate).server = x.server := by
      change (ktlsNextKey K x dir fate).2.server = x.server
      rw [hframe]
    obtain ⟨hsy, hdy, hservery, hheld⟩ := ih hs' hd'
    rw [hserver] at hservery hheld
    refine ⟨hsy, hdy, hservery, ?_⟩
    change y.heldSecret _ = secretAfter K ((ktlsNextKey K x dir fate).2.heldSecret _) _ at hheld
    rw [hheld, hturn, List.countP_cons]
    simp only [decide_eq_true_eq]
    exact (Function.iterate_add_apply _ _ _ _).symm

/-- An update that fails leaves a finished exchange as it was exactly when it is harmless.
Attempts repeated until one succeeds turn the secret once for the one that succeeds, and
once more for every failed one that got past its first expansion; harmless ones leave
everything for the next. -/
theorem failed_update_kept_iff {role : KtlsRole} {calls : List Call}
    (hrun : (Call.machine K).Run (ktlsExchangeOpen role) calls x) (hd : x.done = true)
    (dir : KtlsDirection) (np : NullPending) :
    (∀ fate, (ktlsNextKey K x dir fate).1 ≠ .ok () →
      (Kept np x (ktlsNextKey K x dir fate).2 ↔ Harmless K dir x fate)) ∧
    (∀ fates y, (attempts K dir).Run x fates y → ∀ fate, (ktlsNextKey K y dir fate).1 = .ok () →
      (ktlsNextKey K y dir fate).2.heldSecret (whichOf x.server dir) =
        secretAfter K (x.heldSecret (whichOf x.server dir))
          ((fates.countP fun fate => fate.upd = .derived) + 1)) ∧
    ∀ fates y, ((attempts K dir).restrict (Harmless K dir)).Run x fates y → y = x := by
  have hs := sized_reachable hrun
  refine ⟨fun fate hfail => ⟨Harmless.of_kept hd hfail, fun hh => ?_⟩, ?_, ?_⟩
  · rw [hh.same hd hfail]
    exact Kept.refl np x
  · intro fates y htries fate hok
    obtain ⟨hsy, -, hserver, hheld⟩ := attempts_run htries hs hd
    have hnext := (ktlsNextKey_ok hsy.fits hok).1
    rw [hserver, hheld] at hnext
    rw [hnext, secretAfter_succ]
  · intro fates y htries
    have hinv := htries.invariant (P := fun z => z = x) ?_ rfl
    · exact hinv
    · rintro z fate rfl ⟨hfail, hh⟩
      exact hh.same hd hfail

/-- A server that has sent its two tickets, with nothing owed. -/
def drainedServer : List Call := owingServer ++ [.take 1000]

/-- An update of what it sends with, whose second expansion fails. -/
def halfTurned : KtlsExchange :=
  (ktlsNextKey sampleKdf (sampleCalled drainedServer) .tx { fill := { key := .noDerive } }).2

/-- The call has failed, and the kernel is told to start over at record 0 under the key it
has sent two records with; the secret has moved on. -/
theorem failed_update_turns :
    (Call.machine sampleKdf).Run (ktlsExchangeOpen .server) drainedServer
      (sampleCalled drainedServer) ∧
    (ktlsNextKey sampleKdf (sampleCalled drainedServer) .tx { fill := { key := .noDerive } }).1 =
      .error "EVP_KDF_derive" ∧
    (ktlsCryptoInfo .zero (sampleCalled drainedServer) .tx).1 =
      .ok (blob sampleKdf ktlsAesGcm128 (sampleSecret 1) 2) ∧
    (ktlsCryptoInfo .zero halfTurned .tx).1 =
      .ok (blob sampleKdf ktlsAesGcm128 (sampleSecret 1) 0) ∧
    (sampleCalled drainedServer).heldSecret 1 = sampleSecret 1 ∧
    halfTurned.heldSecret 1 = sampleNext 1 ∧
    ¬ Kept .zero (sampleCalled drainedServer) halfTurned := by
  refine ⟨Machine.Run.of_check (by decide +kernel), by decide +kernel, by decide +kernel,
    by decide +kernel, by decide +kernel, by decide +kernel, fun h => ?_⟩
  exact absurd (h.sequence .tx) (by decide +kernel)

theorem failed_update_kept_first :
    Kept .zero (sampleCalled drainedServer)
      (ktlsNextKey sampleKdf (sampleCalled drainedServer) .tx { upd := .noDerive }).2 := by
  have hrun : (Call.machine sampleKdf).Run (ktlsExchangeOpen .server) drainedServer
      (sampleCalled drainedServer) := Machine.Run.of_check (by decide +kernel)
  exact ((failed_update_kept_iff hrun (by decide +kernel) .tx .zero).1 { upd := .noDerive }
    (by decide +kernel)).mpr (.inl (by decide))

end Ktls
