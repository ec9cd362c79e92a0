import Ktls.Proofs.Table

/-! What a refused list of suites leaves behind. The default context and the remembered
list are changed first, the named contexts one after another: a context that refuses what
the one before it took leaves the contexts with different lists. -/

namespace Ktls

variable {lib : Libssl} {aesIsFast : Bool} {keys₀ keys keys' : KtlsKeys} {calls : List KeysCall}
  {ctx : SslCtx} {list : Bytes} {works : SetFate}

theorem sslCtxSetCiphersuites_takes (hlist : lib.suites list = true) (w : Bool) (c : SslCtx) :
    sslCtxSetCiphersuites lib w c list =
      if w then (.ok (), c.withSuites list) else (.error "set_ciphersuites", c) := by
  unfold sslCtxSetCiphersuites
  rw [hlist, Bool.and_true]
  rfl

/-- The loop leaves every list alone exactly when the contexts it gets to carry it already. -/
theorem eachNamed_ciphers_kept (works : SetFate) (hlist : lib.suites list = true) (i : ℕ)
    (es : List KtlsNamedCtx) :
    (eachNamed (fun i c => sslCtxSetCiphersuites lib (works i) c list) i es).2.map
        (fun e => e.ctx.suites) = es.map (fun e => e.ctx.suites) ↔
      ∀ k e, es[k]? = some e → (∀ j ≤ k, works (i + j) = true) → e.ctx.suites = list := by
  induction es generalizing i with
  | nil => simp [eachNamed]
  | cons e es ih =>
    rw [eachNamed, sslCtxSetCiphersuites_takes hlist]
    cases hw : works i with
    | false =>
      rw [if_neg Bool.false_ne_true]
      refine iff_of_true rfl fun k e' _ h => ?_
      exact absurd (h 0 (Nat.zero_le _)) (by simp [hw])
    | true =>
      rw [if_pos rfl]
      rw [List.map_cons, List.map_cons, List.cons.injEq, ih]
      refine ⟨?_, ?_⟩
      · rintro ⟨hhead, htail⟩ (_ | k) e' he' h
        · obtain rfl := Option.some.inj he'
          exact hhead.symm
        · refine htail k e' he' fun j hj => ?_
          have := h (j + 1) (Nat.succ_le_succ hj)
          rwa [Nat.add_comm j, ← Nat.add_assoc] at this
      · intro h
        refine ⟨(h 0 e rfl fun j hj => ?_).symm, fun k e' he' hk => h (k + 1) e' he' ?_⟩
        · rw [Nat.le_zero.mp hj]
          exact hw
        · rintro (_ | j) hj
          · exact hw
          · have := hk j (Nat.le_of_succ_le_succ hj)
            rwa [Nat.add_assoc, Nat.add_comm 1] at this

theorem sslCtxSetCiphersuites_ok_iff (hlist : lib.suites list = true) (w : Bool) (c : SslCtx) :
    (sslCtxSetCiphersuites lib w c list).1 = .ok () ↔ w = true := by
  rw [sslCtxSetCiphersuites_takes hlist]
  cases w <;> simp

/-- The call is turned down with nothing changed, or the default context and the keys have
the list and the named contexts are asked in turn. -/
theorem ktlsKeysSetCiphers_cases (lib : Libssl) (keys : KtlsKeys) (suites : Option Bytes)
    (works : SetFate) :
    (((suites.getD []).length = 0 ∨ 256 ≤ (suites.getD []).length ∨
        (works 0 && lib.suites (suites.getD [])) = false) ∧
      ∃ e, ktlsKeysSetCiphers lib keys suites works = (.error e, keys)) ∨
    ((suites.getD []).length ≠ 0 ∧ ¬ 256 ≤ (suites.getD []).length ∧
      works 0 = true ∧ lib.suites (suites.getD []) = true ∧
      ktlsKeysSetCiphers lib keys suites works =
        let r := eachNamed (fun i c => sslCtxSetCiphersuites lib (works i) c (suites.getD [])) 1
          keys.named
        (r.1, { keys with
          ctx := keys.ctx.withSuites (suites.getD [])
          suites := suites.getD []
          named := r.2 })) := by
  unfold ktlsKeysSetCiphers
  dsimp only
  by_cases hlen : (suites.getD []).length = 0 ∨ 256 ≤ (suites.getD []).length
  · rw [if_pos hlen]
    exact .inl ⟨hlen.elim .inl fun h => .inr (.inl h), _, rfl⟩
  rw [if_neg hlen]
  obtain ⟨hne, hlt⟩ := not_or.mp hlen
  cases hfirst : works 0 && lib.suites (suites.getD []) with
  | false =>
    rw [sslCtxSetCiphersuites, hfirst, if_neg Bool.false_ne_true]
    exact .inl ⟨.inr (.inr rfl), _, rfl⟩
  | true =>
    obtain ⟨h0, hlist⟩ := Bool.and_eq_true_iff.mp hfirst
    rw [sslCtxSetCiphersuites_takes hlist, h0, if_pos rfl]
    exact .inr ⟨hne, hlt, rfl, hlist, rfl⟩

theorem orders_eq_iff (keys : KtlsKeys) (ctx : SslCtx) (list : Bytes) (named : List KtlsNamedCtx) :
    ({ keys with ctx := ctx, suites := list, named := named } : KtlsKeys).orders = keys.orders ↔
      keys.suites = list ∧ keys.ctx.suites = ctx.suites ∧
        named.map (fun e => e.ctx.suites) = keys.named.map fun e => e.ctx.suites := by
  simp only [KtlsKeys.orders, KtlsKeys.contexts, List.map_cons, List.map_map, List.cons.injEq,
    Function.comp_def]
  exact and_congr eq_comm (and_congr eq_comm Iff.rfl)

/-- A refused call changes no list exactly when it is unbroken. -/
theorem ktlsKeysSetCiphers_kept_iff (keys : KtlsKeys) (suites : Option Bytes) (works : SetFate) :
    (∀ e keys', ktlsKeysSetCiphers lib keys suites works = (.error e, keys') →
      keys'.orders = keys.orders) ↔ Unbroken lib keys suites works := by
  unfold Unbroken
  dsimp only
  obtain ⟨hdown, e, hsame⟩ | ⟨hne, hlt, h0, hlist, hafter⟩ :=
    ktlsKeysSetCiphers_cases lib keys suites works
  · refine iff_of_true (fun e' keys' h => ?_) (or_assoc.mp (or_assoc.mp
      (.inl (or_assoc.mpr hdown))))
    rw [hsame] at h
    rw [← (Prod.mk.inj h).2]
  generalize suites.getD [] = list at hne hlt hlist hafter ⊢
  have hok := eachNamed_ok_iff works (sslCtxSetCiphersuites_ok_iff hlist <| works ·) 1 keys.named
  have hkept := eachNamed_ciphers_kept works hlist 1 keys.named
  simp only [Nat.add_comm 1] at hok hkept
  rw [hafter]
  rcases hloop : (eachNamed (fun i c => sslCtxSetCiphersuites lib (works i) c list) 1
    keys.named).1 with e | _
  · have hbroken : ¬ ∀ k < keys.named.length, works (k + 1) = true := fun h => by
      rw [hok.mpr h] at hloop
      cases hloop
    simp only [hne, hlt, h0, hlist, hbroken, Bool.and_self, Bool.true_eq_false, false_or, ← hkept]
    refine ⟨?_, ?_⟩
    · intro h
      exact (orders_eq_iff ..).mp (h e _ (by rw [hloop]))
    · rintro h e keys' heq
      rw [← (Prod.mk.inj heq).2]
      exact (orders_eq_iff ..).mpr h
  · refine iff_of_true (fun e keys' h => ?_) (.inr (.inr (.inr (.inl (hok.mp hloop)))))
    cases hloop.symm.trans (Prod.mk.inj h).1

/-- All contexts carry one and the same list, and it is the one a later one would get. -/
def Alike (aesIsFast : Bool) (keys : KtlsKeys) : Prop :=
  ∀ c ∈ keys.contexts, c.suites = keys.inForce aesIsFast

theorem Alike.congr (h : Alike aesIsFast keys) (horders : keys'.orders = keys.orders) :
    Alike aesIsFast keys' := by
  obtain ⟨hsuites, hcontexts⟩ := List.cons.inj horders
  intro c hc
  have hmem : c.suites ∈ keys.contexts.map SslCtx.suites :=
    hcontexts ▸ List.mem_map_of_mem hc
  obtain ⟨d, hd, hcd⟩ := List.mem_map.mp hmem
  rw [← hcd, h d hd, KtlsKeys.inForce, KtlsKeys.inForce, hsuites]

theorem ktlsKeysSetAlpn_orders (protocols : List Bytes) :
    (ktlsKeysSetAlpn lib keys protocols works).2.orders = keys.orders := by
  have hset (w : Bool) (c : SslCtx) (protos : Bytes) :
      (sslCtxSetAlpn lib w c protos).2.suites = c.suites := by
    unfold sslCtxSetAlpn
    split_ifs
    · rfl
    · rfl
  unfold ktlsKeysSetAlpn
  rcases hfill : alpnFill protocols 0 keys.alpn with ⟨_ | n, alpn⟩
  · rfl
  dsimp only
  have hctx := hset (works 0) keys.ctx (alpn.take n)
  rcases hfirst : sslCtxSetAlpn lib (works 0) keys.ctx (alpn.take n) with ⟨_ | _, ctx⟩
  · replace hctx : ctx.suites = keys.ctx.suites := by rw [← hctx, hfirst]
    simp only [KtlsKeys.orders, KtlsKeys.contexts, List.map_cons, hctx]
  · replace hctx : ctx.suites = keys.ctx.suites := by rw [← hctx, hfirst]
    simp only [KtlsKeys.orders, KtlsKeys.contexts, List.map_cons, List.map_map, hctx]
    congr 2
    exact eachNamed_map _ (fun _ _ => hset _ _ _) _ _

theorem suites_suitesOn (hctx : ctx.suites = ktlsSuites aesIsFast) :
    (keys.suitesOn ctx).suites = keys.inForce aesIsFast := by
  unfold KtlsKeys.suitesOn KtlsKeys.inForce
  rw [ite_not]
  split_ifs
  · exact hctx
  · rfl

theorem Alike.after (h : Alike aesIsFast keys) {call : KeysCall} (hcall : call.Unbroken lib keys) :
    Alike aesIsFast (call.exec lib aesIsFast keys).2 := by
  cases call with
  | set s works =>
    cases s with
    | alpn protocols => exact h.congr (ktlsKeysSetAlpn_orders protocols)
    | ciphers suites =>
      rcases hr : ktlsKeysSetCiphers lib keys suites works with ⟨e | _, keys'⟩
      · simp only [KeysCall.exec, hr]
        exact h.congr ((ktlsKeysSetCiphers_kept_iff keys suites works).mpr hcall e keys' hr)
      · obtain ⟨list, -, hne, heq⟩ := ktlsKeysSetCiphers_ok (congrArg Prod.fst hr)
        simp only [KeysCall.exec, heq]
        intro c hc
        replace hc : c ∈ (keys.mapCtx (SslCtx.withSuites list)).contexts := hc
        rw [contexts_mapCtx] at hc
        obtain ⟨d, -, rfl⟩ := List.mem_map.mp hc
        exact (if_neg hne).symm
  | add p fate =>
    rcases hr : ((KeysCall.add p fate).exec lib aesIsFast keys).1 with e | _
    · rw [KeysCall.exec] at hr ⊢
      rwa [ktlsKeysAddCertificate_error hr]
    · obtain ⟨host, ctx, c, -, -, -, -, hpair, hfollow, heq⟩ := ktlsKeysAddCertificate_ok hr
      have hnew : ctx.suites = ktlsSuites aesIsFast := by rw [ctxWithPair_ok hpair]; rfl
      simp only [KeysCall.exec, heq]
      intro d hd
      rcases List.mem_cons.mp hd with rfl | hd
      · exact h keys.ctx (List.mem_cons_self ..)
      · rw [List.map_append, List.mem_append] at hd
        rcases hd with hd | hd
        · exact h d (List.mem_cons_of_mem _ hd)
        · rw [List.mem_singleton.mp hd]
          rw [ktlsCtxFollow_ok hfollow, suites_alpnOn, suites_suitesOn hnew]
          rfl

theorem Made.alike (h : Made lib aesIsFast keys) : Alike aesIsFast keys := by
  have hconf := h.configured.1
  intro c hc
  have hkept : keys.suites = [] := hconf.kept
  rw [(hconf.contexts c hc).suites, KtlsKeys.inForce, if_pos hkept]
  rfl

/-- On any keys, a refused call for suites changes no list exactly when it is unbroken. Where
all calls before were, all contexts carry one list, and so will one added later. -/
theorem refused_suites_iff (hmade : Made lib aesIsFast keys₀)
    (hrun : ((KeysCall.trials lib aesIsFast).restrict
      fun keys call => call.Unbroken lib keys).Run keys₀ calls keys) :
    (∀ keys suites works, (∀ e keys', ktlsKeysSetCiphers lib keys suites works =
        (.error e, keys') → keys'.orders = keys.orders) ↔ Unbroken lib keys suites works) ∧
    (∀ c ∈ keys.contexts, c.suites = keys.inForce aesIsFast) ∧
    ∀ p fate keys', (KeysCall.add p fate).exec lib aesIsFast keys = (.ok (), keys') →
      ∀ c ∈ keys'.contexts, c.suites = keys.inForce aesIsFast := by
  have halike : Alike aesIsFast keys :=
    hrun.invariant (fun _ _ h hcall => h.after hcall.2) hmade.alike
  refine ⟨ktlsKeysSetCiphers_kept_iff, halike, fun p fate keys' h => ?_⟩
  obtain ⟨hr, rfl⟩ := Prod.ext_iff.mp h
  obtain ⟨_, _, _, -, -, -, -, -, -, heq⟩ := ktlsKeysAddCertificate_ok hr
  have hforce : ((KeysCall.add p fate).exec lib aesIsFast keys).2.inForce aesIsFast =
      keys.inForce aesIsFast := by
    rw [KeysCall.exec, heq]
    rfl
  rw [← hforce]
  have hcall : (KeysCall.add p fate).Unbroken lib keys := trivial
  exact halike.after hcall

def gcmOnly : Bytes := ascii "TLS_AES_128_GCM_SHA256"

theorem refused_suites_sample :
    let keys := [KeysCall.add otherPair {}, .set (.ciphers (some gcmOnly))].foldl
      (KeysCall.trials sampleLib true).next sampleKeys
    ∀ c ∈ keys.contexts, c.suites = keys.inForce true := by
  have hrun : ((KeysCall.trials sampleLib true).restrict
      fun keys call => call.Unbroken sampleLib keys).Run sampleKeys
      [.add otherPair {}, .set (.ciphers (some gcmOnly))] _ :=
    .cons ⟨trivial, trivial⟩ (.cons ⟨trivial, .inr (.inr (.inr (.inl fun _ _ => rfl)))⟩ (.nil _))
  exact (refused_suites_iff sampleKeys_made hrun).2.1

/-- One named certificate, and its context finds no memory for the list the default one has
just taken: the call is refused, and the two contexts carry different lists. -/
theorem refused_suites_split :
    let keys := ((KeysCall.add otherPair {}).exec sampleLib true sampleKeys).2
    let r := ktlsKeysSetCiphers sampleLib keys (some gcmOnly) fun i => i ≠ 1
    r.1 = .error "set_ciphersuites" ∧ keys.suites = [] ∧ r.2.suites = gcmOnly ∧
      keys.contexts.map SslCtx.suites = [ktlsSuites true, ktlsSuites true] ∧
      r.2.contexts.map SslCtx.suites = [gcmOnly, ktlsSuites true] := by
  decide +kernel

end Ktls
