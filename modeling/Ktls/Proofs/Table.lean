import Ktls.Proofs.Names

/-! The table of certificates: what is refused leaves no trace in it, what is accepted
stands behind the others, and no two of its hosts are the same name. -/

namespace Ktls

variable {lib : Libssl} {aesIsFast : Bool} {keys₀ keys : KtlsKeys} {calls : List KeysCall}
  {ctx : SslCtx} {p : NewPair} {fate : KeysFate}

/-- Hosts a certificate may be added behind. -/
structure SoundHosts (hosts : List Bytes) : Prop where
  sized : ∀ host ∈ hosts, 0 < host.length ∧ host.length < 256
  distinct : hosts.Pairwise fun a b => ¬ SameName a b

theorem SoundHosts.append {hosts : List Bytes} (h : SoundHosts hosts) {host : Bytes}
    (hsized : 0 < host.length ∧ host.length < 256) (hnew : ∀ a ∈ hosts, ¬ SameName a host) :
    SoundHosts (hosts ++ [host]) := by
  refine ⟨fun a ha => ?_, ?_⟩
  · rcases List.mem_append.mp ha with ha | ha
    · exact h.sized a ha
    · exact List.mem_singleton.mp ha ▸ hsized
  · refine List.pairwise_append.mpr ⟨h.distinct, List.pairwise_singleton _ _, fun a ha b hb => ?_⟩
    exact List.mem_singleton.mp hb ▸ hnew a ha

/-- Every exit but the last leaves the keys as they were. -/
theorem ktlsKeysAddCertificate_error {e : String}
    (h : (ktlsKeysAddCertificate lib aesIsFast keys p.host p.certPem p.keyPem fate).1 = .error e) :
    (ktlsKeysAddCertificate lib aesIsFast keys p.host p.certPem p.keyPem fate).2 = keys := by
  unfold ktlsKeysAddCertificate at h ⊢
  by_cases hlen : (p.host.getD []).length = 0 ∨ 256 ≤ (p.host.getD []).length
  · rw [if_pos hlen]
  simp only [if_neg hlen] at h ⊢
  by_cases hdup : keys.named.any fun e => strcasecmp e.host (p.host.getD [])
  · rw [if_pos hdup]
  simp only [if_neg hdup] at h ⊢
  rcases hpair : ctxWithPair lib aesIsFast p.certPem p.keyPem fate with _ | ctx
  · rfl
  simp only [hpair] at h ⊢
  rcases hfollow : ktlsCtxFollow lib keys ctx fate.suites fate.protos with _ | c
  · rfl
  simp only [hfollow] at h ⊢
  by_cases hmem : (!fate.memory) = true
  · rw [if_pos hmem]
  · rw [if_neg hmem] at h
    cases h

theorem ctxWithPair_matching (h : ctxWithPair lib aesIsFast p.certPem p.keyPem fate = .ok ctx) :
    ∃ cert key, p.pair lib = (some cert, some key) ∧
      lib.checkPrivateKey (some cert) (some key) = true := by
  unfold ctxWithPair at h
  obtain ⟨c₁, -, h⟩ := bind_ok h
  obtain ⟨c₂, h₂, h⟩ := bind_ok h
  obtain ⟨c₃, h₃, h⟩ := bind_ok h
  have hcert : ∃ cert, lib.certificate (bioMemBuf p.certPem) = some cert := by
    simp only [ktlsPemInto, Bool.false_eq_true, if_false] at h₂
    split_ifs at h₂
    split at h₂
    · cases h₂
    · next cert hcert => exact ⟨cert, hcert⟩
  obtain ⟨cert, hcert⟩ := hcert
  obtain rfl := ktlsPemInto_certificate h₂
  have hkey : ∃ key, lib.privateKey (some cert) (bioMemBuf p.keyPem) = some key := by
    simp only [ktlsPemInto, if_true] at h₃
    split_ifs at h₃
    split at h₃
    · cases h₃
    · next key hkey => exact ⟨key, hcert ▸ hkey⟩
  obtain ⟨key, hkey⟩ := hkey
  obtain rfl := ktlsPemInto_key h₃
  simp only [hcert, hkey] at h
  split_ifs at h with hcheck
  exact ⟨cert, key, by simp only [NewPair.pair, hcert, hkey], hcheck⟩

theorem exec_set_hosts (s : KeysSetting) (works : SetFate) :
    ((KeysCall.set s works).exec lib aesIsFast keys).2.named.map KtlsNamedCtx.host =
      keys.named.map KtlsNamedCtx.host := by
  cases s with
  | alpn protocols =>
    simp only [KeysCall.exec, ktlsKeysSetAlpn]
    split
    · rfl
    · split
      · rfl
      · exact eachNamed_map _ (fun _ _ => rfl) _ _
  | ciphers suites =>
    simp only [KeysCall.exec, ktlsKeysSetCiphers]
    split_ifs
    · rfl
    · split
      · rfl
      · exact eachNamed_map _ (fun _ _ => rfl) _ _

theorem SoundHosts.after (h : SoundHosts (keys.named.map KtlsNamedCtx.host)) (call : KeysCall) :
    SoundHosts ((call.exec lib aesIsFast keys).2.named.map KtlsNamedCtx.host) := by
  cases call with
  | set s works => rwa [exec_set_hosts]
  | add p fate =>
    rcases hr : ((KeysCall.add p fate).exec lib aesIsFast keys).1 with e | _
    · rw [KeysCall.exec] at hr ⊢
      rwa [ktlsKeysAddCertificate_error hr]
    · obtain ⟨host, ctx, c, -, hpos, hlt, hnew, -, -, heq⟩ := ktlsKeysAddCertificate_ok hr
      rw [KeysCall.exec, heq, List.map_append]
      refine h.append ⟨hpos, hlt⟩ fun a ha => ?_
      obtain ⟨e, he, rfl⟩ := List.mem_map.mp ha
      exact hnew e he

theorem soundHosts_run (hmade : Made lib aesIsFast keys₀)
    (hrun : (KeysCall.trials lib aesIsFast).Run keys₀ calls keys) :
    SoundHosts (keys.named.map KtlsNamedCtx.host) := by
  have hnil : keys₀.named = [] := List.map_eq_nil_iff.mp hmade.configured.2.entries
  refine hrun.invariant (P := fun keys => SoundHosts (keys.named.map KtlsNamedCtx.host)) ?_ ?_
  · intro keys call h _
    exact h.after call
  · rw [hnil]
    exact ⟨by simp, List.Pairwise.nil⟩

theorem countP_le_one {α : Type*} {R : α → α → Prop} {l : List α} {q : α → Bool}
    (h : l.Pairwise R) (hq : ∀ a b, q a = true → q b = true → ¬ R a b) : l.countP q ≤ 1 := by
  induction l with
  | nil => exact Nat.zero_le _
  | cons a l ih =>
    obtain ⟨ha, hl⟩ := List.pairwise_cons.mp h
    rw [List.countP_cons]
    by_cases hqa : q a = true
    · have hnone : l.countP q = 0 :=
        List.countP_eq_zero.mpr fun b hb hqb => hq a b hqa hqb (ha b hb)
      rw [hnone, if_pos hqa]
    · rw [if_neg hqa]
      exact ih hl

theorem matches_wildcard {host n : Bytes} (hw : isWildcard host = true)
    (h : ktlsHostMatches host n = true) : Covers host n := by
  obtain ⟨domain, rfl⟩ := List.isPrefixOf_iff_prefix.mp hw
  exact (ktlsHostMatches_iff.mp h).elim covers_of_sameName id

theorem matches_exact {host n : Bytes} (hw : isWildcard host = false)
    (h : ktlsHostMatches host n = true) : SameName host n := by
  refine (ktlsHostMatches_iff.mp h).resolve_right ?_
  rintro ⟨domain, _, _, rfl, -⟩
  exact absurd hw (by simp [isWildcard])

/-- Hosts of one kind that match one name are the same host. -/
theorem SoundHosts.countP_kind {hosts : List Bytes} (h : SoundHosts hosts) (n : Bytes)
    (wildcard : Bool) :
    hosts.countP (fun host => ktlsHostMatches host n && isWildcard host == wildcard) ≤ 1 := by
  refine countP_le_one h.distinct fun a b ha hb hne => hne ?_
  simp only [Bool.and_eq_true, beq_iff_eq] at ha hb
  cases wildcard with
  | true => exact (matches_wildcard ha.2 ha.1).sameName (matches_wildcard hb.2 hb.1)
  | false => exact (matches_exact ha.2 ha.1).trans (matches_exact hb.2 hb.1).symm

theorem countP_kinds (hosts : List Bytes) (n : Bytes) :
    hosts.countP (fun host => ktlsHostMatches host n) =
      hosts.countP (fun host => ktlsHostMatches host n && isWildcard host == false) +
        hosts.countP (fun host => ktlsHostMatches host n && isWildcard host == true) := by
  induction hosts with
  | nil => rfl
  | cons host hosts ih =>
    simp only [List.countP_cons, ih]
    cases ktlsHostMatches host n <;> cases isWildcard host <;> simp <;> omega

/-- After any calls at all: the call to add a certificate that is refused leaves the keys as
they were, the one that is accepted appends its host with the pair it was given, the hosts
are sound, and at most two of them match one name, an exact one and a wildcard. -/
theorem table_sound (hmade : Made lib aesIsFast keys₀)
    (hrun : (KeysCall.trials lib aesIsFast).Run keys₀ calls keys) :
    (∀ p fate e keys', (KeysCall.add p fate).exec lib aesIsFast keys = (.error e, keys') →
      keys' = keys) ∧
    (∀ p fate keys', (KeysCall.add p fate).exec lib aesIsFast keys = (.ok (), keys') →
      ∃ host cert key c, p.host = some host ∧ p.pair lib = (some cert, some key) ∧
        lib.checkPrivateKey (some cert) (some key) = true ∧ c.pair = (some cert, some key) ∧
        keys' = { keys with
          named := keys.named ++ [{ host := host, ctx := c }]
          ctx := { keys.ctx with servername := true } }) ∧
    (∀ e ∈ keys.named, 0 < e.host.length ∧ e.host.length < 256) ∧
    (keys.named.Pairwise fun e f => ¬ SameName e.host f.host) ∧
    ∀ n,
      keys.named.countP (fun e => ktlsHostMatches e.host n) ≤ 2 ∧
      keys.named.countP (fun e => ktlsHostMatches e.host n && isWildcard e.host == false) ≤ 1 ∧
      keys.named.countP (fun e => ktlsHostMatches e.host n && isWildcard e.host == true) ≤ 1 := by
  have hsound := soundHosts_run hmade hrun
  refine ⟨fun p fate e keys' h => ?_, fun p fate keys' h => ?_, fun e he => ?_, ?_, fun n => ?_⟩
  · obtain ⟨hr, rfl⟩ := Prod.ext_iff.mp h
    exact ktlsKeysAddCertificate_error hr
  · obtain ⟨hr, rfl⟩ := Prod.ext_iff.mp h
    obtain ⟨host, ctx, c, hhost, -, -, -, hpair, hfollow, heq⟩ := ktlsKeysAddCertificate_ok hr
    obtain ⟨cert, key, hp, hcheck⟩ := ctxWithPair_matching hpair
    refine ⟨host, cert, key, c, hhost, hp, hcheck, ?_, heq⟩
    rw [ktlsCtxFollow_ok hfollow, pair_alpnOn, pair_suitesOn, ctxWithPair_ok hpair, ← hp]
    rfl
  · exact hsound.sized _ (List.mem_map_of_mem he)
  · exact List.pairwise_map.mp hsound.distinct
  · have hexact := hsound.countP_kind n false
    have hwild := hsound.countP_kind n true
    have hall := countP_kinds (keys.named.map KtlsNamedCtx.host) n
    simp only [List.countP_map, Function.comp_def] at hexact hwild hall
    exact ⟨by omega, hexact, hwild⟩

/-- A name is added twice: the second time it is refused, in other letters. -/
def loudPair : NewPair := ⟨some (ascii "OTHER.example"), otherCert, otherKey⟩

theorem table_sound_sample :
    ∃ keys, (KeysCall.trials sampleLib true).Run sampleKeys
        [.add otherPair {}, .add loudPair {}, .add wildcardPair {}] keys ∧
      keys.named.length = 2 ∧
      keys.named.countP (fun e => ktlsHostMatches e.host (ascii "a.Other.Example")) ≤ 2 := by
  have hrun : (KeysCall.trials sampleLib true).Run sampleKeys
      [.add otherPair {}, .add loudPair {}, .add wildcardPair {}] _ :=
    .cons trivial (.cons trivial (.cons trivial (.nil _)))
  exact ⟨_, hrun, by decide +kernel, ((table_sound sampleKeys_made hrun).2.2.2.2 _).1⟩

end Ktls
