import Ktls.Proofs.Table

/-! The list of protocols the keys answer from. Names are laid out straight into it while
a later one may still be refused, so what a refused call leaves there is the old list only
where the two agree. -/

namespace Ktls

variable {lib : Libssl} {aesIsFast : Bool} {keys₀ keys : KtlsKeys} {calls : List KeysCall}

/-! The encoding is a prefix code. -/

theorem alpnNames_append {names : List Bytes} (hfits : ∀ name ∈ names, name.length ≤ 255)
    (rest : Bytes) : alpnNames (alpnList names ++ rest) = names ++ alpnNames rest := by
  induction names with
  | nil => rfl
  | cons name names ih =>
    have hn := toNat_ofNat_length (hfits name (List.mem_cons_self ..))
    rw [alpnList_cons, List.cons_append, List.append_assoc, alpnNames_whole, hn, List.take_left,
      List.drop_left, ih fun p hp => hfits p (List.mem_cons_of_mem _ hp), List.cons_append]
    rw [hn, List.length_append]
    omega

theorem alpnNames_alpnList {names : List Bytes} (hfits : ∀ name ∈ names, name.length ≤ 255) :
    alpnNames (alpnList names) = names := by
  have h := alpnNames_append hfits []
  rwa [List.append_nil, show alpnNames [] = [] from rfl, List.append_nil] at h

theorem alpnList_append (a b : List Bytes) : alpnList (a ++ b) = alpnList a ++ alpnList b :=
  List.flatMap_append

theorem alpnList_prefix_iff {a b : List Bytes} (ha : ∀ name ∈ a, name.length ≤ 255)
    (hb : ∀ name ∈ b, name.length ≤ 255) : alpnList a <+: alpnList b ↔ a <+: b := by
  refine ⟨?_, ?_⟩
  · rintro ⟨t, ht⟩
    refine ⟨alpnNames t, ?_⟩
    rw [← alpnNames_append ha, ht, alpnNames_alpnList hb]
  · rintro ⟨t, rfl⟩
    exact ⟨alpnList t, (alpnList_append a t).symm⟩

theorem take_memcpy_zero {alpn old new : Bytes} (hold : alpn.take old.length = old) :
    (memcpy alpn 0 new).take old.length = old ↔ new <+: old ∨ old <+: new := by
  have hcopy : memcpy alpn 0 new = new ++ alpn.drop new.length := by
    rw [memcpy, List.take_zero, List.nil_append, Nat.zero_add]
  rw [hcopy, List.take_append]
  rcases Nat.le_total new.length old.length with hle | hle
  · rw [List.take_of_length_le hle, ← List.drop_take, hold, ← List.prefix_iff_eq_append]
    exact ⟨.inl, fun h => h.elim id fun h => h.eq_of_length_le hle ▸ List.prefix_rfl⟩
  · rw [Nat.sub_eq_zero_of_le hle, List.take_zero, List.append_nil, eq_comm,
      ← List.prefix_iff_eq_take]
    exact ⟨.inr, fun h => h.elim (fun h => h.eq_of_length_le hle ▸ List.prefix_rfl) id⟩

/-! One call. -/

theorem sslCtxSetAlpn_takes (lib : Libssl) (works : Bool) (protos : Bytes) (c : SslCtx) :
    (sslCtxSetAlpn lib works c protos).1 = .ok () ↔ (works && lib.protos protos) = true := by
  unfold sslCtxSetAlpn
  split_ifs with h
  · exact iff_of_true rfl h
  · exact iff_of_false (by simp) h

theorem ktlsKeysSetAlpn_spec (lib : Libssl) (hroom : keys.alpn.length = 256)
    (protocols : List Bytes) (works : SetFate) :
    let r := ktlsKeysSetAlpn lib keys protocols works
    r.2.alpn = memcpy keys.alpn 0 (alpnList (laidOut protocols 0)) ∧
    r.2.alpnLen = (if laidOut protocols 0 = protocols then (alpnList protocols).length
      else keys.alpnLen) ∧
    (r.1 = .ok () ↔ laidOut protocols 0 = protocols ∧ lib.protos (alpnList protocols) = true ∧
      ∀ i ≤ keys.named.length, works i = true) := by
  unfold ktlsKeysSetAlpn
  have hfill := alpnFill_eq protocols (Nat.zero_le _) hroom
  by_cases hall : laidOut protocols 0 = protocols
  · rw [if_pos hall, hall, Nat.zero_add] at hfill
    have htake := take_memcpy_front keys.alpn (alpnList protocols)
    have htakes := sslCtxSetAlpn_takes lib (works 0) (alpnList protocols) keys.ctx
    simp only [hfill, htake, hall, if_true, true_and]
    rcases hfirst : sslCtxSetAlpn lib (works 0) keys.ctx (alpnList protocols) with ⟨_ | _, ctx⟩
    · rw [hfirst] at htakes
      refine ⟨rfl, rfl, iff_of_false (by simp) fun h => ?_⟩
      cases htakes.mpr (by rw [h.2 0 (Nat.zero_le _), h.1]; rfl)
    · rw [hfirst] at htakes
      obtain ⟨h0, hprotos⟩ := Bool.and_eq_true_iff.mp (htakes.mp rfl)
      refine ⟨rfl, rfl, ?_⟩
      have hloop := eachNamed_ok_iff (fun i => works i && lib.protos (alpnList protocols))
        (fun i c => sslCtxSetAlpn_takes lib (works i) (alpnList protocols) c) 1 keys.named
      simp only [hprotos, Bool.and_true, true_and] at hloop ⊢
      rw [hloop]
      refine ⟨?_, ?_⟩
      · rintro h (_ | i) hi
        · exact h0
        · exact Nat.add_comm 1 i ▸ h i hi
      · intro h k hk
        exact h (1 + k) (by omega)
  · rw [if_neg hall] at hfill
    simp only [hfill, if_neg hall]
    exact ⟨trivial, trivial, iff_of_false (by simp) fun h => hall h.1⟩

/-! Any run of them. -/

variable {S : Offered}

theorem Offered.Exact.pick (h : S.Exact) (hsized : ∀ name ∈ S.names, name.length ≤ 255)
    (input : Bytes) :
    ktlsAlpnPick S.keys input = S.names.find? fun name => name ∈ alpnNames input :=
  ktlsAlpnPick_eq hsized h.list h.length input

/-- What holds of keys all along: the names in force fitted, and the buffer keeps its size. -/
structure Laid (S : Offered) : Prop where
  room : S.keys.alpn.length = 256
  sized : ∀ name ∈ S.names, name.length ≤ 255
  exact : S.Exact

theorem after_alpn (lib : Libssl) (aesIsFast : Bool) (hroom : S.keys.alpn.length = 256)
    (protocols : List Bytes) (works : SetFate) :
    let S' := S.after lib aesIsFast (.set (.alpn protocols) works)
    S'.keys.alpn = memcpy S.keys.alpn 0 (alpnList (laidOut protocols 0)) ∧
    S'.keys.alpnLen = (if laidOut protocols 0 = protocols then (alpnList protocols).length
      else S.keys.alpnLen) ∧
    S'.names = if laidOut protocols 0 = protocols ∧ lib.protos (alpnList protocols) = true ∧
      ∀ i ≤ S.keys.named.length, works i = true then protocols else S.names := by
  obtain ⟨halpn, hlen, hok⟩ := ktlsKeysSetAlpn_spec lib hroom protocols works
  refine ⟨halpn, hlen, ?_⟩
  simp only [Offered.after, KeysCall.exec]
  rcases hr : (ktlsKeysSetAlpn lib S.keys protocols works).1 with e | _
  · rw [if_neg fun hall => by cases hr.symm.trans (hok.mpr hall)]
  · rw [if_pos (hok.mp hr)]
    rfl

theorem after_ciphers (lib : Libssl) (aesIsFast : Bool) (S : Offered) (suites : Option Bytes)
    (works : SetFate) :
    let S' := S.after lib aesIsFast (.set (.ciphers suites) works)
    S'.keys.alpn = S.keys.alpn ∧ S'.keys.alpnLen = S.keys.alpnLen ∧ S'.names = S.names := by
  have hkeys : (ktlsKeysSetCiphers lib S.keys suites works).2.alpn = S.keys.alpn ∧
      (ktlsKeysSetCiphers lib S.keys suites works).2.alpnLen = S.keys.alpnLen := by
    unfold ktlsKeysSetCiphers
    dsimp only
    split_ifs
    · exact ⟨rfl, rfl⟩
    · split
      · exact ⟨rfl, rfl⟩
      · exact ⟨rfl, rfl⟩
  refine ⟨hkeys.1, hkeys.2, ?_⟩
  simp only [Offered.after]
  split
  · rfl
  · rfl

theorem after_add (lib : Libssl) (aesIsFast : Bool) (S : Offered) (p : NewPair)
    (fate : KeysFate) :
    let S' := S.after lib aesIsFast (.add p fate)
    S'.keys.alpn = S.keys.alpn ∧ S'.keys.alpnLen = S.keys.alpnLen ∧ S'.names = S.names := by
  simp only [Offered.after]
  rcases hr : ((KeysCall.add p fate).exec lib aesIsFast S.keys).1 with e | _
  · rw [KeysCall.exec] at hr ⊢
    rw [ktlsKeysAddCertificate_error hr]
    exact ⟨rfl, rfl, rfl⟩
  · obtain ⟨_, _, _, -, -, -, -, -, -, heq⟩ := ktlsKeysAddCertificate_ok hr
    rw [KeysCall.exec, heq]
    exact ⟨rfl, rfl, rfl⟩

theorem Offered.Exact.congr {S' : Offered} (halpn : S'.keys.alpn = S.keys.alpn)
    (hlen : S'.keys.alpnLen = S.keys.alpnLen) (hnames : S'.names = S.names) :
    S'.Exact ↔ S.Exact := by
  refine ⟨?_, ?_⟩
  · rintro ⟨h1, h2⟩
    rw [hlen, hnames] at h1
    rw [halpn, hlen, hnames] at h2
    exact ⟨h1, h2⟩
  · rintro ⟨h1, h2⟩
    exact ⟨by rw [hlen, hnames, h1], by rw [halpn, hlen, hnames, h2]⟩

/-- A list that was laid out whole is the one the keys answer from, taken or not. -/
theorem Laid.exact_whole (h : Laid S) {protocols : List Bytes}
    (hall : laidOut protocols 0 = protocols) (works : SetFate) :
    (S.after lib aesIsFast (.set (.alpn protocols) works)).Exact ↔
      (lib.protos (alpnList protocols) = true ∧ ∀ i ≤ S.keys.named.length, works i = true) ∨
        protocols = S.names := by
  obtain ⟨halpn, hlen, hnames⟩ := after_alpn lib aesIsFast h.room protocols works
  rw [if_pos hall] at hlen
  rw [hall] at halpn
  have hsized : ∀ name ∈ protocols, name.length ≤ 255 := fun name hname =>
    (laidOut_sized protocols 0 name (hall.symm ▸ hname)).2
  by_cases hok : lib.protos (alpnList protocols) = true ∧
      ∀ i ≤ S.keys.named.length, works i = true
  · rw [if_pos ⟨hall, hok⟩] at hnames
    refine iff_of_true ⟨by rw [hlen, hnames], ?_⟩ (.inl hok)
    rw [halpn, hlen, hnames, take_memcpy_front]
  · rw [if_neg fun h => hok h.2] at hnames
    rw [or_iff_right hok]
    refine ⟨?_, ?_⟩
    · rintro ⟨-, hlist⟩
      rw [halpn, hlen, hnames, take_memcpy_front] at hlist
      have hnames := congrArg alpnNames hlist
      rwa [alpnNames_alpnList hsized, alpnNames_alpnList h.sized] at hnames
    · intro hsame
      refine ⟨by rw [hlen, hnames, hsame], ?_⟩
      rw [halpn, hlen, hnames, take_memcpy_front, hsame]

/-- One that was not has been laid out over the list in force, as far as it went. -/
theorem Laid.exact_partial (h : Laid S) {protocols : List Bytes}
    (hall : laidOut protocols 0 ≠ protocols) (works : SetFate) :
    (S.after lib aesIsFast (.set (.alpn protocols) works)).Exact ↔
      laidOut protocols 0 <+: S.names ∨ S.names <+: laidOut protocols 0 := by
  obtain ⟨halpn, hlen, hnames⟩ := after_alpn lib aesIsFast h.room protocols works
  rw [if_neg hall] at hlen
  rw [if_neg fun h => hall h.1] at hnames
  have hlaid : ∀ name ∈ laidOut protocols 0, name.length ≤ 255 := fun name hname =>
    (laidOut_sized protocols 0 name hname).2
  have hlist := h.exact.list
  rw [h.exact.length] at hlist
  rw [← alpnList_prefix_iff hlaid h.sized, ← alpnList_prefix_iff h.sized hlaid,
    ← take_memcpy_zero hlist, ← halpn]
  replace hlen := hlen.trans h.exact.length
  refine ⟨?_, ?_⟩
  · rintro ⟨-, hlist'⟩
    rwa [hlen, hnames] at hlist'
  · intro hlist'
    exact ⟨by rw [hnames, hlen], by rw [hlen, hnames, hlist']⟩

/-- The list stays exact in the undisturbed calls and in no others. -/
theorem Laid.exact_after_iff (h : Laid S) (call : KeysCall) :
    (S.after lib aesIsFast call).Exact ↔ S.Undisturbed lib call := by
  cases call with
  | add p fate =>
    obtain ⟨halpn, hlen, hnames⟩ := after_add lib aesIsFast S p fate
    exact iff_of_true ((Offered.Exact.congr halpn hlen hnames).mpr h.exact) trivial
  | set s works =>
    cases s with
    | ciphers suites =>
      obtain ⟨halpn, hlen, hnames⟩ := after_ciphers lib aesIsFast S suites works
      exact iff_of_true ((Offered.Exact.congr halpn hlen hnames).mpr h.exact) trivial
    | alpn protocols =>
      rw [Offered.Undisturbed]
      split_ifs with hall
      · exact h.exact_whole hall works
      · exact h.exact_partial hall works

theorem Laid.after (h : Laid S) {call : KeysCall} (hcall : S.Undisturbed lib call) :
    Laid (S.after lib aesIsFast call) := by
  have hexact : (S.after lib aesIsFast call).Exact := (h.exact_after_iff call).mpr hcall
  cases call with
  | add p fate =>
    obtain ⟨halpn, -, hnames⟩ := after_add lib aesIsFast S p fate
    exact ⟨halpn ▸ h.room, hnames ▸ h.sized, hexact⟩
  | set s works =>
    cases s with
    | ciphers suites =>
      obtain ⟨halpn, -, hnames⟩ := after_ciphers lib aesIsFast S suites works
      exact ⟨halpn ▸ h.room, hnames ▸ h.sized, hexact⟩
    | alpn protocols =>
      obtain ⟨halpn, -, hnames⟩ := after_alpn lib aesIsFast h.room protocols works
      have hroom := laidOut_room protocols (Nat.zero_le 256)
      refine ⟨by rw [halpn, length_memcpy (by rw [h.room]; exact hroom), h.room], ?_, hexact⟩
      rw [hnames]
      split_ifs with hok
      · intro name hname
        exact (laidOut_sized protocols 0 name (hok.1.symm ▸ hname)).2
      · exact h.sized

theorem Made.laid (h : Made lib aesIsFast keys) : Laid { keys := keys } := by
  have hconf := h.configured.1
  exact ⟨hconf.room, fun name hname => (hconf.fits name hname).2, hconf.length, hconf.list⟩

/-- Where all calls so far were undisturbed, the list is the encoding of the names of the last
call for protocols that returned 0 and the answers follow them; and it stays so exactly when
the next call is undisturbed too. -/
theorem last_alpn_iff (hmade : Made lib aesIsFast keys₀)
    (hrun : ((Offered.trials lib aesIsFast).restrict
      fun S call => S.Undisturbed lib call).Run { keys := keys₀ } calls S) :
    S.Exact ∧
    (∀ input, ktlsAlpnPick S.keys input = S.names.find? fun name => name ∈ alpnNames input) ∧
    ∀ call, (S.after lib aesIsFast call).Exact ↔ S.Undisturbed lib call := by
  have hlaid : Laid S := hrun.invariant (fun _ _ h hcall => h.after hcall.2) hmade.laid
  exact ⟨hlaid.exact, hlaid.exact.pick hlaid.sized, hlaid.exact_after_iff⟩

theorem last_alpn_sample :
    (((Offered.trials sampleLib true).next ((Offered.trials sampleLib true).next
      { keys := sampleKeys } (.set (.alpn [ascii "h2", ascii "http/1.1"])))
      (.set (.alpn [ascii "h2", []])))).Exact := by
  have hrun : ((Offered.trials sampleLib true).restrict
      fun S call => S.Undisturbed sampleLib call).Run { keys := sampleKeys }
      [.set (.alpn [ascii "h2", ascii "http/1.1"]), .set (.alpn [ascii "h2", []])] _ :=
    .cons ⟨trivial, .inl ⟨rfl, fun _ _ => rfl⟩⟩
      (.cons ⟨trivial, .inl ⟨[ascii "http/1.1"], by decide +kernel⟩⟩ (.nil _))
  exact (last_alpn_iff sampleKeys_made hrun).1

/-- A call that is refused for its second name has laid out the first over the list in force:
a client that offers both protocols is answered with the other one. -/
theorem last_alpn_overwritten :
    let S := Offered.after sampleLib true { keys := sampleKeys }
      (.set (.alpn [ascii "h2", ascii "http/1.1"]))
    let r := ktlsKeysSetAlpn sampleLib S.keys [ascii "http/1.1", []] fun _ => true
    let offer := alpnList [ascii "h2", ascii "http/1.1"]
    S.Exact ∧ r.1 = .error "ktls_keys_set_alpn: the protocol names do not fit" ∧
      r.2.alpn.take r.2.alpnLen ≠ alpnList S.names ∧
      ktlsAlpnPick S.keys offer = some (ascii "h2") ∧
      ktlsAlpnPick r.2 offer = some (ascii "http/1.1") := by
  refine ⟨⟨?_, ?_⟩, ?_, ?_, ?_, ?_⟩ <;> decide +kernel

end Ktls
