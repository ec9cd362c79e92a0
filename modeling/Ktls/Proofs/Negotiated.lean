import Ktls.Proofs.Alpn
import Ktls.Proofs.Release

/-! The protocol an exchange reports. The name is copied once, when the exchange is done,
into a buffer smaller than the names a handshake can select. -/

namespace Ktls

variable {K : Kdf} {x : KtlsExchange} {protocol : Option Bytes}

/-- What is reported is left alone. -/
structure SameAlpn (x x' : KtlsExchange) : Prop where
  done : x'.done = x.done
  alpn : x'.alpn = x.alpn
  alpnLen : x'.alpnLen = x.alpnLen

theorem SameAlpn.exchange {x' : KtlsExchange} (h : SameAlpn x x') :
    ktlsExchangeAlpn x' = ktlsExchangeAlpn x := by
  rw [ktlsExchangeAlpn, ktlsExchangeAlpn, h.alpn, h.alpnLen]

theorem ktlsExchangeAlpn_noteDone (hzero : x.alpnLen = 0) (s : Ssl) (a : HandshakeAnswer) :
    ktlsExchangeAlpn (noteDone x s a) =
      if a.alpn.length ≠ 0 ∧ a.alpn.length ≤ 32 then some a.alpn else none := by
  by_cases hfits : a.alpn.length ≠ 0 ∧ a.alpn.length ≤ 32
  · simp only [noteDone, if_pos hfits, ktlsExchangeAlpn, if_neg hfits.1]
    exact congrArg some (take_memcpy_front x.alpn a.alpn)
  · simp only [noteDone, if_neg hfits, ktlsExchangeAlpn, if_pos hzero]

/-- A step either goes on without a word about it, or notes the name. -/
theorem ktlsExchangeStep_alpn (K : Kdf) {s : Ssl} (a : HandshakeAnswer) (fate : DeriveFate)
    (hx : x.ssl = some s) (hd : x.done = false) :
    SameAlpn x (ktlsExchangeStep K x a fate).2 ∨
    (a.rc = 1 ∧ ∃ x' s', SameAlpn x x' ∧ (ktlsExchangeStep K x a fate).2 = noteDone x' s' a) := by
  obtain ⟨sec, len, hlog⟩ := foldl_ktlsKeylog_frame
    { x with ssl := some { s with input := a.input, output := a.output } } a.keylog
  unfold ktlsExchangeStep
  rw [hx]
  simp only [if_neg (Bool.eq_false_iff.mp hd), hlog]
  by_cases hrc : a.rc = 1
  · rw [if_neg (not_not.mpr hrc)]
    obtain ⟨c, k, v, i, hframe⟩ := ktlsDeriveBoth_frame K
      { x with
        ssl := some { s with input := a.input, output := a.output }
        secret := sec
        secretLen := len } s.server a.suite fate
    split
    · next e y hy =>
      obtain rfl : _ = y := congrArg Prod.snd hy
      rw [hframe]
      exact .inl ⟨rfl, rfl, rfl⟩
    · next y hy =>
      obtain rfl : _ = y := congrArg Prod.snd hy
      exact .inr ⟨hrc, _, _, ⟨by rw [hframe], by rw [hframe], by rw [hframe]⟩, rfl⟩
  · rw [if_pos hrc]
    split_ifs
    · exact .inl ⟨rfl, rfl, rfl⟩
    · exact .inl ⟨rfl, rfl, rfl⟩
    · exact .inl ⟨rfl, rfl, rfl⟩

/-- Nothing is reported before the exchange is done, and afterwards the protocol unless the
buffer is too small for it. -/
structure Chosen (protocol : Option Bytes) (x : KtlsExchange) : Prop where
  before : x.done = false → x.alpnLen = 0
  after : x.done = true → ktlsExchangeAlpn x = protocol.filter fun name => name.length ≤ 32

theorem Chosen.same (h : Chosen protocol x) {x' : KtlsExchange} (hsame : SameAlpn x x') :
    Chosen protocol x' := by
  refine ⟨fun hd => ?_, fun hd => ?_⟩
  · rw [hsame.alpnLen]
    exact h.before (hsame.done.symm.trans hd)
  · rw [hsame.exchange]
    exact h.after (hsame.done.symm.trans hd)

theorem Chosen.noted (hzero : x.alpnLen = 0) (hsized : ∀ name ∈ protocol, name ≠ [])
    (s : Ssl) {a : HandshakeAnswer} (halpn : a.alpn = protocol.getD []) :
    Chosen protocol (noteDone x s a) := by
  have hdone : (noteDone x s a).done = true := rfl
  refine ⟨fun hd => ?_, fun _ => ?_⟩
  · rw [hdone] at hd
    cases hd
  · rw [ktlsExchangeAlpn_noteDone hzero, halpn]
    cases protocol with
    | none => rfl
    | some name =>
      have hne : name.length ≠ 0 := fun hnil => hsized name rfl (List.length_eq_zero_iff.mp hnil)
      simp only [Option.getD_some, Option.filter_some, hne, ne_eq, not_false_iff, true_and,
        decide_eq_true_eq]

theorem Chosen.effect (h : Chosen protocol x) (hsized : ∀ name ∈ protocol, name ≠ [])
    {call : Call} (hreports : call.Reports protocol) {x' : KtlsExchange}
    (he : call.Effect K x x') : Chosen protocol x' := by
  cases he with
  | @step s a fate hx hd =>
    rcases ktlsExchangeStep_alpn K a fate hx hd with hsame | ⟨hrc, y, s', hsame, hnote⟩
    · exact h.same hsame
    · rw [hnote]
      exact .noted (hsame.alpnLen.trans (h.before hd)) hsized s' (hreports hrc)
  | @backlog s a hx hd =>
    obtain ⟨sec, len, hframe⟩ := ktlsExchangeBacklog_frame hx hd a
    rw [hframe]
    exact h.same ⟨rfl, rfl, rfl⟩
  | @nextKey dir fate =>
    obtain ⟨sec, rek, key, iv, info, hframe, -⟩ := ktlsNextKey_frame K x dir fate
    rw [hframe]
    exact h.same ⟨rfl, rfl, rfl⟩
  | idle => exact h
  | feed => exact h.same ⟨rfl, rfl, rfl⟩
  | take => exact h.same ⟨rfl, rfl, rfl⟩
  | ask => exact h.same ⟨rfl, rfl, rfl⟩
  | release => exact h.same ⟨rfl, rfl, rfl⟩

variable {lib lib' : Libssl} {fast fast' : Bool} {server₀ server client₀ client : KtlsKeys}
  {scalls ccalls : List KeysCall} {ctx : SslCtx} {role : KtlsRole} {calls : List Call}

theorem configured_protocols {keys₀ keys : KtlsKeys} {kcalls : List KeysCall}
    (hmade : Made lib fast keys₀) (hrun : (KeysCall.machine lib fast).Run keys₀ kcalls keys) :
    ∃ suites, Configured fast suites ((lastProtocols (settings kcalls)).getD []) keys := by
  obtain ⟨hconf, hlist⟩ := hmade.configured
  have hnone : Configured fast none ((none : Option (List Bytes)).getD []) keys₀ := hconf
  have h := (configured_run hrun hnone hlist).1
  rw [Option.or_none, Option.or_none] at h
  exact ⟨_, h⟩

theorem selected_eq {suites suites' : Option Bytes} {ours theirs : List Bytes}
    (hserver : Configured fast suites ours server) (hctx : ctx ∈ server.contexts)
    (hclient : Configured fast' suites' theirs client) :
    selected server ctx client.ctx = ours.find? fun name => name ∈ theirs := by
  have hoffer := (hclient.contexts _ (List.mem_cons_self ..)).offer
  have hnames : alpnNames (alpnList theirs) = theirs :=
    alpnNames_alpnList fun name hname => (hclient.fits name hname).2
  rw [selected, hserver.answers (hserver.contexts ctx hctx), hoffer]
  simp only [hnames]

/-- On either side, once the exchange is done and also after a release, the protocol it
reports is the one the handshake selected exactly when that has no more than 32 bytes. -/
theorem alpn_seen_iff (hmade : Made lib fast server₀)
    (hserver : (KeysCall.machine lib fast).Run server₀ scalls server) (hctx : ctx ∈ server.contexts)
    (hmade' : Made lib' fast' client₀)
    (hclient : (KeysCall.machine lib' fast').Run client₀ ccalls client)
    (hrun : ((Call.machine K).restrict fun _ call =>
      call.Reports (selected server ctx client.ctx)).Run (ktlsExchangeOpen role) calls x)
    (hd : x.done = true) :
    ktlsExchangeAlpn x = selected server ctx client.ctx ↔
      ∀ name, ((lastProtocols (settings scalls)).getD []).find?
        (fun name => name ∈ (lastProtocols (settings ccalls)).getD []) = some name →
        name.length ≤ 32 := by
  obtain ⟨_, hconf⟩ := configured_protocols hmade hserver
  obtain ⟨_, hconf'⟩ := configured_protocols hmade' hclient
  have hselected := selected_eq hconf hctx hconf'
  have hsized : ∀ name ∈ selected server ctx client.ctx, name ≠ [] := by
    intro name hname
    rw [hselected] at hname
    have hmem := List.mem_of_find?_eq_some (Option.mem_def.mp hname)
    exact List.length_pos_iff.mp (hconf.fits name hmem).1
  have hchosen : Chosen (selected server ctx client.ctx) x :=
    hrun.invariant (fun x call h hp => h.effect hsized hp.2 (call.effect K x))
      ⟨fun _ => rfl, fun hd => absurd hd Bool.false_ne_true⟩
  rw [hchosen.after hd, hselected]
  cases ((lastProtocols (settings scalls)).getD []).find? fun name =>
      name ∈ (lastProtocols (settings ccalls)).getD [] with
  | none => simp
  | some name => simp [Option.filter_some]

/-- Keys of a client with the suites of a machine without the AES instructions. -/
def sampleClientKeys : KtlsKeys where
  ctx := newCtx false

theorem sampleClientKeys_made : Made sampleLib false sampleClientKeys := .client {} rfl

/-- One call for protocols on each side. -/
def offering (names : List Bytes) : List KeysCall := [.set (.alpn names)]

open Session in
/-- A server that is done, with the protocol its SSL selected. -/
def negotiated (protocol : Bytes) : List Call :=
  [.feed helloRecord 95,
   .step serverWaits {},
   .take 1000,
   .feed (sealedRecord 53) 58,
   .step { sampleDone true [] with alpn := protocol } {}]

theorem alpn_seen_sample :
    let ks := (offering [ascii "h2"]).foldl (KeysCall.machine sampleLib true).next sampleKeys
    let kc := (offering [ascii "http/1.1", ascii "h2"]).foldl
      (KeysCall.machine sampleLib false).next sampleClientKeys
    let x := (negotiated (ascii "h2") ++ [Call.release]).foldl (Call.machine sampleKdf).next
      (ktlsExchangeOpen .server)
    ktlsExchangeAlpn x = selected ks ks.ctx kc.ctx := by
  intro ks kc x
  have hs : (KeysCall.machine sampleLib true).Run sampleKeys (offering [ascii "h2"]) ks :=
    Machine.Run.of_check (by decide +kernel)
  have hc : (KeysCall.machine sampleLib false).Run sampleClientKeys
      (offering [ascii "http/1.1", ascii "h2"]) kc := Machine.Run.of_check (by decide +kernel)
  have hrun : ((Call.machine sampleKdf).restrict fun _ call =>
      call.Reports (selected ks ks.ctx kc.ctx)).Run (ktlsExchangeOpen .server)
      (negotiated (ascii "h2") ++ [.release]) x := Machine.Run.of_check (by decide +kernel)
  have hd : x.done = true := by decide +kernel
  refine (alpn_seen_iff sampleKeys_made hs (List.mem_cons_self ..) sampleClientKeys_made hc hrun
    hd).mpr fun name hname => ?_
  have hfound : name = ascii "h2" := by
    refine (Option.some.inj (hname.symm.trans ?_))
    decide +kernel
  rw [hfound]
  decide +kernel

/-- A name of 33 bytes, which both sides may offer. -/
def longName : Bytes := List.replicate 33 97

/-- It is selected, and nothing is reported. -/
theorem alpn_unseen :
    let ks := (offering [longName]).foldl (KeysCall.machine sampleLib true).next sampleKeys
    let kc := (offering [longName]).foldl (KeysCall.machine sampleLib false).next sampleClientKeys
    let x := (negotiated longName).foldl (Call.after sampleKdf) (ktlsExchangeOpen .server)
    (KeysCall.machine sampleLib true).Run sampleKeys (offering [longName]) ks ∧
      (KeysCall.machine sampleLib false).Run sampleClientKeys (offering [longName]) kc ∧
      ((Call.machine sampleKdf).restrict fun _ call =>
        call.Reports (selected ks ks.ctx kc.ctx)).Run (ktlsExchangeOpen .server)
        (negotiated longName) x ∧
      x.done = true ∧ selected ks ks.ctx kc.ctx = some longName ∧ ktlsExchangeAlpn x = none :=
  ⟨Machine.Run.of_check (by decide +kernel), Machine.Run.of_check (by decide +kernel),
    Machine.Run.of_check (by decide +kernel), by decide +kernel, by decide +kernel,
    by decide +kernel⟩

end Ktls
