import Ktls.Proofs.Release
import Ktls.Proofs.Table
import Ktls.Spec.Memory

/-! What each call takes and gives back, function by function. -/

namespace Ktls

open Heap

variable {lib : Libssl} {aesIsFast : Bool} {K : Kdf}

/-- A context that was made, or nothing. -/
def ctxOwned : Option (Pointer × SslCtx) → Multiset Pointer
  | none => 0
  | some c => {c.1}

theorem made_cases {c : Option (Pointer × SslCtx)} {v : Except String SslCtx}
    (h : c.map Prod.snd = v.toOption) :
    (c = none ∧ ∃ e, v = .error e) ∨ ∃ r ctx, c = some (r, ctx) ∧ v = .ok ctx := by
  cases c with
  | none =>
    cases v with
    | error e => exact .inl ⟨rfl, e, rfl⟩
    | ok ctx => exact absurd h (by simp [Except.toOption])
  | some c =>
    cases v with
    | error e => exact absurd h (by simp [Except.toOption])
    | ok ctx => exact .inr ⟨c.1, c.2, rfl, by simpa [Except.toOption] using h.symm⟩

namespace Memory

theorem ktlsCtxNew_spec (fate : CtxFate) :
    Spec 0 (ktlsCtxNew lib aesIsFast fate) fun c m =>
      m = ctxOwned c ∧ c.map Prod.snd = (Ktls.ktlsCtxNew lib aesIsFast fate).toOption := by
  unfold ktlsCtxNew
  cases hnew : fate.new with
  | false => exact .pure ⟨rfl, by simp [Ktls.ktlsCtxNew, hnew, Except.toOption]⟩
  | true =>
    simp only [Bool.not_true, Bool.false_eq_true, if_false]
    apply Spec.create_then
    intro r
    split
    · next e he => exact Spec.drop_then (.pure ⟨rfl, by rw [he]; rfl⟩)
    · next ctx he => exact .pure ⟨rfl, by rw [he]; rfl⟩

theorem ktlsPemInto_spec (ctx : SslCtx) (pem : Bytes) (isKey bio parsed : Bool) :
    Spec 0 (ktlsPemInto lib ctx pem isKey bio parsed) fun c m =>
      m = 0 ∧ c = (Ktls.ktlsPemInto lib ctx pem isKey bio).toOption := by
  unfold ktlsPemInto
  cases bio with
  | false => exact .pure ⟨rfl, by simp [Ktls.ktlsPemInto, Except.toOption]⟩
  | true =>
    simp only [Bool.not_true, Bool.false_eq_true, if_false]
    apply Spec.create_then
    intro b
    apply Spec.bind_zero (Spec.createIf _ _)
    rintro object _ ⟨rfl, -⟩
    apply Spec.dropMaybe_then
    exact Spec.drop_then (.pure ⟨rfl, rfl⟩)

theorem asked {r : Pointer} {q : Prog Resource (Option SslCtx)} {v : Except String SslCtx}
    (hq : Spec 0 q fun c m => m = 0 ∧ c = v.toOption)
    {g : SslCtx → Prog Resource (Option (Pointer × SslCtx))} {w : SslCtx → Except String SslCtx}
    (hg : ∀ ctx, Spec {r} (g ctx) fun c m =>
      m = ctxOwned c ∧ c.map Prod.snd = (w ctx).toOption) :
    Spec {r}
      (do
        match ← q with
        | none => do
          drop r
          pure none
        | some ctx => g ctx)
      fun c m => m = ctxOwned c ∧ c.map Prod.snd = (v >>= w).toOption := by
  apply Spec.bind_zero hq
  rintro c _ ⟨rfl, rfl⟩
  rw [zero_add]
  cases v with
  | error e => exact Spec.drop_then (.pure ⟨rfl, rfl⟩)
  | ok ctx => exact hg ctx

/-- The context of a pair that is refused goes back, wherever that is. -/
theorem ctxWithPair_spec (certPem keyPem : Bytes) (fate : KeysFate) (parsed : PemFate) :
    Spec 0 (ctxWithPair lib aesIsFast certPem keyPem fate parsed) fun c m =>
      m = ctxOwned c ∧
        c.map Prod.snd = (Ktls.ctxWithPair lib aesIsFast certPem keyPem fate).toOption := by
  unfold ctxWithPair Ktls.ctxWithPair
  apply Spec.bind_zero (ktlsCtxNew_spec fate.ctx)
  rintro c _ ⟨rfl, hc⟩
  rw [add_zero]
  generalize Ktls.ktlsCtxNew lib aesIsFast fate.ctx = made at hc
  obtain ⟨rfl, e, rfl⟩ | ⟨r, ctx, rfl, rfl⟩ := made_cases hc
  · exact .pure ⟨rfl, rfl⟩
  · apply asked (ktlsPemInto_spec ctx certPem false _ _)
    intro ctx
    apply asked (ktlsPemInto_spec ctx keyPem true _ _)
    intro ctx
    split
    · exact .pure ⟨rfl, rfl⟩
    · exact Spec.drop_then (.pure ⟨rfl, rfl⟩)

theorem around {q : Prog Resource (Option (Pointer × SslCtx))} {v : Except String SslCtx}
    (hq : Spec 0 q fun c m => m = ctxOwned c ∧ c.map Prod.snd = v.toOption)
    {f : SslCtx → KtlsKeys} (hf : ∀ ctx, (f ctx).named = []) :
    Spec 0
      (do
        let self ← create .keys
        match ← q with
        | none => do
          drop self
          pure none
        | some (r, ctx) => pure (some { self := self, ctx := r, keys := f ctx }))
      fun k m => m = ownedAt KeysObject.owned k ∧
        k.map KeysObject.keys = (v.map f).toOption ∧ ∀ o ∈ k, o.Built := by
  apply Spec.create_then
  intro self
  apply Spec.bind_zero hq
  rintro c _ ⟨rfl, hc⟩
  obtain ⟨rfl, e, rfl⟩ | ⟨r, ctx, rfl, rfl⟩ := made_cases hc
  · exact Spec.of_eq (Spec.drop_then (.pure ⟨rfl, rfl, by simp⟩)) (zero_add _)
  · refine .pure ⟨?_, rfl, fun o ho => ?_⟩
    · simp [ctxOwned, ownedAt, KeysObject.owned, held, add_comm]
    · rw [← Option.some.inj ho, KeysObject.Built, hf ctx]
      rfl

theorem ktlsKeysServer_spec (certPem keyPem : Bytes) (fate : KeysFate) (parsed : PemFate) :
    Spec 0 (ktlsKeysServer lib aesIsFast certPem keyPem fate parsed) fun k m =>
      m = ownedAt KeysObject.owned k ∧ k.map KeysObject.keys =
        (Ktls.ktlsKeysServer lib aesIsFast certPem keyPem fate).toOption ∧ ∀ o ∈ k, o.Built := by
  unfold ktlsKeysServer Ktls.ktlsKeysServer
  cases fate.memory with
  | false => exact .pure ⟨rfl, rfl, by simp⟩
  | true => exact around (ctxWithPair_spec certPem keyPem fate parsed) fun _ => rfl

theorem ktlsKeysClient_spec (fate : KeysFate) :
    Spec 0 (ktlsKeysClient lib aesIsFast fate) fun k m =>
      m = ownedAt KeysObject.owned k ∧ k.map KeysObject.keys =
        (Ktls.ktlsKeysClient lib aesIsFast fate).toOption ∧ ∀ o ∈ k, o.Built := by
  unfold ktlsKeysClient Ktls.ktlsKeysClient
  cases fate.memory with
  | false => exact .pure ⟨rfl, rfl, by simp⟩
  | true => exact around (ktlsCtxNew_spec fate.ctx) fun _ => rfl

theorem touchContexts_spec (k : KeysObject) :
    Spec k.owned (touchContexts k) (Exactly fun _ => k.owned) := by
  unfold touchContexts
  apply Spec.seq (Spec.touch (by simp [KeysObject.owned]))
  apply Spec.seq (Spec.touch (by simp [KeysObject.owned]))
  apply Spec.seq (Spec.touchMaybe fun r hr => ?_)
  · exact Spec.touchEach fun r hr => by simp [KeysObject.owned, hr]
  · rw [Option.mem_def] at hr
    simp [KeysObject.owned, hr, held]

theorem ktlsKeysAddCertificate_spec (k : KeysObject) (host : Option Bytes)
    (certPem keyPem : Bytes) (fate : KeysFate) (parsed : PemFate) :
    Spec k.owned (ktlsKeysAddCertificate lib aesIsFast k host certPem keyPem fate parsed)
      fun k' m => m = k'.owned ∧ k'.self = k.self ∧ (k.Built → k'.Built) ∧ k'.keys =
        (Ktls.ktlsKeysAddCertificate lib aesIsFast k.keys host certPem keyPem fate).2 := by
  unfold ktlsKeysAddCertificate Ktls.ktlsKeysAddCertificate
  generalize host.getD [] = name
  dsimp only
  apply Spec.seq (Spec.touch (by simp [KeysObject.owned]))
  apply Spec.seq (Spec.touchMaybe fun r hr => ?_)
  swap
  · rw [Option.mem_def] at hr
    simp [KeysObject.owned, hr, held]
  split
  · exact .pure ⟨rfl, rfl, id, rfl⟩
  split
  · exact .pure ⟨rfl, rfl, id, rfl⟩
  apply Spec.bind_zero (ctxWithPair_spec certPem keyPem fate parsed)
  rintro c _ ⟨rfl, hc⟩
  generalize Ktls.ctxWithPair lib aesIsFast certPem keyPem fate = made at hc
  obtain ⟨rfl, e, rfl⟩ | ⟨r, ctx, rfl, rfl⟩ := made_cases hc
  · exact Spec.of_eq (.pure ⟨rfl, rfl, id, rfl⟩) (zero_add _)
  simp only [ctxOwned, Multiset.singleton_add]
  generalize Ktls.ktlsCtxFollow lib k.keys ctx fate.suites fate.protos = followed
  cases followed with
  | error e => exact Spec.drop_then (.pure ⟨rfl, rfl, id, rfl⟩)
  | ok ctx =>
    cases fate.memory with
    | false => exact Spec.drop_then (.pure ⟨rfl, rfl, id, rfl⟩)
    | true =>
      simp only [Bool.not_true, Bool.false_eq_true, if_false]
      apply Spec.create_then
      intro grown
      have hperm : grown ::ₘ r ::ₘ k.owned = held k.array +
          ({k.self} + {k.ctx} + {grown} + (k.namedCtx ++ [r] : List Pointer)) := by
        simp only [KeysObject.owned, ← Multiset.singleton_add, ← Multiset.coe_add,
          Multiset.coe_singleton]
        abel
      rw [hperm]
      apply Spec.dropMaybe_then
      apply Spec.seq (Spec.touch (by simp))
      refine .pure ⟨rfl, rfl, fun hk => ?_, rfl⟩
      simpa [KeysObject.Built] using hk

theorem keysCall_spec (k : KeysObject) (parsed : PemFate) (call : KeysCall) :
    Spec k.owned (keysCall lib aesIsFast k parsed call) fun k' m =>
      m = k'.owned ∧ k'.self = k.self ∧ (k.Built → k'.Built) ∧
        k'.keys = (call.exec lib aesIsFast k.keys).2 := by
  cases call with
  | add p fate => exact ktlsKeysAddCertificate_spec k p.host p.certPem p.keyPem fate parsed
  | set s works =>
    have hhosts : ((KeysCall.set s works).exec lib aesIsFast k.keys).2.named.map KtlsNamedCtx.host =
        k.keys.named.map KtlsNamedCtx.host := exec_set_hosts s works
    have hlength := congrArg List.length hhosts
    rw [List.length_map, List.length_map] at hlength
    cases s with
    | alpn protocols =>
      exact Spec.seq (touchContexts_spec k) (.pure ⟨rfl, rfl, fun hk => hk.trans hlength.symm, rfl⟩)
    | ciphers suites =>
      exact Spec.seq (touchContexts_spec k) (.pure ⟨rfl, rfl, fun hk => hk.trans hlength.symm, rfl⟩)

theorem ktlsKeysFree_spec (k : KeysObject) :
    Spec k.owned (ktlsKeysFree k) (Exactly fun _ => 0) := by
  unfold ktlsKeysFree
  apply Spec.seq (Spec.touch (by simp [KeysObject.owned]))
  have hperm : k.owned =
      (k.namedCtx : Multiset Pointer) + (held k.array + (k.ctx ::ₘ {k.self})) := by
    simp only [KeysObject.owned, ← Multiset.singleton_add]
    abel
  rw [hperm]
  apply Spec.dropEach_then
  apply Spec.dropMaybe_then
  apply Spec.drop_then
  exact Spec.drop k.self

theorem sslFree_spec (s : SslObject) : Spec s.owned (sslFree s) (Exactly fun _ => 0) := by
  unfold sslFree
  have hperm : s.owned = (s.bios : Multiset Pointer) + (s.ctx ::ₘ {s.self}) := by
    simp only [SslObject.owned, ← Multiset.singleton_add]
    abel
  rw [hperm]
  apply Spec.dropEach_then
  apply Spec.drop_then
  exact Spec.drop s.self

/-- `ktls_exchange_free` gives back what the exchange has, and that only. -/
theorem ktlsExchangeFree_spec (e : ExchangeObject) :
    Spec e.owned (ktlsExchangeFree e) (Exactly fun _ => 0) := by
  obtain ⟨self, keys, ssl, input, output, x⟩ := e
  unfold ktlsExchangeFree
  simp only [ExchangeObject.owned]
  rw [add_comm]
  cases ssl with
  | some s =>
    apply Spec.bind (sslFree_spec s)
    rintro _ _ rfl
    rw [zero_add]
    exact Spec.drop self
  | none =>
    rw [add_assoc]
    apply Spec.dropMaybe_then
    apply Spec.dropMaybe_then
    exact Spec.drop self

theorem sslNew_spec {P : Multiset Pointer} (made : Bool) {ctx : Pointer} (hctx : ctx ∈ P) :
    Spec P (sslNew made ctx) fun s m =>
      m = ownedAt SslObject.owned s + P ∧ s.isSome = made ∧ ∀ t ∈ s, t.bios = [] := by
  cases made with
  | false => exact .pure ⟨(zero_add P).symm, rfl, fun _ ht => absurd ht (by simp)⟩
  | true =>
    apply Spec.create_then
    intro self
    have hmem : ctx ∈ self ::ₘ P := Multiset.mem_cons_of_mem hctx
    apply Spec.bind_all (Spec.retain hmem)
    rintro _ _ rfl
    refine .pure ⟨?_, rfl, fun t ht => by rw [← Option.some.inj ht]⟩
    simp only [ownedAt, SslObject.owned, ← Multiset.singleton_add, Multiset.coe_nil]
    abel

/-- What is lost where an exchange is not opened: a BIO, or nothing. -/
structure Stranded (fate : OpenFate) (lost : Multiset Pointer) : Prop where
  bios : ∀ r ∈ lost, r.kind = .bio
  card : lost.card = if fate.Strands then 1 else 0

theorem held_bio {r : Option Pointer} (hr : ∀ s ∈ r, s.kind = .bio) :
    ∀ s ∈ held r, s.kind = .bio := by
  cases r with
  | none => simp [held]
  | some r =>
    intro s hs
    obtain rfl := Multiset.mem_singleton.mp hs
    exact hr s rfl

/-- An exchange is opened with an `SSL` that has both BIOs, or what was made goes back but
for a stranded BIO. -/
def Opened (k : KeysObject) (role : KtlsRole) (fate : OpenFate) (e : Option ExchangeObject)
    (m : Multiset Pointer) : Prop :=
  (∃ lost, m = ownedAt ExchangeObject.owned e + k.owned + lost ∧ Stranded fate lost) ∧
    e.map ExchangeObject.x = fate.opened role ∧ ∀ x ∈ e, x.Built ∧ x.keys = k.self

theorem abandoned {k : KeysObject} {role : KtlsRole} {fate : OpenFate} {m : Multiset Pointer}
    (e : ExchangeObject) (lost : Multiset Pointer) (hlost : Stranded fate lost)
    (hfate : fate.opened role = none)
    (hm : m = e.owned + (k.owned + lost)) :
    Spec m
      (do
        ktlsExchangeFree e
        pure none)
      (Opened k role fate) := by
  rw [hm]
  apply Spec.bind (ktlsExchangeFree_spec e)
  rintro _ _ rfl
  refine .pure ⟨⟨lost, ?_, hlost⟩, hfate.symm, fun _ hx => absurd hx (by simp)⟩
  simp [ownedAt]

theorem ktlsExchangeOpen_spec (k : KeysObject) (role : KtlsRole) (fate : OpenFate) :
    Spec k.owned (ktlsExchangeOpen (some k) role fate) (Opened k role fate) := by
  obtain ⟨memory, hasSsl, hasInput, hasOutput⟩ := fate
  unfold ktlsExchangeOpen
  cases memory with
  | false =>
    refine .pure ⟨⟨0, by simp [ownedAt], by simp, ?_⟩, rfl, fun _ hx => absurd hx (by simp)⟩
    simp [OpenFate.Strands]
  | true =>
    simp only [Bool.not_true, Bool.false_eq_true, if_false]
    apply Spec.create_then
    intro self
    apply Spec.seq (Spec.touch (by simp [KeysObject.owned]))
    have hctx : k.ctx ∈ self ::ₘ k.owned := by simp [KeysObject.owned]
    apply Spec.bind_all (sslNew_spec hasSsl hctx)
    rintro ssl _ ⟨rfl, rfl, hbios⟩
    apply Spec.bind_zero (Spec.createIf hasInput Resource.bio)
    rintro input _ ⟨rfl, rfl, hin⟩
    apply Spec.bind_zero (Spec.createIf hasOutput Resource.bio)
    rintro output _ ⟨rfl, rfl, hout⟩
    rcases ssl with _ | s
    · refine abandoned _ 0 ⟨by simp, by simp [OpenFate.Strands]⟩ rfl ?_
      simp only [ExchangeObject.owned, ownedAt, ← Multiset.singleton_add]
      abel
    have hnil : s.bios = [] := hbios s rfl
    rcases input with _ | i
    · refine abandoned _ (held output) ⟨held_bio hout, ?_⟩ rfl ?_
      · cases output <;> simp [OpenFate.Strands, held]
      · simp only [ExchangeObject.owned, ownedAt, held, ← Multiset.singleton_add]
        abel
    rcases output with _ | o
    · refine abandoned _ {i} ⟨held_bio hin, by simp [OpenFate.Strands]⟩ rfl ?_
      simp only [ExchangeObject.owned, ownedAt, held, ← Multiset.singleton_add]
      abel
    · refine .pure ⟨⟨0, ?_, by simp, by simp [OpenFate.Strands]⟩, rfl, ?_⟩
      · simp only [ExchangeObject.owned, SslObject.owned, ownedAt, held, hnil,
          ← Multiset.singleton_add, ← Multiset.cons_coe, Multiset.coe_nil]
        abel
      · rintro x hx
        rw [← Option.some.inj hx]
        exact ⟨.full _ i o rfl rfl rfl rfl rfl, rfl⟩

/-- The same exchange in the same place, with `x` in it. -/
structure Kept (e : ExchangeObject) (x : KtlsExchange) (e' : ExchangeObject) : Prop where
  self : e'.self = e.self
  keys : e'.keys = e.keys
  x : e'.x = x
  built : e'.Built

theorem self_mem (e : ExchangeObject) : e.self ∈ e.owned := by simp [ExchangeObject.owned]

theorem ktlsExchangeRelease_spec {e : ExchangeObject} (h : e.Built) :
    Spec e.owned (ktlsExchangeRelease e) fun e' m =>
      m = e'.owned ∧ Kept e (Ktls.ktlsExchangeRelease e.x) e' := by
  unfold ktlsExchangeRelease
  apply Spec.seq (Spec.touch (self_mem e))
  cases h with
  | full s input output hssl hbios hin hout hx =>
    have howned : e.owned = s.owned + {e.self} := by
      rw [ExchangeObject.owned, hssl]
      exact add_comm _ _
    rw [hssl, howned]
    apply Spec.bind (sslFree_spec s)
    rintro _ _ rfl
    refine .pure ⟨?_, rfl, rfl, rfl, .released rfl rfl rfl rfl⟩
    simp [ExchangeObject.owned, held]
  | released hssl hin hout hx =>
    rw [hssl]
    have hsame : e.x = Ktls.ktlsExchangeRelease e.x :=
      congrArg (fun s => { e.x with ssl := s }) hx
    exact .pure ⟨rfl, rfl, rfl, hsame, .released hssl hin hout hx⟩

/-- Nothing but its release takes the SSL from an exchange, and nothing gives it one. -/
theorem after_ssl (K : Kdf) (x : KtlsExchange) (call : Call) (hcall : call ≠ .release) :
    (call.after K x).ssl.isSome = x.ssl.isSome := by
  have he := call.effect K x
  generalize call.after K x = y at he
  have has {s : Ssl} (hx : x.ssl = some s) : true = x.ssl.isSome :=
    (congrArg Option.isSome hx).symm
  cases he with
  | idle => rfl
  | feed hx _ => exact has hx
  | step hx hd =>
    rw [(ktlsExchangeStep_cases K _ _ hx hd).1.ssl]
    exact has hx
  | take hx => exact has hx
  | backlog hx hd =>
    obtain ⟨secret, secretLen, hframe⟩ := ktlsExchangeBacklog_frame hx hd _
    rw [hframe]
    exact has hx
  | ask => rfl
  | nextKey =>
    obtain ⟨secret, rekeyed, key, iv, info, hframe, -⟩ := ktlsNextKey_frame K x _ _
    rw [hframe]
  | release => exact absurd rfl hcall

/-- An `SSL` that is put to work keeps its BIOs, and with another context it has that one's
reference instead. -/
def SslKept (s : SslObject) (P : Multiset Pointer) (s' : SslObject) (m : Multiset Pointer) :
    Prop := m = s'.owned + P ∧ s'.bios = s.bios

theorem SslKept.refl (s : SslObject) (P : Multiset Pointer) : SslKept s P s (s.owned + P) :=
  ⟨rfl, rfl⟩

section Work

variable {s : SslObject} {e : ExchangeObject} {P : Multiset Pointer} {k : KeysObject}

theorem sslSetSslCtx_spec {ctx : Pointer} (hctx : ctx ∈ P) :
    Spec (s.owned + P) (sslSetSslCtx s ctx) (SslKept s P) := by
  unfold sslSetSslCtx
  apply Spec.seq (Spec.touch (by simp [SslObject.owned]))
  apply Spec.bind_all (Spec.retain (Multiset.mem_add.mpr (.inr hctx)))
  rintro _ _ rfl
  have hperm : ctx ::ₘ (s.owned + P) =
      s.ctx ::ₘ ({ s with ctx := ctx } : SslObject).owned + P := by
    simp only [SslObject.owned, ← Multiset.singleton_add]
    abel
  rw [hperm, Multiset.cons_add]
  exact Spec.drop_then (.pure (.refl { s with ctx := ctx } P))

theorem callback_spec (hk : ∀ r ∈ k.owned, r ∈ P) (c : HelloCallback) :
    Spec (s.owned + P) (callback k.self (some k) s c) (SslKept s P) := by
  have hmem (r : Pointer) (hr : r ∈ k.owned) : r ∈ s.owned + P :=
    Multiset.mem_add.mpr (.inr (hk r hr))
  have hself : k.self ∈ s.owned + P := hmem _ (by simp [KeysObject.owned])
  cases c with
  | alpn => exact Spec.seq (Spec.touch hself) (.pure (.refl s P))
  | serverName name refused =>
    apply Spec.seq (Spec.touch hself)
    cases name with
    | none => exact .pure (.refl s P)
    | some name =>
      apply Spec.seq (Spec.touchMaybe fun r hr => hmem r ?_)
      swap
      · rw [Option.mem_def] at hr
        simp [KeysObject.owned, hr, held]
      split
      · exact .pure (.refl s P)
      · next entry hfound =>
        split
        · exact .pure (.refl s P)
        · apply sslSetSslCtx_spec
          apply hk
          have hin := (List.of_mem_zip (List.mem_of_find?_eq_some hfound)).2
          simp [KeysObject.owned, hin]

theorem callbacks_spec (hk : ∀ r ∈ k.owned, r ∈ P) (cs : List HelloCallback) :
    Spec (s.owned + P) (callbacks k.self (some k) s cs) (SslKept s P) := by
  induction cs generalizing s with
  | nil => exact .pure (.refl s P)
  | cons c cs ih =>
    apply Spec.bind_all (callback_spec hk c)
    rintro t _ ⟨rfl, ht⟩
    exact (ih (s := t)).weaken fun u m hu => ⟨hu.1, hu.2.trans ht⟩

/-- An expansion ends with what it began with, whichever of its steps fails. -/
theorem ktlsExpand_spec (fate : KdfFate) : Spec 0 (ktlsExpand fate) (Exactly fun _ => 0) := by
  have whole : Spec (0 : Multiset Pointer)
      (do
        let kdf ← create Resource.kdf
        let kctx ← create Resource.kdfCtx
        retain kdf
        drop kdf
        drop kctx
        drop kdf)
      (Exactly fun _ => 0) := by
    apply Spec.create_then
    intro kdf
    apply Spec.create_then
    intro kctx
    apply Spec.bind_all (Spec.retain (by simp))
    rintro _ _ rfl
    apply Spec.drop_then
    apply Spec.drop_then
    exact Spec.drop kdf
  cases fate with
  | noFetch => exact .pure rfl
  | noContext =>
    apply Spec.create_then
    intro kdf
    exact Spec.drop kdf
  | noDerive => exact whole
  | derived => exact whole

theorem ktlsFill_spec (secretLen : ℕ) (fate : FillFate) :
    Spec 0 (ktlsFill secretLen fate) (Exactly fun _ => 0) := by
  unfold ktlsFill
  split
  · exact .pure rfl
  · apply Spec.seq (ktlsExpand_spec fate.key)
    split
    · exact ktlsExpand_spec fate.iv
    · exact .pure rfl

theorem ktlsDeriveBoth_spec (x : KtlsExchange) (server : Bool) (suite : Option Bytes)
    (fate : DeriveFate) : Spec 0 (ktlsDeriveBoth x server suite fate) (Exactly fun _ => 0) := by
  unfold ktlsDeriveBoth
  split
  · exact .pure rfl
  · apply Spec.seq (ktlsFill_spec _ fate.ours)
    split
    · exact ktlsFill_spec _ fate.theirs
    · exact .pure rfl

/-- The callbacks find the keys they ask for, or there are none. -/
def Found (keys : Option KeysObject) (address : Pointer) (hello : List HelloCallback)
    (P : Multiset Pointer) : Prop :=
  hello = [] ∨ ∃ k ∈ keys, k.self = address ∧ ∀ r ∈ k.owned, r ∈ P

theorem Found.mono {keys : Option KeysObject} {address : Pointer} {hello : List HelloCallback}
    (h : Found keys address hello P) (F : Multiset Pointer) :
    Found keys address hello (F + P) := by
  rcases h with h | ⟨k, hk, hself, hmem⟩
  · exact .inl h
  · exact .inr ⟨k, hk, hself, fun r hr => Multiset.mem_add.mpr (.inr (hmem r hr))⟩

theorem bios_mem (s : SslObject) : ∀ r ∈ s.bios, r ∈ s.owned + P := fun r hr => by
  simp [SslObject.owned, hr]

theorem handshake_spec {keys : Option KeysObject} {hello : List HelloCallback}
    (h : Found keys e.keys hello P) (a : HandshakeAnswer) (fate : DeriveFate) :
    Spec (s.owned + P) (handshake keys e s hello a fate) (SslKept s P) := by
  unfold handshake
  apply Spec.seq (Spec.touch (by simp [SslObject.owned]))
  apply Spec.seq (Spec.touchEach (bios_mem s))
  have hcalls : Spec (s.owned + P) (callbacks e.keys keys s hello) (SslKept s P) := by
    rcases h with rfl | ⟨k, rfl, hself, hmem⟩
    · exact .pure (.refl s P)
    · rw [← hself]
      exact callbacks_spec hmem hello
  apply Spec.bind_all hcalls
  rintro t _ ht
  split
  · exact Spec.seq_zero (ktlsDeriveBoth_spec _ _ _ _) (.pure ht)
  · exact .pure ht

/-- An exchange that is worked with through its `SSL`, if it has one, stays as it was built. -/
theorem withSsl_spec (he : e.Built) {f : SslObject → Prog Resource SslObject}
    (hf : ∀ s, e.ssl = some s →
      Spec (s.owned + ({e.self} + P)) (f s) (SslKept s ({e.self} + P))) :
    Spec (e.owned + P) (withSsl e f) fun ssl m =>
      ∀ y : KtlsExchange, y.ssl.isSome = e.x.ssl.isSome →
        m = ({ e with ssl := ssl, x := y } : ExchangeObject).owned + P ∧
          Kept e y { e with ssl := ssl, x := y } := by
  unfold withSsl
  apply Spec.seq (Spec.touch (Multiset.mem_add.mpr (.inl (self_mem e))))
  cases he with
  | full s input output hssl hbios hin hout hx =>
    have howned : e.owned + P = s.owned + ({e.self} + P) := by
      rw [ExchangeObject.owned, hssl]
      abel
    rw [hssl, howned]
    apply Spec.bind_all (hf s hssl)
    rintro t _ ⟨rfl, ht⟩
    refine .pure fun y hy => ⟨?_, rfl, rfl, rfl, ?_⟩
    · simp only [ExchangeObject.owned]
      abel
    · exact .full t input output rfl (ht.trans hbios) hin hout (hy.trans hx)
  | released hssl hin hout hx =>
    rw [hssl]
    refine .pure fun y hy => ⟨?_, rfl, rfl, rfl, .released rfl hin hout ?_⟩
    · simp only [ExchangeObject.owned, hssl]
    · rw [hx] at hy
      exact Option.isNone_iff_eq_none.mp (Option.isSome_eq_false_iff.mp hy)

/-- The BIOs an exchange points at are those its `SSL` was given, and go on being that. -/
theorem Built.bio_ssl (he : e.Built) (hs : e.ssl = some s) {t : SslObject}
    (ht : t.bios = s.bios) {r : Pointer} (hr : r ∈ e.input ∨ r ∈ e.output) : r ∈ t.owned + P := by
  cases he with
  | full s' input output hssl hbios hin hout hx =>
    obtain rfl : s' = s := Option.some.inj (hssl.symm.trans hs)
    rw [hin, hout] at hr
    rcases hr with hr | hr
    · obtain rfl : input = r := Option.some.inj hr
      simp [SslObject.owned, ht, hbios]
    · obtain rfl : output = r := Option.some.inj hr
      simp [SslObject.owned, ht, hbios]
  | released hssl hin hout hx =>
    rw [hssl] at hs
    cases hs

theorem Built.bio_mem (he : e.Built) {r : Pointer} (hr : r ∈ e.input ∨ r ∈ e.output) :
    r ∈ e.owned + P := by
  cases hs : e.ssl with
  | some s =>
    have hmem := Built.bio_ssl (P := P) he hs rfl hr
    rw [Multiset.mem_add] at hmem ⊢
    refine hmem.imp (fun h => ?_) id
    rw [ExchangeObject.owned, hs]
    exact Multiset.mem_add.mpr (.inr h)
  | none =>
    cases he with
    | full s input output hssl hbios hin hout hx =>
      rw [hssl] at hs
      cases hs
    | released hssl hin hout hx => simp [hin, hout] at hr

/-- Every call leaves the exchange with what it had, but for its release. -/
theorem exchangeCall_spec (he : e.Built) {keys : Option KeysObject} {hello : List HelloCallback}
    (h : Found keys e.keys hello P) (call : Call) :
    Spec (e.owned + P) (exchangeCall K keys e hello call) fun e' m =>
      m = e'.owned + P ∧ Kept e (call.after K e.x) e' := by
  have hself : e.self ∈ e.owned + P := Multiset.mem_add.mpr (.inl (self_mem e))
  have idle (y : KtlsExchange) (hy : y.ssl.isSome = e.x.ssl.isSome) :
      Kept e y { e with x := y } := by
    refine ⟨rfl, rfl, rfl, ?_⟩
    cases he with
    | full s input output hssl hbios hin hout hx =>
      exact .full s input output hssl hbios hin hout (hy.trans hx)
    | released hssl hin hout hx =>
      rw [hx] at hy
      exact .released hssl hin hout
        (Option.isNone_iff_eq_none.mp (Option.isSome_eq_false_iff.mp hy))
  cases call with
  | feed bytes written =>
    refine Spec.bind_all (withSsl_spec he fun s hs => ?_) fun ssl m hm => .pure (hm _ ?_)
    · split
      · exact .pure (.refl s _)
      · exact Spec.seq (Spec.touchMaybe fun r hr => Built.bio_ssl he hs rfl (.inl hr))
          (.pure (.refl s _))
    · exact after_ssl K e.x (.feed bytes written) (by simp)
  | step a fate =>
    refine Spec.bind_all (withSsl_spec he fun s hs => ?_) fun ssl m hm => .pure (hm _ ?_)
    · have hrest (t : SslObject) (m : Multiset Pointer) (ht : SslKept s ({e.self} + P) t m) :
          Spec m
            (do
              touchMaybe e.output
              pure t)
            (SslKept s ({e.self} + P)) := by
        obtain ⟨rfl, hbios⟩ := ht
        exact Spec.seq (Spec.touchMaybe fun r hr => Built.bio_ssl he hs hbios (.inr hr))
          (.pure ⟨rfl, hbios⟩)
      dsimp only
      split
      · exact hrest s _ (.refl s _)
      · exact Spec.bind_all (handshake_spec (h.mono {e.self}) a fate) hrest
    · exact after_ssl K e.x (.step a fate) (by simp)
  | take cap =>
    refine Spec.bind_all (withSsl_spec he fun s hs => ?_) fun ssl m hm => .pure (hm _ ?_)
    · exact Spec.seq (Spec.touchMaybe fun r hr => Built.bio_ssl he hs rfl (.inr hr))
        (.pure (.refl s _))
    · exact after_ssl K e.x (.take cap) (by simp)
  | backlog a =>
    refine Spec.bind_all (withSsl_spec he fun s hs => ?_) fun ssl m hm => .pure (hm _ ?_)
    · split
      · exact Spec.seq (Spec.touch (by simp [SslObject.owned]))
          (Spec.seq (Spec.touchEach (bios_mem s)) (.pure (.refl s _)))
      · exact .pure (.refl s _)
    · exact after_ssl K e.x (.backlog a) (by simp)
  | ask np dir =>
    apply Spec.seq (Spec.touch hself)
    apply Spec.seq (Spec.touchMaybe fun r hr => Built.bio_mem he (.inr hr))
    apply Spec.seq (Spec.touchMaybe fun r hr => Built.bio_mem he (.inl hr))
    exact .pure ⟨rfl, idle _ (after_ssl K e.x (.ask np dir) (by simp))⟩
  | nextKey dir fate =>
    apply Spec.seq (Spec.touch hself)
    have hkept := idle _ (after_ssl K e.x (.nextKey dir fate) (by simp))
    dsimp only
    split
    · apply Spec.seq_zero (ktlsExpand_spec fate.upd)
      split
      · exact Spec.seq_zero (ktlsFill_spec _ fate.fill) (.pure ⟨rfl, hkept⟩)
      · exact .pure ⟨rfl, hkept⟩
    · exact .pure ⟨rfl, hkept⟩
  | release =>
    refine (Spec.frame (ktlsExchangeRelease_spec he)).weaken fun e' m hm => ?_
    obtain ⟨n, ⟨rfl, hkept⟩, rfl⟩ := hm
    exact ⟨rfl, hkept⟩

end Work

end Memory

end Ktls
