import Ktls.Proofs.Memory

/-! What is done with handles, in whatever order: nothing is used that is gone, and nothing
is given back twice or left behind but a stranded BIO. -/

namespace Ktls

open Heap Memory

variable {lib : Libssl} {aesIsFast : Bool} {K : Kdf}

theorem keysAt_some {keys : List (Option KeysObject)} {address : Pointer} {k : KeysObject}
    (h : keysAt keys address = some k) : some k ∈ keys ∧ k.self = address := by
  obtain ⟨o, ho, hk⟩ := List.exists_of_findSome?_eq_some h
  obtain ⟨rfl, hself⟩ := Option.filter_eq_some_iff.mp hk
  exact ⟨ho, of_decide_eq_true hself⟩

theorem keysAt_isSome {keys : List (Option KeysObject)} {k : KeysObject} (h : some k ∈ keys) :
    (keysAt keys k.self).isSome = true := by
  rw [keysAt, List.findSome?_isSome_iff]
  exact ⟨some k, h, by simp [Option.filter]⟩

theorem found_keysAt {keys : List (Option KeysObject)} {address : Pointer}
    {hello : List HelloCallback} {F : Multiset Pointer}
    (h : hello = [] ∨ (keysAt keys address).isSome = true) :
    Found (keysAt keys address) address hello (ownedBy KeysObject.owned keys + F) := by
  refine h.imp id fun hsome => ?_
  obtain ⟨k, hk⟩ := Option.isSome_iff_exists.mp hsome
  obtain ⟨hmem, hself⟩ := keysAt_some hk
  exact ⟨k, hk, hself, fun r hr => Multiset.mem_add.mpr (.inl (owned_le hmem hr))⟩

namespace Handles

/-- Every object a handle has is as the calls on it alone leave it. -/
structure Keeps (lib : Libssl) (aesIsFast : Bool) (K : Kdf) (H : History) (S : Handles) :
    Prop where
  keys : Recorded KeysObject.keys (fun k call => (KeysCall.exec lib aesIsFast k call).2) S.keys
    H.keys
  exchanges : Recorded ExchangeObject.x (Call.after K) S.exchanges H.exchanges

/-- Every object a handle has is built, and kept as its calls leave it. -/
structure Inv (lib : Libssl) (aesIsFast : Bool) (K : Kdf) (H : History) (S : Handles) :
    Prop where
  keys : ∀ k, some k ∈ S.keys → k.Built
  exchanges : ∀ e, some e ∈ S.exchanges → e.Built
  keeps : Keeps lib aesIsFast K H S

/-- So many BIOs, and nothing else. -/
def Bios (n : ℕ) (lost : Multiset Pointer) : Prop :=
  (∀ r ∈ lost, r.kind = .bio) ∧ lost.card = n

theorem Bios.zero : Bios 0 0 := ⟨by simp, rfl⟩

theorem Bios.add (a b : ℕ) (m n : Multiset Pointer) (hm : Bios a m) (hn : Bios b n) :
    Bios (a + b) (m + n) :=
  ⟨fun r hr => (Multiset.mem_add.mp hr).elim (hm.1 r) (hn.1 r), by
    rw [Multiset.card_add, hm.2, hn.2]⟩

/-- The handles after a step have all that there is but some BIOs. -/
def After (lib : Libssl) (aesIsFast : Bool) (K : Kdf) (n : ℕ) (H : History) (S : Handles)
    (m : Multiset Pointer) : Prop :=
  S.Inv lib aesIsFast K H ∧ ∃ lost, m = S.owned + lost ∧ Bios n lost

variable {S : Handles} {H : History}

theorem After.exact {m : Multiset Pointer} (hi : S.Inv lib aesIsFast K H) (hm : m = S.owned) :
    After lib aesIsFast K 0 H S m :=
  ⟨hi, 0, hm.trans (add_zero _).symm, .zero⟩

theorem mem_append_handle {α : Type} {hs : List (Option α)} {o : Option α} {a : α}
    (h : some a ∈ hs ++ [o]) : some a ∈ hs ∨ a ∈ o := by
  rcases List.mem_append.mp h with h | h
  · exact .inl h
  · exact .inr (List.mem_singleton.mp h).symm

theorem mem_set_handle {α : Type} {hs : List (Option α)} {i : ℕ} {a b : α}
    (h : some a ∈ hs.set i (some b)) : some a ∈ hs ∨ a = b :=
  (List.mem_or_eq_of_mem_set h).imp id Option.some.inj

theorem pushKeys (hi : S.Inv lib aesIsFast K H) {k : Option KeysObject} {made : Option KtlsKeys}
    (hmade : k.map KeysObject.keys = made) (hk : ∀ o ∈ k, o.Built) :
    After lib aesIsFast K 0 { H with keys := H.keys ++ [made.map fun k => { made := k }] }
      { S with keys := S.keys ++ [k] } (ownedAt KeysObject.owned k + S.owned) := by
  refine .exact ⟨fun o ho => ?_, hi.exchanges, hi.keeps.keys.push hmade, hi.keeps.exchanges⟩ ?_
  · exact (mem_append_handle ho).elim (hi.keys o) (hk o)
  · simp only [owned, ownedBy_append, ownedBy_singleton]
    abel

theorem exec_spec (hi : S.Inv lib aesIsFast K H) {op : Op} (hp : S.Permits op) :
    Spec S.owned (S.exec lib aesIsFast K op)
      (After lib aesIsFast K (S.loses op) (H.note lib aesIsFast op)) := by
  cases op with
  | server certPem keyPem fate parsed =>
    apply Spec.bind_zero (ktlsKeysServer_spec certPem keyPem fate parsed)
    rintro k _ ⟨rfl, hmade, hk⟩
    exact .pure (pushKeys hi hmade hk)
  | client fate =>
    apply Spec.bind_zero (ktlsKeysClient_spec fate)
    rintro k _ ⟨rfl, hmade, hk⟩
    exact .pure (pushKeys hi hmade hk)
  | keysCall i call parsed =>
    obtain ⟨k, hk⟩ := Option.isSome_iff_exists.mp hp
    have hlt := handle_length hk
    simp only [exec, hk]
    rw [owned, ownedBy_handle hk, add_assoc]
    apply Spec.bind (keysCall_spec k parsed call)
    rintro k' _ ⟨rfl, -, hkept, hcall⟩
    refine .pure (.exact ⟨fun o ho => ?_, hi.exchanges, hi.keeps.keys.call hk hcall,
      hi.keeps.exchanges⟩ ?_)
    · rcases mem_set_handle ho with ho | rfl
      · exact hi.keys o ho
      · exact hkept (hi.keys k (handle_mem hk))
    · simp only [owned, ownedBy_set hlt, ownedAt]
      abel
  | keysLife l =>
    apply Spec.bind (Lifetime.spec ktlsKeysFree_spec hp)
    rintro _ _ ⟨rfl, rfl⟩
    refine .pure (.exact ⟨fun o ho => ?_, hi.exchanges, hi.keeps.keys.arrange l,
      hi.keeps.exchanges⟩ rfl)
    exact hi.keys o (Lifetime.mem_arrange ho)
  | open_ i role fate =>
    have hkeys := hi.keeps.keys.handle i
    simp only [exec, loses, History.note]
    cases hk : handle S.keys i with
    | none =>
      have hnone : handle H.keys i = none := by
        rw [hk] at hkeys
        exact Option.map_eq_none_iff.mp hkeys.symm
      rw [hnone]
      refine .pure (.exact ⟨hi.keys, fun o ho => ?_, hi.keeps.keys,
        hi.keeps.exchanges.push rfl⟩ ?_)
      · exact (mem_append_handle ho).elim (hi.exchanges o) fun h => absurd h (by simp)
      · simp [owned, ownedAt]
    | some k =>
      obtain ⟨past, hpast⟩ : ∃ past, handle H.keys i = some past := by
        rw [hk] at hkeys
        obtain ⟨past, hpast, -⟩ := Option.map_eq_some_iff.mp hkeys.symm
        exact ⟨past, hpast⟩
      rw [hpast, owned, ownedBy_handle hk, add_assoc]
      apply Spec.bind (ktlsExchangeOpen_spec k role fate)
      rintro e _ ⟨⟨lost, rfl, hlost⟩, hmade, he⟩
      refine .pure ⟨⟨hi.keys, fun o ho => ?_, hi.keeps.keys, hi.keeps.exchanges.push hmade⟩, lost,
        ?_, hlost.bios, ?_⟩
      · exact (mem_append_handle ho).elim (hi.exchanges o) fun h => (he o h).1
      · simp only [owned, ownedBy_append, ownedBy_singleton, ownedBy_handle hk]
        abel
      · rw [hlost.card]
        simp
  | call j call hello =>
    obtain ⟨e, he, hfound⟩ := hp
    rw [Option.mem_def] at he
    have hlt := handle_length he
    simp only [exec, he]
    have hperm : S.owned = e.owned +
        (ownedBy KeysObject.owned S.keys +
          ownedBy ExchangeObject.owned (S.exchanges.eraseIdx j)) := by
      rw [owned, ownedBy_handle he]
      abel
    rw [hperm]
    have hbuilt := hi.exchanges e (handle_mem he)
    apply Spec.bind_all (exchangeCall_spec hbuilt (found_keysAt hfound) call)
    rintro e' _ ⟨rfl, hkept⟩
    refine .pure (.exact ⟨hi.keys, fun o ho => ?_, hi.keeps.keys,
      hi.keeps.exchanges.call he hkept.x⟩ ?_)
    · rcases mem_set_handle ho with ho | rfl
      · exact hi.exchanges o ho
      · exact hkept.built
    · simp only [owned, ownedBy_set hlt, ownedAt]
      abel
  | exchangeLife l =>
    rw [owned, add_comm]
    apply Spec.bind (Lifetime.spec ktlsExchangeFree_spec hp)
    rintro _ _ ⟨rfl, rfl⟩
    refine .pure (.exact ⟨hi.keys, fun o ho => ?_, hi.keeps.keys,
      hi.keeps.exchanges.arrange l⟩ (add_comm _ _))
    exact hi.exchanges o (Lifetime.mem_arrange ho)

/-- Handles of keys and exchanges are made, moved, assigned, used and destroyed in any order:
nothing is used or given back that is gone, each resource is with one handle or was stranded
where an exchange could not be opened, and once the handles are gone nothing else is left. The
object of each handle is at any time as it was made and as the calls on it since have left it,
whatever was done with the others. -/
theorem lifetimes {ops : List Op} {T : Handles × Heap Resource}
    (h : (machine lib aesIsFast K).Run ({}, {}) ops T) :
    T.2.fault = false ∧ (∃ lost : Multiset Pointer,
      (∀ r, T.2.refs r = (T.1.owned + lost).count r) ∧ (∀ r ∈ lost, r.kind = .bio) ∧
      lost.card = (machine lib aesIsFast K).total (fun S op => S.1.loses op) ({}, {}) ops ∧
      ((∀ o ∈ T.1.keys, o = none) → (∀ o ∈ T.1.exchanges, o = none) →
        ∀ r, T.2.refs r = lost.count r)) ∧
    (∀ i, (handle T.1.keys i).map KeysObject.keys =
      (handle (history lib aesIsFast ops).keys i).map
        (Past.now fun k call => (KeysCall.exec lib aesIsFast k call).2)) ∧
    (∀ j, (handle T.1.exchanges j).map ExchangeObject.x =
      (handle (history lib aesIsFast ops).exchanges j).map (Past.now (Call.after K))) := by
  have hempty : (({} : Handles), ({} : Heap Resource)).2.Owns (owned {} + 0) := owns_empty
  have hnew : ({} : Handles).Inv lib aesIsFast K {} := ⟨by simp, by simp, rfl, rfl⟩
  have step : ∀ (ops : List Op) (S : Handles) (op : Op),
      S.Inv lib aesIsFast K (history lib aesIsFast ops) → S.Permits op →
      Spec S.owned (S.exec lib aesIsFast K op) fun S' m =>
        S'.Inv lib aesIsFast K (history lib aesIsFast (ops ++ [op])) ∧
          ∃ lost, m = S'.owned + lost ∧ Bios (S.loses op) lost := by
    intro ops S op hi hp
    rw [history, List.foldl_append]
    exact exec_spec hi hp
  obtain ⟨hinv, lost, ho, hbios, hcard⟩ :=
    run_owns (fun ops S => S.Inv lib aesIsFast K (history lib aesIsFast ops)) Bios.add step h hnew
      hempty Bios.zero
  refine ⟨ho.sound, ⟨lost, ho.counts, hbios, by rw [hcard, Nat.zero_add]; rfl, ?_⟩,
    hinv.keeps.keys.handle, hinv.keeps.exchanges.handle⟩
  intro hkeys hexchanges r
  have hnone : T.1.owned = 0 := by
    rw [owned, ownedBy_empty hkeys, ownedBy_empty hexchanges, add_zero]
  rw [ho.counts, hnone, zero_add]

/-- Two exchanges of which one is not to be had for want of a BIO, keys that are moved while
the other reads a ClientHello, and everything destroyed. -/
def sampleLife : List Op :=
  [.client {}, .open_ 0 .client {}, .open_ 0 .client { output := false },
    .keysLife (.move 0),
    .call 0 (.step { rc := -1, error := .wantRead, input := [], output := [1] } {})
      [.alpn, .serverName (some (ascii "a")) false],
    .exchangeLife (.assign 1 0), .call 1 (.take 1) [], .exchangeLife (.destroy 0),
    .keysLife (.destroy 1), .exchangeLife (.destroy 0)]

theorem lifetimes_sample :
    let T := sampleLife.foldl (machine sampleLib true sampleKdf).next ({}, {})
    T.2.fault = false ∧ ∃ lost : Multiset Pointer, (∀ r, T.2.refs r = lost.count r) ∧
      (∀ r ∈ lost, r.kind = .bio) ∧ lost.card = 1 := by
  intro T
  have hrun : (machine sampleLib true sampleKdf).Run ({}, {}) sampleLife T :=
    Machine.Run.of_check (by decide +kernel)
  obtain ⟨hsound, ⟨lost, -, hbios, hcard, hall⟩, -⟩ := lifetimes hrun
  refine ⟨hsound, lost, hall (by decide +kernel) (by decide +kernel), hbios, hcard.trans ?_⟩
  decide +kernel

end Handles

end Ktls
