import Ktls.Proofs.Handles
import Ktls.Spec.Vm

/-! The binding under a collector that finalizes what it finds unreachable, in any order. -/

namespace Ktls

open Heap Memory

namespace Vm

variable {lib : Libssl} {aesIsFast : Bool} {K : Kdf} {S : Vm}

/-- The objects with one of them finalized. -/
def cleared (S : Vm) : Object → Vm
  | .keys i => { S with keys := S.keys.set i none }
  | .exchange j => { S with exchanges := S.exchanges.set j {} }

theorem finalize_spec (S : Vm) (o : Object) :
    Spec S.owned (finalize S o) fun S' m => S' = S.cleared o ∧ m = (S.cleared o).owned := by
  cases o with
  | keys i =>
    rw [owned, ownedBy_clear S.keys i, add_assoc]
    apply Spec.bind (freeHandle_spec ktlsKeysFree_spec (handle S.keys i))
    rintro _ _ rfl
    exact .pure ⟨rfl, zero_add _⟩
  | exchange j =>
    rw [owned, ownedBy_clear S.data j, add_left_comm]
    apply Spec.bind (freeHandle_spec ktlsExchangeFree_spec (handle S.data j))
    rintro _ _ rfl
    refine .pure ⟨rfl, ?_⟩
    simp [owned, cleared, data, List.map_set]

theorem finalizeEach_spec (S : Vm) (dead : List Object) :
    Spec S.owned (finalizeEach S dead) fun S' m =>
      S' = dead.foldl cleared S ∧ m = S'.owned := by
  induction dead generalizing S with
  | nil => exact .pure ⟨rfl, rfl⟩
  | cons o dead ih =>
    apply Spec.bind_all (finalize_spec S o)
    rintro _ _ ⟨rfl, rfl⟩
    exact ih (S.cleared o)

theorem keys_swept (S : Vm) (dead : List Object) (i : ℕ) :
    handle (dead.foldl cleared S).keys i =
      if .keys i ∈ dead then none else handle S.keys i := by
  induction dead generalizing S with
  | nil => simp
  | cons o dead ih =>
    rw [List.foldl_cons, ih]
    cases o with
    | keys k =>
      rw [cleared, handle_clear]
      by_cases hk : k = i
      · simp [hk]
      · simp [hk, Ne.symm hk]
    | exchange j => simp [cleared]

theorem data_swept (S : Vm) (dead : List Object) (j : ℕ) :
    handle (dead.foldl cleared S).data j =
      if .exchange j ∈ dead then none else handle S.data j := by
  induction dead generalizing S with
  | nil => simp
  | cons o dead ih =>
    rw [List.foldl_cons, ih]
    cases o with
    | keys i => simp [cleared, data]
    | exchange k =>
      have hdata : (S.cleared (.exchange k)).data = S.data.set k none := by
        simp [cleared, data, List.map_set]
      rw [hdata, handle_clear]
      by_cases hk : k = j
      · simp [hk]
      · simp [hk, Ne.symm hk]

theorem keysOf_swept (S : Vm) {dead : List Object} {j : ℕ} (hj : .exchange j ∉ dead) :
    (dead.foldl cleared S).keysOf j = S.keysOf j := by
  induction dead generalizing S with
  | nil => rfl
  | cons o dead ih =>
    obtain ⟨hne, hj⟩ := not_or.mp (List.mem_cons.not.mp hj)
    rw [List.foldl_cons, ih _ hj]
    cases o with
    | keys i => rfl
    | exchange k =>
      have hkj : k ≠ j := fun h => hne (h ▸ rfl)
      simp [keysOf, cleared, hkj]

/-- Every object that is wrapped is built, and the keys an exchange was opened from are there. -/
structure Inv (S : Vm) : Prop where
  keys : ∀ k, some k ∈ S.keys → k.Built
  exchanges : ∀ e, some e ∈ S.data → e.Built ∧ ∃ k, some k ∈ S.keys ∧ k.self = e.keys

theorem Inv.sweep (h : S.Inv) {dead : List Object} (hp : S.Permits (.sweep dead))
    (ht : S.Tended (.sweep dead)) : (dead.foldl cleared S).Inv := by
  refine ⟨fun k hk => ?_, fun e he => ?_⟩
  · obtain ⟨i, -, hswept⟩ := exists_handle hk
    rw [keys_swept] at hswept
    split at hswept
    · cases hswept
    · exact h.keys k (handle_mem hswept)
  · obtain ⟨j, -, hswept⟩ := exists_handle he
    rw [data_swept] at hswept
    split at hswept
    · cases hswept
    · next hleft =>
      have hj : j < S.exchanges.length := by simpa [data] using handle_length hswept
      obtain ⟨k, hk, hself⟩ := ht j hj hleft e hswept
      obtain ⟨i, hi, hk⟩ := Option.bind_eq_some_iff.mp hk
      have hkept : .keys i ∉ dead := hp j hj hleft i hi
      refine ⟨(h.exchanges e (handle_mem hswept)).1, k, ?_, hself⟩
      refine handle_mem (i := i) ?_
      rw [keys_swept, if_neg hkept, hk]

/-- Keys that are put in the place of others at the same address are found like them. -/
theorem Inv.setKeys (h : S.Inv) {i : ℕ} {k k' : KeysObject} (hk : handle S.keys i = some k)
    (hself : k'.self = k.self) (hbuilt : k'.Built) :
    ({ S with keys := S.keys.set i (some k') } : Vm).Inv := by
  refine ⟨fun o ho => ?_, fun e he => ?_⟩
  · exact (Handles.mem_set_handle ho).elim (h.keys o) fun ho => ho ▸ hbuilt
  · obtain ⟨hbuilt', o, ho, haddress⟩ := h.exchanges e he
    obtain ⟨m, -, hm⟩ := exists_handle ho
    by_cases hmi : i = m
    · subst hmi
      obtain rfl : k = o := Option.some.inj (hk.symm.trans hm)
      exact ⟨hbuilt', k', handle_mem (handle_set_self (handle_length hk) _),
        hself.trans haddress⟩
    · exact ⟨hbuilt', o, handle_mem ((handle_set_ne hmi _).trans hm), haddress⟩

theorem Inv.pushKeys (h : S.Inv) {k : Option KeysObject} (hk : ∀ o ∈ k, o.Built) :
    ({ S with keys := S.keys ++ [k] } : Vm).Inv := by
  refine ⟨fun o ho => ?_, fun e he => ?_⟩
  · exact (Handles.mem_append_handle ho).elim (h.keys o) (hk o)
  · obtain ⟨hbuilt, o, ho, hself⟩ := h.exchanges e he
    exact ⟨hbuilt, o, List.mem_append_left _ ho, hself⟩

theorem Inv.ofData (h : S.Inv) {exchanges : List RubyExchange}
    (hx : ∀ e, some e ∈ exchanges.map RubyExchange.data → some e ∈ S.data ∨
      e.Built ∧ ∃ k, some k ∈ S.keys ∧ k.self = e.keys) :
    ({ S with exchanges := exchanges } : Vm).Inv :=
  ⟨h.keys, fun e he => (hx e he).elim (h.exchanges e) id⟩

theorem Inv.setExchange (h : S.Inv) (j : ℕ) {e : ExchangeObject} (hbuilt : e.Built)
    {k : KeysObject} (hk : some k ∈ S.keys) (hself : k.self = e.keys) (keys : Option ℕ) :
    ({ S with exchanges := S.exchanges.set j { data := some e, keys := keys } } : Vm).Inv := by
  refine h.ofData fun o ho => ?_
  rw [List.map_set] at ho
  refine (Handles.mem_set_handle ho).imp id ?_
  rintro rfl
  exact ⟨hbuilt, k, hk, hself⟩

/-- Every exchange has its keys in `@keys`. -/
def Whole (S : Vm) : Prop := ∀ j, S.Remembers j

theorem Whole.moved (h : S.Whole) {keys : List (Option KeysObject)}
    (hkept : ∀ i k, handle S.keys i = some k → ∃ k', handle keys i = some k' ∧ k'.self = k.self) :
    ({ S with keys := keys } : Vm).Whole := by
  intro j e he
  obtain ⟨k, hk, hself⟩ := h j e he
  obtain ⟨i, hi, hk⟩ := Option.bind_eq_some_iff.mp hk
  obtain ⟨k', hk', hself'⟩ := hkept i k hk
  exact ⟨k', Option.bind_eq_some_iff.mpr ⟨i, hi, hk'⟩, hself'.trans hself⟩

theorem Whole.setKeys (h : S.Whole) {i : ℕ} {k k' : KeysObject} (hk : handle S.keys i = some k)
    (hself : k'.self = k.self) : ({ S with keys := S.keys.set i (some k') } : Vm).Whole := by
  refine h.moved fun m o ho => ?_
  by_cases hmi : i = m
  · subst hmi
    obtain rfl : k = o := Option.some.inj (hk.symm.trans ho)
    exact ⟨k', handle_set_self (handle_length hk) _, hself⟩
  · exact ⟨o, (handle_set_ne hmi _).trans ho, rfl⟩

theorem Whole.pushKeys (h : S.Whole) (k : Option KeysObject) :
    ({ S with keys := S.keys ++ [k] } : Vm).Whole := by
  refine h.moved fun i o ho => ⟨o, ?_, rfl⟩
  rwa [handle, List.getElem?_append_left (handle_length ho)]

theorem Whole.setExchange (h : S.Whole) (j : ℕ) {e : ExchangeObject} {keys : Option ℕ}
    (hkeys : ∃ k ∈ keys.bind (handle S.keys), k.self = e.keys) :
    ({ S with exchanges := S.exchanges.set j { data := some e, keys := keys } } : Vm).Whole := by
  intro m
  by_cases hjm : j = m
  · subst hjm
    intro e' he'
    have hj : j < S.exchanges.length := by simpa [data] using handle_length he'
    rw [data, List.map_set, handle_set_self (by simpa using hj)] at he'
    obtain rfl : e = e' := Option.some.inj he'
    simpa [keysOf, hj] using hkeys
  · have hm := h m
    simpa [Remembers, data, keysOf, List.map_set, handle_set_ne hjm, List.getElem?_set_ne hjm]
      using hm

theorem Whole.allocate (h : S.Whole) :
    ({ S with exchanges := S.exchanges ++ [{}] } : Vm).Whole := by
  intro j e he
  rw [data, List.map_append, List.map_singleton, handle_concat_none] at he
  have hj : j < S.exchanges.length := by simpa using handle_length he
  have hkeys := h j e he
  rwa [keysOf, ← List.getElem?_append_left hj] at hkeys

theorem Whole.sweep (h : S.Whole) {dead : List Object} (hp : S.Permits (.sweep dead)) :
    (dead.foldl cleared S).Whole := by
  intro j e he
  rw [data_swept] at he
  split at he
  · cases he
  · next hleft =>
    obtain ⟨k, hk, hself⟩ := h j e he
    obtain ⟨i, hi, hk⟩ := Option.bind_eq_some_iff.mp hk
    have hj : j < S.exchanges.length := by simpa [data] using handle_length he
    refine ⟨k, Option.bind_eq_some_iff.mpr ⟨i, (keysOf_swept S hleft).trans hi, ?_⟩, hself⟩
    rw [keys_swept, if_neg (hp j hj hleft i hi), hk]

theorem Whole.tended (h : S.Whole) (op : Op) : S.Tended op := by
  cases op with
  | sweep dead => exact fun j _ _ => h j
  | server | client | keysCall | allocate | initialize_ | setKeys | call => exact trivial

/-- What is lost where nothing is wasted is nothing. -/
def Wasted (n : ℕ) (lost : Multiset Pointer) : Prop := n = 0 → lost = 0

theorem Wasted.add (a b : ℕ) (m n : Multiset Pointer) (hm : Wasted a m) (hn : Wasted b n) :
    Wasted (a + b) (m + n) := by
  intro h
  rw [hm (by omega), hn (by omega), add_zero]

/-- What a step leaves, with `n` the cost of it; `kept`: nothing is done about `@keys`. -/
structure After (kept : Prop) (n : ℕ) (S : Vm) (m : Multiset Pointer) : Prop where
  inv : S.Inv
  whole : kept → S.Whole
  lost : ∃ lost, m = S.owned + lost ∧ Wasted n lost

theorem After.exact {m : Multiset Pointer} {kept : Prop} (hi : S.Inv) (hw : kept → S.Whole)
    (hm : m = S.owned) (n : ℕ) : After kept n S m :=
  ⟨hi, hw, 0, hm.trans (add_zero _).symm, fun _ => rfl⟩

theorem wrapKeys_after {kept : Prop} (hi : S.Inv) (hw : kept → S.Whole) {k : Option KeysObject}
    (hk : ∀ o ∈ k, o.Built) (room : Bool) :
    After kept (if room then 0 else 1) (wrapKeys S k room)
      (ownedAt KeysObject.owned k + S.owned) := by
  cases k with
  | none => exact .exact hi hw (zero_add _) _
  | some k =>
    cases room with
    | true =>
      refine .exact (hi.pushKeys hk) (fun h => (hw h).pushKeys _) ?_ _
      simp only [owned, data, ownedBy_append, ownedBy_singleton]
      abel
    | false => exact ⟨hi, hw, k.owned, add_comm _ _, fun h => absurd h (by decide)⟩

theorem handle_data {j : ℕ} {x : RubyExchange} (hx : S.exchanges[j]? = some x) :
    handle S.data j = x.data := by simp [handle, data, hx]

theorem owned_setExchange {j : ℕ} (hj : j < S.exchanges.length) (x : RubyExchange) :
    ({ S with exchanges := S.exchanges.set j x } : Vm).owned =
      ownedBy KeysObject.owned S.keys + (ownedAt ExchangeObject.owned x.data +
        ownedBy ExchangeObject.owned (S.data.eraseIdx j)) := by
  have hdata : j < S.data.length := by simpa [data] using hj
  rw [← ownedBy_set hdata]
  simp [owned, data, List.map_set]

theorem owned_exchange {j : ℕ} (hj : j < S.exchanges.length) :
    S.owned = ownedBy KeysObject.owned S.keys + (ownedAt ExchangeObject.owned (handle S.data j) +
        ownedBy ExchangeObject.owned (S.data.eraseIdx j)) := by
  have hdata : j < S.data.length := by simpa [data] using hj
  rw [← ownedBy_eraseIdx hdata, owned]

theorem initialize_spec (hi : S.Inv) {j : ℕ} (hj : j < S.exchanges.length) (i : ℕ)
    (role : KtlsRole) (fate : OpenFate) (remembers : Bool) :
    Spec S.owned (S.exec lib aesIsFast K (.initialize_ j i role fate remembers))
      (After (S.Whole ∧ Op.Remembering (.initialize_ j i role fate remembers))
        (S.wastes (.initialize_ j i role fate remembers))) := by
  have hdata : j < S.data.length := by simpa [data] using hj
  simp only [exec, wastes]
  cases hk : handle S.keys i with
  | none => exact .pure (.exact hi And.left rfl _)
  | some k =>
    have hkeys : ownedBy KeysObject.owned S.keys = k.owned + _ := ownedBy_handle hk
    rw [owned, hkeys, add_assoc]
    apply Spec.bind (ktlsExchangeOpen_spec k role fate)
    rintro e _ ⟨⟨lost, rfl, hlost⟩, -, he⟩
    have hnone (h : ¬ fate.Strands) : lost = 0 := by
      have hcard := hlost.card
      rwa [if_neg h, Multiset.card_eq_zero] at hcard
    cases e with
    | none =>
      refine .pure ⟨hi, And.left, lost, ?_, fun h => hnone fun hs => ?_⟩
      · rw [owned, hkeys, ownedAt]
        abel
      · rw [if_pos (.inl hs)] at h
        cases h
    | some e =>
      obtain ⟨hbuilt, hself⟩ := he e rfl
      let keys := if remembers then some i else S.keysOf j
      have hwhole (h : S.Whole ∧ Op.Remembering (.initialize_ j i role fate remembers)) :
          ({ S with exchanges := S.exchanges.set j { data := some e, keys := keys } } :
            Vm).Whole := by
        have hkeys : keys = some i := if_pos h.2
        exact h.1.setExchange j ⟨k, by rw [hkeys]; exact hk, hself.symm⟩
      refine .pure ⟨hi.setExchange j hbuilt (handle_mem hk) hself.symm _, hwhole,
        ownedAt ExchangeObject.owned (handle S.data j) + lost, ?_, fun h => ?_⟩
      · rw [owned_setExchange hj, ownedBy_eraseIdx hdata, hkeys]
        simp only [ownedAt]
        abel
      · split_ifs at h with hwaste
        obtain ⟨hstrands, hempty⟩ := not_or.mp hwaste
        rw [hnone hstrands, Option.not_isSome_iff_eq_none.mp hempty, ownedAt, add_zero]

theorem call_spec (hi : S.Inv) (j : ℕ) (call : Call) (hello : List HelloCallback) :
    Spec S.owned (S.exec lib aesIsFast K (.call j call hello))
      (After (S.Whole ∧ Op.Remembering (.call j call hello)) (S.wastes (.call j call hello))) := by
  simp only [exec]
  cases hx : S.exchanges[j]? with
  | none => exact .pure (.exact hi And.left rfl _)
  | some x =>
    simp only
    cases he : x.data with
    | none => exact .pure (.exact hi And.left rfl _)
    | some e =>
      obtain ⟨hj, -⟩ := List.getElem?_eq_some_iff.mp hx
      obtain ⟨hbuilt, k, hk, hself⟩ :=
        hi.exchanges e (handle_mem ((handle_data hx).trans he))
      have hperm : S.owned = e.owned + (ownedBy KeysObject.owned S.keys +
          ownedBy ExchangeObject.owned (S.data.eraseIdx j)) := by
        rw [owned_exchange hj, handle_data hx, he, ownedAt]
        abel
      have hthere := keysAt_isSome hk
      rw [hself] at hthere
      simp only
      rw [hperm]
      apply Spec.bind_all (exchangeCall_spec hbuilt (found_keysAt (.inr hthere)) call)
      rintro e' _ ⟨rfl, hkept⟩
      have hinv := hi.setExchange j hkept.built hk (hself.trans hkept.keys.symm) x.keys
      have hwhole (h : S.Whole) : ({ S with
          exchanges := S.exchanges.set j { data := some e', keys := x.keys } } : Vm).Whole := by
        obtain ⟨k, hk, hself⟩ := h j e ((handle_data hx).trans he)
        rw [keysOf, hx] at hk
        exact h.setExchange j ⟨k, hk, hself.trans hkept.keys.symm⟩
      refine .pure (.exact hinv (fun h => hwhole h.1) ?_ _)
      rw [owned_setExchange hj, ownedAt]
      abel

/-- What the program and the collector do keeps every exchange beside its keys. -/
theorem exec_spec (hi : S.Inv) {op : Op} (hp : S.Permits op) (ht : S.Tended op) :
    Spec S.owned (S.exec lib aesIsFast K op)
      (After (S.Whole ∧ op.Remembering) (S.wastes op)) := by
  cases op with
  | server certPem keyPem fate parsed room =>
    apply Spec.bind_zero (ktlsKeysServer_spec certPem keyPem fate parsed)
    rintro k _ ⟨rfl, -, hk⟩
    exact .pure (wrapKeys_after hi And.left hk room)
  | client fate room =>
    apply Spec.bind_zero (ktlsKeysClient_spec fate)
    rintro k _ ⟨rfl, -, hk⟩
    exact .pure (wrapKeys_after hi And.left hk room)
  | keysCall i call parsed =>
    simp only [exec]
    cases hk : handle S.keys i with
    | none => exact .pure (.exact hi And.left rfl _)
    | some k =>
      have hlt := handle_length hk
      simp only
      rw [owned, ownedBy_handle hk, add_assoc]
      apply Spec.bind (keysCall_spec k parsed call)
      rintro k' _ ⟨rfl, hself, hbuilt, -⟩
      refine .pure (.exact (hi.setKeys hk hself (hbuilt (hi.keys k (handle_mem hk))))
        (fun h => h.1.setKeys hk hself) ?_ _)
      simp only [owned, data, ownedBy_set hlt, ownedAt]
      abel
  | allocate =>
    have hinv : ({ S with exchanges := S.exchanges ++ [{}] } : Vm).Inv :=
      hi.ofData fun e he => .inl (by simpa [data] using he)
    refine .pure (.exact hinv (fun h => h.1.allocate) ?_ _)
    simp [owned, data, ownedAt]
  | initialize_ j i role fate remembers => exact initialize_spec hi hp i role fate remembers
  | setKeys j keys =>
    have hj : j < S.exchanges.length := hp
    have hinv : ({ S with
        exchanges := S.exchanges.set j { data := handle S.data j, keys := keys } } : Vm).Inv := by
      refine hi.ofData fun e he => .inl ?_
      rw [List.map_set] at he
      rcases List.mem_or_eq_of_mem_set he with he | he
      · exact he
      · exact handle_mem he.symm
    refine .pure (.exact hinv (fun h => h.2.elim) ?_ _)
    rw [owned_setExchange hj, owned_exchange hj]
  | call j call hello => exact call_spec hi j call hello
  | sweep dead =>
    refine (finalizeEach_spec S dead).weaken fun S' m hm => ?_
    obtain ⟨rfl, rfl⟩ := hm
    exact .exact (hi.sweep hp ht) (fun h => h.1.sweep hp) rfl _

/-- A program in which `exchange_init` never raises behind the pointer, and which leaves
`@keys` alone, needs nothing more of the collector. -/
theorem tended_of_remembering {ops : List Op} {T : Vm × Heap Resource}
    (h : (machine lib aesIsFast K).Run ({}, {}) ops T) (hops : ∀ op ∈ ops, op.Remembering) :
    (tended lib aesIsFast K).Run ({}, {}) ops T := by
  let P (S : Vm × Heap Resource) : Prop :=
    S.1.Inv ∧ S.1.Whole ∧ ∃ lost, S.2.Owns (S.1.owned + lost)
  have hstart : P ({}, {}) := by
    refine ⟨⟨by simp, by simp [data]⟩, fun j e he => ?_, 0, owns_empty⟩
    simp [data, handle] at he
  refine Machine.Run.restricted (fun S op hS => hS.2.1.tended op) (fun S op hS hp hop => ?_)
    h hops hstart
  obtain ⟨hi, hw, lost, ho⟩ := hS
  obtain ⟨m, ⟨hi', hw', more, hm, -⟩, ho'⟩ := exec_spec hi hp (hw.tended op) S.2 lost ho
  rw [hm, add_assoc] at ho'
  exact ⟨hi', hw' ⟨hw, hop⟩, _, ho'⟩

/-- Whatever a program does with its objects, and whenever and in whatever order the collector
finalizes those it finds unreachable: as long as the exchanges it leaves have their keys in
`@keys`, nothing is used or given back that is gone; and unless a step wasted something, all
there is is wrapped, and with the last object it is gone. -/
theorem collected {ops : List Op} {T : Vm × Heap Resource}
    (h : (tended lib aesIsFast K).Run ({}, {}) ops T) :
    T.2.fault = false ∧
      ((tended lib aesIsFast K).total (fun S op => S.1.wastes op) ({}, {}) ops = 0 →
        (∀ r, T.2.refs r = T.1.owned.count r) ∧
        ((∀ o ∈ T.1.keys, o = none) → (∀ x ∈ T.1.exchanges, x.data = none) →
          ∀ r, T.2.refs r = 0)) := by
  have hempty : (({} : Vm), ({} : Heap Resource)).2.Owns (owned {} + 0) := owns_empty
  have step : ∀ (_ : List Op) (S : Vm) (op : Op), S.Inv → S.Permits op ∧ S.Tended op →
      Spec S.owned (S.exec lib aesIsFast K op) fun S' m =>
        S'.Inv ∧ ∃ lost, m = S'.owned + lost ∧ Wasted (S.wastes op) lost :=
    fun _ S op hi hp => (exec_spec hi hp.1 hp.2).weaken fun _ _ h => ⟨h.inv, h.lost⟩
  obtain ⟨-, lost, ho, hwasted⟩ :=
    run_owns (fun _ => Inv) Wasted.add step h ⟨by simp, by simp [data]⟩ hempty fun _ => rfl
  refine ⟨ho.sound, fun hnone => ?_⟩
  have hlost : lost = 0 := hwasted ((Nat.zero_add _).trans hnone)
  rw [hlost, add_zero] at ho
  refine ⟨ho.counts, fun hkeys hdata r => ?_⟩
  have hgone : ∀ o ∈ T.1.data, o = none := by
    intro o ho
    obtain ⟨x, hx, rfl⟩ := List.mem_map.mp ho
    exact hdata x hx
  rw [ho.counts, owned, ownedBy_empty hkeys, ownedBy_empty hgone, add_zero, Multiset.count_zero]

/-- A server's keys that nothing but an exchange remembers, a collection while the exchange is
at its handshake, and the end, where the keys go first. -/
def sampleProgram : List Op :=
  [.client {} true, .server localhostCert localhostKey {} {} true,
    .keysCall 1 (.add otherPair {}) {}, .allocate, .initialize_ 0 1 .server {} true,
    .sweep [.keys 0],
    .call 0 (.step { rc := -1, error := .wantRead, input := [], output := [1] } {})
      [.serverName (some (ascii "other.example")) false, .alpn],
    .call 0 (.take 1) [], .sweep [.keys 1, .exchange 0]]

theorem collected_sample :
    let T := sampleProgram.foldl (tended sampleLib true sampleKdf).next ({}, {})
    T.2.fault = false ∧ ∀ r, T.2.refs r = 0 := by
  intro T
  have hrun : (machine sampleLib true sampleKdf).Run ({}, {}) sampleProgram T :=
    Machine.Run.of_check (by decide +kernel)
  obtain ⟨hsound, hnone⟩ := collected (tended_of_remembering hrun (by decide))
  exact ⟨hsound, (hnone (by decide +kernel)).2 (by decide +kernel) (by decide +kernel)⟩

/-- The same with an exchange that does not get to remember its keys: they go at the first
collection, and the ClientHello asks for them. -/
example :
    let ops : List Op :=
      [.server localhostCert localhostKey {} {} true, .allocate,
        .initialize_ 0 0 .server {} false, .sweep [.keys 0],
        .call 0 (.step { rc := -1, error := .wantRead, input := [], output := [1] } {}) [.alpn]]
    let M := machine sampleLib true sampleKdf
    M.check ({}, {}) ops = true ∧ (ops.foldl M.next ({}, {})).2.fault = true := by
  decide +kernel

end Vm

end Ktls
