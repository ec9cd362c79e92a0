import Ktls.Model.Alpn
import Ktls.Proofs.Alpn

/-! The walk of `ktls_alpn_pick` over two encoded lists: it stops at the boundaries of
their names only, and finds the first of ours that is among the client's. -/

namespace Ktls

variable {lib : Libssl} {aesIsFast : Bool} {keys₀ keys : KtlsKeys}
  {names theirs pre post opre opost : List Bytes} {name : Bytes} {out : AlpnOut}

/-- A list from the boundary in front of `name` on. -/
theorem alpnList_at (pre post : List Bytes) (name : Bytes) :
    alpnList (pre ++ name :: post) =
      alpnList pre ++ UInt8.ofNat name.length :: (name ++ alpnList post) := by
  rw [alpnList_append, alpnList_cons]

theorem length_at (pre post : List Bytes) (name : Bytes) :
    (alpnList (pre ++ name :: post)).length =
      (alpnList pre).length + 1 + name.length + (alpnList post).length := by
  rw [alpnList_at, List.length_append, List.length_cons, List.length_append]
  omega

theorem getElem_at (h : (alpnList pre).length < (alpnList (pre ++ name :: post)).length) :
    (alpnList (pre ++ name :: post))[(alpnList pre).length] = UInt8.ofNat name.length := by
  simp only [alpnList_at, List.getElem_append_right (Nat.le_refl _), Nat.sub_self,
    List.getElem_cons_zero]

theorem drop_at (pre post : List Bytes) (name : Bytes) :
    (alpnList (pre ++ name :: post)).drop ((alpnList pre).length + 1) =
      name ++ alpnList post := by
  rw [alpnList_at, ← List.drop_drop, List.drop_left, List.drop_succ_cons, List.drop_zero]

theorem next_at (pre : List Bytes) {name : Bytes} (h : name.length ≤ 255) :
    (alpnList pre).length + 1 + (UInt8.ofNat name.length).toNat =
      (alpnList (pre ++ [name])).length := by
  rw [length_at, toNat_ofNat_length h]
  rfl

/-- Two names of one length are compared inside both lists. -/
theorem memcmpAt_at (pre post opre opost : List Bytes) {t : Bytes} (h : t.length = name.length) :
    memcmpAt (alpnList (pre ++ t :: post)) ((alpnList pre).length + 1)
      (alpnList (opre ++ name :: opost)) ((alpnList opre).length + 1) name.length =
      some (decide (t = name)) := by
  have htake : (t ++ alpnList post).take name.length = t := by rw [← h, List.take_left]
  rw [memcmpAt, if_pos, drop_at, drop_at, List.take_left, htake]
  rw [length_at, length_at]
  omega

/-! The inner loop, at a boundary of the client's list. -/

theorem alpnInner_here (opre opost pre post : List Bytes) (hname : name.length ≤ 255) (fuel : ℕ) :
    alpnInner (alpnList (opre ++ name :: opost)) (alpnList (pre ++ name :: post))
      (alpnList opre).length (UInt8.ofNat name.length) (fuel + 1) (alpnList pre).length =
      .returned (some ((alpnList pre).length + 1)) := by
  have hlt : (alpnList pre).length < (alpnList (pre ++ name :: post)).length := by
    rw [length_at]
    omega
  rw [alpnInner, dif_pos hlt, getElem_at hlt, if_pos rfl, toNat_ofNat_length hname,
    memcmpAt_at pre post opre opost rfl, decide_eq_true rfl]

theorem alpnInner_past (opre opost pre post : List Bytes) (hname : name.length ≤ 255) {t : Bytes}
    (ht : t.length ≤ 255) (hne : t ≠ name) (fuel : ℕ) :
    alpnInner (alpnList (opre ++ name :: opost)) (alpnList (pre ++ t :: post))
      (alpnList opre).length (UInt8.ofNat name.length) (fuel + 1) (alpnList pre).length =
    alpnInner (alpnList (opre ++ name :: opost)) (alpnList (pre ++ [t] ++ post))
      (alpnList opre).length (UInt8.ofNat name.length) fuel (alpnList (pre ++ [t])).length := by
  have hlt : (alpnList pre).length < (alpnList (pre ++ t :: post)).length := by
    rw [length_at]
    omega
  rw [alpnInner, dif_pos hlt, getElem_at hlt, next_at pre ht, toNat_ofNat_length hname,
    List.append_assoc, List.singleton_append]
  by_cases hlen : UInt8.ofNat t.length = UInt8.ofNat name.length
  · have hlen' := congrArg UInt8.toNat hlen
    rw [toNat_ofNat_length ht, toNat_ofNat_length hname] at hlen'
    rw [if_pos hlen, memcmpAt_at pre post opre opost hlen', decide_eq_false hne]
  · rw [if_neg hlen]

theorem alpnInner_none (opre opost : List Bytes) (hname : name.length ≤ 255) (pre : List Bytes)
    (hpost : ∀ t ∈ post, t.length ≤ 255) (hnot : name ∉ post) {fuel : ℕ}
    (hfuel : post.length < fuel) :
    alpnInner (alpnList (opre ++ name :: opost)) (alpnList (pre ++ post)) (alpnList opre).length
      (UInt8.ofNat name.length) fuel (alpnList pre).length = .returned none := by
  obtain ⟨fuel, rfl⟩ : ∃ k, fuel = k + 1 := Nat.exists_eq_succ_of_ne_zero (by omega)
  induction post generalizing pre fuel with
  | nil => rw [alpnInner, List.append_nil, dif_neg (Nat.lt_irrefl _)]
  | cons t post ih =>
    have hne := List.ne_of_not_mem_cons hnot
    replace hnot := List.not_mem_of_not_mem_cons hnot
    rw [List.length_cons] at hfuel
    obtain ⟨fuel, rfl⟩ : ∃ k, fuel = k + 1 := Nat.exists_eq_succ_of_ne_zero (by omega)
    rw [alpnInner_past opre opost pre post hname (hpost t (List.mem_cons_self ..)) (Ne.symm hne)]
    exact ih (pre ++ [t]) (fun p hp => hpost p (List.mem_cons_of_mem _ hp)) hnot fuel (by omega)

theorem alpnInner_some (opre opost : List Bytes) (hname : name.length ≤ 255)
    (pre post : List Bytes) {p : List Bytes} (hp : ∀ t ∈ p, t.length ≤ 255) (hnot : name ∉ p)
    {fuel : ℕ} (hfuel : p.length < fuel) :
    alpnInner (alpnList (opre ++ name :: opost)) (alpnList (pre ++ (p ++ name :: post)))
      (alpnList opre).length (UInt8.ofNat name.length) fuel (alpnList pre).length =
      .returned (some ((alpnList (pre ++ p)).length + 1)) := by
  obtain ⟨fuel, rfl⟩ : ∃ k, fuel = k + 1 := Nat.exists_eq_succ_of_ne_zero (by omega)
  induction p generalizing pre fuel with
  | nil => rw [List.nil_append, alpnInner_here opre opost pre post hname, List.append_nil]
  | cons t p ih =>
    have hne := List.ne_of_not_mem_cons hnot
    replace hnot := List.not_mem_of_not_mem_cons hnot
    rw [List.length_cons] at hfuel
    obtain ⟨fuel, rfl⟩ : ∃ k, fuel = k + 1 := Nat.exists_eq_succ_of_ne_zero (by omega)
    rw [List.cons_append, alpnInner_past opre opost pre _ hname (hp t (List.mem_cons_self ..))
      (Ne.symm hne)]
    rw [ih (pre ++ [t]) (fun p h => hp p (List.mem_cons_of_mem _ h)) hnot fuel (by omega),
      List.append_assoc, List.singleton_append]

/-! The outer loop, at a boundary of our own. -/

theorem alpnOuter_hit (opre opost : List Bytes) (hname : name.length ≤ 255) (out : AlpnOut)
    (fuel : ℕ) (pre post : List Bytes) (hpre : ∀ t ∈ pre, t.length ≤ 255) (hnot : name ∉ pre) :
    alpnOuter (alpnList (opre ++ name :: opost)) (alpnList (pre ++ name :: post)) out (fuel + 1)
      (alpnList opre).length =
      .returned (.ok, { out := (alpnList pre).length + 1, outlen := name.length }) := by
  have hlt : (alpnList opre).length < (alpnList (opre ++ name :: opost)).length := by
    rw [length_at]
    omega
  have hfuel : pre.length < (alpnList (pre ++ name :: post)).length + 1 := by
    have hle := length_le_alpnList pre
    rw [length_at]
    omega
  rw [alpnOuter, dif_pos hlt, getElem_at hlt, toNat_ofNat_length hname]
  have hwalk := alpnInner_some opre opost hname [] post hpre hnot hfuel
  rw [List.nil_append, List.nil_append] at hwalk
  rw [show (0 : ℕ) = (alpnList []).length from rfl, hwalk]

theorem alpnOuter_miss (opre opost : List Bytes) (hname : name.length ≤ 255) (out : AlpnOut)
    (fuel : ℕ) (htheirs : ∀ t ∈ theirs, t.length ≤ 255) (hnot : name ∉ theirs) :
    alpnOuter (alpnList (opre ++ name :: opost)) (alpnList theirs) out (fuel + 1)
      (alpnList opre).length =
    alpnOuter (alpnList (opre ++ [name] ++ opost)) (alpnList theirs) out fuel
      (alpnList (opre ++ [name])).length := by
  have hlt : (alpnList opre).length < (alpnList (opre ++ name :: opost)).length := by
    rw [length_at]
    omega
  have hfuel : theirs.length < (alpnList theirs).length + 1 :=
    Nat.lt_succ_of_le (length_le_alpnList theirs)
  rw [alpnOuter, dif_pos hlt, getElem_at hlt, next_at opre hname, List.append_assoc,
    List.singleton_append]
  have hwalk := alpnInner_none opre opost hname [] htheirs hnot hfuel
  rw [List.nil_append] at hwalk
  rw [show (0 : ℕ) = (alpnList []).length from rfl, hwalk]

theorem alpnOuter_none (opre : List Bytes) (hnames : ∀ t ∈ names, t.length ≤ 255) (out : AlpnOut)
    (htheirs : ∀ t ∈ theirs, t.length ≤ 255) (hnot : ∀ name ∈ names, name ∉ theirs) {fuel : ℕ}
    (hfuel : names.length < fuel) :
    alpnOuter (alpnList (opre ++ names)) (alpnList theirs) out fuel (alpnList opre).length =
      .returned (.noack, out) := by
  obtain ⟨fuel, rfl⟩ : ∃ k, fuel = k + 1 := Nat.exists_eq_succ_of_ne_zero (by omega)
  induction names generalizing opre fuel with
  | nil => rw [alpnOuter, List.append_nil, dif_neg (Nat.lt_irrefl _)]
  | cons name names ih =>
    rw [List.length_cons] at hfuel
    obtain ⟨fuel, rfl⟩ : ∃ k, fuel = k + 1 := Nat.exists_eq_succ_of_ne_zero (by omega)
    rw [alpnOuter_miss opre names (hnames name (List.mem_cons_self ..)) out _ htheirs
      (hnot name (List.mem_cons_self ..))]
    exact ih (opre ++ [name]) (fun t ht => hnames t (List.mem_cons_of_mem _ ht))
      (fun t ht => hnot t (List.mem_cons_of_mem _ ht)) fuel (by omega)

theorem alpnOuter_some (opre opost : List Bytes) {skipped : List Bytes}
    (hskipped : ∀ t ∈ skipped, t.length ≤ 255) (hname : name.length ≤ 255) (out : AlpnOut)
    (pre post : List Bytes) (htheirs : ∀ t ∈ pre ++ name :: post, t.length ≤ 255)
    (hnot : name ∉ pre) (hfirst : ∀ t ∈ skipped, t ∉ pre ++ name :: post) {fuel : ℕ}
    (hfuel : skipped.length < fuel) :
    alpnOuter (alpnList (opre ++ (skipped ++ name :: opost))) (alpnList (pre ++ name :: post)) out
      fuel (alpnList opre).length =
      .returned (.ok, { out := (alpnList pre).length + 1, outlen := name.length }) := by
  obtain ⟨fuel, rfl⟩ : ∃ k, fuel = k + 1 := Nat.exists_eq_succ_of_ne_zero (by omega)
  induction skipped generalizing opre fuel with
  | nil =>
    exact alpnOuter_hit opre opost hname out fuel pre post
      (fun t ht => htheirs t (List.mem_append_left _ ht)) hnot
  | cons t skipped ih =>
    rw [List.length_cons] at hfuel
    obtain ⟨fuel, rfl⟩ : ∃ k, fuel = k + 1 := Nat.exists_eq_succ_of_ne_zero (by omega)
    rw [List.cons_append, alpnOuter_miss opre _ (hskipped t (List.mem_cons_self ..)) out _ htheirs
      (hfirst t (List.mem_cons_self ..))]
    exact ih (opre ++ [t]) (fun p hp => hskipped p (List.mem_cons_of_mem _ hp))
      (fun p hp => hfirst p (List.mem_cons_of_mem _ hp)) fuel (by omega)

theorem Made.laid_after (hmade : Made lib aesIsFast keys₀) {works : SetFate}
    (hset : ktlsKeysSetAlpn lib keys₀ names works = (.ok (), keys)) : Laid ⟨keys, names⟩ := by
  obtain ⟨hr, rfl⟩ := Prod.ext_iff.mp hset
  replace hr : ((KeysCall.set (.alpn names) works).exec lib aesIsFast keys₀).1 = .ok () := hr
  have h := hmade.configured.1.after hr
  exact ⟨h.room, fun name hname => (h.fits name hname).2, h.length, h.list⟩

theorem Laid.pickAt (h : Laid ⟨keys, names⟩) (theirs : List Bytes) (out : AlpnOut) :
    ktlsAlpnPickAt keys (alpnList theirs) out =
      alpnOuter (alpnList names) (alpnList theirs) out ((alpnList names).length + 1) 0 := by
  rw [ktlsAlpnPickAt, h.exact.list, h.exact.length]

theorem Laid.pickAt_none (h : Laid ⟨keys, names⟩) (htheirs : ∀ t ∈ theirs, t.length ≤ 255)
    (hnone : ∀ name ∈ names, name ∉ theirs) (out : AlpnOut) :
    ktlsAlpnPickAt keys (alpnList theirs) out = .returned (.noack, out) := by
  rw [h.pickAt]
  exact alpnOuter_none [] h.sized out htheirs hnone (Nat.lt_succ_of_le (length_le_alpnList names))

theorem Laid.pickAt_some (h : Laid ⟨keys, names⟩) (htheirs : ∀ t ∈ theirs, t.length ≤ 255)
    (hfind : names.find? (fun name => name ∈ theirs) = some name) (out : AlpnOut) :
    ∃ pre post, theirs = pre ++ name :: post ∧
      ktlsAlpnPickAt keys (alpnList theirs) out =
        .returned (.ok, { out := (alpnList pre).length + 1, outlen := name.length }) := by
  have hfuel := length_le_alpnList names
  obtain ⟨hmem, skipped, opost, rfl, hfirst⟩ := List.find?_eq_some_iff_append.mp hfind
  obtain ⟨pre, post, rfl, hnot⟩ := List.eq_append_cons_of_mem (of_decide_eq_true hmem)
  refine ⟨pre, post, rfl, ?_⟩
  rw [h.pickAt]
  rw [List.length_append, List.length_cons] at hfuel
  exact alpnOuter_some [] opost (fun t ht => h.sized t (List.mem_append_left _ ht))
    (h.sized name (List.mem_append_right _ (List.mem_cons_self ..))) out pre post htheirs hnot
    (fun t ht => by simpa using hfirst t ht) (by omega)

/-- On two well-formed lists the walk returns, having read inside both: with the first of our
names that is among the client's, at a place where it stands there, or with nothing where no
name is common. -/
theorem alpn_pick_first (hmade : Made lib aesIsFast keys₀) {works : SetFate}
    (hset : ktlsKeysSetAlpn lib keys₀ names works = (.ok (), keys))
    (htheirs : ∀ name ∈ theirs, 0 < name.length ∧ name.length ≤ 255) (out : AlpnOut) :
    (∃ answer, ktlsAlpnPickAt keys (alpnList theirs) out = .returned answer) ∧
    (∀ name, names.find? (fun name => name ∈ theirs) = some name →
      ∃ pre post, theirs = pre ++ name :: post ∧
        ktlsAlpnPickAt keys (alpnList theirs) out =
          .returned (.ok, { out := (alpnList pre).length + 1, outlen := name.length }) ∧
        (alpnList pre).length + 1 + name.length ≤ (alpnList theirs).length ∧
        ((alpnList theirs).drop ((alpnList pre).length + 1)).take name.length = name) ∧
    (ktlsAlpnPickAt keys (alpnList theirs) out = .returned (.noack, out) ↔
      ∀ name ∈ names, name ∉ theirs) := by
  have h := hmade.laid_after hset
  have htheirs' : ∀ name ∈ theirs, name.length ≤ 255 := fun name hname => (htheirs name hname).2
  refine ⟨?_, fun name hfind => ?_, fun hno name hname hmem => ?_, fun hnone => ?_⟩
  · cases hfind : names.find? (fun name => name ∈ theirs) with
    | none =>
      exact ⟨_, h.pickAt_none htheirs' (fun name hname hmem =>
        List.find?_eq_none.mp hfind name hname (decide_eq_true hmem)) out⟩
    | some name =>
      obtain ⟨_, _, _, hok⟩ := h.pickAt_some htheirs' hfind out
      exact ⟨_, hok⟩
  · obtain ⟨pre, post, rfl, hok⟩ := h.pickAt_some htheirs' hfind out
    refine ⟨pre, post, rfl, hok, by rw [length_at]; omega, ?_⟩
    rw [drop_at, List.take_left]
  · -- a common name would have been found
    cases hfind : names.find? (fun name => name ∈ theirs) with
    | none => exact List.find?_eq_none.mp hfind name hname (decide_eq_true hmem)
    | some found =>
      obtain ⟨_, _, _, hok⟩ := h.pickAt_some htheirs' hfind out
      rw [hok] at hno
      cases hno
  · exact h.pickAt_none htheirs' hnone out

/-- ALPN settles on h2. -/
theorem alpn_pick_first_sample :
    ∃ pre post, [ascii "http/1.1", ascii "h2"] = pre ++ ascii "h2" :: post ∧
      ktlsAlpnPickAt (ktlsKeysSetAlpn sampleLib sampleKeys [ascii "h2", ascii "http/1.1"]
        fun _ => true).2 (alpnList [ascii "http/1.1", ascii "h2"]) ⟨0, 0⟩ =
          .returned (.ok, { out := (alpnList pre).length + 1, outlen := (ascii "h2").length }) := by
  have hset : ktlsKeysSetAlpn sampleLib sampleKeys [ascii "h2", ascii "http/1.1"]
      (fun _ => true) = (.ok (), _) := rfl
  have htheirs : ∀ name ∈ [ascii "http/1.1", ascii "h2"], 0 < name.length ∧ name.length ≤ 255 := by
    decide +kernel
  obtain ⟨pre, post, h, hok, -⟩ := (alpn_pick_first sampleKeys_made hset htheirs ⟨0, 0⟩).2.1
    (ascii "h2") (by decide +kernel)
  exact ⟨pre, post, h, hok⟩

end Ktls
