import Ktls.Spec.Keylog

/-! `ktls_unhex` on any string: pairs of digits are decoded, and what else is refused. -/

namespace Ktls

/-- A hex digit is none of the characters that mean something else to the loop or to `%2x`. -/
theorem hexDigit_plain {c : UInt8} {v : ℕ} (h : hexDigit c = some v) :
    isSpace c = false ∧ c ≠ 43 ∧ c ≠ 45 ∧ c ≠ 120 ∧ c ≠ 88 ∧ c ≠ space ∧ c ≠ newline := by
  have table : ∀ n < 256, (hexDigit (UInt8.ofNat n)).isSome = true →
      isSpace (UInt8.ofNat n) = false ∧ UInt8.ofNat n ≠ 43 ∧ UInt8.ofNat n ≠ 45 ∧
        UInt8.ofNat n ≠ 120 ∧ UInt8.ofNat n ≠ 88 ∧ UInt8.ofNat n ≠ space ∧
        UInt8.ofNat n ≠ newline := by decide +kernel
  have hc := table c.toNat c.toNat_lt
  rw [UInt8.ofNat_toNat] at hc
  exact hc (Option.isSome_of_eq_some h)

theorem sscanf2x_pair {h l : UInt8} {a b : ℕ} (hh : hexDigit h = some a)
    (hl : hexDigit l = some b) (rest : Bytes) : sscanf2x (h :: l :: rest) = some (16 * a + b) := by
  obtain ⟨hs, hplus, hminus, -⟩ := hexDigit_plain hh
  obtain ⟨-, -, -, hx, hX, -⟩ := hexDigit_plain hl
  rw [sscanf2x, List.dropWhile_cons_of_neg (by simp [hs])]
  simp only [hplus, hminus, hx, hX, if_false, hh, hl, Option.bind_some, or_self, and_false]

/-! The loop steps by two, so it looks at the even offsets. -/

theorem drop_pair (c : UInt8) (t : Bytes) (k : ℕ) :
    (c :: t).drop (2 * (k + 1)) = t.tail.drop (2 * k) := by
  rw [Nat.mul_add, List.drop_succ_cons, List.drop_tail]

theorem endsAt_succ {c : UInt8} {t : Bytes} {k : ℕ} :
    EndsAt (c :: t) (k + 1) ↔ EndsAt t.tail k := by
  rw [EndsAt, drop_pair, EndsAt]

theorem endsAt_zero_cons {c : UInt8} {t : Bytes} :
    EndsAt (c :: t) 0 ↔ c = space ∨ c = newline := by
  simp [EndsAt]

theorem not_unreadable {s : Bytes} (h : EndsAt s 0) (cap : ℕ) : ¬ Unreadable cap s := by
  intro hu
  rcases hu 0 h fun i hi => absurd hi (Nat.not_lt_zero i) with hcap | ⟨i, hi, -⟩
  · exact absurd hcap (Nat.not_lt_zero cap)
  · exact absurd hi (Nat.not_lt_zero i)

theorem unreadable_cons {c : UInt8} {t : Bytes} (hc : ¬ (c = space ∨ c = newline)) (cap : ℕ) :
    Unreadable cap (c :: t) ↔
      cap = 0 ∨ sscanf2x (c :: t) = none ∨ Unreadable (cap - 1) t.tail := by
  refine ⟨?_, ?_⟩
  · intro h
    by_cases hcap : cap = 0
    · exact .inl hcap
    by_cases hread : sscanf2x (c :: t) = none
    · exact .inr (.inl hread)
    refine .inr (.inr ?_)
    intro k hk hfirst
    have hfirst' : ∀ i < k + 1, ¬ EndsAt (c :: t) i := by
      intro i hi
      cases i with
      | zero => exact fun h0 => hc (endsAt_zero_cons.mp h0)
      | succ i => exact fun hs => hfirst i (by omega) (endsAt_succ.mp hs)
    rcases h (k + 1) (endsAt_succ.mpr hk) hfirst' with hlt | ⟨i, hi, hnone⟩
    · exact .inl (by omega)
    · cases i with
      | zero => exact absurd hnone hread
      | succ i =>
        rw [drop_pair] at hnone
        exact .inr ⟨i, by omega, hnone⟩
  · intro h k hk hfirst
    cases k with
    | zero => exact absurd (endsAt_zero_cons.mp hk) hc
    | succ k =>
      rcases h with rfl | hread | hrest
      · exact .inl (Nat.succ_pos k)
      · exact .inr ⟨0, Nat.succ_pos k, hread⟩
      · rcases hrest k (endsAt_succ.mp hk)
          fun i hi hs => hfirst (i + 1) (by omega) (endsAt_succ.mpr hs) with hlt | ⟨i, hi, hnone⟩
        · exact .inl (by omega)
        · refine .inr ⟨i + 1, by omega, ?_⟩
          rwa [drop_pair]

theorem ktlsUnhex_refused_iff (cap : ℕ) (s : Bytes) (n : ℕ) (out : Bytes) (hn : n ≤ cap) :
    (ktlsUnhex cap s n out).1 = .refused ↔ Unreadable (cap - n) s := by
  fun_induction ktlsUnhex cap s n out with
  | case1 n out => simp [not_unreadable (s := []) (by simp [EndsAt])]
  | case2 c n out hc => simp [not_unreadable (endsAt_zero_cons.mpr hc)]
  | case3 c n out hc hv => simp [unreadable_cons hc, hv]
  | case4 c n out hc v hv hcap => simp [unreadable_cons hc, hv, Nat.sub_eq_zero_of_le hcap]
  | case5 c n out hc v hv hcap =>
    have hroom : cap - n ≠ 0 := by omega
    simp [unreadable_cons hc, hv, hroom, not_unreadable (s := []) (by simp [EndsAt])]
  | case6 c d hex n out hc => simp [not_unreadable (endsAt_zero_cons.mpr hc)]
  | case7 c d hex n out hc hv => simp [unreadable_cons hc, hv]
  | case8 c d hex n out hc v hv hcap => simp [unreadable_cons hc, hv, Nat.sub_eq_zero_of_le hcap]
  | case9 c d hex n out hc v hv hcap ih =>
    have hroom : cap - n ≠ 0 := by omega
    rw [ih (by omega), unreadable_cons hc, hv, ← Nat.sub_sub]
    simp [hroom]

theorem set_eq_memcpy {out : Bytes} {n : ℕ} (h : n < out.length) (v : UInt8) :
    out.set n v = memcpy out n [v] := by
  rw [List.set_eq_take_append_cons_drop, if_pos h, memcpy, List.append_assoc]
  rfl

theorem length_spelled (t : Bytes) : (spelled t).length = t.length / 2 := by
  fun_induction spelled t with
  | case1 h l rest ih =>
    rw [List.length_cons, ih, List.length_cons, List.length_cons]
    omega
  | case2 c => simp
  | case3 => rfl

theorem HexPairs.cons {h l : UInt8} {t : Bytes} (ht : HexPairs (h :: l :: t)) :
    (∃ a b, hexDigit h = some a ∧ hexDigit l = some b) ∧ HexPairs t := by
  obtain ⟨heven, hall⟩ := ht
  obtain ⟨a, ha⟩ := Option.isSome_iff_exists.mp (hall h (by simp))
  obtain ⟨b, hb⟩ := Option.isSome_iff_exists.mp (hall l (by simp))
  refine ⟨⟨a, b, ha, hb⟩, ?_, fun c hc => hall c (by simp [hc])⟩
  rw [List.length_cons, List.length_cons, Nat.even_add_one, Nat.even_add_one, not_not] at heven
  exact heven

/-- Pairs of digits are decoded, up to where the string ends. -/
theorem ktlsUnhex_pairs (cap : ℕ) {t rest : Bytes} (ht : HexPairs t) (hrest : EndsAt rest 0)
    (n : ℕ) (out : Bytes) (hcap : n + t.length / 2 ≤ cap) (hout : n + t.length / 2 ≤ out.length) :
    ktlsUnhex cap (t ++ rest) n out = (.length (n + t.length / 2), memcpy out n (spelled t)) := by
  induction t using spelled.induct generalizing n out with
  | case1 h l t ih =>
    obtain ⟨⟨a, b, ha, hb⟩, ht'⟩ := ht.cons
    obtain ⟨-, -, -, -, -, hsp, hnl⟩ := hexDigit_plain ha
    have hlen : (h :: l :: t).length / 2 = t.length / 2 + 1 := by
      rw [List.length_cons, List.length_cons]
      omega
    rw [hlen] at hcap hout ⊢
    have hn : n < out.length := by omega
    rw [List.cons_append, List.cons_append, ktlsUnhex, if_neg (by simp [hsp, hnl])]
    simp only [sscanf2x_pair ha hb]
    rw [if_neg (by omega), ih ht' _ _ (by omega) (by rw [List.length_set]; omega),
      set_eq_memcpy hn, spelled, ha, hb]
    have hone := @memcpy_append out [UInt8.ofNat (16 * a + b)] n
      (by rw [List.length_singleton]; omega) (spelled t)
    rw [List.length_singleton, List.singleton_append] at hone
    rw [hone, Option.getD_some, Option.getD_some, Nat.add_assoc n 1, Nat.add_comm 1]
  | case2 c => exact absurd ht.1 (by simp)
  | case3 =>
    rw [List.nil_append, spelled, memcpy_nil]
    cases rest with
    | nil => rfl
    | cons c rest =>
      have hc := endsAt_zero_cons.mp hrest
      cases rest with
      | nil => rw [ktlsUnhex, if_pos hc]; rfl
      | cons d rest => rw [ktlsUnhex, if_pos hc]; rfl

/-- Pairs of digits are all read, so only their number can be the reason for a refusal. -/
theorem unreadable_pairs (cap : ℕ) {t rest : Bytes} (ht : HexPairs t) (hrest : EndsAt rest 0) :
    Unreadable cap (t ++ rest) ↔ cap < t.length / 2 := by
  induction t using spelled.induct generalizing cap with
  | case1 h l t ih =>
    obtain ⟨⟨a, b, ha, hb⟩, ht'⟩ := ht.cons
    obtain ⟨-, -, -, -, -, hsp, hnl⟩ := hexDigit_plain ha
    rw [List.cons_append, List.cons_append, unreadable_cons (by simp [hsp, hnl]),
      sscanf2x_pair ha hb, List.tail_cons, ih _ ht', List.length_cons, List.length_cons]
    simp only [reduceCtorEq, false_or]
    omega
  | case2 c => exact absurd ht.1 (by simp)
  | case3 =>
    rw [List.nil_append]
    exact iff_of_false (not_unreadable hrest cap) (Nat.not_lt_zero cap)

theorem hexPart_append (s : Bytes) : ∃ rest, s = hexPart s ++ rest ∧ EndsAt rest 0 := by
  refine ⟨s.dropWhile fun c => c ≠ space ∧ c ≠ newline, List.takeWhile_append_dropWhile.symm, ?_⟩
  intro c hc
  have hhead := List.head?_dropWhile_not (fun c : UInt8 => decide (c ≠ space ∧ c ≠ newline)) s
  rw [Nat.mul_zero, List.drop_zero] at hc
  rw [Option.mem_def.mp hc] at hhead
  simpa [or_iff_not_imp_left] using hhead

/-- A string is decoded as it should be exactly when it is an even number of digits, or the
loop comes upon something it cannot read, or upon too much. -/
theorem unhex_exact_iff (cap : ℕ) (s out : Bytes) (hroom : cap ≤ out.length) :
    ExactlyHex cap s out (ktlsUnhex cap s 0 out) ↔ HexPairs (hexPart s) ∨ Unreadable cap s := by
  obtain ⟨rest, hs, hrest⟩ := hexPart_append s
  have hrefused := ktlsUnhex_refused_iff cap s 0 out (Nat.zero_le _)
  rw [Nat.sub_zero] at hrefused
  refine ⟨?_, ?_⟩
  · intro h
    by_cases hp : HexPairs (hexPart s)
    · exact .inl hp
    · exact .inr (hrefused.mp (h.refuses fun hfit => hp hfit.1))
  · rintro (hp | hu)
    · have hlong := unreadable_pairs cap hp hrest
      rw [← hs] at hlong
      refine ⟨?_, ?_⟩
      · intro _ hfit
        have hdec := ktlsUnhex_pairs cap hp hrest 0 out (by omega) (by omega)
        rwa [← hs, Nat.zero_add] at hdec
      · intro hno
        refine hrefused.mpr (hlong.mpr ?_)
        have hlt : ¬ (hexPart s).length ≤ 2 * cap := fun hfit => hno ⟨hp, hfit⟩
        have heven := hp.1.two_dvd
        omega
    · refine ⟨?_, fun _ => hrefused.mpr hu⟩
      intro hp hfit
      rw [hs, unreadable_pairs cap hp hrest] at hu
      omega

/-- A buffer as `ktls_keylog` passes it. -/
def emptySecret : Bytes := List.replicate ktlsSecretMax 0

/-- A lone digit: the loop steps over the NUL. And a sign is read as a number. -/
theorem unhex_lone_digit :
    (ktlsUnhex ktlsSecretMax (ascii "a") 0 emptySecret).1 = .overrun ∧
    ¬ ExactlyHex ktlsSecretMax (ascii "a") emptySecret
      (ktlsUnhex ktlsSecretMax (ascii "a") 0 emptySecret) ∧
    (ktlsUnhex ktlsSecretMax (ascii "+1") 0 emptySecret).1 = .length 1 ∧
    ¬ ExactlyHex ktlsSecretMax (ascii "+1") emptySecret
      (ktlsUnhex ktlsSecretMax (ascii "+1") 0 emptySecret) := by
  have hlone : (ktlsUnhex ktlsSecretMax (ascii "a") 0 emptySecret).1 = .overrun := by
    decide +kernel
  have hsign : (ktlsUnhex ktlsSecretMax (ascii "+1") 0 emptySecret).1 = .length 1 := by
    decide +kernel
  refine ⟨hlone, ?_, hsign, ?_⟩
  · intro h
    have hno := h.refuses (by decide +kernel)
    rw [hlone] at hno
    cases hno
  · intro h
    have hno := h.refuses (by decide +kernel)
    rw [hsign] at hno
    cases hno

theorem unhex_exact_sample :
    ExactlyHex ktlsSecretMax (ascii "0aFf\n") emptySecret
      (ktlsUnhex ktlsSecretMax (ascii "0aFf\n") 0 emptySecret) :=
  (unhex_exact_iff ktlsSecretMax (ascii "0aFf\n") emptySecret
    List.length_replicate.ge).mpr (.inl (by decide +kernel))

end Ktls
