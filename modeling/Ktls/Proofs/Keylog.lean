import Ktls.Proofs.Unhex
import Ktls.Spec.Session

/-! The keylog callback delivers: a well-formed line for one of the two application
secrets sets that secret and its length, and every other line leaves both alone. -/

namespace Ktls

theorem hexDigit_hexChar : ∀ n < 16, hexDigit (hexChar n) = some n := by decide

theorem hexOf_cons (c : UInt8) (s : Bytes) :
    hexOf (c :: s) = hexChar (c.toNat / 16) :: hexChar (c.toNat % 16) :: hexOf s := rfl

theorem length_hexOf (s : Bytes) : (hexOf s).length = 2 * s.length := by
  induction s with
  | nil => rfl
  | cons c s ih =>
    rw [hexOf_cons, List.length_cons, List.length_cons, List.length_cons, ih]
    omega

theorem hexPairs_hexOf (s : Bytes) : HexPairs (hexOf s) ∧ spelled (hexOf s) = s := by
  induction s with
  | nil => exact ⟨⟨Even.zero, fun c hc => absurd hc List.not_mem_nil⟩, rfl⟩
  | cons c s ih =>
    obtain ⟨⟨heven, hall⟩, hspell⟩ := ih
    have hc : c.toNat < 256 := UInt8.toNat_lt _
    have hh := hexDigit_hexChar (c.toNat / 16) (by omega)
    have hl := hexDigit_hexChar (c.toNat % 16) (by omega)
    rw [hexOf_cons]
    refine ⟨⟨?_, ?_⟩, ?_⟩
    · rw [List.length_cons, List.length_cons, Nat.even_add_one, Nat.even_add_one, not_not]
      exact heven
    · intro d hd
      rcases List.mem_cons.mp hd with rfl | hd
      · exact Option.isSome_of_eq_some hh
      rcases List.mem_cons.mp hd with rfl | hd
      · exact Option.isSome_of_eq_some hl
      · exact hall d hd
    · rw [spelled, hh, hl, hspell, Option.getD_some, Option.getD_some, Nat.div_add_mod,
        UInt8.ofNat_toNat]

/-- What the callback keeps for one secret: the buffer and the length. -/
def slot (x : KtlsExchange) (i : Fin 2) : Bytes × ℕ := (x.secret i, x.secretLen i)

/-- What a line with the label of secret `i` makes of that secret. -/
def slotAfter (i : Fin 2) (s : Bytes × ℕ) (line : Bytes) : Bytes × ℕ :=
  match (line.drop (kLabel i).length).dropWhile (· ≠ space) with
  | [] => s
  | _ :: hex =>
    let got := ktlsUnhex ktlsSecretMax hex 0 s.1
    (got.2, match got.1 with
      | .length n => n
      | _ => s.2)

/-- Decoding stays within its buffer, and counts no more than it may write. -/
theorem ktlsUnhex_sized (cap : ℕ) (hex : Bytes) (n : ℕ) (out : Bytes) (hn : n ≤ cap) :
    (ktlsUnhex cap hex n out).2.length = out.length ∧
      ∀ m, (ktlsUnhex cap hex n out).1 = .length m → m ≤ cap := by
  fun_induction ktlsUnhex cap hex n out with
  | case1 n out => exact ⟨rfl, fun m hm => by cases hm; exact hn⟩
  | case2 c n out hc => exact ⟨rfl, fun m hm => by cases hm; exact hn⟩
  | case3 c n out hc hv => exact ⟨rfl, fun m hm => by cases hm⟩
  | case4 c n out hc v hv hcap => exact ⟨rfl, fun m hm => by cases hm⟩
  | case5 c n out hc v hv hcap => exact ⟨List.length_set, fun m hm => by cases hm⟩
  | case6 c d hex n out hc => exact ⟨rfl, fun m hm => by cases hm; exact hn⟩
  | case7 c d hex n out hc hv => exact ⟨rfl, fun m hm => by cases hm⟩
  | case8 c d hex n out hc v hv hcap => exact ⟨rfl, fun m hm => by cases hm⟩
  | case9 c d hex n out hc v hv hcap ih =>
    obtain ⟨hlen, hle⟩ := ih (by omega)
    exact ⟨hlen.trans List.length_set, hle⟩

theorem slotAfter_sized (i : Fin 2) (line : Bytes) {s : Bytes × ℕ}
    (hs : s.1.length = ktlsSecretMax ∧ s.2 ≤ ktlsSecretMax) :
    (slotAfter i s line).1.length = ktlsSecretMax ∧ (slotAfter i s line).2 ≤ ktlsSecretMax := by
  unfold slotAfter
  cases (line.drop (kLabel i).length).dropWhile (· ≠ space) with
  | nil => exact hs
  | cons c hex =>
    obtain ⟨hlen, hle⟩ := ktlsUnhex_sized ktlsSecretMax hex 0 s.1 (Nat.zero_le _)
    refine ⟨hlen.trans hs.1, ?_⟩
    simp only
    split
    · next n hn => exact hle n hn
    · exact hs.2

theorem foldl_slotAfter_sized (i : Fin 2) (lines : List Bytes) {s : Bytes × ℕ}
    (hs : s.1.length = ktlsSecretMax ∧ s.2 ≤ ktlsSecretMax) :
    (lines.foldl (slotAfter i) s).1.length = ktlsSecretMax ∧
      (lines.foldl (slotAfter i) s).2 ≤ ktlsSecretMax := by
  induction lines generalizing s with
  | nil => exact hs
  | cons line lines ih => exact ih (slotAfter_sized i line hs)

theorem label_exclusive {line : Bytes} (h : kClient.isPrefixOf line = true) :
    kServer.isPrefixOf line = false := by
  cases line with
  | nil => exact absurd h (by decide)
  | cons c t =>
    have hc : ((67 : UInt8) == c) = true := (Bool.and_eq_true_iff.mp h).1
    obtain rfl : (67 : UInt8) = c := by simpa using hc
    rfl

theorem which_cases (i : Fin 2) : i = 0 ∨ i = 1 := by omega

theorem slot_keylogSecret (x : KtlsExchange) (i j : Fin 2) (line : Bytes) :
    slot (keylogSecret x i (line.drop (kLabel i).length)) j =
      if j = i then slotAfter i (slot x i) line else slot x j := by
  unfold keylogSecret slotAfter slot
  cases (line.drop (kLabel i).length).dropWhile (· ≠ space) with
  | nil =>
    split_ifs with h
    · rw [h]
    · rfl
  | cons c hex =>
    simp only
    by_cases h : j = i
    · subst h
      rw [if_pos rfl, Function.update_self]
      cases (ktlsUnhex ktlsSecretMax hex 0 (x.secret j)).1 <;> simp
    · rw [if_neg h, Function.update_of_ne h]
      cases (ktlsUnhex ktlsSecretMax hex 0 (x.secret i)).1 <;> simp [h]

/-- A line reaches the secret its label names, and no other. -/
theorem slot_ktlsKeylog (x : KtlsExchange) (line : Bytes) (j : Fin 2) :
    slot (ktlsKeylog x line) j =
      if (kLabel j).isPrefixOf line then slotAfter j (slot x j) line else slot x j := by
  have h0 := slot_keylogSecret x 0 j line
  have h1 := slot_keylogSecret x 1 j line
  unfold ktlsKeylog
  by_cases hc : kClient.isPrefixOf line = true
  · have hs := label_exclusive hc
    rw [if_pos hc]
    refine h0.trans ?_
    obtain rfl | rfl := which_cases j
    · exact (if_pos rfl).trans (if_pos hc).symm
    · exact (if_neg (by decide)).trans (if_neg (by simp [kLabel, hs])).symm
  · rw [if_neg hc]
    by_cases hs : kServer.isPrefixOf line = true
    · rw [if_pos hs]
      refine h1.trans ?_
      obtain rfl | rfl := which_cases j
      · exact (if_neg (by decide)).trans (if_neg hc).symm
      · exact (if_pos rfl).trans (if_pos hs).symm
    · rw [if_neg hs]
      obtain rfl | rfl := which_cases j
      · exact (if_neg hc).symm
      · exact (if_neg hs).symm

/-- Over any sequence of lines only the ones with its label matter to a secret. -/
theorem slot_foldl_ktlsKeylog (x : KtlsExchange) (lines : List Bytes) (j : Fin 2) :
    slot (lines.foldl ktlsKeylog x) j =
      (lines.filter (kLabel j).isPrefixOf).foldl (slotAfter j) (slot x j) := by
  induction lines generalizing x with
  | nil => rfl
  | cons line lines ih =>
    rw [List.foldl_cons, ih, slot_ktlsKeylog, List.filter_cons]
    split_ifs <;> rfl

theorem ktlsKeylog_frame (x : KtlsExchange) (line : Bytes) :
    ∃ secret secretLen,
      ktlsKeylog x line = { x with secret := secret, secretLen := secretLen } := by
  have hsec (i : Fin 2) (rest : Bytes) : ∃ secret secretLen,
      keylogSecret x i rest = { x with secret := secret, secretLen := secretLen } := by
    unfold keylogSecret
    cases rest.dropWhile (· ≠ space) with
    | nil => exact ⟨x.secret, x.secretLen, rfl⟩
    | cons c hex => exact ⟨_, _, rfl⟩
  unfold ktlsKeylog
  split_ifs
  · exact hsec _ _
  · exact hsec _ _
  · exact ⟨x.secret, x.secretLen, rfl⟩

theorem foldl_ktlsKeylog_frame (x : KtlsExchange) (lines : List Bytes) :
    ∃ secret secretLen,
      lines.foldl ktlsKeylog x = { x with secret := secret, secretLen := secretLen } := by
  induction lines generalizing x with
  | nil => exact ⟨x.secret, x.secretLen, rfl⟩
  | cons line lines ih =>
    obtain ⟨s, l, h⟩ := ktlsKeylog_frame x line
    rw [List.foldl_cons, h]
    exact ih _

theorem slotAfter_length (i : Fin 2) (s : Bytes × ℕ) (line : Bytes) :
    (slotAfter i s line).1.length = s.1.length := by
  unfold slotAfter
  cases (line.drop (kLabel i).length).dropWhile (· ≠ space) with
  | nil => rfl
  | cons c hex => exact (ktlsUnhex_sized ktlsSecretMax hex 0 s.1 (Nat.zero_le _)).1

theorem foldl_slotAfter_length (i : Fin 2) (lines : List Bytes) (s : Bytes × ℕ) :
    (lines.foldl (slotAfter i) s).1.length = s.1.length := by
  induction lines generalizing s with
  | nil => rfl
  | cons line lines ih => exact (ih _).trans (slotAfter_length i s line)

theorem kLabel_split (i : Fin 2) :
    kLabel i = (kLabel i).dropLast ++ [space] ∧ space ∉ (kLabel i).dropLast := by
  obtain rfl | rfl := which_cases i
  · decide +kernel
  · decide +kernel

theorem takeWhile_word {word : Bytes} (hw : space ∉ word) (rest : Bytes) :
    (word ++ space :: rest).takeWhile (· ≠ space) = word := by
  rw [List.takeWhile_append_of_pos, List.takeWhile_cons_of_neg (by simp), List.append_nil]
  intro c hc
  exact decide_eq_true fun h => hw (h ▸ hc)

variable {l : KeylogLine}

/-- The callback compares the label with its space, which compares all of it. -/
theorem KeylogLine.names_iff (l : KeylogLine) (i : Fin 2) :
    (kLabel i).isPrefixOf l.bytes = decide (l.Names i) := by
  obtain ⟨hname, hno⟩ := kLabel_split i
  generalize (kLabel i).dropLast = name at hname hno
  rw [Bool.eq_iff_iff, List.isPrefixOf_iff_prefix, decide_eq_true_iff, Names, hname, bytes]
  refine ⟨?_, ?_⟩
  · rintro ⟨rest, hrest⟩
    have hword := congrArg (List.takeWhile (· ≠ space)) hrest
    rw [List.append_assoc, List.singleton_append, takeWhile_word hno,
      takeWhile_word l.label_no_space] at hword
    rw [hword]
  · intro h
    rw [← h]
    exact ⟨_, List.append_assoc ..⟩

theorem KeylogLine.endsAt_tail (l : KeylogLine) : EndsAt l.tail 0 := by
  unfold tail
  split_ifs
  · exact endsAt_zero_cons.mpr (.inr rfl)
  · simp [EndsAt]

theorem KeylogLine.length_secret (l : KeylogLine) : l.secret.length = l.digits.length / 2 :=
  length_spelled l.digits

theorem KeylogLine.slotAfter (l : KeylogLine) {i : Fin 2} (hi : l.Names i) {s : Bytes × ℕ}
    (hs : s.1.length = ktlsSecretMax) :
    Ktls.slotAfter i s l.bytes = (memcpy s.1 0 l.secret, l.secret.length) := by
  have hbytes : l.bytes = kLabel i ++ (l.random ++ space :: (l.digits ++ l.tail)) := by
    rw [← hi, List.append_assoc]
    rfl
  have hdrop : (l.random ++ space :: (l.digits ++ l.tail)).dropWhile (· ≠ space) =
      space :: (l.digits ++ l.tail) := by
    rw [List.dropWhile_append_of_pos, List.dropWhile_cons_of_neg (by simp)]
    intro c hc
    exact decide_eq_true fun h => l.random_no_space (h ▸ hc)
  have hfit := l.digits_fit.2
  unfold Ktls.slotAfter
  rw [hbytes, List.drop_left, hdrop]
  simp only [ktlsUnhex_pairs ktlsSecretMax l.digits_pairs l.endsAt_tail 0 s.1 (by omega) (by omega),
    Nat.zero_add, secret, length_spelled]

/-- The line of a connection that carries secret `i`. -/
def Tls.keylogLine (T : Tls) (i : Fin 2) : KeylogLine where
  label := (kLabel i).dropLast
  random := T.random
  digits := hexOf (T.secret i)
  ended := false
  label_no_space := (kLabel_split i).2
  random_no_space := T.random_no_space
  digits_pairs := (hexPairs_hexOf (T.secret i)).1
  digits_fit := by
    have hlen := length_hexOf (T.secret i)
    have hfits := T.secret_fits i
    omega

theorem Tls.keylogLine_secret (T : Tls) (i : Fin 2) : (T.keylogLine i).secret = T.secret i :=
  (hexPairs_hexOf (T.secret i)).2

theorem Tls.keylogLine_bytes (T : Tls) (i : Fin 2) : (T.keylogLine i).bytes = T.line i := by
  have hsplit := (kLabel_split i).1
  have hdigits : hexOf (T.secret i) ++ (T.keylogLine i).tail = hexOf (T.secret i) :=
    List.append_nil _
  rw [Tls.line, hsplit, KeylogLine.bytes, List.append_assoc, List.append_assoc]
  exact congrArg (fun t => (kLabel i).dropLast ++ space :: (T.random ++ space :: t)) hdigits

theorem slotAfter_line (T : Tls) (i : Fin 2) (s : Bytes × ℕ) (hs : s.1.length = ktlsSecretMax) :
    slotAfter i s (T.line i) =
      (T.secret i ++ s.1.drop (T.secret i).length, (T.secret i).length) := by
  rw [← T.keylogLine_bytes, (T.keylogLine i).slotAfter (kLabel_split i).1.symm hs,
    T.keylogLine_secret, memcpy, List.take_zero, List.nil_append, Nat.zero_add]

theorem KeylogLine.ignored (l : KeylogLine) (h : ∀ i, ¬ l.Names i) (x : KtlsExchange) :
    ktlsKeylog x l.bytes = x := by
  have hclient := l.names_iff 0
  have hserver := l.names_iff 1
  rw [decide_eq_false (h _)] at hclient hserver
  have hclient' : ¬ kClient.isPrefixOf l.bytes = true := Bool.eq_false_iff.mp hclient
  have hserver' : ¬ kServer.isPrefixOf l.bytes = true := Bool.eq_false_iff.mp hserver
  rw [ktlsKeylog, if_neg hclient', if_neg hserver']

/-- Over any lines, each secret is the one of the last line that carries it. -/
theorem keylog_delivers (x : KtlsExchange) (hroom : ∀ i, (x.secret i).length = ktlsSecretMax)
    (lines : List KeylogLine) :
    (∀ i, match (lines.filter fun l => l.Names i).getLast? with
      | some l =>
        ((lines.map KeylogLine.bytes).foldl ktlsKeylog x).secretLen i = l.secret.length ∧
        ((lines.map KeylogLine.bytes).foldl ktlsKeylog x).heldSecret i = l.secret
      | none =>
        ((lines.map KeylogLine.bytes).foldl ktlsKeylog x).secretLen i = x.secretLen i ∧
        ((lines.map KeylogLine.bytes).foldl ktlsKeylog x).secret i = x.secret i) ∧
    (∀ l : KeylogLine, (∀ i, ¬ l.Names i) → ∀ y, ktlsKeylog y l.bytes = y) ∧
    ∃ secret secretLen, (lines.map KeylogLine.bytes).foldl ktlsKeylog x =
      { x with secret := secret, secretLen := secretLen } := by
  refine ⟨?_, fun l h y => l.ignored h y, foldl_ktlsKeylog_frame x _⟩
  intro i
  have hslot := slot_foldl_ktlsKeylog x (lines.map KeylogLine.bytes) i
  have hnames : (kLabel i).isPrefixOf ∘ KeylogLine.bytes = fun l => decide (l.Names i) :=
    funext fun l => l.names_iff i
  rw [List.filter_map, hnames] at hslot
  generalize (lines.map KeylogLine.bytes).foldl ktlsKeylog x = y at hslot ⊢
  have hall : ∀ l ∈ lines.filter fun l => l.Names i, l.Names i := by
    intro l hl
    exact of_decide_eq_true (List.mem_filter.mp hl).2
  generalize (lines.filter fun l => l.Names i) = named at hslot hall ⊢
  rcases named.eq_nil_or_concat with rfl | ⟨before, l, rfl⟩
  · exact ⟨congrArg Prod.snd hslot, congrArg Prod.fst hslot⟩
  · rw [List.concat_eq_append, List.map_append, List.foldl_append, List.map_singleton,
      List.foldl_cons, List.foldl_nil] at hslot
    rw [l.slotAfter (hall l (by simp))
      ((foldl_slotAfter_length i _ _).trans (hroom i))] at hslot
    rw [List.concat_eq_append, List.getLast?_concat]
    have hlen : y.secretLen i = l.secret.length := congrArg Prod.snd hslot
    have hsec : y.secret i = _ := congrArg Prod.fst hslot
    refine ⟨hlen, ?_⟩
    rw [KtlsExchange.heldSecret, hlen, hsec]
    exact take_memcpy_front _ _

/-- A client's secret of two bytes, in both letter cases. -/
def earlyLine : KeylogLine where
  label := ascii "CLIENT_TRAFFIC_SECRET_0"
  random := ascii "5f"
  digits := ascii "0aFf"
  ended := false
  label_no_space := by decide +kernel
  random_no_space := by decide +kernel
  digits_pairs := by decide +kernel
  digits_fit := by decide +kernel

/-- Another one, and one with a label that shares its beginning and its end with a wanted one. -/
def lateLine : KeylogLine :=
  { earlyLine with
    digits := ascii "7B"
    ended := true
    digits_pairs := by decide +kernel
    digits_fit := by decide +kernel }

def handshakeLine : KeylogLine :=
  { earlyLine with
    label := ascii "SERVER_HANDSHAKE_TRAFFIC_SECRET_0"
    label_no_space := by decide +kernel }

theorem keylog_delivers_sample :
    (([earlyLine, lateLine, handshakeLine].map KeylogLine.bytes).foldl ktlsKeylog
      (ktlsExchangeOpen .client)).heldSecret 0 = [123] := by
  have h := (keylog_delivers (ktlsExchangeOpen .client) (fun _ => List.length_replicate)
    [earlyLine, lateLine, handshakeLine]).1 0
  have hlast : ([earlyLine, lateLine, handshakeLine].filter fun l => l.Names 0).getLast? =
      some lateLine := by decide +kernel
  rw [hlast] at h
  exact h.2

end Ktls
