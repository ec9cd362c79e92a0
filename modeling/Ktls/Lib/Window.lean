import Mathlib.Data.List.Infix

/-! Searching for a word in something that arrives in pieces. Only the last letters
of what has arrived are carried on, one fewer than the word has. -/

namespace Window

variable {α : Type*} {w a b : List α}

/-- The last `n` letters, or all when there are no more. -/
def carry (n : ℕ) (a : List α) : List α := a.drop (a.length - n)

theorem length_carry (n : ℕ) (a : List α) : (carry n a).length = min n a.length := by
  rw [carry, List.length_drop]
  omega

theorem carry_suffix (n : ℕ) (a : List α) : carry n a <:+ a := List.drop_suffix _ a

/-- Any end of a list that is short enough is an end of what is carried. -/
theorem suffix_carry {n : ℕ} {t : List α} (h : t <:+ a) (hlen : t.length ≤ n) :
    t <:+ carry n a := by
  refine List.suffix_of_suffix_length_le h (carry_suffix n a) ?_
  rw [length_carry]
  exact Nat.le_min.mpr ⟨hlen, h.length_le⟩

/-- A word that was not there before begins in what is carried. -/
theorem infix_append_carry (hw : w ≠ []) :
    w <:+: a ++ b ↔ w <:+: a ∨ w <:+: carry (w.length - 1) a ++ b := by
  refine ⟨?_, ?_⟩
  · intro h
    rcases List.infix_append_iff.mp h with ha | hb | ⟨u, v, rfl, hu, hv⟩
    · exact .inl ha
    · exact .inr (List.infix_append_of_infix_right hb)
    by_cases hnil : v = []
    · rw [hnil, List.append_nil]
      exact .inl hu.isInfix
    · have hpos := List.length_pos_iff.mpr hnil
      have hlen : u.length ≤ (u ++ v).length - 1 := by
        rw [List.length_append]
        omega
      obtain ⟨before, hbefore⟩ := suffix_carry hu hlen
      obtain ⟨behind, hbehind⟩ := hv
      refine .inr ⟨before, behind, ?_⟩
      rw [← hbefore, ← hbehind]
      simp only [List.append_assoc]
  · rintro (ha | hc)
    · exact List.infix_append_of_infix_left ha
    · obtain ⟨front, hfront⟩ := carry_suffix (w.length - 1) a
      rw [← hfront, List.append_assoc]
      exact List.infix_append_of_infix_right hc

theorem infix_iff_prefix_drop : w <:+: a ↔ ∃ k ≤ a.length - w.length, w <+: a.drop k := by
  refine ⟨?_, ?_⟩
  · rintro ⟨before, behind, rfl⟩
    refine ⟨before.length, ?_, behind, ?_⟩
    · simp only [List.length_append]
      omega
    · rw [List.append_assoc, List.drop_left]
  · rintro ⟨k, -, hk⟩
    exact hk.isInfix.trans (List.drop_suffix k a).isInfix

/-- The word is found in some piece, with what was carried in front of it. -/
def Found (w : List α) : List α → List (List α) → Prop
  | _, [] => False
  | held, p :: ps => w <:+: held ++ p ∨ Found w (carry (w.length - 1) (held ++ p)) ps

/-- It is found exactly when it is somewhere in all of it, whatever the pieces. -/
theorem found_iff (hw : w ≠ []) (ps : List (List α)) {held : List α} (h : held.length < w.length) :
    Found w held ps ↔ w <:+: held ++ ps.flatten := by
  induction ps generalizing held with
  | nil =>
    rw [List.flatten_nil, List.append_nil]
    exact iff_of_false id fun hin => absurd hin.length_le (by omega)
  | cons p ps ih =>
    have hpos := List.length_pos_iff.mpr hw
    have hcarry : (carry (w.length - 1) (held ++ p)).length < w.length := by
      rw [length_carry]
      omega
    rw [Found, ih hcarry, List.flatten_cons, ← List.append_assoc]
    exact (infix_append_carry hw).symm

end Window
