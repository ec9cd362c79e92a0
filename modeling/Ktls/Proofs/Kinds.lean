import Ktls.Spec.Session

/-! The records of one direction, split at the Finished. -/

namespace Ktls

theorem exists_split {ks : List RecordKind} (h : .finished ∈ ks) :
    ∃ hs bs, ks = hs ++ .finished :: bs ∧ .finished ∉ hs :=
  List.eq_append_cons_of_mem h

theorem flight_split {hs : List RecordKind} (h : .finished ∉ hs) (bs : List RecordKind) :
    flight (hs ++ .finished :: bs) = hs.length + 1 := by
  have hall : ∀ k ∈ hs, decide (k ≠ .finished) = true := by
    intro k hk
    exact decide_eq_true fun he => h (he ▸ hk)
  rw [flight, List.takeWhile_append_of_pos hall, List.takeWhile_cons_of_neg (by simp),
    List.append_nil]

theorem behindFinished_split {hs : List RecordKind} (h : .finished ∉ hs) (bs : List RecordKind) :
    behindFinished (hs ++ .finished :: bs) = bs := by
  have hlen : (hs ++ [RecordKind.finished]).length = hs.length + 1 := by simp
  rw [behindFinished, flight_split h, List.append_cons hs, ← hlen, List.drop_left]

theorem flight_append {ks : List RecordKind} (h : .finished ∈ ks) (l : List RecordKind) :
    flight (ks ++ l) = flight ks := by
  obtain ⟨hs, bs, rfl, hn⟩ := exists_split h
  rw [List.append_assoc, List.cons_append, flight_split hn, flight_split hn]

theorem behindFinished_append {ks : List RecordKind} (h : .finished ∈ ks) (l : List RecordKind) :
    behindFinished (ks ++ l) = behindFinished ks ++ l := by
  obtain ⟨hs, bs, rfl, hn⟩ := exists_split h
  rw [List.append_assoc, List.cons_append, behindFinished_split hn, behindFinished_split hn]

theorem length_behindFinished {ks : List RecordKind} (h : .finished ∈ ks) :
    (behindFinished ks).length + flight ks = ks.length := by
  obtain ⟨hs, bs, rfl, hn⟩ := exists_split h
  rw [behindFinished_split hn, flight_split hn, List.length_append, List.length_cons]
  omega

theorem flight_le {ks : List RecordKind} (h : .finished ∈ ks) : flight ks ≤ ks.length := by
  have := length_behindFinished h
  omega

theorem EndsFinished.flight {ks : List RecordKind} (h : EndsFinished ks) :
    flight ks = ks.length := by
  obtain ⟨hs, rfl, hn⟩ := h
  rw [flight_split hn, List.length_append, List.length_singleton]

theorem EndsFinished.mem {ks : List RecordKind} (h : EndsFinished ks) : .finished ∈ ks := by
  obtain ⟨hs, rfl, -⟩ := h
  simp

theorem EndsFinished.behind {ks : List RecordKind} (h : EndsFinished ks) :
    behindFinished ks = [] := by
  obtain ⟨hs, rfl, hn⟩ := h
  exact behindFinished_split hn []

/-- What a record layer does behind the Finished starts from a fresh key. -/
theorem standing_behind {ks : List RecordKind} (h : .finished ∈ ks) :
    standing ks = (behindFinished ks).foldl Standing.advance {} := by
  obtain ⟨hs, bs, rfl, hn⟩ := exists_split h
  rw [behindFinished_split hn, standing, List.foldl_append, List.foldl_cons]
  rfl

theorem foldl_advance_plain (s : Standing) {bs : List RecordKind} (h : ∀ k ∈ bs, k.Plain) :
    bs.foldl Standing.advance s = { s with sequence := s.sequence + bs.length } := by
  induction bs generalizing s with
  | nil => rfl
  | cons k bs ih =>
    have hk : s.advance k = { s with sequence := s.sequence + 1 } := by
      have := h k (by simp)
      cases k <;> first | rfl | exact this.elim
    rw [List.foldl_cons, ih _ fun k' hk' => h k' (by simp [hk']), hk, List.length_cons]
    simp only [Standing.mk.injEq, true_and]
    omega

/-- Behind the Finished, only a KeyUpdate brings a new key. -/
theorem generation_foldl_advance (s : Standing) {bs : List RecordKind} (h : .finished ∉ bs) :
    (bs.foldl Standing.advance s).generation =
      s.generation + bs.countP (fun k => k = .keyUpdate true ∨ k = .keyUpdate false) := by
  induction bs generalizing s with
  | nil => rfl
  | cons k bs ih =>
    obtain ⟨hk, hbs⟩ := not_or.mp (List.mem_cons.not.mp h)
    rw [List.foldl_cons, ih _ hbs, List.countP_cons]
    cases k with
    | finished => exact absurd rfl hk
    | handshake | bad | ticket | data | alert => rfl
    | keyUpdate requested =>
      simp only [Standing.advance]
      cases requested <;> simp <;> omega

end Ktls
