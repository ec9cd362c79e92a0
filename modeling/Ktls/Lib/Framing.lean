import Mathlib.Data.List.Basic
import Mathlib.Tactic.Linarith

/-! Length-prefixed framing over an arbitrary alphabet: a frame is a header of
fixed size followed by as many symbols as the header announces. A stream splits
in one way into whole frames and an unfinished rest, and the split of a longer
stream extends the split of a shorter one. -/

/-- The header's size, and the number of body symbols a header announces. -/
structure Framing (α : Type*) where
  size : ℕ
  size_pos : 0 < size
  body : List α → ℕ

namespace Framing

variable {α : Type*} (F : Framing α)

/-- The length of the frame at the head of `b`, meaningful once its header is there. -/
def width (b : List α) : ℕ := F.size + F.body (b.take F.size)

/-- `b` begins with a whole frame. -/
def Whole (b : List α) : Prop := F.size ≤ b.length ∧ F.width b ≤ b.length

instance (b : List α) : Decidable (F.Whole b) := inferInstanceAs (Decidable (_ ∧ _))

/-- `f` is exactly one frame. -/
def IsFrame (f : List α) : Prop := F.size ≤ f.length ∧ F.width f = f.length

instance (f : List α) : Decidable (F.IsFrame f) := inferInstanceAs (Decidable (_ ∧ _))

/-- Cut whole frames off the front, at most `n` of them. -/
def split : ℕ → List α → List (List α) × List α
  | 0, b => ([], b)
  | n + 1, b =>
      if F.Whole b then
        let cut := split n (b.drop (F.width b))
        (b.take (F.width b) :: cut.1, cut.2)
      else ([], b)

/-- The whole frames of a stream, in order. -/
def frames (b : List α) : List (List α) := (F.split b.length b).1

/-- What follows the last whole frame. -/
def rest (b : List α) : List α := (F.split b.length b).2

theorem width_pos (b : List α) : 0 < F.width b := Nat.add_pos_left F.size_pos _

theorem width_append {b : List α} (h : F.size ≤ b.length) (c : List α) :
    F.width (b ++ c) = F.width b := by
  simp only [width, List.take_append_of_le_length h]

theorem whole_append {b : List α} (h : F.Whole b) (c : List α) : F.Whole (b ++ c) := by
  refine ⟨?_, ?_⟩
  · rw [List.length_append]; exact Nat.le_add_right_of_le h.1
  · rw [F.width_append h.1, List.length_append]; exact Nat.le_add_right_of_le h.2

theorem Whole.length_pos {F : Framing α} {b : List α} (h : F.Whole b) : 0 < b.length :=
  (F.width_pos b).trans_le h.2

theorem Whole.drop_lt {F : Framing α} {b : List α} (h : F.Whole b) :
    (b.drop (F.width b)).length < b.length := by
  have hw := F.width_pos b
  have hp := h.length_pos
  rw [List.length_drop]
  omega

theorem not_whole_nil : ¬ F.Whole ([] : List α) := fun h => absurd h.length_pos (lt_irrefl _)

theorem IsFrame.whole {F : Framing α} {f : List α} (h : F.IsFrame f) : F.Whole f :=
  ⟨h.1, h.2.le⟩

theorem IsFrame.pos {F : Framing α} {f : List α} (h : F.IsFrame f) : 0 < f.length :=
  h.whole.length_pos

theorem isFrame_take {b : List α} (h : F.Whole b) : F.IsFrame (b.take (F.width b)) := by
  have hs : F.size ≤ F.width b := Nat.le_add_right _ _
  have hl : (b.take (F.width b)).length = F.width b := by
    rw [List.length_take, Nat.min_eq_left h.2]
  refine ⟨hl.symm ▸ hs, ?_⟩
  rw [hl, width, List.take_take, Nat.min_eq_left hs, width]

/-- Fuel past the stream's length changes nothing: every cut removes a symbol. -/
theorem split_fuel (n m : ℕ) (b : List α) (hn : b.length ≤ n) (hm : b.length ≤ m) :
    F.split n b = F.split m b := by
  induction n generalizing m b with
  | zero =>
    obtain rfl : b = [] := List.length_eq_zero_iff.mp (Nat.le_zero.mp hn)
    cases m with
    | zero => rfl
    | succ m => rw [split, split, if_neg F.not_whole_nil]
  | succ n ih =>
    cases m with
    | zero =>
      obtain rfl : b = [] := List.length_eq_zero_iff.mp (Nat.le_zero.mp hm)
      rw [split, split, if_neg F.not_whole_nil]
    | succ m =>
      simp only [split]
      by_cases h : F.Whole b
      · have hd := h.drop_lt
        rw [if_pos h, if_pos h, ih m _ (by omega) (by omega)]
      · rw [if_neg h, if_neg h]

theorem split_whole {b : List α} (h : F.Whole b) :
    F.split b.length b =
      (b.take (F.width b) :: F.frames (b.drop (F.width b)), F.rest (b.drop (F.width b))) := by
  obtain ⟨n, hn⟩ : ∃ n, b.length = n + 1 := Nat.exists_eq_succ_of_ne_zero h.length_pos.ne'
  have hd := h.drop_lt
  rw [hn, split, if_pos h, F.split_fuel n _ _ (by omega) le_rfl, frames, rest]

theorem split_stop {b : List α} (h : ¬ F.Whole b) : F.split b.length b = ([], b) := by
  cases hn : b.length with
  | zero => rfl
  | succ n => rw [split, if_neg h]

theorem frames_whole {b : List α} (h : F.Whole b) :
    F.frames b = b.take (F.width b) :: F.frames (b.drop (F.width b)) := by
  rw [frames, F.split_whole h]

theorem rest_whole {b : List α} (h : F.Whole b) : F.rest b = F.rest (b.drop (F.width b)) := by
  rw [rest, F.split_whole h]

theorem frames_stop {b : List α} (h : ¬ F.Whole b) : F.frames b = [] := by
  rw [frames, F.split_stop h]

theorem rest_stop {b : List α} (h : ¬ F.Whole b) : F.rest b = b := by
  rw [rest, F.split_stop h]

@[simp] theorem frames_nil : F.frames [] = [] := F.frames_stop F.not_whole_nil

/-- Induction along the split: either no whole frame is left, or one is cut off. -/
theorem splitInduct {P : List α → Prop} (stop : ∀ b, ¬ F.Whole b → P b)
    (cut : ∀ b, F.Whole b → P (b.drop (F.width b)) → P b) (b : List α) : P b := by
  induction hn : b.length using Nat.strong_induction_on generalizing b with
  | _ n ih =>
    subst hn
    by_cases h : F.Whole b
    · exact cut b h (ih _ h.drop_lt _ rfl)
    · exact stop b h

theorem flatten_frames (b : List α) : (F.frames b).flatten ++ F.rest b = b := by
  induction b using F.splitInduct with
  | stop b h => rw [F.frames_stop h, F.rest_stop h]; rfl
  | cut b h ih =>
    rw [F.frames_whole h, F.rest_whole h, List.flatten_cons, List.append_assoc, ih,
      List.take_append_drop]

theorem isFrame_of_mem (b : List α) : ∀ f ∈ F.frames b, F.IsFrame f := by
  induction b using F.splitInduct with
  | stop b h => simp [F.frames_stop h]
  | cut b h ih =>
    rw [F.frames_whole h]
    intro f hf
    rcases List.mem_cons.mp hf with rfl | hf
    · exact F.isFrame_take h
    · exact ih f hf

theorem not_whole_rest (b : List α) : ¬ F.Whole (F.rest b) := by
  induction b using F.splitInduct with
  | stop b h => rwa [F.rest_stop h]
  | cut b h ih => rwa [F.rest_whole h]

/-- The split is the only one: whole frames and an unfinished rest determine it. -/
theorem split_unique (fs : List (List α)) (r : List α) (hf : ∀ f ∈ fs, F.IsFrame f)
    (hr : ¬ F.Whole r) : F.frames (fs.flatten ++ r) = fs ∧ F.rest (fs.flatten ++ r) = r := by
  induction fs with
  | nil => exact ⟨F.frames_stop hr, F.rest_stop hr⟩
  | cons f fs ih =>
    have hff : F.IsFrame f := hf f (by simp)
    obtain ⟨ih1, ih2⟩ := ih fun g hg => hf g (by simp [hg])
    have hw : F.width (f ++ (fs.flatten ++ r)) = f.length := by
      rw [F.width_append hff.1, hff.2]
    have hwhole : F.Whole (f ++ (fs.flatten ++ r)) := F.whole_append hff.whole _
    rw [List.flatten_cons, List.append_assoc, F.frames_whole hwhole, F.rest_whole hwhole, hw,
      List.take_left, List.drop_left]
    exact ⟨by rw [ih1], ih2⟩

theorem frames_flatten (fs : List (List α)) (hf : ∀ f ∈ fs, F.IsFrame f) :
    F.frames fs.flatten = fs := by
  simpa using (F.split_unique fs [] hf F.not_whole_nil).1

theorem rest_flatten (fs : List (List α)) (hf : ∀ f ∈ fs, F.IsFrame f) :
    F.rest fs.flatten = [] := by
  simpa using (F.split_unique fs [] hf F.not_whole_nil).2

/-- More symbols leave the frames already there alone and continue from the rest. -/
theorem split_append (b c : List α) :
    F.frames (b ++ c) = F.frames b ++ F.frames (F.rest b ++ c) ∧
      F.rest (b ++ c) = F.rest (F.rest b ++ c) := by
  have hb : b ++ c =
      (F.frames b ++ F.frames (F.rest b ++ c)).flatten ++ F.rest (F.rest b ++ c) := by
    rw [List.flatten_append, List.append_assoc, F.flatten_frames, ← List.append_assoc,
      F.flatten_frames]
  have h := F.split_unique (F.frames b ++ F.frames (F.rest b ++ c)) (F.rest (F.rest b ++ c))
    (fun f hf => by
      rcases List.mem_append.mp hf with h | h
      · exact F.isFrame_of_mem _ f h
      · exact F.isFrame_of_mem _ f h)
    (F.not_whole_rest _)
  rwa [← hb] at h

theorem frames_append (b c : List α) :
    F.frames (b ++ c) = F.frames b ++ F.frames (F.rest b ++ c) := (F.split_append b c).1

theorem rest_append (b c : List α) : F.rest (b ++ c) = F.rest (F.rest b ++ c) :=
  (F.split_append b c).2

theorem frames_cons {f : List α} (hf : F.IsFrame f) (b : List α) :
    F.frames (f ++ b) = f :: F.frames b := by
  have h1 : F.frames f = [f] := by simpa using F.frames_flatten [f] (by simpa using hf)
  have h2 : F.rest f = [] := by simpa using F.rest_flatten [f] (by simpa using hf)
  rw [F.frames_append, h1, h2, List.nil_append, List.singleton_append]

theorem rest_cons {f : List α} (hf : F.IsFrame f) (b : List α) : F.rest (f ++ b) = F.rest b := by
  have h2 : F.rest f = [] := by simpa using F.rest_flatten [f] (by simpa using hf)
  rw [F.rest_append, h2, List.nil_append]

theorem frames_prefix (b c : List α) : F.frames b <+: F.frames (b ++ c) :=
  F.frames_append b c ▸ List.prefix_append _ _

/-- Once as many frames are seen as were sent, every symbol of them is there. -/
theorem length_le_of_frames_take (fs : List (List α)) (n : ℕ) (hf : ∀ f ∈ fs, F.IsFrame f)
    (h : fs.length ≤ (F.frames (fs.flatten.take n)).length) : fs.flatten.length ≤ n := by
  have hp : F.frames (fs.flatten.take n) <+: fs := by
    have := F.frames_prefix (fs.flatten.take n) (fs.flatten.drop n)
    rwa [List.take_append_drop, F.frames_flatten fs hf] at this
  have he : F.frames (fs.flatten.take n) = fs := hp.eq_of_length_le h
  have hl := congrArg List.length (F.flatten_frames (fs.flatten.take n))
  rw [he, List.length_append, List.length_take] at hl
  omega

theorem frames_length_mono {b c : List α} (h : b <+: c) :
    (F.frames b).length ≤ (F.frames c).length := by
  obtain ⟨t, rfl⟩ := h
  exact (F.frames_prefix b t).length_le

/-- The offsets just past each frame, counted from `o`. -/
def cuts : ℕ → List (List α) → List ℕ
  | _, [] => []
  | o, f :: fs => (o + f.length) :: cuts (o + f.length) fs

@[simp] theorem length_cuts (o : ℕ) (fs : List (List α)) : (cuts o fs).length = fs.length := by
  induction fs generalizing o with
  | nil => rfl
  | cons f fs ih => simp only [cuts, List.length_cons, ih]

theorem cuts_append (o : ℕ) (fs gs : List (List α)) :
    cuts o (fs ++ gs) = cuts o fs ++ cuts (o + fs.flatten.length) gs := by
  induction fs generalizing o with
  | nil => simp [cuts]
  | cons f fs ih =>
    simp only [List.cons_append, cuts, ih, List.flatten_cons, List.length_append, Nat.add_assoc]

theorem le_of_mem_cuts {o e : ℕ} {fs : List (List α)} (h : e ∈ cuts o fs) :
    e ≤ o + fs.flatten.length := by
  induction fs generalizing o with
  | nil => simp [cuts] at h
  | cons f fs ih =>
    rw [List.flatten_cons, List.length_append]
    rcases List.mem_cons.mp h with rfl | h
    · omega
    · have := ih h
      omega

theorem lt_of_mem_cuts {o e : ℕ} {fs : List (List α)} (hf : ∀ f ∈ fs, F.IsFrame f)
    (h : e ∈ cuts o fs) : o < e := by
  induction fs generalizing o with
  | nil => simp [cuts] at h
  | cons f fs ih =>
    have hp := (hf f (by simp)).pos
    rcases List.mem_cons.mp h with rfl | h
    · omega
    · have := ih (fun g hg => hf g (by simp [hg])) h
      omega

theorem pairwise_cuts {o : ℕ} {fs : List (List α)} (hf : ∀ f ∈ fs, F.IsFrame f) :
    (cuts o fs).Pairwise (· < ·) := by
  induction fs generalizing o with
  | nil => exact List.Pairwise.nil
  | cons f fs ih =>
    have ht : ∀ g ∈ fs, F.IsFrame g := fun g hg => hf g (by simp [hg])
    exact List.Pairwise.cons (fun e he => F.lt_of_mem_cuts ht he) (ih ht)

theorem rest_lt_of_mem_cuts {o e : ℕ} {r d : List α} (hr : ¬ F.Whole r)
    (h : e ∈ cuts o (F.frames (r ++ d))) : o + r.length < e := by
  by_cases hw : F.Whole (r ++ d)
  · have hlt : r.length < F.width (r ++ d) := by
      by_contra hle
      have hs : F.size ≤ r.length := (Nat.le_add_right _ _).trans (not_lt.mp hle)
      exact hr ⟨hs, F.width_append hs d ▸ not_lt.mp hle⟩
    have hl : ((r ++ d).take (F.width (r ++ d))).length = F.width (r ++ d) := by
      rw [List.length_take, Nat.min_eq_left hw.2]
    rw [F.frames_whole hw, cuts, hl] at h
    rcases List.mem_cons.mp h with rfl | h
    · omega
    · have := F.lt_of_mem_cuts (F.isFrame_of_mem _) h
      omega
  · simp [F.frames_stop hw, cuts] at h

/-- The ends of the first `u` symbols' frames come first, and all others lie past `u`. -/
theorem cuts_take (b : List α) (u : ℕ) :
    (∀ e ∈ cuts 0 (F.frames (b.take u)), e ≤ u) ∧
      ∃ l, cuts 0 (F.frames b) = cuts 0 (F.frames (b.take u)) ++ l ∧ ∀ e ∈ l, u < e := by
  have hb : F.frames b = F.frames (b.take u) ++ F.frames (F.rest (b.take u) ++ b.drop u) := by
    rw [← F.frames_append, List.take_append_drop]
  have hl := congrArg List.length (F.flatten_frames (b.take u))
  rw [List.length_append] at hl
  refine ⟨fun e he => ?_, _, by rw [hb, cuts_append], fun e he => ?_⟩
  · have := le_of_mem_cuts he
    have := List.length_take_le u b
    omega
  · rw [Nat.zero_add] at he
    by_cases hu : u ≤ b.length
    · have := F.rest_lt_of_mem_cuts (F.not_whole_rest _) he
      rw [List.length_take_of_le hu] at hl
      omega
    · -- nothing lies past `u`, so the unfinished rest stays unfinished
      rw [List.drop_eq_nil_of_le (by omega), List.append_nil,
        F.frames_stop (F.not_whole_rest _)] at he
      simp [cuts] at he

/-- The frames that end by offset `u` are those of the first `u` symbols. -/
theorem countP_cuts_le (b : List α) (u : ℕ) :
    (cuts 0 (F.frames b)).countP (· ≤ u) = (F.frames (b.take u)).length := by
  obtain ⟨hle, l, hb, hlt⟩ := F.cuts_take b u
  have h1 : (cuts 0 (F.frames (b.take u))).countP (· ≤ u) = (F.frames (b.take u)).length := by
    rw [← length_cuts 0, List.countP_eq_length]
    exact fun e he => decide_eq_true (hle e he)
  have h2 : l.countP (· ≤ u) = 0 :=
    List.countP_eq_zero.mpr fun e he => by simpa using hlt e he
  rw [hb, List.countP_append, h1, h2, Nat.add_zero]

theorem countP_between (l : List ℕ) {a u : ℕ} (h : a ≤ u) :
    l.countP (fun e => a < e ∧ e ≤ u) + l.countP (· ≤ a) = l.countP (· ≤ u) := by
  induction l with
  | nil => rfl
  | cons e l ih =>
    simp only [List.countP_cons, ← ih, decide_eq_true_eq]
    split_ifs <;> omega

/-- The first `n` of an increasing list hold all that lie past `a` exactly when there are no
others, or none lies past `a`. -/
theorem countP_take_iff {l : List ℕ} (h : l.Pairwise (· < ·)) (n a : ℕ) :
    (l.take n).countP (a < ·) = l.countP (a < ·) ↔ l.length ≤ n ∨ l.countP (a < ·) = 0 := by
  have hsplit : l.countP (a < ·) = (l.take n).countP (a < ·) + (l.drop n).countP (a < ·) := by
    rw [← List.countP_append, List.take_append_drop]
  constructor
  · intro heq
    have hdrop : (l.drop n).countP (a < ·) = 0 := by omega
    by_cases hlen : l.length ≤ n
    · exact .inl hlen
    · -- something comes behind the first `n`, and lies past each of them
      obtain ⟨d, hd⟩ := List.exists_mem_of_length_pos (l := l.drop n) (by
        rw [List.length_drop]
        omega)
      have hda : ¬ a < d := fun hlt =>
        List.countP_eq_zero.mp hdrop d hd (decide_eq_true hlt)
      refine .inr (hsplit.trans ?_)
      rw [hdrop, Nat.add_zero, List.countP_eq_zero]
      intro e he
      rw [← List.take_append_drop n l, List.pairwise_append] at h
      have := h.2.2 e he d hd
      simp only [decide_eq_true_eq]
      omega
  · rintro (hlen | hzero)
    · rw [List.take_of_length_le hlen]
    · omega

end Framing
