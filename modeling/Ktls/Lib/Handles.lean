import Ktls.Lib.Heap

/-! Handles that are moved and never copied: a default one is empty, to move from one empties
it, to assign to one frees what it held, unless it is assigned to itself, and so does its end.
Each resource is with one of them at any time, and what was done with it goes where it goes. -/

namespace Heap

variable {κ α : Type}

/-- What the handle in place `i` holds. -/
def handle (hs : List (Option α)) (i : ℕ) : Option α := hs[i]?.join

variable (owned : α → Multiset (Ref κ)) (free : α → Prog κ Unit)

def ownedAt : Option α → Multiset (Ref κ)
  | none => 0
  | some a => owned a

def ownedBy (hs : List (Option α)) : Multiset (Ref κ) := (hs.map (ownedAt owned)).sum

def freeHandle : Option α → Prog κ Unit
  | none => pure ()
  | some a => free a

/-- How handles come and go. -/
inductive Lifetime
  | empty
  | move (source : ℕ)
  | assign (target source : ℕ)
  | destroy (i : ℕ)

namespace Lifetime

/-- The handles it names are there. -/
def InRange (n : ℕ) : Lifetime → Prop
  | empty => True
  | move source => source < n
  | assign target source => target < n ∧ source < n
  | destroy i => i < n

instance (n : ℕ) (l : Lifetime) : Decidable (l.InRange n) :=
  match l with
  | empty => .isTrue trivial
  | move _ => inferInstanceAs (Decidable (_ < _))
  | assign _ _ => inferInstanceAs (Decidable (_ ∧ _))
  | destroy _ => inferInstanceAs (Decidable (_ < _))

def exec (hs : List (Option α)) : Lifetime → Prog κ (List (Option α))
  | empty => pure (hs ++ [none])
  | move source => pure (hs.set source none ++ [handle hs source])
  | assign target source =>
    if target = source then pure hs
    else do
      freeHandle free (handle hs target)
      pure ((hs.set target (handle hs source)).set source none)
  | destroy i => do
    freeHandle free (handle hs i)
    pure (hs.eraseIdx i)

/-- Where what the handles hold goes. -/
def arrange (hs : List (Option α)) : Lifetime → List (Option α)
  | empty => hs ++ [none]
  | move source => hs.set source none ++ [handle hs source]
  | assign target source =>
    if target = source then hs else (hs.set target (handle hs source)).set source none
  | destroy i => hs.eraseIdx i

end Lifetime

/-- An object as it was made, and the calls on it since. -/
structure Past (α ι : Type) where
  made : α
  calls : List ι := []

namespace Past

variable {ι : Type}

def call (c : ι) (p : Past α ι) : Past α ι := { p with calls := p.calls ++ [c] }

/-- As the calls leave the object, one after another. -/
def now (f : α → ι → α) (p : Past α ι) : α := p.calls.foldl f p.made

theorem now_call (f : α → ι → α) (c : ι) (p : Past α ι) :
    (p.call c).now f = f (p.now f) c := List.foldl_append

end Past

variable {owned free}

theorem handle_mem {hs : List (Option α)} {i : ℕ} {a : α} (h : handle hs i = some a) :
    some a ∈ hs := List.mem_of_getElem? (Option.join_eq_some_iff.mp h)

theorem exists_handle {hs : List (Option α)} {a : α} (h : some a ∈ hs) :
    ∃ i < hs.length, handle hs i = some a := by
  obtain ⟨i, hi, hget⟩ := List.mem_iff_getElem.mp h
  exact ⟨i, hi, by simp [handle, hi, hget]⟩

theorem handle_set_self {hs : List (Option α)} {i : ℕ} (hi : i < hs.length) (o : Option α) :
    handle (hs.set i o) i = o := by simp [handle, hi]

theorem handle_set_ne {hs : List (Option α)} {i j : ℕ} (hij : i ≠ j) (o : Option α) :
    handle (hs.set i o) j = handle hs j := by simp [handle, hij]

theorem handle_clear (hs : List (Option α)) (i j : ℕ) :
    handle (hs.set i none) j = if i = j then none else handle hs j := by
  split
  · next hij =>
    subst hij
    simp only [handle, List.getElem?_set_self']
    cases hs[i]? <;> rfl
  · next hij => exact handle_set_ne hij none

theorem handle_concat_none (hs : List (Option α)) (i : ℕ) :
    handle (hs ++ [none]) i = handle hs i := by
  by_cases hi : i < hs.length
  · rw [handle, List.getElem?_append_left hi, handle]
  · have hle := not_lt.mp hi
    rw [handle, List.getElem?_append_right hle, handle, List.getElem?_eq_none hle]
    cases i - hs.length <;> rfl

theorem handle_map {β : Type} (f : α → β) (hs : List (Option α)) (i : ℕ) :
    handle (hs.map (Option.map f)) i = (handle hs i).map f := by
  rw [handle, handle, List.getElem?_map]
  rcases hs[i]? with _ | _ | a <;> rfl

theorem handle_length {hs : List (Option α)} {i : ℕ} {a : α} (h : handle hs i = some a) :
    i < hs.length := (List.getElem?_eq_some_iff.mp (Option.join_eq_some_iff.mp h)).1

@[simp] theorem ownedBy_append (hs gs : List (Option α)) :
    ownedBy owned (hs ++ gs) = ownedBy owned hs + ownedBy owned gs := by simp [ownedBy]

@[simp] theorem ownedBy_singleton (o : Option α) : ownedBy owned [o] = ownedAt owned o := by
  simp [ownedBy]

theorem ownedBy_empty {hs : List (Option α)} (h : ∀ o ∈ hs, o = none) :
    ownedBy owned hs = 0 := by
  induction hs with
  | nil => rfl
  | cons o hs ih =>
    have ho : o = none := h o (List.mem_cons_self ..)
    have hhs := ih fun p hp => h p (List.mem_cons_of_mem o hp)
    rw [ownedBy, List.map_cons, List.sum_cons, ho]
    simpa [ownedAt, ownedBy] using hhs

theorem ownedBy_eraseIdx {hs : List (Option α)} {i : ℕ} (hi : i < hs.length) :
    ownedBy owned hs = ownedAt owned (handle hs i) + ownedBy owned (hs.eraseIdx i) := by
  induction hs generalizing i with
  | nil => exact absurd hi (Nat.not_lt_zero i)
  | cons o hs ih =>
    cases i with
    | zero => simp [ownedBy, handle]
    | succ i =>
      have h := ih (Nat.lt_of_succ_lt_succ hi)
      have hs_handle : handle (o :: hs) (i + 1) = handle hs i := by simp [handle]
      rw [hs_handle, List.eraseIdx_cons_succ]
      simp only [ownedBy, List.map_cons, List.sum_cons] at h ⊢
      rw [h]
      abel

theorem ownedBy_set {hs : List (Option α)} {i : ℕ} (hi : i < hs.length) (o : Option α) :
    ownedBy owned (hs.set i o) = ownedAt owned o + ownedBy owned (hs.eraseIdx i) := by
  have hi' : i < (hs.set i o).length := by simpa using hi
  rw [ownedBy_eraseIdx hi', handle_set_self hi, List.eraseIdx_set_eq]

theorem ownedBy_clear (hs : List (Option α)) (i : ℕ) :
    ownedBy owned hs = ownedAt owned (handle hs i) + ownedBy owned (hs.set i none) := by
  by_cases hi : i < hs.length
  · rw [ownedBy_set hi, ownedBy_eraseIdx hi, ownedAt, zero_add]
  · have hnone : handle hs i = none := by simp [handle, Nat.le_of_not_lt hi]
    rw [hnone, List.set_eq_of_length_le (Nat.le_of_not_lt hi), ownedAt, zero_add]

theorem ownedBy_handle {hs : List (Option α)} {i : ℕ} {a : α} (h : handle hs i = some a) :
    ownedBy owned hs = owned a + ownedBy owned (hs.eraseIdx i) := by
  rw [ownedBy_eraseIdx (handle_length h), h]
  rfl

theorem owned_le {hs : List (Option α)} {a : α} (h : some a ∈ hs) {r : Ref κ}
    (hr : r ∈ owned a) : r ∈ ownedBy owned hs := by
  obtain ⟨i, -, hi⟩ := exists_handle h
  rw [ownedBy_handle hi]
  exact Multiset.mem_add.mpr (.inl hr)

variable [DecidableEq κ]

theorem freeHandle_spec (hfree : ∀ a, Spec (owned a) (free a) (Exactly fun _ => 0))
    (o : Option α) : Spec (ownedAt owned o) (freeHandle free o) (Exactly fun _ => 0) := by
  cases o with
  | none => exact .pure rfl
  | some a => exact hfree a

theorem freeHandle_then (hfree : ∀ a, Spec (owned a) (free a) (Exactly fun _ => 0))
    {o : Option α} {m : Multiset (Ref κ)} {β : Type} {b : β} :
    Spec (ownedAt owned o + m) (freeHandle free o >>= fun _ => pure b) fun b' m' =>
      b' = b ∧ m' = m := by
  apply Spec.bind (freeHandle_spec hfree o)
  intro _ n hn
  rw [exactly_iff.mp hn, zero_add]
  exact .pure ⟨rfl, rfl⟩

namespace Lifetime

/-- Handles come and go without any reference made or lost but those that are freed. -/
theorem spec (hfree : ∀ a, Spec (owned a) (free a) (Exactly fun _ => 0))
    {hs : List (Option α)} {l : Lifetime} (hl : l.InRange hs.length) :
    Spec (ownedBy owned hs) (l.exec free hs) fun hs' m =>
      hs' = l.arrange hs ∧ m = ownedBy owned (l.arrange hs) := by
  cases l with
  | empty => exact .pure ⟨rfl, by simp [arrange, ownedAt]⟩
  | move source =>
    refine .pure ⟨rfl, ?_⟩
    rw [arrange, ownedBy_append, ownedBy_set hl, ownedBy_eraseIdx hl, ownedBy_singleton, ownedAt]
    abel
  | assign target source =>
    simp only [exec, arrange]
    split
    · exact .pure ⟨rfl, rfl⟩
    · next hne =>
      rw [ownedBy_eraseIdx hl.1]
      refine (freeHandle_then hfree).weaken fun hs' m hm => ?_
      obtain ⟨rfl, rfl⟩ := hm
      have hsource : source < (hs.set target (handle hs source)).length := by simpa using hl.2
      have h : ownedBy owned (hs.set target (handle hs source)) = _ := ownedBy_eraseIdx hsource
      rw [handle_set_ne hne, ownedBy_set hl.1] at h
      refine ⟨rfl, ?_⟩
      rw [ownedBy_set hsource, ownedAt, zero_add]
      exact Multiset.add_right_inj.mp h
  | destroy i =>
    simp only [exec]
    rw [ownedBy_eraseIdx hl]
    exact freeHandle_then hfree

/-- Handles hold nothing that none held before. -/
theorem mem_arrange {hs : List (Option α)} {l : Lifetime} {a : α} (ha : some a ∈ l.arrange hs) :
    some a ∈ hs := by
  have mem_clear {gs : List (Option α)} {i : ℕ} (h : some a ∈ gs.set i none) : some a ∈ gs :=
    (List.mem_or_eq_of_mem_set h).resolve_right (by simp)
  cases l with
  | empty => simpa [arrange] using ha
  | move source =>
    rcases List.mem_append.mp ha with ha | ha
    · exact mem_clear ha
    · exact handle_mem (List.mem_singleton.mp ha).symm
  | assign target source =>
    rw [arrange] at ha
    split at ha
    · exact ha
    · exact (List.mem_or_eq_of_mem_set (mem_clear ha)).elim id fun h => handle_mem h.symm
  | destroy i => exact List.mem_of_mem_eraseIdx ha

theorem map_arrange {β : Type} (f : α → β) (hs : List (Option α)) (l : Lifetime) :
    (l.arrange hs).map (Option.map f) = l.arrange (hs.map (Option.map f)) := by
  cases l with
  | empty => simp [arrange]
  | move source => simp [arrange, handle_map]
  | assign target source =>
    simp only [arrange, handle_map]
    split
    · rfl
    · simp
  | destroy i => simp [arrange, List.eraseIdx_map]

end Lifetime

section Recorded

variable {β ι : Type} {g : α → β} {f : β → ι → β} {hs : List (Option α)}
  {ps : List (Option (Past β ι))}

/-- Every object is as the calls on it alone leave it. -/
def Recorded (g : α → β) (f : β → ι → β) (hs : List (Option α))
    (ps : List (Option (Past β ι))) : Prop :=
  hs.map (Option.map g) = ps.map (Option.map (Past.now f))

theorem Recorded.handle (h : Recorded g f hs ps) (i : ℕ) :
    (handle hs i).map g = (Heap.handle ps i).map (Past.now f) := by
  rw [← handle_map, ← handle_map, h]

theorem Recorded.arrange (h : Recorded g f hs ps) (l : Lifetime) :
    Recorded g f (l.arrange hs) (l.arrange ps) := by
  rw [Recorded, l.map_arrange, l.map_arrange, h]

theorem Recorded.push (h : Recorded g f hs ps) {o : Option α} {made : Option β}
    (ho : o.map g = made) : Recorded g f (hs ++ [o]) (ps ++ [made.map fun b => { made := b }]) := by
  have hnow : (made.map fun b => ({ made := b } : Past β ι)).map (Past.now f) = made := by
    cases made <;> rfl
  rw [Recorded, List.map_append, List.map_append, h, List.map_singleton, List.map_singleton,
    hnow, ho]

theorem Recorded.call (h : Recorded g f hs ps) {i : ℕ} {a a' : α} {c : ι}
    (ha : Heap.handle hs i = some a) (hcall : g a' = f (g a) c) :
    Recorded g f (hs.set i (some a')) (ps.set i ((Heap.handle ps i).map (Past.call c))) := by
  have hnow : ((Heap.handle ps i).map (Past.call c)).map (Past.now f) = some (g a') := by
    have hi := h.handle i
    rw [ha] at hi
    cases hp : Heap.handle ps i with
    | none => simp [hp] at hi
    | some p =>
      rw [hp] at hi
      rw [Option.map_some, Option.map_some, Past.now_call, ← Option.some.inj hi, hcall]
  rw [Recorded, List.map_set, List.map_set, h, hnow, Option.map_some]

end Recorded

end Heap
