import Ktls.Lib.Machine
import Mathlib.Algebra.Order.Group.Multiset
import Mathlib.Tactic.Abel

/-! Counted resources. Who works with one holds a reference to it, and the last reference
given back ends it. A program is specified by the references it starts from and those it
ends with; whatever else is held around it stays as it is. -/

/-- One resource. -/
@[ext]
structure Ref (κ : Type) where
  kind : κ
  serial : ℕ
  deriving DecidableEq

/-- How many references there are to each resource. `fault`: one was used, or given back,
when there was none left. -/
structure Heap (κ : Type) where
  refs : Ref κ → ℕ := fun _ => 0
  next : ℕ := 0
  fault : Bool := false

namespace Heap

variable {κ α β : Type}

abbrev Prog (κ α : Type) := StateM (Heap κ) α

/-- The references afterwards are a function of the result. -/
def Exactly (f : α → Multiset (Ref κ)) : α → Multiset (Ref κ) → Prop := fun a m => m = f a

@[simp] theorem exactly_iff {f : α → Multiset (Ref κ)} {a : α} {m : Multiset (Ref κ)} :
    Exactly f a m ↔ m = f a := Iff.rfl

variable [DecidableEq κ]

def create (kind : κ) : Prog κ (Ref κ) := fun h =>
  (⟨kind, h.next⟩, { h with
    refs := Function.update h.refs ⟨kind, h.next⟩ 1
    next := h.next + 1 })

def touch (r : Ref κ) : Prog κ Unit := fun h =>
  ((), if h.refs r = 0 then { h with fault := true } else h)

def retain (r : Ref κ) : Prog κ Unit := fun h =>
  ((), if h.refs r = 0 then { h with fault := true }
    else { h with refs := Function.update h.refs r (h.refs r + 1) })

def drop (r : Ref κ) : Prog κ Unit := fun h =>
  ((), if h.refs r = 0 then { h with fault := true }
    else { h with refs := Function.update h.refs r (h.refs r - 1) })

/-- A resource that is made or not. -/
def createIf (made : Bool) (kind : κ) : Prog κ (Option (Ref κ)) :=
  if made then do
    let r ← create kind
    pure (some r)
  else pure none

/-- A pointer that may be null: to use it then, or to give it back, is nothing. -/
def touchMaybe : Option (Ref κ) → Prog κ Unit
  | none => pure ()
  | some r => touch r

def dropMaybe : Option (Ref κ) → Prog κ Unit
  | none => pure ()
  | some r => drop r

def touchEach : List (Ref κ) → Prog κ Unit
  | [] => pure ()
  | r :: rs => do
    touch r
    touchEach rs

def dropEach : List (Ref κ) → Prog κ Unit
  | [] => pure ()
  | r :: rs => do
    drop r
    dropEach rs

def held : Option (Ref κ) → Multiset (Ref κ)
  | none => 0
  | some r => {r}

/-- Nothing went wrong, the references are these, and what is made next is new. -/
structure Owns (h : Heap κ) (m : Multiset (Ref κ)) : Prop where
  sound : h.fault = false
  counts : ∀ r, h.refs r = m.count r
  known : ∀ r ∈ m, r.serial < h.next

/-- From the references `pre`, `prog` gets to some `m` that `post` allows with its result. -/
def Spec (pre : Multiset (Ref κ)) (prog : Prog κ α) (post : α → Multiset (Ref κ) → Prop) :
    Prop :=
  ∀ (h : Heap κ) (others : Multiset (Ref κ)), h.Owns (pre + others) →
    ∃ m, post (prog h).1 m ∧ (prog h).2.Owns (m + others)

theorem owns_empty : ({} : Heap κ).Owns 0 :=
  ⟨rfl, fun _ => by simp, fun _ h => absurd h (Multiset.notMem_zero _)⟩

namespace Owns

variable {h : Heap κ} {m : Multiset (Ref κ)} {r : Ref κ}

theorem refs_ne_zero (ho : h.Owns m) (hr : r ∈ m) : h.refs r ≠ 0 := by
  rw [ho.counts]
  exact (Multiset.count_pos.mpr hr).ne'

theorem create (ho : h.Owns m) (kind : κ) :
    (Heap.create kind h).2.Owns ((Heap.create kind h).1 ::ₘ m) := by
  have hnew : (⟨kind, h.next⟩ : Ref κ) ∉ m := fun hm => Nat.lt_irrefl _ (ho.known _ hm)
  refine ⟨ho.sound, fun r => ?_, fun r hr => ?_⟩
  · simp only [Heap.create, Multiset.count_cons, Function.update_apply, ho.counts]
    split
    · next hr => simp [hr, Multiset.count_eq_zero_of_notMem hnew]
    · next hr => simp
  · rcases Multiset.mem_cons.mp hr with rfl | hr
    · exact Nat.lt_succ_self _
    · exact (ho.known r hr).trans (Nat.lt_succ_self _)

theorem touch (ho : h.Owns m) (hr : r ∈ m) : (Heap.touch r h).2.Owns m := by
  simpa [Heap.touch, ho.refs_ne_zero hr] using ho

theorem retain (ho : h.Owns m) (hr : r ∈ m) : (Heap.retain r h).2.Owns (r ::ₘ m) := by
  simp only [Heap.retain, if_neg (ho.refs_ne_zero hr)]
  refine ⟨ho.sound, fun s => ?_, fun s hs => ?_⟩
  · simp only [Multiset.count_cons, Function.update_apply, ho.counts]
    split
    · next hs => rw [hs]
    · next hs => simp
  · rcases Multiset.mem_cons.mp hs with rfl | hs
    · exact ho.known _ hr
    · exact ho.known s hs

theorem drop (ho : h.Owns (r ::ₘ m)) : (Heap.drop r h).2.Owns m := by
  simp only [Heap.drop, if_neg (ho.refs_ne_zero (Multiset.mem_cons_self r m))]
  refine ⟨ho.sound, fun s => ?_, fun s hs => ho.known s (Multiset.mem_cons_of_mem hs)⟩
  simp only [Function.update_apply, ho.counts, Multiset.count_cons]
  split
  · next hs => simp [hs]
  · next hs => simp

end Owns

namespace Spec

variable {P F : Multiset (Ref κ)} {p : Prog κ α} {f : α → Prog κ β}
  {Q Q' : α → Multiset (Ref κ) → Prop} {R : β → Multiset (Ref κ) → Prop} {r : Ref κ}

theorem pure {a : α} (h : Q a P) : Spec P (pure a) Q := fun _ _ ho => ⟨P, h, ho⟩

theorem weaken (h : Spec P p Q) (hq : ∀ a m, Q a m → Q' a m) : Spec P p Q' := by
  intro s others ho
  obtain ⟨m, hm, ho⟩ := h s others ho
  exact ⟨m, hq _ _ hm, ho⟩

/-- One after the other, with `F` kept for the second. -/
theorem bind (hp : Spec P p Q) (hf : ∀ a m, Q a m → Spec (m + F) (f a) R) :
    Spec (P + F) (p >>= f) R := by
  intro h others ho
  rw [add_assoc] at ho
  obtain ⟨m, hm, ho⟩ := hp h (F + others) ho
  rw [← add_assoc] at ho
  exact hf _ m hm _ others ho

/-- The first is given all there is. -/
theorem bind_all (hp : Spec P p Q) (hf : ∀ a m, Q a m → Spec m (f a) R) :
    Spec P (p >>= f) R := by
  rw [← add_zero P]
  apply bind hp
  intro a m hm
  rw [add_zero]
  exact hf a m hm

/-- The first leaves the references alone. -/
theorem seq {p : Prog κ Unit} {q : Prog κ β} (hp : Spec P p (Exactly fun _ => P))
    (hq : Spec P q R) : Spec P (p >>= fun _ => q) R := by
  apply bind_all hp
  intro _ m hm
  rw [exactly_iff.mp hm]
  exact hq

theorem frame (hp : Spec P p Q) : Spec (P + F) p fun a m => ∃ n, Q a n ∧ m = n + F := by
  intro h others ho
  rw [add_assoc] at ho
  obtain ⟨m, hm, ho⟩ := hp h (F + others) ho
  rw [← add_assoc] at ho
  exact ⟨m + F, ⟨m, hm, rfl⟩, ho⟩

theorem create (kind : κ) : Spec 0 (create kind) fun r m => r.kind = kind ∧ m = {r} := by
  intro h others ho
  rw [zero_add] at ho
  exact ⟨_, ⟨rfl, rfl⟩, ho.create kind⟩

theorem touch (hr : r ∈ P) : Spec P (touch r) (Exactly fun _ => P) := by
  intro h others ho
  exact ⟨P, rfl, ho.touch (Multiset.mem_add.mpr (.inl hr))⟩

theorem retain (hr : r ∈ P) : Spec P (retain r) (Exactly fun _ => r ::ₘ P) := by
  intro h others ho
  refine ⟨_, rfl, ?_⟩
  rw [Multiset.cons_add]
  exact ho.retain (Multiset.mem_add.mpr (.inl hr))

theorem drop (r : Ref κ) : Spec {r} (drop r) (Exactly fun _ => 0) := by
  intro h others ho
  refine ⟨0, rfl, ?_⟩
  rw [zero_add]
  exact Owns.drop ho

theorem createIf (made : Bool) (kind : κ) :
    Spec 0 (createIf made kind) fun r m =>
      m = held r ∧ r.isSome = made ∧ ∀ s ∈ r, s.kind = kind := by
  cases made with
  | false => exact pure ⟨rfl, rfl, fun _ hs => absurd hs (by simp)⟩
  | true =>
    rw [← add_zero (0 : Multiset (Ref κ))]
    apply bind (create kind)
    rintro r _ ⟨hr, rfl⟩
    refine pure ⟨add_zero _, rfl, fun s hs => ?_⟩
    rwa [← Option.some.inj hs]

theorem touchMaybe {r : Option (Ref κ)} (hr : ∀ s ∈ r, s ∈ P) :
    Spec P (touchMaybe r) (Exactly fun _ => P) := by
  cases r with
  | none => exact pure rfl
  | some r => exact touch (hr r rfl)

theorem dropMaybe (r : Option (Ref κ)) : Spec (held r) (dropMaybe r) (Exactly fun _ => 0) := by
  cases r with
  | none => exact pure rfl
  | some r => exact drop r

theorem touchEach {rs : List (Ref κ)} (hr : ∀ r ∈ rs, r ∈ P) :
    Spec P (touchEach rs) (Exactly fun _ => P) := by
  induction rs with
  | nil => exact pure rfl
  | cons r rs ih =>
    apply seq (touch (hr r (List.mem_cons_self ..)))
    exact ih fun s hs => hr s (List.mem_cons_of_mem r hs)

theorem dropEach (rs : List (Ref κ)) :
    Spec (rs : Multiset (Ref κ)) (dropEach rs) (Exactly fun _ => 0) := by
  induction rs with
  | nil => exact pure rfl
  | cons r rs ih =>
    rw [← Multiset.cons_coe, ← Multiset.singleton_add]
    apply bind (drop r)
    intro _ m hm
    rw [exactly_iff.mp hm, zero_add]
    exact ih

theorem of_eq {P' : Multiset (Ref κ)} (h : Spec P' p Q) (hP : P = P') : Spec P p Q := hP ▸ h

theorem bind_zero (hp : Spec 0 p Q) (hf : ∀ a m, Q a m → Spec (m + P) (f a) R) :
    Spec P (p >>= f) R := of_eq (bind hp hf) (zero_add P).symm

theorem seq_zero {p : Prog κ Unit} {q : Prog κ β} (hp : Spec 0 p (Exactly fun _ => 0))
    (hq : Spec P q R) : Spec P (p >>= fun _ => q) R := by
  apply bind_zero hp
  intro _ m hm
  rw [exactly_iff.mp hm, zero_add]
  exact hq

theorem create_then {kind : κ} {f : Ref κ → Prog κ β} (hf : ∀ r, Spec (r ::ₘ P) (f r) R) :
    Spec P (Heap.create kind >>= f) R := by
  apply bind_zero (create kind)
  rintro r _ ⟨-, rfl⟩
  exact hf r

theorem drop_then {q : Prog κ β} (hq : Spec P q R) :
    Spec (r ::ₘ P) (Heap.drop r >>= fun _ => q) R := by
  refine of_eq (bind (F := P) (drop r) ?_) (Multiset.singleton_add r P).symm
  intro _ m hm
  rw [exactly_iff.mp hm, zero_add]
  exact hq

theorem dropMaybe_then {r : Option (Ref κ)} {q : Prog κ β} (hq : Spec P q R) :
    Spec (held r + P) (Heap.dropMaybe r >>= fun _ => q) R := by
  apply bind (dropMaybe r)
  intro _ m hm
  rw [exactly_iff.mp hm, zero_add]
  exact hq

theorem dropEach_then {rs : List (Ref κ)} {q : Prog κ β} (hq : Spec P q R) :
    Spec ((rs : Multiset (Ref κ)) + P) (Heap.dropEach rs >>= fun _ => q) R := by
  apply bind (dropEach rs)
  intro _ m hm
  rw [exactly_iff.mp hm, zero_add]
  exact hq

end Spec

section Runs

variable {σ ι : Type} {permits : σ → ι → Prop} {exec : σ → ι → Prog κ σ}

/-- A machine whose labels are programs. -/
def machine (permits : σ → ι → Prop) (exec : σ → ι → Prog κ σ) : Machine (σ × Heap κ) ι where
  permits S l := permits S.1 l
  next S l := exec S.1 l S.2

/-- Where every program ends with what the state after it has and some that are lost, the
heap at the end of a run has what the last state has and all that was lost on the way. `Acc`
says what may be lost at which cost; `Inv` may look back at the labels. -/
theorem run_owns (Inv : List ι → σ → Prop) {owned : σ → Multiset (Ref κ)}
    {Acc : ℕ → Multiset (Ref κ) → Prop} {cost : σ → ι → ℕ}
    (add : ∀ a b m n, Acc a m → Acc b n → Acc (a + b) (m + n))
    (step : ∀ ls s l, Inv ls s → permits s l → Spec (owned s) (exec s l) fun s' m =>
      Inv (ls ++ [l]) s' ∧ ∃ lost, m = owned s' + lost ∧ Acc (cost s l) lost)
    {S T : σ × Heap κ} {ls : List ι} (h : (machine permits exec).Run S ls T)
    {c : ℕ} {lost : Multiset (Ref κ)} (hi : Inv [] S.1) (ho : S.2.Owns (owned S.1 + lost))
    (hacc : Acc c lost) :
    Inv ls T.1 ∧ ∃ all, T.2.Owns (owned T.1 + all) ∧
      Acc (c + (machine permits exec).total (fun S l => cost S.1 l) S ls) all := by
  induction h generalizing c lost Inv with
  | nil S => exact ⟨hi, lost, ho, hacc⟩
  | @cons S l ls T hp _ ih =>
    obtain ⟨m, ⟨hi', more, hm, hmore⟩, ho'⟩ := step [] S.1 l hi hp S.2 lost ho
    rw [hm, add_assoc, add_comm more] at ho'
    have hnext := ih (fun ks => Inv (l :: ks)) (fun ks => step (l :: ks)) hi' ho'
      (add _ _ _ _ hacc hmore)
    rwa [Nat.add_assoc] at hnext

end Runs

end Heap
