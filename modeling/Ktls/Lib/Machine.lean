import Mathlib.Data.List.Basic

/-! Labelled machines: in a state some labels are permitted, and a permitted
label leads to one next state. What every permitted step preserves holds at
the end of every run. -/

/-- Which labels a state permits, and where each leads. -/
structure Machine (σ ι : Type*) where
  permits : σ → ι → Prop
  next : σ → ι → σ

namespace Machine

variable {σ ι τ κ : Type*} {M : Machine σ ι}

/-- `Run s es t`: the labels `es`, each permitted where it is taken, lead from `s` to `t`. -/
inductive Run (M : Machine σ ι) : σ → List ι → σ → Prop
  | nil (s : σ) : Run M s [] s
  | cons {s : σ} {e : ι} {es : List ι} {t : σ} :
      M.permits s e → Run M (M.next s e) es t → Run M s (e :: es) t

/-- The same machine with the labels outside `ok` forbidden. -/
def restrict (M : Machine σ ι) (ok : σ → ι → Prop) : Machine σ ι where
  permits s e := M.permits s e ∧ ok s e
  next := M.next

theorem Run.append {s t u : σ} {es fs : List ι} (h1 : M.Run s es t) (h2 : M.Run t fs u) :
    M.Run s (es ++ fs) u := by
  induction h1 with
  | nil s => exact h2
  | cons hp _ ih => exact .cons hp (ih h2)

theorem Run.single {s : σ} {e : ι} (h : M.permits s e) : M.Run s [e] (M.next s e) :=
  .cons h (.nil _)

/-- An inductive invariant holds at the end of every run that starts in it. -/
theorem Run.invariant {P : σ → Prop} (step : ∀ s e, P s → M.permits s e → P (M.next s e))
    {s t : σ} {es : List ι} (h : M.Run s es t) (h0 : P s) : P t := by
  induction h with
  | nil s => exact h0
  | cons hp _ ih => exact ih (step _ _ h0 hp)

/-- An invariant of the state together with the labels that led there. -/
theorem Run.history {P : List ι → σ → Prop}
    (step : ∀ es s e, P es s → M.permits s e → P (es ++ [e]) (M.next s e))
    {s t : σ} {es : List ι} (h : M.Run s es t) (h0 : P [] s) : P es t := by
  induction h generalizing P with
  | nil s => exact h0
  | @cons s e es t hp _ ih =>
    refine ih (P := fun fs s => P (e :: fs) s) ?_ (step [] s e h0 hp)
    intro fs s f hs hf
    exact step (e :: fs) s f hs hf

/-- Where good labels keep `P`, and `P` sees to `ok`, a run of them is one of the restricted
machine. -/
theorem Run.restricted {P : σ → Prop} {good : ι → Prop} {ok : σ → ι → Prop}
    (hok : ∀ s e, P s → ok s e)
    (step : ∀ s e, P s → M.permits s e → good e → P (M.next s e))
    {s t : σ} {es : List ι} (h : M.Run s es t) (hes : ∀ e ∈ es, good e) (h0 : P s) :
    (M.restrict ok).Run s es t := by
  induction h with
  | nil s => exact .nil s
  | @cons s e es t hp _ ih =>
    obtain ⟨he, hes⟩ := List.forall_mem_cons.mp hes
    exact .cons ⟨hp, hok s e h0⟩ (ih hes (step s e h0 hp he))

/-- Two runs in step: states stay related while the labels are. -/
theorem Run.related {R : σ → σ → Prop} {L : ι → ι → Prop}
    (step : ∀ s s' e e', R s s' → L e e' → R (M.next s e) (M.next s' e'))
    {s s' t t' : σ} {es es' : List ι} (h : M.Run s es t) (h' : M.Run s' es' t')
    (hes : List.Forall₂ L es es') (h0 : R s s') : R t t' := by
  induction h generalizing s' es' with
  | nil s =>
    cases hes
    cases h'
    exact h0
  | cons _ _ ih =>
    cases hes with
    | cons he hes =>
      cases h' with
      | cons _ h' => exact ih h' hes (step _ _ _ _ h0 he)

/-- What the steps cost, one after another. -/
def total (M : Machine σ ι) (cost : σ → ι → ℕ) : σ → List ι → ℕ
  | _, [] => 0
  | s, e :: es => cost s e + M.total cost (M.next s e) es

instance (ok : σ → ι → Prop) [∀ s e, Decidable (M.permits s e)] [∀ s e, Decidable (ok s e)]
    (s : σ) (e : ι) : Decidable ((M.restrict ok).permits s e) :=
  inferInstanceAs (Decidable (_ ∧ _))

/-- Whether a run is permitted can be decided where each of its labels can. -/
def check (M : Machine σ ι) [∀ s e, Decidable (M.permits s e)] : σ → List ι → Bool
  | _, [] => true
  | s, e :: es => decide (M.permits s e) && M.check (M.next s e) es

theorem Run.of_check [∀ s e, Decidable (M.permits s e)] {s : σ} {es : List ι}
    (h : M.check s es = true) : M.Run s es (es.foldl M.next s) := by
  induction es generalizing s with
  | nil => exact .nil s
  | cons e es ih =>
    obtain ⟨hp, hes⟩ := Bool.and_eq_true_iff.mp h
    exact .cons (of_decide_eq_true hp) (ih hes)

end Machine
