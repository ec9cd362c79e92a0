import Ktls.Lib.Machine
import Mathlib.Data.List.Infix
import Mathlib.Order.Basic

/-! Two parties joined by an in-order channel, each with a key that every message moves on.
They need not talk about their keys: what the receiver has opened tells it where the sender
stood when it wrapped what comes next. -/

/-- How a message moves the key, and what goes over the wire for it. -/
structure Ratchet (κ μ ω : Type*) where
  step : κ → μ → κ
  wrap : κ → μ → ω
  unwrap : κ → ω → Option μ
  unwrap_wrap : ∀ k m, unwrap k (wrap k m) = some m

namespace Ratchet

variable {κ μ ω : Type*} (R : Ratchet κ μ ω)

/-- The key behind some messages. -/
def keyAfter (k : κ) (ms : List μ) : κ := ms.foldl R.step k

/-- The keys some messages are wrapped with. -/
def keysUsed : κ → List μ → List κ
  | _, [] => []
  | k, m :: ms => k :: keysUsed (R.step k m) ms

/-- Where each of some messages is wrapped. -/
def places : κ → List μ → List (κ × μ)
  | _, [] => []
  | k, m :: ms => (k, m) :: places (R.step k m) ms

/-- What some messages look like on the wire. -/
def wrapAll : κ → List μ → List ω
  | _, [] => []
  | k, m :: ms => R.wrap k m :: wrapAll (R.step k m) ms

@[simp] theorem keyAfter_cons (k : κ) (m : μ) (ms : List μ) :
    R.keyAfter k (m :: ms) = R.keyAfter (R.step k m) ms := rfl

theorem keyAfter_append (k : κ) (ms ns : List μ) :
    R.keyAfter k (ms ++ ns) = R.keyAfter (R.keyAfter k ms) ns := List.foldl_append

theorem keyAfter_concat (k : κ) (ms : List μ) (m : μ) :
    R.keyAfter k (ms ++ [m]) = R.step (R.keyAfter k ms) m := R.keyAfter_append k ms [m]

theorem wrapAll_append (k : κ) (ms ns : List μ) :
    R.wrapAll k (ms ++ ns) = R.wrapAll k ms ++ R.wrapAll (R.keyAfter k ms) ns := by
  induction ms generalizing k with
  | nil => rfl
  | cons m ms ih => rw [List.cons_append, wrapAll, wrapAll, ih, keyAfter_cons, List.cons_append]

theorem places_append (k : κ) (ms ns : List μ) :
    R.places k (ms ++ ns) = R.places k ms ++ R.places (R.keyAfter k ms) ns := by
  induction ms generalizing k with
  | nil => rfl
  | cons m ms ih => rw [List.cons_append, places, places, ih, keyAfter_cons, List.cons_append]

theorem places_concat (k : κ) (ms : List μ) (m : μ) :
    R.places k (ms ++ [m]) = R.places k ms ++ [(R.keyAfter k ms, m)] := R.places_append k ms [m]

theorem mem_keysUsed_of_places {k k' : κ} {m : μ} {ms : List μ} (h : (k', m) ∈ R.places k ms) :
    k' ∈ R.keysUsed k ms := by
  induction ms generalizing k with
  | nil => exact absurd h List.not_mem_nil
  | cons m' ms ih =>
    rcases List.mem_cons.mp h with heq | h
    · rw [(Prod.mk.inj heq).1]
      exact List.mem_cons_self
    · exact List.mem_cons_of_mem _ (ih h)

section Order

variable [Preorder κ]

theorem le_keyAfter {k : κ} {ms : List μ} (h : ∀ m ∈ ms, ∀ k, k < R.step k m) :
    k ≤ R.keyAfter k ms := by
  induction ms generalizing k with
  | nil => exact le_rfl
  | cons m ms ih =>
    obtain ⟨hm, hms⟩ := List.forall_mem_cons.mp h
    exact (hm k).le.trans (ih hms)

theorem le_of_mem_keysUsed {k k' : κ} {ms : List μ} (h : ∀ m ∈ ms, ∀ k, k < R.step k m)
    (hk' : k' ∈ R.keysUsed k ms) : k ≤ k' := by
  induction ms generalizing k with
  | nil => exact absurd hk' List.not_mem_nil
  | cons m ms ih =>
    obtain ⟨hm, hms⟩ := List.forall_mem_cons.mp h
    rcases List.mem_cons.mp hk' with rfl | hk'
    · exact le_rfl
    · exact (hm k).le.trans (ih hms hk')

/-- Where every message moves the key forward, the keys that are used only go up, and the one
behind them is above all of them. -/
theorem pairwise_keysUsed {k : κ} {ms : List μ} (h : ∀ m ∈ ms, ∀ k, k < R.step k m) :
    (R.keysUsed k ms ++ [R.keyAfter k ms]).Pairwise (· < ·) := by
  induction ms generalizing k with
  | nil => exact List.pairwise_singleton _ _
  | cons m ms ih =>
    obtain ⟨hm, hms⟩ := List.forall_mem_cons.mp h
    refine List.Pairwise.cons ?_ (ih hms)
    intro k' hk'
    rcases List.mem_append.mp hk' with hk' | hk'
    · exact (hm k).trans_le (R.le_of_mem_keysUsed hms hk')
    · rw [List.mem_singleton.mp hk']
      exact (hm k).trans_le (R.le_keyAfter hms)

theorem lt_keyAfter_of_mem {k k' : κ} {ms : List μ} (h : ∀ m ∈ ms, ∀ k, k < R.step k m)
    (hk' : k' ∈ R.keysUsed k ms) : k' < R.keyAfter k ms :=
  (List.pairwise_append.mp (R.pairwise_keysUsed h)).2.2 k' hk' _ (List.mem_singleton_self _)

/-- What was wrapped where the receiver stands is what comes next, wherever it turned up. -/
theorem prefix_concat {k : κ} {sent received : List μ} {m : μ}
    (h : ∀ m ∈ sent, ∀ k, k < R.step k m) (hpre : received <+: sent)
    (hm : (R.keyAfter k received, m) ∈ R.places k sent) : received ++ [m] <+: sent := by
  obtain ⟨rest, rfl⟩ := hpre
  have hrec : ∀ m ∈ received, ∀ k, k < R.step k m :=
    fun m hm => h m (List.mem_append_left _ hm)
  have hrest : ∀ m ∈ rest, ∀ k, k < R.step k m :=
    fun m hm => h m (List.mem_append_right _ hm)
  rw [places_append] at hm
  rcases List.mem_append.mp hm with hm | hm
  · -- earlier ones were wrapped below
    exact absurd (R.lt_keyAfter_of_mem hrec (R.mem_keysUsed_of_places hm)) (lt_irrefl _)
  · cases rest with
    | nil => exact absurd hm List.not_mem_nil
    | cons m' rest =>
      obtain ⟨hm', hrest'⟩ := List.forall_mem_cons.mp hrest
      rcases List.mem_cons.mp hm with heq | hm
      · rw [(Prod.mk.inj heq).2]
        exact ⟨rest, by rw [List.append_assoc, List.singleton_append]⟩
      · -- and later ones above
        have hle := R.le_of_mem_keysUsed hrest' (R.mem_keysUsed_of_places hm)
        exact absurd ((hm' _).trans_le hle) (lt_irrefl _)

end Order

/-- Messages that go over the wire as they are. -/
def plain (step : κ → μ → κ) : Ratchet κ μ μ where
  step := step
  wrap _ m := m
  unwrap _ m := some m
  unwrap_wrap _ _ := rfl

/-- A sender, a receiver, and what is between them; with what was said and heard. -/
structure Link (κ μ ω : Type*) where
  sender : κ
  receiver : κ
  wire : List ω := []
  sent : List μ := []
  received : List μ := []

inductive Move (μ : Type*)
  | send (m : μ)
  | receive

namespace Link

variable {R}

def after (R : Ratchet κ μ ω) (L : Link κ μ ω) : Move μ → Link κ μ ω
  | .send m =>
    { L with
      sender := R.step L.sender m
      wire := L.wire ++ [R.wrap L.sender m]
      sent := L.sent ++ [m] }
  | .receive =>
    match L.wire with
    | [] => L
    | c :: wire =>
      match R.unwrap L.receiver c with
      | none => L
      | some m =>
        { L with receiver := R.step L.receiver m, wire := wire, received := L.received ++ [m] }

/-- Messages are sent, and received, in any order. -/
def machine (R : Ratchet κ μ ω) : Machine (Link κ μ ω) (Move μ) where
  permits _ _ := True
  next := after R

theorem run_foldl (R : Ratchet κ μ ω) (L : Link κ μ ω) (es : List (Move μ)) :
    (machine R).Run L es (es.foldl (after R) L) := by
  induction es generalizing L with
  | nil => exact .nil L
  | cons e es ih => exact .cons trivial (ih _)

/-- What is on the wire is what was sent and not received yet, wrapped from where the receiver
stands. -/
structure InStep (R : Ratchet κ μ ω) (k : κ) (L : Link κ μ ω) : Prop where
  sender : L.sender = R.keyAfter k L.sent
  receiver : L.receiver = R.keyAfter k L.received
  wire : ∃ rest, L.sent = L.received ++ rest ∧ L.wire = R.wrapAll L.receiver rest

variable {k : κ} {L L' : Link κ μ ω}

/-- Whatever comes next is opened, and is what was said next. -/
theorem InStep.opens (h : InStep R k L) {c : ω} {wire : List ω} (hw : L.wire = c :: wire) :
    ∃ m, R.unwrap L.receiver c = some m ∧ L.received ++ [m] <+: L.sent := by
  obtain ⟨rest, hsent, hwire⟩ := h.wire
  cases rest with
  | nil => exact absurd (hw.symm.trans hwire) (List.cons_ne_nil _ _)
  | cons m rest =>
    obtain ⟨hc, -⟩ := List.cons.inj (hw.symm.trans hwire)
    refine ⟨m, hc ▸ R.unwrap_wrap _ _, rest, ?_⟩
    rw [hsent, List.append_assoc, List.singleton_append]

theorem InStep.send (h : InStep R k L) (m : μ) : InStep R k (L.after R (.send m)) := by
  obtain ⟨rest, hsent, hwire⟩ := h.wire
  refine ⟨?_, h.receiver, rest ++ [m], ?_, ?_⟩
  · exact (congrArg (R.step · m) h.sender).trans (R.keyAfter_concat _ _ _).symm
  · change L.sent ++ [m] = _
    rw [hsent, List.append_assoc]
    rfl
  · have hsender : L.sender = R.keyAfter L.receiver rest := by
      rw [h.sender, hsent, keyAfter_append, ← h.receiver]
    change L.wire ++ [R.wrap L.sender m] = R.wrapAll L.receiver (rest ++ [m])
    rw [wrapAll_append, hwire, ← hsender]
    rfl

theorem InStep.receive (h : InStep R k L) : InStep R k (L.after R .receive) := by
  rw [after]
  cases hw : L.wire with
  | nil => exact h
  | cons c wire =>
    obtain ⟨m, hm, hpre⟩ := h.opens hw
    simp only [hm]
    obtain ⟨rest, hrest⟩ := hpre
    refine ⟨h.sender, ?_, rest, hrest.symm, ?_⟩
    · exact (congrArg (R.step · m) h.receiver).trans (R.keyAfter_concat _ _ _).symm
    · obtain ⟨rest', hsent, hwire⟩ := h.wire
      have hrest' : rest' = m :: rest := by
        rw [← hrest, List.append_assoc, List.append_cancel_left_eq] at hsent
        exact hsent.symm
      rw [hrest', hw] at hwire
      exact (List.cons.inj hwire).2

theorem InStep.after (h : InStep R k L) (e : Move μ) : InStep R k (L.after R e) := by
  cases e with
  | send m => exact h.send m
  | receive => exact h.receive

theorem inStep_start (k : κ) : InStep R k { sender := k, receiver := k } :=
  ⟨rfl, rfl, [], rfl, rfl⟩

theorem InStep.run {es : List (Move μ)} (h : InStep R k L) (hrun : (machine R).Run L es L') :
    InStep R k L' :=
  hrun.invariant (fun _ e hi _ => hi.after e) h

end Link

end Ratchet
