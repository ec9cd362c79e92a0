import Ktls.Proofs.Seals
import Mathlib.Data.List.Perm.Subperm

/-! The record limit of a key is kept by counting as many records as a send can have become. -/

namespace Ktls

variable {A : Aead} {K : Kdf} {c q n most : ℕ} {s : Bytes} {server : Bool}
  {before ps : List Standing} {st : Standing} {S : Sender} {B B' : Budget}

theorem Sender.Sealed.sendAll (h : Sender.Sealed K server c s q before S n ps st)
    (chunks : List Bytes) :
    ∃ new, (∀ t ∈ new, t.generation = st.generation ∧
        t.sequence < st.sequence + chunks.length) ∧
      Sender.Sealed K server c s q before (Budget.sendAll A K S chunks) n (ps ++ new)
        ⟨st.generation, st.sequence + chunks.length⟩ := by
  induction chunks generalizing S ps st with
  | nil => exact ⟨[], fun t ht => absurd ht List.not_mem_nil, by rw [List.append_nil]; exact h⟩
  | cons chunk chunks ih =>
    have hdata : KtlsRecord.data ≠ .unknown := by decide
    obtain ⟨new, hnew, hall⟩ := ih (h.send (A := A) hdata chunk)
    have hlen : st.sequence + 1 + chunks.length = st.sequence + (chunk :: chunks).length := by
      rw [List.length_cons]
      omega
    rw [hlen] at hnew hall
    refine ⟨st :: new, fun t ht => ?_, ?_⟩
    · rcases List.mem_cons.mp ht with rfl | ht
      · exact ⟨rfl, by rw [← hlen]; omega⟩
      · exact hnew t ht
    · rw [List.append_assoc] at hall
      exact hall

namespace Budget

/-- The count is never below what the kernel has sealed under its key, and below the limit. -/
structure Kept (K : Kdf) (server : Bool) (c : ℕ) (s : Bytes) (q : ℕ) (before : List Standing)
    (most : ℕ) (B : Budget) (n : ℕ) (ps : List Standing) (st : Standing) : Prop where
  sealed : Sender.Sealed K server c s q before B.sender n ps st
  counted : st.sequence ≤ 64 + B.records
  under : B.records < B.limit
  bound : ∀ t ∈ before ++ ps, t.sequence < B.limit + 63 + most

theorem sendAll_x (S : Sender) (chunks : List Bytes) :
    (sendAll A K S chunks).conn.x = S.conn.x := by
  induction chunks generalizing S with
  | nil => rfl
  | cons chunk chunks ih =>
    refine (ih _).trans ?_
    change (S.after A K (.send .data chunk)).conn.x = _
    rw [Sender.after, Served.sendRecord, encode_spelled (by decide)]
    simp only [KernelSocket.send]
    cases S.conn.sock.tcp.tx.bind kernelKey with
    | none => rfl
    | some k => rfl

theorem Kept.serve (h : Kept K server c s q before most B n ps st) {chunks : List Bytes}
    {np : NullPending} {fate : NextKeyFate} {accepts : Bool}
    (hp : B.permits K most (.serve chunks np fate accepts)) :
    ∃ n ps st, Kept K server c s q before most (B.after A K (.serve chunks np fate accepts)) n ps
      st := by
  obtain ⟨hchunks, hmost, hturn⟩ := hp
  obtain ⟨new, hnew, hall⟩ := h.sealed.sendAll (A := A) chunks
  have hcounted := h.counted
  have hunder := h.under
  have hbound (t : Standing) (ht : t ∈ before ++ (ps ++ new)) :
      t.sequence < B.limit + 63 + most := by
    rw [← List.append_assoc] at ht
    rcases List.mem_append.mp ht with ht | ht
    · exact h.bound t ht
    · have hlt := (hnew t ht).2
      omega
  rw [after]
  simp only [Served.afterSend]
  split_ifs with hdue
  · obtain ⟨hok, rfl⟩ := hturn hdue
    rw [← sendAll_x (A := A) (K := K) B.sender chunks] at hok
    refine ⟨n + 1, ps ++ new, ⟨n + 1, 0⟩, hall.turn (A := A) hok, Nat.zero_le _, ?_, hbound⟩
    exact Nat.pos_of_ne_zero hdue.1
  · refine ⟨n, ps ++ new, _, hall, ?_, ?_, hbound⟩
    · change st.sequence + chunks.length ≤ 64 + (B.records + _)
      omega
    · change B.records + _ < B.limit
      omega

theorem Kept.after (h : ∃ n ps st, Kept K server c s q before most B n ps st) {op : BudgetOp}
    (hp : B.permits K most op) :
    ∃ n ps st, Kept K server c s q before most (B.after A K op) n ps st := by
  obtain ⟨n, ps, st, h⟩ := h
  cases op with
  | serve chunks np fate accepts => exact h.serve hp
  | receive record np fate accepts =>
    exact ⟨n, ps, st, h.sealed.receive record np fate accepts, h.counted, h.under, h.bound⟩
  | release => exact ⟨n, ps, st, h.sealed.release (A := A), h.counted, h.under, h.bound⟩

/-- Ascending places below a sequence are no more than that of one key. -/
theorem length_generation_le {l : List Standing} (h : l.Pairwise (· < ·)) {m : ℕ}
    (hm : ∀ t ∈ l, t.sequence < m) (g : ℕ) : (l.filter fun t => t.generation = g).length ≤ m := by
  have hseq : ((l.filter fun t => t.generation = g).map Standing.sequence).Nodup := by
    refine List.Pairwise.map _ (fun _ _ hne => hne) ((h.filter _).imp_of_mem ?_)
    intro a b ha hb hab
    have hga := of_decide_eq_true (List.mem_filter.mp ha).2
    have hgb := of_decide_eq_true (List.mem_filter.mp hb).2
    rcases Standing.lt_iff.mp hab with hlt | ⟨-, hlt⟩
    · exact absurd (hga.trans hgb.symm) hlt.ne
    · exact hlt.ne
  have hsub : (l.filter fun t => t.generation = g).map Standing.sequence ⊆ List.range m := by
    intro i hi
    obtain ⟨t, ht, rfl⟩ := List.mem_map.mp hi
    exact List.mem_range.mpr (hm t (List.mem_filter.mp ht).1)
  have hle := (hseq.subperm hsub).length_le
  rwa [List.length_map, List.length_range] at hle

/-- An AES-GCM connection is offloaded and served by the loop that counts what it sends and
turns the key at the limit, each time with success. Under no key are more records sealed, by
the SSL and the kernel together, than the limit, what the handover may bring along, and one
send; and with sends of up to 2^23 records that is less than the 2^24.5 of RFC 8446. -/
theorem records_within_limit {T : Tls} {S : Session} {es : List Op} {ops : List BudgetOp}
    {np : NullPending} {fate : OffloadFate} {x : KtlsExchange} {sock : TcpSocket}
    (hrun : (Session.following K T .tx).Run (Session.opened T) es S)
    (hsuite : ktlsNegotiatedCipher (some T.suite) = ktlsAesGcm128)
    (hoff : ktlsOffload np S.x {} fate = (.ok (), x, sock))
    (hops : (machine A K most).Run (begun x sock) ops B) :
    ∃ ps, B.sender.seals = ps.map (sealedAt K ktlsAesGcm128 (T.secret (whichOf T.server .tx))) ∧
      ∀ g, ((S.sealedBefore ++ ps).filter fun t => t.generation = g).length ≤ 2 ^ 23 + 63 + most ∧
        (most ≤ 2 ^ 23 →
          ((S.sealedBefore ++ ps).filter fun t => t.generation = g).length ^ 2 < 2 ^ 49) := by
  obtain ⟨n, ps, st, h⟩ := Sender.inv_begun hrun hoff
  rw [hsuite] at h
  have hlimit : (begun x sock).limit = 2 ^ 23 := if_pos h.sending.cipher
  have hps : ps = [] := List.map_eq_nil_iff.mp h.seals.symm
  have hstart : Kept K T.server ktlsAesGcm128 (T.secret (whichOf T.server .tx))
      (behindFinished S.outKinds).length S.sealedBefore most (begun x sock) n ps st := by
    refine ⟨h, ?_, ?_, fun t ht => ?_⟩
    · have hst := h.bound st (List.mem_append_right _ (List.mem_singleton_self _))
      rw [hps] at hst
      exact hst
    · rw [hlimit]
      exact Nat.two_pow_pos 23
    · have hle := h.bound t (List.mem_append_left _ ht)
      rw [hps, List.length_nil] at hle
      rw [hlimit]
      omega
  have hfix : ∀ {B B' : Budget} {ops : List BudgetOp}, (machine A K most).Run B ops B' →
      B'.limit = B.limit := by
    intro B B' ops hrun
    induction hrun with
    | nil => rfl
    | @cons B op ops B' _ _ ih =>
      refine ih.trans ?_
      cases op <;> rfl
  obtain ⟨n', ps', st', hkept⟩ := hops.invariant
    (P := fun B => ∃ n ps st, Kept K T.server ktlsAesGcm128 (T.secret (whichOf T.server .tx))
      (behindFinished S.outKinds).length S.sealedBefore most B n ps st)
    (fun _ _ hi hp => Kept.after hi hp) ⟨n, ps, st, hstart⟩
  have hbound := hkept.bound
  rw [hfix hops, hlimit] at hbound
  refine ⟨ps', hkept.sealed.seals, fun g => ?_⟩
  have hle := length_generation_le (List.pairwise_append.mp hkept.sealed.fresh).1 hbound g
  refine ⟨hle, fun hmost => ?_⟩
  have hlt : ((S.sealedBefore ++ ps').filter fun t => t.generation = g).length ≤ 2 ^ 24 + 63 := by
    omega
  calc ((S.sealedBefore ++ ps').filter fun t => t.generation = g).length ^ 2
      ≤ (2 ^ 24 + 63) ^ 2 := Nat.pow_le_pow_left hlt 2
    _ < 2 ^ 49 := by norm_num

/-- Three bytes are sent and counted. -/
def sampleServe : List BudgetOp := [.serve [ascii "one"] .zero {} true, .release]

def sampleBudget : Budget :=
  sampleServe.foldl (machine sampleAead sampleKdf 1).next
    (begun servedOffload.2.1 servedOffload.2.2)

theorem records_within_limit_sample :
    ∃ ps, sampleBudget.sender.seals = ps.map (sealedAt sampleKdf ktlsAesGcm128 (sampleSecret 1)) ∧
      (((Session.sampleRun true servedOps).sealedBefore ++ ps).filter
        fun t => t.generation = 0).length ^ 2 < 2 ^ 49 := by
  have hops : (machine sampleAead sampleKdf 1).Run
      (begun servedOffload.2.1 servedOffload.2.2) sampleServe sampleBudget :=
    Machine.Run.of_check (by decide +kernel)
  obtain ⟨ps, hseals, hall⟩ := records_within_limit servedOps_run (by decide +kernel)
    servedOps_offload hops
  exact ⟨ps, hseals, (hall 0).2 (by norm_num)⟩

end Budget

end Ktls
