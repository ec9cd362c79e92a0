import Ktls.Proofs.Keys

/-! Which certificate a `server_name` is answered with: the first added whose host
stands for it. An exact host and a wildcard may both stand for one name. -/

namespace Ktls

variable {lib : Libssl} {aesIsFast : Bool} {keys₀ keys : KtlsKeys} {calls : List KeysCall}
  {base : Option Bytes × Option Bytes} {pairs pre post : List NewPair} {p q : NewPair} {n : Bytes}

theorem toLower_eq_iff {c d : UInt8} (hd : ¬ (97 ≤ d ∧ d ≤ 122)) (hd' : ¬ (65 ≤ d ∧ d ≤ 90)) :
    toLower c = d ↔ c = d := by
  unfold toLower
  split_ifs with hc
  · refine ⟨?_, ?_⟩
    · rintro rfl
      have h1 : 65 ≤ c.toNat := UInt8.le_iff_toNat_le.mp hc.1
      have h2 : c.toNat ≤ 90 := UInt8.le_iff_toNat_le.mp hc.2
      have h3 : (c + 32).toNat = c.toNat + 32 := by
        rw [UInt8.toNat_add]
        exact Nat.mod_eq_of_lt (show c.toNat + 32 < 256 by omega)
      refine absurd ⟨UInt8.le_iff_toNat_le.mpr ?_, UInt8.le_iff_toNat_le.mpr ?_⟩ hd
      · exact h3 ▸ show 97 ≤ c.toNat + 32 by omega
      · exact h3 ▸ show c.toNat + 32 ≤ 122 by omega
    · rintro rfl
      exact absurd hc hd'
  · exact Iff.rfl

theorem SameName.refl (a : Bytes) : SameName a a := Eq.refl _

theorem SameName.symm {a b : Bytes} (h : SameName a b) : SameName b a := Eq.symm h

theorem SameName.trans {a b c : Bytes} (h : SameName a b) (h' : SameName b c) : SameName a c :=
  Eq.trans h h'

theorem dropWhile_label {label rest : Bytes} (h : dot ∉ label) :
    (label ++ dot :: rest).dropWhile (· ≠ dot) = dot :: rest := by
  rw [List.dropWhile_append_of_pos fun c hc => by simpa using fun he : c = dot => h (he ▸ hc)]
  exact List.dropWhile_cons_of_neg (by simp)

theorem covers_of_sameName {domain name : Bytes} (h : SameName (star :: dot :: domain) name) :
    Covers (star :: dot :: domain) name := by
  unfold SameName at h
  rw [List.map_cons, List.map_cons] at h
  obtain ⟨c, tail, rfl, hc, htail⟩ := List.map_eq_cons_iff.mp h.symm
  obtain ⟨d, rest, rfl, hd, hrest⟩ := List.map_eq_cons_iff.mp htail
  obtain rfl : c = star := (toLower_eq_iff (by decide) (by decide)).mp hc
  obtain rfl : d = dot := (toLower_eq_iff (by decide) (by decide)).mp hd
  exact ⟨domain, [star], rest, rfl, rfl, by decide, hrest⟩

/-- What `ktls_host_matches` decides. -/
theorem ktlsHostMatches_iff {host name : Bytes} :
    ktlsHostMatches host name = true ↔ SameName host name ∨ Covers host name := by
  unfold ktlsHostMatches
  by_cases hwild : [star, dot].isPrefixOf host
  · obtain ⟨domain, rfl⟩ : ∃ domain, host = star :: dot :: domain := by
      obtain ⟨domain, h⟩ := List.isPrefixOf_iff_prefix.mp hwild
      exact ⟨domain, h.symm⟩
    have hsame : SameName (star :: dot :: domain) name ∨ Covers (star :: dot :: domain) name ↔
        Covers (star :: dot :: domain) name := or_iff_right_of_imp covers_of_sameName
    rw [if_pos hwild, hsame]
    refine ⟨?_, ?_⟩
    · intro h
      split at h
      · exact absurd h (by simp)
      · next c rest hdrop =>
        have hc : c = dot := by
          have hhead := List.head?_dropWhile_not (fun c => decide (c ≠ dot)) name
          rw [hdrop] at hhead
          simpa using hhead
        subst hc
        refine ⟨domain, name.takeWhile (· ≠ dot), rest, rfl, ?_, fun hmem => ?_, ?_⟩
        · rw [← hdrop, List.takeWhile_append_dropWhile]
        · exact absurd (List.all_eq_true.mp List.all_takeWhile _ hmem) (by simp)
        · exact (of_decide_eq_true h : rest.map toLower = domain.map toLower)
    · rintro ⟨_, label, rest, hd, rfl, hlabel, h⟩
      cases hd
      rw [dropWhile_label hlabel]
      exact decide_eq_true h
  · have hnot : ¬ Covers host name := by
      rintro ⟨domain, _, _, rfl, -⟩
      exact hwild (by simp)
    rw [if_neg hwild, or_iff_left hnot]
    exact decide_eq_true_iff

theorem Covers.label {domain front rest : Bytes}
    (h : Covers (star :: dot :: domain) (front ++ dot :: rest)) (hrest : SameName rest domain) :
    dot ∉ front := by
  obtain ⟨domain', label, rest', hhost, hname, hlabel, hrest'⟩ := h
  cases hhost
  have hlen : (dot :: rest).length = (dot :: rest').length := by
    have h := congrArg List.length (hrest.trans hrest'.symm)
    rwa [List.length_map, List.length_map, ← Nat.succ_inj] at h
  rw [(List.append_inj' hname hlen).1]
  exact hlabel

theorem Covers.length_lt {domain name : Bytes} (h : Covers (star :: dot :: domain) name) :
    domain.length < name.length := by
  obtain ⟨domain', label, rest, hhost, rfl, -, hrest⟩ := h
  cases hhost
  have hlen := congrArg List.length hrest
  rw [List.length_map, List.length_map] at hlen
  rw [List.length_append, List.length_cons]
  omega

theorem standsFor_iff {host name : Bytes} :
    StandsFor host name ↔ (SameName host name ∨ Covers host name) ∧ ¬ Unlabelled host name := by
  refine ⟨?_, ?_⟩
  · rintro (⟨hplain, hsame⟩ | ⟨domain, label, rest, rfl, rfl, hne, hlabel, hrest⟩)
    · refine ⟨.inl hsame, ?_⟩
      rintro ⟨domain, rest, rfl, -, -⟩
      exact hplain ⟨domain, rfl⟩
    · refine ⟨.inr ⟨domain, label, rest, rfl, rfl, hlabel, hrest⟩, ?_⟩
      rintro ⟨domain', rest', -, hname, -⟩
      obtain ⟨c, label, rfl⟩ := List.exists_cons_of_ne_nil hne
      exact hlabel (List.mem_cons.mpr (.inl (List.cons.inj hname).1.symm))
  · rintro ⟨hstands, hlabelled⟩
    by_cases hwild : [star, dot] <+: host
    · obtain ⟨domain, rfl⟩ := hwild
      have hcovers : Covers (star :: dot :: domain) name :=
        hstands.elim covers_of_sameName id
      obtain ⟨domain', label, rest, hhost, rfl, hlabel, hrest⟩ := hcovers
      cases hhost
      refine .inr ⟨domain, label, rest, rfl, rfl, ?_, hlabel, hrest⟩
      rintro rfl
      exact hlabelled ⟨domain, rest, rfl, rfl, hrest⟩
    · refine .inl ⟨hwild, hstands.resolve_right ?_⟩
      rintro ⟨domain, _, _, rfl, -⟩
      exact hwild ⟨domain, rfl⟩

/-- A host matches the names it is to stand for exactly when no wildcard meets a name that
begins with the dot. A wildcard matches neither its domain alone nor a name with a dot
further in front of it. -/
theorem host_matches_iff (host name : Bytes) :
    ((ktlsHostMatches host name = true ↔ StandsFor host name) ↔ ¬ Unlabelled host name) ∧
    (∀ domain, ktlsHostMatches (star :: dot :: domain) domain = false) ∧
    ∀ domain front rest, dot ∈ front → SameName rest domain →
      ktlsHostMatches (star :: dot :: domain) (front ++ dot :: rest) = false := by
  have hcovers {domain name : Bytes} (h : ktlsHostMatches (star :: dot :: domain) name = true) :
      Covers (star :: dot :: domain) name :=
    (ktlsHostMatches_iff.mp h).elim covers_of_sameName id
  refine ⟨?_, fun domain => ?_, fun domain front rest hdot hrest => ?_⟩
  · rw [standsFor_iff, ktlsHostMatches_iff]
    refine ⟨?_, ?_⟩
    · rintro h ⟨domain, rest, rfl, rfl, hrest⟩
      have hmatch : Covers (star :: dot :: domain) (dot :: rest) :=
        ⟨domain, [], rest, rfl, rfl, List.not_mem_nil, hrest⟩
      exact (h.mp (.inr hmatch)).2 ⟨domain, rest, rfl, rfl, hrest⟩
    · intro h
      exact (and_iff_left h).symm
  · refine Bool.eq_false_iff.mpr fun h => ?_
    exact absurd (hcovers h).length_lt (lt_irrefl _)
  · refine Bool.eq_false_iff.mpr fun h => ?_
    exact (hcovers h).label hrest hdot

/-- A name that begins with the dot is served the wildcard's certificate. -/
theorem host_matches_unlabelled :
    ktlsHostMatches (ascii "*.other.example") (ascii ".other.example") = true ∧
      ¬ StandsFor (ascii "*.other.example") (ascii ".other.example") := by
  refine ⟨by decide +kernel, fun h => ?_⟩
  exact (standsFor_iff.mp h).2
    ⟨ascii "other.example", ascii "other.example", by decide +kernel, by decide +kernel, rfl⟩

/-- Two wildcards that cover one name are one host. -/
theorem Covers.sameName {host host' : Bytes} (h : Covers host n) (h' : Covers host' n) :
    SameName host host' := by
  obtain ⟨domain, label, rest, rfl, rfl, hlabel, hrest⟩ := h
  obtain ⟨domain', label', rest', rfl, hn, hlabel', hrest'⟩ := h'
  have hdrop := congrArg (List.dropWhile (· ≠ dot)) hn
  rw [dropWhile_label hlabel, dropWhile_label hlabel'] at hdrop
  obtain rfl : rest = rest' := (List.cons.inj hdrop).2
  exact congrArg (toLower star :: toLower dot :: ·) (hrest.symm.trans hrest')

theorem Listed.distinct_added (h : Listed lib base pairs keys) :
    pairs.Pairwise fun p q => ¬ SameName p.name q.name := by
  have hd : (keys.named.map fun e => (some e.host, e.ctx.pair)).Pairwise
      fun x y => ¬ SameName (x.1.getD []) (y.1.getD []) := List.pairwise_map.mpr h.distinct
  rw [h.entries] at hd
  exact List.pairwise_map.mp hd

theorem Listed.serving (h : Listed lib base pairs keys) (refused : Bool) :
    (keys.serving (some n) refused).map SslCtx.pair =
      match pairs.find? fun p => ktlsHostMatches p.name n with
      | none => some base
      | some p => if refused then none else some (p.pair lib) := by
  have hfind : (keys.named.find? fun e => ktlsHostMatches e.host n).map
      (fun e => (some e.host, e.ctx.pair)) =
      (pairs.find? fun p => ktlsHostMatches p.name n).map fun p => (p.host, p.pair lib) := by
    have hq := congrArg (List.find? fun x => ktlsHostMatches (x.1.getD []) n) h.entries
    rwa [List.find?_map, List.find?_map] at hq
  unfold KtlsKeys.serving ktlsNamePick
  cases hs : keys.ctx.servername with
  | false =>
    -- no callback was ever set, so no certificate was added
    rw [h.servername hs] at hfind
    have hnone := Option.map_eq_none_iff.mp hfind.symm
    rw [if_neg Bool.false_ne_true, hnone]
    exact congrArg some h.base
  | true =>
    rw [if_pos rfl]
    dsimp only
    cases hp : pairs.find? fun p => ktlsHostMatches p.name n with
    | none =>
      rw [hp, Option.map_none, Option.map_eq_none_iff] at hfind
      rw [hfind]
      exact congrArg some h.base
    | some p =>
      rw [hp, Option.map_some] at hfind
      obtain ⟨e, he, hep⟩ := Option.map_eq_some_iff.mp hfind
      rw [he]
      cases refused with
      | true => rfl
      | false => exact congrArg some (Prod.mk.inj hep).2

/-- `p` stands for `n`, and is the first of the certificates that does. -/
def First (pairs : List NewPair) (n : Bytes) (p : NewPair) : Prop :=
  (SameName p.name n ∨ Covers p.name n) ∧ ∃ pre post, pairs = pre ++ p :: post ∧
    ∀ q ∈ pre, ¬ (SameName q.name n ∨ Covers q.name n)

theorem Listed.serving_first (h : Listed lib base pairs keys) (hp : First pairs n p)
    (refused : Bool) :
    (keys.serving (some n) refused).map SslCtx.pair =
      if refused then none else some (p.pair lib) := by
  obtain ⟨hpn, pre, post, hpairs, hpre⟩ := hp
  have hfind : pairs.find? (fun p => ktlsHostMatches p.name n) = some p := by
    refine List.find?_eq_some_iff_append.mpr ⟨ktlsHostMatches_iff.mpr hpn, pre, post, hpairs, ?_⟩
    intro q hq
    rw [Bool.not_eq_true']
    exact Bool.eq_false_iff.mpr fun hm => hpre q hq (ktlsHostMatches_iff.mp hm)
  rw [h.serving, hfind]

theorem Listed.serving_none (h : Listed lib base pairs keys)
    (hnone : ∀ p ∈ pairs, ¬ (SameName p.name n ∨ Covers p.name n)) (refused : Bool) :
    (keys.serving (some n) refused).map SslCtx.pair = some base := by
  have hfind : pairs.find? (fun p => ktlsHostMatches p.name n) = none :=
    List.find?_eq_none.mpr fun p hp hm => hnone p hp (ktlsHostMatches_iff.mp hm)
  rw [h.serving, hfind]

theorem pair_order {α : Type*} {l : List α} (hl : l.Nodup) {a b : α} (hab : [a, b].Sublist l)
    (hba : [b, a].Sublist l) : False := by
  induction l with
  | nil => exact absurd (List.sublist_nil.mp hab) (by simp)
  | cons x l ih =>
    obtain ⟨hx, hl⟩ := List.nodup_cons.mp hl
    rcases List.sublist_cons_iff.mp hab with hab' | ⟨r, hr, hb⟩
    · rcases List.sublist_cons_iff.mp hba with hba' | ⟨r, hr, -⟩
      · exact ih hl hab' hba'
      · obtain ⟨rfl, -⟩ := List.cons.inj hr
        exact hx (hab'.subset (List.mem_cons_of_mem _ (List.mem_cons_self ..)))
    · obtain ⟨rfl, rfl⟩ := List.cons.inj hr
      rcases List.sublist_cons_iff.mp hba with hba' | ⟨r, hr', -⟩
      · exact hx (hba'.subset (List.mem_cons_of_mem _ (List.mem_cons_self ..)))
      · obtain ⟨rfl, -⟩ := List.cons.inj hr'
        exact hx (List.singleton_sublist.mp hb)

theorem sublist_of_first {α : Type*} {l pre post : List α} {a b : α} (hl : l = pre ++ a :: post)
    (hb : b ∈ l) (hpre : b ∉ pre) (hne : b ≠ a) : [a, b].Sublist l := by
  subst hl
  have hpost : b ∈ post := by
    rcases List.mem_append.mp hb with h | h
    · exact absurd h hpre
    · exact (List.mem_cons.mp h).resolve_left hne
  exact ((List.singleton_sublist.mpr hpost).cons_cons a).trans (List.sublist_append_right pre _)

theorem First.mem (h : First pairs n p) : p ∈ pairs := by
  obtain ⟨-, pre, post, rfl, -⟩ := h
  exact List.mem_append_right _ (List.mem_cons_self ..)

theorem First.before (h : First pairs n p) (hq : q ∈ pairs)
    (hqn : SameName q.name n ∨ Covers q.name n) (hne : q ≠ p) : [p, q].Sublist pairs := by
  obtain ⟨-, pre, post, hpairs, hpre⟩ := h
  exact sublist_of_first hpairs hq (fun hmem => hpre q hmem hqn) hne

theorem first_or_none (pairs : List NewPair) (n : Bytes) :
    (∃ p, First pairs n p) ∨ ∀ p ∈ pairs, ¬ (SameName p.name n ∨ Covers p.name n) := by
  cases hf : pairs.find? fun p => ktlsHostMatches p.name n with
  | none =>
    refine Or.inr fun p hp hn => ?_
    exact List.find?_eq_none.mp hf p hp (ktlsHostMatches_iff.mpr hn)
  | some p =>
    obtain ⟨hp, pre, post, hpairs, hpre⟩ := List.find?_eq_some_iff_append.mp hf
    refine Or.inl ⟨p, ktlsHostMatches_iff.mp hp, pre, post, hpairs, fun q hq hn => ?_⟩
    have hqf := hpre q hq
    rw [ktlsHostMatches_iff.mpr hn] at hqf
    exact absurd hqf (by simp)

/-- Of two certificates that stand for one name, one is exact and one is a wildcard. -/
theorem exact_and_wildcard (hne : ¬ SameName p.name q.name)
    (hp : SameName p.name n ∨ Covers p.name n) (hq : SameName q.name n ∨ Covers q.name n) :
    SameName p.name n ∧ Covers q.name n ∨ Covers p.name n ∧ SameName q.name n := by
  rcases hp with hp | hp <;> rcases hq with hq | hq
  · exact absurd (hp.trans hq.symm) hne
  · exact Or.inl ⟨hp, hq⟩
  · exact Or.inr ⟨hp, hq⟩
  · exact absurd (hp.sameName hq) hne

/-- The order of the calls is felt by a name only through the order of its exact host
and the wildcard that covers it. -/
theorem First.perm {pairs' : List NewPair} (hd : pairs.Pairwise fun p q => ¬ SameName p.name q.name)
    (hperm : pairs'.Perm pairs)
    (horder : ∀ p w, SameName p.name n → Covers w.name n →
      ([p, w].Sublist pairs' ↔ [p, w].Sublist pairs))
    (hp : First pairs n p) (hq : First pairs' n q) : q = p := by
  by_contra hne
  have hp' : p ∈ pairs' := hperm.mem_iff.mpr hp.mem
  have hq' : q ∈ pairs := hperm.mem_iff.mp hq.mem
  have hpq : [p, q].Sublist pairs := hp.before hq' hq.1 hne
  have hqp : [q, p].Sublist pairs' := hq.before hp' hp.1 (Ne.symm hne)
  have hnodup : pairs.Nodup := by
    refine hd.imp ?_
    intro p q h he
    exact h (he ▸ SameName.refl _)
  rcases exact_and_wildcard (hd.forall_sublist hpq) hp.1 hq.1 with ⟨hpn, hqn⟩ | ⟨hpn, hqn⟩
  · exact pair_order (hperm.nodup_iff.mpr hnodup) ((horder p q hpn hqn).mpr hpq) hqp
  · exact pair_order hnodup hpq ((horder q p hqn hpn).mp hqp)

theorem listed_run (hmade : Made lib aesIsFast keys₀)
    (hrun : (KeysCall.machine lib aesIsFast).Run keys₀ calls keys) :
    Listed lib keys₀.ctx.pair (added calls) keys := by
  obtain ⟨hconf, hlist⟩ := hmade.configured
  have hnone : Configured aesIsFast none ((none : Option (List Bytes)).getD []) keys₀ := hconf
  exact (configured_run hrun hnone hlist).2

/-- The certificate `ktls_name_pick` goes on with: the one under the name itself unless the
wildcard that covers it came before, that wildcard's otherwise, and the default one where
neither was added or no name was given. Any order of the same certificates that leaves an
exact host and the wildcard over it in place serves every name alike. -/
theorem name_picks_first (hmade : Made lib aesIsFast keys₀)
    (hrun : (KeysCall.machine lib aesIsFast).Run keys₀ calls keys) (refused : Bool) :
    (∀ n pre p post, added calls = pre ++ p :: post → SameName p.name n →
      (∀ w ∈ pre, ¬ Covers w.name n) →
      (keys.serving (some n) refused).map SslCtx.pair =
        if refused then none else some (p.pair lib)) ∧
    (∀ n pre w post, added calls = pre ++ w :: post → Covers w.name n →
      (∀ p ∈ pre, ¬ SameName p.name n) →
      (keys.serving (some n) refused).map SslCtx.pair =
        if refused then none else some (w.pair lib)) ∧
    (∀ n, (∀ p ∈ added calls, ¬ SameName p.name n ∧ ¬ Covers p.name n) →
      (keys.serving (some n) refused).map SslCtx.pair = some keys₀.ctx.pair) ∧
    (keys.serving none refused).map SslCtx.pair = some keys₀.ctx.pair ∧
    ∀ calls' keys', (KeysCall.machine lib aesIsFast).Run keys₀ calls' keys' →
      (added calls').Perm (added calls) → ∀ n,
      (∀ p w, SameName p.name n → Covers w.name n →
        ([p, w].Sublist (added calls') ↔ [p, w].Sublist (added calls))) →
      (keys'.serving (some n) refused).map SslCtx.pair =
        (keys.serving (some n) refused).map SslCtx.pair := by
  have hl := listed_run hmade hrun
  have hd := hl.distinct_added
  refine ⟨?_, ?_, ?_, ?_, ?_⟩
  · intro n pre p post hadd hp hpre
    refine hl.serving_first ⟨Or.inl hp, pre, post, hadd, fun q hq hqn => ?_⟩ refused
    have hne := (List.pairwise_append.mp (hadd ▸ hd)).2.2 q hq p (List.mem_cons_self ..)
    rcases hqn with hqn | hqn
    · exact hne (hqn.trans hp.symm)
    · exact hpre q hq hqn
  · intro n pre w post hadd hw hpre
    refine hl.serving_first ⟨Or.inr hw, pre, post, hadd, fun q hq hqn => ?_⟩ refused
    have hne := (List.pairwise_append.mp (hadd ▸ hd)).2.2 q hq w (List.mem_cons_self ..)
    rcases hqn with hqn | hqn
    · exact hpre q hq hqn
    · exact hne (hqn.sameName hw)
  · intro n hnone
    exact hl.serving_none (fun p hp => not_or.mpr (hnone p hp)) refused
  · unfold KtlsKeys.serving ktlsNamePick
    rw [ite_self]
    exact congrArg some hl.base
  · intro calls' keys' hrun' hperm n horder
    have hl' := listed_run hmade hrun'
    rcases first_or_none (added calls) n with ⟨p, hp⟩ | hnone
    · rcases first_or_none (added calls') n with ⟨q, hq⟩ | hnone'
      · rw [hl.serving_first hp, hl'.serving_first hq, hp.perm hd hperm horder hq]
      · exact absurd hp.1 (hnone' p (hperm.mem_iff.mpr hp.mem))
    · have hnone' : ∀ p ∈ added calls', ¬ (SameName p.name n ∨ Covers p.name n) :=
        fun p hp => hnone p (hperm.mem_iff.mp hp)
      rw [hl.serving_none hnone, hl'.serving_none hnone']

/-- One label under the wildcard, and the two certificates the wrong way round for it. -/
def labelPair : NewPair := ⟨some (ascii "a.other.example"), otherCert, otherKey⟩

def shadowPair : NewPair := ⟨some (ascii "*.other.example"), localhostCert, localhostKey⟩

theorem labelPair_shadowed : Covers shadowPair.name (ascii "a.other.example") := by
  have hm : ktlsHostMatches shadowPair.name (ascii "a.other.example") = true := by decide +kernel
  refine (ktlsHostMatches_iff.mp hm).resolve_left fun hs => ?_
  exact absurd (congrArg List.head? hs) (by decide +kernel)

theorem name_picks_first_sample :
    (((KeysCall.machine sampleLib true).next ((KeysCall.machine sampleLib true).next sampleKeys
      (.add labelPair {})) (.add shadowPair {})).serving
        (some (ascii "A.other.Example")) false).map SslCtx.pair =
      some (labelPair.pair sampleLib) := by
  have hrun : (KeysCall.machine sampleLib true).Run sampleKeys
      [.add labelPair {}, .add shadowPair {}] _ := Machine.Run.of_check (by decide +kernel)
  have hname : labelPair.name.map toLower = (ascii "A.other.Example").map toLower := by
    decide +kernel
  exact (name_picks_first sampleKeys_made hrun false).1 _ [] labelPair [shadowPair] rfl hname
    (by simp)

/-- A certificate under the very name that was asked for is passed over for a wildcard that
was added before it. -/
theorem exact_host_passed_over :
    ¬ ∀ calls keys, (KeysCall.machine sampleLib true).Run sampleKeys calls keys →
      ∀ p ∈ added calls, (keys.serving (some p.name) false).map SslCtx.pair =
        some (p.pair sampleLib) := by
  intro h
  have hrun : (KeysCall.machine sampleLib true).Run sampleKeys
      [.add shadowPair {}, .add labelPair {}] _ := Machine.Run.of_check (by decide +kernel)
  have hexact := h _ _ hrun labelPair (by simp [added, KeysCall.added?])
  have hserved := (listed_run sampleKeys_made hrun).serving_first
    ⟨Or.inr labelPair_shadowed, [], [labelPair], rfl, by simp⟩ false
  have hpairs := Option.some.inj (hserved.symm.trans hexact)
  have hkey : bioMemBuf localhostKey = bioMemBuf otherKey :=
    Option.some.inj (Prod.mk.inj hpairs).2
  exact absurd hkey (by decide +kernel)

end Ktls
