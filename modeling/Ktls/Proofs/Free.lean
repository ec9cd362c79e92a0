import Ktls.Proofs.Update
import Ktls.Spec.Free
import Mathlib.Data.List.Forall2

/-! Two runs that differ only in the traffic secrets leave exchanges that differ only in
what was made of them, and `ktls_exchange_free` erases a part of that. -/

namespace Ktls

variable {K : Kdf} {x y : KtlsExchange}

/-! The record tables follow from the layout of the streams. -/

theorem cuts_congr {fs gs : List Bytes} (h : fs.map List.length = gs.map List.length) (o : ℕ) :
    Framing.cuts o fs = Framing.cuts o gs := by
  induction fs generalizing gs o with
  | nil =>
    rw [List.map_nil] at h
    rw [List.map_eq_nil_iff.mp h.symm]
  | cons f fs ih =>
    cases gs with
    | nil => cases h
    | cons g gs =>
      obtain ⟨hlen, hrest⟩ := List.cons.inj h
      rw [Framing.cuts, Framing.cuts, ih hrest, hlen]

theorem lengths_of_heads (b : Bytes) : (tlsRecord.frames b).map List.length =
    ((tlsRecord.frames b).map fun f => f.take 5).map fun h => 5 + tlsRecord.body h := by
  rw [List.map_map]
  refine List.map_congr_left fun f hf => ?_
  exact (tlsRecord.isFrame_of_mem b f hf).2.symm

theorem parsed_congr {a b : Bytes} (h : recordLayout a = recordLayout b) : parsed a = parsed b := by
  obtain ⟨hheads, hrest⟩ := Prod.mk.inj h
  obtain ⟨hhead, hlen⟩ := Prod.mk.inj hrest
  have hlengths : (tlsRecord.frames a).map List.length = (tlsRecord.frames b).map List.length := by
    rw [lengths_of_heads, lengths_of_heads, hheads]
  have hcount : (tlsRecord.frames a).length = (tlsRecord.frames b).length := by
    simpa using congrArg List.length hlengths
  have hflat : (tlsRecord.frames a).flatten.length = (tlsRecord.frames b).flatten.length := by
    rw [List.length_flatten, List.length_flatten, hlengths]
  have hlast : lastHead (tlsRecord.frames a) = lastHead (tlsRecord.frames b) := by
    rw [lastHead, lastHead, ← List.getLast?_map, ← List.getLast?_map, hheads]
  have hwidth : tlsRecord.width (tlsRecord.rest a) = tlsRecord.width (tlsRecord.rest b) :=
    congrArg (fun h => 5 + tlsRecord.body h) hhead
  rw [parsed, parsed, scanned, scanned, hflat, hlen, hwidth, hhead, hlast, hcount,
    cuts_congr hlengths]

theorem records_feed (x : KtlsExchange) (bytes : Bytes) (written : ℤ) :
    (ktlsExchangeFeed x bytes written).2.rx =
        ktlsScan x.rx (Call.passed x .rx (.feed bytes written)) ∧
      (ktlsExchangeFeed x bytes written).2.tx = x.tx := by
  rw [Call.passed]
  cases hx : x.ssl with
  | none =>
    simp only [ktlsExchangeFeed, hx, and_true]
    exact (ktlsScan_nil _).symm
  | some s =>
    rw [ktlsExchangeFeed_exact hx]
    by_cases hacc : Accepted s bytes written
    · simp only [if_pos hacc, Except.isOk, Except.toBool, if_true, and_self]
    · simp only [if_neg hacc, Except.isOk, Except.toBool, Bool.false_eq_true, if_false,
        ktlsScan_nil, and_self]

theorem records_take (x : KtlsExchange) (cap : ℕ) :
    (ktlsExchangeTake x cap).2.rx = x.rx ∧
      (ktlsExchangeTake x cap).2.tx = ktlsScan x.tx (Call.passed x .tx (.take cap)) := by
  rw [Call.passed]
  cases hx : x.ssl with
  | none =>
    simp only [ktlsExchangeTake, hx, true_and]
    exact (ktlsScan_nil _).symm
  | some s =>
    obtain ⟨n, hn⟩ : ∃ n, (cInt cap).toNat = n := ⟨_, rfl⟩
    rw [ktlsExchangeTake_eq hx hn]
    simp only [Except.toOption, Option.getD_some, and_self]

theorem records_after (x : KtlsExchange) (call : Call) :
    (call.after K x).rx = ktlsScan x.rx (Call.passed x .rx call) ∧
      (call.after K x).tx = ktlsScan x.tx (Call.passed x .tx call) := by
  have quiet {x' : KtlsExchange} (hrx : x'.rx = x.rx) (htx : x'.tx = x.tx) :
      x'.rx = ktlsScan x.rx [] ∧ x'.tx = ktlsScan x.tx [] := by
    rw [ktlsScan_nil, ktlsScan_nil]
    exact ⟨hrx, htx⟩
  cases call with
  | feed bytes written =>
    obtain ⟨hrx, htx⟩ := records_feed x bytes written
    exact ⟨hrx, htx.trans (ktlsScan_nil _).symm⟩
  | take cap =>
    obtain ⟨hrx, htx⟩ := records_take x cap
    exact ⟨hrx.trans (ktlsScan_nil _).symm, htx⟩
  | step a fate =>
    have he := Call.effect K x (.step a fate)
    generalize Call.after K x (.step a fate) = x' at he ⊢
    cases he with
    | idle => exact quiet rfl rfl
    | step hx hd =>
      obtain ⟨hst, -⟩ := ktlsExchangeStep_cases K a fate hx hd
      exact quiet hst.rx hst.tx
  | backlog a =>
    have he := Call.effect K x (.backlog a)
    generalize Call.after K x (.backlog a) = x' at he ⊢
    cases he with
    | idle => exact quiet rfl rfl
    | backlog hx hd =>
      obtain ⟨sec, len, hframe⟩ := ktlsExchangeBacklog_frame hx hd a
      rw [hframe]
      exact quiet rfl rfl
  | ask np dir =>
    obtain ⟨seq, hframe⟩ := ktlsCryptoInfo_frame np x dir
    rw [Call.after, hframe]
    exact quiet rfl rfl
  | nextKey dir fate =>
    obtain ⟨sec, rek, key, iv, info, hframe, -⟩ := ktlsNextKey_frame K x dir fate
    rw [Call.after, hframe]
    exact quiet rfl rfl
  | release => exact quiet rfl rfl

/-- After any calls the tables are those of the streams that have passed. -/
theorem records_stream {calls : List Call} (hrun : (Call.machine K).Run x calls y) {a b : Bytes}
    (hrx : x.rx = parsed a) (htx : x.tx = parsed b) :
    y.rx = parsed (a ++ Call.stream K .rx x calls) ∧
      y.tx = parsed (b ++ Call.stream K .tx x calls) := by
  induction hrun generalizing a b with
  | nil x =>
    rw [Call.stream, Call.stream, List.append_nil, List.append_nil]
    exact ⟨hrx, htx⟩
  | @cons x call calls y _ _ ih =>
    obtain ⟨hrx', htx'⟩ := records_after (K := K) x call
    rw [hrx, ktlsScan_parsed] at hrx'
    rw [htx, ktlsScan_parsed] at htx'
    rw [Call.stream, Call.stream, ← List.append_assoc, ← List.append_assoc]
    exact ih hrx' htx'

/-! What the two exchanges have in common all along. -/

/-- An SSL as far as its BIOs' lengths show. -/
def Ssl.shape (s : Ssl) : Ssl where
  server := s.server
  input := List.replicate s.input.length 0
  output := List.replicate s.output.length 0

/-- Twins agree on every field but the record tables, the secrets and what is made of them,
and as many bytes have been taken from each. -/
structure Twins (x y : KtlsExchange) : Prop where
  ssl : x.ssl.map Ssl.shape = y.ssl.map Ssl.shape
  done : x.done = y.done
  tx : ∃ a b, x.tx = parsed a ∧ y.tx = parsed b ∧ a.length = b.length
  txAtDone : x.txAtDone = y.txAtDone
  rxAtDone : x.rxAtDone = y.rxAtDone
  rxFed : x.rxFed = y.rxFed
  server : x.server = y.server
  cipherName : x.cipherName = y.cipherName
  alpn : x.alpn = y.alpn
  alpnLen : x.alpnLen = y.alpnLen
  rekeyed : x.rekeyed = y.rekeyed
  secretLen : x.secretLen = y.secretLen
  cipher : x.cipher = y.cipher

theorem Ssl.shape_congr {s t : Ssl} (hserver : s.server = t.server)
    (hin : s.input.length = t.input.length) (hout : s.output.length = t.output.length) :
    s.shape = t.shape := by
  rw [Ssl.shape, Ssl.shape, hserver, hin, hout]

theorem Ssl.of_shape {s t : Ssl} (h : s.shape = t.shape) :
    s.server = t.server ∧ s.input.length = t.input.length ∧ s.output.length = t.output.length := by
  obtain ⟨hserver, hin, hout⟩ := Ssl.mk.inj h
  refine ⟨hserver, ?_, ?_⟩
  · simpa using congrArg List.length hin
  · simpa using congrArg List.length hout

namespace Twins

variable (h : Twins x y)
include h

theorem cases_ssl : (x.ssl = none ∧ y.ssl = none) ∨
    ∃ s t, x.ssl = some s ∧ y.ssl = some t ∧ s.shape = t.shape := by
  have hssl := h.ssl
  cases hx : x.ssl with
  | none =>
    rw [hx] at hssl
    exact .inl ⟨rfl, Option.map_eq_none_iff.mp hssl.symm⟩
  | some s =>
    rw [hx] at hssl
    obtain ⟨t, ht, hshape⟩ := Option.map_eq_some_iff.mp hssl.symm
    exact .inr ⟨s, t, rfl, ht, hshape.symm⟩

theorem txOffset : x.tx.offset = y.tx.offset := by
  obtain ⟨a, b, ha, hb, hlen⟩ := h.tx
  rw [ha, hb, offset_parsed, offset_parsed, hlen]

omit h in
/-- Whether a direction can be filled is a matter of the secret's length and of the fates. -/
theorem fill_result {i : Fin 2} (hlen : x.secretLen i = y.secretLen i) (fate : FillFate) :
    (ktlsFill K x i fate).1 = (ktlsFill K y i fate).1 := by
  obtain ⟨key, iv⟩ := fate
  unfold ktlsFill
  rw [hlen]
  split_ifs
  · rfl
  · cases key <;> cases iv <;> rfl

theorem fill (i : Fin 2) (fate : FillFate) :
    (ktlsFill K x i fate).1 = (ktlsFill K y i fate).1 ∧
      Twins (ktlsFill K x i fate).2 (ktlsFill K y i fate).2 := by
  obtain ⟨key, iv, info, hx, -⟩ := ktlsFill_frame K x i fate
  obtain ⟨key', iv', info', hy, -⟩ := ktlsFill_frame K y i fate
  refine ⟨fill_result (congrFun h.secretLen i) fate, ?_⟩
  rw [hx, hy]
  exact { h with }

theorem deriveBoth (server : Bool) (suite : Option Bytes) (fate : DeriveFate) :
    (ktlsDeriveBoth K x server suite fate).1 = (ktlsDeriveBoth K y server suite fate).1 ∧
      Twins (ktlsDeriveBoth K x server suite fate).2 (ktlsDeriveBoth K y server suite fate).2 := by
  have h' : Twins { x with cipher := ktlsNegotiatedCipher suite }
      { y with cipher := ktlsNegotiatedCipher suite } := { h with cipher := rfl }
  unfold ktlsDeriveBoth
  simp only
  split_ifs
  · exact ⟨rfl, h'⟩
  obtain ⟨hres, htwins⟩ := h'.fill (K := K) (whichOf server .tx) fate.ours
  rcases hx : ktlsFill K { x with cipher := ktlsNegotiatedCipher suite } (whichOf server .tx)
    fate.ours with ⟨r, x'⟩
  rcases hy : ktlsFill K { y with cipher := ktlsNegotiatedCipher suite } (whichOf server .tx)
    fate.ours with ⟨r', y'⟩
  rw [hx, hy] at hres htwins
  obtain rfl : r = r' := hres
  cases r with
  | error e => exact ⟨rfl, htwins⟩
  | ok u => exact htwins.fill _ _

theorem noteDone {s t : Ssl} (hs : s.shape = t.shape) {a a' : HandshakeAnswer} (ha : a.Twin a') :
    Twins (Ktls.noteDone x s a) (Ktls.noteDone y t a') := by
  obtain ⟨hserver, -, -⟩ := Ssl.of_shape hs
  have hoffset := h.txOffset
  have hat : (if s.server then x.tx.offset else x.tx.offset + a.output.length) =
      if t.server then y.tx.offset else y.tx.offset + a'.output.length := by
    rw [hserver, hoffset, ha.output]
  have hrx : ((x.rxFed : ℤ) - a.input.length).toNat = ((y.rxFed : ℤ) - a'.input.length).toNat := by
    rw [h.rxFed, ha.input]
  unfold Ktls.noteDone
  rw [hat, hrx, hserver, ha.suite, ha.alpn, h.cipherName]
  generalize (if t.server then y.tx.offset else y.tx.offset + a'.output.length) = offset
  split_ifs
  · exact { h with
      done := rfl
      txAtDone := rfl
      rxAtDone := rfl
      server := rfl
      cipherName := rfl
      alpn := congrArg (memcpy · 0 a'.alpn) h.alpn
      alpnLen := rfl }
  · exact { h with done := rfl, txAtDone := rfl, rxAtDone := rfl, server := rfl, cipherName := rfl }

end Twins

/-- How decoding ends does not depend on what the buffer held. -/
theorem ktlsUnhex_result (cap : ℕ) (hex : Bytes) (n : ℕ) (out out' : Bytes) :
    (ktlsUnhex cap hex n out).1 = (ktlsUnhex cap hex n out').1 := by
  fun_induction ktlsUnhex cap hex n out generalizing out' with
  | case1 n out => rfl
  | case2 c n out hc => rw [ktlsUnhex, if_pos hc]
  | case3 c n out hc hv =>
    rw [ktlsUnhex, if_neg hc]
    simp only [hv]
  | case4 c n out hc v hv hcap =>
    rw [ktlsUnhex, if_neg hc]
    simp only [hv, if_pos hcap]
  | case5 c n out hc v hv hcap =>
    rw [ktlsUnhex, if_neg hc]
    simp only [hv, if_neg hcap]
  | case6 c d hex n out hc => rw [ktlsUnhex, if_pos hc]
  | case7 c d hex n out hc hv =>
    rw [ktlsUnhex, if_neg hc]
    simp only [hv]
  | case8 c d hex n out hc v hv hcap =>
    rw [ktlsUnhex, if_neg hc]
    simp only [hv, if_pos hcap]
  | case9 c d hex n out hc v hv hcap ih =>
    rw [ktlsUnhex, if_neg hc]
    simp only [hv, if_neg hcap]
    exact ih _

theorem slotAfter_length_snd (i : Fin 2) (line : Bytes) {s s' : Bytes × ℕ} (h : s.2 = s'.2) :
    (slotAfter i s line).2 = (slotAfter i s' line).2 := by
  unfold slotAfter
  cases (line.drop (kLabel i).length).dropWhile (· ≠ space) with
  | nil => exact h
  | cons c hex =>
    simp only
    rw [ktlsUnhex_result ktlsSecretMax hex 0 s.1 s'.1, h]

theorem KeylogLine.slotAfter_length (l : KeylogLine) {i : Fin 2} (hi : l.Names i) (s : Bytes × ℕ) :
    (Ktls.slotAfter i s l.bytes).2 = l.secret.length := by
  have hempty : emptySecret.length = ktlsSecretMax := List.length_replicate
  have hl := l.slotAfter (s := (emptySecret, s.2)) hi hempty
  have hsame : s.2 = (emptySecret, s.2).2 := rfl
  exact (slotAfter_length_snd i l.bytes hsame).trans (congrArg Prod.snd hl)

theorem TwinLines.slot {line line' : Bytes} (h : TwinLines line line') (i : Fin 2)
    {s s' : Bytes × ℕ} (hs : s.2 = s'.2) :
    (if (kLabel i).isPrefixOf line then slotAfter i s line else s).2 =
      (if (kLabel i).isPrefixOf line' then slotAfter i s' line' else s').2 := by
  cases h with
  | same =>
    split_ifs
    · exact slotAfter_length_snd i line hs
    · exact hs
  | @secret l l' hlabel hdigits =>
    have hnames : l.Names i ↔ l'.Names i := by
      rw [KeylogLine.Names, KeylogLine.Names, hlabel]
    rw [l.names_iff, l'.names_iff, decide_eq_decide.mpr hnames]
    by_cases hi : l'.Names i
    · rw [if_pos (decide_eq_true hi), if_pos (decide_eq_true hi),
        l.slotAfter_length (hnames.mpr hi), l'.slotAfter_length hi, l.length_secret,
        l'.length_secret, hdigits]
    · rw [if_neg (by simp [hi]), if_neg (by simp [hi])]
      exact hs

namespace Twins

variable (h : Twins x y)
include h

theorem keylog {line line' : Bytes} (hline : TwinLines line line') :
    Twins (ktlsKeylog x line) (ktlsKeylog y line') := by
  have hslots (i : Fin 2) :
      (ktlsKeylog x line).secretLen i = (ktlsKeylog y line').secretLen i := by
    have hx := congrArg Prod.snd (slot_ktlsKeylog x line i)
    have hy := congrArg Prod.snd (slot_ktlsKeylog y line' i)
    exact hx.trans ((hline.slot i (congrFun h.secretLen i)).trans hy.symm)
  obtain ⟨sec, len, hx⟩ := ktlsKeylog_frame x line
  obtain ⟨sec', len', hy⟩ := ktlsKeylog_frame y line'
  rw [hx, hy] at hslots ⊢
  exact { h with secretLen := funext hslots }

omit h in
theorem keylogs {lines lines' : List Bytes} (hlines : List.Forall₂ TwinLines lines lines')
    (h : Twins x y) : Twins (lines.foldl ktlsKeylog x) (lines'.foldl ktlsKeylog y) := by
  induction hlines generalizing x y with
  | nil => exact h
  | cons hline _ ih => exact ih (h.keylog hline)

omit h in
theorem withSsl {s t : Ssl} (hst : s.shape = t.shape) (h : Twins x y) :
    Twins { x with ssl := some s } { y with ssl := some t } :=
  { h with ssl := congrArg some hst }

theorem feed {bytes bytes' : Bytes} (hlen : bytes.length = bytes'.length) (written : ℤ) :
    Twins (ktlsExchangeFeed x bytes written).2 (ktlsExchangeFeed y bytes' written).2 := by
  rcases h.cases_ssl with ⟨hx, hy⟩ | ⟨s, t, hx, hy, hst⟩
  · simp only [ktlsExchangeFeed, hx, hy]
    exact h
  obtain ⟨hserver, hin, hout⟩ := Ssl.of_shape hst
  have hacc : Accepted s bytes written ↔ Accepted t bytes' written := by
    have hnil : bytes = [] ↔ bytes' = [] := by
      rw [← List.length_eq_zero_iff, ← List.length_eq_zero_iff, hlen]
    unfold Accepted bioWrite
    rw [hlen, hnil]
    split_ifs <;> rfl
  rw [ktlsExchangeFeed_exact hx, ktlsExchangeFeed_exact hy, if_congr hacc rfl rfl]
  split_ifs
  · refine { h with ssl := congrArg some (Ssl.shape_congr hserver ?_ hout), rxFed := ?_ }
    · simp only [List.length_append, List.length_take, hin, hlen]
    · exact congrArg₂ (· + ·) h.rxFed hlen
  · exact h

theorem take (cap : ℕ) : Twins (ktlsExchangeTake x cap).2 (ktlsExchangeTake y cap).2 := by
  rcases h.cases_ssl with ⟨hx, hy⟩ | ⟨s, t, hx, hy, hst⟩
  · simp only [ktlsExchangeTake, hx, hy]
    exact h
  obtain ⟨hserver, hin, hout⟩ := Ssl.of_shape hst
  obtain ⟨a, b, ha, hb, hab⟩ := h.tx
  obtain ⟨n, hn⟩ : ∃ n, (cInt cap).toNat = n := ⟨_, rfl⟩
  rw [ktlsExchangeTake_eq hx hn, ktlsExchangeTake_eq hy hn, ha, hb, ktlsScan_parsed,
    ktlsScan_parsed]
  refine { h with
    ssl := congrArg some (Ssl.shape_congr hserver hin ?_)
    tx := ⟨_, _, rfl, rfl, ?_⟩ }
  · simp only [List.length_drop, hout]
  · simp only [List.length_append, List.length_take, hab, hout]

theorem ask (np : NullPending) (dir : KtlsDirection) :
    Twins (ktlsCryptoInfo np x dir).2 (ktlsCryptoInfo np y dir).2 := by
  obtain ⟨seq, hx⟩ := ktlsCryptoInfo_frame np x dir
  obtain ⟨seq', hy⟩ := ktlsCryptoInfo_frame np y dir
  rw [hx, hy]
  exact { h with }

theorem nextKey (dir : KtlsDirection) (fate : NextKeyFate) :
    Twins (ktlsNextKey K x dir fate).2 (ktlsNextKey K y dir fate).2 := by
  by_cases hd : x.done = true
  swap
  · rw [ktlsNextKey_early hd, ktlsNextKey_early (h.done ▸ hd)]
    exact h
  rw [ktlsNextKey_eq hd, ktlsNextKey_eq (h.done ▸ hd), h.server]
  generalize whichOf y.server dir = i
  have hturn (next next' : Bytes) : Twins (x.turn i next) (y.turn i next') :=
    { h with rekeyed := by rw [KtlsExchange.turn, KtlsExchange.turn, h.rekeyed] }
  by_cases hupd : fate.upd = .derived
  · simp only [hupd, ktlsExpand]
    exact ((hturn _ _).fill i fate.fill).2
  · obtain ⟨e, he⟩ := expand_failed K (x.heldSecret i) "traffic upd" (x.secretLen i) hupd
    obtain ⟨e', he'⟩ := expand_failed K (y.heldSecret i) "traffic upd" (y.secretLen i) hupd
    rw [he, he']
    exact h

theorem backlog {a a' : ReadAnswer} (ha : a.Twin a') :
    Twins (ktlsExchangeBacklog x a).2 (ktlsExchangeBacklog y a').2 := by
  by_cases hd : x.done = true
  swap
  · rw [ktlsExchangeBacklog_early (Bool.eq_false_iff.mpr hd),
      ktlsExchangeBacklog_early (Bool.eq_false_iff.mpr (h.done ▸ hd))]
    exact h
  have hdy : y.done = true := h.done ▸ hd
  unfold ktlsExchangeBacklog
  rw [if_neg (not_not.mpr hd), if_neg (not_not.mpr hdy)]
  rcases h.cases_ssl with ⟨hx, hy⟩ | ⟨s, t, hx, hy, hst⟩
  · rw [hx, hy]
    exact h
  · obtain ⟨hserver, -, -⟩ := Ssl.of_shape hst
    rw [hx, hy]
    exact keylogs ha.keylog (h.withSsl (Ssl.shape_congr hserver ha.input ha.output))

theorem step {a a' : HandshakeAnswer} (ha : a.Twin a') (fate : DeriveFate) :
    Twins (ktlsExchangeStep K x a fate).2 (ktlsExchangeStep K y a' fate).2 := by
  rcases h.cases_ssl with ⟨hx, hy⟩ | ⟨s, t, hx, hy, hst⟩
  · simp only [ktlsExchangeStep, hx, hy]
    exact h
  by_cases hd : x.done = true
  · rw [ktlsExchangeStep_again hx hd, ktlsExchangeStep_again hy (h.done ▸ hd)]
    exact h
  have hdy : ¬ y.done = true := h.done ▸ hd
  obtain ⟨hserver, -, -⟩ := Ssl.of_shape hst
  have hssl : Ssl.shape { s with input := a.input, output := a.output } =
      Ssl.shape { t with input := a'.input, output := a'.output } :=
    Ssl.shape_congr hserver ha.input ha.output
  have hlogged := keylogs ha.keylog (h.withSsl hssl)
  unfold ktlsExchangeStep
  simp only [hx, hy, if_neg hd, if_neg hdy, ha.rc, ha.error]
  generalize a.keylog.foldl ktlsKeylog _ = x' at hlogged ⊢
  generalize a'.keylog.foldl ktlsKeylog _ = y' at hlogged ⊢
  by_cases hrc : a'.rc = 1
  swap
  · rw [if_pos hrc, if_pos hrc]
    split_ifs <;> exact hlogged
  rw [if_neg (not_not.mpr hrc), if_neg (not_not.mpr hrc), hserver, ha.suite]
  obtain ⟨hres, htwins⟩ := hlogged.deriveBoth (K := K) t.server a'.suite fate
  rcases hdx : ktlsDeriveBoth K x' t.server a'.suite fate with ⟨r, x''⟩
  rcases hdy : ktlsDeriveBoth K y' t.server a'.suite fate with ⟨r', y''⟩
  rw [hdx, hdy] at hres htwins
  obtain rfl : r = r' := hres
  cases r with
  | error e => exact htwins
  | ok u =>
    rw [hserver] at hssl
    exact htwins.noteDone hssl ha

theorem call {c c' : Call} (hc : c.Twin c') : Twins (c.after K x) (c'.after K y) := by
  cases hc with
  | feed written hlen => exact h.feed hlen written
  | step fate ha => exact h.step ha fate
  | take cap => exact h.take cap
  | backlog ha => exact h.backlog ha
  | ask np dir => exact h.ask np dir
  | nextKey dir fate => exact h.nextKey dir fate
  | release => exact { h with ssl := rfl }

end Twins

theorem twins_opened (role : KtlsRole) : Twins (ktlsExchangeOpen role) (ktlsExchangeOpen role) where
  ssl := rfl
  done := rfl
  tx := ⟨[], [], parsed_nil.symm, parsed_nil.symm, rfl⟩
  txAtDone := rfl
  rxAtDone := rfl
  rxFed := rfl
  server := rfl
  cipherName := rfl
  alpn := rfl
  alpnLen := rfl
  rekeyed := rfl
  secretLen := rfl
  cipher := rfl

theorem freed_key (h : ktlsExchangeFree x = ktlsExchangeFree y) : x.key = y.key :=
  congrArg (fun f => f.fields.key) h

theorem freed_key_released
    (h : ktlsExchangeFree (ktlsExchangeRelease x) = ktlsExchangeFree (ktlsExchangeRelease y)) :
    x.key = y.key := congrArg (fun f => f.fields.key) h

/-- What is left of twins differs in nothing but the keys and the ivs. -/
theorem Twins.free_iff (h : Twins x y) (hrx : x.rx = y.rx) (htx : x.tx = y.tx) :
    ktlsExchangeFree x = ktlsExchangeFree y ↔ x.key = y.key ∧ x.iv = y.iv := by
  refine ⟨?_, ?_⟩
  · intro heq
    exact ⟨freed_key heq, congrArg (fun f => f.fields.iv) heq⟩
  · rintro ⟨hkey, hiv⟩
    have hpointers : x.ssl.isSome = y.ssl.isSome := by
      rw [← Option.isSome_map (f := Ssl.shape), h.ssl, Option.isSome_map]
    rw [ktlsExchangeFree, ktlsExchangeFree, hpointers, h.done, htx, hrx, h.txAtDone, h.rxAtDone,
      h.rxFed, h.server, h.cipherName, h.alpn, h.alpnLen, h.rekeyed, h.secretLen, h.cipher, hkey,
      hiv]

theorem Call.Twin.derives_iff {c c' : Call} (h : c.Twin c') : c.Derives ↔ c'.Derives := by
  cases h with
  | step fate ha => rw [Derives, Derives, ha.rc]
  | feed | take | backlog | ask | nextKey | release => exact Iff.rfl

theorem keys_after {call : Call} (hno : ¬ call.Derives) :
    (call.after K x).key = x.key ∧ (call.after K x).iv = x.iv := by
  have he := Call.effect K x call
  generalize call.after K x = x' at he ⊢
  cases he with
  | idle => exact ⟨rfl, rfl⟩
  | feed | take | ask | release => exact ⟨rfl, rfl⟩
  | @step s a fate hx hd =>
    have hnd : ¬ x.done = true := by rw [hd]; decide
    obtain ⟨sec, len, hlog⟩ := foldl_ktlsKeylog_frame
      { x with ssl := some { s with input := a.input, output := a.output } } a.keylog
    have hrc : a.rc ≠ 1 := hno
    unfold ktlsExchangeStep
    simp only [hx, if_neg hnd, hlog]
    rw [if_pos hrc]
    split_ifs <;> exact ⟨rfl, rfl⟩
  | backlog hx hd =>
    obtain ⟨sec, len, hframe⟩ := ktlsExchangeBacklog_frame hx hd _
    rw [hframe]
    exact ⟨rfl, rfl⟩
  | @nextKey dir fate =>
    by_cases hd : x.done = true
    · obtain ⟨e, hexp⟩ := expand_failed K (x.heldSecret (whichOf x.server dir)) "traffic upd"
        (x.secretLen (whichOf x.server dir)) hno
      rw [ktlsNextKey_eq hd, hexp]
      exact ⟨rfl, rfl⟩
    · rw [ktlsNextKey_early hd]
      exact ⟨rfl, rfl⟩

theorem keys_run {calls : List Call} (hrun : (Call.machine K).Run x calls y)
    (hno : ∀ call ∈ calls, ¬ call.Derives) : y.key = x.key ∧ y.iv = x.iv := by
  induction hrun with
  | nil x => exact ⟨rfl, rfl⟩
  | @cons x call calls y _ _ ih =>
    obtain ⟨hcall, hcalls⟩ := List.forall_mem_cons.mp hno
    obtain ⟨hkey, hiv⟩ := keys_after (K := K) (x := x) hcall
    obtain ⟨hkey', hiv'⟩ := ih hcalls
    exact ⟨hkey'.trans hkey, hiv'.trans hiv⟩

theorem derives_twins {calls calls' : List Call} (h : List.Forall₂ Call.Twin calls calls')
    (hno : ∀ call ∈ calls, ¬ call.Derives) : ∀ call ∈ calls', ¬ call.Derives := by
  induction h with
  | nil => exact hno
  | cons hcall _ ih =>
    obtain ⟨hfirst, hrest⟩ := List.forall_mem_cons.mp hno
    exact List.forall_mem_cons.mpr ⟨fun hd => hfirst (hcall.derives_iff.mpr hd), ih hrest⟩

/-- Two runs that differ only in the secrets leave the same memory to `free` exactly when they
have the same keys and ivs, as they do while nothing has been derived. -/
theorem freed_alike_iff {role : KtlsRole} {calls calls' : List Call}
    (hx : (Call.machine K).Run (ktlsExchangeOpen role) calls x)
    (hy : (Call.machine K).Run (ktlsExchangeOpen role) calls' y)
    (hcalls : List.Forall₂ Call.Twin calls calls')
    (hlayout : ∀ dir, recordLayout (Call.stream K dir (ktlsExchangeOpen role) calls) =
      recordLayout (Call.stream K dir (ktlsExchangeOpen role) calls')) :
    (ktlsExchangeFree x = ktlsExchangeFree y ↔ x.key = y.key ∧ x.iv = y.iv) ∧
    ((∀ call ∈ calls, ¬ call.Derives) → ktlsExchangeFree x = ktlsExchangeFree y) := by
  have htwins : Twins x y :=
    hx.related (fun _ _ _ _ h hc => h.call hc) hy hcalls (twins_opened role)
  obtain ⟨hxrx, hxtx⟩ := records_stream hx parsed_nil.symm parsed_nil.symm
  obtain ⟨hyrx, hytx⟩ := records_stream hy parsed_nil.symm parsed_nil.symm
  have hiff := htwins.free_iff (hxrx.trans ((parsed_congr (hlayout .rx)).trans hyrx.symm))
    (hxtx.trans ((parsed_congr (hlayout .tx)).trans hytx.symm))
  refine ⟨hiff, fun hno => hiff.mpr ?_⟩
  obtain ⟨hkey, hiv⟩ := keys_run hx hno
  obtain ⟨hkey', hiv'⟩ := keys_run hy (derives_twins hcalls hno)
  exact ⟨hkey.trans hkey'.symm, hiv.trans hiv'.symm⟩

theorem TwinLines.line {T T' : Tls} {i : Fin 2}
    (h : (T.secret i).length = (T'.secret i).length) : TwinLines (T.line i) (T'.line i) := by
  rw [← T.keylogLine_bytes, ← T'.keylogLine_bytes]
  refine .secret rfl ?_
  change (hexOf (T.secret i)).length = (hexOf (T'.secret i)).length
  rw [length_hexOf, length_hexOf, h]

section

open Session

/-- The sample connection with its two secrets swapped. -/
def swappedTls : Tls :=
  { sampleTls true with
    secret := fun i => sampleSecret (1 - i)
    secret_fits := by decide }

/-- What a server answers a hello with, both secrets logged. -/
def serverFlight (T : Tls) : HandshakeAnswer :=
  { serverWaits with keylog := [T.line 0, T.line 1] }

/-- A server up to its handover. -/
def servedBy (T : Tls) : List Call :=
  [.feed helloRecord 95,
   .step (serverFlight T) {},
   .take 1000,
   .feed (sealedRecord 53) 58,
   .step { sampleDone true (sealedRecord 80 ++ sealedRecord 80) with keylog := [] } {},
   .take 1000]

theorem serverFlight_twin : (serverFlight (sampleTls true)).Twin (serverFlight swappedTls) where
  rc := rfl
  error := rfl
  input := rfl
  output := rfl
  keylog := .cons (.line rfl) (.cons (.line rfl) .nil)
  suite := rfl
  alpn := rfl

theorem servedBy_twins :
    List.Forall₂ Call.Twin (servedBy (sampleTls true)) (servedBy swappedTls) :=
  .cons (.feed _ rfl) (.cons (.step _ serverFlight_twin) (.cons (.take _) (.cons (.feed _ rfl)
    (.cons (.step _ ⟨rfl, rfl, rfl, rfl, .nil, rfl, rfl⟩) (.cons (.take _) .nil)))))

/-- Both servers are freed, one after its release and one without: the key the first has sent
with is in the memory, and so is everything that tells the two apart. -/
theorem freed_keys :
    (Call.machine sampleKdf).Run (ktlsExchangeOpen .server) (servedBy (sampleTls true))
      (sampleCalled (servedBy (sampleTls true))) ∧
    (Call.machine sampleKdf).Run (ktlsExchangeOpen .server) (servedBy swappedTls)
      (sampleCalled (servedBy swappedTls)) ∧
    List.Forall₂ Call.Twin (servedBy (sampleTls true)) (servedBy swappedTls) ∧
    (∀ dir, recordLayout (Call.stream sampleKdf dir (ktlsExchangeOpen .server)
        (servedBy (sampleTls true))) =
      recordLayout (Call.stream sampleKdf dir (ktlsExchangeOpen .server) (servedBy swappedTls))) ∧
    ((ktlsExchangeFree (sampleCalled (servedBy (sampleTls true)))).fields.key 1).take 16 =
      sampleKdf.expand (sampleSecret 1) "key" 16 ∧
    ktlsExchangeFree (sampleCalled (servedBy (sampleTls true))) ≠
      ktlsExchangeFree (sampleCalled (servedBy swappedTls)) ∧
    ktlsExchangeFree (ktlsExchangeRelease (sampleCalled (servedBy (sampleTls true)))) ≠
      ktlsExchangeFree (ktlsExchangeRelease (sampleCalled (servedBy swappedTls))) := by
  have hkey : (sampleCalled (servedBy (sampleTls true))).key 1 ≠
      (sampleCalled (servedBy swappedTls)).key 1 := by decide +kernel
  refine ⟨Machine.Run.of_check (by decide +kernel), Machine.Run.of_check (by decide +kernel),
    servedBy_twins, ?_, by decide +kernel, ?_, ?_⟩
  · intro dir
    cases dir with
    | tx => decide +kernel
    | rx => decide +kernel
  · intro h
    exact hkey (congrFun (freed_key h) 1)
  · intro h
    exact hkey (congrFun (freed_key_released h) 1)

/-- With the secrets logged and nothing derived from them, nothing of them is left. -/
theorem freed_alike_sample :
    ktlsExchangeFree (sampleCalled ((servedBy (sampleTls true)).take 2)) =
      ktlsExchangeFree (sampleCalled ((servedBy swappedTls).take 2)) := by
  have hx : (Call.machine sampleKdf).Run (ktlsExchangeOpen .server)
      ((servedBy (sampleTls true)).take 2) (sampleCalled ((servedBy (sampleTls true)).take 2)) :=
    Machine.Run.of_check (by decide +kernel)
  have hy : (Call.machine sampleKdf).Run (ktlsExchangeOpen .server) ((servedBy swappedTls).take 2)
      (sampleCalled ((servedBy swappedTls).take 2)) := Machine.Run.of_check (by decide +kernel)
  refine (freed_alike_iff hx hy (List.forall₂_take 2 servedBy_twins) ?_).2 (by decide +kernel)
  intro dir
  cases dir with
  | tx => decide +kernel
  | rx => decide +kernel

end

end Ktls
