import Ktls.Model.Records

/-! The streaming scanner against a parse of the whole stream. `parsed b` is the
scanner state that the bytes `b` determine; scanning more bytes from it gives the
state of the longer stream, so nothing depends on where the stream was cut. -/

namespace Ktls

open Framing

/-- The header bytes left in the buffer by the last whole record. -/
def lastHead (fs : List Bytes) : Bytes := (fs.getLast?.map (·.take 5)).getD (List.replicate 5 0)

/-- The scanner after the whole records `fs` and the unfinished record `r`. -/
def scanned (fs : List Bytes) (r : Bytes) : KtlsRecords where
  offset := fs.flatten.length + r.length
  bodyLeft := if r.length < 5 then 0 else tlsRecord.width r - r.length
  head := r.take 5 ++ (lastHead fs).drop r.length
  headLen := if r.length < 5 then r.length else 0
  ends := (cuts 0 fs).take 64 ++ List.replicate (64 - fs.length) 0
  count := min 64 fs.length
  overflowed := decide (64 < fs.length)

/-- One parse of the whole stream. -/
def parsed (b : Bytes) : KtlsRecords := scanned (tlsRecord.frames b) (tlsRecord.rest b)

theorem parsed_nil : parsed [] = {} := rfl

theorem length_lastHead {fs : List Bytes} (h : ∀ f ∈ fs, tlsRecord.IsFrame f) :
    (lastHead fs).length = 5 := by
  unfold lastHead
  cases hl : fs.getLast? with
  | none => rfl
  | some f =>
    have hf : 5 ≤ f.length := (h f (List.mem_of_getLast? hl)).1
    simp [hf]

theorem lastHead_concat (fs : List Bytes) (f : Bytes) : lastHead (fs ++ [f]) = f.take 5 := by
  simp [lastHead]

/-- The shift and the or of the C read the big-endian length. -/
theorem announced_eq (r : KtlsRecords) : r.announced = tlsRecord.body r.head := by
  have hlt : (r.head.getD 4 0).toNat < 2 ^ 8 := UInt8.toNat_lt _
  rw [KtlsRecords.announced, ← Nat.shiftLeft_add_eq_or_of_lt hlt, Nat.shiftLeft_eq,
    Nat.mul_comm]
  rfl

theorem cuts_concat (fs : List Bytes) (f : Bytes) :
    cuts 0 (fs ++ [f]) = cuts 0 fs ++ [fs.flatten.length + f.length] := by
  rw [cuts_append, cuts, cuts, Nat.zero_add]

theorem table_set {l : List ℕ} (e : ℕ) (h : l.length < 64) :
    (l.take 64 ++ List.replicate (64 - l.length) 0).set l.length e =
      (l ++ [e]).take 64 ++ List.replicate (64 - (l ++ [e]).length) 0 := by
  have hz : 64 - l.length = (64 - (l ++ [e]).length) + 1 := by
    rw [List.length_append, List.length_singleton]; omega
  have hl : (l ++ [e]).length ≤ 64 := by
    rw [List.length_append, List.length_singleton]; omega
  rw [List.take_of_length_le h.le, List.take_of_length_le hl, hz, List.replicate_succ,
    List.set_append_right _ _ le_rfl, Nat.sub_self, List.set_cons_zero, List.append_assoc,
    List.singleton_append]

/-- Noting the end of the record `f` is the step from `fs` to `fs ++ [f]`. -/
theorem noteEnd_scanned (fs : List Bytes) (f : Bytes) :
    { scanned fs [] with
      offset := fs.flatten.length + f.length
      head := f.take 5 : KtlsRecords }.noteEnd = scanned (fs ++ [f]) [] := by
  have hlen : (fs ++ [f]).length = fs.length + 1 := by simp
  have hoffset : fs.flatten.length + f.length = (scanned (fs ++ [f]) []).offset := by
    simp [scanned]
  have hhead : f.take 5 = (scanned (fs ++ [f]) []).head := (lastHead_concat fs f).symm
  by_cases hc : fs.length < 64
  · have hm : min 64 fs.length = fs.length := Nat.min_eq_right hc.le
    have htable := table_set (l := cuts 0 fs) (fs.flatten.length + f.length)
      (by rwa [length_cuts])
    rw [← cuts_concat, length_cuts, length_cuts] at htable
    have hroom : min 64 fs.length < 64 := by rwa [hm]
    refine (KtlsRecords.noteEnd_room hroom).trans
      (KtlsRecords.ext hoffset rfl hhead rfl ?_ ?_ ?_)
    · change List.set _ (min 64 fs.length) _ = _
      rw [hm]
      exact htable
    · change min 64 fs.length + 1 = min 64 (fs ++ [f]).length
      omega
    · change decide (64 < fs.length) = decide (64 < (fs ++ [f]).length)
      exact decide_eq_decide.mpr (by omega)
  · have hm : min 64 fs.length = 64 := Nat.min_eq_left (not_lt.mp hc)
    have hfull : ¬ min 64 fs.length < 64 := by omega
    refine (KtlsRecords.noteEnd_full hfull).trans
      (KtlsRecords.ext hoffset rfl hhead rfl ?_ ?_ ?_)
    · have htake : (cuts 0 (fs ++ [f])).take 64 = (cuts 0 fs).take 64 := by
        rw [cuts_concat, List.take_append_of_le_length (by rw [length_cuts]; omega)]
      change (cuts 0 fs).take 64 ++ List.replicate (64 - fs.length) 0 =
        (cuts 0 (fs ++ [f])).take 64 ++ List.replicate (64 - (fs ++ [f]).length) 0
      rw [htake, show 64 - fs.length = 64 - (fs ++ [f]).length by omega]
    · change min 64 fs.length = min 64 (fs ++ [f]).length
      omega
    · change true = decide (64 < (fs ++ [f]).length)
      exact (decide_eq_true (by omega)).symm

theorem head_memcpy {r s L : Bytes} (h : r.length + s.length ≤ 5) :
    memcpy (r.take 5 ++ L.drop r.length) r.length s =
      (r ++ s).take 5 ++ L.drop (r ++ s).length := by
  have hr : r.take 5 = r := List.take_of_length_le (by omega)
  have hrs : (r ++ s).take 5 = r ++ s := List.take_of_length_le (by simpa using h)
  rw [memcpy, hr, hrs, List.take_left, ← List.drop_drop, List.drop_left, List.drop_drop,
    List.length_append]

/-- A turn of the loop inside a header: it stays a header, or announces a body,
or is a record with no body at all. -/
theorem scanLoop_header {fs : List Bytes} {r p : Bytes} (n got : ℕ)
    (hfs : ∀ f ∈ fs, tlsRecord.IsFrame f) (hp : p.length ≠ 0) (h5 : r.length < 5)
    (hgot : got = min p.length (5 - r.length)) :
    scanLoop (n + 1) (scanned fs r) p =
      if r.length + got < 5 then scanned fs (r ++ p)
      else if tlsRecord.body (r ++ p.take got) = 0 then
        scanLoop n (scanned (fs ++ [r ++ p.take got]) []) (p.drop got)
      else scanLoop n (scanned fs (r ++ p.take got)) (p.drop got) := by
  have htake : (p.take got).length = got := by rw [List.length_take]; omega
  have hbody : (scanned fs r).bodyLeft = 0 := if_pos h5
  have hheadLen : (scanned fs r).headLen = r.length := if_pos h5
  have hlen : (r ++ p.take got).length = r.length + got := by rw [List.length_append, htake]
  have hhead : memcpy (scanned fs r).head r.length (p.take got) =
      (r ++ p.take got).take 5 ++ (lastHead fs).drop (r.length + got) :=
    hlen ▸ head_memcpy (by omega)
  rw [scanLoop, if_neg hp, if_pos hbody]
  simp only [hheadLen, ← hgot, hhead]
  by_cases hshort : r.length + got < 5
  · have hall : p.take got = p := List.take_of_length_le (by omega)
    have hrp : (r ++ p).length < 5 := by rw [← hall, hlen]; exact hshort
    have hgp : got = p.length := by omega
    rw [if_pos hshort, if_pos hshort, hall]
    refine KtlsRecords.ext ?_ ?_ ?_ ?_ rfl rfl rfl
    · simp [scanned, hgp, Nat.add_assoc]
    · simp only [scanned, if_pos hrp, if_pos h5]
    · simp [scanned, hgp]
    · rw [hgp, ← List.length_append]
      exact (if_pos hrp).symm
  · generalize hh : r ++ p.take got = h at hlen hhead ⊢
    have hh5 : h.length = 5 := by omega
    have hhead5 : h.take 5 ++ (lastHead fs).drop (r.length + got) = h := by
      rw [List.take_of_length_le hh5.le, List.drop_eq_nil_of_le, List.append_nil]
      rw [length_lastHead hfs]
      omega
    have hoffset : (scanned fs r).offset + got = fs.flatten.length + h.length := by
      change fs.flatten.length + r.length + got = _
      omega
    rw [if_neg hshort, if_neg hshort]
    simp only [announced_eq, hhead5, hoffset]
    by_cases hb : tlsRecord.body h = 0
    · rw [if_pos hb, if_pos hb, ← noteEnd_scanned]
      congr 2
      exact KtlsRecords.ext rfl hb (List.take_of_length_le hh5.le).symm rfl rfl rfl rfl
    · rw [if_neg hb, if_neg hb]
      congr 1
      refine KtlsRecords.ext rfl ?_ ?_ ?_ rfl rfl rfl
      · change _ = if h.length < 5 then 0 else tlsRecord.width h - h.length
        rw [if_neg (by omega), Framing.width, hh5]
        change _ = 5 + tlsRecord.body (h.take 5) - 5
        rw [List.take_of_length_le hh5.le, Nat.add_sub_cancel_left]
      · exact hhead5.symm.trans (by rw [← hlen]; rfl)
      · exact (if_neg (by omega)).symm

/-- A turn of the loop inside a body: it goes on, or its record ends here. -/
theorem scanLoop_body {fs : List Bytes} {r p : Bytes} (n got : ℕ)
    (hfs : ∀ f ∈ fs, tlsRecord.IsFrame f) (hp : p.length ≠ 0) (h5 : 5 ≤ r.length)
    (hr : r.length < tlsRecord.width r)
    (hgot : got = min p.length (tlsRecord.width r - r.length)) :
    scanLoop (n + 1) (scanned fs r) p =
      if r.length + got < tlsRecord.width r then scanLoop n (scanned fs (r ++ p.take got)) []
      else scanLoop n (scanned (fs ++ [r ++ p.take got]) []) (p.drop got) := by
  have htake : (p.take got).length = got := by rw [List.length_take]; omega
  have hbody : (scanned fs r).bodyLeft = tlsRecord.width r - r.length := if_neg (by omega)
  have hlen : (r ++ p.take got).length = r.length + got := by rw [List.length_append, htake]
  have hw : tlsRecord.width (r ++ p.take got) = tlsRecord.width r :=
    tlsRecord.width_append h5 _
  have hhead : r.take 5 ++ (lastHead fs).drop r.length = (r ++ p.take got).take 5 := by
    rw [List.take_append_of_le_length h5, List.drop_eq_nil_of_le, List.append_nil]
    rw [length_lastHead hfs]
    exact h5
  rw [scanLoop, if_neg hp, if_neg (by omega)]
  simp only [hbody, ← hgot]
  generalize hh : r ++ p.take got = h at hlen hw hhead ⊢
  have hoffset : (scanned fs r).offset + got = fs.flatten.length + h.length := by
    change fs.flatten.length + r.length + got = _
    omega
  by_cases hshort : r.length + got < tlsRecord.width r
  · have hdrop : p.drop got = [] := List.drop_eq_nil_of_le (by omega)
    have hleft : ¬ tlsRecord.width r - r.length - got = 0 := by omega
    rw [if_neg hleft, if_pos hshort, hdrop, hoffset]
    congr 1
    refine KtlsRecords.ext rfl ?_ ?_ ?_ rfl rfl rfl
    · change tlsRecord.width r - r.length - got =
        if h.length < 5 then 0 else tlsRecord.width h - h.length
      rw [if_neg (by omega), hw]
      omega
    · change r.take 5 ++ (lastHead fs).drop r.length = h.take 5 ++ (lastHead fs).drop h.length
      rw [hhead, List.drop_eq_nil_of_le, List.append_nil]
      rw [length_lastHead hfs]
      omega
    · exact (if_neg (by omega)).trans (if_neg (by omega)).symm
  · rw [if_pos (by omega), if_neg hshort, hoffset, ← noteEnd_scanned]
    congr 2
    refine KtlsRecords.ext rfl ?_ hhead (if_neg (by omega)) rfl rfl rfl
    change tlsRecord.width r - r.length - got = 0
    omega

/-- Either kind of turn ends a record or leaves a longer unfinished one. -/
theorem scanLoop_turn {fs : List Bytes} {r p : Bytes} (n : ℕ)
    (hfs : ∀ f ∈ fs, tlsRecord.IsFrame f) (hr : ¬ tlsRecord.Whole r) (hp : p.length ≠ 0) :
    ∃ got, 0 < got ∧
      ((tlsRecord.IsFrame (r ++ p.take got) ∧ scanLoop (n + 1) (scanned fs r) p =
          scanLoop n (scanned (fs ++ [r ++ p.take got]) []) (p.drop got)) ∨
        (¬ tlsRecord.Whole (r ++ p.take got) ∧ scanLoop (n + 1) (scanned fs r) p =
          scanLoop n (scanned fs (r ++ p.take got)) (p.drop got))) := by
  have hadd (got : ℕ) (hgot : got ≤ p.length) : (r ++ p.take got).length = r.length + got := by
    rw [List.length_append, List.length_take_of_le hgot]
  by_cases h5 : r.length < 5
  · obtain ⟨got, hgot⟩ : ∃ got, got = min p.length (5 - r.length) := ⟨_, rfl⟩
    have hlen := hadd got (by omega)
    refine ⟨got, by omega, ?_⟩
    rw [scanLoop_header n got hfs hp h5 hgot]
    split_ifs with hshort hb
    · have hall : p.take got = p := List.take_of_length_le (by omega)
      have hdrop : p.drop got = [] := List.drop_eq_nil_of_le (by omega)
      refine .inr ⟨fun h => absurd h.1 (by change ¬ 5 ≤ _; omega), ?_⟩
      rw [hall, hdrop, scanLoop_nil]
    · refine .inl ⟨⟨by change 5 ≤ _; omega, ?_⟩, rfl⟩
      rw [Framing.width, List.take_of_length_le (by change _ ≤ 5; omega), hb]
      change 5 + 0 = _
      omega
    · refine .inr ⟨fun h => hb ?_, rfl⟩
      have hw := h.2
      rw [Framing.width, List.take_of_length_le (by change _ ≤ 5; omega)] at hw
      change 5 + _ ≤ _ at hw
      omega
  · have hw : r.length < tlsRecord.width r := not_le.mp fun h => hr ⟨not_lt.mp h5, h⟩
    obtain ⟨got, hgot⟩ : ∃ got, got = min p.length (tlsRecord.width r - r.length) := ⟨_, rfl⟩
    have hlen := hadd got (by omega)
    have hwidth := tlsRecord.width_append (not_lt.mp h5) (p.take got)
    refine ⟨got, by omega, ?_⟩
    rw [scanLoop_body n got hfs hp (not_lt.mp h5) hw hgot]
    split_ifs with hshort
    · have hdrop : p.drop got = [] := List.drop_eq_nil_of_le (by omega)
      rw [hdrop]
      exact .inr ⟨fun h => absurd h.2 (by omega), rfl⟩
    · exact .inl ⟨⟨by change 5 ≤ _; omega, by omega⟩, rfl⟩

/-- The whole loop: the records that end in `p` are added, the rest is carried. -/
theorem scanLoop_scanned {fs : List Bytes} {r p : Bytes} (n : ℕ)
    (hfs : ∀ f ∈ fs, tlsRecord.IsFrame f) (hr : ¬ tlsRecord.Whole r) (hn : p.length ≤ n) :
    scanLoop n (scanned fs r) p =
      scanned (fs ++ tlsRecord.frames (r ++ p)) (tlsRecord.rest (r ++ p)) := by
  induction n generalizing fs r p with
  | zero =>
    obtain rfl : p = [] := List.length_eq_zero_iff.mp (by omega)
    rw [List.append_nil, tlsRecord.frames_stop hr, tlsRecord.rest_stop hr, List.append_nil,
      scanLoop_nil]
  | succ n ih =>
    by_cases hp : p.length = 0
    · obtain rfl : p = [] := List.length_eq_zero_iff.mp hp
      rw [List.append_nil, tlsRecord.frames_stop hr, tlsRecord.rest_stop hr, List.append_nil,
        scanLoop_nil]
    obtain ⟨got, hgot, hturn⟩ := scanLoop_turn n hfs hr hp
    have hless : (p.drop got).length ≤ n := by
      rw [List.length_drop]
      omega
    rcases hturn with ⟨hf, hends⟩ | ⟨hno, hgoes⟩
    · have hsplit : r ++ p = (r ++ p.take got) ++ p.drop got := by
        rw [List.append_assoc, List.take_append_drop]
      have hfs' : ∀ f ∈ fs ++ [r ++ p.take got], tlsRecord.IsFrame f := by
        simpa [or_imp, forall_and] using ⟨hfs, hf⟩
      rw [hends, ih hfs' tlsRecord.not_whole_nil hless, List.nil_append, hsplit,
        tlsRecord.frames_cons hf, tlsRecord.rest_cons hf, List.append_assoc, List.singleton_append]
    · rw [hgoes, ih hfs hno hless, List.append_assoc, List.take_append_drop]

/-- Scanning more of a stream is parsing more of it. -/
theorem ktlsScan_parsed (b p : Bytes) : ktlsScan (parsed b) p = parsed (b ++ p) := by
  rw [ktlsScan, parsed, scanLoop_scanned p.length (tlsRecord.isFrame_of_mem b)
    (tlsRecord.not_whole_rest b) le_rfl, ← tlsRecord.frames_append, ← tlsRecord.rest_append,
    parsed]

theorem foldl_ktlsScan (b : Bytes) (chunks : List Bytes) :
    chunks.foldl ktlsScan (parsed b) = parsed (b ++ chunks.flatten) := by
  induction chunks generalizing b with
  | nil => rw [List.foldl_nil, List.flatten_nil, List.append_nil]
  | cons c chunks ih =>
    rw [List.foldl_cons, ktlsScan_parsed, ih, List.flatten_cons, List.append_assoc]

/-- What a scanner holds of the unfinished record `t`: its first header bytes, or
all of its header and how much of the body is to come. -/
def Unfinished (r : KtlsRecords) (t : Bytes) : Prop :=
  (t.length < 5 ∧ r.bodyLeft = 0 ∧ r.headLen = t.length ∧ r.head.take r.headLen = t) ∨
  (5 ≤ t.length ∧ r.headLen = 0 ∧ r.head = t.take 5 ∧ 0 < r.bodyLeft ∧
    t.length + r.bodyLeft = tlsRecord.width t)

theorem unfinished_parsed (b : Bytes) : Unfinished (parsed b) (tlsRecord.rest b) := by
  have hr := tlsRecord.not_whole_rest b
  have hL := length_lastHead (tlsRecord.isFrame_of_mem b)
  generalize ht : tlsRecord.rest b = t at hr
  by_cases h5 : t.length < 5
  · refine .inl ⟨h5, ?_, ?_, ?_⟩
    · simp only [parsed, scanned, ht, if_pos h5]
    · simp only [parsed, scanned, ht, if_pos h5]
    · simp only [parsed, scanned, ht, if_pos h5]
      rw [List.take_of_length_le h5.le, List.take_left]
  · have hw : t.length < tlsRecord.width t := not_le.mp fun h => hr ⟨not_lt.mp h5, h⟩
    refine .inr ⟨not_lt.mp h5, ?_, ?_, ?_, ?_⟩
    · simp only [parsed, scanned, ht, if_neg h5]
    · simp only [parsed, scanned, ht]
      rw [List.drop_eq_nil_of_le (by omega), List.append_nil]
    · simp only [parsed, scanned, ht, if_neg h5]
      omega
    · simp only [parsed, scanned, ht, if_neg h5]
      omega

@[simp] theorem offset_parsed (b : Bytes) : (parsed b).offset = b.length := by
  have h := congrArg List.length (tlsRecord.flatten_frames b)
  rwa [List.length_append] at h

theorem ends_parsed (b : Bytes) :
    (parsed b).ends.take (parsed b).count = (cuts 0 (tlsRecord.frames b)).take 64 := by
  have hl : ((cuts 0 (tlsRecord.frames b)).take 64).length = (parsed b).count := by
    rw [List.length_take, length_cuts]; rfl
  exact List.take_left' hl

theorem overflowed_parsed (b : Bytes) :
    (parsed b).overflowed = true ↔ 64 < (tlsRecord.frames b).length := decide_eq_true_iff

theorem width_le (f : Bytes) : tlsRecord.width f ≤ 65540 := by
  have h3 : ((f.take 5).getD 3 0).toNat < 256 := UInt8.toNat_lt _
  have h4 : ((f.take 5).getD 4 0).toNat < 256 := UInt8.toNat_lt _
  change 5 + (256 * ((f.take 5).getD 3 0).toNat + ((f.take 5).getD 4 0).toNat) ≤ 65540
  omega

theorem length_records_le {fs : List Bytes} (hf : ∀ f ∈ fs, tlsRecord.IsFrame f) :
    fs.flatten.length ≤ 65540 * fs.length := by
  induction fs with
  | nil => simp
  | cons f fs ih =>
    have hle : f.length ≤ 65540 := (hf f (by simp)).2 ▸ width_le f
    have hrest := ih fun g hg => hf g (by simp [hg])
    rw [List.flatten_cons, List.length_append, List.length_cons]
    omega

/-- More bytes than an `int` counts hold more records than the table. -/
theorem overflowed_of_long {b : Bytes} (h : 2 ^ 31 ≤ b.length) : (parsed b).overflowed = true := by
  have hlen := congrArg List.length (tlsRecord.flatten_frames b)
  have hframes := length_records_le (tlsRecord.isFrame_of_mem b)
  have hrest : (tlsRecord.rest b).length < 65540 := by
    by_contra hge
    have hw := width_le (tlsRecord.rest b)
    exact tlsRecord.not_whole_rest b ⟨by change 5 ≤ _; omega, by omega⟩
  rw [List.length_append] at hlen
  rw [overflowed_parsed]
  omega

theorem KtlsRecords.overflowed_noteEnd {r : KtlsRecords} (h : r.overflowed = true) :
    r.noteEnd.overflowed = true := by
  unfold KtlsRecords.noteEnd
  split_ifs
  · exact h
  · rfl

theorem scanLoop_overflowed (n : ℕ) {r : KtlsRecords} (p : Bytes) (h : r.overflowed = true) :
    (scanLoop n r p).overflowed = true := by
  induction n generalizing r p with
  | zero => exact h
  | succ n ih =>
    rw [scanLoop]
    simp only
    by_cases hp : p.length = 0
    · rwa [if_pos hp]
    rw [if_neg hp]
    by_cases hbody : r.bodyLeft = 0
    · rw [if_pos hbody]
      split_ifs
      · exact h
      · exact ih _ (KtlsRecords.overflowed_noteEnd h)
      · exact ih _ h
    · rw [if_neg hbody]
      refine ih _ ?_
      split_ifs
      · exact KtlsRecords.overflowed_noteEnd h
      · exact h

theorem ktlsScan_overflowed {r : KtlsRecords} (p : Bytes) (h : r.overflowed = true) :
    (ktlsScan r p).overflowed = true := scanLoop_overflowed _ p h

/-- A stream scanned in pieces, however it was cut, ends in the state that one
parse of the whole stream describes. -/
theorem ktlsScan_whole_stream (chunks : List Bytes) :
    let b := chunks.flatten
    let r := chunks.foldl ktlsScan {}
    r.offset = b.length ∧
    r.ends.take r.count = (cuts 0 (tlsRecord.frames b)).take 64 ∧
    (r.ends.take r.count).Pairwise (· < ·) ∧
    r.count = min 64 (tlsRecord.frames b).length ∧
    (r.overflowed = true ↔ 64 < (tlsRecord.frames b).length) ∧
    Unfinished r (tlsRecord.rest b) ∧
    ∀ chunks' : List Bytes, chunks'.flatten = b → chunks'.foldl ktlsScan {} = r := by
  intro b r
  have hr : r = parsed b := foldl_ktlsScan [] chunks
  refine ⟨?_, ?_, ?_, ?_, ?_, ?_, ?_⟩
  · rw [hr, offset_parsed]
  · rw [hr, ends_parsed]
  · rw [hr, ends_parsed]
    exact (tlsRecord.pairwise_cuts (tlsRecord.isFrame_of_mem b)).sublist (List.take_sublist _ _)
  · rw [hr]; rfl
  · rw [hr, overflowed_parsed]
  · rw [hr]; exact unfinished_parsed b
  · intro chunks' h'
    rw [hr, ← h']
    exact foldl_ktlsScan [] chunks'

/-- While the table holds every end, the count over `(after, upto]` is the
difference of two parses. -/
theorem ktlsRecordsBetween_parsed {b : Bytes} {after upto : ℕ}
    (h64 : (tlsRecord.frames b).length ≤ 64) (h : after ≤ upto) :
    ktlsRecordsBetween (parsed b) after upto + (tlsRecord.frames (b.take after)).length =
      (tlsRecord.frames (b.take upto)).length := by
  rw [ktlsRecordsBetween, ends_parsed, List.take_of_length_le (by rwa [length_cuts]),
    ← tlsRecord.countP_cuts_le, ← tlsRecord.countP_cuts_le, countP_between _ h]

end Ktls
