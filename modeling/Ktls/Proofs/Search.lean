import Ktls.Lib.Window
import Ktls.Model.Search

/-! The search finds a word wherever it lies in a file, however `read` cuts it up. -/

namespace Ktls

variable {want buf : Bytes} {held : ℕ}

theorem sizeSub_of_le {a b : ℕ} (hle : b ≤ a) (ha : a ≤ searchBuffer) : sizeSub a b = a - b := by
  have hmod : ((a : ℤ) - b) % 2 ^ 64 = a - b := by
    have hsize : searchBuffer = 4096 := rfl
    refine Int.emod_eq_of_lt (by omega) ?_
    have h64 : (2 : ℤ) ^ 64 = 18446744073709551616 := by norm_num
    omega
  rw [sizeSub, hmod]
  omega

/-- The inner loop finds the first place at which the word stands, from `i` on. -/
theorem searchFrom_spec (hw : want ≠ []) {m : ℕ} (hm : m ≤ buf.length) (hlen : want.length ≤ m)
    {fuel i : ℕ} (hi : i ≤ m - want.length + 1) (hfuel : buf.length + 2 ≤ fuel + i) :
    ∃ b, searchFrom want buf (m - want.length) fuel i = .returned b ∧
      (b = true ↔ ∃ k, i ≤ k ∧ k ≤ m - want.length ∧ want <+: buf.drop k) := by
  have hpos := List.length_pos_iff.mpr hw
  induction fuel generalizing i with
  | zero => omega
  | succ fuel ih =>
    rw [searchFrom]
    by_cases hlast : i ≤ m - want.length
    swap
    · rw [if_neg hlast]
      refine ⟨false, rfl, iff_of_false (by decide) ?_⟩
      rintro ⟨k, hik, hk, -⟩
      omega
    rw [if_pos hlast, dif_pos (by omega)]
    -- a place that is not this one is a later one
    have later (hno : ¬ want <+: buf.drop i) :
        ∃ b, searchFrom want buf (m - want.length) fuel (i + 1) = .returned b ∧
          (b = true ↔ ∃ k, i ≤ k ∧ k ≤ m - want.length ∧ want <+: buf.drop k) := by
      obtain ⟨b, hb, hiff⟩ := ih (i := i + 1) (by omega) (by omega)
      refine ⟨b, hb, hiff.trans ⟨?_, ?_⟩⟩
      · rintro ⟨k, hik, hk, hat⟩
        exact ⟨k, by omega, hk, hat⟩
      · rintro ⟨k, hik, hk, hat⟩
        have hne : k ≠ i := fun h => hno (h ▸ hat)
        exact ⟨k, by omega, hk, hat⟩
    have hcmp : memcmpAt buf i want 0 want.length =
        some (decide ((buf.drop i).take want.length = want)) := by
      rw [memcmpAt, if_pos (by omega), List.drop_zero, List.take_length]
    have hdrop : buf.drop i = buf[i] :: buf.drop (i + 1) := List.drop_eq_getElem_cons (by omega)
    split_ifs with hhead
    · rw [hcmp]
      by_cases hat : want <+: buf.drop i
      · rw [decide_eq_true (List.prefix_iff_eq_take.mp hat).symm]
        exact ⟨true, rfl, iff_of_true rfl ⟨i, le_rfl, hlast, hat⟩⟩
      · rw [decide_eq_false fun h => hat (List.prefix_iff_eq_take.mpr h.symm)]
        exact later hat
    · refine later fun hat => hhead ?_
      obtain ⟨c, t, rfl⟩ := List.exists_cons_of_ne_nil hw
      rw [hdrop, List.cons_prefix_cons] at hat
      exact hat.1.symm

/-- The inner loop looks through the first `m` bytes of the buffer. -/
theorem searchFrom_eq (hw : want ≠ []) {m : ℕ} (hm : m ≤ buf.length) (hlen : want.length ≤ m) :
    searchFrom want buf (m - want.length) (buf.length + 2) 0 =
      .returned (decide (want <:+: buf.take m)) := by
  obtain ⟨b, hb, hiff⟩ := searchFrom_spec hw hm hlen (Nat.zero_le _) (Nat.le_refl _)
  have hin : want <:+: buf.take m ↔ ∃ k, 0 ≤ k ∧ k ≤ m - want.length ∧ want <+: buf.drop k := by
    rw [Window.infix_iff_prefix_drop, List.length_take_of_le hm]
    refine exists_congr fun k => ?_
    rw [List.drop_take, List.prefix_take_iff]
    refine ⟨fun h => ⟨Nat.zero_le k, h.1, h.2.1⟩, fun h => ⟨h.2.1, h.2.2, by omega⟩⟩
  rw [hb]
  congr 1
  rw [Bool.eq_iff_iff, hiff, decide_eq_true_iff, hin]

/-- A buffer with fewer bytes than the word has is not searched at all. -/
theorem searchTurn_found (hw : want ≠ []) {m : ℕ} (hm : m ≤ buf.length)
    (hbuf : buf.length = searchBuffer) :
    (if want.length ≤ m then searchFrom want buf (sizeSub m want.length) (buf.length + 2) 0
      else .returned false) = .returned (decide (want <:+: buf.take m)) := by
  split_ifs with hle
  · rw [sizeSub_of_le hle (by omega), searchFrom_eq hw hm hle]
  · rw [decide_eq_false]
    intro hin
    have hlen := hin.length_le
    rw [List.length_take_of_le hm] at hlen
    exact hle hlen

theorem searchTurn_held (hw : want ≠ []) (hfit : want.length ≤ searchBuffer) (m : ℕ) :
    (if sizeSub want.length 1 < m then sizeSub want.length 1 else m) = min (want.length - 1) m := by
  rw [sizeSub_of_le (List.length_pos_iff.mpr hw) hfit]
  split_ifs <;> omega

theorem take_drop_carry {m n : ℕ} (hm : m ≤ buf.length) :
    (buf.drop (m - min n m)).take (min n m) = Window.carry n (buf.take m) := by
  have hend : min n m = m - (m - min n m) := by omega
  have hstart : m - min n m = m - n := by omega
  rw [Window.carry, List.length_take_of_le hm, List.drop_take, ← hstart, ← hend]

/-- What there is room for is what the pieces are held against, call by call. -/
def Fits (reads : List Bytes) (calls : List ReadCall) : Prop :=
  ∀ pc ∈ reads.zip calls, pc.1.length ≤ pc.2.count

instance (reads : List Bytes) (calls : List ReadCall) : Decidable (Fits reads calls) :=
  inferInstanceAs (Decidable (∀ pc ∈ _, _))

/-- Every turn begins with a `read` for what is left of the buffer. -/
theorem searchLoop_first (want : Bytes) (reads : List Bytes) (buf : Bytes) (held : ℕ) :
    ∃ calls, (searchLoop want reads buf held).2 = ⟨held, sizeSub buf.length held⟩ :: calls := by
  cases reads with
  | nil => exact ⟨[], rfl⟩
  | cons piece reads =>
    simp only [searchLoop]
    split_ifs
    · exact ⟨[], rfl⟩
    · cases searchTurn want buf held piece with
      | running => exact ⟨[], rfl⟩
      | outside => exact ⟨[], rfl⟩
      | returned next =>
        cases next with
        | none => exact ⟨[], rfl⟩
        | some next => exact ⟨_, rfl⟩

/-- One turn: the word stands in what was held with the piece behind it, or the end of that
is held from then on. -/
theorem searchTurn_spec (hw : want ≠ []) (hfit : want.length ≤ searchBuffer)
    (hbuf : buf.length = searchBuffer) {piece : Bytes}
    (hroom : held + piece.length ≤ searchBuffer) :
    ∃ buf' kept, buf'.length = searchBuffer ∧
      buf'.take kept = Window.carry (want.length - 1) (buf.take held ++ piece) ∧
      kept < want.length ∧
      searchTurn want buf held piece =
        .returned (if want <:+: buf.take held ++ piece then none else some (buf', kept)) := by
  have hpos := List.length_pos_iff.mpr hw
  have hlen := @length_memcpy buf piece held (by omega)
  have htake := @take_memcpy buf piece held (by omega)
  unfold searchTurn
  generalize memcpy buf held piece = b at hlen htake ⊢
  rw [← htake]
  generalize held + piece.length = m at hroom htake ⊢
  have hm : m ≤ b.length := by omega
  have hfound := searchTurn_found hw hm (hlen.trans hbuf)
  have hheld := searchTurn_held hw hfit m
  have hcarry := take_drop_carry (n := want.length - 1) hm
  have hkept : min (want.length - 1) m < want.length := by omega
  have hle : min (want.length - 1) m ≤ m := Nat.min_le_right _ _
  have hcopied : ((b.drop (m - min (want.length - 1) m)).take (min (want.length - 1) m)).length =
      min (want.length - 1) m := by
    rw [hcarry, Window.length_carry, List.length_take_of_le hm]
  generalize min (want.length - 1) m = kept at hheld hcarry hkept hle hcopied
  refine ⟨memcpy b 0 ((b.drop (m - kept)).take kept), kept, ?_, ?_, hkept, ?_⟩
  · rw [length_memcpy (by omega), hlen, hbuf]
  · rw [← hcarry]
    nth_rewrite 1 [← hcopied]
    exact take_memcpy_front _ _
  · simp only [hfound, hheld]
    rw [sizeSub_of_le hle hroom]
    by_cases hin : want <:+: b.take m
    · rw [decide_eq_true hin, if_pos hin]
    · rw [decide_eq_false hin, if_neg hin, if_pos (by omega)]

theorem read_count (hfit : want.length ≤ searchBuffer) (hbuf : buf.length = searchBuffer)
    (hheld : held < want.length) :
    0 < sizeSub buf.length held ∧ held + sizeSub buf.length held = searchBuffer := by
  rw [sizeSub_of_le (by omega) hbuf.le]
  omega

/-- The loop finds the word where the pieces, with what was held in front of them, have it; and
each `read` is given the rest of the buffer, which is never nothing. -/
theorem searchLoop_found (hw : want ≠ []) (hfit : want.length ≤ searchBuffer) {reads : List Bytes}
    (hpieces : ∀ piece ∈ reads, piece ≠ []) (hbuf : buf.length = searchBuffer)
    (hheld : held < want.length) (hroom : Fits reads (searchLoop want reads buf held).2) :
    (∃ b, (searchLoop want reads buf held).1 = .returned b ∧
      (b = true ↔ Window.Found want (buf.take held) reads)) ∧
    ∀ call ∈ (searchLoop want reads buf held).2,
      0 < call.count ∧ call.offset + call.count = searchBuffer := by
  have hcount := read_count hfit hbuf hheld
  induction reads generalizing buf held with
  | nil =>
    refine ⟨⟨false, rfl, iff_of_false (by decide) id⟩, ?_⟩
    intro call hcall
    rw [List.mem_singleton.mp hcall]
    exact hcount
  | cons piece reads ih =>
    obtain ⟨hpiece, hpieces⟩ := List.forall_mem_cons.mp hpieces
    have hne : ¬ piece.length = 0 := fun h => hpiece (List.eq_nil_of_length_eq_zero h)
    obtain ⟨calls, hcalls⟩ := searchLoop_first want (piece :: reads) buf held
    have hfirst : piece.length ≤ sizeSub buf.length held := by
      rw [hcalls] at hroom
      exact hroom (piece, _) (List.mem_cons_self ..)
    have hplace : held + piece.length ≤ searchBuffer := by omega
    obtain ⟨buf', kept, hbuf', hkept, hless, hturn⟩ := searchTurn_spec hw hfit hbuf hplace
    rw [searchLoop] at hroom ⊢
    simp only [hne, if_false, hturn] at hroom ⊢
    by_cases hin : want <:+: buf.take held ++ piece
    · simp only [hin, if_true]
      refine ⟨⟨true, rfl, iff_of_true rfl (.inl hin)⟩, ?_⟩
      intro call hcall
      rw [List.mem_singleton.mp hcall]
      exact hcount
    · simp only [hin, if_false] at hroom ⊢
      have hrest : Fits reads (searchLoop want reads buf' kept).2 :=
        fun pc hpc => hroom pc (List.mem_cons_of_mem _ hpc)
      obtain ⟨⟨b, hb, hiff⟩, hall⟩ := ih hpieces hbuf' hless hrest (read_count hfit hbuf' hless)
      rw [hkept] at hiff
      refine ⟨⟨b, hb, hiff.trans (or_iff_right hin).symm⟩, ?_⟩
      intro call hcall
      rcases List.mem_cons.mp hcall with rfl | hcall
      · exact hcount
      · exact hall call hcall

theorem searchLoop_file (hw : 0 < want.length) (hfit : want.length ≤ searchBuffer)
    (hbuf : buf.length = searchBuffer) {reads : List Bytes} (hpieces : ∀ piece ∈ reads, piece ≠ [])
    (hroom : Fits reads (searchLoop want reads buf 0).2) :
    (searchLoop want reads buf 0).1 = .returned (decide (want <:+: reads.flatten)) := by
  have hne : want ≠ [] := List.length_pos_iff.mp hw
  obtain ⟨b, hb, hiff⟩ := (searchLoop_found hne hfit hpieces hbuf hw hroom).1
  have hnil : ([] : Bytes).length < want.length := hw
  rw [List.take_zero, Window.found_iff hne reads hnil, List.nil_append] at hiff
  refine hb.trans (congrArg Walk.returned ?_)
  rw [Bool.eq_iff_iff, hiff, decide_eq_true_iff]

/-- The answer is whether the word occurs in the file, and no `read` is for nothing or for more
than there is room for. -/
theorem file_names_iff (hw : 0 < want.length) (hfit : want.length ≤ searchBuffer)
    (hbuf : buf.length = searchBuffer) {reads : List Bytes} (hpieces : ∀ piece ∈ reads, piece ≠ [])
    (hroom : Fits reads (ktlsFileNames (some reads) want buf).2) :
    (ktlsFileNames (some reads) want buf).1 = .returned (decide (want <:+: reads.flatten)) ∧
    ∀ call ∈ (ktlsFileNames (some reads) want buf).2,
      0 < call.count ∧ call.offset + call.count ≤ searchBuffer := by
  refine ⟨searchLoop_file hw hfit hbuf hpieces hroom, ?_⟩
  intro call hcall
  have hne : want ≠ [] := List.length_pos_iff.mp hw
  obtain ⟨hpos, hend⟩ := (searchLoop_found hne hfit hpieces hbuf hw hroom).2 call hcall
  exact ⟨hpos, hend.le⟩

/-- The word begins in the first piece and ends in the third. -/
def sampleReads : List Bytes := [ascii "kernel/net/t", ascii "l", ascii "s.ko:"]

theorem file_names_straddling :
    (ktlsFileNames (some sampleReads) (ascii "tls.ko") (List.replicate searchBuffer 0)).1 =
      .returned true :=
  (file_names_iff (by decide +kernel) (by decide +kernel) List.length_replicate
    (by decide +kernel) (by decide +kernel)).1.trans
      (congrArg Walk.returned (decide_eq_true (by decide +kernel)))

variable {files : Bytes → Option (List Bytes)} {stack : Bytes → Bytes}

/-- A file is read as the system reads files. -/
def Readable (files : Bytes → Option (List Bytes)) (stack : Bytes → Bytes) (path : Bytes) : Prop :=
  (stack path).length = searchBuffer ∧
    ∀ reads, files path = some reads → (∀ piece ∈ reads, piece ≠ []) ∧
      Fits reads (ktlsFileNames (some reads) tlsModule (stack path)).2

/-- The file can be opened and names the module. -/
def Lists (files : Bytes → Option (List Bytes)) (path : Bytes) : Prop :=
  ∃ reads, files path = some reads ∧ tlsModule <:+: reads.flatten

theorem file_lists {path : Bytes} (h : Readable files stack path) :
    ∃ b, (ktlsFileNames (files path) tlsModule (stack path)).1 = .returned b ∧
      (b = true ↔ Lists files path) := by
  cases hfile : files path with
  | none =>
    refine ⟨false, rfl, iff_of_false (by decide) ?_⟩
    rintro ⟨reads, hreads, -⟩
    rw [hfile] at hreads
    cases hreads
  | some reads =>
    obtain ⟨hpieces, hroom⟩ := h.2 reads hfile
    have hlen : 0 < tlsModule.length ∧ tlsModule.length ≤ searchBuffer := by decide +kernel
    refine ⟨_, searchLoop_file hlen.1 hlen.2 h.1 hpieces hroom, ?_⟩
    rw [decide_eq_true_iff]
    refine ⟨fun hin => ⟨reads, hfile, hin⟩, ?_⟩
    rintro ⟨reads', hreads', hin⟩
    rw [hfile] at hreads'
    cases hreads'
    exact hin

/-- The kernel offers TLS when it says so, or when one of the two lists names the module. -/
theorem ktlsAvailable_spec {initialized : Bool} {release : Option Bytes}
    (h : ∀ path, Readable files stack path) :
    ∃ b, ktlsAvailable initialized release files stack = .returned b ∧
      (b = true ↔ initialized = true ∨ ∃ r, release = some r ∧
        (Lists files (modulePath r "/modules.dep") ∨
          Lists files (modulePath r "/modules.builtin"))) := by
  cases initialized with
  | true => exact ⟨true, rfl, iff_of_true rfl (.inl rfl)⟩
  | false =>
    cases release with
    | none => exact ⟨false, rfl, by simp⟩
    | some r =>
      obtain ⟨dep, hdep, hdepiff⟩ := file_lists (h (modulePath r "/modules.dep"))
      obtain ⟨builtin, hbuiltin, hbuiltiniff⟩ := file_lists (h (modulePath r "/modules.builtin"))
      have hiff : (dep || builtin) = true ↔ (false : Bool) = true ∨ ∃ r', some r = some r' ∧
          (Lists files (modulePath r' "/modules.dep") ∨
            Lists files (modulePath r' "/modules.builtin")) := by
        rw [Bool.or_eq_true, hdepiff, hbuiltiniff]
        simp
      refine ⟨dep || builtin, ?_, hiff⟩
      simp only [ktlsAvailable, hdep]
      cases dep with
      | true => rfl
      | false => exact hbuiltin

end Ktls
