import Takibi.Lz4.Decode
import Takibi.Lz4.Encode

/-! What the encoder emits is decoded to its source, for the lengths of sources for which the decoder
reads every length to its end. -/

namespace Takibi.Lz4
open Region List Nat UInt8

/-- Whatever the regions held before, a block that was encoded is decoded to its source. -/
def RoundTrips (src : Bytes) : Prop :=
  ∀ (dst dst' out : Bytes) (table : List ℕ) (n : ℕ), lz4HashEntries ≤ table.length →
    src.length ≤ out.length → lz4Encode src dst table = (.encoded n, dst') →
    ∃ out', lz4Decode (dst'.take n) out = (.decoded src.length, out') ∧ out'.take src.length = src

/-- The encoder has one block for a source and a table, and answers whether there is room for it. -/
def EncodesWhenRoom (src : Bytes) (table : List ℕ) : Prop :=
  ∃ block : Bytes, ∀ dst : Bytes, (block.length ≤ dst.length →
      ∃ dst', lz4Encode src dst table = (.encoded block.length, dst') ∧ dst'.take block.length = block) ∧
    (dst.length < block.length → ∃ dst', lz4Encode src dst table = (.noRoom, dst'))

section Encoding
variable {src : Bytes} {table : List ℕ}

lemma behind_cleared (table : List ℕ) : Behind (table.map fun _ => 0) 0 := by
  intro entry hentry
  obtain ⟨_, _, rfl⟩ := mem_map.mp hentry
  exact le_rfl

lemma lz4EncodeBlock_emits (src : Bytes) (table : List ℕ) : ∃ seqs stop, Describes src 0 seqs stop ∧
      Emits (lz4EncodeBlock src table) 0 (blockBytes seqs (src.drop stop))
        (blockBytes seqs (src.drop stop)).length := by
  have hloop : ∃ seqs stop, Describes src 0 seqs stop ∧ stop ≤ src.length ∧
      Emits (if src.length > lz4MatchFindLimit then
        lz4EncodeFrom src (src.length - lz4MatchFindLimit) (table.map fun _ => 0) 0 0 0
        else pure (0, 0)) 0 (seqs.flatMap Sequence.bytes)
        (0 + (seqs.flatMap Sequence.bytes).length, stop) := by
    split_ifs
    · exact lz4EncodeFrom_emits 0 le_rfl (zero_le _) le_rfl (behind_cleared table)
    · exact ⟨[], 0, .nil 0 (zero_le _), zero_le _, .pure⟩
  obtain ⟨seqs, stop, hdescribes, hstop, hemits⟩ := hloop
  refine ⟨seqs, stop, hdescribes, ?_⟩
  have hlast := lz4Emit_last (0 + (seqs.flatMap Sequence.bytes).length)
    (Nat.add_sub_cancel' hstop).le
  rw [slice_all] at hlast
  have hlength : (blockBytes seqs (src.drop stop)).length =
      0 + (seqs.flatMap Sequence.bytes).length + (literalBytes (src.drop stop) 0).length := by
    rw [blockBytes, length_append, Nat.zero_add]
  rw [hlength]
  exact hemits.bind hlast

lemma lz4Encode_of_emits (hsize : src.length ≤ lz4MaxSource) (htable : lz4HashEntries ≤ table.length)
    {block : Bytes} (h : Emits (lz4EncodeBlock src table) 0 block block.length) (dst : Bytes) :
    (block.length ≤ dst.length →
      ∃ dst', lz4Encode src dst table = (.encoded block.length, dst') ∧ dst'.take block.length = block) ∧
    (dst.length < block.length → ∃ dst', lz4Encode src dst table = (.noRoom, dst')) := by
  obtain ⟨hroom, hfull⟩ := h dst (zero_le _)
  rw [Nat.zero_add] at hroom hfull
  rw [lz4Encode, if_neg (not_lt.mpr hsize), if_neg (not_lt.mpr htable)]
  refine ⟨fun hle => ?_, fun hlt => ?_⟩
  · obtain ⟨dst', hon, happ⟩ := hroom hle
    have htake := happ.take
    rw [Nat.zero_add] at htake
    exact ⟨dst', by rw [hon], htake⟩
  · obtain ⟨dst', hon⟩ := hfull hlt
    exact ⟨dst', by rw [hon]⟩

lemma take_of_lz4Encode (hsize : src.length ≤ lz4MaxSource) (htable : lz4HashEntries ≤ table.length)
    {block dst dst' : Bytes} {n : ℕ} (h : Emits (lz4EncodeBlock src table) 0 block block.length)
    (hencode : lz4Encode src dst table = (.encoded n, dst')) : dst'.take n = block := by
  obtain ⟨hroom, hfull⟩ := lz4Encode_of_emits hsize htable h dst
  obtain hle | hlt := le_or_gt block.length dst.length
  · obtain ⟨dst'', heq, htake⟩ := hroom hle
    rw [hencode] at heq
    obtain ⟨hn, rfl⟩ := Prod.mk.inj heq
    rw [EncodeResult.encoded.inj hn]
    exact htake
  · obtain ⟨dst'', heq⟩ := hfull hlt
    rw [hencode] at heq
    cases heq

lemma roundTrips_of_le (hsize : src.length ≤ lz4LongestRun) : RoundTrips src := by
  intro dst dst' out table n htable hout hencode
  have hmax : src.length ≤ lz4MaxSource := by
    simp only [lz4LongestRun, lz4MaxSource] at *
    omega
  obtain ⟨seqs, stop, hdescribes, hemits⟩ := lz4EncodeBlock_emits src table
  rw [take_of_lz4Encode hmax htable hemits hencode]
  have hdecode : Appends (lz4DecodeFrom (blockBytes seqs (src.drop stop)) out.length 0 0) out 0
      (src.drop 0) src.length := by
    refine lz4DecodeFrom_block hdescribes rfl (fun s hs => hdescribes.readable hsize hs) ?_ rfl hout
    rw [readable_iff, length_drop]
    omega
  obtain ⟨out', hon, happ⟩ := hdecode
  refine ⟨out', by rw [lz4Decode, hon], ?_⟩
  have htake := happ.take
  rwa [drop_zero, Nat.zero_add] at htake

end Encoding

/-! ## Sources that are too long -/

/-- The four bytes of a group are the digits of its number to the base 64, each marked with its place
in the group. -/
def countingByte (p : ℕ) : ℕ := 64 * (p % 4) + p / 4 / 64 ^ (p % 4) % 64
def counting (length : ℕ) : Bytes := (range length).map fun p => UInt8.ofNat (countingByte p)

lemma length_counting (length : ℕ) : (counting length).length = length := by
  rw [counting, length_map, length_range]

lemma byteAt_counting {length p : ℕ} (h : p < length) : byteAt (counting length) p = countingByte p := by
  have hbyte : countingByte p < 256 := by
    have hdigit : p / 4 / 64 ^ (p % 4) % 64 < 64 := mod_lt _ (by decide)
    rw [countingByte]
    omega
  have hget : (counting length)[p]? = some (ofNat (countingByte p)) := by
    rw [counting, getElem?_map, getElem?_range h]
    rfl
  rw [byteAt, getD, hget, Option.getD_some, toNat_ofNat', mod_eq_of_lt hbyte]

lemma countingByte_eq (m j : ℕ) (hj : j < 4) : countingByte (4 * m + j) = 64 * j + m / 64 ^ j % 64 := by
  have hplace : (4 * m + j) % 4 = j := by omega
  have hgroup : (4 * m + j) / 4 = m := by omega
  rw [countingByte, hplace, hgroup]

lemma mod_pow_of_digits {b x y lo hi : ℕ} (hle : lo ≤ hi) (hlow : x % b ^ lo = y % b ^ lo)
    (h : ∀ j, lo ≤ j → j < hi → x / b ^ j % b = y / b ^ j % b) : x % b ^ hi = y % b ^ hi := by
  induction hi, hle using Nat.le_induction with
  | base => exact hlow
  | succ k hk ih =>
    rw [mod_pow_succ, mod_pow_succ, ih fun j hj hlt => h j hj (hlt.trans k.lt_succ_self), h k hk k.lt_succ_self]

lemma digits_inj {m m' r : ℕ} (hr : r < 4)
    (h : ∀ j < 4, (m + if j < r then 1 else 0) / 64 ^ j % 64 = (m' + if j < r then 1 else 0) / 64 ^ j % 64) :
    m % 64 ^ 4 = m' % 64 ^ 4 := by
  have hnext : (m + 1) % 64 ^ r = (m' + 1) % 64 ^ r :=
    mod_pow_of_digits (zero_le r) (by simp only [pow_zero, mod_one]) fun j _ hj => by
      have hdigit := h j (hj.trans hr)
      rwa [if_pos hj] at hdigit
  refine mod_pow_of_digits hr.le (Nat.ModEq.add_right_cancel' 1 hnext) fun j hle hj => ?_
  have hdigit := h j hj
  rwa [if_neg hle.not_gt] at hdigit

lemma countingByte_inj {a b : ℕ} (h : ∀ k < 4, countingByte (a + k) = countingByte (b + k))
    (hlt : b < a) (hnear : a - b ≤ lz4MaxOffset) : False := by
  obtain ⟨m, r, hr, rfl⟩ : ∃ m r, r < 4 ∧ a = 4 * m + r := ⟨a / 4, a % 4, by omega, by omega⟩
  obtain ⟨m', r', hr', rfl⟩ : ∃ m' r', r' < 4 ∧ b = 4 * m' + r' := ⟨b / 4, b % 4, by omega, by omega⟩
  have hplace : r = r' := by
    have hfirst := h 0 (by decide)
    rw [Nat.add_zero, Nat.add_zero, countingByte_eq m r hr, countingByte_eq m' r' hr'] at hfirst
    have hd : m / 64 ^ r % 64 < 64 := mod_lt _ (by decide)
    have hd' : m' / 64 ^ r' % 64 < 64 := mod_lt _ (by decide)
    omega
  subst hplace
  have hmod : m % 64 ^ 4 = m' % 64 ^ 4 := digits_inj hr fun j hj => by
    have hbyte := h ((j + 4 - r) % 4) (mod_lt _ (by decide))
    have hgroup : ∀ n, 4 * n + r + (j + 4 - r) % 4 = 4 * (n + if j < r then 1 else 0) + j := fun n => by
      split_ifs <;> omega
    rw [hgroup, hgroup, countingByte_eq _ j hj, countingByte_eq _ j hj] at hbyte
    exact Nat.add_left_cancel hbyte
  simp only [lz4MaxOffset] at hnear
  norm_num at hmod
  omega

section Counting
variable {length : ℕ} {table : List ℕ} {here : ℕ}

lemma lz4Reference_counting (hhere : here < length - lz4MatchFindLimit) (hbehind : Behind table here) :
    lz4Reference (counting length) table here = none := by
  cases href : lz4Reference (counting length) table here with
  | none => rfl
  | some reference =>
    obtain ⟨hlt, hnear, hword⟩ := lz4Reference_spec hbehind href
    simp only [lz4MatchFindLimit] at hhere
    have hlength := length_counting length
    have hsame := getElem?_eq_of_lz4Word (by omega) (by omega) hword
    refine (countingByte_inj (fun k hk => ?_) hlt hnear).elim
    rw [← byteAt_counting (by omega : here + k < length), ← byteAt_counting (by omega : reference + k < length),
      byteAt, byteAt, getD, getD, hsame k hk]

lemma lz4EncodeFrom_counting {findLimit : ℕ} (hlimit : findLimit ≤ length - lz4MatchFindLimit)
    (hbehind : Behind table here) (anchor op : ℕ) :
    lz4EncodeFrom (counting length) findLimit table here anchor op = pure (op, anchor) := by
  induction hleft : findLimit - here using Nat.strong_induction_on generalizing table here with
  | _ left ih =>
    rw [lz4EncodeFrom]
    split_ifs with hmore
    · rw [lz4Reference_counting (hmore.trans_le hlimit) hbehind]
      exact ih _ (by omega) (hbehind.remember _ (lt_succ_self here)) rfl
    · rfl

lemma lz4EncodeBlock_counting (length : ℕ) (table : List ℕ) :
    Emits (lz4EncodeBlock (counting length) table) 0 (literalBytes (counting length) 0)
      (literalBytes (counting length) 0).length := by
  have hloop : (if (counting length).length > lz4MatchFindLimit then
      lz4EncodeFrom (counting length) ((counting length).length - lz4MatchFindLimit)
        (table.map fun _ => 0) 0 0 0
      else pure (0, 0)) = pure (0, 0) := by
    split_ifs
    · exact lz4EncodeFrom_counting (by rw [length_counting]) (behind_cleared table) 0 0
    · rfl
  have hwhole : 0 + ((counting length).length - 0) ≤ (counting length).length := by omega
  have hlast := lz4Emit_last 0 hwhole
  rw [slice_all, drop_zero, Nat.zero_add] at hlast
  rw [lz4EncodeBlock, hloop]
  exact hlast

lemma not_roundTrips_counting (hlong : lz4LongestRun < length) (hmax : length ≤ lz4MaxSource) :
    ¬ RoundTrips (counting length) := by
  intro htrip
  have hlength := length_counting length
  set block := literalBytes (counting length) 0 with hblock
  have htable : lz4HashEntries ≤ (replicate lz4HashEntries 0).length := (length_replicate).ge
  have hemits := lz4EncodeBlock_counting length (replicate lz4HashEntries 0)
  obtain ⟨dst', hencode, htake⟩ := (lz4Encode_of_emits (by omega) htable hemits
    (replicate block.length 0)).1 (length_replicate).ge
  obtain ⟨out', hdecode, -⟩ := htrip _ dst' (counting length) _ _ htable le_rfl hencode
  rw [htake] at hdecode
  have hblockAt : block.drop 0 = tokenByte (counting length).length 0 ::
      (moreBytes (counting length).length ++ counting length) := rfl
  have hnibble : lz4Nibble block (byteAt block 0 >>> 4) (0 + 1) = none := by
    have hunreadable : ¬ Readable (counting length).length := by
      rw [readable_iff]
      omega
    have hmore : block.drop (0 + 1) = moreBytes (counting length).length ++ counting length := rfl
    rw [byteAt_of_drop hblockAt, (tokenByte_nibbles _ _).1, lz4Nibble_moreBytes hmore, if_neg hunreadable]
  rw [lz4Decode, lz4DecodeFrom_invalid (lt_of_drop hblockAt) hnibble] at hdecode
  cases hdecode

end Counting

/-! ## The codec -/

/-- Of the sources of one length: all of them round-trip exactly where no run is longer than the
decoder reads. And the encoder answers `Encoded` exactly where its block has room. -/
theorem lz4_round_trip (length : ℕ) (hmax : length ≤ lz4MaxSource) :
    ((∀ src : Bytes, src.length = length → RoundTrips src) ↔ length ≤ lz4LongestRun) ∧
      ∀ (src : Bytes) (table : List ℕ), src.length = length → lz4HashEntries ≤ table.length →
        EncodesWhenRoom src table := by
  refine ⟨⟨fun hall => ?_, fun hle src hlength => ?_⟩, fun src table hlength htable => ?_⟩
  · by_contra hlong
    exact not_roundTrips_counting (not_le.mp hlong) hmax (hall _ (length_counting length))
  · exact roundTrips_of_le (hlength.le.trans hle)
  · obtain ⟨seqs, stop, -, hemits⟩ := lz4EncodeBlock_emits src table
    exact ⟨_, lz4Encode_of_emits (hlength.le.trans hmax) htable hemits⟩

theorem lz4_round_trip_chunk : 65536 ≤ lz4MaxSource ∧
    ((∀ src : Bytes, src.length = 65536 → RoundTrips src) ↔ 65536 ≤ lz4LongestRun) ∧
      ∀ (src : Bytes) (table : List ℕ), src.length = 65536 → lz4HashEntries ≤ table.length →
        EncodesWhenRoom src table :=
  ⟨by decide, lz4_round_trip 65536 (by decide)⟩

/-- A source of 2 GiB of which the encoder makes a block that the decoder refuses. -/
theorem counting_not_roundTrips : (counting 2147483790).length = 2147483790 ∧
    2147483790 ≤ lz4MaxSource ∧ ¬ RoundTrips (counting 2147483790) :=
  ⟨length_counting _, by decide, not_roundTrips_counting (by decide) (by decide)⟩

end Takibi.Lz4
