import Mathlib.Tactic
import Mathlib.Data.BitVec

/-! The Internet checksum: bytes accumulated in an `i32` and folded to sixteen bits, compared with the one's-complement
sum of big-endian words. -/

namespace Takibi.Net
open List Int

def checksumStep (s : BitVec 32 × Bool) (byte : UInt8) : BitVec 32 × Bool :=
  (s.1 + if s.2 then byte.toBitVec.setWidth 32 <<< 8 else byte.toBitVec.setWidth 32, s.2 == false)

variable (data : List UInt8) {sum : BitVec 32}

def checksumAdd (sum : BitVec 32) : BitVec 32 := (data.foldl checksumStep (sum, true)).1
def checksumTurn (sum : BitVec 32) : BitVec 32 := (sum &&& 0xFFFF) + sum.sshiftRight 16

lemma toInt_low (sum : BitVec 32) : (sum &&& 0xFFFF).toInt = sum.toInt % 65536 := by
  have hlow : (sum &&& 0xFFFF).toNat = sum.toNat % 65536 := by
    rw [BitVec.toNat_and]
    exact Nat.and_two_pow_sub_one_eq_mod _ 16
  rw [BitVec.toInt_eq_toNat_cond, hlow, BitVec.toInt_eq_toNat_cond]
  split_ifs
  all_goals omega

lemma toInt_high (sum : BitVec 32) : (sum.sshiftRight 16).toInt = sum.toInt / 65536 := by
  rw [BitVec.toInt_sshiftRight, shiftRight_eq_div_pow]
  rfl

lemma toInt_checksumTurn (sum : BitVec 32) : (checksumTurn sum).toInt = sum.toInt % 65536 + sum.toInt / 65536 := by
  have hlt := sum.toInt_lt
  have hle := sum.le_toInt
  rw [checksumTurn, BitVec.toInt_add, toInt_low, toInt_high, bmod_eq_of_le]
  all_goals omega

lemma high_eq_zero_iff : sum.sshiftRight 16 = 0 ↔ sum.toInt / 65536 = 0 := by
  rw [← BitVec.toInt_inj, toInt_high]
  rfl

def checksumFold (sum : BitVec 32) : BitVec 32 :=
  if sum.sshiftRight 16 = 0 then ~~~sum &&& 0xFFFF else checksumFold (checksumTurn sum)
termination_by (if sum.toInt < 0 then 65536 - sum.toInt else sum.toInt).toNat
decreasing_by
  -- A turn brings a negative sum nearer to zero and makes another smaller.
  rename_i hhigh
  rw [high_eq_zero_iff] at hhigh
  rw [toInt_checksumTurn]
  split_ifs
  all_goals omega

def inetChecksum : BitVec 32 := checksumFold (checksumAdd data 0)
def bigEndian (sum : BitVec 32) : List UInt8 := [⟨(sum >>> 8).setWidth 8⟩, ⟨sum.setWidth 8⟩]

/-! ## One's-complement sums -/

def words : List UInt8 → List ℕ
  | [] => []
  | [high] => [high.toNat * 256]
  | high :: low :: rest => (high.toNat * 256 + low.toNat) :: words rest

def onesAdd (a b : ℕ) : ℕ := if a + b > 65535 then a + b - 65535 else a + b
def onesSum (l : List ℕ) : ℕ := l.foldl onesAdd 0

/-- Sixteen bits for a number: zero stands for zero only. -/
def residue (n : ℕ) : ℕ := if n = 0 then 0 else (n - 1) % 65535 + 1

lemma onesAdd_residue {n b : ℕ} (hb : b ≤ 65535) : onesAdd (residue n) b = residue (n + b) := by
  unfold residue
  by_cases hn : n = 0
  · rw [if_pos hn, onesAdd, if_neg (by omega)]
    split_ifs <;> omega
  · rw [if_neg hn, if_neg (by omega), onesAdd]
    split_ifs <;> omega

lemma residue_turn (n : ℕ) : residue (n % 65536 + n / 65536) = residue n := by
  unfold residue
  split_ifs
  all_goals omega

lemma residue_of_lt {n : ℕ} (h : n < 65536) : residue n = n := by
  unfold residue
  split_ifs
  all_goals omega

lemma residue_complement (n : ℕ) : residue (n + (65535 - residue n)) = 65535 := by
  unfold residue
  by_cases hn : n = 0
  · rw [if_pos hn, if_neg (by omega)]
    omega
  · rw [if_neg hn, if_neg (by omega)]
    omega

lemma words_le : ∀ word ∈ words data, word ≤ 65535 := by
  fun_induction words data with
  | case1 => exact fun _ hin => nomatch hin
  | case2 high =>
    have := high.toNat_lt
    simp only [mem_singleton, forall_eq]
    omega
  | case3 high low rest ih =>
    have := high.toNat_lt
    have := low.toNat_lt
    exact forall_mem_cons.mpr ⟨by omega, ih⟩

lemma words_sum_le : (words data).sum ≤ (data.length + 1) / 2 * 65535 := by
  fun_induction words data with
  | case1 => exact Nat.zero_le _
  | case2 high =>
    have := high.toNat_lt
    simp only [sum_singleton, length_singleton]
    omega
  | case3 high low rest ih =>
    have := high.toNat_lt
    have := low.toNat_lt
    simp only [sum_cons, length_cons]
    omega

lemma words_append {before : List UInt8} (heven : Even before.length) (after : List UInt8) :
    words (before ++ after) = words before ++ words after := by
  fun_induction words before with
  | case1 => rfl
  | case2 => simp at heven
  | case3 high low rest ih =>
    have hrest : Even rest.length := by
      rw [length_cons, length_cons, Nat.even_add_one, Nat.even_add_one, not_not] at heven
      exact heven
    simp only [cons_append, words, ih hrest]

lemma onesSum_words : onesSum (words data) = residue (words data).sum := by
  have hfold (l : List ℕ) (n : ℕ) (hl : ∀ word ∈ l, word ≤ 65535) : l.foldl onesAdd (residue n) = residue (n + l.sum) := by
    induction l generalizing n with
    | nil => rfl
    | cons word l ih =>
      obtain ⟨hword, hl⟩ := forall_mem_cons.mp hl
      rw [foldl_cons, onesAdd_residue hword, ih _ hl, sum_cons, Nat.add_assoc]
  have hzero := hfold (words data) 0 (words_le data)
  rwa [Nat.zero_add] at hzero

/-! ## What the code computes -/

lemma setWidth_shift (byte : UInt8) : byte.toBitVec.setWidth 32 <<< 8 = BitVec.ofNat 32 (byte.toNat * 256) := by
  have := byte.toNat_lt
  apply BitVec.eq_of_toNat_eq
  simp [Nat.shiftLeft_eq]

lemma setWidth_byte (byte : UInt8) : byte.toBitVec.setWidth 32 = BitVec.ofNat 32 byte.toNat := by
  apply BitVec.eq_of_toNat_eq
  simp

lemma checksumAdd_words (sum : BitVec 32) :
    checksumAdd data sum = sum + BitVec.ofNat 32 (words data).sum := by
  unfold checksumAdd
  fun_induction words data generalizing sum with
  | case1 => simp
  | case2 high => simp [checksumStep, setWidth_shift]
  | case3 high low rest ih =>
    have hstep : (high :: low :: rest).foldl checksumStep (sum, true) =
        rest.foldl checksumStep (sum + BitVec.ofNat 32 (high.toNat * 256 + low.toNat), true) := by
      rw [foldl_cons, foldl_cons, BitVec.ofNat_add, ← setWidth_shift, ← setWidth_byte, ← BitVec.add_assoc]
      rfl
    rw [hstep, ih, sum_cons, BitVec.ofNat_add _ (words rest).sum, BitVec.add_assoc]

lemma toInt_ofNat_words {data : List UInt8} (hlen : data.length ≤ 65535) :
    (BitVec.ofNat 32 (words data).sum).toInt = (words data).sum := by
  have hle := words_sum_le data
  have hhalf : (data.length + 1) / 2 ≤ 32768 := by omega
  rw [BitVec.toInt_ofNat', bmod_eq_of_le]
  all_goals omega

lemma checksumFold_spec (sum : BitVec 32) (n : ℕ) (hsum : sum.toInt = n) :
    (checksumFold sum).toNat = 65535 - residue n := by
  fun_induction checksumFold sum generalizing n with
  | case1 sum hhigh =>
    rw [high_eq_zero_iff, hsum] at hhigh
    have hnat : sum.toNat = n := by
      have hlt := sum.isLt
      rw [BitVec.toInt_eq_toNat_cond] at hsum
      split_ifs at hsum
      all_goals omega
    rw [residue_of_lt (by omega), BitVec.toNat_and, BitVec.toNat_not, hnat]
    refine (Nat.and_two_pow_sub_one_eq_mod _ 16).trans ?_
    omega
  | case2 sum hhigh ih =>
    rw [ih (n % 65536 + n / 65536) (by rw [toInt_checksumTurn, hsum]; omega), residue_turn]

lemma inetChecksum_spec {data : List UInt8} (hlen : data.length ≤ 65535) :
    (inetChecksum data).toNat = 65535 - residue (words data).sum := by
  refine checksumFold_spec _ _ ?_
  rw [checksumAdd_words, zero_add]
  exact toInt_ofNat_words hlen

lemma sum_words_pieces (pieces : List (List UInt8)) (heven : ∀ p ∈ pieces.dropLast, Even p.length) :
    (pieces.map fun p => (words p).sum).sum = (words pieces.flatten).sum := by
  induction pieces with
  | nil => rfl
  | cons p rest ih =>
    cases rest with
    | nil => simp
    | cons q rest =>
      rw [dropLast_cons_cons] at heven
      obtain ⟨hp, hrest⟩ := forall_mem_cons.mp heven
      rw [map_cons, sum_cons, ih hrest, ← sum_append, ← words_append hp]
      rfl

lemma foldl_checksumAdd (order : List (List UInt8)) (sum : BitVec 32) :
    order.foldl (fun sum p => checksumAdd p sum) sum = sum + BitVec.ofNat 32 (order.map fun p => (words p).sum).sum := by
  induction order generalizing sum with
  | nil => simp
  | cons p order ih =>
    rw [foldl_cons, ih, checksumAdd_words, map_cons, sum_cons, BitVec.ofNat_add, BitVec.add_assoc]

lemma words_bigEndian (h : sum.toNat ≤ 65535) : words (bigEndian sum) = [sum.toNat] := by
  simp [bigEndian, words, Nat.shiftRight_eq_div_pow]
  omega

/-- No addition overflows; the result is the complement of the one's-complement sum of the words; pieces at even offsets
give it in any order; and a checksum stored in its zeroed field verifies. -/
theorem inetChecksum_law (data : List UInt8) (hlen : data.length ≤ 65535) :
    (∀ p, p <+: data → (checksumAdd p 0).toInt = (words p).sum) ∧
    (∀ sum : BitVec 32, (checksumTurn sum).toInt = (sum &&& 0xFFFF).toInt + (sum.sshiftRight 16).toInt) ∧
    (inetChecksum data).toNat = 65535 - onesSum (words data) ∧
    (∀ pieces order : List (List UInt8), pieces.flatten = data → (∀ p ∈ pieces.dropLast, Even p.length) →
      order.Perm pieces → order.foldl (fun sum p => checksumAdd p sum) 0 = checksumAdd data 0) ∧
    (∀ before after : List UInt8, data = before ++ ([0, 0] ++ after) → Even before.length →
      inetChecksum (before ++ (bigEndian (inetChecksum data) ++ after)) = 0) := by
  refine ⟨fun p hp => ?_, fun sum => ?_, ?_, fun pieces order hdata heven hperm => ?_, fun before after hdata heven => ?_⟩
  · rw [checksumAdd_words, zero_add]
    exact toInt_ofNat_words (hp.length_le.trans hlen)
  · rw [toInt_checksumTurn, toInt_low, toInt_high]
  · rw [inetChecksum_spec hlen, onesSum_words]
  · rw [foldl_checksumAdd, checksumAdd_words, (hperm.map _).sum_eq, sum_words_pieces pieces heven, hdata]
  · have hsum := inetChecksum_spec hlen
    have hstored := words_bigEndian (hsum ▸ Nat.sub_le _ _)
    have hlen' : (before ++ (bigEndian (inetChecksum data) ++ after)).length = data.length := by
      rw [hdata, length_append, length_append, length_append, length_append]
      rfl
    apply BitVec.eq_of_toNat_eq
    rw [inetChecksum_spec (hlen'.trans_le hlen), words_append heven, words_append (by exact even_two), hstored]
    have hwords : (words data).sum = (words before).sum + (words after).sum := by
      rw [hdata, words_append heven, words_append (by exact even_two), sum_append, sum_append]
      simp [words]
    rw [hwords] at hsum
    have hwhole : (words before).sum + ((inetChecksum data).toNat + (words after).sum) =
        (words before).sum + (words after).sum + (65535 - residue ((words before).sum + (words after).sum)) := by omega
    rw [sum_append, sum_append, sum_singleton, hwhole, residue_complement]
    rfl

theorem inetChecksum_law_header : (inetChecksum [0x45, 0, 0, 0, 0x11]).toNat = 65535 - onesSum [0x4500, 0, 0x1100] :=
  (inetChecksum_law [0x45, 0, 0, 0, 0x11] (by decide)).2.2.1

end Takibi.Net
