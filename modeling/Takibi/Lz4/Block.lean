import Takibi.Lz4.Codec

/-! The block format: what the bytes of a sequence are, and which text a run of sequences stands
for. -/

namespace Takibi.Lz4
open Region List UInt8

def lengthBytes (n : ℕ) : Bytes := replicate (n / 255) 255 ++ [UInt8.ofNat (n % 255)]
def moreBytes (n : ℕ) : Bytes := if n < 15 then [] else lengthBytes (n - 15)
def tokenByte (literals matched : ℕ) : UInt8 := UInt8.ofNat ((min literals 15 <<< 4) ||| min matched 15)

def literalBytes (literals : Bytes) (matched : ℕ) : Bytes :=
  tokenByte literals.length matched :: (moreBytes literals.length ++ literals)

structure Sequence where
  literals : Bytes
  offset : ℕ
  length : ℕ
  deriving DecidableEq, Repr

def matchBytes (offset length : ℕ) : Bytes :=
  UInt8.ofNat (offset &&& 255) :: UInt8.ofNat ((offset >>> 8) &&& 255) :: moreBytes (length - lz4MinMatch)

def Sequence.bytes (s : Sequence) : Bytes :=
  literalBytes s.literals (s.length - lz4MinMatch) ++ matchBytes s.offset s.length

def blockBytes (seqs : List Sequence) (last : Bytes) : Bytes :=
  seqs.flatMap Sequence.bytes ++ literalBytes last 0

def slice (text : Bytes) (start count : ℕ) : Bytes := (text.drop start).take count

structure Sequence.Fits (text : Bytes) (start : ℕ) (s : Sequence) : Prop where
  literals : s.literals = slice text start s.literals.length
  offset_pos : 0 < s.offset
  offset_le : s.offset ≤ lz4MaxOffset
  behind : s.offset ≤ start + s.literals.length
  min_le : lz4MinMatch ≤ s.length
  room : start + s.literals.length + s.length ≤ text.length
  repeats : ∀ k < s.length, text[start + s.literals.length + k]? =
    text[start + s.literals.length + k - s.offset]?

inductive Describes (text : Bytes) : ℕ → List Sequence → ℕ → Prop
  | nil (start : ℕ) : start ≤ text.length → Describes text start [] start
  | cons {start stop : ℕ} {s : Sequence} {seqs : List Sequence} : s.Fits text start →
      Describes text (start + s.literals.length + s.length) seqs stop →
      Describes text start (s :: seqs) stop

def Readable (n : ℕ) : Prop := 255 * ((n - 15) / 255) ≤ lz4LengthCap

instance (n : ℕ) : Decidable (Readable n) := inferInstanceAs (Decidable (_ ≤ _))

def Sequence.Readable (s : Sequence) : Prop :=
  Lz4.Readable s.literals.length ∧ Lz4.Readable (s.length - lz4MinMatch)

section Slices
variable {text : Bytes} {start count : ℕ}

lemma length_slice (h : start + count ≤ text.length) : (slice text start count).length = count := by
  rw [slice, length_take, length_drop]
  omega

lemma take_append_slice (text : Bytes) (start count : ℕ) :
    text.take start ++ slice text start count = text.take (start + count) := take_add.symm

lemma slice_append_drop (text : Bytes) (start count : ℕ) :
    slice text start count ++ text.drop (start + count) = text.drop start := by
  rw [slice, ← drop_drop, take_append_drop]

lemma slice_all (text : Bytes) (start : ℕ) : slice text start (text.length - start) = text.drop start := by
  rw [slice, take_of_length_le]
  rw [length_drop]

lemma slice_succ (h : start < text.length) (count : ℕ) :
    slice text start (count + 1) = text.getD start 0 :: slice text (start + 1) count := by
  rw [slice, drop_eq_getElem_cons h, take_succ_cons, getD, getElem?_eq_getElem h]
  rfl

end Slices

lemma copyLiterals_emits {src : Bytes} {start count : ℕ} (op : ℕ) (h : start + count ≤ src.length) :
    Emits (copyLiterals src start op count) op (slice src start count) () := by
  induction count generalizing start op with
  | zero => exact Emits.pure
  | succ count ih =>
    have hstart : start < src.length := by omega
    rw [copyLiterals, if_pos hstart, slice_succ hstart]
    exact Emits.store.bind (ih (op + 1) (by omega))

/-! ## Reading the bytes back -/

section Reading
variable {src rest : Bytes} {ip n total : ℕ}

lemma byteAt_of_drop {byte : UInt8} (h : src.drop ip = byte :: rest) : byteAt src ip = byte.toNat := by
  rw [byteAt, getD_of_drop h]

lemma lz4ReadLengthFrom_replicate {last : UInt8} (hlast : last.toNat < 255) (q : ℕ)
    (h : src.drop ip = replicate q 255 ++ last :: rest) :
    lz4ReadLengthFrom src total ip =
      if total + 255 * q ≤ lz4LengthCap then some (total + 255 * q + last.toNat, ip + q + 1)
      else none := by
  induction q generalizing ip total with
  | zero =>
    have hbyte := byteAt_of_drop h
    rw [lz4ReadLengthFrom, if_pos (lt_of_drop h), hbyte, if_pos (ne_of_lt hlast)]
    by_cases hcap : total ≤ lz4LengthCap
    · rw [if_neg (not_lt.mpr hcap), if_pos (by omega)]
      rfl
    · rw [if_pos (not_le.mp hcap), if_neg (by omega)]
  | succ q ih =>
    rw [replicate_succ, cons_append] at h
    have hbyte : byteAt src ip = 255 := byteAt_of_drop h
    have hrest : src.drop (ip + 1) = replicate q 255 ++ last :: rest :=
      drop_of_drop [255] h
    rw [lz4ReadLengthFrom, if_pos (lt_of_drop h), hbyte, ih hrest]
    by_cases hcap : total ≤ lz4LengthCap
    · rw [if_neg (not_lt.mpr hcap), if_neg (not_not.mpr rfl)]
      have harith : total + 255 + 255 * q = total + 255 * (q + 1) := by omega
      have hnext : ip + 1 + q + 1 = ip + (q + 1) + 1 := by omega
      rw [harith, hnext]
    · rw [if_pos (not_le.mp hcap), if_neg (by omega)]

lemma toNat_mod_255 (n : ℕ) : (ofNat (n % 255)).toNat = n % 255 := by
  rw [toNat_ofNat']
  omega

lemma length_lengthBytes (n : ℕ) : (lengthBytes n).length = n / 255 + 1 := by
  simp [lengthBytes]

lemma lz4ReadLength_lengthBytes (h : src.drop ip = lengthBytes n ++ rest) : lz4ReadLength src ip =
      if 255 * (n / 255) ≤ lz4LengthCap then some (n, ip + (lengthBytes n).length) else none := by
  rw [lengthBytes, append_assoc] at h
  have hlast : (ofNat (n % 255)).toNat < 255 := by
    rw [toNat_mod_255]
    omega
  rw [lz4ReadLength, lz4ReadLengthFrom_replicate hlast _ h, toNat_mod_255, length_lengthBytes]
  have hsum : 0 + 255 * (n / 255) + n % 255 = n := by omega
  rw [hsum, Nat.zero_add]
  rfl

lemma lz4Nibble_moreBytes (h : src.drop ip = moreBytes n ++ rest) : lz4Nibble src (min n 15) ip =
      if Readable n then some (n, ip + (moreBytes n).length) else none := by
  by_cases hsmall : n < 15
  · have hnone : moreBytes n = [] := if_pos hsmall
    have hreadable : Readable n := by
      rw [Readable, Nat.sub_eq_zero_of_le hsmall.le]
      decide
    rw [lz4Nibble, if_neg (by omega), if_pos hreadable, hnone, min_eq_left hsmall.le]
    rfl
  · have hmore : moreBytes n = lengthBytes (n - 15) := if_neg hsmall
    rw [hmore] at h ⊢
    rw [lz4Nibble, if_pos (by omega), lz4ReadLength_lengthBytes h]
    by_cases hcap : 255 * ((n - 15) / 255) ≤ lz4LengthCap
    · have hread : Readable n := hcap
      have hsum : min n 15 + (n - 15) = n := by omega
      rw [if_pos hcap, if_pos hread, Option.map_some]
      dsimp only
      rw [hsum]
    · have hread : ¬ Readable n := hcap
      rw [if_neg hcap, if_neg hread, Option.map_none]

lemma tokenByte_nibbles (literals matched : ℕ) :
    (tokenByte literals matched).toNat >>> 4 = min literals 15 ∧
      (tokenByte literals matched).toNat &&& 15 = min matched 15 := by
  have hall : ∀ a b : Fin 16, (ofNat ((a.val <<< 4) ||| b.val)).toNat >>> 4 = a.val ∧
      (ofNat ((a.val <<< 4) ||| b.val)).toNat &&& 15 = b.val := by decide +kernel
  exact hall ⟨min literals 15, by omega⟩ ⟨min matched 15, by omega⟩

lemma offset_bytes {offset : ℕ} (h : offset ≤ lz4MaxOffset) :
    (ofNat (offset &&& 255)).toNat ||| ((ofNat ((offset >>> 8) &&& 255)).toNat <<< 8) = offset := by
  have hmask : ∀ x : ℕ, x &&& 255 = x % 2 ^ 8 := fun x => Nat.and_two_pow_sub_one_eq_mod x 8
  have hlow : (ofNat (offset % 2 ^ 8)).toNat = offset % 2 ^ 8 := by
    rw [toNat_ofNat']
    omega
  have hhigh : (ofNat (offset / 2 ^ 8 % 2 ^ 8)).toNat = offset / 2 ^ 8 := by
    rw [toNat_ofNat']
    simp only [lz4MaxOffset] at h
    omega
  rw [hmask, hmask, Nat.shiftRight_eq_div_pow, hlow, hhigh, Nat.or_comm,
    ← Nat.shiftLeft_add_eq_or_of_lt (Nat.mod_lt _ (by decide)), Nat.shiftLeft_eq]
  omega

lemma lz4Match_matchBytes {offset length op : ℕ} (literals : ℕ) (hmax : offset ≤ lz4MaxOffset)
    (hpos : 0 < offset) (hbehind : offset ≤ op) (hmin : lz4MinMatch ≤ length)
    (hread : Readable (length - lz4MinMatch)) (h : src.drop ip = matchBytes offset length ++ rest) :
    lz4Match src (tokenByte literals (length - lz4MinMatch)).toNat ip op =
      some (offset, length, ip + (matchBytes offset length).length) := by
  have hlow := byteAt_of_drop h
  have htail : src.drop (ip + 1) = _ :: _ := drop_of_drop [_] h
  have hhigh := byteAt_of_drop htail
  have hmore : src.drop (ip + 2) = moreBytes (length - lz4MinMatch) ++ rest :=
    drop_of_drop [_] htail
  have hroom := lt_of_drop htail
  have hlength : (matchBytes offset length).length = 2 + (moreBytes (length - lz4MinMatch)).length := by
    rw [matchBytes, length_cons, length_cons]
    omega
  rw [lz4Match, if_neg (not_le.mpr hroom), hlow, hhigh]
  dsimp only
  rw [offset_bytes hmax, if_neg (by omega), (tokenByte_nibbles _ _).2, lz4Nibble_moreBytes hmore,
    if_pos hread, Option.map_some, Nat.sub_add_cancel hmin, hlength, Nat.add_assoc]

end Reading
end Takibi.Lz4
