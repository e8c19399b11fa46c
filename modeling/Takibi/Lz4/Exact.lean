import Takibi.Lz4.Decode

/-! The decoder accepts exactly the blocks: what it reads is parsed as a block again, and what it wrote is
the text that the block stands for. -/

namespace Takibi.Lz4
open Region List UInt8

/-- The bytes are a block that stands for the text, with lengths that the decoder reads to their end. The low
nibble of the last token says nothing. -/
inductive Decodes : Bytes → Bytes → Prop
  | empty : Decodes [] []
  | block {text : Bytes} {seqs : List Sequence} {stop : ℕ} (matched : ℕ) : Describes text 0 seqs stop →
      (∀ s ∈ seqs, s.Readable) → Readable (text.drop stop).length →
      Decodes (seqs.flatMap Sequence.bytes ++ literalBytes (text.drop stop) matched) text

/-! ## What was read -/

section Reading
variable {src : Bytes} {ip op total found next nibble : ℕ}

lemma drop_eq_cons (h : ip < src.length) : src.drop ip = src.getD ip 0 :: src.drop (ip + 1) := by
  rw [drop_eq_getElem_cons h, getD, getElem?_eq_getElem h, Option.getD_some]

lemma lz4ReadLengthFrom_inv (h : lz4ReadLengthFrom src total ip = some (found, next)) :
    ∃ (q : ℕ) (last : UInt8), last.toNat < 255 ∧ total + 255 * q ≤ lz4LengthCap ∧
      found = total + 255 * q + last.toNat ∧ src.drop ip = replicate q 255 ++ last :: src.drop next ∧
      next = ip + q + 1 := by
  fun_induction lz4ReadLengthFrom src total ip with
  | case1 => cases h
  | case2 total ip hip hcap hbyte =>
    cases h
    have hlt : (src.getD ip 0).toNat < 256 := (src.getD ip 0).toNat_lt
    refine ⟨0, src.getD ip 0, by rw [byteAt] at hbyte; omega, by omega, rfl, drop_eq_cons hip, rfl⟩
  | case3 total ip hip hcap hbyte ih =>
    obtain ⟨q, last, hlast, hle, rfl, hdrop, rfl⟩ := ih h
    have h255 : byteAt src ip = 255 := not_not.mp hbyte
    have hget : src.getD ip 0 = 255 := UInt8.toNat_inj.mp h255
    refine ⟨q + 1, last, hlast, by omega, by omega, ?_, by omega⟩
    have hnext : ip + 1 + q + 1 = ip + (q + 1) + 1 := by omega
    rw [drop_eq_cons hip, hget, hdrop, replicate_succ, cons_append]
  | case4 => cases h

lemma lengthBytes_of_replicate {last : UInt8} (hlast : last.toNat < 255) (q : ℕ) :
    lengthBytes (255 * q + last.toNat) = replicate q 255 ++ [last] := by
  have hdiv : (255 * q + last.toNat) / 255 = q := by omega
  have hmod : (255 * q + last.toNat) % 255 = last.toNat := by omega
  rw [lengthBytes, hdiv, hmod, UInt8.ofNat_toNat]

lemma lz4Nibble_inv (hnibble : nibble ≤ 15) (h : lz4Nibble src nibble ip = some (found, next)) :
    nibble = min found 15 ∧ Readable found ∧ src.drop ip = moreBytes found ++ src.drop next ∧
      next = ip + (moreBytes found).length := by
  unfold lz4Nibble at h
  split_ifs at h with hlong
  · obtain ⟨⟨more, after⟩, hread, heq⟩ := Option.map_eq_some_iff.mp h
    cases heq
    obtain ⟨q, last, hlast, hcap, rfl, hdrop, rfl⟩ := lz4ReadLengthFrom_inv hread
    have hmore : moreBytes (nibble + (0 + 255 * q + last.toNat)) = replicate q 255 ++ [last] := by
      rw [moreBytes, if_neg (by omega), ← lengthBytes_of_replicate hlast]
      congr 1
      omega
    refine ⟨by omega, ?_, ?_, ?_⟩
    · rw [Readable]
      omega
    · rw [hmore, hdrop, append_assoc, singleton_append]
    · rw [hmore, length_append, length_replicate, length_singleton, Nat.add_assoc]
  · obtain ⟨rfl, rfl⟩ := Prod.mk.inj (Option.some.inj h)
    have hshort : moreBytes nibble = [] := if_pos (by omega)
    refine ⟨by omega, (readable_iff _).mpr ?_, ?_, ?_⟩
    · rw [lz4LongestRun]
      omega
    · rw [hshort, nil_append]
    · rw [hshort, length_nil, Nat.add_zero]

lemma tokenByte_of_nibbles {byte : UInt8} {literals matched : ℕ} (hhigh : byte.toNat >>> 4 = min literals 15)
    (hlow : byte.toNat &&& 15 = min matched 15) : tokenByte literals matched = byte := by
  have hall : ∀ b : Fin 256, ofNat (((b.val >>> 4) <<< 4) ||| (b.val &&& 15)) = ofNat b.val := by
    decide +kernel
  have hbyte := hall ⟨byte.toNat, byte.toNat_lt⟩
  rw [tokenByte, ← hhigh, ← hlow, hbyte, UInt8.ofNat_toNat]

lemma offset_of_bytes (low high : UInt8) :
    ofNat ((low.toNat ||| (high.toNat <<< 8)) &&& 255) = low ∧
      ofNat (((low.toNat ||| (high.toNat <<< 8)) >>> 8) &&& 255) = high ∧
      (low.toNat ||| (high.toNat <<< 8)) ≤ lz4MaxOffset := by
  have hlow : low.toNat < 2 ^ 8 := low.toNat_lt
  have hhigh : high.toNat < 2 ^ 8 := high.toNat_lt
  have hmask : ∀ x : ℕ, x &&& 255 = x % 2 ^ 8 := fun x => Nat.and_two_pow_sub_one_eq_mod x 8
  have hsum : (low.toNat ||| (high.toNat <<< 8)) = high.toNat * 2 ^ 8 + low.toNat := by
    rw [Nat.or_comm, ← Nat.shiftLeft_add_eq_or_of_lt hlow, Nat.shiftLeft_eq]
  have hfirst : (high.toNat * 2 ^ 8 + low.toNat) % 2 ^ 8 = low.toNat := by omega
  have hsecond : (high.toNat * 2 ^ 8 + low.toNat) / 2 ^ 8 % 2 ^ 8 = high.toNat := by omega
  rw [hsum, hmask, hmask, Nat.shiftRight_eq_div_pow, hfirst, hsecond, UInt8.ofNat_toNat, UInt8.ofNat_toNat]
  refine ⟨rfl, rfl, ?_⟩
  rw [lz4MaxOffset]
  omega

lemma lz4Match_inv {token offset length : ℕ} (h : lz4Match src token ip op = some (offset, length, next)) :
    0 < offset ∧ offset ≤ op ∧ offset ≤ lz4MaxOffset ∧ lz4MinMatch ≤ length ∧
      token &&& 15 = min (length - lz4MinMatch) 15 ∧ Readable (length - lz4MinMatch) ∧
      src.drop ip = matchBytes offset length ++ src.drop next ∧ next = ip + (matchBytes offset length).length := by
  simp only [lz4Match] at h
  split_ifs at h with hend hoffset
  obtain ⟨⟨more, after⟩, hnibble, heq⟩ := Option.map_eq_some_iff.mp h
  obtain ⟨rfl, hrest⟩ := Prod.mk.inj heq
  cases hrest
  have hmask : token &&& 15 ≤ 15 := Nat.and_le_right
  obtain ⟨hlow, hreadable, hdrop, hnext⟩ := lz4Nibble_inv hmask hnibble
  obtain ⟨hfirst, hsecond, hmax⟩ := offset_of_bytes (src.getD ip 0) (src.getD (ip + 1) 0)
  have hbytes : matchBytes (byteAt src ip ||| (byteAt src (ip + 1) <<< 8)) (more + lz4MinMatch) =
      src.getD ip 0 :: src.getD (ip + 1) 0 :: moreBytes more := by
    rw [matchBytes, Nat.add_sub_cancel, byteAt, byteAt, hfirst, hsecond]
  refine ⟨by omega, by omega, hmax, Nat.le_add_left .., ?_, ?_, ?_, ?_⟩
  · rw [Nat.add_sub_cancel]
    exact hlow
  · rw [Nat.add_sub_cancel]
    exact hreadable
  · rw [hbytes, drop_eq_cons (by omega), drop_eq_cons (by omega), hdrop]
    rfl
  · rw [hbytes, length_cons, length_cons, hnext]
    omega

end Reading

/-! ## What was written -/

def repeatBack (offset : ℕ) : ℕ → Bytes → Bytes
  | 0, text => text
  | count + 1, text => repeatBack offset count (text ++ [text.getD (text.length - offset) 0])

section Writing
variable {text : Bytes} {offset count : ℕ}

lemma length_repeatBack : (repeatBack offset count text).length = text.length + count := by
  induction count generalizing text with
  | zero => rfl
  | succ count ih =>
    rw [repeatBack, ih, length_append, length_singleton]
    omega

lemma take_repeatBack (offset count : ℕ) (text : Bytes) :
    (repeatBack offset count text).take text.length = text := by
  induction count generalizing text with
  | zero => exact take_length
  | succ count ih =>
    have htake := congrArg (take text.length) (ih (text ++ [text.getD (text.length - offset) 0]))
    rwa [take_take, take_left, length_append, min_eq_left (Nat.le_add_right ..)] at htake

lemma take_repeatBack_of_le {k : ℕ} (h : k ≤ text.length) :
    (repeatBack offset count text).take k = text.take k := by
  have htake := congrArg (take k) (take_repeatBack offset count text)
  rwa [take_take, min_eq_left h] at htake

lemma repeatBack_repeats (hpos : 0 < offset) (hbehind : offset ≤ text.length) {k : ℕ} (hk : k < count) :
    (repeatBack offset count text)[text.length + k]? = (repeatBack offset count text)[text.length + k - offset]? := by
  induction count generalizing text k with
  | zero => exact absurd hk (Nat.not_lt_zero k)
  | succ count ih =>
    have hlength : (text ++ [text.getD (text.length - offset) 0]).length = text.length + 1 := by simp
    rw [repeatBack]
    cases k with
    | zero =>
      -- The first byte is the one that was `offset` bytes before the end.
      have hlt : text.length - offset < text.length := by omega
      have hsame : ∀ i ≤ text.length, (repeatBack offset count (text ++ [text.getD (text.length - offset) 0]))[i]? =
          (text ++ [text.getD (text.length - offset) 0])[i]? := by
        intro i hi
        rw [← getElem?_take_of_lt (show i < text.length + 1 by omega), ← hlength, take_repeatBack]
      rw [Nat.add_zero, hsame _ le_rfl, hsame _ (Nat.sub_le ..), getElem?_append_right le_rfl,
        getElem?_append_left hlt, Nat.sub_self, getD, getElem?_eq_getElem hlt]
      rfl
    | succ k =>
      have hbehind' : offset ≤ (text ++ [text.getD (text.length - offset) 0]).length := by
        rw [hlength]
        omega
      have hrest := ih hbehind' (Nat.lt_of_succ_lt_succ hk)
      rwa [hlength, show text.length + 1 + k = text.length + (k + 1) by omega] at hrest

lemma copyMatch_repeatBack {region : Bytes} {op : ℕ} (hpos : 0 < offset) (hbehind : offset ≤ op)
    (hroom : op + count ≤ region.length) :
    ∃ region', (copyMatch (op - offset) op count).on region = (some (), region') ∧
      region'.length = region.length ∧ region'.take (op + count) = repeatBack offset count (region.take op) := by
  have hfront : (region.take op).length = op := by
    rw [length_take]
    omega
  have hsize : (repeatBack offset count (region.take op)).length = op + count := by
    rw [length_repeatBack, hfront]
  have hbegin : (repeatBack offset count (region.take op)).take op = region.take op := by
    rw [take_repeatBack_of_le hfront.ge, take_take, min_self]
  have hrepeats : ∀ k < count, (repeatBack offset count (region.take op))[op + k]? =
      (repeatBack offset count (region.take op))[op + k - offset]? := by
    intro k hk
    have hbehind' : offset ≤ (region.take op).length := hfront.ge.trans' hbehind
    have hsame := repeatBack_repeats hpos hbehind' hk
    rwa [hfront] at hsame
  obtain ⟨region', hcopy, happ⟩ := copyMatch_appends hbegin.symm hpos hbehind hroom hsize.ge hrepeats
  refine ⟨region', hcopy, happ.length, ?_⟩
  have htake := happ.take
  have hwhole := take_append_slice (repeatBack offset count (region.take op)) op count
  rw [length_slice hsize.ge] at htake
  rw [hbegin] at hwhole
  rw [htake, hwhole, ← hsize, take_length]

lemma fits_of_take {whole literals : Bytes} {op : ℕ} (hop : text.length = op) (hpos : 0 < offset)
    (hbehind : offset ≤ op + literals.length) (hmax : offset ≤ lz4MaxOffset) (hmin : lz4MinMatch ≤ count)
    (hwhole : whole.take (op + literals.length + count) = repeatBack offset count (text ++ literals)) :
    Sequence.Fits whole op ⟨literals, offset, count⟩ := by
  have hlength : (text ++ literals).length = op + literals.length := by rw [length_append, hop]
  have hroom : op + literals.length + count ≤ whole.length := by
    have hsame := congrArg length hwhole
    rw [length_take, length_repeatBack, hlength] at hsame
    omega
  have hget : ∀ i < op + literals.length + count, whole[i]? = (repeatBack offset count (text ++ literals))[i]? := by
    intro i hi
    rw [← hwhole, getElem?_take_of_lt hi]
  refine ⟨?_, hpos, hmax, hbehind, hmin, hroom, fun k hk => ?_⟩
  · have hfront := congrArg (take (op + literals.length)) hwhole
    rw [take_take, min_eq_left (Nat.le_add_right ..), ← hlength, take_repeatBack, hlength] at hfront
    have hdrop := congrArg (drop op) hfront
    rw [drop_take, Nat.add_sub_cancel_left, ← hop, drop_left, hop] at hdrop
    exact hdrop.symm
  · dsimp only at hk ⊢
    rw [hget _ (by omega), hget _ (by omega), ← hlength]
    exact repeatBack_repeats hpos (by rw [hlength]; exact hbehind) hk

end Writing

/-! ## The whole block -/

section Block
variable {src region region' : Bytes} {dstLen ip op n : ℕ}

structure Parsed (src region : Bytes) (dstLen ip op : ℕ) (text : Bytes) : Prop where
  room : text.length ≤ dstLen
  start : op ≤ text.length
  written : text.take op = region.take op
  parse : ∃ (seqs : List Sequence) (stop matched : ℕ), Describes text op seqs stop ∧
    (∀ s ∈ seqs, s.Readable) ∧ Readable (text.drop stop).length ∧
    src.drop ip = seqs.flatMap Sequence.bytes ++ literalBytes (text.drop stop) matched

section
variable {literals start : ℕ} (hip : ip < src.length)
  (hnibble : lz4Nibble src (byteAt src ip >>> 4) (ip + 1) = some (literals, start))
include hip hnibble

lemma drop_eq_literalBytes {matched : ℕ} (hread : start + literals ≤ src.length)
    (hlow : byteAt src ip &&& 15 = min matched 15) :
    src.drop ip = literalBytes (slice src start literals) matched ++ src.drop (start + literals) ∧
      Readable literals := by
  have hbyte : byteAt src ip < 256 := (src.getD ip 0).toNat_lt
  have hhigh : byteAt src ip >>> 4 ≤ 15 := by
    rw [Nat.shiftRight_eq_div_pow]
    omega
  obtain ⟨htoken, hreadable, hmore, -⟩ := lz4Nibble_inv hhigh hnibble
  refine ⟨?_, hreadable⟩
  rw [literalBytes, length_slice hread, tokenByte_of_nibbles htoken hlow, drop_eq_cons hip, hmore, cons_append,
    append_assoc, slice, ← drop_drop, take_append_drop]

lemma parsed_last (hend : start + literals = src.length) (hroom : op + literals ≤ dstLen)
    (hlength : region.length = dstLen) :
    Parsed src region dstLen ip op (region.take op ++ slice src start literals) := by
  have hop : (region.take op).length = op := by
    rw [length_take]
    omega
  have htail : (region.take op ++ slice src start literals).drop op = slice src start literals := by
    rw [drop_append_of_le_length hop.ge, drop_eq_nil_of_le hop.le, nil_append]
  have hsize := length_slice hend.le
  have hmask : byteAt src ip &&& 15 = min (byteAt src ip &&& 15) 15 := (min_eq_left Nat.and_le_right).symm
  obtain ⟨hdrop, hreadable⟩ := drop_eq_literalBytes hip hnibble hend.le hmask
  rw [hend, drop_length, append_nil] at hdrop
  refine ⟨?_, ?_, ?_, [], op, byteAt src ip &&& 15, .nil op ?_, forall_mem_nil _, ?_, ?_⟩
  · rw [length_append, hop, hsize]
    exact hroom
  · rw [length_append, hop]
    exact Nat.le_add_right ..
  · rw [take_append_of_le_length hop.ge, take_take, min_self]
  · rw [length_append, hop]
    exact Nat.le_add_right ..
  · rwa [htail, hsize]
  · rw [htail]
    exact hdrop

lemma Parsed.cons {offset matchLength next : ℕ} {text region₂ : Bytes}
    (hread : start + literals ≤ src.length) (hop : op ≤ region.length)
    (hmatch : lz4Match src (byteAt src ip) (start + literals) (op + literals) = some (offset, matchLength, next))
    (hregion : region₂.take (op + literals + matchLength) =
      repeatBack offset matchLength (region.take op ++ slice src start literals))
    (h : Parsed src region₂ dstLen next (op + literals + matchLength) text) : Parsed src region dstLen ip op text := by
  obtain ⟨hpos, hbehind, hmax, hmin, hlow, hreadableMatch, hbytes, -⟩ := lz4Match_inv hmatch
  obtain ⟨hdrop, hreadable⟩ := drop_eq_literalBytes hip hnibble hread hlow
  obtain ⟨seqs, stop, matched, hdescribes, hall, hlast, hrest⟩ := h.parse
  have hsize := length_slice hread
  have hlength : (region.take op).length = op := by
    rw [length_take]
    omega
  have hfits : Sequence.Fits text op ⟨slice src start literals, offset, matchLength⟩ := by
    refine fits_of_take hlength hpos (by rwa [hsize]) hmax hmin ?_
    rw [hsize, h.written, hregion]
  refine ⟨h.room, by have := h.start; omega, ?_, ⟨slice src start literals, offset, matchLength⟩ :: seqs, stop, matched,
    .cons hfits ?_, forall_mem_cons.mpr ⟨⟨?_, hreadableMatch⟩, hall⟩, hlast, ?_⟩
  · have hfront := congrArg (take op) (h.written.trans hregion)
    have hshort : op ≤ (region.take op ++ slice src start literals).length := by
      rw [length_append, hlength]
      exact Nat.le_add_right ..
    rw [take_take, min_eq_left (by omega)] at hfront
    rw [hfront, take_repeatBack_of_le hshort, take_append_of_le_length hlength.ge, take_take, min_self]
  · dsimp only
    rw [hsize]
    exact hdescribes
  · dsimp only
    rw [hsize]
    exact hreadable
  · rw [hdrop, hbytes, hrest, flatMap_cons, Sequence.bytes]
    simp only [append_assoc]

end

lemma lz4DecodeFrom_parsed (hsrc : src ≠ []) (hlength : region.length = dstLen) (hop : op ≤ dstLen)
    (h : (lz4DecodeFrom src dstLen ip op).on region = (some n, region')) :
    ∃ text, text.length = n ∧ Parsed src region dstLen ip op text := by
  induction hleft : src.length - ip using Nat.strong_induction_on generalizing ip op region with
  | _ left ih =>
    by_cases hip : ip < src.length
    · cases hnibble : lz4Nibble src (byteAt src ip >>> 4) (ip + 1) with
      | none =>
        rw [lz4DecodeFrom_invalid hip hnibble, failure_on] at h
        cases h
      | some found =>
        obtain ⟨literals, start⟩ := found
        rw [lz4DecodeFrom_nibble hip hnibble] at h
        split_ifs at h with hbounds
        · rw [failure_on] at h
          cases h
        have hread : start + literals ≤ src.length := by omega
        have hroom : op + literals ≤ dstLen := by omega
        obtain ⟨region₁, hcopy, happ₁⟩ := copyLiterals_appends hread (hlength.symm ▸ hroom : op + literals ≤ region.length)
        rw [bind_on, hcopy] at h
        dsimp only at h
        have hsame₁ := happ₁.length
        have htake₁ := happ₁.take
        rw [length_slice hread] at htake₁
        unfold afterLiterals at h
        split_ifs at h with hend
        · obtain ⟨hn, -⟩ := Prod.mk.inj h
          have hparsed := parsed_last hip hnibble hend hroom hlength
          refine ⟨_, ?_, hparsed⟩
          rw [length_append, length_take, length_slice hread, ← Option.some.inj hn]
          omega
        · cases hmatch : lz4Match src (byteAt src ip) (start + literals) (op + literals) with
          | none =>
            simp only [hmatch, failure_on] at h
            cases h
          | some found =>
            obtain ⟨offset, matchLength, next⟩ := found
            simp only [hmatch] at h
            split_ifs at h with hlong
            · rw [failure_on] at h
              cases h
            obtain ⟨hpos, hbehind, -⟩ := lz4Match_inv hmatch
            obtain ⟨region₂, hcopy₂, hsame₂, htake₂⟩ := copyMatch_repeatBack hpos hbehind
              (show op + literals + matchLength ≤ region₁.length by omega)
            rw [bind_on, hcopy₂] at h
            dsimp only at h
            rw [htake₁] at htake₂
            have hnext := lz4Match_lt hmatch
            have hstart := lz4Nibble_le hnibble
            obtain ⟨text, htext, hparsed⟩ := ih (src.length - next) (by omega)
              (hsame₂.trans (hsame₁.trans hlength)) (by omega) h rfl
            exact ⟨text, htext, hparsed.cons hip hnibble hread (by omega) hmatch htake₂⟩
    · rw [lz4DecodeFrom, if_neg hip, if_neg (fun hempty => hsrc (length_eq_zero_iff.mp hempty)), failure_on] at h
      cases h

end Block

/-! ## The decoder -/

section Decoder
variable {src dst text : Bytes}

lemma lz4Decode_of_decodes (h : Decodes src text) (hroom : text.length ≤ dst.length) :
    lz4Decode src dst = (.decoded text.length, text ++ dst.drop text.length) := by
  cases h with
  | empty =>
    have hempty : lz4DecodeFrom [] dst.length 0 0 = pure 0 := by
      rw [lz4DecodeFrom]
      rfl
    rw [lz4Decode, hempty]
    rfl
  | @block _ seqs stop matched hdescribes hreadable hlast =>
    have hwrites : Appends (lz4DecodeFrom (seqs.flatMap Sequence.bytes ++ literalBytes (text.drop stop) matched)
        dst.length 0 0) dst 0 (text.drop 0) text.length :=
      lz4DecodeFrom_block hdescribes drop_zero hreadable hlast rfl hroom
    obtain ⟨dst', hon, happ⟩ := hwrites
    rw [drop_zero] at happ
    rw [lz4Decode, hon, happ.eq]

lemma decodes_of_lz4Decode {n : ℕ} (h : (lz4Decode src dst).1 = .decoded n) :
    ∃ text, Decodes src text ∧ text.length = n ∧ n ≤ dst.length := by
  unfold lz4Decode at h
  split at h
  · next op dst' hon =>
    obtain rfl := DecodeResult.decoded.inj h
    by_cases hsrc : src = []
    · subst hsrc
      have hempty : lz4DecodeFrom [] dst.length 0 0 = pure 0 := by
        rw [lz4DecodeFrom]
        rfl
      rw [hempty] at hon
      obtain rfl := Option.some.inj (Prod.mk.inj hon).1
      exact ⟨[], .empty, rfl, Nat.zero_le _⟩
    · obtain ⟨text, rfl, hparsed⟩ := lz4DecodeFrom_parsed hsrc rfl (Nat.zero_le _) hon
      obtain ⟨seqs, stop, matched, hdescribes, hreadable, hlast, hbytes⟩ := hparsed.parse
      rw [drop_zero] at hbytes
      exact ⟨text, hbytes ▸ .block matched hdescribes hreadable hlast, rfl, hparsed.room⟩
  · cases h

end Decoder
end Takibi.Lz4
