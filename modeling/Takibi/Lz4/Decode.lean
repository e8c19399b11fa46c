import Takibi.Lz4.Block

/-! The decoder writes the text that a block stands for, as long as it reads the lengths to their
end. -/

namespace Takibi.Lz4
open Region List

/-- The longest run of literals, and the longest match but for its minimum, that is read back. -/
def lz4LongestRun : ℕ := 2147483789

lemma readable_iff (n : ℕ) : Readable n ↔ n ≤ lz4LongestRun := by
  simp only [Readable, lz4LengthCap, lz4LongestRun]
  omega

lemma Describes.readable {text : Bytes} {start stop : ℕ} {seqs : List Sequence} {s : Sequence}
    (h : Describes text start seqs stop) (hshort : text.length ≤ lz4LongestRun) (hs : s ∈ seqs) : s.Readable := by
  induction h with
  | nil => cases hs
  | cons hfits _ ih =>
    rcases mem_cons.mp hs with rfl | hs
    · have hroom := hfits.room
      exact ⟨(readable_iff _).mpr (by omega), (readable_iff _).mpr (by omega)⟩
    · exact ih hs

/-! ## The copy loops -/

lemma copyLiterals_appends {src region : Bytes} {start count op : ℕ} (h : start + count ≤ src.length)
    (hroom : op + count ≤ region.length) :
    Appends (copyLiterals src start op count) region op (slice src start count) () := by
  refine (copyLiterals_emits op h region (by omega)).1 ?_
  rwa [length_slice h]

lemma copyMatch_appends {text region : Bytes} {offset op count : ℕ}
    (hregion : region.take op = text.take op) (hpos : 0 < offset) (hbehind : offset ≤ op)
    (hroom : op + count ≤ region.length) (htext : op + count ≤ text.length)
    (hrepeats : ∀ k < count, text[op + k]? = text[op + k - offset]?) :
    Appends (copyMatch (op - offset) op count) region op (slice text op count) () := by
  induction count generalizing op region with
  | zero => exact .pure (by omega)
  | succ count ih =>
    have hop : op < text.length := by omega
    have hbyte : text[op]? = some (text.getD op 0) := by
      rw [getD, getElem?_eq_getElem hop]
      rfl
    have hread : region[op - offset]? = some (text.getD op 0) := by
      have hlt : op - offset < op := by omega
      rw [← getElem?_take_of_lt hlt, hregion, getElem?_take_of_lt hlt]
      exact (hrepeats 0 (by omega)).symm.trans hbyte
    have hfetch : Appends (fetch (op - offset)) region op [] (text.getD op 0) :=
      ⟨region, by rw [fetch_on, hread], .refl (by omega)⟩
    rw [copyMatch, slice_succ hop]
    refine hfetch.bind fun region₁ happ₁ => ?_
    have hsame₁ := happ₁.length
    have hstore : Appends (store op (text.getD op 0)) region₁ op [text.getD op 0] () :=
      .store (by rw [hsame₁]; omega)
    refine hstore.bind fun region₂ happ₂ => ?_
    have happ := happ₁.trans happ₂
    have hnext : op - offset + 1 = op + 1 - offset := by omega
    rw [hnext]
    refine ih ?_ (by omega) (by have := happ.length; omega) (by omega) fun k hk => ?_
    · have htake : region₂.take (op + 1) = region.take op ++ [text.getD op 0] := happ.take
      rw [htake, hregion, take_add_one, hbyte]
      rfl
    · have hk' := hrepeats (k + 1) (by omega)
      rwa [← Nat.add_assoc, Nat.add_right_comm] at hk'

/-! ## One sequence -/

section Sequences
variable {src region text rest written : Bytes} {dstLen ip op literals start matched : ℕ}

def afterLiterals (src : Bytes) (dstLen token ip op : ℕ) : Region.Writer UInt8 ℕ :=
  if ip = src.length then pure op
  else
    match lz4Match src token ip op with
    | none => failure
    | some (offset, matchLength, next) =>
      if matchLength > dstLen - op then failure
      else
        copyMatch (op - offset) op matchLength >>= fun _ =>
        lz4DecodeFrom src dstLen next (op + matchLength)

lemma lz4DecodeFrom_nibble (hip : ip < src.length)
    (hnibble : lz4Nibble src (byteAt src ip >>> 4) (ip + 1) = some (literals, start)) :
    lz4DecodeFrom src dstLen ip op =
      if start > src.length ∨ literals > src.length - start ∨ op > dstLen ∨ literals > dstLen - op then failure
      else copyLiterals src start op literals >>= fun _ =>
        afterLiterals src dstLen (byteAt src ip) (start + literals) (op + literals) := by
  rw [lz4DecodeFrom, if_pos hip]
  dsimp only
  split
  · next hnone =>
    rw [hnibble] at hnone
    cases hnone
  · next literals' start' hsome =>
    obtain ⟨rfl, rfl⟩ := Prod.mk.inj (Option.some.inj (hnibble.symm.trans hsome))
    refine ite_congr rfl (fun _ => rfl) fun _ => congrArg _ (funext fun _ => ?_)
    unfold afterLiterals
    split_ifs
    · rfl
    · split <;> split <;> simp_all

lemma lz4DecodeFrom_literals (hip : ip < src.length)
    (hnibble : lz4Nibble src (byteAt src ip >>> 4) (ip + 1) = some (literals, start))
    (hread : start + literals ≤ src.length) (hroom : op + literals ≤ dstLen) :
    lz4DecodeFrom src dstLen ip op = copyLiterals src start op literals >>= fun _ =>
      afterLiterals src dstLen (byteAt src ip) (start + literals) (op + literals) := by
  rw [lz4DecodeFrom_nibble hip hnibble, if_neg (by omega)]

lemma lz4DecodeFrom_invalid (hip : ip < src.length)
    (hnibble : lz4Nibble src (byteAt src ip >>> 4) (ip + 1) = none) :
    lz4DecodeFrom src dstLen ip op = failure := by
  rw [lz4DecodeFrom, if_pos hip]
  dsimp only
  split
  · rfl
  · next hsome =>
    rw [hnibble] at hsome
    cases hsome

lemma lz4DecodeFrom_literalBytes {bytes : Bytes}
    (hsrc : src.drop ip = literalBytes bytes matched ++ rest) (hread : Readable bytes.length)
    (hroom : op + bytes.length ≤ region.length) {b : ℕ}
    (hrest : ∀ region', Appended region op bytes region' →
      Appends (afterLiterals src region.length (tokenByte bytes.length matched).toNat
        (ip + (literalBytes bytes matched).length) (op + bytes.length)) region' (op + bytes.length)
        written b) :
    Appends (lz4DecodeFrom src region.length ip op) region op (bytes ++ written) b := by
  have hbyte := byteAt_of_drop hsrc
  have hmore : src.drop (ip + 1) = moreBytes bytes.length ++ (bytes ++ rest) := by
    rw [← append_assoc]
    exact drop_of_drop [_] hsrc
  have hbytes := drop_of_drop _ hmore
  set start := ip + 1 + (moreBytes bytes.length).length with hstart
  have hnibble : lz4Nibble src (byteAt src ip >>> 4) (ip + 1) = some (bytes.length, start) := by
    rw [hbyte, (tokenByte_nibbles _ _).1, lz4Nibble_moreBytes hmore, if_pos hread]
  have hlength : (literalBytes bytes matched).length = 1 + (moreBytes bytes.length).length + bytes.length := by
    rw [literalBytes, length_cons, length_append]
    omega
  have hslice : slice src start bytes.length = bytes := by
    rw [slice, hbytes, take_left]
  have hwithin : start + bytes.length ≤ src.length := by
    have hdrop := congrArg length hbytes
    have hip := lt_of_drop hsrc
    rw [length_drop, length_append] at hdrop
    have hmoreLength := congrArg length hmore
    rw [length_drop, length_append, length_append] at hmoreLength
    omega
  rw [lz4DecodeFrom_literals (lt_of_drop hsrc) hnibble hwithin hroom]
  have hcopy : Appends (copyLiterals src start op bytes.length) region op bytes () := by
    have happends := copyLiterals_appends hwithin hroom
    rwa [hslice] at happends
  refine hcopy.bind fun region' happ => ?_
  have hnext : start + bytes.length = ip + (literalBytes bytes matched).length := by omega
  rw [hbyte, hnext]
  exact hrest region' happ

lemma lz4DecodeFrom_sequence {s : Sequence} (hfits : s.Fits text op)
    (hsrc : src.drop ip = s.bytes ++ rest) (hreadable : s.Readable)
    (hregion : region.take op = text.take op) (hroom : text.length ≤ region.length)
    {b : ℕ} (hnext : ∀ region', region'.length = region.length →
      region'.take (op + s.literals.length + s.length) = text.take (op + s.literals.length + s.length) →
      Appends (lz4DecodeFrom src region.length (ip + s.bytes.length) (op + s.literals.length + s.length))
        region' (op + s.literals.length + s.length) written b) :
    Appends (lz4DecodeFrom src region.length ip op) region op
      (slice text op (s.literals.length + s.length) ++ written) b := by
  have hfit := hfits.room
  have hsplit : slice text op (s.literals.length + s.length) =
      s.literals ++ slice text (op + s.literals.length) s.length := by
    rw [slice, take_add, drop_drop]
    exact congrArg (· ++ slice text (op + s.literals.length) s.length) hfits.literals.symm
  rw [Sequence.bytes, append_assoc] at hsrc
  rw [hsplit, append_assoc]
  refine lz4DecodeFrom_literalBytes hsrc hreadable.1 (by omega) fun region₁ happ₁ => ?_
  have hsame₁ := happ₁.length
  have hmatchAt := drop_of_drop _ hsrc
  have hmore : ip + (literalBytes s.literals (s.length - lz4MinMatch)).length ≠ src.length := by
    intro hend
    rw [hend, drop_length] at hmatchAt
    cases hmatchAt
  have hmatch := lz4Match_matchBytes s.literals.length hfits.offset_le hfits.offset_pos hfits.behind
    hfits.min_le hreadable.2 hmatchAt
  rw [afterLiterals, if_neg hmore, hmatch]
  dsimp only
  rw [if_neg (by omega)]
  have htake₁ : region₁.take (op + s.literals.length) = text.take (op + s.literals.length) := by
    rw [happ₁.take, hregion, ← take_append_slice, ← hfits.literals]
  refine (copyMatch_appends htake₁ hfits.offset_pos hfits.behind (by omega) (by omega)
    hfits.repeats).bind fun region₂ happ₂ => ?_
  rw [length_slice (by omega)]
  have hbytes : ip + (literalBytes s.literals (s.length - lz4MinMatch)).length +
      (matchBytes s.offset s.length).length = ip + s.bytes.length := by
    rw [Sequence.bytes, length_append, Nat.add_assoc]
  rw [hbytes]
  refine hnext region₂ (happ₂.length.trans hsame₁) ?_
  have htake₂ := happ₂.take
  rwa [length_slice (by omega), htake₁, take_append_slice] at htake₂

lemma lz4DecodeFrom_last {last : Bytes} (hsrc : src.drop ip = literalBytes last matched)
    (hread : Readable last.length) (hroom : op + last.length ≤ region.length) :
    Appends (lz4DecodeFrom src region.length ip op) region op last (op + last.length) := by
  have hsrc' : src.drop ip = literalBytes last matched ++ [] := by rw [hsrc, append_nil]
  rw [← append_nil last]
  nth_rewrite 2 [append_nil]
  refine lz4DecodeFrom_literalBytes hsrc' hread hroom fun region' happ => ?_
  have hend : ip + (literalBytes last matched).length = src.length :=
    length_of_drop hsrc (lt_of_drop hsrc).le
  rw [afterLiterals, if_pos hend]
  exact .pure (by rw [happ.length]; exact hroom)

/-! ## The whole block -/

lemma lz4DecodeFrom_block {seqs : List Sequence} {stop : ℕ} (h : Describes text op seqs stop)
    (hsrc : src.drop ip = seqs.flatMap Sequence.bytes ++ literalBytes (text.drop stop) matched)
    (hreadable : ∀ s ∈ seqs, s.Readable) (hlast : Readable (text.drop stop).length)
    (hregion : region.take op = text.take op) (hroom : text.length ≤ region.length) :
    Appends (lz4DecodeFrom src region.length ip op) region op (text.drop op) text.length := by
  induction h generalizing ip region with
  | nil start hstart =>
    have hlength : (text.drop start).length = text.length - start := length_drop
    have happends : Appends (lz4DecodeFrom src region.length ip start) region start (text.drop start)
        (start + (text.drop start).length) := lz4DecodeFrom_last hsrc hlast (by omega)
    rwa [hlength, Nat.add_sub_cancel' hstart] at happends
  | @cons start stop s seqs hfits _ ih =>
    have hfit := hfits.room
    obtain ⟨hfirst, hrest⟩ := forall_mem_cons.mp hreadable
    have hsrc' : src.drop ip = s.bytes ++
        (seqs.flatMap Sequence.bytes ++ literalBytes (text.drop stop) matched) := by
      rw [hsrc, flatMap_cons, append_assoc]
    have hsplit : text.drop start = slice text start (s.literals.length + s.length) ++
        text.drop (start + s.literals.length + s.length) := by
      rw [slice, Nat.add_assoc, ← drop_drop, take_append_drop]
    rw [hsplit]
    refine lz4DecodeFrom_sequence hfits hsrc' hfirst hregion hroom fun region' hsame htake => ?_
    rw [← hsame]
    exact ih (drop_of_drop _ hsrc') hrest hlast htake (hsame ▸ hroom)

end Sequences
end Takibi.Lz4
