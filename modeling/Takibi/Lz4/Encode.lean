import Takibi.Lz4.Block

/-! The encoder emits the bytes of a block that stands for its source. -/

namespace Takibi.Lz4
open Region List Sequence Nat

/-! ## The bytes of one sequence -/

lemma lengthBytes_add (n : ℕ) : lengthBytes (n + 255) = 255 :: lengthBytes n := by
  have hdiv : (n + 255) / 255 = n / 255 + 1 := by omega
  have hmod : (n + 255) % 255 = n % 255 := by omega
  rw [lengthBytes, hdiv, hmod, replicate_succ]
  rfl

lemma lz4PutLength_emits (op n : ℕ) :
    Emits (lz4PutLength op n) op (lengthBytes n) (op + (lengthBytes n).length) := by
  induction n using Nat.strong_induction_on generalizing op with
  | _ n ih =>
    rw [lz4PutLength]
    by_cases hlong : n ≥ 255
    · obtain ⟨m, rfl⟩ := Nat.exists_eq_add_of_le' hlong
      have hrest := ih m (by omega) (op + 1)
      have hnext : op + 1 + (lengthBytes m).length = op + (255 :: lengthBytes m).length := by
        rw [length_cons]
        omega
      rw [hnext] at hrest
      rw [if_pos hlong, lengthBytes_add, Nat.add_sub_cancel]
      exact Emits.store.bind hrest
    · have hbytes : lengthBytes n = [UInt8.ofNat n] := by
        rw [lengthBytes, div_eq_of_lt (by omega), mod_eq_of_lt (by omega)]
        rfl
      have hdone : Emits (pure (op + 1) : Region.Writer UInt8 ℕ) (op + 1) [] (op + 1) := .pure
      rw [if_neg hlong, hbytes]
      exact Emits.store.bind hdone

lemma moreBytes_emits (op n : ℕ) :
    Emits (if min n 15 = 15 then lz4PutLength op (n - 15) else pure op) op (moreBytes n)
      (op + (moreBytes n).length) := by
  unfold moreBytes
  by_cases hsmall : n < 15
  · rw [if_neg (by omega), if_pos hsmall]
    exact .pure
  · rw [if_pos (by omega), if_neg hsmall]
    exact lz4PutLength_emits op (n - 15)

section Emit
variable {src : Bytes} {start literals offset length : ℕ} (op : ℕ)

lemma literalBytes_emits (h : start + literals ≤ src.length) (matched : ℕ) (f : ℕ → Region.Writer UInt8 ℕ)
    {written : Bytes} {b : ℕ}
    (hf : Emits (f (op + (literalBytes (slice src start literals) matched).length))
      (op + (literalBytes (slice src start literals) matched).length) written b) :
    Emits (store op (tokenByte literals matched) >>= fun _ =>
      (if min literals 15 = 15 then lz4PutLength (op + 1) (literals - 15) else pure (op + 1)) >>= fun next =>
      copyLiterals src start next literals >>= fun _ => f (next + literals)) op
      (literalBytes (slice src start literals) matched ++ written) b := by
  have hslice := length_slice h
  have hlength : (literalBytes (slice src start literals) matched).length =
      1 + (moreBytes literals).length + literals := by
    rw [literalBytes, length_cons, length_append, hslice]
    omega
  have hnext : op + 1 + (moreBytes literals).length + literals =
      op + (literalBytes (slice src start literals) matched).length := by omega
  rw [literalBytes, hslice, cons_append, append_assoc]
  have htoken : Emits (store op (tokenByte literals matched)) op [tokenByte literals matched] () := .store
  refine htoken.bind ((moreBytes_emits (op + 1) literals).bind ?_)
  refine (copyLiterals_emits _ h).bind ?_
  rw [hslice]
  rwa [← hnext] at hf

lemma lz4Emit_last (h : start + literals ≤ src.length) :
    Emits (lz4Emit src op start literals 0 0) op (literalBytes (slice src start literals) 0)
      (op + (literalBytes (slice src start literals) 0).length) := by
  have hend := literalBytes_emits op h 0 pure .pure
  rw [append_nil] at hend
  unfold lz4Emit
  simp only [ne_eq, not_true_eq_false, if_false, if_true]
  exact hend

def emitMatch (offset length op : ℕ) : Region.Writer UInt8 ℕ := do
  room op
  room (op + 1)
  store op (UInt8.ofNat (offset &&& 255))
  store (op + 1) (UInt8.ofNat ((offset >>> 8) &&& 255))
  if min (length - lz4MinMatch) 15 = 15 then lz4PutLength (op + 2) (length - lz4MinMatch - 15)
  else pure (op + 2)

lemma emitMatch_emits (offset length : ℕ) :
    Emits (emitMatch offset length op) op (matchBytes offset length)
      (op + (matchBytes offset length).length) := by
  have hlow : Emits (store op (UInt8.ofNat (offset &&& 255))) op [UInt8.ofNat (offset &&& 255)] () := .store
  have hhigh : Emits (store (op + 1) (UInt8.ofNat ((offset >>> 8) &&& 255))) (op + 1)
      [UInt8.ofNat ((offset >>> 8) &&& 255)] () := .store
  have hlength : op + (matchBytes offset length).length =
      op + 2 + (moreBytes (length - lz4MinMatch)).length := by
    rw [matchBytes, length_cons, length_cons]
    omega
  rw [hlength]
  refine .room (.room (hlow.bind (hhigh.bind (moreBytes_emits (op + 2) (length - lz4MinMatch)))) ?_) ?_ <;> omega

lemma lz4Emit_sequence (h : start + literals ≤ src.length) (hmin : lz4MinMatch ≤ length) :
    Emits (lz4Emit src op start literals offset length) op
      (bytes ⟨slice src start literals, offset, length⟩)
      (op + (bytes ⟨slice src start literals, offset, length⟩).length) := by
  have hpos : length ≠ 0 := by
    intro hzero
    rw [hzero] at hmin
    cases hmin
  have hboth := literalBytes_emits op h (length - lz4MinMatch) (emitMatch offset length)
    (emitMatch_emits _ offset length)
  unfold lz4Emit
  simp only [if_pos hpos, if_neg hpos]
  rw [bytes, length_append, ← Nat.add_assoc]
  exact hboth

end Emit

/-! ## Finding matches -/

section Matches
variable {src : Bytes} {table : List ℕ} {here reference limit length a b : ℕ}

lemma getElem?_eq_of_byteAt (ha : a < src.length) (hb : b < src.length) (h : byteAt src a = byteAt src b) :
    src[a]? = src[b]? := by
  have hbyte : ∀ i < src.length, src[i]? = some (src.getD i 0) := fun i hi => by
    rw [getD, getElem?_eq_getElem hi]
    rfl
  rw [hbyte a ha, hbyte b hb, UInt8.toNat_inj.mp h]

lemma byteAt_lt (src : Bytes) (i : ℕ) : byteAt src i < 2 ^ 8 := UInt8.toNat_lt _

lemma lz4Word_eq (h : a + 3 < src.length) : lz4Word src a =
    byteAt src a + 2 ^ 8 * byteAt src (a + 1) + 2 ^ 16 * byteAt src (a + 2) + 2 ^ 24 * byteAt src (a + 3) := by
  have hor : ∀ i x y : ℕ, x < 2 ^ i → x ||| (y <<< i) = x + 2 ^ i * y := fun i x y hx => by
    rw [Nat.or_comm, ← shiftLeft_add_eq_or_of_lt hx, shiftLeft_eq, Nat.add_comm, Nat.mul_comm]
  have h0 := byteAt_lt src a
  have h1 := byteAt_lt src (a + 1)
  have h2 := byteAt_lt src (a + 2)
  have hhere : a < src.length := by omega
  have hwithin : ∀ k, k ≤ 3 → a + k < src.length := fun k hk => by omega
  have hrange : range 4 = [0, 1, 2, 3] := by decide
  simp only [lz4Word, hrange, foldl_cons, foldl_nil, if_pos hhere,
    if_pos (hwithin 1 (by omega)), if_pos (hwithin 2 (by omega)), if_pos (hwithin 3 le_rfl),
    zero_or, Nat.zero_mul, shiftLeft_zero, Nat.add_zero, reduceMul]
  rw [hor 8 (byteAt src a) _ h0, hor 16 (byteAt src a + 2 ^ 8 * byteAt src (a + 1)) _ (by omega),
    hor 24 (byteAt src a + 2 ^ 8 * byteAt src (a + 1) + 2 ^ 16 * byteAt src (a + 2)) _ (by omega)]

lemma getElem?_eq_of_lz4Word (ha : a + 3 < src.length) (hb : b + 3 < src.length)
    (h : lz4Word src a = lz4Word src b) : ∀ k < lz4MinMatch, src[a + k]? = src[b + k]? := by
  rw [lz4Word_eq ha, lz4Word_eq hb] at h
  have hbytes : ∀ i, byteAt src i < 256 := byteAt_lt src
  have ha0 := hbytes a
  have ha1 := hbytes (a + 1)
  have ha2 := hbytes (a + 2)
  have hb0 := hbytes b
  have hb1 := hbytes (b + 1)
  have hb2 := hbytes (b + 2)
  have h3 : byteAt src (a + 3) = byteAt src (b + 3) := by omega
  have h2 : byteAt src (a + 2) = byteAt src (b + 2) := by omega
  have h1 : byteAt src (a + 1) = byteAt src (b + 1) := by omega
  have h0 : byteAt src a = byteAt src b := by omega
  intro k hk
  have hcases : k = 0 ∨ k = 1 ∨ k = 2 ∨ k = 3 := by
    simp only [lz4MinMatch] at hk
    omega
  obtain rfl | rfl | rfl | rfl := hcases
  · exact getElem?_eq_of_byteAt (by omega) (by omega) h0
  · exact getElem?_eq_of_byteAt (by omega) (by omega) h1
  · exact getElem?_eq_of_byteAt (by omega) (by omega) h2
  · exact getElem?_eq_of_byteAt ha hb h3

def Behind (table : List ℕ) (here : ℕ) : Prop := ∀ entry ∈ table, entry ≤ here

lemma Behind.remember (h : Behind table here) (src : Bytes) {next : ℕ} (hnext : here < next) :
    Behind (lz4Remember src table here) next := by
  intro entry hentry
  obtain hold | rfl := mem_or_eq_of_mem_set hentry
  · exact (h entry hold).trans hnext.le
  · exact (mod_le _ _).trans hnext

lemma lz4Reference_spec (h : Behind table here) (href : lz4Reference src table here = some reference) :
    reference < here ∧ here - reference ≤ lz4MaxOffset ∧ lz4Word src reference = lz4Word src here := by
  simp only [lz4Reference] at href
  obtain ⟨⟨hne, hnear, hword⟩, heq⟩ := Option.ite_none_right_eq_some.mp href
  cases heq
  split_ifs at hne hnear hword ⊢ with hslot
  · rw [getD, getElem?_eq_getElem hslot, Option.getD_some] at hne hnear hword ⊢
    have hle := h _ (getElem_mem hslot)
    exact ⟨by omega, hnear, hword⟩
  · exact absurd rfl hne

lemma lz4Extend_spec (hlimit : here + length ≤ limit)
    (hsame : ∀ k < length, src[here + k]? = src[reference + k]?) :
    here + lz4Extend src limit here reference length ≤ limit ∧
      ∀ k < lz4Extend src limit here reference length, src[here + k]? = src[reference + k]? := by
  fun_induction lz4Extend src limit here reference length with
  | case1 | case3 | case4 => exact ⟨hlimit, hsame⟩
  | case2 length hlt hwithin hequal ih =>
    refine ih hlt fun k hk => ?_
    by_cases hlast : k = length
    · rw [hlast]
      exact getElem?_eq_of_byteAt hwithin.1 hwithin.2 (congrArg UInt8.toNat (not_not.mp hequal))
    · exact hsame k (by omega)

end Matches

/-! ## The main loop -/

section Loop
variable {src : Bytes} {table : List ℕ} {here anchor reference findLimit : ℕ}

def foundSequence (src : Bytes) (anchor here reference : ℕ) : Sequence :=
  ⟨slice src anchor (here - anchor), here - reference,
    lz4Extend src (src.length - lz4LastLiterals) here reference lz4MinMatch⟩

lemma foundSequence_fits (hanchor : anchor ≤ here) (hbehind : Behind table here)
    (hhere : here < src.length - lz4MatchFindLimit)
    (href : lz4Reference src table here = some reference) :
    (foundSequence src anchor here reference).Fits src anchor ∧
      (foundSequence src anchor here reference).literals.length = here - anchor := by
  obtain ⟨hlt, hnear, hword⟩ := lz4Reference_spec hbehind href
  simp only [lz4MatchFindLimit] at hhere
  have hlength : (slice src anchor (here - anchor)).length = here - anchor := length_slice (by omega)
  have hmin : here + lz4MinMatch ≤ src.length - lz4LastLiterals := by
    simp only [lz4MinMatch, lz4LastLiterals]
    omega
  obtain ⟨hlimit, hsame⟩ := lz4Extend_spec hmin
    (getElem?_eq_of_lz4Word (by omega) (by omega) hword.symm)
  have hstart : anchor + (slice src anchor (here - anchor)).length = here := by omega
  refine ⟨⟨?_, ?_, hnear, ?_, le_lz4Extend .., ?_, fun k hk => ?_⟩, hlength⟩
  · exact congrArg (slice src anchor) hlength.symm
  · exact Nat.sub_pos_of_lt hlt
  · change here - reference ≤ anchor + (slice src anchor (here - anchor)).length
    omega
  · change anchor + (slice src anchor (here - anchor)).length + lz4Extend .. ≤ src.length
    rw [hstart]
    exact hlimit.trans (sub_le _ _)
  · change src[anchor + (slice src anchor (here - anchor)).length + k]? =
      src[anchor + (slice src anchor (here - anchor)).length + k - (here - reference)]?
    have hback : here + k - (here - reference) = reference + k := by omega
    rw [hstart, hback]
    exact hsame k hk

lemma lz4EncodeFrom_emits (op : ℕ) (hanchor : anchor ≤ here) (hhere : here ≤ src.length)
    (hlimit : findLimit ≤ src.length - lz4MatchFindLimit) (hbehind : Behind table here) :
    ∃ seqs stop, Describes src anchor seqs stop ∧ stop ≤ src.length ∧
      Emits (lz4EncodeFrom src findLimit table here anchor op) op (seqs.flatMap bytes)
        (op + (seqs.flatMap bytes).length, stop) := by
  induction hleft : findLimit - here using Nat.strong_induction_on
    generalizing table here anchor op with
  | _ left ih =>
    rw [lz4EncodeFrom]
    by_cases hmore : here < findLimit
    · rw [if_pos hmore]
      cases href : lz4Reference src table here with
      | none =>
        exact ih _ (by omega) op (by omega) (by omega) (hbehind.remember src (lt_succ_self here)) rfl
      | some reference =>
        obtain ⟨hfits, hliterals⟩ := foundSequence_fits hanchor hbehind (hmore.trans_le hlimit) href
        set s := foundSequence src anchor here reference with hs
        have hroom := hfits.room
        have hmin : lz4MinMatch ≤ s.length := hfits.min_le
        have hpos : 0 < lz4MinMatch := by decide
        have hstart : anchor + s.literals.length = here := by omega
        rw [hstart] at hroom
        obtain ⟨seqs, stop, hdescribes, hstop, hemits⟩ := ih _ (by omega) (op + s.bytes.length)
          (le_refl (here + s.length)) hroom (hbehind.remember src (by omega)) rfl
        refine ⟨s :: seqs, stop, .cons hfits (by rwa [hstart]), hstop, ?_⟩
        have hemit : Emits (lz4Emit src op anchor (here - anchor) (here - reference) s.length) op s.bytes
            (op + s.bytes.length) := lz4Emit_sequence op (by omega) hmin
        have hlength : op + ((s :: seqs).flatMap bytes).length =
            op + s.bytes.length + (seqs.flatMap bytes).length := by
          rw [flatMap_cons, length_append, Nat.add_assoc]
        rw [hlength]
        exact hemit.bind hemits
    · rw [if_neg hmore]
      exact ⟨[], anchor, .nil anchor (hanchor.trans hhere), hanchor.trans hhere, .pure⟩

end Loop
end Takibi.Lz4
