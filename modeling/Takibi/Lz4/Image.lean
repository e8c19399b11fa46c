import Takibi.Lz4.Exact

/-! A block image stored as chunks of 64 blocks: the blocks that are all zero are left out, and the others are one LZ4
block. A chunk is expanded in place, the last block first. -/

namespace Takibi.Lz4
open Region List Option

def lz4ImageBlockSize : ℕ := 1024
def lz4ImageChunkBlocks : ℕ := 64
def lz4ImageChunkBytes : ℕ := 65536
def lz4ImageHeaderBytes : ℕ := 16
def lz4ImageChunkHeaderBytes : ℕ := 12

inductive ImageHeaderResult
  | invalid
  | chunks (count : ℕ)
  deriving DecidableEq, Repr

inductive ImageChunkResult
  | invalid
  | expanded (cursor : ℕ)
  deriving DecidableEq, Repr

def lz4ImageU32 (bytes : Bytes) (start : ℕ) : ℕ := lz4Word bytes start

def lz4ImageHeader (container : Bytes) : ImageHeaderResult :=
  if container.length < lz4ImageHeaderBytes then .invalid
  else if lz4ImageU32 container 0 ≠ 0x315A4B54 ∨ lz4ImageU32 container 4 ≠ lz4ImageBlockSize ∨
      lz4ImageU32 container 8 ≠ lz4ImageChunkBlocks then .invalid
  else .chunks (lz4ImageU32 container 12)

def rank (present block : ℕ) : ℕ := (range block).countP fun b => present.testBit b

def zeroFill (start : ℕ) : ℕ → Region.Writer UInt8 Unit
  | 0 => pure ()
  | count + 1 => store start 0 >>= fun _ => zeroFill (start + 1) count

/-- Spreads the present blocks to their places; `left` is the number of blocks still to place, and `next` the
number of present ones among them. -/
def lz4ImageSpread (present : ℕ) : (left next : ℕ) → Region.Writer UInt8 Unit
  | 0, _ => pure ()
  | block + 1, next =>
    if present.testBit block then
      if next = 0 then failure
      else if (next - 1) * lz4ImageBlockSize ≠ block * lz4ImageBlockSize then
        copyMatch ((next - 1) * lz4ImageBlockSize) (block * lz4ImageBlockSize) lz4ImageBlockSize >>= fun _ =>
        lz4ImageSpread present block (next - 1)
      else lz4ImageSpread present block (next - 1)
    else
      zeroFill (block * lz4ImageBlockSize) lz4ImageBlockSize >>= fun _ => lz4ImageSpread present block next

def lz4ImagePresent (container : Bytes) (cursor : ℕ) : ℕ :=
  lz4ImageU32 container cursor ||| (lz4ImageU32 container (cursor + 4) <<< 32)

def lz4ImageCodedLength (container : Bytes) (cursor : ℕ) : ℕ := lz4ImageU32 container (cursor + 8)

def lz4ImageExpandKept (present next : ℕ) (out : Bytes) : ImageChunkResult × Bytes :=
  match (lz4ImageSpread present lz4ImageChunkBlocks (rank present lz4ImageChunkBlocks)).on out with
  | (some _, out') => (.expanded next, out')
  | (none, out') => (.invalid, out')

def lz4ImageExpandCoded (present : ℕ) (coded : Bytes) (next : ℕ) (out : Bytes) : ImageChunkResult × Bytes :=
  let count := rank present lz4ImageChunkBlocks
  let keptLength := count * lz4ImageBlockSize
  if keptLength > out.length then (.invalid, out)
  else if count = 0 then
    if coded.length ≠ 0 then (.invalid, out) else lz4ImageExpandKept present next out
  else
    match lz4Decode coded (out.take keptLength) with
    | (.invalid, kept) => (.invalid, kept ++ out.drop keptLength)
    | (.decoded written, kept) =>
      if written ≠ keptLength then (.invalid, kept ++ out.drop keptLength)
      else lz4ImageExpandKept present next (kept ++ out.drop keptLength)

def lz4ImageExpandChunk (container : Bytes) (cursor : ℕ) (out : Bytes) : ImageChunkResult × Bytes :=
  if out.length < lz4ImageChunkBytes ∨ cursor > container.length ∨
      container.length - cursor < lz4ImageChunkHeaderBytes then (.invalid, out)
  else
    let codedLength := lz4ImageCodedLength container cursor
    let codedStart := cursor + lz4ImageChunkHeaderBytes
    if codedStart > container.length then (.invalid, out)
    else if codedLength > (container.drop codedStart).length then (.invalid, out)
    else lz4ImageExpandCoded (lz4ImagePresent container cursor) ((container.drop codedStart).take codedLength)
      (codedStart + codedLength) out

/-! ## Moving blocks -/

section Moves
variable {out : Bytes}

structure Replaced (out : Bytes) (target count : ℕ) (byte : ℕ → Option UInt8) (out' : Bytes) : Prop where
  length : out'.length = out.length
  inside : ∀ k < count, out'[target + k]? = byte k
  outside : ∀ i, (i < target ∨ target + count ≤ i) → out'[i]? = out[i]?

lemma zeroFill_on {target count : ℕ} (hroom : target + count ≤ out.length) :
    ∃ out', (zeroFill target count).on out = (some (), out') ∧ Replaced out target count (fun _ => some 0) out' := by
  induction count generalizing target out with
  | zero => exact ⟨out, rfl, rfl, fun k hk => absurd hk (Nat.not_lt_zero k), fun _ _ => rfl⟩
  | succ count ih =>
    have hset : target + 1 + count ≤ (out.set target 0).length := by
      rw [length_set]
      omega
    obtain ⟨out', hrun, hrest⟩ := ih hset
    refine ⟨out', ?_, hrest.length.trans length_set, fun k hk => ?_, fun i hi => ?_⟩
    · rw [zeroFill, bind_on, store_on, if_pos (by omega)]
      exact hrun
    · cases k with
      | zero =>
        rw [hrest.outside _ (.inl (by omega)), Nat.add_zero, getElem?_set_self (by omega)]
      | succ k =>
        rw [show target + (k + 1) = target + 1 + k by omega]
        exact hrest.inside k (by omega)
    · rw [hrest.outside i (by omega), getElem?_set_ne (by omega)]

lemma copyMatch_on {source target count : ℕ} (hapart : source + count ≤ target) (hroom : target + count ≤ out.length) :
    ∃ out', (copyMatch source target count).on out = (some (), out') ∧
      Replaced out target count (fun k => out[source + k]?) out' := by
  induction count generalizing source target out with
  | zero => exact ⟨out, rfl, rfl, fun k hk => absurd hk (Nat.not_lt_zero k), fun _ _ => rfl⟩
  | succ count ih =>
    have hsource : source < out.length := by omega
    have hset : target + 1 + count ≤ (out.set target out[source]).length := by
      rw [length_set]
      omega
    obtain ⟨out', hrun, hrest⟩ := ih (show source + 1 + count ≤ target + 1 by omega) hset
    refine ⟨out', ?_, hrest.length.trans length_set, fun k hk => ?_, fun i hi => ?_⟩
    · rw [copyMatch, bind_on, fetch_on, getElem?_eq_getElem hsource]
      dsimp only
      rw [bind_on, store_on, if_pos (by omega)]
      exact hrun
    · cases k with
      | zero =>
        rw [hrest.outside _ (.inl (by omega)), Nat.add_zero, Nat.add_zero, getElem?_set_self (by omega),
          getElem?_eq_getElem hsource]
      | succ k =>
        rw [show target + (k + 1) = target + 1 + k by omega, hrest.inside k (by omega),
          getElem?_set_ne (by omega), show source + (k + 1) = source + 1 + k by omega]
    · rw [hrest.outside i (by omega), getElem?_set_ne (by omega)]

end Moves

/-! ## Spreading a chunk -/

section Spreading
variable {present left : ℕ} {kept out₀ out : Bytes}

lemma rank_succ (present block : ℕ) :
    rank present (block + 1) = rank present block + if present.testBit block then 1 else 0 := by
  rw [rank, range_succ, countP_append, countP_singleton]
  rfl

lemma rank_le (present block : ℕ) : rank present block ≤ block := by
  exact countP_le_length.trans length_range.le

lemma rank_mono (present : ℕ) {block block' : ℕ} (h : block ≤ block') : rank present block ≤ rank present block' :=
  (range_sublist.mpr h).countP_le

lemma byte_lt_block {a b k : ℕ} (h : a < b) (hk : k < lz4ImageBlockSize) :
    a * lz4ImageBlockSize + k < b * lz4ImageBlockSize := by
  rw [lz4ImageBlockSize] at *
  omega

lemma block_end_le {a b : ℕ} (h : a < b) : a * lz4ImageBlockSize + lz4ImageBlockSize ≤ b * lz4ImageBlockSize := by
  rw [lz4ImageBlockSize] at *
  omega

lemma chunk_blocks : lz4ImageChunkBlocks * lz4ImageBlockSize = lz4ImageChunkBytes := rfl

lemma block_end_le_chunk {b : ℕ} (h : b < lz4ImageChunkBlocks) :
    b * lz4ImageBlockSize + lz4ImageBlockSize ≤ lz4ImageChunkBytes := (block_end_le h).trans_eq chunk_blocks

def placed (present : ℕ) (kept : Bytes) (block k : ℕ) : Option UInt8 :=
  if present.testBit block then kept[rank present block * lz4ImageBlockSize + k]? else some 0

structure Spread (present : ℕ) (kept out₀ : Bytes) (left : ℕ) (out : Bytes) : Prop where
  length : out.length = out₀.length
  sources : ∀ i < rank present left * lz4ImageBlockSize, out[i]? = kept[i]?
  blocks : ∀ b, left ≤ b → b < lz4ImageChunkBlocks → ∀ k < lz4ImageBlockSize,
    out[b * lz4ImageBlockSize + k]? = placed present kept b k
  rest : ∀ i, lz4ImageChunkBytes ≤ i → out[i]? = out₀[i]?

lemma Spread.step {block : ℕ} {out' : Bytes} (h : Spread present kept out₀ (block + 1) out)
    (hblock : block < lz4ImageChunkBlocks)
    (hput : Replaced out (block * lz4ImageBlockSize) lz4ImageBlockSize (placed present kept block) out') :
    Spread present kept out₀ block out' := by
  have hrank := Nat.mul_le_mul_right lz4ImageBlockSize (rank_le present block)
  have hmono := Nat.mul_le_mul_right lz4ImageBlockSize (rank_mono present (Nat.le_add_right block 1))
  have hend := block_end_le_chunk hblock
  refine ⟨hput.length.trans h.length, fun i hi => ?_, fun b hb hlt k hk => ?_, fun i hi => ?_⟩
  · rw [hput.outside i (.inl (by omega))]
    exact h.sources i (by omega)
  · rcases hb.eq_or_lt with rfl | hb
    · exact hput.inside k hk
    · rw [hput.outside _ (.inr ((block_end_le hb).trans (Nat.le_add_right ..)))]
      exact h.blocks b hb hlt k hk
  · rw [hput.outside i (.inr (by omega))]
    exact h.rest i hi

lemma Spread.move {block : ℕ} (h : Spread present kept out₀ (block + 1) out) (hbit : present.testBit block = true)
    (hroom : lz4ImageChunkBytes ≤ out.length) (hblock : block < lz4ImageChunkBlocks) :
    ∃ out', (if rank present block * lz4ImageBlockSize ≠ block * lz4ImageBlockSize then
        copyMatch (rank present block * lz4ImageBlockSize) (block * lz4ImageBlockSize) lz4ImageBlockSize
        else pure ()).on out = (some (), out') ∧ Spread present kept out₀ block out' := by
  have hrank := rank_le present block
  have hsource : ∀ k < lz4ImageBlockSize,
      out[rank present block * lz4ImageBlockSize + k]? = placed present kept block k := by
    intro k hk
    have hsucc := rank_succ present block
    rw [if_pos hbit] at hsucc
    rw [placed, if_pos hbit]
    refine h.sources _ ?_
    rw [hsucc]
    exact byte_lt_block (Nat.lt_succ_self _) hk
  split_ifs with hmoved
  · have hbehind : rank present block * lz4ImageBlockSize + lz4ImageBlockSize ≤ block * lz4ImageBlockSize :=
      block_end_le (lt_of_le_of_ne hrank fun hsame => hmoved (congrArg (· * lz4ImageBlockSize) hsame))
    have hfits : block * lz4ImageBlockSize + lz4ImageBlockSize ≤ out.length :=
      (block_end_le_chunk hblock).trans hroom
    obtain ⟨out', hrun, hput⟩ := copyMatch_on hbehind hfits
    refine ⟨out', hrun, h.step hblock ⟨hput.length, fun k hk => ?_, hput.outside⟩⟩
    rw [hput.inside k hk, hsource k hk]
  · refine ⟨out, rfl, h.step hblock ⟨rfl, fun k hk => ?_, fun _ _ => rfl⟩⟩
    rw [← not_not.mp hmoved]
    exact hsource k hk

lemma lz4ImageSpread_on (hroom : lz4ImageChunkBytes ≤ out.length) (hleft : left ≤ lz4ImageChunkBlocks)
    (h : Spread present kept out₀ left out) :
    ∃ out', (lz4ImageSpread present left (rank present left)).on out = (some (), out') ∧
      Spread present kept out₀ 0 out' := by
  induction left generalizing out with
  | zero => exact ⟨out, rfl, h⟩
  | succ block ih =>
    have hsucc := rank_succ present block
    by_cases hbit : present.testBit block
    · rw [if_pos hbit] at hsucc
      obtain ⟨out₁, hmove, hspread⟩ := h.move hbit hroom hleft
      obtain ⟨out', hrun, hdone⟩ := ih (by rw [hspread.length, ← h.length]; exact hroom) (Nat.le_of_succ_le hleft) hspread
      refine ⟨out', ?_, hdone⟩
      rw [lz4ImageSpread, if_pos hbit, hsucc, if_neg (Nat.succ_ne_zero _), Nat.add_sub_cancel]
      split_ifs at hmove ⊢ with hmoved
      · rw [bind_on, hmove]
        exact hrun
      · obtain ⟨-, rfl⟩ := Prod.mk.inj hmove
        exact hrun
    · rw [if_neg hbit, Nat.add_zero] at hsucc
      have hfits : block * lz4ImageBlockSize + lz4ImageBlockSize ≤ out.length :=
        (block_end_le_chunk hleft).trans hroom
      obtain ⟨out₁, hfill, hput⟩ := zeroFill_on hfits
      have hspread := h.step hleft ⟨hput.length, fun k hk => by
        rw [hput.inside k hk, placed, if_neg hbit], hput.outside⟩
      obtain ⟨out', hrun, hdone⟩ := ih (by rw [hspread.length, ← h.length]; exact hroom) (Nat.le_of_succ_le hleft) hspread
      refine ⟨out', ?_, hdone⟩
      rw [lz4ImageSpread, if_neg hbit, bind_on, hfill, hsucc]
      exact hrun

end Spreading

/-! ## The format -/

def littleEndian (bytes : Bytes) : ℕ := Nat.ofDigits 256 (bytes.map UInt8.toNat)

/-- At `cursor` the container has a chunk with these present bits and coded bytes, and `next` is its end. -/
def ChunkAt (container : Bytes) (cursor present : ℕ) (coded : Bytes) (next : ℕ) : Prop :=
  next = cursor + lz4ImageChunkHeaderBytes + coded.length ∧
    ∃ mask size rest : Bytes, container.drop cursor = mask ++ size ++ coded ++ rest ∧ mask.length = 8 ∧
      size.length = 4 ∧ littleEndian mask = present ∧ littleEndian size = coded.length

/-- The coded bytes are the block of the present blocks, none of which is there where no bit is set. -/
def Codes (present : ℕ) (coded kept : Bytes) : Prop :=
  Decodes coded kept ∧ kept.length = rank present lz4ImageChunkBlocks * lz4ImageBlockSize ∧
    (rank present lz4ImageChunkBlocks = 0 → coded = [])

def chunkImage (present : ℕ) (kept : Bytes) : Bytes :=
  (range lz4ImageChunkBlocks).flatMap fun b =>
    if present.testBit b then slice kept (rank present b * lz4ImageBlockSize) lz4ImageBlockSize
    else replicate lz4ImageBlockSize 0

def Encodes (container : Bytes) : (count cursor : ℕ) → Bytes → Prop
  | 0, _, image => image = []
  | count + 1, cursor, image =>
    ∃ present coded next kept rest, ChunkAt container cursor present coded next ∧ Codes present coded kept ∧
      Encodes container count next rest ∧ image = chunkImage present kept ++ rest

def ImageOf (container image : Bytes) : Prop :=
  lz4ImageHeaderBytes ≤ container.length ∧ littleEndian (slice container 0 4) = 0x315A4B54 ∧
    littleEndian (slice container 4 4) = lz4ImageBlockSize ∧
    littleEndian (slice container 8 4) = lz4ImageChunkBlocks ∧
    Encodes container (littleEndian (slice container 12 4)) lz4ImageHeaderBytes image

def lz4ImageExpandChunks (container : Bytes) : (count cursor : ℕ) → Bytes → Option Bytes
  | 0, _, _ => some []
  | count + 1, cursor, out =>
    match lz4ImageExpandChunk container cursor out with
    | (.invalid, _) => none
    | (.expanded next, out') =>
      (lz4ImageExpandChunks container count next out').map (out'.take lz4ImageChunkBytes ++ ·)

def lz4ImageExpand (container out : Bytes) : Option Bytes :=
  match lz4ImageHeader container with
  | .invalid => none
  | .chunks count => lz4ImageExpandChunks container count lz4ImageHeaderBytes out

section Fields
variable {container : Bytes} {cursor : ℕ}

lemma littleEndian_append (a b : Bytes) :
    littleEndian (a ++ b) = littleEndian a + 256 ^ a.length * littleEndian b := by
  rw [littleEndian, map_append, Nat.ofDigits_append, length_map]
  rfl

lemma littleEndian_lt (bytes : Bytes) : littleEndian bytes < 256 ^ bytes.length := by
  have hbase : ∀ d ∈ bytes.map UInt8.toNat, d < 256 := by
    intro d hd
    obtain ⟨byte, -, rfl⟩ := mem_map.mp hd
    exact byte.toNat_lt
  have hdigits := Nat.ofDigits_lt_base_pow_length (by decide) hbase
  rwa [length_map] at hdigits

lemma lz4ImageU32_eq (h : cursor + 4 ≤ container.length) :
    lz4ImageU32 container cursor = littleEndian (slice container cursor 4) := by
  have hbyte : ∀ k, (container.getD (cursor + k) 0).toNat < 256 := fun k => UInt8.toNat_lt _
  have h0 := hbyte 0
  have h1 := hbyte 1
  have h2 := hbyte 2
  have hor : ∀ {a b k : ℕ}, a < 2 ^ k → a ||| (b <<< k) = b * 2 ^ k + a := fun {a b k} hlt => by
    rw [Nat.or_comm, ← Nat.shiftLeft_add_eq_or_of_lt hlt, Nat.shiftLeft_eq]
  have hslice : slice container cursor 4 = [container.getD cursor 0, container.getD (cursor + 1) 0,
      container.getD (cursor + 2) 0, container.getD (cursor + 3) 0] := by
    rw [slice_succ (by omega), slice_succ (by omega), slice_succ (by omega), slice_succ (by omega)]
    rfl
  rw [lz4ImageU32, lz4Word, hslice, show range 4 = [0, 1, 2, 3] from rfl]
  simp only [foldl_cons, foldl_nil, byteAt]
  rw [if_pos (by omega), if_pos (by omega), if_pos (by omega), if_pos (by omega)]
  simp only [Nat.add_zero, Nat.zero_mul, Nat.shiftLeft_zero, Nat.zero_or, Nat.one_mul, Nat.reduceMul] at h0 ⊢
  rw [hor (k := 8) (by omega), hor (k := 16) (by omega), hor (k := 24) (by omega)]
  simp only [littleEndian, map_cons, map_nil, Nat.ofDigits_cons, Nat.ofDigits_nil]
  omega

lemma lz4ImagePresent_eq (h : cursor + 8 ≤ container.length) :
    lz4ImagePresent container cursor = littleEndian (slice container cursor 8) := by
  have hlow : lz4ImageU32 container cursor = littleEndian (slice container cursor 4) := lz4ImageU32_eq (by omega)
  have hhigh : lz4ImageU32 container (cursor + 4) = littleEndian (slice container (cursor + 4) 4) :=
    lz4ImageU32_eq (by omega)
  have hsplit : slice container cursor 8 = slice container cursor 4 ++ slice container (cursor + 4) 4 := by
    rw [slice, show 8 = 4 + 4 from rfl, take_add, drop_drop]
    rfl
  have hlength : (slice container cursor 4).length = 4 := length_slice (by omega)
  have hlt : littleEndian (slice container cursor 4) < 2 ^ 32 := by
    have := littleEndian_lt (slice container cursor 4)
    rw [hlength] at this
    omega
  rw [lz4ImagePresent, hlow, hhigh, hsplit, littleEndian_append, hlength, Nat.or_comm,
    ← Nat.shiftLeft_add_eq_or_of_lt hlt, Nat.shiftLeft_eq]
  omega

lemma chunkAt_fields {present next : ℕ} {coded : Bytes} (h : ChunkAt container cursor present coded next) :
    cursor + lz4ImageChunkHeaderBytes + coded.length ≤ container.length ∧
      lz4ImagePresent container cursor = present ∧ lz4ImageCodedLength container cursor = coded.length ∧
      (container.drop (cursor + lz4ImageChunkHeaderBytes)).take coded.length = coded := by
  obtain ⟨-, mask, size, rest, hdrop, hmask, hsize, rfl, hcoded⟩ := h
  rw [lz4ImageChunkHeaderBytes]
  have hfits : cursor + 12 + coded.length ≤ container.length := by
    have hlength := congrArg length hdrop
    simp only [length_drop, length_append] at hlength
    omega
  have hbody : container.drop (cursor + 8) = size ++ (coded ++ rest) := by
    rw [← hmask]
    exact drop_of_drop mask (by simp only [hdrop, append_assoc])
  have htail : container.drop (cursor + 12) = coded ++ rest := by
    have hnext := drop_of_drop size hbody
    rwa [hsize] at hnext
  have hfirst : slice container cursor 8 = mask := by
    rw [slice, hdrop, ← hmask, append_assoc, append_assoc, take_left]
  have hsecond : slice container (cursor + 8) 4 = size := by rw [slice, hbody, ← hsize, take_left]
  refine ⟨hfits, ?_, ?_, ?_⟩
  · rw [lz4ImagePresent_eq (by omega), hfirst]
  · rw [lz4ImageCodedLength, lz4ImageU32_eq (by omega), hsecond, hcoded]
  · rw [htail, take_left]

lemma chunkAt_of_le
    (h : cursor + lz4ImageChunkHeaderBytes + lz4ImageCodedLength container cursor ≤ container.length) :
    ChunkAt container cursor (lz4ImagePresent container cursor)
      ((container.drop (cursor + lz4ImageChunkHeaderBytes)).take (lz4ImageCodedLength container cursor))
      (cursor + lz4ImageChunkHeaderBytes + lz4ImageCodedLength container cursor) := by
  rw [lz4ImageChunkHeaderBytes] at *
  have hcoded : ((container.drop (cursor + 12)).take (lz4ImageCodedLength container cursor)).length =
      lz4ImageCodedLength container cursor := by
    rw [length_take, length_drop]
    omega
  refine ⟨by rw [hcoded, lz4ImageChunkHeaderBytes], slice container cursor 8, slice container (cursor + 8) 4,
    container.drop (cursor + 12 + lz4ImageCodedLength container cursor), ?_, length_slice (by omega),
    length_slice (by omega), (lz4ImagePresent_eq (by omega)).symm, ?_⟩
  · have htail := slice_append_drop container (cursor + 12) (lz4ImageCodedLength container cursor)
    have hbody := slice_append_drop container (cursor + 8) 4
    have hmask := slice_append_drop container cursor 8
    rw [slice] at htail
    rw [append_assoc, htail, append_assoc, hbody, hmask]
  · rw [hcoded, lz4ImageCodedLength, lz4ImageU32_eq (by omega)]

end Fields

/-! ## A chunk -/

section Chunk
variable {container out out' coded kept : Bytes} {cursor present next : ℕ}

lemma kept_le_chunk (hkept : kept.length = rank present lz4ImageChunkBlocks * lz4ImageBlockSize) :
    kept.length ≤ lz4ImageChunkBytes := by
  rw [hkept]
  exact (Nat.mul_le_mul_right _ (rank_le ..)).trans_eq chunk_blocks

lemma lz4ImageExpandKept_eq (next : ℕ)
    (hkept : kept.length = rank present lz4ImageChunkBlocks * lz4ImageBlockSize)
    (hroom : lz4ImageChunkBytes ≤ out.length) :
    ∃ out', lz4ImageExpandKept present next (kept ++ out.drop kept.length) = (.expanded next, out') ∧
      Spread present kept out 0 out' := by
  have hchunk := kept_le_chunk hkept
  have hstart : Spread present kept out lz4ImageChunkBlocks (kept ++ out.drop kept.length) := by
    refine ⟨?_, fun i hi => ?_, fun b hb hlt => absurd hlt (not_lt.mpr hb), fun i hi => ?_⟩
    · rw [length_append, length_drop]
      omega
    · exact getElem?_append_left (hkept ▸ hi)
    · have hle := hchunk.trans hi
      rw [getElem?_append_right hle, getElem?_drop, Nat.add_sub_cancel' hle]
  obtain ⟨out', hrun, hspread⟩ := lz4ImageSpread_on (by rw [hstart.length]; exact hroom) le_rfl hstart
  exact ⟨out', by rw [lz4ImageExpandKept, hrun], hspread⟩

lemma lz4ImageExpandCoded_of_codes (next : ℕ) (hcodes : Codes present coded kept)
    (hroom : lz4ImageChunkBytes ≤ out.length) :
    ∃ out', lz4ImageExpandCoded present coded next out = (.expanded next, out') ∧ Spread present kept out 0 out' := by
  obtain ⟨hdecodes, hkept, hnone⟩ := hcodes
  obtain ⟨out', hrun, hspread⟩ := lz4ImageExpandKept_eq next hkept hroom
  have hshort := (kept_le_chunk hkept).trans hroom
  refine ⟨out', ?_, hspread⟩
  rw [lz4ImageExpandCoded, ← hkept, if_neg (not_lt.mpr hshort)]
  by_cases hcount : rank present lz4ImageChunkBlocks = 0
  · obtain rfl : kept = [] := length_eq_zero_iff.mp (by rw [hkept, hcount, Nat.zero_mul])
    have hempty : ¬ coded.length ≠ 0 := not_not.mpr (length_eq_zero_iff.mpr (hnone hcount))
    rw [if_pos hcount, if_neg hempty]
    exact hrun
  · have htake : (out.take kept.length).length = kept.length := by
      rw [length_take]
      omega
    have hdecode : lz4Decode coded (out.take kept.length) = (.decoded kept.length, kept) := by
      rw [lz4Decode_of_decodes hdecodes htake.ge, drop_eq_nil_of_le htake.le, append_nil]
    rw [if_neg hcount, hdecode]
    dsimp only
    rw [if_neg (not_not.mpr rfl), hrun]

lemma codes_of_lz4ImageExpandCoded {next' : ℕ}
    (h : (lz4ImageExpandCoded present coded next out).1 = .expanded next') :
    next' = next ∧ ∃ kept, Codes present coded kept := by
  have hnext : ∀ {out : Bytes}, (lz4ImageExpandKept present next out).1 = .expanded next' → next' = next := by
    intro out hkept
    rw [lz4ImageExpandKept] at hkept
    split at hkept
    · exact (ImageChunkResult.expanded.inj hkept).symm
    · cases hkept
  rw [lz4ImageExpandCoded] at h
  by_cases hlong : rank present lz4ImageChunkBlocks * lz4ImageBlockSize > out.length
  · rw [if_pos hlong] at h
    cases h
  rw [if_neg hlong] at h
  by_cases hcount : rank present lz4ImageChunkBlocks = 0
  · rw [if_pos hcount] at h
    by_cases hcoded : coded.length ≠ 0
    · rw [if_pos hcoded] at h
      cases h
    · rw [if_neg hcoded] at h
      obtain rfl := length_eq_zero_iff.mp (not_not.mp hcoded)
      exact ⟨hnext h, [], .empty, by rw [hcount, Nat.zero_mul]; rfl, fun _ => rfl⟩
  · rw [if_neg hcount] at h
    cases hdecode : lz4Decode coded (out.take (rank present lz4ImageChunkBlocks * lz4ImageBlockSize)) with
    | mk result region =>
      rw [hdecode] at h
      cases result with
      | invalid => cases h
      | decoded written =>
        obtain ⟨text, htext, hlength, -⟩ := decodes_of_lz4Decode (congrArg Prod.fst hdecode)
        dsimp only at h
        by_cases hwritten : written ≠ rank present lz4ImageChunkBlocks * lz4ImageBlockSize
        · rw [if_pos hwritten] at h
          cases h
        · rw [if_neg hwritten] at h
          exact ⟨hnext h, text, htext, hlength.trans (not_not.mp hwritten), fun hzero => absurd hzero hcount⟩

lemma lz4ImageExpandChunk_of_codes (hat : ChunkAt container cursor present coded next)
    (hcodes : Codes present coded kept) (hroom : lz4ImageChunkBytes ≤ out.length) :
    ∃ out', lz4ImageExpandChunk container cursor out = (.expanded next, out') ∧ Spread present kept out 0 out' := by
  obtain ⟨hfits, rfl, hsize, hcoded⟩ := chunkAt_fields hat
  obtain ⟨rfl, -⟩ := hat
  obtain ⟨out', hrun, hspread⟩ := lz4ImageExpandCoded_of_codes
    (cursor + lz4ImageChunkHeaderBytes + coded.length) hcodes hroom
  refine ⟨out', ?_, hspread⟩
  have hrest : ¬ coded.length > (container.drop (cursor + lz4ImageChunkHeaderBytes)).length := by
    rw [length_drop]
    omega
  rw [lz4ImageExpandChunk, if_neg (by omega), hsize]
  dsimp only
  rw [if_neg (by omega), if_neg hrest, hcoded, hrun]

lemma codes_of_lz4ImageExpandChunk (h : (lz4ImageExpandChunk container cursor out).1 = .expanded next) :
    ∃ present coded kept, ChunkAt container cursor present coded next ∧ Codes present coded kept := by
  rw [lz4ImageExpandChunk] at h
  dsimp only at h
  split_ifs at h with hbounds hstart hlong
  obtain ⟨rfl, kept, hcodes⟩ := codes_of_lz4ImageExpandCoded h
  rw [length_drop] at hlong
  exact ⟨_, _, kept, chunkAt_of_le (by omega), hcodes⟩

lemma getElem?_slice (text : Bytes) (start count k : ℕ) :
    (slice text start count)[k]? = if k < count then text[start + k]? else none := by
  rw [slice, getElem?_take, getElem?_drop]

lemma Spread.block (h : Spread present kept out 0 out') {b : ℕ} (hb : b < lz4ImageChunkBlocks) :
    slice out' (b * lz4ImageBlockSize) lz4ImageBlockSize =
      if present.testBit b then slice kept (rank present b * lz4ImageBlockSize) lz4ImageBlockSize
      else replicate lz4ImageBlockSize 0 := by
  refine ext_getElem? fun k => ?_
  rw [getElem?_slice]
  by_cases hk : k < lz4ImageBlockSize
  · rw [if_pos hk, h.blocks b (Nat.zero_le b) hb k hk, placed]
    split_ifs
    · rw [getElem?_slice, if_pos hk]
    · rw [getElem?_replicate, if_pos hk]
  · rw [if_neg hk]
    split_ifs
    · rw [getElem?_slice, if_neg hk]
    · rw [getElem?_replicate, if_neg hk]

lemma flatMap_slices (text : Bytes) (size count : ℕ) :
    ((range count).flatMap fun b => slice text (b * size) size) = text.take (count * size) := by
  induction count with
  | zero => simp
  | succ count ih =>
    rw [range_succ, flatMap_append, ih, flatMap_singleton, take_append_slice, Nat.succ_mul]

lemma Spread.take_eq (h : Spread present kept out 0 out') :
    out'.take lz4ImageChunkBytes = chunkImage present kept := by
  rw [← chunk_blocks, ← flatMap_slices, chunkImage]
  exact flatMap_congr fun b hb => h.block (mem_range.mp hb)

end Chunk

lemma lz4ImageExpandChunks_iff (container : Bytes) (count cursor : ℕ) {out image : Bytes}
    (hroom : lz4ImageChunkBytes ≤ out.length) :
    lz4ImageExpandChunks container count cursor out = some image ↔ Encodes container count cursor image := by
  induction count generalizing cursor out image with
  | zero => exact ⟨fun h => (some.inj h).symm, fun h => congrArg some h.symm⟩
  | succ count ih =>
    rw [lz4ImageExpandChunks, Encodes]
    constructor
    · intro h
      split at h
      · cases h
      · next next out' hchunk =>
        obtain ⟨present, coded, kept, hat, hcodes⟩ := codes_of_lz4ImageExpandChunk (congrArg Prod.fst hchunk)
        obtain ⟨out'', hagain, hspread⟩ := lz4ImageExpandChunk_of_codes hat hcodes hroom
        obtain ⟨-, rfl⟩ := Prod.mk.inj (hchunk.symm.trans hagain)
        obtain ⟨rest, hrest, rfl⟩ := map_eq_some_iff.mp h
        refine ⟨present, coded, next, kept, rest, hat, hcodes, (ih next ?_).mp hrest, by rw [hspread.take_eq]⟩
        rw [hspread.length]
        exact hroom
    · rintro ⟨present, coded, next, kept, rest, hat, hcodes, hrest, rfl⟩
      obtain ⟨out', hchunk, hspread⟩ := lz4ImageExpandChunk_of_codes hat hcodes hroom
      have hroom' : lz4ImageChunkBytes ≤ out'.length := by
        rw [hspread.length]
        exact hroom
      rw [hchunk]
      dsimp only
      rw [(ih next hroom').mpr hrest, map_some, hspread.take_eq]

lemma lz4ImageExpand_iff (container : Bytes) {out image : Bytes} (hroom : lz4ImageChunkBytes ≤ out.length) :
    lz4ImageExpand container out = some image ↔ ImageOf container image := by
  rw [lz4ImageExpand, lz4ImageHeader, ImageOf]
  by_cases hshort : container.length < lz4ImageHeaderBytes
  · rw [if_pos hshort]
    exact iff_of_false (fun h => nomatch h) fun h => absurd h.1 (not_le.mpr hshort)
  · have hlong : 16 ≤ container.length := not_lt.mp hshort
    rw [if_neg hshort, lz4ImageU32_eq (by omega), lz4ImageU32_eq (by omega), lz4ImageU32_eq (by omega),
      lz4ImageU32_eq (by omega)]
    split_ifs with hfields
    · refine iff_of_false (fun h => nomatch h) fun h => ?_
      obtain ⟨-, hmagic, hsize, hblocks, -⟩ := h
      exact absurd hfields (by simp [hmagic, hsize, hblocks])
    · simp only [not_or, not_not] at hfields
      obtain ⟨hmagic, hsize, hblocks⟩ := hfields
      dsimp only
      rw [lz4ImageExpandChunks_iff _ _ _ hroom]
      exact ⟨fun h => ⟨not_lt.mp hshort, hmagic, hsize, hblocks, h⟩, fun h => h.2.2.2.2⟩

/-- A chunk that is expanded has every present block in its place and zeros elsewhere; and a container is expanded
exactly to the image it encodes. -/
theorem lz4ImageExpandChunk_exact (container : Bytes) (cursor : ℕ) (out : Bytes)
    (hroom : lz4ImageChunkBytes ≤ out.length) :
    (∀ next out', lz4ImageExpandChunk container cursor out = (.expanded next, out') →
      ∃ kept, Decodes (slice container (cursor + lz4ImageChunkHeaderBytes) (lz4ImageCodedLength container cursor)) kept ∧
        kept.length = rank (lz4ImagePresent container cursor) lz4ImageChunkBlocks * lz4ImageBlockSize ∧
        (∀ b < lz4ImageChunkBlocks, slice out' (b * lz4ImageBlockSize) lz4ImageBlockSize =
          if (lz4ImagePresent container cursor).testBit b then
            slice kept (rank (lz4ImagePresent container cursor) b * lz4ImageBlockSize) lz4ImageBlockSize
          else replicate lz4ImageBlockSize 0) ∧
        next = cursor + lz4ImageChunkHeaderBytes + lz4ImageCodedLength container cursor ∧
        next ≤ container.length) ∧
      ∀ image, lz4ImageExpand container out = some image ↔ ImageOf container image := by
  refine ⟨fun next out' h => ?_, fun image => lz4ImageExpand_iff container hroom⟩
  obtain ⟨present, coded, kept, hat, hcodes⟩ := codes_of_lz4ImageExpandChunk (congrArg Prod.fst h)
  obtain ⟨out'', hagain, hspread⟩ := lz4ImageExpandChunk_of_codes hat hcodes hroom
  obtain ⟨-, rfl⟩ := Prod.mk.inj (h.symm.trans hagain)
  obtain ⟨hfits, rfl, hsize, hcoded⟩ := chunkAt_fields hat
  obtain ⟨rfl, -⟩ := hat
  refine ⟨kept, ?_, hcodes.2.1, fun b hb => hspread.block hb, by rw [hsize], hfits⟩
  rw [slice, hsize, hcoded]
  exact hcodes.1

/-- One chunk whose second block is present: a byte and its repetitions. -/
def movedContainer : Bytes :=
  [0x54, 0x4B, 0x5A, 0x31, 0, 4, 0, 0, 64, 0, 0, 0, 1, 0, 0, 0] ++ [2, 0, 0, 0, 0, 0, 0, 0] ++ [9, 0, 0, 0] ++
    [0x1F, 7, 1, 0, 255, 255, 255, 239, 0]

lemma movedContainer_codes :
    Codes 2 [0x1F, 7, 1, 0, 255, 255, 255, 239, 0] (replicate lz4ImageBlockSize 7) := by
  have hrepeats : Sequence.Fits (replicate lz4ImageBlockSize 7) 0 ⟨[7], 1, 1023⟩ := by
    refine ⟨rfl, one_pos, by decide, by decide, by decide, ?_, fun k hk => ?_⟩
    · rw [length_replicate]
      decide
    · have hk' : k < 1023 := hk
      rw [getElem?_replicate_of_lt, getElem?_replicate_of_lt]
      all_goals
        simp only [length_singleton, lz4ImageBlockSize]
        omega
  have hdescribes : Describes (replicate lz4ImageBlockSize 7) 0 [⟨[7], 1, 1023⟩] 1024 :=
    .cons hrepeats (.nil 1024 length_replicate.ge)
  have hend : (replicate lz4ImageBlockSize (7 : UInt8)).drop 1024 = [] := drop_eq_nil_of_le length_replicate.le
  have hcoded : [⟨[7], 1, 1023⟩].flatMap Sequence.bytes ++ literalBytes [] 0 =
      [0x1F, 7, 1, 0, 255, 255, 255, 239, 0] := by decide
  have hdecodes := Decodes.block 0 hdescribes (forall_mem_singleton.mpr ⟨by decide, by decide⟩)
    (by rw [hend]; decide)
  rw [hend, hcoded] at hdecodes
  refine ⟨hdecodes, ?_, fun hnone => absurd hnone (by decide)⟩
  rw [length_replicate]
  decide

theorem lz4ImageExpandChunk_exact_movedContainer :
    lz4ImageExpand movedContainer (replicate lz4ImageChunkBytes 1) =
      some (chunkImage 2 (replicate lz4ImageBlockSize 7)) := by
  have hchunk : ChunkAt movedContainer 16 2 [0x1F, 7, 1, 0, 255, 255, 255, 239, 0] 37 :=
    ⟨rfl, [2, 0, 0, 0, 0, 0, 0, 0], [9, 0, 0, 0], [], by decide, rfl, rfl, by decide, by decide⟩
  refine ((lz4ImageExpandChunk_exact movedContainer 16 (replicate lz4ImageChunkBytes 1)
    length_replicate.ge).2 _).mpr ⟨by decide, by decide, by decide, by decide, ?_⟩
  have hcount : littleEndian (slice movedContainer 12 4) = 1 := by decide
  rw [hcount]
  exact ⟨2, _, 37, _, [], hchunk, movedContainer_codes, rfl, (append_nil _).symm⟩

end Takibi.Lz4
