import Takibi.Region.Writer

/-! The LZ4 block codec over borrowed regions: a greedy encoder with one hash probe per position, and
the decoder. A region is written through `Writer`, which gives up where the code answers `Invalid` or
`NoRoom`. -/

namespace Takibi.Lz4
open Region Option UInt8

abbrev Bytes := List UInt8

def lz4MinMatch : ℕ := 4
def lz4LastLiterals : ℕ := 5
def lz4MatchFindLimit : ℕ := 12
def lz4MaxOffset : ℕ := 65535
def lz4HashEntries : ℕ := 4096
def lz4MaxSource : ℕ := 0xFFFFFFF0

/-- The decoder reads no further length byte past this total. -/
def lz4LengthCap : ℕ := 0x7FFFFFFF

inductive DecodeResult
  | invalid
  | decoded (written : ℕ)
  deriving DecidableEq, Repr

inductive EncodeResult
  | noRoom
  | encoded (written : ℕ)
  deriving DecidableEq, Repr

def byteAt (src : Bytes) (i : ℕ) : ℕ := (src.getD i 0).toNat

/-! ## Decoding -/

def lz4ReadLengthFrom (src : Bytes) (total position : ℕ) : Option (ℕ × ℕ) :=
  if position < src.length then
    if total > lz4LengthCap then none
    else if byteAt src position ≠ 255 then some (total + byteAt src position, position + 1)
    else lz4ReadLengthFrom src (total + byteAt src position) (position + 1)
  else none
termination_by src.length - position

def lz4ReadLength (src : Bytes) (start : ℕ) : Option (ℕ × ℕ) := lz4ReadLengthFrom src 0 start

def lz4Nibble (src : Bytes) (nibble ip : ℕ) : Option (ℕ × ℕ) :=
  if nibble = 15 then (lz4ReadLength src ip).map fun (more, next) => (nibble + more, next)
  else some (nibble, ip)

def lz4Match (src : Bytes) (token ip op : ℕ) : Option (ℕ × ℕ × ℕ) :=
  if ip + 1 ≥ src.length then none
  else
    let offset := byteAt src ip ||| (byteAt src (ip + 1) <<< 8)
    if offset = 0 ∨ offset > op then none
    else (lz4Nibble src (token &&& 15) (ip + 2)).map fun (nibble, next) =>
      (offset, nibble + lz4MinMatch, next)

def copyLiterals (src : Bytes) (start op : ℕ) : ℕ → Region.Writer UInt8 Unit
  | 0 => pure ()
  | count + 1 =>
    if start < src.length then
      store op (src.getD start 0) >>= fun _ => copyLiterals src (start + 1) (op + 1) count
    else failure

/-- `count` bytes of the region itself, one by one: a match may overlap what it produces. -/
def copyMatch (start op : ℕ) : ℕ → Region.Writer UInt8 Unit
  | 0 => pure ()
  | count + 1 =>
    fetch start >>= fun byte => store op byte >>= fun _ => copyMatch (start + 1) (op + 1) count

variable {src : Bytes}

lemma lz4ReadLengthFrom_lt {total position found next : ℕ}
    (h : lz4ReadLengthFrom src total position = some (found, next)) : position < next := by
  fun_induction lz4ReadLengthFrom src total position with
  | case1 => cases h
  | case2 total position _ _ _ =>
    obtain ⟨-, rfl⟩ := Prod.mk.inj (some.inj h)
    exact Nat.lt_succ_self position
  | case3 total position _ _ _ ih => exact Nat.lt_of_succ_lt (ih h)
  | case4 => cases h

lemma lz4Nibble_le {nibble ip found next : ℕ}
    (h : lz4Nibble src nibble ip = some (found, next)) : ip ≤ next := by
  unfold lz4Nibble at h
  split_ifs at h
  · obtain ⟨⟨more, after⟩, hread, heq⟩ := map_eq_some_iff.mp h
    obtain ⟨-, rfl⟩ := Prod.mk.inj heq
    exact (lz4ReadLengthFrom_lt hread).le
  · obtain ⟨-, rfl⟩ := Prod.mk.inj (some.inj h)
    exact le_rfl

lemma lz4Match_lt {token ip op offset length next : ℕ}
    (h : lz4Match src token ip op = some (offset, length, next)) : ip < next := by
  simp only [lz4Match] at h
  split_ifs at h
  obtain ⟨⟨nibble, after⟩, hnibble, heq⟩ := map_eq_some_iff.mp h
  simp only [Prod.mk.injEq] at heq
  have hle := lz4Nibble_le hnibble
  omega

def lz4DecodeFrom (src : Bytes) (dstLen ip op : ℕ) : Region.Writer UInt8 ℕ :=
  if ip < src.length then
    let token := byteAt src ip
    match _ : lz4Nibble src (token >>> 4) (ip + 1) with
    | none => failure
    | some (literals, start) =>
      if start > src.length ∨ literals > src.length - start ∨ op > dstLen ∨ literals > dstLen - op then
        failure
      else
        copyLiterals src start op literals >>= fun _ =>
        -- The last sequence ends after its literals.
        if start + literals = src.length then pure (op + literals)
        else
          match _ : lz4Match src token (start + literals) (op + literals) with
          | none => failure
          | some (offset, matchLength, next) =>
            if matchLength > dstLen - (op + literals) then failure
            else
              copyMatch (op + literals - offset) (op + literals) matchLength >>= fun _ =>
              lz4DecodeFrom src dstLen next (op + literals + matchLength)
  else if src.length = 0 then pure 0
  else failure
termination_by src.length - ip
decreasing_by
  have hle := lz4Nibble_le (by assumption)
  have hlt := lz4Match_lt (by assumption)
  omega

def lz4Decode (src dst : Bytes) : DecodeResult × Bytes :=
  match (lz4DecodeFrom src dst.length 0 0).on dst with
  | (some op, dst') => (.decoded op, dst')
  | (none, dst') => (.invalid, dst')

/-! ## Encoding -/

def lz4PutLength (position left : ℕ) : Region.Writer UInt8 ℕ :=
  if left ≥ 255 then store position 255 >>= fun _ => lz4PutLength (position + 1) (left - 255)
  else store position (UInt8.ofNat left) >>= fun _ => pure (position + 1)
termination_by left

def lz4Emit (src : Bytes) (start literalStart literals offset matchLength : ℕ) : Region.Writer UInt8 ℕ := do
  let literalNibble := min literals 15
  let matchNibble := if matchLength ≠ 0 then min (matchLength - lz4MinMatch) 15 else 0
  store start (UInt8.ofNat ((literalNibble <<< 4) ||| matchNibble))
  let op ← (if literalNibble = 15 then lz4PutLength (start + 1) (literals - 15) else pure (start + 1))
  copyLiterals src literalStart op literals
  let op := op + literals
  if matchLength = 0 then pure op
  else do
    room op
    room (op + 1)
    store op (UInt8.ofNat (offset &&& 255))
    store (op + 1) (UInt8.ofNat ((offset >>> 8) &&& 255))
    if matchNibble = 15 then lz4PutLength (op + 2) (matchLength - lz4MinMatch - 15)
    else pure (op + 2)

def lz4Word (src : Bytes) (position : ℕ) : ℕ :=
  (List.range 4).foldl (fun word k =>
    if position + k < src.length then word ||| (byteAt src (position + k) <<< (k * 8)) else word) 0

def lz4Hash (word : ℕ) : ℕ := (word ^^^ (word >>> 11) ^^^ (word >>> 21)) &&& 0xFFF

def lz4Extend (src : Bytes) (matchLimit here reference length : ℕ) : ℕ :=
  if here + length < matchLimit then
    if here + length < src.length ∧ reference + length < src.length then
      if src.getD (here + length) 0 ≠ src.getD (reference + length) 0 then length
      else lz4Extend src matchLimit here reference (length + 1)
    else length
  else length
termination_by matchLimit - (here + length)

lemma le_lz4Extend (src : Bytes) (matchLimit here reference length : ℕ) :
    length ≤ lz4Extend src matchLimit here reference length := by
  fun_induction lz4Extend src matchLimit here reference length <;> omega

/-- The position that the table has for the word at `here`, where a match begins. A table entry is a
position + 1; zero is empty. -/
def lz4Reference (src : Bytes) (table : List ℕ) (here : ℕ) : Option ℕ :=
  let word := lz4Word src here
  let slot := lz4Hash word
  let candidate := if slot < table.length then table.getD slot 0 else 0
  if candidate ≠ 0 ∧ here - (candidate - 1) ≤ lz4MaxOffset ∧ lz4Word src (candidate - 1) = word then
    some (candidate - 1)
  else none

def lz4Remember (src : Bytes) (table : List ℕ) (here : ℕ) : List ℕ :=
  table.set (lz4Hash (lz4Word src here)) ((here + 1) % 2 ^ 32)

/-- The loop of `lz4_encode`; it ends with the cursor and the start of the last literals. -/
def lz4EncodeFrom (src : Bytes) (findLimit : ℕ) (table : List ℕ) (here anchor op : ℕ) :
    Region.Writer UInt8 (ℕ × ℕ) :=
  if here < findLimit then
    match lz4Reference src table here with
    | some reference =>
      let length := lz4Extend src (src.length - lz4LastLiterals) here reference lz4MinMatch
      lz4Emit src op anchor (here - anchor) (here - reference) length >>= fun next =>
      lz4EncodeFrom src findLimit (lz4Remember src table here) (here + length) (here + length) next
    | none => lz4EncodeFrom src findLimit (lz4Remember src table here) (here + 1) anchor op
  else pure (op, anchor)
termination_by findLimit - here
decreasing_by
  · have hpos : 0 < lz4MinMatch := by decide
    exact Nat.sub_lt_sub_left (by assumption)
      (Nat.lt_add_of_pos_right (hpos.trans_le (le_lz4Extend ..)))
  · omega

def lz4EncodeBlock (src : Bytes) (table : List ℕ) : Region.Writer UInt8 ℕ :=
  (if src.length > lz4MatchFindLimit then
    lz4EncodeFrom src (src.length - lz4MatchFindLimit) (table.map fun _ => 0) 0 0 0
  else pure (0, 0)) >>= fun (op, anchor) => lz4Emit src op anchor (src.length - anchor) 0 0

def lz4Encode (src dst : Bytes) (table : List ℕ) : EncodeResult × Bytes :=
  if src.length > lz4MaxSource then (.noRoom, dst)
  else if table.length < lz4HashEntries then (.noRoom, dst)
  else
    match (lz4EncodeBlock src table).on dst with
    | (some n, dst') => (.encoded n, dst')
    | (none, dst') => (.noRoom, dst')

end Takibi.Lz4
