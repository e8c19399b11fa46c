import Takibi.Lz4.Exact
import Takibi.Region.Memory

/-! The decoder on a flat memory: every access is a load or a store at an address, guarded by the checks that the
source makes. It keeps to its two regions, and answers exactly for the blocks. -/

namespace Takibi.Lz4
open Region Slice List

abbrev Memory := Region.Memory UInt8
def byteIn (mem : Memory) (src : Slice) (i : ℕ) : ℕ := (mem (src.base + i)).toNat

def lz4ReadLengthAt (mem : Memory) (src : Slice) (total position : ℕ) : Option (ℕ × ℕ) :=
  if position < src.length then
    let value := byteIn mem src position
    if total > lz4LengthCap then none
    else if value ≠ 255 then some (total + value, position + 1)
    else lz4ReadLengthAt mem src (total + value) (position + 1)
  else none
termination_by src.length - position

def lz4NibbleAt (mem : Memory) (src : Slice) (nibble ip : ℕ) : Option (ℕ × ℕ) :=
  if nibble = 15 then (lz4ReadLengthAt mem src 0 ip).map fun (more, next) => (nibble + more, next)
  else some (nibble, ip)

def lz4MatchAt (mem : Memory) (src : Slice) (token ip op : ℕ) : Option (ℕ × ℕ × ℕ) :=
  if ip + 1 ≥ src.length then none
  else
    let offset := byteIn mem src ip ||| (byteIn mem src (ip + 1) <<< 8)
    if offset = 0 ∨ offset > op then none
    else (lz4NibbleAt mem src (token &&& 15) (ip + 2)).map fun (nibble, next) =>
      (offset, nibble + lz4MinMatch, next)

def copyLiteralsAt (src dst : Slice) (start op : ℕ) : ℕ → Program UInt8 Unit
  | 0 => pure ()
  | count + 1 =>
    if start < src.length ∧ op < dst.length then
      load (src.base + start) >>= fun byte => put (dst.base + op) byte >>= fun _ =>
      copyLiteralsAt src dst (start + 1) (op + 1) count
    else failure

def copyMatchAt (dst : Slice) (start op : ℕ) : ℕ → Program UInt8 Unit
  | 0 => pure ()
  | count + 1 =>
    if start < dst.length ∧ op < dst.length then
      load (dst.base + start) >>= fun byte => put (dst.base + op) byte >>= fun _ =>
      copyMatchAt dst (start + 1) (op + 1) count
    else failure

/-! ## What is read -/

section Reads
variable {mem : Memory} {src : Slice}

lemma byteIn_eq {i : ℕ} (hi : i < src.length) : byteIn mem src i = byteAt (src.bytes mem) i := by
  rw [byteAt, getD, getElem?_bytes hi]
  rfl

lemma lz4ReadLengthAt_eq (total position : ℕ) :
    lz4ReadLengthAt mem src total position = lz4ReadLengthFrom (src.bytes mem) total position := by
  fun_induction lz4ReadLengthAt mem src total position with
  | case1 total position hposition hcap =>
    rw [lz4ReadLengthFrom, if_pos (by rwa [length_bytes]), if_pos hcap]
  | case2 total position hposition value hcap hlast =>
    have hvalue : value = byteAt (src.bytes mem) position := byteIn_eq hposition
    rw [lz4ReadLengthFrom, if_pos (by rwa [length_bytes]), if_neg hcap, if_pos (hvalue ▸ hlast), hvalue]
  | case3 total position hposition value hcap hmore ih =>
    have hvalue : value = byteAt (src.bytes mem) position := byteIn_eq hposition
    rw [ih, lz4ReadLengthFrom.eq_def _ total, if_pos (by rwa [length_bytes]), if_neg hcap,
      if_neg (hvalue ▸ hmore), hvalue]
  | case4 total position hposition =>
    rw [lz4ReadLengthFrom, if_neg (by rwa [length_bytes])]

lemma lz4NibbleAt_eq (nibble ip : ℕ) : lz4NibbleAt mem src nibble ip = lz4Nibble (src.bytes mem) nibble ip := by
  rw [lz4NibbleAt, lz4Nibble, lz4ReadLengthAt_eq]
  rfl

lemma lz4MatchAt_eq (token ip op : ℕ) :
    lz4MatchAt mem src token ip op = lz4Match (src.bytes mem) token ip op := by
  rw [lz4MatchAt, lz4Match, length_bytes]
  split_ifs with hend
  · rfl
  · rw [byteIn_eq (by omega), byteIn_eq (by omega), lz4NibbleAt_eq]

end Reads

def lz4DecodeFromAt (src dst : Slice) (ip op : ℕ) : Program UInt8 ℕ :=
  if ip < src.length then
    current >>= fun mem =>
    let token := byteIn mem src ip
    match _ : lz4NibbleAt mem src (token >>> 4) (ip + 1) with
    | none => failure
    | some (literals, start) =>
      if start > src.length ∨ literals > src.length - start ∨ op > dst.length ∨ literals > dst.length - op then
        failure
      else
        copyLiteralsAt src dst start op literals >>= fun _ =>
        if start + literals = src.length then pure (op + literals)
        else
          current >>= fun mem =>
          match _ : lz4MatchAt mem src token (start + literals) (op + literals) with
          | none => failure
          | some (offset, matchLength, next) =>
            if matchLength > dst.length - (op + literals) then failure
            else
              copyMatchAt dst (op + literals - offset) (op + literals) matchLength >>= fun _ =>
              lz4DecodeFromAt src dst next (op + literals + matchLength)
  else if src.length = 0 then pure 0
  else failure
termination_by src.length - ip
decreasing_by
  have hle := lz4Nibble_le ((lz4NibbleAt_eq ..).symm.trans (by assumption))
  have hlt := lz4Match_lt ((lz4MatchAt_eq ..).symm.trans (by assumption))
  omega

/-! ## What is written -/

section Writes
variable {src dst : Slice} {given : Bytes}

lemma copyLiteralsAt_keeps (happart : src.Apart dst) (hgiven : given.length = src.length) {count : ℕ} :
    ∀ {start op : ℕ}, op + count ≤ dst.length →
      Keeps src dst given (copyLiteralsAt src dst start op count) (copyLiterals given start op count) := by
  induction count with
  | zero => exact fun _ _ _ => .pure ()
  | succ count ih =>
    intro start op hroom mem hmem
    rw [copyLiteralsAt, copyLiterals, hgiven]
    by_cases hstart : start < src.length
    · have hbyte : mem (src.base + start) = given.getD start 0 := by
        rw [← hmem, getD, getElem?_bytes hstart]
        rfl
      rw [if_pos ⟨hstart, by omega⟩, if_pos hstart, ← hbyte]
      exact ((KeepsAt.put (by omega) _).bind happart hmem fun _ => ih (by omega)).load
    · rw [if_neg fun hboth => hstart hboth.1, if_neg hstart]
      exact .failure

lemma copyMatchAt_keeps (happart : src.Apart dst) {count : ℕ} :
    ∀ {start op : ℕ}, start ≤ op → op + count ≤ dst.length →
      Keeps src dst given (copyMatchAt dst start op count) (copyMatch start op count) := by
  induction count with
  | zero => exact fun _ _ _ _ => .pure ()
  | succ count ih =>
    intro start op hbehind hroom mem hmem
    rw [copyMatchAt, copyMatch, if_pos ⟨by omega, by omega⟩]
    exact .fetch (by omega) ((KeepsAt.put (by omega) _).bind happart hmem fun _ => ih (by omega) (by omega))

lemma lz4DecodeFromAt_keeps (happart : src.Apart dst) (hgiven : given.length = src.length) (ip op : ℕ) :
    Keeps src dst given (lz4DecodeFromAt src dst ip op) (lz4DecodeFrom given dst.length ip op) := by
  induction hleft : src.length - ip using Nat.strong_induction_on generalizing ip op with
  | _ left ih =>
    intro mem hmem
    rw [lz4DecodeFromAt]
    by_cases hip : ip < src.length
    · have hip' : ip < given.length := hgiven ▸ hip
      rw [if_pos hip]
      refine .current ?_
      have htoken : byteIn mem src ip = byteAt given ip := hmem ▸ byteIn_eq hip
      dsimp only
      split
      · next hnone =>
        rw [lz4NibbleAt_eq, hmem, htoken] at hnone
        rw [lz4DecodeFrom_invalid hip' hnone]
        exact .failure
      · next literals start hsome =>
        rw [lz4NibbleAt_eq, hmem, htoken] at hsome
        rw [lz4DecodeFrom_nibble hip' hsome, hgiven]
        split_ifs with hbounds hend
        · exact .failure
        · refine (copyLiteralsAt_keeps happart hgiven (by omega) mem hmem).bind happart hmem fun _ mem₁ hmem₁ => ?_
          rw [afterLiterals, hgiven, if_pos hend]
          exact .pure _
        · refine (copyLiteralsAt_keeps happart hgiven (by omega) mem hmem).bind happart hmem fun _ mem₁ hmem₁ => ?_
          rw [afterLiterals, hgiven, if_neg hend]
          refine .current ?_
          split
          · next hnone =>
            rw [lz4MatchAt_eq, hmem₁, htoken] at hnone
            rw [hnone]
            exact .failure
          · next offset matchLength next hsome' =>
            rw [lz4MatchAt_eq, hmem₁, htoken] at hsome'
            rw [hsome']
            dsimp only
            split_ifs with hlong
            · exact .failure
            · have hle := lz4Nibble_le hsome
              have hlt := lz4Match_lt hsome'
              exact (copyMatchAt_keeps happart (Nat.sub_le ..) (by omega) mem₁ hmem₁).bind happart hmem₁ fun _ =>
                ih (src.length - next) (by omega) _ _ rfl
    · have hip' : ¬ ip < given.length := hgiven ▸ hip
      rw [if_neg hip, lz4DecodeFrom, if_neg hip', hgiven]
      split_ifs
      · exact .pure 0
      · exact .failure

end Writes

def lz4DecodeAt (src dst : Slice) (mem : Memory) : DecodeResult × Memory :=
  match (lz4DecodeFromAt src dst 0 0).on mem with
  | (some op, mem') => (.decoded op, mem')
  | (none, mem') => (.invalid, mem')

lemma lz4DecodeAt_eq {src dst : Slice} (happart : src.Apart dst) (mem : Memory) :
    (lz4Decode (src.bytes mem) (dst.bytes mem)).2.length = dst.length ∧
      lz4DecodeAt src dst mem = ((lz4Decode (src.bytes mem) (dst.bytes mem)).1,
        dst.overwrite mem (lz4Decode (src.bytes mem) (dst.bytes mem)).2) := by
  obtain ⟨hlength, hrun⟩ := lz4DecodeFromAt_keeps happart (src.length_bytes mem) 0 0 mem rfl
  rw [lz4DecodeAt, hrun, lz4Decode, length_bytes]
  rcases hdecode : (lz4DecodeFrom (src.bytes mem) dst.length 0 0).on (dst.bytes mem) with ⟨_ | op, region⟩
  all_goals
    rw [hdecode] at hlength
    exact ⟨hlength, rfl⟩

/-- The decoder answers `Decoded` exactly for the blocks whose text has room, writes the text and leaves the rest.
Wherever the two regions lie, it writes only the second, and what it does rests on their bytes alone. -/
theorem lz4Decode_exact (src dst : Bytes) :
    (∀ n, (lz4Decode src dst).1 = .decoded n ↔ ∃ text, Decodes src text ∧ text.length = n ∧ n ≤ dst.length) ∧
      (∀ text, Decodes src text → text.length ≤ dst.length →
        (lz4Decode src dst).2 = text ++ dst.drop text.length) ∧
      ∀ (s d : Slice) (mem : Memory), s.Apart d → s.bytes mem = src → d.bytes mem = dst →
        (lz4DecodeAt s d mem).1 = (lz4Decode src dst).1 ∧
        d.bytes (lz4DecodeAt s d mem).2 = (lz4Decode src dst).2 ∧
        ∀ a, ¬ d.Holds a → (lz4DecodeAt s d mem).2 a = mem a := by
  refine ⟨fun n => ⟨decodes_of_lz4Decode, ?_⟩, fun text htext hroom => ?_, ?_⟩
  · rintro ⟨text, htext, rfl, hroom⟩
    rw [lz4Decode_of_decodes htext hroom]
  · rw [lz4Decode_of_decodes htext hroom]
  · rintro s d mem happart rfl rfl
    obtain ⟨hlength, hrun⟩ := lz4DecodeAt_eq happart mem
    rw [hrun]
    exact ⟨rfl, bytes_overwrite hlength, fun a ha => overwrite_of_not ha⟩

end Takibi.Lz4
