import Mathlib.Tactic

/-! The memory map of a device tree: usable regions are found by a sweep over the ends of RAM
regions and reservations, with no sort and no array. -/

namespace Takibi.Boot

def usizeMax : ℕ := 0xFFFFFFFFFFFFFFFF

structure Region where
  base : ℕ
  size : ℕ
  deriving DecidableEq, Repr

def Region.stop (r : Region) : ℕ := (r.base + r.size) % 2 ^ 64

inductive RegionResult
  | invalid
  | outOfRange
  | found (r : Region)
  deriving DecidableEq, Repr

/-- What the scans of a blob find: no region reaches the end of the address space, and a blob,
whose size is a 32-bit word, has far fewer entries than there are machine words. -/
structure MemoryMap where
  raws : List Region
  headers : List Region
  trees : List Region
  bounded : ∀ r ∈ raws ++ (headers ++ trees), r.base + r.size < 2 ^ 64
  few : raws.length + (headers.length + trees.length) ≤ 0x7FFFFFFFFFFFFFFF

namespace MemoryMap

def entryAt (rs : List Region) (index : ℕ) : RegionResult :=
  match rs[index]? with
  | some r => .found r
  | none => .outOfRange

variable (map : MemoryMap) (index : ℕ)

def rawRegionAt : RegionResult := entryAt map.raws index
def headerReservationAt : RegionResult := entryAt map.headers index
def treeReservationAt : RegionResult := entryAt map.trees index

def anyReservationAt : RegionResult :=
  if index < map.headers.length then map.headerReservationAt index
  else map.treeReservationAt (index - map.headers.length)

end MemoryMap

def visitRegions {σ : Type} (regionAt : ℕ → RegionResult) (visit : σ → Region → σ) :
    (remaining index : ℕ) → σ → Option σ
  | 0, _, s => some s
  | remaining + 1, index, s =>
    match regionAt index with
    | .found r => visitRegions regionAt visit remaining (index + 1) (visit s r)
    | _ => none

def lower (found : Option ℕ) (x : ℕ) : Option ℕ := if found.all (x < ·) then some x else found

structure Look where
  inside : Bool
  next : Option ℕ
  deriving DecidableEq, Repr

def above (cursor : ℕ) (next : Option ℕ) (x : ℕ) : Option ℕ :=
  if cursor < x then lower next x else next

def look (cursor : ℕ) (l : Look) (r : Region) : Look where
  inside := l.inside || (r.base ≤ cursor && cursor < r.stop)
  next := above cursor (above cursor l.next r.base) r.stop

/-- Opens or closes a region at the cursor; `o` is the base of the open one. The region that is
closed is the result if it is the wanted one. -/
def turn (wanted cursor usableIndex : ℕ) (usable : Bool) (o : Option ℕ) : RegionResult ⊕ ℕ × Option ℕ :=
  match usable, o with
  | true, none => .inr (usableIndex, some cursor)
  | false, some base =>
    if usableIndex = wanted then .inl (.found ⟨base, cursor - base⟩)
    else .inr (usableIndex + 1, none)
  | _, o => .inr (usableIndex, o)

def finish (wanted cursor usableIndex : ℕ) (o : Option ℕ) : RegionResult :=
  match o with
  | some base => if usableIndex = wanted then .found ⟨base, cursor - base⟩ else .outOfRange
  | none => .outOfRange

namespace MemoryMap
variable (map : MemoryMap)

def reservationCount : ℕ := map.headers.length + map.trees.length

def sweepRegions (wanted : ℕ) : (steps cursor usableIndex : ℕ) → Option ℕ → RegionResult
  | 0, _, _, _ => .invalid
  | steps + 1, cursor, usableIndex, o =>
    match visitRegions map.rawRegionAt (look cursor) map.raws.length 0 ⟨false, none⟩ with
    | none => .invalid
    | some raw =>
      match visitRegions map.anyReservationAt (look cursor) map.reservationCount 0
          ⟨false, raw.next⟩ with
      | none => .invalid
      | some reserved =>
        match turn wanted cursor usableIndex (raw.inside && !reserved.inside) o with
        | .inl result => result
        | .inr (usableIndex, o) =>
          match reserved.next with
          | none => finish wanted cursor usableIndex o
          | some next => sweepRegions wanted steps next usableIndex o

def regionAt (wanted : ℕ) : RegionResult :=
  if map.headers.length > usizeMax - map.trees.length then .invalid
  else if map.raws.length > 0x7FFFFFFFFFFFFFFF - map.reservationCount then .invalid
  else
    match visitRegions map.rawRegionAt (fun found r => lower found r.base) map.raws.length 0 none with
    | none | some none => .invalid
    | some (some cursor) =>
      map.sweepRegions wanted ((map.raws.length + map.reservationCount) * 2 + 1) cursor 0 none

def countRegions : (remaining count : ℕ) → ℕ
  | 0, _ => 0
  | remaining + 1, count =>
    match map.regionAt count with
    | .invalid => 0
    | .outOfRange => count
    | .found r => if r.size = 0 then 0 else countRegions remaining (count + 1)

def regionCount : ℕ := map.countRegions usizeMax 0

def sumRegions : (remaining index total : ℕ) → ℕ
  | 0, _, _ => 0
  | remaining + 1, index, total =>
    match map.regionAt index with
    | .invalid => 0
    | .outOfRange => total
    | .found r =>
      if total > usizeMax - r.size then 0 else sumRegions remaining (index + 1) (total + r.size)

def totalSize : ℕ := map.sumRegions usizeMax 0 0

end MemoryMap
end Takibi.Boot
