import Takibi.Range.ConstEnv
import Takibi.Types.Unify

/-! The refined-range rules of type inference: the range of an arithmetic
result from the ranges of its operands. The checker's bounds are native words. -/

namespace Takibi.Range
open Numeric Takibi.Types Syntax

/-! ## Checked arithmetic and base limits -/

def checkedMul (a b : Native) : Option Native := ConstEnv.checkedMul a b

def checkedAdd (a b : Native) : Option Native :=
  let s := a + b
  if (0 ≤ a.toInt ↔ 0 ≤ b.toInt) ∧ ¬ (0 ≤ s.toInt ↔ 0 ≤ a.toInt) then none else some s

def checkedSub (a b : Native) : Option Native :=
  if b = Native.minInt then none else checkedAdd a (-b)

def productLimitOfBaseBits (signed : Bool) (bits : Nat) : Native :=
  if 63 ≤ bits then Native.maxInt
  else if signed then 1 <<< (bits - 1)
  else 1 <<< bits

variable (tgt : Target)

def productLimitOfTy : IntTy → Option Native
  | .u8 => some 256
  | .u16 => some 65536
  | .u32 => some (productLimitOfBaseBits false 32)
  | .u64 => some Native.maxInt
  | .i8 => some 128
  | .i16 => some 32768
  | .i32 => some (productLimitOfBaseBits true 32)
  | .i64 => some Native.maxInt
  | .usize => some (productLimitOfBaseBits false tgt.pointerBitWidth)
  | .isize => some (productLimitOfBaseBits true tgt.pointerBitWidth)
  | .u16be => none
  | .u32be => none

def rangeWithinBase (base : IntTy) : Option Native → Option Native → Option (Native × Native)
  | some lo, some hi =>
    if lo.toInt < hi.toInt then
      if lo.toInt < 0 ∧ ¬ base.signed then none
      else
        match productLimitOfTy tgt base with
        | none => some (lo, hi)
        | some limit =>
          if hi.toInt ≤ limit.toInt ∧ (-limit).toInt ≤ lo.toInt then some (lo, hi) else none
    else none
  | _, _ => none

/-- The compile-time value of `e` at `base`. With `bound`, `e` is an exclusive
upper bound, which may be one past the base's largest value. -/
def foldAtBase (tbl : ConstTable) (bound : Bool) (base : IntTy) (e : Expr) : Option Native := do
  let limit ← productLimitOfTy tgt base
  foldedValueWithin tbl (if base.signed then -limit else 0)
    (if bound ∧ limit.toInt < Native.maxInt.toInt then limit + 1 else limit) e

/-! ## Operand types -/

inductive NumTy
  | unresolved
  | int (t : IntTy)
  | refinedInt (lo hi : Native) (base : IntTy)
  | multiple (n : Native) (base : IntTy)
  /-- A range of literals, whose base a later use decides. -/
  | openRange (lo hi : Native)
  deriving DecidableEq, Repr

def canonTy : NumTy → Option IntTy
  | .unresolved | .openRange _ _ => none
  | .int t => some t
  | .refinedInt _ _ base => some base
  | .multiple _ base => some base

def NumTy.refined? : NumTy → Option (Native × Native × Option IntTy)
  | .refinedInt lo hi base => some (lo, hi, some base)
  | .openRange lo hi => some (lo, hi, none)
  | _ => none

def NumTy.ofBase : Option IntTy → NumTy
  | some t => .int t
  | none => .unresolved

def unifyAt (t : NumTy) (base : IntTy) : Bool :=
  match t with
  | .unresolved => true
  | .int t => (unify (.int t) (.int base)).isOk
  | .refinedInt lo hi b => (unify (.refinedInt lo hi b) (.int base)).isOk
  | .multiple n b => (unify (.multiple n b) (.int base)).isOk
  -- an open base is no wire-endian one
  | .openRange lo hi => (unifyRefinedInt lo hi .i32 base).isOk

/-- The common base of two operands, `none` inside where a later use decides it. -/
def unifyBases : Option IntTy → Option IntTy → Option (Option IntTy)
  | some a, some b => if a = b then some (some a) else none
  | some a, none => some (some a)
  | none, b => some b

def unifyCanon (t1 t2 : NumTy) : Option (Option IntTy) := unifyBases (canonTy t1) (canonTy t2)

def unifyAtBase (t : NumTy) : Option IntTy → Option (Option IntTy)
  | some base => if unifyAt t base then some (some base) else none
  | none => some (canonTy t)

def refinedOrBase (base : IntTy) (lo hi : Option Native) : NumTy :=
  match rangeWithinBase tgt base lo hi with
  | some (lo, hi) => .refinedInt lo hi base
  | none => .int base

/-- An open base is not known to be signed, and nothing limits it. -/
def refinedOrOpen (base : Option IntTy) (lo hi : Option Native) : NumTy :=
  match base, lo, hi with
  | some base, lo, hi => refinedOrBase tgt base lo hi
  | none, some lo, some hi => if lo.toInt < hi.toInt ∧ 0 ≤ lo.toInt then .openRange lo hi else .unresolved
  | none, _, _ => .unresolved

def refinedProductRange (a b c d : Native) : Option Native × Option Native :=
  if a.toInt < 0 ∨ c.toInt < 0 ∨ b.toInt ≤ a.toInt ∨ d.toInt ≤ c.toInt then (none, none)
  else (checkedMul a c, (checkedMul (b - 1) (d - 1)).bind fun t => checkedAdd t 1)

section Rules
variable (tgt : Target) (tbl : ConstTable)

/-- The compile-time value at a base; where that is open, one that every base
agrees on. -/
def foldAt (base : Option IntTy) (e : Expr) : Option Native :=
  match base with
  | some base => foldAtBase tgt tbl false base e
  | none => foldedValueUnresolved tbl e

/-- `bound_at_base`. -/
def boundAt (base : Option IntTy) (e : Expr) : Option Native :=
  match e with
  | .intLit _ | .var _ => foldAt tgt tbl base e
  | _ => none

def withConst (base : Option IntTy) (t : NumTy) (e : Expr)
    (range : Native → Option Native × Option Native) : Option NumTy :=
  match foldAt tgt tbl base e with
  | some k => (unifyAtBase t base).map fun base => refinedOrOpen tgt base (range k).1 (range k).2
  | none => (unifyBases (canonTy t) base).map .ofBase

def plain (t1 t2 : NumTy) : Option NumTy := (unifyCanon t1 t2).map .ofBase

variable (t1 : NumTy) (e1 : Expr) (t2 : NumTy) (e2 : Expr)

def addRule : Option NumTy :=
  match t1.refined?, t2.refined? with
  | some (a, b, base1), some (c, d, base2) =>
    (unifyBases base1 base2).map fun base => refinedOrOpen tgt base (checkedAdd a c)
      ((checkedAdd b d).bind fun s => checkedAdd s (-1))
  | some (a, b, base), none =>
    withConst tgt tbl base t2 e2 fun k => (checkedAdd a k, checkedAdd b k)
  | none, some (c, d, base) =>
    withConst tgt tbl base t1 e1 fun k => (checkedAdd c k, checkedAdd d k)
  | none, none => plain t1 t2

def subRule : Option NumTy :=
  match t1.refined?, t2.refined? with
  | some (a, b, base1), some (c, d, base2) =>
    (unifyBases base1 base2).map fun base =>
      refinedOrOpen tgt base (checkedSub a (d - 1)) (checkedSub b c)
  | some (a, b, base), none =>
    withConst tgt tbl base t2 e2 fun k => (checkedSub a k, checkedSub b k)
  | none, some (c, d, base) =>
    withConst tgt tbl base t1 e1 fun k =>
      (checkedSub k (d - 1), (checkedSub k c).bind fun t => checkedAdd t 1)
  | none, none => plain t1 t2

def mulConst (a b : Native) (base : Option IntTy) (k : Native) (t : NumTy) : Option NumTy :=
  (unifyAtBase t base).map fun base => refinedOrOpen tgt base (checkedMul a k)
    ((checkedMul (b - 1) k).bind fun t => checkedAdd t 1)

def mulRule : Option NumTy :=
  let k2 := (foldAt tgt tbl (canonTy t1) e2).filter fun k => 0 < k.toInt
  let k1 := (foldAt tgt tbl (canonTy t2) e1).filter fun k => 0 < k.toInt
  match t1.refined?, k2, t2.refined?, k1 with
  | some (a, b, base), some k, _, _ => mulConst tgt a b base k t2
  | _, _, some (a, b, base), some k => mulConst tgt a b base k t1
  | some (a, b, base1), _, some (c, d, base2), _ =>
    (unifyBases base1 base2).map fun base =>
      refinedOrOpen tgt base (refinedProductRange a b c d).1 (refinedProductRange a b c d).2
  | _, _, _, _ => plain t1 t2

def divRule : Option NumTy := do
  let ct ← unifyCanon t1 t2
  if foldedValue tbl e2 = some 0 then none
  else
    match foldAt tgt tbl ct (.binOp .div e1 e2) with
    | some k => some (refinedOrOpen tgt ct (some k) (checkedAdd k 1))
    | none => some (.ofBase ct)

def isUnsignedTy : NumTy → Bool
  | .int .u8 | .int .u16 | .int .u32 | .int .u64 | .int .usize | .multiple _ .usize => true
  | _ => false

def modRule (t1 t2 : NumTy) (e2 : Expr) : Option NumTy := do
  let ct ← unifyCanon t1 t2
  if foldedValue tbl e2 = some 0 then none
  else
    match foldAt tgt tbl ct e2 with
    | some m =>
      if 0 < m.toInt then
        match t1.refined? with
        | some (lo, _, _) =>
          if 0 ≤ lo.toInt then some (refinedOrOpen tgt ct (some 0) (some m)) else some (.ofBase ct)
        | none =>
          if isUnsignedTy t1 then some (refinedOrOpen tgt ct (some 0) (some m))
          else some (.ofBase ct)
      else some (.ofBase ct)
    | none => some (.ofBase ct)

def bandRule : Option NumTy := do
  let ct ← unifyCanon t1 t2
  if ct.any IntTy.wire then some (.ofBase ct)
  else
    let mask (e : Expr) := (foldAt tgt tbl ct e).filter fun k => 0 ≤ k.toInt
    match mask e2 with
    | some k => some (refinedOrOpen tgt ct (some 0) (checkedAdd k 1))
    | none =>
      match mask e1 with
      | some k => some (refinedOrOpen tgt ct (some 0) (checkedAdd k 1))
      | none => some (.ofBase ct)

def obligationWidth : IntTy → Option (Nat × Bool)
  | .u16be | .u32be => none
  | t => some (t.bits tgt, t.signed)

inductive MinMax
  | min
  | max
  deriving DecidableEq, Repr

def sentinels (base : Option IntTy) : Option Native × Option Native :=
  match base.bind (obligationWidth tgt) with
  | some (bits, signed) =>
    if bits < 63 then
      if signed then (some (-(1 <<< (bits - 1))), some (1 <<< (bits - 1)))
      else (some 0, some (1 <<< bits))
    else if signed then (none, none)
    else (some 0, none)
  | none => (none, none)

def pick (fname : MinMax) (a b : Native) : Native :=
  match fname with
  | .min => if a.toInt ≤ b.toInt then a else b
  | .max => if b.toInt ≤ a.toInt then a else b

/-- Of `min` one operand bounds the result above and both bound it below; of
`max` the other way round. -/
def minMaxRange (fname : MinMax) (base : Option IntTy) (ra rb : Option (Native × Native)) :
    Option (Native × Native) :=
  let lo := match ra, rb with
    | some a, some b => some (pick fname a.1 b.1)
    | some a, none => if fname = .max then some a.1 else (sentinels tgt base).1
    | none, some b => if fname = .max then some b.1 else (sentinels tgt base).1
    | none, none => (sentinels tgt base).1
  let hi := match ra, rb with
    | some a, some b => some (pick fname a.2 b.2)
    | some a, none => if fname = .min then some a.2 else (sentinels tgt base).2
    | none, some b => if fname = .min then some b.2 else (sentinels tgt base).2
    | none, none => (sentinels tgt base).2
  match lo, hi with
  | some lo, some hi => some (lo, hi)
  | _, _ => none

def rangeOf (base : Option IntTy) (t : NumTy) (e : Expr) : Option (Native × Native) :=
  match boundAt tgt tbl base e with
  | some k => some (k, k + 1)
  | none => t.refined?.map fun r => (r.1, r.2.1)

def minMaxRule (fname : MinMax) (t1 : NumTy) (e1 : Expr) (t2 : NumTy) (e2 : Expr) : Option NumTy := do
  let base ← unifyCanon t1 t2
  match minMaxRange tgt fname base (rangeOf tgt tbl base t1 e1) (rangeOf tgt tbl base t2 e2) with
  | some (lo, hi) => some (refinedOrOpen tgt base (some lo) (some hi))
  | none => some (.ofBase base)

def baseOf : NumTy → Option IntTy
  | .int t => some t
  | .refinedInt _ _ base => some base
  | _ => none

def isWireBeTy (t : NumTy) : Bool := (baseOf t).any IntTy.wire

def sameWireFamily : IntTy → IntTy → Bool
  | .u16be, .u16 | .u16, .u16be | .u16be, .u16be => true
  | .u32be, .u32 | .u32, .u32be | .u32be, .u32be => true
  | _, _ => false

/-- A cast to a plain integer type. A wire-endian type converts only to and
from its own host type. -/
def castRule (src : NumTy) (t : IntTy) : Option NumTy :=
  if isWireBeTy src ∨ t.wire then
    if (baseOf src).any fun base => sameWireFamily base t then
      match src with
      | .refinedInt lo hi _ => some (refinedOrBase tgt t (some lo) (some hi))
      | _ => some (.int t)
    else none
  else
    match src.refined? with
    | some (lo, hi, _) =>
      if unifyAt src t then some (refinedOrBase tgt t (some lo) (some hi)) else some (.int t)
    | none => some (.int t)

/-! ## The operations -/

inductive ArithOp
  | add | sub | mul | div | mod | band
  | min | max
  deriving DecidableEq, Repr

/-- The type of an operation; wire-endian operands are refused but by `&`, `min`
and `max`. -/
def rule (op : ArithOp) (t1 : NumTy) (e1 : Expr) (t2 : NumTy) (e2 : Expr) : Option NumTy :=
  let host (r : Option NumTy) := if isWireBeTy t1 ∨ isWireBeTy t2 then none else r
  match op with
  | .add => host (addRule tgt tbl t1 e1 t2 e2)
  | .sub => host (subRule tgt tbl t1 e1 t2 e2)
  | .mul => host (mulRule tgt tbl t1 e1 t2 e2)
  | .div => host (divRule tgt tbl t1 e1 t2 e2)
  | .mod => host (modRule tgt tbl t1 t2 e2)
  | .band => bandRule tgt tbl t1 e1 t2 e2
  | .min => minMaxRule tgt tbl .min t1 e1 t2 e2
  | .max => minMaxRule tgt tbl .max t1 e1 t2 e2

end Rules
end Takibi.Range
