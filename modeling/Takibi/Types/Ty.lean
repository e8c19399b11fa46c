import Takibi.Numeric.Machine
import Takibi.Numeric.Native

/-! Types of the checker, without unification variables and static indices. -/

namespace Takibi.Types
open Numeric

inductive Target
  | bits32
  | bits64
  deriving DecidableEq, Repr

def Target.pointerBitWidth : Target → Nat
  | .bits32 => 32
  | .bits64 => 64

inductive IntTy
  | i8 | i16 | i32 | i64
  | u8 | u16 | u32 | u64
  | isize | usize
  | u16be | u32be
  deriving DecidableEq, Repr

namespace IntTy

def bits (tgt : Target) : IntTy → Nat
  | .i8 | .u8 => 8
  | .i16 | .u16 | .u16be => 16
  | .i32 | .u32 | .u32be => 32
  | .i64 | .u64 => 64
  | .isize | .usize => tgt.pointerBitWidth

def signed : IntTy → Bool
  | .i8 | .i16 | .i32 | .i64 | .isize => true
  | _ => false

def wire : IntTy → Bool
  | .u16be | .u32be => true
  | _ => false

abbrev Holds (tgt : Target) (t : IntTy) (z : Int) : Prop := Machine.Holds t.signed (t.bits tgt) z

lemma bits_pos (tgt : Target) (t : IntTy) : 0 < t.bits tgt := by
  cases t <;> cases tgt <;> decide

end IntTy

inductive SliceAccess
  | writable
  | readonly
  deriving DecidableEq, Repr

/-- The base of a refined integer or a multiple is an integer type, as every
place that builds one keeps it. -/
inductive Ty
  | bool
  | void
  | srcLoc
  | int (t : IntTy)
  | refinedInt (lo hi : Native) (base : IntTy)
  | multiple (n : Native) (base : IntTy)
  | fn (params : List Ty) (ret : Ty) (effects : Option (List String))
  | ptr (t : Ty)
  | io (t : Ty)
  | array (t : Ty) (n : Native)
  | struct (name : String)
  | tuple (ts : List Ty)
  | slice (t : Ty) (minLen : Native) (access : SliceAccess)
  | alignedPtr (n : Native) (t : Ty)
  | ref (t : Ty)
  | refMut (t : Ty)
  deriving Repr

end Takibi.Types
