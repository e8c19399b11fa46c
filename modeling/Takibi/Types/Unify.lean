import Takibi.Types.Ty

/-! Unification of types. It is directional: the first type is the actual one,
the second the expected one. -/

namespace Takibi.Types
open Numeric Option

/-- What an error of `unify` tells. Where the source words one failure in two
ways, with a hint for a plain pointer in an aligned place, it is one case. -/
inductive UnifyError
  | arraySize (n1 n2 : Native)
  | argumentCount
  | unknownEffects
  | unexpectedEffects (effects : List String)
  | effectInvariance
  | refinedRange (lo1 hi1 lo2 hi2 : Native)
  | notMultiple (actual required : Native)
  | unprovenMultiple (n : Native)
  | sliceLength (m1 m2 : Native)
  | readonlySlice
  | wireEndian (base : IntTy)
  | unprovenRange (t : IntTy) (lo hi : Native)
  | alignment (n1 n2 : Native)
  | tupleArity
  | structMismatch (s1 s2 : String)
  | divisionByZero
  | cannotUnify (t1 t2 : Ty)
  deriving Repr

mutual

def functionEffectRows : Ty → List (Option (List String))
  | .fn params ret effects => effects :: (functionEffectRowsAll params ++ functionEffectRows ret)
  | .ptr t | .io t | .array t _ | .slice t _ _ | .alignedPtr _ t | .ref t | .refMut t =>
    functionEffectRows t
  | .tuple ts => functionEffectRowsAll ts
  | _ => []

def functionEffectRowsAll : List Ty → List (Option (List String))
  | [] => []
  | t :: ts => functionEffectRows t ++ functionEffectRowsAll ts

end

def requireWritablePointerEffectInvariance (t1 t2 : Ty) : Except UnifyError Unit :=
  let rows1 := functionEffectRows t1
  let rows2 := functionEffectRows t2
  if rows1 ≠ rows2 ∧ (rows1.any Option.isSome ∨ rows2.any Option.isSome) then
    .error .effectInvariance
  else .ok ()

mutual

def containsMultiple : Ty → Bool
  | .multiple _ _ => true
  | .ptr t | .io t | .array t _ | .slice t _ _ | .alignedPtr _ t | .ref t | .refMut t =>
    containsMultiple t
  | .tuple ts => containsMultipleAny ts
  | .fn params ret _ => containsMultipleAny params || containsMultiple ret
  | _ => false

def containsMultipleAny : List Ty → Bool
  | [] => false
  | t :: ts => containsMultiple t || containsMultipleAny ts

end

/-- The effect is allowed where `expected` is the contract: `no_handler_lock` is
a subeffect of `may_block` here. -/
def allowed (expected : List String) (eff : String) : Bool :=
  expected.contains eff || (eff == "no_handler_lock" && expected.contains "may_block")

def unifyEffects : Option (List String) → Option (List String) → Except UnifyError Unit
  | _, none => .ok ()
  | none, some _ => .error .unknownEffects
  | some actual, some expected =>
    let unexpected := actual.filter fun eff => !allowed expected eff
    if unexpected = [] then .ok () else .error (.unexpectedEffects unexpected)

/-- A refined value where a plain integer type is expected: the range has to
fit, whatever the base. -/
def unifyRefinedInt (lo hi : Native) (base t : IntTy) : Except UnifyError Unit :=
  let when (fits : Prop) [Decidable fits] : Except UnifyError Unit :=
    if fits then .ok () else .error (.cannotUnify (.refinedInt lo hi base) (.int t))
  match base, t with
  | .u16be, .u16be => when (0 ≤ lo.toInt ∧ hi.toInt ≤ 65536)
  | .u16be, _ => .error (.wireEndian .u16be)
  | .u32be, .u32be => when (0 ≤ lo.toInt)
  | .u32be, _ => .error (.wireEndian .u32be)
  | _, .i32 => .ok ()
  | _, .i64 => .ok ()
  | _, .isize => .ok ()
  | _, .u8 => when (0 ≤ lo.toInt ∧ hi.toInt ≤ 256)
  | _, .u16 => when (0 ≤ lo.toInt ∧ hi.toInt ≤ 65536)
  | _, .u32 => when (0 ≤ lo.toInt)
  | _, .u64 => when (0 ≤ lo.toInt)
  | _, .usize => when (0 ≤ lo.toInt)
  | _, .i8 => when (-128 ≤ lo.toInt ∧ hi.toInt ≤ 128)
  | _, .i16 => when (-32768 ≤ lo.toInt ∧ hi.toInt ≤ 32768)
  | _, .u16be => when False
  | _, .u32be => when False

def unifyMod (actual required : Native) (err : UnifyError) : Except UnifyError Unit :=
  if required = 0 then .error .divisionByZero
  else if actual.srem required ≠ 0 then .error err
  else .ok ()

mutual

def unify (t1 t2 : Ty) : Except UnifyError Unit :=
  match t1, t2 with
  | .bool, .bool => .ok ()
  | .void, .void => .ok ()
  | .srcLoc, .srcLoc => .ok ()
  | .int a, .int b => if a = b then .ok () else .error (.cannotUnify (.int a) (.int b))
  | .ptr a, .ptr b => do
    requireWritablePointerEffectInvariance a b
    unifyMutablePointee a b
  | .io a, .io b => unify a b
  | .array a n1, .array b n2 =>
    if n1 ≠ n2 then .error (.arraySize n1 n2) else unifyMutablePointee a b
  | .fn ps1 r1 effects1, .fn ps2 r2 effects2 => do
    if ps1.length ≠ ps2.length then .error .argumentCount
    unifyMutablePointees ps1 ps2
    unify r1 r2
    unifyEffects effects1 effects2
  | .refinedInt lo1 hi1 base1, .refinedInt lo2 hi2 base2 =>
    if lo1.toInt < lo2.toInt ∨ hi1.toInt > hi2.toInt then
      .error (.refinedRange lo1 hi1 lo2 hi2)
    else unify (.int base1) (.int base2)
  | .multiple actual base1, .multiple required base2 => do
    unifyMod actual required (.notMultiple actual required)
    unify (.int base1) (.int base2)
  | .multiple _ base, .int .usize => unify (.int base) (.int .usize)
  | .int .usize, .multiple n _ => .error (.unprovenMultiple n)
  | .slice e1 m1 a1, .slice e2 m2 a2 => do
    if m1.toInt < m2.toInt then .error (.sliceLength m1 m2)
    if a1 = .readonly ∧ a2 = .writable then .error .readonlySlice
    unifyMutablePointee e1 e2
  | .refinedInt lo hi base, .int t => unifyRefinedInt lo hi base t
  | .int t, .refinedInt lo hi base =>
    if t = base then .error (.unprovenRange t lo hi)
    else .error (.cannotUnify (.int t) (.refinedInt lo hi base))
  | .alignedPtr n1 a, .alignedPtr n2 b => do
    unifyMod n1 n2 (.alignment n1 n2)
    requireWritablePointerEffectInvariance a b
    unifyMutablePointee a b
  | .alignedPtr _ a, .ptr b => do
    requireWritablePointerEffectInvariance a b
    unifyMutablePointee a b
  | .ref a, .ref b => do
    requireWritablePointerEffectInvariance a b
    unify a b
  | .refMut a, .refMut b => do
    requireWritablePointerEffectInvariance a b
    unifyMutablePointee a b
  | .refMut a, .ref b => do
    requireWritablePointerEffectInvariance a b
    unify a b
  | .ref a, .ptr b => do
    requireWritablePointerEffectInvariance a b
    unify a b
  | .refMut a, .ptr b => do
    requireWritablePointerEffectInvariance a b
    unify a b
  | .tuple ts1, .tuple ts2 =>
    if ts1.length ≠ ts2.length then .error .tupleArity else unifyAll ts1 ts2
  | .struct s1, .struct s2 => if s1 ≠ s2 then .error (.structMismatch s1 s2) else .ok ()
  | a, b => .error (.cannotUnify a b)
termination_by (sizeOf t1 + sizeOf t2, 0)
decreasing_by all_goals simp_wf; omega

def unifyMutablePointee (actual expected : Ty) : Except UnifyError Unit := do
  unify actual expected
  if containsMultiple actual || containsMultiple expected then unify expected actual
termination_by (sizeOf actual + sizeOf expected, 1)
decreasing_by all_goals omega

def unifyMutablePointees (ts1 ts2 : List Ty) : Except UnifyError Unit :=
  match ts1, ts2 with
  | a :: ts1, b :: ts2 => do
    unifyMutablePointee a b
    unifyMutablePointees ts1 ts2
  | _, _ => .ok ()
termination_by (sizeOf ts1 + sizeOf ts2, 0)
decreasing_by all_goals simp_wf; omega

def unifyAll (ts1 ts2 : List Ty) : Except UnifyError Unit :=
  match ts1, ts2 with
  | a :: ts1, b :: ts2 => do
    unify a b
    unifyAll ts1 ts2
  | _, _ => .ok ()
termination_by (sizeOf ts1 + sizeOf ts2, 0)
decreasing_by all_goals simp_wf; omega

end
end Takibi.Types
