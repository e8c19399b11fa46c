import Takibi.Types.Ty
import Mathlib.Tactic

/-! Declared types and the three computations of their layout: the checker's constant
sizes, the size and alignment of every type, and the recount written for the solver. -/

namespace Takibi.Layout
open Numeric Takibi.Types List Nat

inductive PointerKind
  | ptr
  | alignedPtr (n : Native)
  | ref
  | refMut
  | borrowMut
  deriving DecidableEq, Repr

inductive Wrapper
  | existsStatic
  | borrow
  | sink
  | singleton
  | io
  | refined (lo hi : Native)
  | multiple (n : Native)
  deriving DecidableEq, Repr

inductive TypeExpr
  | bool
  | srcLoc
  | void
  | kind
  | int (t : IntTy)
  | pointer (k : PointerKind) (t : TypeExpr)
  | fn
  | wrapped (w : Wrapper) (t : TypeExpr)
  | array (t : TypeExpr) (n : Native)
  | slice (t : TypeExpr)
  | tuple (ts : List TypeExpr)
  | view (name : String)
  | place (arg : TypeExpr)
  | variant (name : String)
  | named (name : String)
  deriving Repr

structure StructInfo where
  fields : List (String × TypeExpr)
  isPacked : Bool
  alignOpt : Option Native

inductive Decl
  | struct (info : StructInfo)
  | enum (underlying : TypeExpr)
  | view
  | variant (cases : List (String × Option TypeExpr))

namespace TypeExpr
variable (rank : String → Nat) {ts : List TypeExpr}

mutual

def height : TypeExpr → Nat
  | wrapped _ t | array t _ | place t => height t
  | tuple ts => heights ts
  | variant name | named name => rank name + 1
  | _ => 0

def heights : List TypeExpr → Nat
  | [] => 0
  | t :: ts => max (height t) (heights ts)

end

def runtimePayload : TypeExpr → TypeExpr
  | wrapped .existsStatic body => body
  | payload => payload

def body : TypeExpr → TypeExpr
  | wrapped .existsStatic b => body b
  | b => b

lemma height_body (t : TypeExpr) : t.body.height rank = t.height rank := by
  induction t using body.induct with
  | case1 b ih => rw [body, ih, height]
  | case2 b hb => rw [body]; exact hb

lemma sizeOf_body (t : TypeExpr) : sizeOf t.body ≤ sizeOf t := by
  induction t using body.induct with
  | case1 b ih => rw [body]; simp; omega
  | case2 b hb => rw [body]; exact hb

lemma height_le_heights {t : TypeExpr} (ht : t ∈ ts) : t.height rank ≤ heights rank ts := by
  induction ts with
  | nil => cases ht
  | cons u us ih =>
    rw [heights]
    rcases mem_cons.mp ht with rfl | ht
    · exact le_max_left _ _
    · exact (ih ht).trans (le_max_right _ _)

lemma heights_filter_le (p : TypeExpr → Bool) (ts : List TypeExpr) :
    heights rank (ts.filter p) ≤ heights rank ts := by
  induction ts with
  | nil => exact le_rfl
  | cons t ts ih =>
    rw [filter_cons]
    split_ifs
    · simp only [heights]
      exact max_le_max le_rfl ih
    · exact ih.trans (le_max_right _ _)

end TypeExpr

def Decl.types : Decl → List TypeExpr
  | .struct info => info.fields.map (·.2)
  | .enum underlying => [underlying]
  | .view => []
  | .variant cases => cases.filterMap fun c => c.2.map TypeExpr.runtimePayload

/-- Declarations without a cycle: a declared type holds values of types of lower
rank only. A pointer or slice may name any type. -/
structure Decls where
  find : String → Option Decl
  rank : String → Nat
  acyclic : ∀ name d, find name = some d → TypeExpr.heights rank d.types ≤ rank name

namespace Decls
variable (D : Decls)

def Below (t u : TypeExpr) : Prop :=
  Prod.Lex (· < ·) (· < ·) (t.height D.rank, sizeOf t) (u.height D.rank, sizeOf u)

lemma induction {P : TypeExpr → Prop} (step : ∀ u, (∀ t, D.Below t u → P t) → P u)
    (u : TypeExpr) : P u :=
  (InvImage.wf (fun t : TypeExpr => (t.height D.rank, sizeOf t))
    (WellFounded.prod_lex lt_wfRel.wf lt_wfRel.wf)).induction u step

variable {D}

lemma below_of_size {t u : TypeExpr} (hh : t.height D.rank ≤ u.height D.rank)
    (hs : sizeOf t < sizeOf u) : D.Below t u := Prod.Lex.right' _ hh hs

lemma below_of_height {t u : TypeExpr} (h : t.height D.rank < u.height D.rank) :
    D.Below t u := Prod.Lex.left _ _ h

lemma below_wrapped (w : Wrapper) (t : TypeExpr) : D.Below t (.wrapped w t) :=
  below_of_size (by rw [TypeExpr.height]) (by simp)

lemma below_array (t : TypeExpr) (n : Native) : D.Below t (.array t n) :=
  below_of_size (by rw [TypeExpr.height]) (by simp; omega)

lemma below_place (arg : TypeExpr) : D.Below arg.body (.place arg) := by
  have := arg.sizeOf_body
  exact below_of_size (by rw [TypeExpr.height, TypeExpr.height_body]) (by simp; omega)

variable {t : TypeExpr}

lemma below_tuple (ht : t ∈ ts) : D.Below t (.tuple ts) := by
  have hlt := sizeOf_lt_of_mem ht
  refine below_of_size ?_ (by simp; omega)
  rw [TypeExpr.height]
  exact TypeExpr.height_le_heights D.rank ht

lemma height_of_mem {name : String} {d : Decl} (hd : D.find name = some d) (ht : t ∈ d.types) :
    t.height D.rank ≤ D.rank name :=
  (TypeExpr.height_le_heights D.rank ht).trans (D.acyclic name d hd)

lemma below_named {name : String} {d : Decl} (hd : D.find name = some d) (ht : t ∈ d.types) :
    D.Below t (.named name) :=
  below_of_height (by rw [TypeExpr.height]; exact lt_succ_of_le (height_of_mem hd ht))

lemma below_variant {name : String} {d : Decl} (hd : D.find name = some d) (ht : t ∈ d.types) :
    D.Below t (.variant name) :=
  below_of_height (by rw [TypeExpr.height]; exact lt_succ_of_le (height_of_mem hd ht))

end Decls

/-! ## The checker's constant sizes -/

def intSize (t : IntTy) : Option Native :=
  match t with
  | .i8 | .u8 => some 1
  | .i16 | .u16 | .u16be => some 2
  | .i32 | .u32 | .u32be => some 4
  | .i64 | .u64 => some 8
  | .isize | .usize => none

def addSize : Option Native → Option Native → Option Native
  | some a, some b => some (a + b)
  | _, _ => none

section Const
variable (D : Decls)

mutual

def constTypeSize (ty : TypeExpr) : Option Native :=
  match ty with
  | .bool => some 1
  | .srcLoc => some 4
  | .int t => intSize t
  | .array elem n => (constTypeSize elem).map (· * n)
  | .wrapped .singleton base => constTypeSize base
  | .named name =>
    match _h : D.find name with
    | some (.struct ⟨fields, true, none⟩) => constSum (some 0) (fields.map (·.2))
    | _ => none
  | _ => none
termination_by (ty.height D.rank, sizeOf ty)
decreasing_by
  all_goals simp_wf
  all_goals first | (simp only [TypeExpr.height]; right; omega) | skip
  · have := D.acyclic _ _ _h
    simp only [TypeExpr.height, Decl.types] at *
    left; omega

def constSum (acc : Option Native) (ts : List TypeExpr) : Option Native :=
  match ts with
  | [] => acc
  | t :: ts => constSum (addSize acc (constTypeSize t)) ts
termination_by (TypeExpr.heights D.rank ts, sizeOf ts)
decreasing_by
  all_goals simp_wf
  all_goals simp only [TypeExpr.heights, Prod.lex_def]
  all_goals omega

end

def offsetGo (field : String) : List (String × TypeExpr) → Option Native
  | [] => none
  | (fname, fty) :: rest =>
    if fname = field then some 0
    else addSize (constTypeSize D fty) (offsetGo field rest)

def constFieldOffset (sname field : String) : Option Native :=
  match D.find sname with
  | some (.struct ⟨fields, true, none⟩) => offsetGo D field fields
  | _ => none

end Const

/-! ## The recount for the solver -/

inductive SmtSize
  | lit (n : Nat)
  | mul (n : Native) (e : SmtSize)
  | sum (parts : List SmtSize)
  deriving Repr

namespace SmtSize

mutual

def text : SmtSize → String
  | lit n => toString n
  | mul n e => "(* " ++ toString n.toInt ++ " " ++ text e ++ ")"
  | sum parts => "(+ 0 " ++ String.intercalate " " (texts parts) ++ ")"

def texts : List SmtSize → List String
  | [] => []
  | e :: es => text e :: texts es

end

mutual

def denote : SmtSize → Int
  | lit n => n
  | mul n e => n.toInt * denote e
  | sum parts => 0 + denotes parts

def denotes : List SmtSize → Int
  | [] => 0
  | e :: es => denote e + denotes es

end
end SmtSize

section Overlay
variable (D : Decls)

mutual

def overlaySizeSmt (ty : TypeExpr) : Option SmtSize :=
  match ty with
  | .bool => some (.lit 1)
  | .int t => (intSize t).map fun n => .lit n.toNat
  | .wrapped .singleton base => overlaySizeSmt base
  | .array elem n => (overlaySizeSmt elem).map (.mul n)
  | .named name =>
    match _h : D.find name with
    | some (.struct ⟨fields, true, none⟩) => (overlayParts (fields.map (·.2))).map .sum
    | _ => none
  | _ => none
termination_by (ty.height D.rank, sizeOf ty)
decreasing_by
  all_goals simp_wf
  all_goals first | (simp only [TypeExpr.height]; right; omega) | skip
  · have := D.acyclic _ _ _h
    simp only [TypeExpr.height, Decl.types] at *
    left; omega

def overlayParts (ts : List TypeExpr) : Option (List SmtSize) :=
  match ts with
  | [] => some []
  | t :: ts => do return (← overlaySizeSmt t) :: (← overlayParts ts)
termination_by (TypeExpr.heights D.rank ts, sizeOf ts)
decreasing_by
  all_goals simp_wf
  all_goals simp only [TypeExpr.heights, Prod.lex_def]
  all_goals omega

end
end Overlay

/-! ## Size and alignment of every type -/

inductive LayoutError
  | void
  | view (name : String)
  | unknownVariant (name : String)
  | recursive (name : String)
  | unknown (name : String)
  | kind
  deriving DecidableEq, Repr

def LayoutError.message : LayoutError → String
  | void => "sizeof(void) is not allowed"
  | view name => s!"erased view '{name}' has no runtime size or alignment"
  | unknownVariant name => s!"unknown variant '{name}' in sizeof"
  | recursive name => s!"recursive sizeof({name}) is not supported"
  | unknown name => s!"unknown type '{name}' in sizeof"
  | kind => "'type' has no runtime size or alignment"

def ptrSizeAlign : Target → Native × Native
  | .bits32 => (4, 4)
  | .bits64 => (8, 8)

def primitiveSizeAlign (tgt : Target) : IntTy → Native × Native
  | .i8 | .u8 => (1, 1)
  | .i16 | .u16 | .u16be => (2, 2)
  | .i32 | .u32 | .u32be => (4, 4)
  | .i64 | .u64 => (8, 8)
  | .isize | .usize => ptrSizeAlign tgt

def alignUp (n a : Native) : Native := if a.toInt ≤ 1 then n else (n + a - 1).sdiv a * a
def maxNative (a b : Native) : Native := if a.toInt < b.toInt then b else a
def fieldAlign (isPacked : Bool) (falign : Native) : Native := if isPacked then 1 else falign

def walk (isPacked : Bool) (alignOpt : Option Native) (offset maxAlign : Native) :
    List (Native × Native) → Native × Native
  | [] =>
    let structAlign := alignOpt.getD (if isPacked then 1 else maxAlign)
    (alignUp offset structAlign, structAlign)
  | (fsz, falign) :: rest =>
    walk isPacked alignOpt (alignUp offset (fieldAlign isPacked falign) + fsz)
      (maxNative maxAlign (fieldAlign isPacked falign)) rest

def walkOffsets (isPacked : Bool) (offset : Native) : List (Native × Native) → List Native
  | [] => []
  | (fsz, falign) :: rest =>
    alignUp offset (fieldAlign isPacked falign) ::
      walkOffsets isPacked (alignUp offset (fieldAlign isPacked falign) + fsz) rest

def tupleLayout (fs : List (Native × Native)) : Native × Native := walk false none 0 1 fs

def sliceLayout (tgt : Target) : Native × Native :=
  tupleLayout [ptrSizeAlign tgt, ptrSizeAlign tgt]

section SizeAlign
variable (D : Decls) (tgt : Target)

def isView : TypeExpr → Bool
  | .view _ => true
  | .named name =>
    match D.find name with
    | some .view => true
    | _ => false
  | _ => false

mutual

def sizeAlignOfType (seen : List String) (ty : TypeExpr) : Except LayoutError (Native × Native) :=
  match ty with
  | .bool => .ok (1, 1)
  | .srcLoc => .ok (4, 4)
  | .int t => .ok (primitiveSizeAlign tgt t)
  | .void => .error .void
  | .view name => .error (.view name)
  | .wrapped _ t => sizeAlignOfType seen t
  | .pointer _ _ | .fn => .ok (ptrSizeAlign tgt)
  | .array elem n => do
    let (esz, ealign) ← sizeAlignOfType seen elem
    return (esz * n, ealign)
  | .slice _ => .ok (sliceLayout tgt)
  | .tuple ts => do return tupleLayout (← sizeAlignsOfTypes seen ts)
  | .place arg =>
    if isView D arg.body then return tupleLayout [(4, 4)]
    else do return tupleLayout [(4, 4), ← sizeAlignOfType seen arg.body]
  | .variant name =>
    match _h : D.find name with
    | some (.variant cases) => do
      return tupleLayout
        ((4, 4) :: (← sizeAlignsOfTypes seen ((Decl.variant cases).types.filter (!isView D ·))))
    | _ => .error (.unknownVariant name)
  | .named name =>
    match _h : D.find name with
    | some (.enum underlying) => sizeAlignOfType seen underlying
    | some (.variant cases) => do
      return tupleLayout
        ((4, 4) :: (← sizeAlignsOfTypes seen ((Decl.variant cases).types.filter (!isView D ·))))
    | some .view => .error (.view name)
    | some (.struct info) =>
      if name ∈ seen then .error (.recursive name)
      else do
        let fs ← sizeAlignsOfTypes (name :: seen) (info.fields.map (·.2))
        return walk info.isPacked info.alignOpt 0 1 fs
    | none => .error (if name ∈ seen then .recursive name else .unknown name)
  | .kind => .error .kind
termination_by (ty.height D.rank, sizeOf ty)
decreasing_by
  · simp_wf; simp only [TypeExpr.height]; right; omega
  · simp_wf; simp only [TypeExpr.height]; right; omega
  · simp_wf; simp only [TypeExpr.height]; right; omega
  · have := TypeExpr.sizeOf_body arg
    simp_wf
    simp only [TypeExpr.height, TypeExpr.height_body]; right; omega
  · have := D.acyclic _ _ _h
    have := TypeExpr.heights_filter_le D.rank (!isView D ·) (Decl.variant cases).types
    simp_wf; simp only [TypeExpr.height] at *; left; omega
  · have := D.acyclic _ _ _h
    simp_wf; simp only [TypeExpr.height, TypeExpr.heights, Decl.types] at *; left; omega
  · have := D.acyclic _ _ _h
    have := TypeExpr.heights_filter_le D.rank (!isView D ·) (Decl.variant cases).types
    simp_wf; simp only [TypeExpr.height] at *; left; omega
  · have := D.acyclic _ _ _h
    simp_wf; simp only [TypeExpr.height, Decl.types] at *; left; omega

def sizeAlignsOfTypes (seen : List String) (ts : List TypeExpr) :
    Except LayoutError (List (Native × Native)) :=
  match ts with
  | [] => .ok []
  | t :: ts => do return (← sizeAlignOfType seen t) :: (← sizeAlignsOfTypes seen ts)
termination_by (TypeExpr.heights D.rank ts, sizeOf ts)
decreasing_by
  all_goals simp_wf
  all_goals simp only [TypeExpr.heights, Prod.lex_def]
  all_goals omega

end

section Named
variable {D tgt} {seen : List String} {name : String}

lemma sizeAlignOfType_enum {u : TypeExpr} (hd : D.find name = some (.enum u)) :
    sizeAlignOfType D tgt seen (.named name) = sizeAlignOfType D tgt seen u := by
  rw [sizeAlignOfType]
  split <;> simp_all

lemma sizeAlignOfType_struct {info : StructInfo} (hd : D.find name = some (.struct info)) :
    sizeAlignOfType D tgt seen (.named name) =
      if name ∈ seen then .error (.recursive name)
      else do
        let fs ← sizeAlignsOfTypes D tgt (name :: seen) (info.fields.map (·.2))
        return walk info.isPacked info.alignOpt 0 1 fs := by
  rw [sizeAlignOfType]
  split <;> simp_all

lemma sizeAlignOfType_variant {ty : TypeExpr} (hty : ty = .named name ∨ ty = .variant name)
    {cases : List (String × Option TypeExpr)} (hd : D.find name = some (.variant cases)) :
    sizeAlignOfType D tgt seen ty = (do
      return tupleLayout ((4, 4) ::
        (← sizeAlignsOfTypes D tgt seen ((Decl.variant cases).types.filter (!isView D ·))))) := by
  obtain rfl | rfl := hty
  all_goals
    rw [sizeAlignOfType]
    split <;> simp_all

end Named
end SizeAlign
end Takibi.Layout
