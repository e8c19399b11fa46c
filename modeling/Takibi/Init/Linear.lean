import Takibi.Init.Coverage
import Takibi.Range.MultipleOf

/-! Linear reading of machine expressions: the initialization checker turns a bound,
an offset or a comparison side into a linear term over the values of bindings. -/

namespace Takibi.Init
open Numeric Takibi.Types Syntax Range

deriving instance BEq for Ty

/-- An atom of a linear term: the value of an immutable binding, the length of a
slice binding, or the value a mutable local held at a version. -/
inductive Atom
  | v (id : Nat)
  | len (id : Nat)
  | version (id k : Nat)
  deriving DecidableEq, Repr

namespace Atom

def name : Atom → String
  | v id => s!"v{id}"
  | len id => s!"len{id}"
  | version id k => s!"v{id}@{k}"

def key : Atom → ℕ ×ₗ ℕ ×ₗ ℕ
  | v id => toLex (0, toLex (id, 0))
  | len id => toLex (1, toLex (id, 0))
  | version id k => toLex (2, toLex (id, k))

lemma key_injective : Function.Injective key := by
  intro a b h
  cases a <;> cases b <;> simp_all [key]

instance : LinearOrder Atom := LinearOrder.lift' key key_injective

end Atom

/-! ## The checker's tables -/

inductive RootKey
  | localVar (id : Nat)
  | globalVar (name : String)
  deriving DecidableEq, Repr

structure Root where
  leaves : List (List String × Ty)
  arrayRoot : Bool
  outParam : Bool

structure Place where
  root : RootKey
  path : List String
  inside : Bool

structure View where
  vp : Place
  off : Lin Atom
  len : Option (Lin Atom)

structure Flow where
  idForExpr : String → Option Nat
  consts : ConstTable
  mutableId : Nat → Bool
  written : String → Nat → Bool
  letMut : Nat → Bool
  addrTaken : Nat → Bool
  idType : Nat → Option Ty
  sizeOf : Ty → Option Native
  roots : RootKey → Option Root
  aliases : Nat → Option View

structure State where
  eqs : Eqs Atom
  facts : Facts Atom
  vers : Nat → Nat

def strip : Ty → Ty
  | .refinedInt _ _ b | .multiple _ b => .int b
  | t => t

def unsignedTy (t : Ty) : Bool :=
  match strip t with
  | .int .u8 | .int .u16 | .int .u32 | .int .u64 | .int .usize => true
  | _ => false

namespace Flow
variable (env : Flow)

def immutableVar (x : String) (id : Nat) : Bool := !env.mutableId id && !env.written x id
def unsignedId (id : Nat) : Bool := (env.idType id).any unsignedTy

def versionable (x : String) (id : Nat) : Bool :=
  !env.immutableVar x id && env.letMut id && env.unsignedId id && !env.addrTaken id

def leafType (root : RootKey) (path : List String) : Option Ty :=
  (env.roots root).bind fun r => (r.leaves.find? fun l => l.1 == path).map (·.2)

def place : Expr → Option Place
  | .var x =>
    match env.idForExpr x with
    | some id => if (env.roots (.localVar id)).isSome then some ⟨.localVar id, [], false⟩ else none
    | none => if (env.roots (.globalVar x)).isSome then some ⟨.globalVar x, [], false⟩ else none
  | .fieldGet base f => do
    let p ← place base
    if p.inside then return p
    else match env.leafType p.root p.path with
      | some _ => return { p with inside := true }
      | none => return { p with path := p.path ++ [f] }
  | .index base _ => do
    let p ← place base
    if p.path.isEmpty && !p.inside && (env.roots p.root).any (·.arrayRoot) then return p
    else return { p with inside := true }
  | .deref base => do
    let p ← place base
    if p.path.isEmpty && !p.inside && (env.roots p.root).any (·.outParam) then return p
    else return { p with inside := true }
  | _ => none

def leafElem (p : Place) : Option Ty :=
  match (env.leafType p.root p.path).map strip with
  | some (.array t _) | some (.slice t _ _) => some (strip t)
  | _ => none

def leafLen (p : Place) : Option (Lin Atom) :=
  match (env.leafType p.root p.path).map strip, p.path, p.root with
  | some (.array _ n), _, _ => some (.const n)
  | some (.slice _ _ _), [], .localVar id => some (.atom (.len id))
  | _, _, _ => none

end Flow

/-! ## Terms whose value is the machine's -/

def leafConst : Option Native → Option (Lin Atom)
  | some c => if 0 ≤ c.toInt ∧ c.toInt ≤ limit.toInt then some (.const c) else none
  | none => none

def nonneg (st : State) (t : Lin Atom) : Option Bool := do
  return entails (← normalizeFacts st.eqs st.facts) (← normalize st.eqs t)

def atoms (x : Lin Atom) : List Atom := x.m.map (·.1)

def candidates (f : Facts Atom) (t : Lin Atom) : List Atom :=
  ((atoms t ++ f.ge.flatMap atoms ++ f.mins.map (·.1)).dedup).insertionSort
    fun a b => a.name ≤ b.name

def fitsAbove (st : State) (t : Lin Atom) : Option Bool := do
  let f ← normalizeFacts st.eqs st.facts
  let t ← normalize st.eqs t
  if entails f (← Lin.sub (.const limit) t) then return true
  (candidates f t).anyM fun a => do return entails f (← Lin.sub (.atom a) t)

def prod (st : State) (k : Native) (y : Lin Atom) : Option (Lin Atom) := do
  let t ← Lin.scale k y
  if ← fitsAbove st t then some t else none

section Read
variable (env : Flow) (st : State)

def bindingLen : Expr → Option (Lin Atom)
  | .var x =>
    match env.idForExpr x with
    | some id => if env.immutableVar x id then some (.atom (.len id)) else none
    | none => none
  | _ => none

def leafView (e : Expr) : Option View :=
  match env.place e with
  | some p => if !p.inside && (env.leafElem p).isSome then some ⟨p, .const 0, env.leafLen p⟩ else none
  | none => none

mutual

def lin : Expr → Option (Lin Atom)
  | .intLit n => leafConst (intOfIntlit n)
  | .var x =>
    match env.idForExpr x with
    | some id =>
      if env.immutableVar x id then some (.atom (.v id))
      else if env.versionable x id then some (.atom (.version id (st.vers id)))
      else none
    | none => leafConst (find env.consts x)
  | .sizeOf ty => leafConst (env.sizeOf ty)
  | .binOp .add a b => do
    let t ← Lin.add (← lin a) (← lin b)
    if ← fitsAbove st t then some t else none
  | .binOp .sub a b => do
    let t ← Lin.sub (← lin a) (← lin b)
    if ← nonneg st t then some t else none
  | .binOp .mul a b => do
    let x ← lin a
    let y ← lin b
    if x.m.isEmpty then prod st x.c y
    else if y.m.isEmpty then prod st y.c x
    else none
  | .fieldGet b "len" =>
    match viewOf b with
    | some v => v.len
    | none => bindingLen env b
  | _ => none

def viewOf : Expr → Option View
  | .var x =>
    match (env.idForExpr x).bind env.aliases with
    | some v => some v
    | none => leafView env (.var x)
  | .sliceOf b lo hi => do
    let v ← viewOf b
    let lo ← lin lo
    let hi ← lin hi
    let off ← Lin.add v.off lo
    let len ← Lin.sub hi lo
    return { v with off := off, len := some len }
  | .cast t inner =>
    match strip t, viewOf inner with
    | .slice el _ _, some v | .array el _, some v =>
      if env.leafElem v.vp == some (strip el) then some v else none
    | _, _ => none
  | e => leafView env e

end

def nonnegConst : Option (Lin Atom) → Option (Lin Atom)
  | some l => if l.m.isEmpty ∧ 0 ≤ l.c.toInt then some l else none
  | none => none

def side : Expr → Option (Lin Atom)
  | .intLit n => nonnegConst (lin env st (.intLit n))
  | .sizeOf ty => nonnegConst (lin env st (.sizeOf ty))
  | .var x =>
    match env.idForExpr x with
    | some id =>
      if env.immutableVar x id && env.unsignedId id then some (.atom (.v id))
      else if env.versionable x id then some (.atom (.version id (st.vers id)))
      else none
    | none => nonnegConst (lin env st (.var x))
  | .fieldGet b "len" =>
    if (viewOf env st b).isSome then lin env st (.fieldGet b "len")
    else match b with
      | .var x =>
        match env.idForExpr x with
        | some id =>
          match (env.idType id).map strip with
          | some (.slice _ _ _) => bindingLen env (.var x)
          | _ => none
        | none => none
      | _ => none
  | .binOp .sub a b => do
    let d ← Lin.sub (← side a) (← side b)
    if entails st.facts d then some d else none
  | _ => none

end Read

/-! ## The machine -/

structure Memory where
  value : Nat → Int
  versions : Nat → Nat → Int
  lengths : Nat → Int
  lengthAt : Expr → Option Int

namespace Memory
variable (env : Flow) (m : Memory)

def atoms : Atom → Int
  | .v id => m.value id
  | .len id => m.lengths id
  | .version id k => m.versions id k

variable (r : Int → Int)

mutual

/-- The value of an expression whose operations keep `r` of their results. A length
and the bounds of a sub-slice have the expression's own type. -/
def eval : Expr → Option Int
  | .intLit n => some (r n.toInt)
  | .var x =>
    match env.idForExpr x with
    | some id => some (m.value id)
    | none => (env.consts x).map fun n => r n.toInt
  | .sizeOf ty => (env.sizeOf ty).map fun n => r n.toInt
  | .binOp .add a b => do return r ((← eval a) + (← eval b))
  | .binOp .sub a b => do return r ((← eval a) - (← eval b))
  | .binOp .mul a b => do return r ((← eval a) * (← eval b))
  | .fieldGet b "len" => length b
  | _ => none

/-- A sub-slice traps unless its bounds lie inside the base. -/
def length : Expr → Option Int
  | .sliceOf b lo hi => do
    let n ← length b
    let l ← eval lo
    let h ← eval hi
    if 0 ≤ l ∧ l ≤ h ∧ h ≤ n then return h - l else none
  | .cast _ inner => length inner
  | e => m.lengthAt e

end

/-- The state is one the tables and the flow state describe: every atom is a word,
the terms of views have the lengths, and the equalities and facts hold. -/
structure Agrees (st : State) : Prop where
  current : ∀ id, m.versions id (st.vers id) = m.value id
  word : ∀ a, 0 ≤ m.atoms a ∧ m.atoms a < 2 ^ 64
  wordLength : ∀ e n, m.lengthAt e = some n → 0 ≤ n ∧ n < 2 ^ 64
  lengths : ∀ x id n, env.idForExpr x = some id → m.lengthAt (.var x) = some n → n = m.lengths id
  aliases : ∀ x id v l n, env.idForExpr x = some id → env.aliases id = some v → v.len = some l →
    m.lengthAt (.var x) = some n → l.eval m.atoms = n
  places : ∀ e p l n, env.place e = some p → p.inside = false → env.leafLen p = some l →
    m.lengthAt e = some n → l.eval m.atoms = n
  eqs : Eqs.Holds m.atoms st.eqs
  facts : Facts.Holds m.atoms st.facts

end Memory
end Takibi.Init
