import Mathlib.Tactic

/-! The names of the constants in the obligations that the compiler writes for the solver. -/

namespace Takibi.Smt
open List

/-! ## Codes whose words do not begin one another -/

section Code
variable {α β : Type} {word : α → List β} {xs ys : List α} {r t : List β}

def Stops (word : α → List β) (r : List β) : Prop := ∀ a t, r ≠ word a ++ t

lemma stops_nil (hword : ∀ a, word a ≠ []) : Stops word [] := fun a _ h =>
  hword a (append_eq_nil_iff.mp h.symm).1

/-- The coded part of a text ends where no word begins, so it is read in one way only. -/
theorem flatMap_append_inj (hword : ∀ a b t t', word a ++ t = word b ++ t' → a = b ∧ t = t')
    (hr : Stops word r) (ht : Stops word t) (h : xs.flatMap word ++ r = ys.flatMap word ++ t) :
    xs = ys ∧ r = t := by
  induction xs generalizing ys with
  | nil =>
    cases ys with
    | nil => exact ⟨rfl, h⟩
    | cons b ys =>
      rw [flatMap_nil, flatMap_cons, append_assoc] at h
      exact absurd h (hr b _)
  | cons a xs ih =>
    rw [flatMap_cons, append_assoc] at h
    cases ys with
    | nil => exact absurd h.symm (ht a _)
    | cons b ys =>
      rw [flatMap_cons, append_assoc] at h
      obtain ⟨rfl, hrest⟩ := hword a b _ _ h
      obtain ⟨rfl, hend⟩ := ih hrest
      exact ⟨rfl, hend⟩

end Code

/-! ## Names -/

def hexDigit (n : ℕ) : Char :=
  ['0', '1', '2', '3', '4', '5', '6', '7', '8', '9', 'A', 'B', 'C', 'D', 'E', 'F'].getD n '0'

def escByte (b : UInt8) : List Char :=
  let ch := Char.ofUInt8 b
  if ch.isAlphanum then [ch]
  else if ch = '_' then ['_', '_']
  else ['_', hexDigit (b.toNat / 16), hexDigit (b.toNat % 16)]

def esc (s : List UInt8) : List Char := s.flatMap escByte
def atom (a : List UInt8) : List Char := ['x', '_'] ++ esc a
def param (id : ℕ) : List Char := ['x', '_', '_', 'p'] ++ Nat.toDigits 10 id
def var (id : ℕ) : List Char := ['x', '_', '_', 'v'] ++ Nat.toDigits 10 id
def global (name : List UInt8) : List Char := ['x', '_', '_', 'g'] ++ esc name
def enum (name case : List UInt8) : List Char := ['x', '_', '_', 'e'] ++ esc name ++ ['_', 'S'] ++ esc case

inductive Name
  | atom (a : List UInt8)
  | param (id : ℕ)
  | var (id : ℕ)
  | global (name : List UInt8)
  | enum (name case : List UInt8)
  deriving DecidableEq

def Name.toString : Name → List Char
  | .atom a => Smt.atom a
  | .param id => Smt.param id
  | .var id => Smt.var id
  | .global name => Smt.global name
  | .enum name case => Smt.enum name case

lemma ofUInt8_inj {b b' : UInt8} (h : Char.ofUInt8 b = Char.ofUInt8 b') : b = b' :=
  UInt8.toUInt32_inj.mp (congrArg Char.val h)

lemma hexDigit_inj : ∀ m < 16, ∀ n < 16, hexDigit m = hexDigit n → m = n := by decide

lemma hexDigit_tag : ∀ m < 16, hexDigit m ∉ ['_', 'S', 'p', 'v', 'g', 'e'] := by decide

lemma high_lt (b : UInt8) : b.toNat / 16 < 16 := Nat.div_lt_of_lt_mul b.toNat_lt

lemma low_lt (b : UInt8) : b.toNat % 16 < 16 := Nat.mod_lt _ (by decide)

lemma escByte_ne_nil (b : UInt8) : escByte b ≠ [] := by
  unfold escByte
  dsimp only
  split_ifs <;> exact nofun

lemma escByte_append_inj (b b' : UInt8) (t t' : List Char) (h : escByte b ++ t = escByte b' ++ t') :
    b = b' ∧ t = t' := by
  have hkept : ∀ c : Char, c.isAlphanum → c ≠ '_' := by
    rintro c hc rfl
    exact absurd hc (by decide)
  unfold escByte at h
  dsimp only at h
  split_ifs at h with hb hb' hu' hu hb' hu' hb' hu' <;> simp only [cons_append, nil_append, cons.injEq] at h
  · exact ⟨ofUInt8_inj h.1, h.2⟩
  · exact absurd h.1 (hkept _ hb)
  · exact absurd h.1 (hkept _ hb)
  · exact absurd h.1.symm (hkept _ hb')
  · exact ⟨ofUInt8_inj (hu.trans hu'.symm), h.2.2⟩
  · exact absurd (h.2.1 ▸ mem_cons_self) (hexDigit_tag _ (high_lt b'))
  · exact absurd h.1.symm (hkept _ hb')
  · exact absurd (h.2.1 ▸ mem_cons_self) (hexDigit_tag _ (high_lt b))
  · have hhigh := hexDigit_inj _ (high_lt b) _ (high_lt b') h.2.1
    have hlow := hexDigit_inj _ (low_lt b) _ (low_lt b') h.2.2.1
    exact ⟨UInt8.toNat_inj.mp (by omega), h.2.2.2⟩

lemma stops_tag {c : Char} (hc : c ∈ ['S', 'p', 'v', 'g', 'e']) (t : List Char) : Stops escByte ('_' :: c :: t) := by
  intro b t' h
  unfold escByte at h
  dsimp only at h
  split_ifs at h with hb hu <;> simp only [cons_append, nil_append, cons.injEq] at h
  · rw [← h.1] at hb
    exact absurd hb (by decide)
  · rw [h.2.1] at hc
    exact absurd hc (by decide)
  · exact hexDigit_tag _ (high_lt b) (h.2.1 ▸ mem_cons_of_mem _ hc)

lemma esc_append_inj {s s' : List UInt8} {r r' : List Char} (hr : Stops escByte r) (hr' : Stops escByte r')
    (h : esc s ++ r = esc s' ++ r') : s = s' ∧ r = r' :=
  flatMap_append_inj escByte_append_inj hr hr' h

lemma esc_inj {s s' : List UInt8} (h : esc s = esc s') : s = s' := by
  have hnil := stops_nil escByte_ne_nil
  exact (esc_append_inj hnil hnil (by rw [append_nil, append_nil, h])).1

lemma toDigits_inj {m n : ℕ} (h : Nat.toDigits 10 m = Nat.toDigits 10 n) : m = n := by
  rw [← Nat.ofDigitChars_ten_toDigits (n := m), h, Nat.ofDigitChars_ten_toDigits]

/-- What comes before the first tag and what comes from there on. -/
def Name.parts : Name → List UInt8 × List Char
  | .atom a => (a, [])
  | .param id => ([], '_' :: 'p' :: Nat.toDigits 10 id)
  | .var id => ([], '_' :: 'v' :: Nat.toDigits 10 id)
  | .global name => ([], '_' :: 'g' :: esc name)
  | .enum name case => ([], '_' :: 'e' :: (esc name ++ '_' :: 'S' :: esc case))

lemma Name.toString_eq (name : Name) : name.toString = 'x' :: '_' :: (esc name.parts.1 ++ name.parts.2) := by
  cases name with
  | atom a => exact congrArg (['x', '_'] ++ ·) (append_nil _).symm
  | enum name case => simp [toString, Smt.enum, parts, esc]
  | _ => rfl

lemma Name.stops_parts (name : Name) : Stops escByte name.parts.2 := by
  cases name with
  | atom a => exact stops_nil escByte_ne_nil
  | _ => exact stops_tag (by decide) _

/-- Names determine the kind and the arguments, and none is a constant of the obligation itself. -/
theorem smt_name_injective :
    Function.Injective Name.toString ∧ ∀ name : Name, name.toString ∉ [['k'], ['a'], ['b'], ['r']] := by
  refine ⟨fun name name' h => ?_, fun name hmem => ?_⟩
  · rw [name.toString_eq, name'.toString_eq] at h
    obtain ⟨hlead, hrest⟩ := esc_append_inj name.stops_parts name'.stops_parts (cons.inj (cons.inj h).2).2
    cases name <;> cases name' <;>
      simp only [Name.parts, cons.injEq, true_and, reduceCtorEq, Char.reduceEq, false_and] at hlead hrest
    case atom.atom => rw [hlead]
    case param.param => rw [toDigits_inj hrest]
    case var.var => rw [toDigits_inj hrest]
    case global.global => rw [esc_inj hrest]
    case enum.enum =>
      obtain ⟨rfl, hcase⟩ := esc_append_inj (stops_tag (by decide) _) (stops_tag (by decide) _) hrest
      simp only [cons.injEq, true_and] at hcase
      rw [esc_inj hcase]
  · rw [name.toString_eq] at hmem
    simp at hmem

end Takibi.Smt
