import Mathlib.Tactic

/-! Serial placement of items that have a size and an alignment. -/

namespace Takibi.Serial

def alignUp (n a : ℕ) : ℕ := if a ≤ 1 then n else (n + a - 1) / a * a

section AlignUp
variable {n a : ℕ}

lemma le_alignUp (n a : ℕ) : n ≤ alignUp n a := by
  unfold alignUp
  split_ifs with ha
  · exact le_rfl
  · have hlt := Nat.lt_div_mul_add (a := n + a - 1) (show 0 < a by omega)
    omega

lemma dvd_alignUp (ha : 0 < a) : a ∣ alignUp n a := by
  unfold alignUp
  split_ifs with h1
  · obtain rfl : a = 1 := by omega
    exact one_dvd n
  · exact dvd_mul_left a _

@[simp] lemma alignUp_one : alignUp n 1 = n := rfl

end AlignUp

def offsets (start : ℕ) : List (ℕ × ℕ) → List ℕ
  | [] => []
  | (size, align) :: rest => alignUp start align :: offsets (alignUp start align + size) rest

def finish (start : ℕ) : List (ℕ × ℕ) → ℕ
  | [] => start
  | (size, align) :: rest => finish (alignUp start align + size) rest

/-- No sum on the way reaches `limit`, those inside `alignUp` included. -/
def Within (limit start : ℕ) : List (ℕ × ℕ) → Prop
  | [] => True
  | (size, align) :: rest =>
    start + align ≤ limit ∧ alignUp start align + size < limit ∧ Within limit (alignUp start align + size) rest

instance decidableWithin (limit start : ℕ) (items : List (ℕ × ℕ)) : Decidable (Within limit start items) :=
  match items with
  | [] => .isTrue trivial
  | (size, align) :: rest =>
    have := decidableWithin limit (alignUp start align + size) rest
    inferInstanceAs (Decidable (_ ∧ _ ∧ _))

def placed (start : ℕ) (items : List (ℕ × ℕ)) : List (ℕ × ℕ × ℕ) := (offsets start items).zip items

@[simp] lemma placed_cons (start size align : ℕ) (rest : List (ℕ × ℕ)) :
    placed start ((size, align) :: rest) =
      (alignUp start align, size, align) :: placed (alignUp start align + size) rest := rfl

lemma le_finish (start : ℕ) (items : List (ℕ × ℕ)) : start ≤ finish start items := by
  induction items generalizing start with
  | nil => exact le_rfl
  | cons item rest ih =>
    obtain ⟨size, align⟩ := item
    calc start ≤ alignUp start align := le_alignUp start align
      _ ≤ alignUp start align + size := Nat.le_add_right _ _
      _ ≤ finish start ((size, align) :: rest) := ih _

lemma placed_inside {start : ℕ} {items : List (ℕ × ℕ)} {p : ℕ × ℕ × ℕ}
    (hp : p ∈ placed start items) : start ≤ p.1 ∧ p.1 + p.2.1 ≤ finish start items := by
  induction items generalizing start with
  | nil => cases hp
  | cons item rest ih =>
    obtain ⟨size, align⟩ := item
    rw [placed_cons] at hp
    have hstart := le_alignUp start align
    rcases List.mem_cons.mp hp with rfl | hp
    · exact ⟨hstart, le_finish _ rest⟩
    · obtain ⟨hlo, hhi⟩ := ih hp
      exact ⟨by omega, hhi⟩

lemma placed_ordered (start : ℕ) (items : List (ℕ × ℕ)) :
    (placed start items).Pairwise fun p q => p.1 + p.2.1 ≤ q.1 := by
  induction items generalizing start with
  | nil => exact List.Pairwise.nil
  | cons item rest ih =>
    obtain ⟨size, align⟩ := item
    rw [placed_cons]
    exact List.Pairwise.cons (fun q hq => (placed_inside hq).1) (ih _)

end Takibi.Serial
