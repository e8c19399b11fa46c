import Mathlib.Tactic

/-! Windows of a cyclic array: the entries from a position on, wrapping at the capacity `C`. -/

namespace Takibi.Cyclic
open Function List Nat
variable {α : Type*} {C start k m n : ℕ} {buf buf' : ℕ → α} {xs : List α}

def window (C : ℕ) (buf : ℕ → α) (start n : ℕ) : List α := (List.range n).map fun k => buf ((start + k) % C)

@[simp] lemma length_window : (window C buf start n).length = n := by simp [window]

@[simp] lemma window_zero : window C buf start 0 = [] := rfl

lemma window_add : window C buf start (m + n) = window C buf start m ++ window C buf (start + m) n := by
  simp [window, range_add, Function.comp_def, Nat.add_assoc]

lemma take_window (h : m ≤ n) : (window C buf start n).take m = window C buf start m := by
  rw [← add_sub_of_le h, window_add, take_left' length_window]

lemma drop_window (h : m ≤ n) : (window C buf start n).drop m = window C buf (start + m) (n - m) := by
  rw [← add_sub_of_le h, window_add, drop_left' length_window, Nat.add_sub_cancel_left]

lemma window_mod : window C buf (start % C) n = window C buf start n := by simp [window, mod_add_mod]

lemma window_cons : window C buf start (n + 1) = buf (start % C) :: window C buf (start + 1) n := by
  rw [Nat.add_comm n, window_add]
  rfl

lemma window_concat : window C buf start (n + 1) = window C buf start n ++ [buf ((start + n) % C)] := by
  rw [window_add]
  rfl

lemma window_congr (h : ∀ k < n, buf' ((start + k) % C) = buf ((start + k) % C)) :
    window C buf' start n = window C buf start n :=
  map_congr_left fun k hk => h k (mem_range.mp hk)

lemma index_eq (hs : start < C) (hk : k ≤ C) :
    (start + k) % C = if start + k < C then start + k else start + k - C := by
  split_ifs with h
  · exact mod_eq_of_lt h
  · rw [mod_eq_sub_mod (not_lt.mp h), mod_eq_of_lt (by omega)]

lemma index_ne (hs : start < C) (hmk : m < k) (hk : k < C) : (start + m) % C ≠ (start + k) % C := by
  rw [index_eq hs (hmk.trans hk).le, index_eq hs hk.le]
  split_ifs <;> omega

lemma window_push (hs : start < C) (hn : n < C) (x : α) :
    window C (update buf ((start + n) % C) x) start (n + 1) = window C buf start n ++ [x] := by
  rw [window_concat, update_self]
  exact congrArg (· ++ [x]) (window_congr fun k hk => update_of_ne (index_ne hs hk hn) ..)

def store (buf : ℕ → α) (offset : ℕ) (xs : List α) : ℕ → α := fun i =>
  if offset ≤ i then xs[i - offset]?.getD (buf i) else buf i

lemma store_of_not_mem {offset i : ℕ} (h : i < offset ∨ offset + xs.length ≤ i) :
    store buf offset xs i = buf i := by
  unfold store
  split_ifs with hle
  · rw [getElem?_eq_none (by omega), Option.getD_none]
  · rfl

lemma store_add {offset : ℕ} (h : k < xs.length) : store buf offset xs (offset + k) = xs[k] := by
  simp [store, h]

lemma window_store {first : ℕ} (hs : start < C) (hlen : n + xs.length ≤ C)
    (hfirst : first = min xs.length (C - (start + n) % C)) :
    window C (store (store buf ((start + n) % C) (xs.take first)) 0 (xs.drop first)) start (n + xs.length) =
      window C buf start n ++ xs := by
  have hp : (start + n) % C < C := mod_lt _ (by omega)
  have hsecond : (xs.drop first).length = xs.length - first := length_drop
  have htake : (xs.take first).length = first := by
    rw [length_take]
    omega
  rw [window_add]
  congr 1
  · refine window_congr fun k hk => ?_
    have hi := index_eq (k := k) hs (by omega)
    have hn := index_eq (k := n) hs (by omega)
    have hfree : xs.length - first ≤ (start + k) % C ∧
        ((start + k) % C < (start + n) % C ∨ (start + n) % C + first ≤ (start + k) % C) := by
      split_ifs at hi hn <;> omega
    rw [store_of_not_mem (.inr (by omega)), store_of_not_mem (by omega)]
  · refine ext_getElem (by simp) fun k _ hk => ?_
    simp only [window, getElem_map, getElem_range]
    rw [← mod_add_mod (start + n) C k, index_eq hp (by omega)]
    split_ifs with hwrap
    · rw [store_of_not_mem (.inr (by omega)), store_add (by omega), getElem_take]
    · obtain ⟨j, hj⟩ : ∃ j, (start + n) % C + k - C = 0 + j := ⟨_, (Nat.zero_add _).symm⟩
      rw [hj, store_add (by omega), getElem_drop]
      congr 1
      omega

end Takibi.Cyclic
