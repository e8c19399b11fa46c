import Mathlib.Tactic

/-! Programs that write a region of fixed length front to back and give up where there is no room.
What has been written stays when a program gives up. -/

namespace Takibi.Region
open List

abbrev Writer (α β : Type) := OptionT (StateM (List α)) β

variable {α β γ : Type} (m : Writer α β) (region : List α)

def Writer.on : Option β × List α := m.run.run region

def store (i : ℕ) (a : α) : Writer α Unit := do
  let region ← get
  if i < region.length then set (region.set i a) else failure

/-- The test of an index for a store that comes later. -/
def room (i : ℕ) : Writer α Unit := do
  let region ← get
  if i < region.length then pure () else failure

def fetch (i : ℕ) : Writer α α := do
  let region ← get
  match region[i]? with
  | some a => pure a
  | none => failure

section Equations
variable (m : Writer α β) (f : β → Writer α γ) (region : List α)

@[simp] lemma pure_on (b : β) : Writer.on (pure b) region = (some b, region) := rfl

@[simp] lemma failure_on : Writer.on (failure : Writer α β) region = (none, region) := rfl

lemma bind_on : (m >>= f).on region =
    match m.on region with
    | (some b, region') => (f b).on region'
    | (none, region') => (none, region') := by
  simp only [Writer.on, OptionT.run_bind, Option.elimM, StateT.run_bind]
  rcases StateT.run m.run region with ⟨_ | b, region'⟩ <;> rfl

lemma store_on (i : ℕ) (a : α) : (store i a).on region =
    if i < region.length then (some (), region.set i a) else (none, region) := by
  have hget : (store i a).on region =
      Writer.on (if i < region.length then set (region.set i a) else failure) region := rfl
  rw [hget]
  split_ifs <;> rfl

lemma room_on (i : ℕ) : (room i).on region =
    if i < region.length then (some (), region) else (none, region) := by
  have hget : (room i).on region = Writer.on (if i < region.length then pure () else failure) region := rfl
  rw [hget]
  split_ifs <;> rfl

lemma fetch_on (i : ℕ) : (fetch i).on region =
    match region[i]? with
    | some a => (some a, region)
    | none => (none, region) := by
  have hget : (fetch i).on region =
      Writer.on (match region[i]? with | some a => pure a | none => failure) region := rfl
  rw [hget]
  cases region[i]? <;> rfl

end Equations

/-! ## Writing at a cursor -/

structure Appended (region : List α) (cursor : ℕ) (written region' : List α) : Prop where
  length : region'.length = region.length
  room : cursor + written.length ≤ region.length
  take : region'.take (cursor + written.length) = region.take cursor ++ written
  rest : region'.drop (cursor + written.length) = region.drop (cursor + written.length)

def Appends (cursor : ℕ) (written : List α) (b : β) : Prop :=
  ∃ region', m.on region = (some b, region') ∧ Appended region cursor written region'

def GivesUp : Prop := ∃ region', m.on region = (none, region')

def Emits (cursor : ℕ) (written : List α) (b : β) : Prop :=
  ∀ region, cursor ≤ region.length →
    (cursor + written.length ≤ region.length → Appends m region cursor written b) ∧
    (region.length < cursor + written.length → GivesUp m region)

section Cursor
variable {m : Writer α β} {f : β → Writer α γ} {region region' region'' written written' : List α}
  {cursor : ℕ} {a : α} {b : β} {c : γ}

lemma Appended.refl (h : cursor ≤ region.length) : Appended region cursor [] region :=
  ⟨rfl, h, by simp, rfl⟩

lemma Appended.trans (h : Appended region cursor written region')
    (h' : Appended region' (cursor + written.length) written' region'') :
    Appended region cursor (written ++ written') region'' := by
  have hcursor : cursor + (written ++ written').length = cursor + written.length + written'.length := by
    rw [length_append, Nat.add_assoc]
  refine ⟨h'.length.trans h.length, ?_, ?_, ?_⟩
  · rw [hcursor, ← h.length]
    exact h'.room
  · rw [hcursor, h'.take, h.take, append_assoc]
  · rw [hcursor, h'.rest, ← drop_drop, h.rest, drop_drop]

lemma Appended.set (h : cursor < region.length) : Appended region cursor [a] (region.set cursor a) := by
  refine ⟨length_set, h, ?_, drop_set_of_lt (Nat.lt_succ_self cursor)⟩
  have hlt : cursor < (region.set cursor a).length := by rwa [length_set]
  rw [length_singleton, take_add_one, getElem?_eq_getElem hlt, getElem_set_self, take_set_of_le le_rfl]
  rfl

lemma Appended.eq (h : Appended region 0 written region') : region' = written ++ region.drop written.length := by
  have htake := h.take
  have hrest := h.rest
  rw [Nat.zero_add] at htake hrest
  rw [← take_append_drop written.length region', htake, hrest, take_zero, nil_append]

lemma Appends.pure (h : cursor ≤ region.length) : Appends (Pure.pure b) region cursor [] b :=
  ⟨region, rfl, .refl h⟩

lemma Appends.bind (h : Appends m region cursor written b)
    (h' : ∀ region', Appended region cursor written region' →
      Appends (f b) region' (cursor + written.length) written' c) :
    Appends (m >>= f) region cursor (written ++ written') c := by
  obtain ⟨region', hm, happ⟩ := h
  obtain ⟨region'', hf, happ'⟩ := h' region' happ
  refine ⟨region'', ?_, happ.trans happ'⟩
  rw [bind_on, hm]
  exact hf

lemma Appends.store (h : cursor < region.length) : Appends (Region.store cursor a) region cursor [a] () :=
  ⟨region.set cursor a, by rw [store_on, if_pos h], .set h⟩

lemma GivesUp.bind (h : GivesUp m region) (f : β → Writer α γ) : GivesUp (m >>= f) region := by
  obtain ⟨region', hm⟩ := h
  exact ⟨region', by rw [bind_on, hm]⟩

lemma Emits.pure : Emits (Pure.pure b : Writer α β) cursor [] b :=
  fun _ hcursor => ⟨fun _ => .pure hcursor, fun hfull => absurd hcursor (not_le.mpr hfull)⟩

lemma Emits.store : Emits (Region.store cursor a) cursor [a] () := by
  refine fun region hcursor => ⟨fun hroom => .store hroom, fun hfull => ⟨region, ?_⟩⟩
  have hlast : ¬ cursor < region.length := by
    rw [length_singleton] at hfull
    omega
  rw [store_on, if_neg hlast]

lemma Emits.room {i : ℕ} (h : Emits m cursor written b) (hi : i < cursor + written.length) :
    Emits (Region.room i >>= fun _ => m) cursor written b := by
  refine fun region hcursor => ⟨fun hroom => ?_, fun hfull => ?_⟩
  · obtain ⟨region', hm, happ⟩ := (h region hcursor).1 hroom
    refine ⟨region', ?_, happ⟩
    rw [bind_on, room_on, if_pos (hi.trans_le hroom)]
    exact hm
  · obtain ⟨region', hm⟩ := (h region hcursor).2 hfull
    by_cases hlt : i < region.length
    · refine ⟨region', ?_⟩
      rw [bind_on, room_on, if_pos hlt]
      exact hm
    · refine ⟨region, ?_⟩
      rw [bind_on, room_on, if_neg hlt]

lemma Emits.bind (h : Emits m cursor written b)
    (h' : Emits (f b) (cursor + written.length) written' c) :
    Emits (m >>= f) cursor (written ++ written') c := by
  have hlength : (written ++ written').length = written.length + written'.length := length_append
  refine fun region hcursor => ⟨fun hroom => ?_, fun hfull => ?_⟩
  · refine ((h region hcursor).1 (by omega)).bind fun region' happ => ?_
    have hsame := happ.length
    have hfits := happ.room
    exact (h' region' (by omega)).1 (by omega)
  · by_cases hfirst : cursor + written.length ≤ region.length
    · obtain ⟨region', hm, happ⟩ := (h region hcursor).1 hfirst
      have hsame := happ.length
      obtain ⟨region'', hf⟩ := (h' region' (by omega)).2 (by omega)
      refine ⟨region'', ?_⟩
      rw [bind_on, hm]
      exact hf
    · exact ((h region hcursor).2 (by omega)).bind f

end Cursor

/-! ## Reading at a cursor -/

section Reading
variable {region rest : List α} {cursor : ℕ} {a d : α}

lemma getD_of_drop (h : region.drop cursor = a :: rest) : region.getD cursor d = a := by
  have hget : region[cursor]? = some a := by
    rw [← Nat.add_zero cursor, ← getElem?_drop, h]
    rfl
  rw [getD, hget]
  rfl

lemma lt_of_drop (h : region.drop cursor = a :: rest) : cursor < region.length := by
  have hlength := congrArg length h
  rw [length_drop, length_cons] at hlength
  omega

lemma drop_of_drop (read : List α) (h : region.drop cursor = read ++ rest) :
    region.drop (cursor + read.length) = rest := by
  rw [← drop_drop, h, drop_left]

lemma length_of_drop {read : List α} (h : region.drop cursor = read) (hcursor : cursor ≤ region.length) :
    cursor + read.length = region.length := by
  rw [← h, length_drop]
  omega

end Reading
end Takibi.Region
