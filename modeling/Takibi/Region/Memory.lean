import Takibi.Region.Writer

/-! Programs on a flat memory, of which they are lent a region to read and a region to write. A program keeps to
its regions where it does to the bytes of the second what a writer does that is given the bytes of the first. -/

namespace Takibi.Region
open Function List
variable {α β γ : Type}

abbrev Memory (α : Type) := ℕ → α

structure Slice where
  base : ℕ
  length : ℕ
  deriving DecidableEq, Repr

namespace Slice

def Holds (s : Slice) (a : ℕ) : Prop := s.base ≤ a ∧ a < s.base + s.length

instance (s : Slice) (a : ℕ) : Decidable (s.Holds a) := inferInstanceAs (Decidable (_ ∧ _))

def Apart (s s' : Slice) : Prop := ∀ a, s.Holds a → ¬ s'.Holds a
def bytes (s : Slice) (mem : Memory α) : List α := (range s.length).map fun i => mem (s.base + i)

def overwrite (s : Slice) (mem : Memory α) (region : List α) : Memory α := fun a =>
  if s.Holds a then region.getD (a - s.base) (mem a) else mem a

variable (s : Slice) (mem : Memory α) {region region' : List α} {i : ℕ}

@[simp] lemma length_bytes : (s.bytes mem).length = s.length := by
  rw [bytes, length_map, length_range]

variable {s mem}

lemma getElem?_bytes (hi : i < s.length) : (s.bytes mem)[i]? = some (mem (s.base + i)) := by
  rw [bytes, getElem?_map, getElem?_range hi]
  rfl

lemma overwrite_of_not {a : ℕ} (ha : ¬ s.Holds a) : s.overwrite mem region a = mem a := if_neg ha

lemma overwrite_at (hi : i < s.length) : s.overwrite mem region (s.base + i) = region.getD i (mem (s.base + i)) := by
  have hholds : s.Holds (s.base + i) := ⟨Nat.le_add_right .., Nat.add_lt_add_left hi _⟩
  rw [overwrite, if_pos hholds, Nat.add_sub_cancel_left]

lemma bytes_overwrite (hlength : region.length = s.length) : s.bytes (s.overwrite mem region) = region := by
  refine ext_getElem? fun i => ?_
  by_cases hi : i < s.length
  · rw [getElem?_bytes hi, overwrite_at hi, getD, getElem?_eq_getElem (hlength ▸ hi)]
    rfl
  · rw [getElem?_eq_none (by rw [length_bytes]; omega), getElem?_eq_none (by omega)]

lemma bytes_congr {mem' : Memory α} (h : ∀ a, s.Holds a → mem' a = mem a) : s.bytes mem' = s.bytes mem := by
  refine map_congr_left fun i hi => h _ ⟨Nat.le_add_right .., ?_⟩
  exact Nat.add_lt_add_left (mem_range.mp hi) _

lemma Apart.bytes_overwrite {s' : Slice} (h : s'.Apart s) : s'.bytes (s.overwrite mem region) = s'.bytes mem :=
  bytes_congr fun a ha => overwrite_of_not (h a ha)

lemma overwrite_overwrite (hlength : region'.length = s.length) :
    s.overwrite (s.overwrite mem region) region' = s.overwrite mem region' := by
  funext a
  by_cases ha : s.Holds a
  · obtain ⟨i, rfl⟩ := Nat.exists_eq_add_of_le ha.1
    have hi : i < s.length := Nat.lt_of_add_lt_add_left ha.2
    have hget : ∀ d d', region'.getD i d = region'.getD i d' := fun d d' => by
      rw [getD, getD, getElem?_eq_getElem (hlength ▸ hi)]
      rfl
    rw [overwrite_at hi, hget _ (mem (s.base + i)), ← overwrite_at hi]
  · rw [overwrite_of_not ha, overwrite_of_not ha, overwrite_of_not ha]

lemma overwrite_bytes : s.overwrite mem (s.bytes mem) = mem := by
  funext a
  by_cases ha : s.Holds a
  · obtain ⟨i, rfl⟩ := Nat.exists_eq_add_of_le ha.1
    have hi : i < s.length := Nat.lt_of_add_lt_add_left ha.2
    rw [overwrite_at hi, getD, getElem?_bytes hi]
    rfl
  · exact overwrite_of_not ha

lemma overwrite_set {v : α} (hi : i < s.length) :
    s.overwrite mem ((s.bytes mem).set i v) = update mem (s.base + i) v := by
  funext a
  by_cases ha : s.Holds a
  · obtain ⟨j, rfl⟩ := Nat.exists_eq_add_of_le ha.1
    have hj : j < s.length := Nat.lt_of_add_lt_add_left ha.2
    rw [overwrite_at hj, getD, getElem?_set]
    by_cases hij : i = j
    · subst hij
      simp [hi]
    · have hne : s.base + j ≠ s.base + i := by omega
      rw [if_neg hij, getElem?_bytes hj, update_of_ne hne]
      rfl
  · have hne : a ≠ s.base + i := by
      rintro rfl
      exact ha ⟨Nat.le_add_right .., Nat.add_lt_add_left hi _⟩
    rw [overwrite_of_not ha, update_of_ne hne]

end Slice

/-! ## Programs -/

abbrev Program (α β : Type) := OptionT (StateM (Memory α)) β
def Program.on (p : Program α β) (mem : Memory α) : Option β × Memory α := p.run.run mem
def current : Program α (Memory α) := get
def load (a : ℕ) : Program α α := current >>= fun mem => pure (mem a)
def put (a : ℕ) (v : α) : Program α Unit := modify fun mem => update mem a v

namespace Program
variable (p : Program α β) (f : β → Program α γ) (mem : Memory α)

lemma pure_on (b : β) : Program.on (pure b) mem = (some b, mem) := rfl

lemma failure_on : Program.on (failure : Program α β) mem = (none, mem) := rfl

lemma current_on : (current : Program α (Memory α)).on mem = (some mem, mem) := rfl

lemma put_on (a : ℕ) (v : α) : (put a v).on mem = (some (), update mem a v) := rfl

lemma bind_on : (p >>= f).on mem =
    match p.on mem with
    | (some b, mem') => (f b).on mem'
    | (none, mem') => (none, mem') := by
  simp only [Program.on, OptionT.run_bind, Option.elimM, StateT.run_bind]
  rcases StateT.run p.run mem with ⟨_ | b, mem'⟩ <;> rfl

end Program

def KeepsAt (dst : Slice) (p : Program α β) (m : Writer α β) (mem : Memory α) : Prop :=
  (m.on (dst.bytes mem)).2.length = dst.length ∧
    p.on mem = ((m.on (dst.bytes mem)).1, dst.overwrite mem (m.on (dst.bytes mem)).2)

def Keeps (src dst : Slice) (given : List α) (p : Program α β) (m : Writer α β) : Prop :=
  ∀ mem, src.bytes mem = given → KeepsAt dst p m mem

section Rules
variable {src dst : Slice} {given : List α} {p : Program α β} {m : Writer α β} {f : β → Program α γ}
  {g : β → Writer α γ} {mem : Memory α}

lemma KeepsAt.pure (b : β) : KeepsAt dst (Pure.pure b) (Pure.pure b) mem :=
  ⟨dst.length_bytes mem, by rw [Region.pure_on, Program.pure_on, Slice.overwrite_bytes]⟩

lemma KeepsAt.failure : KeepsAt dst (failure : Program α β) failure mem :=
  ⟨dst.length_bytes mem, by rw [Region.failure_on, Program.failure_on, Slice.overwrite_bytes]⟩

lemma KeepsAt.put {i : ℕ} (hi : i < dst.length) (v : α) : KeepsAt dst (Region.put (dst.base + i) v) (store i v) mem := by
  have hstore : (store i v).on (dst.bytes mem) = (some (), (dst.bytes mem).set i v) := by
    rw [store_on, if_pos (by rwa [Slice.length_bytes])]
  refine ⟨?_, ?_⟩
  · rw [hstore, length_set, Slice.length_bytes]
  · rw [hstore, Program.put_on, Slice.overwrite_set hi]

lemma KeepsAt.bind (happart : src.Apart dst) (hgiven : src.bytes mem = given) (hp : KeepsAt dst p m mem)
    (hf : ∀ b, Keeps src dst given (f b) (g b)) : KeepsAt dst (p >>= f) (m >>= g) mem := by
  obtain ⟨hlength, hrun⟩ := hp
  rw [KeepsAt, Region.bind_on, Program.bind_on, hrun]
  rcases hm : m.on (dst.bytes mem) with ⟨_ | b, region⟩
  · rw [hm] at hlength
    exact ⟨hlength, rfl⟩
  · rw [hm] at hlength
    have hsame : src.bytes (dst.overwrite mem region) = given := happart.bytes_overwrite.trans hgiven
    obtain ⟨hlength', hrun'⟩ := hf b _ hsame
    rw [Slice.bytes_overwrite hlength] at hlength' hrun'
    refine ⟨hlength', ?_⟩
    dsimp only
    rw [hrun', Slice.overwrite_overwrite hlength']

lemma KeepsAt.current {k : Memory α → Program α β} (h : KeepsAt dst (k mem) m mem) :
    KeepsAt dst (Region.current >>= k) m mem := by
  have hbind : (Region.current >>= k).on mem = (k mem).on mem := by
    rw [Program.bind_on, Program.current_on]
  exact ⟨h.1, hbind.trans h.2⟩

lemma KeepsAt.load {a : ℕ} {k : α → Program α β} (h : KeepsAt dst (k (mem a)) m mem) :
    KeepsAt dst (Region.load a >>= k) m mem := by
  have hbind : (Region.load a >>= k).on mem = (k (mem a)).on mem := by
    rw [Program.bind_on]
    rfl
  exact ⟨h.1, hbind.trans h.2⟩

lemma KeepsAt.fetch {i : ℕ} {k : α → Program α β} {g : α → Writer α β} (hi : i < dst.length)
    (h : KeepsAt dst (k (mem (dst.base + i))) (g (mem (dst.base + i))) mem) :
    KeepsAt dst (Region.load (dst.base + i) >>= k) (Region.fetch i >>= g) mem := by
  have hfetch : (Region.fetch i >>= g).on (dst.bytes mem) = (g (mem (dst.base + i))).on (dst.bytes mem) := by
    rw [Region.bind_on, fetch_on, Slice.getElem?_bytes hi]
  have hload := h.load
  rw [KeepsAt] at hload ⊢
  rwa [hfetch]

end Rules
end Takibi.Region
