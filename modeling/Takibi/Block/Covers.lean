import Takibi.Block.Layer

/-! What a copy of a block is known to contain: the write it comes from is no older than those of the
operations that were counted when the copy's epoch was taken. -/

namespace Takibi.Block
open Function Disk Option List Nat
variable {D : Type} {disk disk' disk'' : Disk D} {t u : ℕ} {key : Key}

abbrev Key.bucket (key : Key) : Bucket := blockCacheBucket key.block

/-- Write `i` of the block is at or after every write by an operation that is among the first `vec` counted
in the block's bucket. -/
def Covers (disk : Disk D) (key : Key) (i : ℕ) (vec : Word → ℕ) : Prop :=
  ∀ core, ∀ w ∈ (disk.counted (core, key.bucket)).take (vec (core, key.bucket)), ∀ j p,
    (disk.puts key)[j]? = some p → p.writer = some w → j ≤ i

def Copy (disk : Disk D) (key : Key) (data : D) (vec : Word → ℕ) : Prop :=
  ∃ i p, (disk.puts key)[i]? = some p ∧ p.data = data ∧ Covers disk key i vec

structure Disk.Ok (first : Key → D) (disk : Disk D) : Prop where
  lens : ∀ word, (disk.counted word).length = disk.writes word
  device : ∀ key, (disk.puts key).getLast?.map Put.data = some (disk.device key)
  initial : ∀ key, (disk.puts key)[0]? = some ⟨none, first key, 0⟩
  writer : ∀ key j p, (disk.puts key)[j]? = some p → p.writer = none → j = 0
  times : ∀ key, (disk.puts key).Pairwise fun p q => p.time < q.time
  past : ∀ key, ∀ p ∈ disk.puts key, p.time < disk.clock
  wrote : ∀ key, ∀ p ∈ disk.puts key, ∀ w, p.writer = some w → ∃ call, disk.calls w = some call ∧
    call.start ≤ p.time ∧
      ∀ stop, call.stop = some stop → p.time ≤ stop ∧ ∃ core, w ∈ disk.counted (core, key.bucket)
  called : ∀ word, ∀ w ∈ disk.counted word, (disk.calls w).isSome
  calls : ∀ w call, disk.calls w = some call → call.start < disk.clock ∧
    (∀ stop, call.stop = some stop → stop < disk.clock) ∧ ∀ word, call.known word ≤ disk.writes word
  before : ∀ r call, disk.calls r = some call → ∀ key, ∀ p ∈ disk.puts key, ∀ w call' stop,
    p.writer = some w → disk.calls w = some call' → call'.stop = some stop → stop < call.start →
      ∃ core, w ∈ (disk.counted (core, key.bucket)).take (call.known (core, key.bucket))
  answered : ∀ r call data, disk.calls r = some call → call.answer = some data → ∀ device block,
    call.op = .read device block → ∃ i p, (disk.puts (device.key block))[i]? = some p ∧ p.data = data ∧
      Covers disk (device.key block) i call.known ∧ ∀ stop, call.stop = some stop → p.time ≤ stop

structure Disk.Grows (disk disk' : Disk D) : Prop where
  puts : ∀ key, disk.puts key <+: disk'.puts key
  counted : ∀ word, disk.counted word <+: disk'.counted word
  done : ∀ key j p w word, (disk'.puts key)[j]? = some p → p.writer = some w → w ∈ disk.counted word →
    j < (disk.puts key).length

structure Disk.NotBy (t : ℕ) (disk disk' : Disk D) : Prop where
  calls : disk'.calls t = disk.calls t
  puts : ∀ key j p, (disk'.puts key)[j]? = some p → p.writer = some t → j < (disk.puts key).length
  counted : ∀ word, t ∈ disk'.counted word → t ∈ disk.counted word

section Lists
variable {α : Type} {xs ys : List α} {j : ℕ}

lemma lt_length_of_getElem? {a : α} (h : xs[j]? = some a) : j < xs.length :=
  (List.getElem?_eq_some_iff.mp h).1

lemma getElem?_of_isPrefix (h : xs <+: ys) (hj : j < xs.length) : ys[j]? = xs[j]? := by
  obtain ⟨rest, rfl⟩ := h
  rw [getElem?_append_left hj]

lemma take_of_isPrefix (h : xs <+: ys) (hj : j ≤ xs.length) : ys.take j = xs.take j := by
  obtain ⟨rest, rfl⟩ := h
  rw [take_append_of_le_length hj]

lemma update_some_cases {f : ℕ → Option α} {t w : ℕ} {a b : α}
    (h : update f t (some a) w = some b) : f w = some b ∨ w = t ∧ b = a := by
  by_cases hw : w = t
  · subst hw
    rw [update_self] at h
    exact .inr ⟨rfl, (some.inj h).symm⟩
  · rw [update_of_ne hw] at h
    exact .inl h

end Lists

lemma Disk.Grows.refl (disk : Disk D) : disk.Grows disk :=
  ⟨fun _ => prefix_rfl, fun _ => prefix_rfl, fun _ _ _ _ _ hp _ _ => lt_length_of_getElem? hp⟩

lemma Disk.Grows.trans (h : disk.Grows disk') (h' : disk'.Grows disk'') : disk.Grows disk'' where
  puts := fun key => (h.puts key).trans (h'.puts key)
  counted := fun word => (h.counted word).trans (h'.counted word)
  done := by
    intro key j p w word hp hw hcounted
    have hj := h'.done key j p w word hp hw ((h.counted word).subset hcounted)
    rw [getElem?_of_isPrefix (h'.puts key) hj] at hp
    exact h.done key j p w word hp hw hcounted

lemma Disk.NotBy.refl (t : ℕ) (disk : Disk D) : disk.NotBy t disk :=
  ⟨rfl, fun _ _ _ hp _ => lt_length_of_getElem? hp, fun _ h => h⟩

lemma Disk.NotBy.trans (h : disk.NotBy t disk') (h' : disk'.NotBy t disk'') (hg : disk'.Grows disk'') :
    disk.NotBy t disk'' where
  calls := h'.calls.trans h.calls
  puts := by
    intro key j p hp hw
    have hj := h'.puts key j p hp hw
    rw [getElem?_of_isPrefix (hg.puts key) hj] at hp
    exact h.puts key j p hp hw
  counted := fun word ht => h.counted word (h'.counted word ht)

lemma Disk.Grows.put {i : ℕ} {p : Put D} (h : disk.Grows disk') (hp : (disk.puts key)[i]? = some p) :
    (disk'.puts key)[i]? = some p := by
  rw [getElem?_of_isPrefix (h.puts key) (lt_length_of_getElem? hp), hp]

lemma Disk.Grows.writes_le {first : Key → D} (h : disk.Grows disk') (hok : disk.Ok first)
    (hok' : disk'.Ok first) (word : Word) : disk.writes word ≤ disk'.writes word := by
  rw [← hok.lens, ← hok'.lens]
  exact (h.counted word).length_le

section Covers
variable {i : ℕ} {vec vec' : Word → ℕ} {data : D} {first : Key → D}

lemma Covers.mono (h : Covers disk key i vec) (hle : ∀ core, vec' (core, key.bucket) ≤ vec (core, key.bucket)) :
    Covers disk key i vec' := fun core w hw =>
  h core w ((take_subset_take_left _ (hle core)) hw)

lemma Covers.grows (h : Covers disk key i vec) (hok : disk.Ok first)
    (hle : ∀ word, vec word ≤ disk.writes word) (hg : disk.Grows disk') : Covers disk' key i vec := by
  intro core w hw j p hp hwriter
  have hlen := hle (core, key.bucket)
  rw [← hok.lens] at hlen
  rw [take_of_isPrefix (hg.counted _) hlen] at hw
  have hj := hg.done key j p w _ hp hwriter (mem_of_mem_take hw)
  rw [getElem?_of_isPrefix (hg.puts key) hj] at hp
  exact h core w hw j p hp hwriter

lemma Copy.mono (h : Copy disk key data vec) (hle : ∀ core, vec' (core, key.bucket) ≤ vec (core, key.bucket)) :
    Copy disk key data vec' := by
  obtain ⟨i, p, hp, hdata, hcovers⟩ := h
  exact ⟨i, p, hp, hdata, hcovers.mono hle⟩

lemma Copy.grows (h : Copy disk key data vec) (hok : disk.Ok first)
    (hle : ∀ word, vec word ≤ disk.writes word) (hg : disk.Grows disk') : Copy disk' key data vec := by
  obtain ⟨i, p, hp, hdata, hcovers⟩ := h
  exact ⟨i, p, hg.put hp, hdata, hcovers.grows hok hle hg⟩

lemma Disk.Ok.copy_device (hok : disk.Ok first) (key : Key) (vec : Word → ℕ) :
    Copy disk key (disk.device key) vec := by
  obtain ⟨p, hlast, hdata⟩ := map_eq_some_iff.mp (hok.device key)
  rw [getLast?_eq_getElem?] at hlast
  refine ⟨_, p, hlast, hdata, fun core w hw j q hq _ => ?_⟩
  have hj := lt_length_of_getElem? hq
  omega

end Covers

/-! ## Slots -/

structure Epoch (disk : Disk D) (words : List Word) (epoch : ℕ) (vec : Word → ℕ) : Prop where
  sum : (words.map vec).sum = epoch
  le : ∀ word, vec word ≤ disk.writes word

def CacheEntry.Ok (disk : Disk D) (entry : CacheEntry D) : Prop :=
  entry.valid = true → ∃ vec, Epoch disk (bucketWords entry.key.bucket) entry.epoch vec ∧
    Copy disk entry.key entry.data vec

def Run.Ok (disk : Disk D) (run : Run D) : Prop :=
  run.count ≠ 0 → ∃ vec, Epoch disk allWords run.epoch vec ∧
    ∀ offset < run.count, Copy disk ⟨run.backend, run.first + offset⟩ (run.data offset) vec

structure SlotState.Ok (disk : Disk D) (state : SlotState D) : Prop where
  entries : ∀ k, (state.entries k).Ok disk
  run : state.run.Ok disk

section Grows
variable {first : Key → D} {words : List Word} {epoch : ℕ} {vec : Word → ℕ} {state : SlotState D}

section
variable (hg : disk.Grows disk') (hok : disk.Ok first) (hok' : disk'.Ok first)
include hg hok hok'

lemma Epoch.grows (h : Epoch disk words epoch vec) : Epoch disk' words epoch vec :=
  ⟨h.sum, fun word => (h.le word).trans (hg.writes_le hok hok' word)⟩

lemma CacheEntry.Ok.grows {entry : CacheEntry D} (h : entry.Ok disk) : entry.Ok disk' := by
  intro hvalid
  obtain ⟨vec, hepoch, hcopy⟩ := h hvalid
  exact ⟨vec, hepoch.grows hg hok hok', hcopy.grows hok hepoch.le hg⟩

lemma Run.Ok.grows {run : Run D} (h : run.Ok disk) : run.Ok disk' := by
  intro hcount
  obtain ⟨vec, hepoch, hcopies⟩ := h hcount
  exact ⟨vec, hepoch.grows hg hok hok', fun offset hlt => (hcopies offset hlt).grows hok hepoch.le hg⟩

lemma SlotState.Ok.grows (h : state.Ok disk) : state.Ok disk' :=
  ⟨fun k => (h.entries k).grows hg hok hok', h.run.grows hg hok hok'⟩

end

lemma SlotState.Ok.touch (h : state.Ok disk) (k : Fin blockCacheSlots) : (state.touch k).Ok disk :=
  ⟨(forall_update_iff _ fun _ => CacheEntry.Ok disk).mpr ⟨h.entries k, fun j _ => h.entries j⟩, h.run⟩

lemma SlotState.Ok.keep {data : D} (h : state.Ok disk) (k : Fin blockCacheSlots)
    (hepoch : Epoch disk (bucketWords key.bucket) epoch vec) (hcopy : Copy disk key data vec) :
    (state.keep k key data epoch).Ok disk :=
  ⟨(forall_update_iff _ fun _ => CacheEntry.Ok disk).mpr
    ⟨fun _ => ⟨vec, hepoch, hcopy⟩, fun j _ => h.entries j⟩, h.run⟩

end Grows

/-! ## Steps of the disk -/

section Steps
variable {first : Key → D} {call : Call D} {source : D} {key' : Key} {j : ℕ} {p : Put D}

lemma Disk.puts_put (disk : Disk D) (t : ℕ) (key : Key) (source : D) (key' : Key) :
    (disk.put t key source).puts key' =
      disk.puts key' ++ if key' = key then [⟨some t, source, disk.clock⟩] else [] := by
  by_cases hk : key' = key
  · subst hk
    simp only [put, update_self, if_pos]
  · simp only [put, update_of_ne hk, if_neg hk, append_nil]

lemma Disk.put_cases (hp : ((disk.put t key source).puts key')[j]? = some p) :
    (disk.puts key')[j]? = some p ∨
      key' = key ∧ j = (disk.puts key').length ∧ p = ⟨some t, source, disk.clock⟩ := by
  rw [puts_put] at hp
  by_cases hj : j < (disk.puts key').length
  · rw [getElem?_append_left hj] at hp
    exact .inl hp
  · rw [getElem?_append_right (by omega)] at hp
    by_cases hk : key' = key
    · rw [if_pos hk] at hp
      obtain ⟨hlt, rfl⟩ := List.getElem?_eq_some_iff.mp hp
      rw [List.length_singleton] at hlt
      refine .inr ⟨hk, by omega, ?_⟩
      rw [getElem_singleton]
    · rw [if_neg hk] at hp
      cases hp

lemma Disk.mem_put_cases (hp : p ∈ (disk.put t key source).puts key') :
    p ∈ disk.puts key' ∨ p = ⟨some t, source, disk.clock⟩ := by
  obtain ⟨j, hj⟩ := getElem?_of_mem hp
  obtain hold | ⟨-, -, hnew⟩ := put_cases hj
  · exact .inl (mem_of_getElem? hold)
  · exact .inr hnew

lemma Disk.grows_put (source : D) (hcounted : ∀ word, t ∉ disk.counted word) :
    disk.Grows (disk.put t key source) := by
  refine ⟨fun key' => ?_, fun _ => prefix_rfl, fun key' j p w word hp hw hmem => ?_⟩
  · rw [puts_put]
    exact prefix_append ..
  · obtain hold | ⟨-, -, rfl⟩ := put_cases hp
    · exact lt_length_of_getElem? hold
    · cases hw
      exact absurd hmem (hcounted word)

lemma Disk.notBy_put (source : D) (hu : u ≠ t) : disk.NotBy u (disk.put t key source) := by
  refine ⟨rfl, fun key' j p hp hw => ?_, fun _ h => h⟩
  obtain hold | ⟨-, -, rfl⟩ := put_cases hp
  · exact lt_length_of_getElem? hold
  · exact absurd (some.inj hw).symm hu

lemma Disk.Ok.answered_grows (hok : disk.Ok first) (hg : disk.Grows disk') {r : ℕ} {data : D}
    (hcall : disk.calls r = some call) (hanswer : call.answer = some data) {device : KernelBlockDevice}
    {block : ℕ} (hop : call.op = .read device block) :
    ∃ i p, (disk'.puts (device.key block))[i]? = some p ∧ p.data = data ∧
      Covers disk' (device.key block) i call.known ∧ ∀ stop, call.stop = some stop → p.time ≤ stop := by
  obtain ⟨i, p, hp, hdata, hcovers, htime⟩ := hok.answered r call data hcall hanswer device block hop
  exact ⟨i, p, hg.put hp, hdata, hcovers.grows hok (hok.calls r call hcall).2.2 hg, htime⟩

lemma Disk.Ok.calls_later (hok : disk.Ok first) {w : ℕ} (hw : disk.calls w = some call) :
    call.start < disk.clock + 1 ∧ (∀ stop, call.stop = some stop → stop < disk.clock + 1) ∧
      ∀ word, call.known word ≤ disk.writes word := by
  obtain ⟨hstart, hstops, hknown⟩ := hok.calls w call hw
  exact ⟨hstart.trans (lt_succ_self _), fun stop h => (hstops stop h).trans (lt_succ_self _), hknown⟩

lemma Disk.Ok.put (hok : disk.Ok first) (key : Key) (source : D) (hcall : disk.calls t = some call)
    (hstop : call.stop = none) (hcounted : ∀ word, t ∉ disk.counted word) :
    (disk.put t key source).Ok first where
  __ := hok
  device := by
    intro key'
    rw [puts_put]
    by_cases hk : key' = key
    · subst hk
      simp only [if_pos, getLast?_append, getLast?_singleton, some_or, map_some, Disk.put, update_self]
    · simp only [if_neg hk, append_nil, Disk.put, update_of_ne hk]
      exact hok.device key'
  initial := fun key' => (Disk.grows_put source hcounted).put (hok.initial key')
  writer := by
    intro key' j p hp hw
    obtain hold | ⟨-, -, rfl⟩ := put_cases hp
    · exact hok.writer key' j p hold hw
    · cases hw
  times := by
    intro key'
    rw [puts_put, pairwise_append]
    refine ⟨hok.times key', ?_, fun p hp q hq => ?_⟩
    · split_ifs
      · exact pairwise_singleton ..
      · exact List.Pairwise.nil
    · split_ifs at hq
      · rw [mem_singleton.mp hq]
        exact hok.past key' p hp
      · cases hq
  past := by
    intro key' p hp
    obtain hold | rfl := mem_put_cases hp
    · exact (hok.past key' p hold).trans (lt_succ_self _)
    · exact lt_succ_self _
  wrote := by
    intro key' p hp w hw
    obtain hold | rfl := mem_put_cases hp
    · exact hok.wrote key' p hold w hw
    · cases hw
      refine ⟨call, hcall, (hok.calls t call hcall).1.le, fun stop h => ?_⟩
      rw [hstop] at h
      cases h
  calls := fun _ _ hw => hok.calls_later hw
  before := by
    intro r call' hr key' p hp w callW stop hw hcallW hstopW hlt
    obtain hold | rfl := mem_put_cases hp
    · exact hok.before r call' hr key' p hold w callW stop hw hcallW hstopW hlt
    · cases hw
      cases hcall.symm.trans hcallW
      rw [hstop] at hstopW
      cases hstopW
  answered := fun r call' data hr hanswer device block hop =>
    hok.answered_grows (grows_put source hcounted) hr hanswer hop

lemma Disk.counted_store (disk : Disk D) (t : ℕ) (word : Word) (value : ℕ) (word' : Word) :
    (disk.store t word value).counted word' = disk.counted word' ++ if word' = word then [t] else [] := by
  by_cases hw : word' = word
  · subst hw
    simp only [store, update_self, if_pos]
  · simp only [store, update_of_ne hw, if_neg hw, append_nil]

lemma Disk.grows_store (t : ℕ) (word : Word) (value : ℕ) : disk.Grows (disk.store t word value) := by
  refine ⟨fun _ => prefix_rfl, fun word' => ?_, fun key j p w word' hp _ _ => ?_⟩
  · rw [counted_store]
    exact prefix_append ..
  · exact lt_length_of_getElem? hp

lemma Disk.notBy_store (word : Word) (value : ℕ) (hu : u ≠ t) : disk.NotBy u (disk.store t word value) := by
  refine ⟨rfl, fun key j p hp _ => lt_length_of_getElem? hp, fun word' hmem => ?_⟩
  rw [counted_store, mem_append] at hmem
  obtain hold | hnew := hmem
  · exact hold
  · split_ifs at hnew
    · exact absurd (mem_singleton.mp hnew) hu
    · cases hnew

lemma Disk.writes_le_store (t : ℕ) (word word' : Word) :
    disk.writes word' ≤ (disk.store t word (disk.writes word + 1)).writes word' := by
  simp only [store]
  by_cases hw : word' = word
  · subst hw
    rw [update_self]
    exact le_succ _
  · rw [update_of_ne hw]

lemma Disk.Ok.store (hok : disk.Ok first) (word : Word) (hcall : disk.calls t = some call) :
    (disk.store t word (disk.writes word + 1)).Ok first where
  __ := hok
  lens := by
    intro word'
    rw [counted_store]
    by_cases hw : word' = word
    · subst hw
      simp only [if_pos, length_append, List.length_singleton, hok.lens, Disk.store, update_self]
    · simp only [if_neg hw, append_nil, hok.lens, Disk.store, update_of_ne hw]
  wrote := by
    intro key p hp w hw
    obtain ⟨call', hcall', hstart, hstops⟩ := hok.wrote key p hp w hw
    refine ⟨call', hcall', hstart, fun stop h => ?_⟩
    obtain ⟨htime, core, hmem⟩ := hstops stop h
    exact ⟨htime, core, ((grows_store t word _).counted _).subset hmem⟩
  called := by
    intro word' w hw
    rw [counted_store, mem_append] at hw
    obtain hold | hnew := hw
    · exact hok.called word' w hold
    · split_ifs at hnew
      · rw [mem_singleton.mp hnew]
        exact isSome_of_eq_some hcall
      · cases hnew
  calls := by
    intro w call' hw
    obtain ⟨hstart, hstops, hknown⟩ := hok.calls w call' hw
    exact ⟨hstart, hstops, fun word' => (hknown word').trans (writes_le_store t word word')⟩
  before := by
    intro r call' hr key p hp w callW stop hw hcallW hstopW hlt
    obtain ⟨core, hmem⟩ := hok.before r call' hr key p hp w callW stop hw hcallW hstopW hlt
    have hknown := (hok.calls r call' hr).2.2 (core, key.bucket)
    rw [← hok.lens] at hknown
    refine ⟨core, ?_⟩
    rw [take_of_isPrefix ((grows_store t word _).counted _) hknown]
    exact hmem
  answered := fun r call' data hr hanswer device block hop =>
    hok.answered_grows (grows_store t word _) hr hanswer hop

lemma Disk.grows_start (t : ℕ) (op : Op D) : disk.Grows (disk.start t op) :=
  { Grows.refl disk with }

lemma Disk.notBy_start (op : Op D) (hu : u ≠ t) : disk.NotBy u (disk.start t op) :=
  { NotBy.refl u disk with calls := update_of_ne hu .. }

lemma Disk.Ok.silent (hok : disk.Ok first) (hidle : disk.calls t = none) :
    (∀ key, ∀ p ∈ disk.puts key, p.writer ≠ some t) ∧ ∀ word, t ∉ disk.counted word := by
  constructor
  · intro key p hp hw
    obtain ⟨call, hcall, -⟩ := hok.wrote key p hp t hw
    rw [hidle] at hcall
    cases hcall
  · intro word hmem
    have hsome := hok.called word t hmem
    rw [hidle] at hsome
    cases hsome

lemma Disk.Ok.start (hok : disk.Ok first) (op : Op D) (hidle : disk.calls t = none) :
    (disk.start t op).Ok first := by
  have hother : ∀ w call, disk.calls w = some call → w ≠ t := by
    rintro w call hcall rfl
    rw [hidle] at hcall
    cases hcall
  have hcalls : ∀ w ≠ t, (disk.start t op).calls w = disk.calls w := fun w hw => update_of_ne hw ..
  refine { hok with
    past := fun key p hp => (hok.past key p hp).trans (lt_succ_self _)
    wrote := ?wrote, called := ?called, calls := ?calls, before := ?before, answered := ?answered }
  case wrote =>
    intro key p hp w hw
    obtain ⟨call, hcall, hrest⟩ := hok.wrote key p hp w hw
    exact ⟨call, (hcalls w (hother w call hcall)).trans hcall, hrest⟩
  case called =>
    intro word w hw
    obtain ⟨call, hcall⟩ := isSome_iff_exists.mp (hok.called word w hw)
    rw [hcalls w (hother w call hcall), hcall]
    rfl
  case calls =>
    intro w call hcall
    obtain hold | ⟨-, rfl⟩ := update_some_cases hcall
    · exact hok.calls_later hold
    · exact ⟨lt_succ_self _, nofun, fun _ => le_rfl⟩
  case before =>
    intro r call hcall key p hp w callW stop hw hcallW hstopW hlt
    obtain holdW | ⟨-, rfl⟩ := update_some_cases hcallW
    · obtain hold | ⟨-, rfl⟩ := update_some_cases hcall
      · exact hok.before r call hold key p hp w callW stop hw holdW hstopW hlt
      · obtain ⟨call', hcall', -, hstops⟩ := hok.wrote key p hp w hw
        cases hcall'.symm.trans holdW
        obtain ⟨-, core, hmem⟩ := hstops stop hstopW
        refine ⟨core, ?_⟩
        change w ∈ (disk.counted (core, key.bucket)).take (disk.writes (core, key.bucket))
        rwa [← hok.lens, take_length]
    · cases hstopW
  case answered =>
    intro r call data hcall hanswer device block hop
    obtain hold | ⟨-, rfl⟩ := update_some_cases hcall
    · exact hok.answered_grows (grows_start t op) hold hanswer hop
    · cases hanswer

lemma Disk.grows_finish (t : ℕ) (answer : Option D) : disk.Grows (disk.finish t answer) :=
  { Grows.refl disk with }

lemma Disk.notBy_finish (answer : Option D) (hu : u ≠ t) : disk.NotBy u (disk.finish t answer) :=
  { NotBy.refl u disk with calls := update_of_ne hu .. }

structure Disk.Returns (disk : Disk D) (t : ℕ) (answer : Option D) (call : Call D) : Prop where
  began : disk.calls t = some call
  stop : call.stop = none
  counted : ∀ key, ∀ p ∈ disk.puts key, p.writer = some t → ∃ core, t ∈ disk.counted (core, key.bucket)
  answer : ∀ data, answer = some data → ∀ device block, call.op = .read device block →
    Copy disk (device.key block) data call.known

lemma Disk.Ok.finish {answer : Option D} (hok : disk.Ok first) (h : disk.Returns t answer call) :
    (disk.finish t answer).Ok first := by
  have hfinish : (disk.finish t answer).calls =
      update disk.calls t (some { call with stop := some disk.clock, answer }) := by
    simp only [Disk.finish, h.began, map_some]
  refine { hok with
    past := fun key p hp => (hok.past key p hp).trans (lt_succ_self _)
    wrote := ?wrote, called := ?called, calls := ?calls, before := ?before, answered := ?answered }
  all_goals simp only [hfinish]
  case wrote =>
    intro key p hp w hw
    obtain ⟨call', hcall', hstart', hrest⟩ := hok.wrote key p hp w hw
    by_cases hwt : w = t
    · subst hwt
      cases h.began.symm.trans hcall'
      refine ⟨_, update_self .., hstart', fun stop hstop => ?_⟩
      cases hstop
      exact ⟨(hok.past key p hp).le, h.counted key p hp hw⟩
    · exact ⟨call', (update_of_ne hwt ..).trans hcall', hstart', hrest⟩
  case called =>
    intro word w hw
    by_cases hwt : w = t
    · rw [hwt, update_self]
      rfl
    · rw [update_of_ne hwt]
      exact hok.called word w hw
  case calls =>
    intro w call' hcall'
    obtain hold | ⟨-, rfl⟩ := update_some_cases hcall'
    · exact hok.calls_later hold
    · obtain ⟨hstart, -, hknown⟩ := hok.calls_later h.began
      refine ⟨hstart, fun stop hstop => ?_, hknown⟩
      cases hstop
      exact lt_succ_self _
  case before =>
    intro r call' hcall' key p hp w callW stop hw hcallW hstopW hlt
    obtain ⟨callR, hcallR, hstartR, hknownR⟩ : ∃ callR, disk.calls r = some callR ∧
        callR.start = call'.start ∧ callR.known = call'.known := by
      obtain hold | ⟨rfl, rfl⟩ := update_some_cases hcall'
      · exact ⟨call', hold, rfl, rfl⟩
      · exact ⟨call, h.began, rfl, rfl⟩
    obtain holdW | ⟨-, rfl⟩ := update_some_cases hcallW
    · rw [← hknownR]
      exact hok.before r callR hcallR key p hp w callW stop hw holdW hstopW (hstartR ▸ hlt)
    -- The operation returns now, after all that began.
    · cases hstopW
      have hbegan := (hok.calls r callR hcallR).1
      omega
  case answered =>
    intro r call' data hcall' hanswer device block hop
    obtain hold | ⟨-, rfl⟩ := update_some_cases hcall'
    · exact hok.answered_grows (grows_finish t answer) hold hanswer hop
    · obtain ⟨i, p, hp, hdata, hcovers⟩ := h.answer data hanswer device block hop
      refine ⟨i, p, hp, hdata, hcovers, fun stop hstop => ?_⟩
      cases hstop
      exact (hok.past _ p (mem_of_getElem? hp)).le

end Steps
end Takibi.Block
