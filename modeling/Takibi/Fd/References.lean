import Takibi.Fd.TableSound

/-! Runs of the descriptor tables. -/

namespace Takibi.Fd
open Stamped FdState List
namespace FdState
variable (s : FdState)

/-- A table is released once its descriptors are closed, as `unified_fd_destroy` leaves it when its process
exits. -/
def Meets : FdEvent → Prop
  | .contextRelease process =>
    ∀ ctx, s.contexts.lookup process = some ctx → ∀ entry ∈ ctx.entries, entry.kind = .empty
  | _ => True

def MeetsAll : FdState → List FdEvent → Prop
  | _, [] => True
  | s, event :: events => s.Meets event ∧ (s.step event).MeetsAll events

def run (events : List FdEvent) : FdState := events.foldl step s

def slotsNaming (h : Handle) : ℕ :=
  s.slots.countP fun entry => entry.kind ≠ .empty ∧ entry.handle = h

def chainBlocks : ℕ :=
  (s.contexts.entries.map fun entry => entry.2.blocks.length).sum +
    (s.undos.map fun undo => undo.blocks.length).sum

lemma length_slots : s.slots.length = fdBlockSlots * s.chainBlocks := by
  rw [slots, chainBlocks, length_append, length_flatMap, length_flatMap, Nat.mul_add]
  simp only [ProcessFdContext.entries, length_chainEntries, sum_map_mul_left]

end FdState

lemma Exact.boot (pages : ℕ) : Exact (boot pages) [] [] where
  counted := Counted.empty
  held h object found := by cases Pool.find_empty.symm.trans found
  total := rfl
  blocks := rfl
  bounded := rfl
  single := rfl
  ends :=
    { opened := fun e => iff_of_false (fun ⟨_, found, _⟩ => nomatch Pool.find_empty.symm.trans found)
        (not_or.mpr ⟨fun ⟨_, _, found, _⟩ => (nomatch Pool.find_empty.symm.trans found), not_mem_nil⟩)
      one := fun h h' e ⟨_, found, _⟩ => nomatch Pool.find_empty.symm.trans found
      apart := fun h e ⟨_, found, _⟩ => nomatch Pool.find_empty.symm.trans found
      nodup := nodup_nil
      unclosed := fun _ _ => rfl
      closed := fun e minted => absurd minted Pool.minted_empty }

lemma Exact.step {s : FdState} (isExact : Exact s [] []) {event : FdEvent} (met : s.Meets event) :
    Exact (s.step event) [] [] := by
  cases event with
  | memory room => exact Ledger.room isExact room
  | contextEnsure process granted => exact isExact.contextEnsure granted
  | contextRelease process => exact isExact.contextRelease met
  | limitConfigure process soft hard => exact isExact.limitConfigure soft hard
  | fileOpen process fd place | directoryOpen process fd place
  | listenerCreate process fd place
  | connectionCreate process fd place => exact isExact.create_plain process fd rfl place
  | terminalStdioOpen process place => exact isExact.terminalStdioOpen place
  | pipe2 process pipePlace readPlace writePlace cloexec fault =>
    exact isExact.pipe2 pipePlace readPlace writePlace cloexec fault
  | install process fd handle => exact (isExact.install process fd handle).isExact
  | duplicate process oldFd newFd => exact isExact.duplicate process oldFd newFd
  | close process fd => exact isExact.close process fd
  | setCloseOnExec process fd value => exact isExact.setCloseOnExec process fd value
  | closeExec process => exact isExact.closeExec.1
  | clone parent child fault => exact isExact.clone parent child fault
  | undoFinish index => exact isExact.undoFinish index
  | destroy process => exact isExact.destroy.1

lemma Exact.run {s : FdState} (isExact : Exact s [] []) {events : List FdEvent} (met : s.MeetsAll events) :
    Exact (s.run events) [] [] := by
  induction events generalizing s with
  | nil => exact isExact
  | cons event events ih => exact ih (isExact.step met.1) met.2

section Exact
variable {s : FdState} (isExact : Exact s [] [])
include isExact

variable {h : Handle} {object : SharedObject}

lemma Exact.refs_eq (live : s.shared.objects.find h = some object) : object.refs = s.slotsNaming h :=
  (isExact.counted.count h object live).trans (count_names h)

lemma Exact.live_iff : (∃ object, s.shared.objects.find h = some object) ↔ s.slotsNaming h ≠ 0 := by
  rw [slotsNaming, ← count_names, Ne, count_eq_zero, not_not]
  constructor
  · rintro ⟨object, live⟩
    exact (isExact.held h object live).resolve_right not_mem_nil
  · exact isExact.counted.live h

lemma Exact.retires_eq (minted : s.shared.objects.Minted h) :
    s.shared.objects.retires h = if s.slotsNaming h = 0 then 1 else 0 := by
  cases live : s.shared.objects.find h with
  | none =>
    have unnamed : s.slotsNaming h = 0 := by
      by_contra named
      obtain ⟨object, found⟩ := isExact.live_iff.mpr named
      cases live.symm.trans found
    rw [if_pos unnamed, Pool.retires_of_minted minted live]
  | some object => rw [if_neg (isExact.live_iff.mp ⟨object, live⟩), Pool.retires_of_find live]

lemma Exact.release_frees (live : s.shared.objects.find h = some object) :
    (s.shared.unifiedObjectRelease h).1 = .freed ↔ object.refs = 1 := by
  have pos : object.refs ≠ 0 := isExact.refs_eq live ▸ isExact.live_iff.mp ⟨object, live⟩
  unfold Shared.unifiedObjectRelease Shared.unifiedObjectReleaseLocked
  rw [live]
  simp only [if_neg (show ¬object.refs < 1 by omega)]
  by_cases last : object.refs = 1
  · rw [if_pos (by omega)]
    simp only [Option.bind_some]
    refine iff_of_true ?_ last
    split <;> rfl
  · rw [if_neg (by omega)]
    exact iff_of_false nofun last

lemma Exact.endCloses_eq {e : PipeEnd} (minted : s.shared.pipes.Minted e.pipe) :
    ((∃ h, Owns s.shared.objects h e) → s.shared.endCloses e = 0) ∧
      ((¬∃ h, Owns s.shared.objects h e) → s.shared.endCloses e = 1) := by
  have opened : Open s.shared.pipes e ↔ ∃ h, Owns s.shared.objects h e := by
    simpa using isExact.ends.opened e
  exact ⟨fun owned => isExact.ends.unclosed e (.inl (opened.mpr owned)),
    fun unowned => isExact.ends.closed e minted fun isOpen => unowned (opened.mp isOpen)⟩

end Exact

/-- The lowest vacant descriptor at or above `first` is granted where it is below the soft limit. -/
theorem unifiedFdAlloc_lowest {s : FdState} {process : ℕ} {ctx : ProcessFdContext}
    (table : s.contexts.lookup process = some ctx) (first : ℕ) :
    ∃ fd, IsLeast {fd | first ≤ fd ∧ ∀ entry, ctx.entryAt fd = some entry → entry.kind = .empty} fd ∧
      s.unifiedFdAlloc process first = if fd < ctx.fdLimitSoft then .allocated fd else .full := by
  have scanned := allocScan_spec ctx.fdLimitSoft first 0 ctx.entries
  simp only [Nat.zero_le, true_and, Nat.sub_zero] at scanned
  simp only [unifiedFdAlloc, table, ProcessFdContext.entryAt_eq]
  exact scanned

/-- Descriptor references are exact in every run. -/
theorem descriptor_references_exact (pages : ℕ) (events : List FdEvent)
    (met : (boot pages).MeetsAll events) :
    let s := (boot pages).run events
    (∀ h object, s.shared.objects.find h = some object →
      object.refs = s.slotsNaming h ∧ ((s.shared.unifiedObjectRelease h).1 = .freed ↔ object.refs = 1)) ∧
    (∀ h, s.shared.objects.Minted h → s.shared.objects.retires h = if s.slotsNaming h = 0 then 1 else 0) ∧
    (∀ e, s.shared.pipes.Minted e.pipe →
      ((∃ h, Owns s.shared.objects h e) → s.shared.endCloses e = 0) ∧
      ((¬∃ h, Owns s.shared.objects h e) → s.shared.endCloses e = 1)) ∧
    s.shared.fdSlotTotal = fdBlockSlots * s.chainBlocks ∧ s.shared.fdBlocks = s.chainBlocks ∧
    s.shared.refBoundBreaks = 0 ∧
    ∀ process ctx, s.contexts.lookup process = some ctx → ∀ first, ∃ fd,
      IsLeast {fd | first ≤ fd ∧ ∀ entry, ctx.entryAt fd = some entry → entry.kind = .empty} fd ∧
      s.unifiedFdAlloc process first = if fd < ctx.fdLimitSoft then .allocated fd else .full := by
  intro s
  have isExact : Exact s [] [] := (Exact.boot pages).run met
  have blocks : s.shared.fdBlocks = s.chainBlocks :=
    Nat.eq_of_mul_eq_mul_left (show 0 < fdBlockSlots by decide) (isExact.blocks.symm.trans s.length_slots)
  exact ⟨fun h object live => ⟨isExact.refs_eq live, isExact.release_frees live⟩,
    fun h minted => isExact.retires_eq minted, fun e minted => isExact.endCloses_eq minted,
    isExact.total.trans s.length_slots, blocks, isExact.bounded,
    fun process ctx table first => unifiedFdAlloc_lowest table first⟩

def pipeRun : List FdEvent :=
  [.memory 4, .contextEnsure 0 true, .contextEnsure 1 true, .pipe2 0 (some 0) (some 0) (some 1) false false,
    .clone 0 1 (some 1), .undoFinish 0, .duplicate 0 1 5, .close 0 1, .destroy 0, .contextRelease 0]

theorem descriptor_references_exact_pipeRun : (boot 64).MeetsAll pipeRun ∧
      ((boot 64).run pipeRun).shared.objects.retires ⟨1, 1⟩ = 1 := by
  have met : (boot 64).MeetsAll pipeRun := by
    refine ⟨trivial, trivial, trivial, trivial, trivial, trivial, trivial, trivial, trivial, ?_, trivial⟩
    intro ctx table
    cases table
    decide
  refine ⟨met, ?_⟩
  rw [(descriptor_references_exact 64 pipeRun met).2.1 ⟨1, 1⟩ (by decide)]
  decide

/-- The storage of a table that still holds a descriptor goes back, and the object keeps its reference. -/
theorem release_of_open_table_leaks :
    ∃ object, ((boot 64).run [.memory 1, .contextEnsure 0 true, .fileOpen 0 0 (some 5),
        .contextRelease 0]).shared.objects.find ⟨5, 1⟩ = some object ∧ object.refs = 1 ∧
      ((boot 64).run [.memory 1, .contextEnsure 0 true, .fileOpen 0 0 (some 5),
        .contextRelease 0]).slotsNaming ⟨5, 1⟩ = 0 := ⟨_, rfl, rfl, by decide⟩

end Takibi.Fd
