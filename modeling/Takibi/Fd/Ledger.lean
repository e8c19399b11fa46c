import Takibi.Fd.Table

/-! What the shared records owe to the slots of the tables: every object counts the slots that name it, the
slot total counts the slots, and every open end of a pipe has one owner. -/

namespace Takibi.Fd
open Stamped Pool List Function Shared Option Nat

def names (slots : List FdEntry) : List Handle := (slots.filter (·.kind ≠ .empty)).map FdEntry.handle

section Names
variable {slots slots' : List FdEntry} {entry : FdEntry}

lemma names_append : names (slots ++ slots') = names slots ++ names slots' := by simp [names]

lemma names_cons_used (used : entry.kind ≠ .empty) : names (entry :: slots) = entry.handle :: names slots := by
  simp [names, used]

lemma names_cons_empty (unused : entry.kind = .empty) : names (entry :: slots) = names slots := by
  simp [names, unused]

lemma names_of_empty (unused : ∀ entry ∈ slots, entry.kind = .empty) : names slots = [] := by
  rw [names, filter_eq_nil_iff.mpr, map_nil]
  simpa using unused

lemma names_perm (perm : slots.Perm slots') : (names slots).Perm (names slots') := (perm.filter _).map _

lemma length_names_le : (names slots).length ≤ slots.length := by
  simpa [names] using length_filter_le _ slots

lemma count_names (h : Handle) :
    (names slots).count h = slots.countP fun entry => entry.kind ≠ .empty ∧ entry.handle = h := by
  induction slots with
  | nil => rfl
  | cons entry slots ih =>
    by_cases unused : entry.kind = .empty
    · rw [names_cons_empty unused, ih, countP_cons_of_neg (by simp [unused])]
    · rw [names_cons_used unused, count_cons, ih, countP_cons]
      simp [unused]

end Names

/-! ### Pipe ends -/

def Open (pipes : Pool Pipe) (e : PipeEnd) : Prop := ∃ pipe, pipes.find e.pipe = some pipe ∧ pipe.isOpen e.reader

def Owns (objects : Pool SharedObject) (h : Handle) (e : PipeEnd) : Prop :=
  ∃ object, objects.find h = some object ∧ object.pipeEnd = some e

structure Ends (pipes : Pool Pipe) (closes : PipeEnd → ℕ) (owner : Handle → PipeEnd → Prop)
    (owed : List PipeEnd) : Prop where
  opened : ∀ e, Open pipes e ↔ (∃ h, owner h e) ∨ e ∈ owed
  one : ∀ h h' e, owner h e → owner h' e → h = h'
  apart : ∀ h e, owner h e → e ∉ owed
  nodup : owed.Nodup
  unclosed : ∀ e, Open pipes e ∨ ¬pipes.Minted e.pipe → closes e = 0
  closed : ∀ e, pipes.Minted e.pipe → ¬Open pipes e → closes e = 1

namespace Ends
variable {pipes pipes' : Pool Pipe} {closes : PipeEnd → ℕ} {owner owner' : Handle → PipeEnd → Prop}
  {owed : List PipeEnd} {h : Handle} {e : PipeEnd}

section
variable (ends : Ends pipes closes owner owed)
include ends

lemma congr (same : ∀ h e, owner' h e ↔ owner h e) : Ends pipes closes owner' owed := by
  have : owner' = owner := funext₂ fun h e => propext (same h e)
  exact this ▸ ends

lemma give (mem : e ∈ owed) (changed : ∀ h' e', owner' h' e' ↔ owner h' e' ∨ (h' = h ∧ e' = e)) :
    Ends pipes closes owner' (owed.erase e) where
  opened e' := by
    rw [ends.opened e', ends.nodup.mem_erase_iff]
    simp only [changed]
    grind
  one h₁ h₂ e' own₁ own₂ := by
    rw [changed] at own₁ own₂
    rcases own₁ with own₁ | ⟨rfl, rfl⟩ <;> rcases own₂ with own₂ | ⟨rfl, same⟩
    · exact ends.one _ _ _ own₁ own₂
    · exact absurd mem (ends.apart _ _ (same ▸ own₁))
    · exact absurd mem (ends.apart _ _ own₂)
    · rfl
  apart h' e' own memErase := by
    rw [ends.nodup.mem_erase_iff] at memErase
    rcases (changed h' e').mp own with own | ⟨-, rfl⟩
    · exact ends.apart _ _ own memErase.2
    · exact memErase.1 rfl
  nodup := ends.nodup.erase e
  unclosed := ends.unclosed
  closed := ends.closed

lemma take (own : owner h e) (changed : ∀ h' e', owner' h' e' ↔ h' ≠ h ∧ owner h' e')
    (only : ∀ e', owner h e' → e' = e) :
    Ends pipes closes owner' (e :: owed) where
  opened e' := by
    rw [ends.opened e', mem_cons]
    simp only [changed]
    constructor
    · rintro (⟨h', own'⟩ | mem)
      · by_cases same : h' = h
        · exact .inr (.inl (only e' (same ▸ own')))
        · exact .inl ⟨h', same, own'⟩
      · exact .inr (.inr mem)
    · rintro (⟨h', -, own'⟩ | rfl | mem)
      · exact .inl ⟨h', own'⟩
      · exact .inl ⟨h, own⟩
      · exact .inr mem
  one h₁ h₂ e' own₁ own₂ := ends.one _ _ _ ((changed _ _).mp own₁).2 ((changed _ _).mp own₂).2
  apart h' e' own' mem := by
    obtain ⟨ne, own'⟩ := (changed _ _).mp own'
    rcases mem_cons.mp mem with rfl | mem
    · exact ne (ends.one _ _ _ own' own)
    · exact ends.apart _ _ own' mem
  nodup := nodup_cons.mpr ⟨ends.apart _ _ own, ends.nodup⟩
  unclosed := ends.unclosed
  closed := ends.closed

lemma close (mem : e ∈ owed) (minted : ∀ h, pipes'.Minted h ↔ pipes.Minted h)
    (shut : ∀ e', Open pipes' e' ↔ Open pipes e' ∧ e' ≠ e) :
    Ends pipes' (update closes e (closes e + 1)) owner (owed.erase e) where
  opened e' := by
    rw [shut, ends.opened e', ends.nodup.mem_erase_iff]
    have := fun h (own : owner h e) => ends.apart h e own mem
    grind
  one := ends.one
  apart h e' own memErase := ends.apart h e' own (mem_of_mem_erase memErase)
  nodup := ends.nodup.erase e
  unclosed e' cause := by
    have wasOpen : Open pipes e := (ends.opened e).mpr (.inr mem)
    have isMinted : pipes.Minted e.pipe := find_minted wasOpen.choose_spec.1
    rw [shut, minted] at cause
    have ne : e' ≠ e := by
      rintro rfl
      exact cause.elim (fun c => c.2 rfl) (fun c => c isMinted)
    rw [update_of_ne ne]
    exact ends.unclosed e' (cause.imp_left And.left)
  closed e' isMinted notOpen := by
    rw [shut] at notOpen
    by_cases same : e' = e
    · subst same
      rw [update_self, ends.unclosed e' (.inl ((ends.opened e').mpr (.inr mem)))]
    · rw [update_of_ne same]
      exact ends.closed e' ((minted _).mp isMinted) fun o => notOpen ⟨o, same⟩

end

lemma make (ends : Ends pipes closes owner []) {slot : ℕ} {pipe : Handle}
    (made : pipes.alloc slot ⟨true, true⟩ = some (pipe, pipes')) :
    Ends pipes' closes owner [⟨pipe, true⟩, ⟨pipe, false⟩] := by
  have opens : ∀ e, Open pipes' e ↔ Open pipes e ∨ e.pipe = pipe := by
    intro e
    unfold Open
    by_cases same : e.pipe = pipe
    · rw [same, find_alloc_self made]
      simp [Pipe.isOpen]
    · rw [find_alloc_of_ne made same]
      simp [same]
  have unknown : ∀ e : PipeEnd, e.pipe = pipe → ¬Open pipes e := by
    rintro e rfl ⟨p, found, -⟩
    rw [find_before_alloc made] at found
    cases found
  have both : ∀ e : PipeEnd, e ∈ [(⟨pipe, true⟩ : PipeEnd), ⟨pipe, false⟩] ↔ e.pipe = pipe := by
    rintro ⟨p, reader⟩
    cases reader <;> simp
  have owned : ∀ e, Open pipes e ↔ ∃ h, owner h e := fun e => by simpa using ends.opened e
  constructor
  case opened =>
    intro e
    rw [opens, both, owned]
  case one => exact ends.one
  case apart =>
    intro h e own mem
    exact unknown e ((both e).mp mem) ((owned e).mpr ⟨h, own⟩)
  case nodup => simp
  case unclosed =>
    intro e cause
    rw [opens, minted_alloc made] at cause
    apply ends.unclosed
    by_cases same : e.pipe = pipe
    · exact .inr (same ▸ not_minted_before_alloc made)
    · exact cause.imp (fun o => o.resolve_right same) fun m known => m (.inl known)
  case closed =>
    intro e minted notOpen
    rw [opens, not_or] at notOpen
    rw [minted_alloc made] at minted
    exact ends.closed e (minted.resolve_right notOpen.2) notOpen.1

end Ends

section Close
variable (pipes : Pool Pipe) (e : PipeEnd)

lemma pipeEndMark_isOpen (pipe : Pipe) (marked reader : Bool) :
    (pipeEndMark marked pipe).isOpen reader ↔ pipe.isOpen reader ∧ reader ≠ marked := by
  cases reader <;> cases marked <;> simp [pipeEndMark, Pipe.isOpen]

lemma open_mark (e' : PipeEnd) :
    Open (pipes.modify e.pipe (pipeEndMark e.reader)) e' ↔ Open pipes e' ∧ e' ≠ e := by
  obtain ⟨pipe', reader'⟩ := e'
  obtain ⟨pipe, reader⟩ := e
  unfold Open
  rw [find_modify]
  by_cases same : pipe' = pipe
  · subst same
    simp only [if_true, map_eq_some_iff]
    constructor
    · rintro ⟨_, ⟨record, found, rfl⟩, isOpen⟩
      rw [pipeEndMark_isOpen] at isOpen
      exact ⟨⟨record, found, isOpen.1⟩, fun eq => isOpen.2 (congrArg PipeEnd.reader eq)⟩
    · rintro ⟨⟨record, found, isOpen⟩, ne⟩
      exact ⟨_, ⟨record, found, rfl⟩, (pipeEndMark_isOpen _ _ _).mpr ⟨isOpen, fun eq => ne (eq ▸ rfl)⟩⟩
  · simp [same]

lemma open_retire (shut : ∀ e', Open pipes e' → e'.pipe ≠ e.pipe) (e' : PipeEnd) :
    Open (pipes.retire e.pipe) e' ↔ Open pipes e' := by
  unfold Open
  rw [find_retire]
  split
  case isTrue same =>
    exact iff_of_false (fun ⟨_, found, _⟩ => nomatch found) fun isOpen => shut e' isOpen same
  case isFalse => rfl

end Close

/-! ### The ledger -/

structure Ledger (shared : Shared) (slots : List FdEntry) (owed : List PipeEnd) (fresh : List Handle) : Prop where
  counted : Counted SharedObject.refs shared.objects (names slots)
  held : ∀ h object, shared.objects.find h = some object → h ∈ names slots ∨ h ∈ fresh
  total : shared.fdSlotTotal = slots.length
  blocks : slots.length = fdBlockSlots * shared.fdBlocks
  bounded : shared.refBoundBreaks = 0
  single : shared.doubleReleases = 0
  ends : Ends shared.pipes shared.endCloses (Owns shared.objects) owed

namespace Ledger
variable {shared shared' : Shared} {slots slots' : List FdEntry} {entry : FdEntry} {owed : List PipeEnd}
  {fresh : List Handle} {h : Handle} {object : SharedObject} {e : PipeEnd}

section
variable (ledger : Ledger shared slots owed fresh)
include ledger

lemma congr (same : (names slots).Perm (names slots')) (length : slots.length = slots'.length) :
    Ledger shared slots' owed fresh :=
  { ledger with
    counted := ledger.counted.perm same
    held := fun h object found => (ledger.held h object found).imp_left same.mem_iff.mp
    total := ledger.total.trans length
    blocks := length.symm.trans ledger.blocks }

lemma perm (perm : slots.Perm slots') :
    Ledger shared slots' owed fresh := ledger.congr (names_perm perm) perm.length_eq

lemma mono {fresh' : List Handle} (sub : fresh ⊆ fresh') : Ledger shared slots owed fresh' :=
  { ledger with held := fun h object found => (ledger.held h object found).imp_right fun mem => sub mem }

lemma room (room : ℕ) : Ledger { shared with room } slots owed fresh := { ledger with }

end

lemma owns_modify {f : SharedObject → SharedObject} (keeps : ∀ o, (f o).pipeEnd = o.pipeEnd)
    (objects : Pool SharedObject) (h h' : Handle) (e : PipeEnd) :
    Owns (objects.modify h f) h' e ↔ Owns objects h' e := by
  unfold Owns
  rw [find_modify]
  split
  · simp [keeps]
  · rfl

lemma owns_only {objects : Pool SharedObject} (found : objects.find h = some object)
    (own : Owns objects h e) : object.pipeEnd = some e := by
  obtain ⟨object', found', pipeEnd⟩ := own
  rw [found] at found'
  cases found'
  exact pipeEnd

lemma refs_lt (ledger : Ledger shared (entry :: slots) owed fresh) (unused : entry.kind = .empty)
    (found : shared.objects.find h = some object) : object.refs < shared.fdSlotTotal := by
  have count := ledger.counted.count h object found
  rw [names_cons_empty unused] at count
  calc object.refs = (names slots).count h := count
    _ ≤ (names slots).length := count_le_length
    _ ≤ slots.length := length_names_le
    _ < shared.fdSlotTotal := by
      rw [ledger.total]
      exact lt_succ_self _

lemma retain (ledger : Ledger shared (entry :: slots) owed fresh) (unused : entry.kind = .empty)
    (found : shared.objects.find h = some object) (entry' : FdEntry) (used : entry'.kind ≠ .empty)
    (handle : entry'.handle = h) :
    ∃ shared', shared.unifiedObjectRetain h = (.ok, shared') ∧
      Ledger shared' (entry' :: slots) owed (fresh.filter (· ≠ h)) := by
  have counted := ledger.counted
  rw [names_cons_empty unused] at counted
  refine ⟨shared.storeRefs h (· + 1), ?_, ?_⟩
  · unfold unifiedObjectRetain
    rw [found]
    exact if_neg (Nat.not_le.mpr (ledger.refs_lt unused found))
  refine { ledger with counted := ?counted, held := ?held, ends := ?ends }
  case counted =>
    rw [names_cons_used used, handle]
    exact counted.retain found rfl
  case held =>
    intro h' object' found'
    rw [names_cons_used used, handle]
    by_cases same : h' = h
    · exact .inl (same ▸ mem_cons_self)
    · rw [storeRefs, find_modify_of_ne _ same] at found'
      have := ledger.held h' object' found'
      rw [names_cons_empty unused] at this
      exact this.imp (mem_cons_of_mem _) fun mem => mem_filter.mpr ⟨mem, by simpa using same⟩
  case ends => exact ledger.ends.congr fun _ _ => owns_modify (fun _ => by rfl) _ _ _ _

lemma ends_gone {objects : Pool SharedObject} (ledger : Ledger shared slots owed fresh)
    (found : shared.objects.find h = some object)
    (gone : ∀ h', objects.find h' = if h' = h then none else shared.objects.find h') :
    Ends shared.pipes shared.endCloses (Owns objects) (object.pipeEnd.toList ++ owed) := by
  have changed : ∀ h' e, Owns objects h' e ↔ h' ≠ h ∧ Owns shared.objects h' e := by
    intro h' e
    unfold Owns
    rw [gone]
    split
    case isTrue same => simp [same]
    case isFalse ne => simp [ne]
  cases hasEnd : object.pipeEnd with
  | none =>
    refine ledger.ends.congr fun h' e => (changed h' e).trans (and_iff_right_of_imp ?_)
    rintro own rfl
    exact nomatch hasEnd.symm.trans (owns_only found own)
  | some e =>
    exact ledger.ends.take ⟨object, found, hasEnd⟩ changed fun e' own =>
      some.inj ((owns_only found own).symm.trans hasEnd)

lemma pipeEndClose (ledger : Ledger shared slots owed fresh) (mem : e ∈ owed) :
    Ledger (shared.pipeEndClose e) slots (owed.erase e) fresh := by
  obtain ⟨pipe, found, isOpen⟩ := (ledger.ends.opened e).mpr (.inr mem)
  have marked := open_mark shared.pipes e
  unfold Shared.pipeEndClose
  rw [found]
  dsimp only
  split
  case isTrue =>
    exact { ledger with ends := ledger.ends.close mem (fun _ => Iff.rfl) marked }
  case isFalse other =>
    refine { ledger with ends := ledger.ends.close mem (fun _ => minted_retire) fun e' => ?_ }
    rw [open_retire _ e, marked]
    rintro ⟨pipe', reader'⟩ stillOpen rfl
    obtain ⟨⟨record, found', isOpen'⟩, ne⟩ := (marked _).mp stillOpen
    rw [found] at found'
    cases found'
    have flipped : reader' = !e.reader := by
      cases e
      simpa [Bool.eq_not] using ne
    exact other (flipped ▸ isOpen')

lemma release (ledger : Ledger shared (entry :: slots) owed fresh) (used : entry.kind ≠ .empty)
    (entry' : FdEntry) (unused : entry'.kind = .empty) :
    ∃ result shared', shared.unifiedObjectRelease entry.handle = (result, shared') ∧ result ≠ .invalid ∧
      Ledger shared' (entry' :: slots) owed fresh := by
  have counted := ledger.counted
  rw [names_cons_used used] at counted
  obtain ⟨object, found⟩ := counted.live _ mem_cons_self
  have count := counted.count _ object found
  rw [count_cons_self] at count
  have held : ∀ h' object', h' ≠ entry.handle → shared.objects.find h' = some object' →
      h' ∈ names (entry' :: slots) ∨ h' ∈ fresh := by
    intro h' object' ne found'
    have := ledger.held h' object' found'
    rw [names_cons_used used] at this
    rw [names_cons_empty unused]
    exact this.imp_left fun mem => (mem_cons.mp mem).resolve_left ne
  unfold unifiedObjectRelease unifiedObjectReleaseLocked
  rw [found]
  simp only [if_neg (show ¬object.refs < 1 by omega)]
  by_cases more : entry.handle ∈ names slots
  · have pos := count_pos_iff.mpr more
    rw [if_neg (by omega)]
    refine ⟨_, _, rfl, nofun, ?_⟩
    refine { ledger with counted := ?counted, held := ?held, ends := ?ends }
    case counted =>
      rw [names_cons_empty unused]
      exact counted.release found more rfl
    case held =>
      intro h' object' found'
      by_cases same : h' = entry.handle
      · rw [names_cons_empty unused]
        exact .inl (same ▸ more)
      · exact held h' object' same (by rwa [storeRefs, find_modify_of_ne _ same] at found')
    case ends => exact ledger.ends.congr fun _ _ => owns_modify (fun _ => by rfl) _ _ _ _
  · have zero := count_eq_zero_of_not_mem more
    rw [if_pos (by omega)]
    have gone : ∀ h', ((shared.storeRefs entry.handle (· - 1)).objects.retire entry.handle).find h' =
        if h' = entry.handle then none else shared.objects.find h' := by
      intro h'
      rw [find_retire]
      split
      case isTrue => rfl
      case isFalse ne => exact find_modify_of_ne _ ne
    have freed : Ledger ((shared.storeRefs entry.handle (· - 1)).unifiedObjectFree entry.handle)
        (entry' :: slots) (object.pipeEnd.toList ++ owed) fresh := by
      refine { ledger with counted := ?counted, held := ?held, ends := ?ends }
      case counted =>
        rw [names_cons_empty unused]
        exact counted.retire_last more gone
      case held =>
        intro h' object' found'
        rw [unifiedObjectFree, gone] at found'
        split at found'
        case isTrue => cases found'
        case isFalse ne => exact held h' object' ne found'
      case ends => exact ledger.ends_gone found gone
    cases hasEnd : object.pipeEnd with
    | none =>
      rw [hasEnd] at freed
      simp only [bind_some, hasEnd]
      exact ⟨_, _, rfl, nofun, freed⟩
    | some e =>
      rw [hasEnd] at freed
      simp only [bind_some, hasEnd]
      refine ⟨_, _, rfl, nofun, ?_⟩
      simpa using freed.pipeEndClose (e := e) (by simp)

lemma allocFirst (ledger : Ledger shared slots (object.pipeEnd.toList ++ owed) []) {place : Option ℕ}
    (made : shared.unifiedObjectAllocFirst object place = (.allocated h, shared')) :
    Ledger shared' slots owed [h] ∧ shared'.objects.find h = some { object with refs := 0 } ∧
      h ∉ names slots := by
  unfold unifiedObjectAllocFirst at made
  split at made
  · cases made
  split at made
  · cases made
  rename_i objects granted
  cases made
  obtain ⟨slot, -, granted⟩ := bind_eq_some_iff.mp granted
  refine ⟨?_, find_alloc_self granted, ledger.counted.not_mem_of_alloc granted⟩
  refine { ledger with counted := ?counted, held := ?held, ends := ?ends }
  case counted => exact ledger.counted.alloc granted rfl
  case held =>
    intro h' object' found'
    by_cases same : h' = h
    · exact .inr (by simp [same])
    · rw [find_alloc_of_ne granted same] at found'
      exact .inl ((ledger.held h' object' found').resolve_right not_mem_nil)
  case ends =>
    have changed : ∀ h' e, Owns objects h' e ↔ Owns shared.objects h' e ∨ (h' = h ∧ object.pipeEnd = some e) := by
      intro h' e
      unfold Owns
      by_cases same : h' = h
      · subst same
        simp only [find_alloc_self granted, find_before_alloc granted]
        simp [SharedObject.pipeEnd]
      · rw [find_alloc_of_ne granted same]
        simp [same]
    have ends := ledger.ends
    cases isEnd : object.pipeEnd with
    | none =>
      rw [isEnd] at ends
      exact ends.congr fun h' e => by simpa [isEnd] using changed h' e
    | some e =>
      rw [isEnd] at ends
      have given : ∀ h' e', Owns objects h' e' ↔ Owns shared.objects h' e' ∨ (h' = h ∧ e' = e) :=
        fun h' e' => by rw [changed, isEnd, some.injEq, eq_comm (a := e)]
      simpa using ends.give (by simp) given

lemma objectFree (ledger : Ledger shared slots owed [h]) (found : shared.objects.find h = some object)
    (unnamed : h ∉ names slots) :
    Ledger (shared.unifiedObjectFree h) slots (object.pipeEnd.toList ++ owed) [] := by
  refine { ledger with
    counted := ledger.counted.retire unnamed
    held := fun h' object' found' => ?_
    ends := ledger.ends_gone found fun _ => find_retire }
  rw [unifiedObjectFree, find_retire] at found'
  split at found'
  case isTrue => cases found'
  case isFalse ne => exact (ledger.held h' object' found').imp_right fun mem => absurd (by simpa using mem) ne

lemma blockAlloc (ledger : Ledger shared slots owed fresh) (granted : shared.fdBlockAlloc = some shared') :
    Ledger shared' (slots ++ replicate fdBlockSlots .unused) owed fresh := by
  unfold fdBlockAlloc at granted
  split at granted
  · cases granted
  cases granted
  have same : names (slots ++ replicate fdBlockSlots .unused) = names slots := by
    have unused : ∀ entry ∈ replicate fdBlockSlots FdEntry.unused, entry.kind = .empty :=
      fun entry mem => by rw [eq_of_mem_replicate mem]; rfl
    rw [names_append, names_of_empty unused, append_nil]
  refine { ledger with
    counted := same ▸ ledger.counted, held := same ▸ ledger.held, total := ?total, blocks := ?blocks }
  case total =>
    rw [length_append, length_replicate]
    exact congrArg (· + fdBlockSlots) ledger.total
  case blocks =>
    rw [length_append, length_replicate, ledger.blocks]
    exact (mul_succ _ _).symm

lemma blockFree (ledger : Ledger shared (slots' ++ slots) owed fresh)
    (unused : ∀ entry ∈ slots', entry.kind = .empty) (length : slots'.length = fdBlockSlots) :
    Ledger shared.fdBlockFree slots owed fresh := by
  have same : names (slots' ++ slots) = names slots := by rw [names_append, names_of_empty unused, nil_append]
  have total := ledger.total
  have blocks := ledger.blocks
  rw [length_append, length] at total blocks
  refine { ledger with
    counted := same ▸ ledger.counted, held := same ▸ ledger.held, total := ?total, blocks := ?blocks }
  case total =>
    unfold fdBlockFree
    dsimp only
    rw [if_pos (by omega)]
    omega
  case blocks =>
    unfold fdBlockFree
    dsimp only
    rw [mul_sub_one]
    omega

end Ledger
end Takibi.Fd
