import Takibi.Cyclic.Window

/-! The console's transmit queue: a ring of bytes with a tag each. A terminal flush compacts it in place over the
bytes of terminal output. -/

namespace Takibi.Printk
open Function Cyclic List Nat

def txQueueBytes : ℕ := 512

/-- The count is the word beside the state. The queue does not look into its bytes. -/
structure KernelLogTx (α : Type*) where
  head : ℕ
  tail : ℕ
  wireLast : α
  queue : ℕ → α
  terminal : ℕ → Bool
  count : ℕ

variable {α : Type*}

namespace KernelLogTx
variable (s : KernelLogTx α)

def push (value : α) (terminal : Bool) : Bool × KernelLogTx α :=
  if s.count ≥ txQueueBytes then (false, s)
  else if s.tail < txQueueBytes then
    (true, { s with
      queue := update s.queue s.tail value
      terminal := update s.terminal s.tail terminal
      wireLast := value
      tail := (s.tail + 1) % txQueueBytes
      count := s.count + 1 })
  else (false, s)

def pop : Option α × KernelLogTx α :=
  if s.count = 0 then (none, s)
  else if s.head < txQueueBytes then
    (some (s.queue s.head), { s with head := (s.head + 1) % txQueueBytes, count := s.count - 1 })
  else (none, s)

def keepRound (count : ℕ) (r : ℕ × KernelLogTx α) (offset : ℕ) : ℕ × KernelLogTx α :=
  let (retained, s) := r
  if offset < count then
    let source := (s.head + offset) % txQueueBytes
    if source < txQueueBytes ∧ s.terminal source = false then
      let target := (s.head + retained) % txQueueBytes
      if target < txQueueBytes then
        (retained + 1, { s with
          queue := update s.queue target (s.queue source), terminal := update s.terminal target false })
      else r
    else r
  else r

def keepKernelBytes (count : ℕ) : ℕ × KernelLogTx α :=
  let (retained, s) := (range txQueueBytes).foldl (keepRound count) (0, s)
  (retained, { s with tail := (s.head + retained) % txQueueBytes })

/-- The queue's part of `uart_terminal_flush_output`, and how many bytes it drops. -/
def flush : ℕ × KernelLogTx α :=
  let (kept, s') := s.keepKernelBytes s.count
  (s.count - kept, { s' with count := kept })

/-! ## What is queued -/

def cell (i : ℕ) : α × Bool := (s.queue i, s.terminal i)
def contents : List (α × Bool) := window txQueueBytes s.cell s.head s.count

structure Ok : Prop where
  head_lt : s.head < txQueueBytes
  count_le : s.count ≤ txQueueBytes
  tail_eq : s.tail = (s.head + s.count) % txQueueBytes

variable {s}

lemma length_contents : s.contents.length = s.count := length_window

lemma cell_update (i : ℕ) (value : α) (tag : Bool) :
    (fun j => (update s.queue i value j, update s.terminal i tag j)) = update s.cell i (value, tag) := by
  funext j
  by_cases hj : j = i
  · simp [hj]
  · simp [cell, hj]

lemma Ok.push (h : s.Ok) (hroom : s.count < txQueueBytes) (value : α) (tag : Bool) :
    (s.push value tag).1 = true ∧ (s.push value tag).2.Ok ∧ (s.push value tag).2.wireLast = value ∧
      (s.push value tag).2.contents = s.contents ++ [(value, tag)] := by
  have htail : s.tail < txQueueBytes := h.tail_eq ▸ mod_lt _ (by decide)
  rw [KernelLogTx.push, if_neg (not_le.mpr hroom), if_pos htail]
  refine ⟨rfl, ⟨h.head_lt, hroom, ?_⟩, rfl, ?_⟩
  · dsimp only
    rw [h.tail_eq, mod_add_mod, Nat.add_assoc]
  · have hcell := cell_update (s := s) s.tail value tag
    rw [h.tail_eq] at hcell
    change window _ _ s.head (s.count + 1) = window _ s.cell s.head s.count ++ [(value, tag)]
    rw [← window_push h.head_lt hroom, ← hcell, ← h.tail_eq]
    rfl

lemma push_full (hfull : txQueueBytes ≤ s.count) (value : α) (tag : Bool) : s.push value tag = (false, s) :=
  if_pos hfull

lemma pop_nil (h : s.contents = []) : s.pop = (none, s) := by
  have hcount := length_contents (s := s)
  rw [h, length_nil] at hcount
  exact if_pos hcount.symm

lemma Ok.pop (h : s.Ok) {e : α × Bool} {l : List (α × Bool)} (hl : s.contents = e :: l) :
    s.pop.1 = some e.1 ∧ s.pop.2.Ok ∧ s.pop.2.wireLast = s.wireLast ∧ s.pop.2.contents = l := by
  have hcount := length_contents (s := s)
  rw [hl, length_cons] at hcount
  have hle := h.count_le
  obtain ⟨hfirst, hrest⟩ : s.cell s.head = e ∧ window txQueueBytes s.cell (s.head + 1) l.length = l := by
    rw [contents, ← hcount, window_cons, mod_eq_of_lt h.head_lt] at hl
    exact cons.inj hl
  rw [KernelLogTx.pop, if_neg (by omega), if_pos h.head_lt]
  refine ⟨congrArg (fun c => some c.1) hfirst, ⟨mod_lt _ (by decide), ?_, ?_⟩, rfl, ?_⟩
  · dsimp only
    omega
  · dsimp only
    rw [h.tail_eq, mod_add_mod, Nat.add_assoc, show 1 + (s.count - 1) = s.count by omega]
  · rw [contents]
    dsimp only
    rw [window_mod, ← hcount, Nat.add_sub_cancel]
    exact hrest

structure Kept (before : KernelLogTx α) (k : ℕ) (r : ℕ × KernelLogTx α) : Prop where
  head : r.2.head = before.head
  wireLast : r.2.wireLast = before.wireLast
  count : r.2.count = before.count
  retained_le : r.1 ≤ k
  front : window txQueueBytes r.2.cell before.head r.1 =
    (window txQueueBytes before.cell before.head k).filter fun c => !c.2
  rest : ∀ j, k ≤ j → j < before.count →
    r.2.cell ((before.head + j) % txQueueBytes) = before.cell ((before.head + j) % txQueueBytes)

lemma Kept.round (h : s.Ok) {k : ℕ} {r : ℕ × KernelLogTx α} (hk : k < s.count) (hr : Kept s k r) :
    Kept s (k + 1) (keepRound s.count r k) := by
  obtain ⟨retained, s'⟩ := r
  have hlt : k < txQueueBytes := hk.trans_le h.count_le
  have hsource := hr.rest k le_rfl hk
  have hretained := hr.retained_le
  have hhead := hr.head
  dsimp only at hretained hhead
  rw [keepRound]
  dsimp only
  rw [if_pos hk, hhead]
  by_cases htag : s'.terminal ((s.head + k) % txQueueBytes) = false
  · have hkept : s.cell ((s.head + k) % txQueueBytes) = (s'.queue ((s.head + k) % txQueueBytes), false) := by
      rw [← hsource, cell, htag]
    rw [if_pos ⟨mod_lt _ (by decide), htag⟩, if_pos (mod_lt _ (by decide))]
    refine ⟨rfl, hr.wireLast, hr.count, succ_le_succ hretained, ?_, fun j hj hjc => ?_⟩
    · change window _ (fun i => (update s'.queue _ _ i, update s'.terminal _ _ i)) _ _ = _
      rw [cell_update, window_push h.head_lt (by omega), window_concat, filter_append, ← hr.front, hkept]
      rfl
    · -- The target is not behind the source.
      refine (congrFun (cell_update (s := s') _ _ _) _).trans ?_
      rw [update_of_ne, hr.rest j (by omega) hjc]
      exact (index_ne h.head_lt (by omega) (hjc.trans_le h.count_le)).symm
  · have hdropped : (s.cell ((s.head + k) % txQueueBytes)).2 = true := by
      rw [← hsource]
      exact Bool.eq_true_of_not_eq_false htag
    rw [if_neg fun hboth => htag hboth.2]
    refine ⟨hr.head, hr.wireLast, hr.count, hretained.trans (le_succ k), ?_, fun j hj => hr.rest j (by omega)⟩
    rw [hr.front, window_concat, filter_append, filter_singleton, hdropped]
    simp

lemma kept_rounds (h : s.Ok) (n : ℕ) :
    Kept s (min n s.count) ((range n).foldl (keepRound s.count) (0, s)) := by
  induction n with
  | zero => exact ⟨rfl, rfl, rfl, zero_le _, by simp, fun _ _ _ => rfl⟩
  | succ n ih =>
    rw [range_succ, foldl_append]
    by_cases hn : n < s.count
    · rw [min_eq_left hn.le] at ih
      rw [min_eq_left hn]
      exact Kept.round h hn ih
    · rw [min_eq_right (not_lt.mp hn)] at ih
      rw [min_eq_right (by omega)]
      simpa only [foldl_cons, foldl_nil, keepRound, if_neg hn] using ih

lemma Ok.flush (h : s.Ok) :
    s.flush.1 = s.contents.countP Prod.snd ∧ s.flush.2.Ok ∧ s.flush.2.wireLast = s.wireLast ∧
      s.flush.2.contents = s.contents.filter fun c => !c.2 := by
  have hkept := kept_rounds h txQueueBytes
  rw [min_eq_right h.count_le] at hkept
  rw [KernelLogTx.flush, keepKernelBytes]
  generalize (range txQueueBytes).foldl (keepRound s.count) (0, s) = r at hkept ⊢
  obtain ⟨kept, s'⟩ := r
  obtain ⟨hhead, hwire, -, hretained, hfront, -⟩ := hkept
  dsimp only at hhead hwire hretained hfront ⊢
  have hlength : kept = (s.contents.filter fun c => !c.2).length := length_window.symm.trans (congrArg _ hfront)
  have hsplit := length_eq_countP_add_countP (l := s.contents) Prod.snd
  have hkernel : s.contents.countP (fun c => decide ¬c.2 = true) = (s.contents.filter fun c => !c.2).length := by
    rw [countP_eq_length_filter]
    exact congrArg length (filter_congr fun c _ => by simp)
  rw [length_contents, hkernel, ← hlength] at hsplit
  refine ⟨?_, ⟨hhead ▸ h.head_lt, hretained.trans h.count_le, rfl⟩, hwire, ?_⟩
  · rw [hsplit, Nat.add_sub_cancel]
  · change window txQueueBytes s'.cell s'.head kept = _
    rw [hhead]
    exact hfront

end KernelLogTx

/-! ## Calls -/

inductive TxCall (α : Type*)
  | push (value : α) (terminal : Bool)
  | pop
  | flush

inductive TxAnswer (α : Type*)
  | pushed (queued : Bool)
  | popped (value : Option α)
  | dropped (bytes : ℕ)

def TxCall.step (s : KernelLogTx α) : TxCall α → TxAnswer α × KernelLogTx α
  | push value terminal => (.pushed (s.push value terminal).1, (s.push value terminal).2)
  | pop => (.popped s.pop.1, s.pop.2)
  | flush => (.dropped s.flush.1, s.flush.2)

/-- The queue as it is meant: bytes in order, of which a flush removes the terminal's. -/
def TxCall.spec (l : List (α × Bool)) : TxCall α → TxAnswer α × List (α × Bool)
  | push value terminal =>
    if l.length < txQueueBytes then (.pushed true, l ++ [(value, terminal)]) else (.pushed false, l)
  | pop =>
    match l with
    | [] => (.popped none, [])
    | (value, _) :: l => (.popped (some value), l)
  | flush => (.dropped (l.countP Prod.snd), l.filter fun c => !c.2)

def runCalls {σ : Type*} (step : σ → TxCall α → TxAnswer α × σ) : σ → List (TxCall α) → List (TxAnswer α) × σ
  | s, [] => ([], s)
  | s, call :: calls => ((step s call).1 :: (runCalls step (step s call).2 calls).1, (runCalls step (step s call).2 calls).2)

def emptyAt (head : Fin txQueueBytes) (wireLast : α) (queue : ℕ → α) (terminal : ℕ → Bool) : KernelLogTx α :=
  { head, tail := head, wireLast, queue, terminal, count := 0 }

lemma step_refines {s : KernelLogTx α} (h : s.Ok) (call : TxCall α) :
    (call.step s).1 = (call.spec s.contents).1 ∧ (call.step s).2.Ok ∧
      (call.step s).2.contents = (call.spec s.contents).2 := by
  cases call with
  | push value tag =>
    have hlength := KernelLogTx.length_contents (s := s)
    by_cases hroom : s.count < txQueueBytes
    · obtain ⟨hanswer, hok, -, hcontents⟩ := h.push hroom value tag
      rw [TxCall.spec, if_pos (hlength ▸ hroom)]
      exact ⟨congrArg TxAnswer.pushed hanswer, hok, hcontents⟩
    · rw [TxCall.spec, if_neg (hlength ▸ hroom), TxCall.step, KernelLogTx.push_full (not_lt.mp hroom)]
      exact ⟨rfl, h, rfl⟩
  | pop =>
    cases hl : s.contents with
    | nil =>
      rw [TxCall.step, KernelLogTx.pop_nil hl]
      exact ⟨rfl, h, hl⟩
    | cons e l =>
      obtain ⟨hanswer, hok, -, hcontents⟩ := h.pop hl
      exact ⟨congrArg TxAnswer.popped hanswer, hok, hcontents⟩
  | flush =>
    obtain ⟨hanswer, hok, -, hcontents⟩ := h.flush
    dsimp only [TxCall.step, TxCall.spec]
    exact ⟨congrArg TxAnswer.dropped hanswer, hok, hcontents⟩

lemma run_refines {s : KernelLogTx α} (h : s.Ok) (calls : List (TxCall α)) :
    (runCalls TxCall.step s calls).1 = (runCalls TxCall.spec s.contents calls).1 ∧
      (runCalls TxCall.step s calls).2.Ok ∧
      (runCalls TxCall.step s calls).2.contents = (runCalls TxCall.spec s.contents calls).2 := by
  induction calls generalizing s with
  | nil => exact ⟨rfl, h, rfl⟩
  | cons call calls ih =>
    obtain ⟨hanswer, hok, hcontents⟩ := step_refines h call
    have hrest := ih hok
    rw [hcontents] at hrest
    exact ⟨congrArg₂ _ hanswer hrest.1, hrest.2⟩

/-- From the empty queue on, every call answers as the queue that is meant does, and the indices stay in range. -/
theorem tx_refines (head : Fin txQueueBytes) (wireLast : α) (queue : ℕ → α) (terminal : ℕ → Bool)
    (calls : List (TxCall α)) :
    let s := (runCalls TxCall.step (emptyAt head wireLast queue terminal) calls).2
    (runCalls TxCall.step (emptyAt head wireLast queue terminal) calls).1 = (runCalls TxCall.spec [] calls).1 ∧
      s.contents = (runCalls TxCall.spec [] calls).2 ∧ s.count = s.contents.length ∧
      s.count ≤ txQueueBytes ∧ s.head < txQueueBytes ∧ s.tail < txQueueBytes := by
  intro s
  have hempty : (emptyAt head wireLast queue terminal).Ok :=
    ⟨head.isLt, zero_le _, (mod_eq_of_lt head.isLt).symm⟩
  obtain ⟨hanswers, hok, hcontents⟩ := run_refines hempty calls
  exact ⟨hanswers, hcontents, KernelLogTx.length_contents.symm, hok.count_le, hok.head_lt,
    hok.tail_eq ▸ mod_lt _ (by decide)⟩

end Takibi.Printk
