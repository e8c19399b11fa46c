import Takibi.Cyclic.Window

/-! The pipe behind `pipe2`: a ring of 4096 bytes. Its users copy in and out of at most two runs of the buffer,
which a plan names, and then tell the pipe how much of the plan they did. -/

namespace Takibi.Fifo
open Cyclic List Nat

def pipeBufferBytes : ℕ := 4096

structure Pipe where
  start : ℕ
  length : ℕ
  buffer : ℕ → UInt8

/-- The offset of the first run, its length, and the length of the second, which begins at 0. -/
structure Plan where
  offset : ℕ
  first : ℕ
  second : ℕ
  deriving DecidableEq, Repr

def planFrom (position amount : ℕ) : Plan :=
  let toEnd := pipeBufferBytes - position
  if amount ≤ toEnd then ⟨position, amount, 0⟩ else ⟨position, toEnd, amount - toEnd⟩

variable (pipe : Pipe) {amount position : ℕ}

def pipeReadPlan (wanted : ℕ) : Plan :=
  let amount := if wanted > pipe.length then pipe.length else wanted
  if pipe.start ≥ pipeBufferBytes then ⟨0, 0, 0⟩ else planFrom pipe.start amount

def pipeConsume (amount : ℕ) : Bool × Pipe :=
  (amount ≠ 0,
    if amount > pipe.length then pipe
    else
      let length := pipe.length - amount
      let moved := pipe.start + amount
      let start := if moved ≥ pipeBufferBytes then moved - pipeBufferBytes else moved
      { pipe with length, start := if length = 0 then 0 else start })

def pipeRoom : ℕ :=
  if pipe.length ≥ pipeBufferBytes then 0 else pipeBufferBytes - pipe.length

def pipeWritePlan (amount : ℕ) : Plan :=
  if amount > pipeRoom pipe then ⟨0, 0, 0⟩
  else
    let sum := pipe.start + pipe.length
    let tail := if sum ≥ pipeBufferBytes then sum - pipeBufferBytes else sum
    if tail ≥ pipeBufferBytes then ⟨0, 0, 0⟩ else planFrom tail amount

def pipeProduce (amount : ℕ) : Bool × Pipe :=
  (amount ≠ 0, if amount > pipeRoom pipe then pipe else { pipe with length := pipe.length + amount })

def pipeWriteAmount (requested : ℕ) : ℕ :=
  if requested ≤ pipeRoom pipe then requested
  else if requested ≤ pipeBufferBytes then 0
  else pipeRoom pipe

def Plan.copyOut (plan : Plan) (buffer : ℕ → UInt8) : List UInt8 :=
  (List.range plan.first).map (fun k => buffer (plan.offset + k)) ++ (List.range plan.second).map buffer

def Plan.copyIn (plan : Plan) (buffer : ℕ → UInt8) (bytes : List UInt8) : ℕ → UInt8 :=
  store (store buffer plan.offset (bytes.take plan.first)) 0 (bytes.drop plan.first)

/-! ## Transfers -/

inductive Transfer
  | write (bytes : List UInt8)
  /-- A read of `wanted` bytes that consumes at most `taken` of those planned. -/
  | read (wanted taken : ℕ)

structure History where
  pipe : Pipe
  produced : List UInt8
  consumed : List UInt8

def Transfer.step (s : History) : Transfer → History
  | write bytes =>
    let amount := pipeWriteAmount s.pipe bytes.length
    let buffer := (pipeWritePlan s.pipe amount).copyIn s.pipe.buffer (bytes.take amount)
    { s with pipe := (pipeProduce { s.pipe with buffer } amount).2, produced := s.produced ++ bytes.take amount }
  | read wanted taken =>
    let plan := pipeReadPlan s.pipe wanted
    let amount := min taken (plan.first + plan.second)
    { s with
      pipe := (pipeConsume s.pipe amount).2
      consumed := s.consumed ++ (plan.copyOut s.pipe.buffer).take amount }

def runTransfers (buffer : ℕ → UInt8) (transfers : List Transfer) : History :=
  transfers.foldl Transfer.step ⟨⟨0, 0, buffer⟩, [], []⟩

/-! ## The queue -/

def Pipe.queue : List UInt8 := window pipeBufferBytes pipe.buffer pipe.start pipe.length

structure Pipe.Ok (pipe : Pipe) : Prop where
  start_lt : pipe.start < pipeBufferBytes
  length_le : pipe.length ≤ pipeBufferBytes

/-- The runs of a plan lie in the buffer, apart from each other, and are `amount` bytes long. -/
structure Plan.Fits (plan : Plan) (amount : ℕ) : Prop where
  inside : plan.offset + plan.first ≤ pipeBufferBytes
  apart : plan.second ≤ plan.offset
  total : plan.first + plan.second = amount

def Plan.Names (plan : Plan) (i : ℕ) : Prop :=
  plan.offset ≤ i ∧ i < plan.offset + plan.first ∨ i < plan.second

section Queue
variable {pipe : Pipe}

lemma wrapped_eq {length : ℕ} (hp : position < pipeBufferBytes) (hl : length ≤ pipeBufferBytes) :
    (if position + length ≥ pipeBufferBytes then position + length - pipeBufferBytes else position + length) =
      (position + length) % pipeBufferBytes := by
  rw [index_eq hp hl]
  split_ifs <;> omega

lemma planFrom_fits (hp : position < pipeBufferBytes) (ha : amount ≤ pipeBufferBytes) :
    (planFrom position amount).Fits amount ∧ (planFrom position amount).offset = position ∧
      (planFrom position amount).first = min amount (pipeBufferBytes - position) := by
  unfold planFrom
  dsimp only
  split_ifs with hfit
  · refine ⟨⟨?_, zero_le _, rfl⟩, rfl, ?_⟩ <;> dsimp only <;> omega
  · refine ⟨⟨?_, ?_, ?_⟩, rfl, ?_⟩ <;> dsimp only <;> omega

lemma planFrom_copyOut (hp : position < pipeBufferBytes) (ha : amount ≤ pipeBufferBytes)
    (buffer : ℕ → UInt8) :
    (planFrom position amount).copyOut buffer = window pipeBufferBytes buffer position amount := by
  obtain ⟨hfits, hoffset, hfirst⟩ := planFrom_fits hp ha
  have hsplit : window pipeBufferBytes buffer position amount = _ := (congrArg _ hfits.total.symm).trans window_add
  have htotal := hfits.total
  rw [Plan.copyOut, hsplit, window, window, hoffset]
  congr 1
  · refine map_congr_left fun k hk => ?_
    rw [mod_eq_of_lt]
    have := mem_range.mp hk
    omega
  · refine map_congr_left fun k hk => ?_
    have := mem_range.mp hk
    rw [Nat.add_assoc, index_eq hp (by omega), if_neg (by omega)]
    exact congrArg buffer (by omega)

lemma readPlan_eq (h : pipe.Ok) (wanted : ℕ) :
    pipeReadPlan pipe wanted = planFrom pipe.start (min wanted pipe.length) := by
  have hstart := h.start_lt
  rw [pipeReadPlan, if_neg (not_le.mpr hstart)]
  congr 1
  split_ifs <;> omega

lemma room_eq (h : pipe.Ok) : pipeRoom pipe = pipeBufferBytes - pipe.length := by
  have hlength := h.length_le
  unfold pipeRoom
  split_ifs <;> omega

lemma writePlan_eq (h : pipe.Ok) (ha : amount ≤ pipeRoom pipe) :
    pipeWritePlan pipe amount = planFrom ((pipe.start + pipe.length) % pipeBufferBytes) amount := by
  have hstart := h.start_lt
  have hlength := h.length_le
  rw [pipeWritePlan, if_neg (not_lt.mpr ha)]
  dsimp only
  rw [wrapped_eq hstart hlength, if_neg (not_le.mpr (mod_lt _ (by omega)))]

lemma writeAmount_le (requested : ℕ) : pipeWriteAmount pipe requested ≤ pipeRoom pipe := by
  unfold pipeWriteAmount
  split_ifs <;> omega

lemma writeAmount_le_requested (requested : ℕ) : pipeWriteAmount pipe requested ≤ requested := by
  have hroom : pipeRoom pipe ≤ pipeBufferBytes := by
    unfold pipeRoom
    split_ifs <;> omega
  unfold pipeWriteAmount
  split_ifs <;> omega

lemma queue_write (h : pipe.Ok) {bytes : List UInt8} (hroom : bytes.length ≤ pipeRoom pipe) :
    let buffer := (pipeWritePlan pipe bytes.length).copyIn pipe.buffer bytes
    (pipeProduce { pipe with buffer } bytes.length).2.Ok ∧
      (pipeProduce { pipe with buffer } bytes.length).2.queue = pipe.queue ++ bytes := by
  intro buffer
  have hstart := h.start_lt
  have hlength := h.length_le
  have hfree := room_eq h
  have hp : (pipe.start + pipe.length) % pipeBufferBytes < pipeBufferBytes := mod_lt _ (by omega)
  have hproduce : (pipeProduce { pipe with buffer } bytes.length).2 =
      { pipe with buffer, length := pipe.length + bytes.length } := if_neg (not_lt.mpr hroom)
  rw [hproduce]
  refine ⟨⟨hstart, by dsimp only; omega⟩, ?_⟩
  obtain ⟨-, hoffset, hfirst⟩ := planFrom_fits hp (show bytes.length ≤ _ by omega)
  rw [Pipe.queue, Pipe.queue, ← window_store hstart (by omega) hfirst]
  dsimp only [buffer]
  rw [Plan.copyIn, writePlan_eq h hroom, hoffset]

lemma queue_read (h : pipe.Ok) (ha : amount ≤ pipe.length) :
    (pipeConsume pipe amount).2.Ok ∧ pipe.queue = pipe.queue.take amount ++ (pipeConsume pipe amount).2.queue := by
  have hstart := h.start_lt
  have hlength := h.length_le
  have hdrop : pipe.queue.drop amount = window pipeBufferBytes pipe.buffer ((pipe.start + amount) % pipeBufferBytes)
      (pipe.length - amount) := by rw [Pipe.queue, drop_window ha, window_mod]
  have hmoved := wrapped_eq hstart (ha.trans hlength)
  have hconsume : (pipeConsume pipe amount).2 = { pipe with
      length := pipe.length - amount
      start := if pipe.length - amount = 0 then 0 else (pipe.start + amount) % pipeBufferBytes } := by
    rw [← hmoved]
    exact if_neg (not_lt.mpr ha)
  rw [hconsume]
  refine ⟨⟨?_, ?_⟩, ?_⟩
  · dsimp only
    split_ifs
    · decide
    · exact mod_lt _ (by omega)
  · dsimp only
    omega
  · nth_rewrite 1 [← take_append_drop amount pipe.queue]
    rw [hdrop]
    congr 1
    by_cases hempty : pipe.length - amount = 0
    · simp [Pipe.queue, hempty]
    · simp [Pipe.queue, hempty]

lemma writePlan_free (h : pipe.Ok) {k : ℕ} (ha : amount ≤ pipeRoom pipe) (hk : k < pipe.length) :
    ¬(pipeWritePlan pipe amount).Names ((pipe.start + k) % pipeBufferBytes) := by
  have hstart := h.start_lt
  have hlength := h.length_le
  have hfree := room_eq h
  have hp : (pipe.start + pipe.length) % pipeBufferBytes < pipeBufferBytes := mod_lt _ (by omega)
  obtain ⟨hfits, hoffset, hfirst⟩ := planFrom_fits hp (show amount ≤ _ by omega)
  have htotal := hfits.total
  have hi := index_eq hstart (hk.le.trans hlength)
  have hn := index_eq hstart hlength
  rw [writePlan_eq h ha, Plan.Names, hoffset]
  split_ifs at hi hn <;> omega

end Queue

structure Tracks (s : History) : Prop where
  ok : s.pipe.Ok
  fifo : s.consumed ++ s.pipe.queue = s.produced

lemma Tracks.step {s : History} (h : Tracks s) (transfer : Transfer) : Tracks (transfer.step s) := by
  cases transfer with
  | write bytes =>
    have hlength : (bytes.take (pipeWriteAmount s.pipe bytes.length)).length = pipeWriteAmount s.pipe bytes.length := by
      rw [length_take, min_eq_left (writeAmount_le_requested _)]
    obtain ⟨hok, hqueue⟩ := queue_write h.ok (hlength.le.trans (writeAmount_le _))
    rw [hlength] at hok hqueue
    refine ⟨hok, ?_⟩
    dsimp only [Transfer.step]
    rw [hqueue, ← append_assoc, h.fifo]
  | read wanted taken =>
    have hlength := h.ok.length_le
    have hplan := readPlan_eq h.ok wanted
    obtain ⟨hfits, -, -⟩ := planFrom_fits h.ok.start_lt (show min wanted s.pipe.length ≤ _ by omega)
    have hcopy := planFrom_copyOut h.ok.start_lt (show min wanted s.pipe.length ≤ _ by omega) s.pipe.buffer
    have htotal := hfits.total
    rw [← hplan] at htotal hcopy
    obtain ⟨hok, hqueue⟩ := queue_read h.ok
      (show min taken ((pipeReadPlan s.pipe wanted).first + (pipeReadPlan s.pipe wanted).second) ≤ _ by omega)
    refine ⟨hok, ?_⟩
    -- What is copied out is the front of the queue.
    have hfront : ((pipeReadPlan s.pipe wanted).copyOut s.pipe.buffer) = s.pipe.queue.take (min wanted s.pipe.length) := by
      rw [hcopy, Pipe.queue, take_window (by omega)]
    dsimp only [Transfer.step]
    rw [hfront, take_take, append_assoc, min_eq_left (by omega), ← hqueue, h.fifo]

lemma tracks_run (buffer : ℕ → UInt8) (transfers : List Transfer) : Tracks (runTransfers buffer transfers) := by
  induction transfers using reverseRecOn with
  | nil => exact ⟨⟨zero_lt_succ _, zero_le _⟩, rfl⟩
  | append_singleton transfers transfer ih =>
    rw [runTransfers, foldl_append]
    exact ih.step transfer

/-- After any transfers, what came out is what went in up to the bytes still in the pipe; plans stay in the
buffer and are as long as asked for; writes go where no byte is, and small ones go in whole or not at all. -/
theorem pipe_fifo (buffer : ℕ → UInt8) (transfers : List Transfer) :
    let s := runTransfers buffer transfers
    (s.pipe.start < 4096 ∧ s.pipe.length ≤ 4096) ∧ s.consumed ++ s.pipe.queue = s.produced ∧
    (∀ wanted, (pipeReadPlan s.pipe wanted).Fits (min wanted s.pipe.length)) ∧
    ∀ requested, let amount := pipeWriteAmount s.pipe requested
      (pipeWritePlan s.pipe amount).Fits amount ∧
      (∀ k < s.pipe.length, ¬(pipeWritePlan s.pipe amount).Names ((s.pipe.start + k) % 4096)) ∧
      (requested ≤ 4096 → amount = requested ∨ amount = 0) := by
  intro s
  have h : Tracks s := tracks_run buffer transfers
  have hlength := h.ok.length_le
  refine ⟨⟨h.ok.start_lt, hlength⟩, h.fifo, fun wanted => ?_, fun requested => ?_⟩
  · rw [readPlan_eq h.ok]
    exact (planFrom_fits h.ok.start_lt (by omega)).1
  · intro amount
    have hroom : amount ≤ pipeRoom s.pipe := writeAmount_le requested
    have hfree := room_eq h.ok
    refine ⟨?_, fun k hk => writePlan_free h.ok hroom hk, fun hsmall => ?_⟩
    · rw [writePlan_eq h.ok hroom]
      exact (planFrom_fits (mod_lt _ (by decide)) (by omega)).1
    · dsimp only [amount, pipeWriteAmount]
      split_ifs with hfit hbig
      · exact .inl rfl
      · exact .inr rfl
      · exact absurd hsmall hbig

end Takibi.Fifo
