import Takibi.Printk.Transmit

/-! The order in which bytes reach the wire: through the transmit queue, from the echo queue behind it, or past both
where output is paused. A kernel line means to begin at the beginning of a line of the wire. -/

namespace Takibi.Printk
open List Bool Option

def newline : UInt8 := 10

structure Sent where
  byte : UInt8
  starts : Bool
  deriving DecidableEq, Repr

def plain (byte : UInt8) : Sent := ⟨byte, false⟩

def kernelLine : List UInt8 → List Sent
  | [] => []
  | byte :: rest => ⟨byte, true⟩ :: rest.map plain

structure Terminal where
  tx : KernelLogTx Sent
  echo : List UInt8
  paused : Bool
  wire : List Sent

/-- `uart_tx_drain_into_fifo_force`, where the FIFO has room for `room` bytes. -/
def drainForce : ℕ → Terminal → Terminal
  | 0, s => s
  | room + 1, s =>
    match s.tx.pop with
    | (some value, tx) => drainForce room { s with tx, wire := s.wire ++ [value] }
    | (none, _) =>
      match s.echo with
      | [] => s
      | byte :: echo => drainForce room { s with echo, wire := s.wire ++ [plain byte] }

def drainIntoFifo (room : ℕ) (s : Terminal) : Terminal := if s.paused then s else drainForce room s

variable (s : Terminal) {l : List (Sent × Bool)}

def spinStore (value : Sent) : Terminal :=
  { s with wire := s.wire ++ [value], tx := { s.tx with wireLast := value } }

def emitByte (room : ℕ) (s : Terminal) (value : Sent) : Terminal :=
  let s := if s.tx.count ≥ txQueueBytes then drainForce (room + 1) s else s
  { s with tx := (s.tx.push value false).2 }

def lineBytes (last : Sent) (line : List UInt8) : List Sent :=
  (if last.byte ≠ newline then [plain newline] else []) ++ kernelLine line

/-- One round of `kernel_log_emit_line`; where the queue has no room yet the round only drains. The FIFO has room
for `rooms i + 1` bytes when the `i`th byte has waited for it, and for `room` bytes at the end. -/
def emitLine (live : Bool) (line : List UInt8) (rooms : ℕ → ℕ) (room : ℕ) (s : Terminal) : Terminal :=
  let bytes := lineBytes s.tx.wireLast line
  if live = false ∨ s.paused = true then bytes.foldl spinStore s
  else if s.tx.count = 0 ∨ s.tx.count ≤ txQueueBytes ∧ txQueueBytes - s.tx.count ≥ line.length + 1 then
    drainIntoFifo room (bytes.zipIdx.foldl (fun s p => emitByte (rooms p.2) s p.1) s)
  else drainIntoFifo room s

def userByte (value : Sent) : Terminal :=
  if s.tx.count ≥ txQueueBytes then s else { s with tx := (s.tx.push value true).2 }

def userWrite (live : Bool) (bytes : List UInt8) (room : ℕ) (s : Terminal) : Terminal :=
  if s.paused = true ∨ s.echo ≠ [] then s
  else
    let bytes := (bytes.take txQueueBytes).map plain
    if live = false then bytes.foldl spinStore s else drainIntoFifo room (bytes.foldl userByte s)

inductive TerminalStep
  | write (bytes : List UInt8) (room : ℕ)
  | line (bytes : List UInt8) (rooms : ℕ → ℕ) (room : ℕ)
  | echo (bytes : List UInt8)
  | drain (room : ℕ)
  | flush
  | pause
  | resume (room : ℕ)

def TerminalStep.run (live : Bool) (s : Terminal) : TerminalStep → Terminal
  | write bytes room => userWrite live bytes room s
  | line bytes rooms room => emitLine live bytes rooms room s
  | echo bytes => { s with echo := s.echo ++ bytes }
  | drain room => drainIntoFifo room s
  | flush => { s with echo := [], tx := s.tx.flush.2 }
  | pause => { s with paused := true }
  | resume room => drainIntoFifo room { s with paused := false }

def terminalStart : Terminal where
  tx := emptyAt ⟨0, by decide⟩ (plain newline) (fun _ => plain 0) fun _ => false
  echo := []
  paused := false
  wire := []

/-- The byte before the first byte of a kernel line is a newline, if there is one. -/
def LineLaw (wire : List Sent) : Prop := wire.IsChain fun before value => value.starts = true → before.byte = newline

instance (wire : List Sent) : Decidable (LineLaw wire) := inferInstanceAs (Decidable (List.IsChain _ _))

/-- Echo is whole lines and is out before a kernel line or a flush; nothing is queued when a kernel line goes past
the queue; and a flush drops no newline. -/
def TerminalStep.Meets : TerminalStep → Prop
  | line _ _ _ => s.echo = [] ∧ (s.paused = true → s.tx.count = 0)
  | echo bytes => ∀ byte ∈ bytes.getLast?, byte = newline
  | flush => s.echo = [] ∧ ∀ c ∈ s.tx.contents, c.2 = true → c.1.byte ≠ newline
  | _ => True

def MeetsAll (live : Bool) : Terminal → List TerminalStep → Prop
  | _, [] => True
  | s, step :: steps => step.Meets s ∧ MeetsAll live (step.run live s) steps

/-! ## What is still to come -/

def Terminal.pending : List Sent := s.wire ++ s.tx.contents.map Prod.fst ++ s.echo.map plain
def EndsLine (bytes : List Sent) : Prop := ∀ value ∈ bytes.getLast?, value.byte = newline

structure Lined (live : Bool) (s : Terminal) : Prop where
  ok : s.tx.Ok
  law : LineLaw s.pending
  ends : s.tx.wireLast.byte = newline → EndsLine s.pending
  idle : live = false → s.tx.contents = []

structure Clear (live spins : Bool) (s : Terminal) : Prop extends Lined live s where
  quiet : s.echo = []
  empty : spins = true → s.tx.contents = []
  live_of : spins = false → live = true

section Steps
variable {live spins : Bool} {s s' : Terminal} {value : Sent}

lemma drainForce_spec (hok : s.tx.Ok) (room : ℕ) :
    (drainForce room s).tx.Ok ∧ (drainForce room s).pending = s.pending ∧
      (drainForce room s).tx.wireLast = s.tx.wireLast ∧ (drainForce room s).tx.count ≤ s.tx.count - min room 1 ∧
      (s.echo = [] → (drainForce room s).echo = []) := by
  induction room generalizing s with
  | zero => exact ⟨hok, rfl, rfl, le_rfl, id⟩
  | succ room ih =>
    have hcount := KernelLogTx.length_contents (s := s.tx)
    rw [drainForce]
    cases hcontents : s.tx.contents with
    | nil =>
      rw [hcontents, length_nil] at hcount
      rw [KernelLogTx.pop_nil hcontents]
      cases hecho : s.echo with
      | nil => exact ⟨hok, rfl, rfl, hcount ▸ Nat.zero_le _, fun _ => hecho⟩
      | cons byte echo =>
        obtain ⟨hok', hpending, hlast, hless, -⟩ := ih (s := { s with echo, wire := s.wire ++ [plain byte] }) hok
        refine ⟨hok', hpending.trans ?_, hlast, by dsimp only at hless ⊢; omega, fun h => nomatch h⟩
        simp [Terminal.pending, hcontents, hecho]
    | cons e l =>
      obtain ⟨hfirst, hok₁, hlast₁, hrest⟩ := hok.pop hcontents
      have hless₁ := KernelLogTx.length_contents (s := s.tx.pop.2)
      rw [hrest] at hless₁
      rw [hcontents, length_cons] at hcount
      rw [show s.tx.pop = (some e.1, s.tx.pop.2) from Prod.ext hfirst rfl]
      obtain ⟨hok', hpending, hlast, hless, hecho⟩ := ih (s := { s with tx := s.tx.pop.2, wire := s.wire ++ [e.1] }) hok₁
      refine ⟨hok', hpending.trans ?_, hlast.trans hlast₁, by dsimp only at hless ⊢; omega, hecho⟩
      simp [Terminal.pending, hcontents, hrest]

lemma contents_nil_iff {tx : KernelLogTx Sent} : tx.contents = [] ↔ tx.count = 0 := by
  rw [← length_eq_zero_iff, KernelLogTx.length_contents]

lemma Lined.drainForce (h : Lined live s) (room : ℕ) : Lined live (drainForce room s) := by
  obtain ⟨hok, hpending, hlast, hless, -⟩ := drainForce_spec h.ok room
  refine ⟨hok, hpending ▸ h.law, fun hnewline => hpending ▸ h.ends (hlast ▸ hnewline), fun hlive => ?_⟩
  have hcount := contents_nil_iff.mp (h.idle hlive)
  exact contents_nil_iff.mpr (by omega)

lemma Lined.drainIntoFifo (h : Lined live s) (room : ℕ) : Lined live (drainIntoFifo room s) := by
  unfold Printk.drainIntoFifo
  split_ifs
  · exact h
  · exact h.drainForce room

lemma Lined.put (h : Lined live s) (hok : s'.tx.Ok) (hpending : s'.pending = s.pending ++ [value])
    (hlast : s'.tx.wireLast = value) (hidle : live = false → s'.tx.contents = [])
    (hstarts : value.starts = true → EndsLine s.pending) : Lined live s' := by
  refine ⟨hok, ?_, fun hnewline => ?_, hidle⟩
  · rw [LineLaw, hpending, isChain_append]
    refine ⟨h.law, isChain_singleton _, fun before hbefore next hnext hnew => ?_⟩
    cases hnext
    exact hstarts hnew before hbefore
  · rw [hpending]
    intro last hin
    rw [getLast?_concat] at hin
    exact some.inj hin ▸ hlast ▸ hnewline

def Sends {α : Type} (live spins : Bool) (value : α → Sent) (send : Terminal → α → Terminal) : Prop :=
  ∀ s a, Clear live spins s → ((value a).starts = true → EndsLine s.pending) →
    Clear live spins (send s a) ∧ (send s a).tx.wireLast = value a

lemma spinStore_sends : Sends live true id spinStore := by
  intro s value h hstarts
  have hok : (spinStore s value).tx.Ok := { h.ok with }
  refine ⟨⟨h.put hok ?_ rfl h.idle hstarts, h.quiet, h.empty, fun hfalse => nomatch hfalse⟩, rfl⟩
  change s.wire ++ [value] ++ s.tx.contents.map Prod.fst ++ s.echo.map plain = _
  simp [Terminal.pending, h.empty rfl, h.quiet, spinStore]

lemma emitByte_sends (rooms : ℕ → ℕ) :
    Sends live false Prod.fst fun s (p : Sent × ℕ) => emitByte (rooms p.2) s p.1 := by
  rintro s ⟨value, i⟩ h hstarts
  -- What is left after room was made.
  obtain ⟨s₁, hs₁, h₁, hquiet₁, hroom, hpending₁⟩ : ∃ s₁,
      (if s.tx.count ≥ txQueueBytes then drainForce (rooms i + 1) s else s) = s₁ ∧ Lined live s₁ ∧ s₁.echo = [] ∧
        s₁.tx.count < txQueueBytes ∧ s₁.pending = s.pending := by
    split_ifs with hfull
    · obtain ⟨-, hpending, -, hless, hecho⟩ := drainForce_spec h.ok (rooms i + 1)
      have hle := h.ok.count_le
      have hpos : 0 < txQueueBytes := by decide
      exact ⟨_, rfl, h.drainForce _, hecho h.quiet, by omega, hpending⟩
    · exact ⟨_, rfl, h.toLined, h.quiet, not_le.mp hfull, rfl⟩
  obtain ⟨-, hok, hlast, hcontents⟩ := h₁.ok.push hroom value false
  have hlive := h.live_of rfl
  dsimp only
  rw [emitByte, hs₁]
  refine ⟨⟨h₁.put hok ?_ hlast (fun hfalse => nomatch hlive.symm.trans hfalse) (hpending₁ ▸ hstarts), hquiet₁,
    (fun hfalse => nomatch hfalse), h.live_of⟩, hlast⟩
  simp [Terminal.pending, hcontents, hquiet₁]

section Send
variable {α : Type} {value : α → Sent} {send : Terminal → α → Terminal} {items : List α}

lemma Clear.foldl_plain (hsend : Sends live spins value send) (hplain : ∀ a ∈ items, (value a).starts = false)
    (h : Clear live spins s) : Clear live spins (items.foldl send s) := by
  induction items generalizing s with
  | nil => exact h
  | cons a items ih =>
    obtain ⟨ha, hitems⟩ := forall_mem_cons.mp hplain
    exact ih hitems (hsend s a h fun hstarts => nomatch ha.symm.trans hstarts).1

lemma starts_of_map_plain {bytes : List UInt8} (hitems : items.map value = bytes.map plain) :
    ∀ a ∈ items, (value a).starts = false := by
  intro a ha
  obtain ⟨byte, -, hbyte⟩ := mem_map.mp (hitems ▸ mem_map_of_mem ha)
  rw [← hbyte]
  rfl

lemma Clear.line (hsend : Sends live spins value send) (h : Clear live spins s) {line : List UInt8}
    (hitems : items.map value = lineBytes s.tx.wireLast line) : Clear live spins (items.foldl send s) := by
  obtain ⟨opening, items, rfl, hopening, hline⟩ := map_eq_append_iff.mp hitems
  rw [foldl_append]
  have hbegun : Clear live spins (opening.foldl send s) ∧ EndsLine (opening.foldl send s).pending := by
    split_ifs at hopening with hlast
    · obtain ⟨a, rfl, ha⟩ := map_eq_singleton_iff.mp hopening
      obtain ⟨h₁, hlast₁⟩ := hsend s a h fun hstarts => by
        rw [ha] at hstarts
        cases hstarts
      exact ⟨h₁, h₁.ends (congrArg Sent.byte (hlast₁.trans ha))⟩
    · rw [map_eq_nil_iff.mp hopening]
      exact ⟨h, h.ends (not_not.mp hlast)⟩
  obtain ⟨h₁, hends⟩ := hbegun
  cases line with
  | nil =>
    rw [map_eq_nil_iff.mp hline]
    exact h₁
  | cons byte rest =>
    obtain ⟨a, items, rfl, -, hrest⟩ := map_eq_cons_iff.mp hline
    rw [foldl_cons]
    exact (hsend _ a h₁ fun _ => hends).1.foldl_plain hsend (starts_of_map_plain hrest)

end Send

lemma Lined.line (h : Lined live s) (hquiet : s.echo = []) (hpaused : s.paused = true → s.tx.count = 0)
    (line : List UInt8) (rooms : ℕ → ℕ) (room : ℕ) : Lined live (emitLine live line rooms room s) := by
  unfold emitLine
  dsimp only
  split_ifs with hspins hroom
  · have hempty : s.tx.contents = [] := hspins.elim h.idle fun hp => contents_nil_iff.mpr (hpaused hp)
    have hclear : Clear live true s := ⟨h, hquiet, fun _ => hempty, fun hfalse => nomatch hfalse⟩
    exact (hclear.line spinStore_sends (map_id _)).toLined
  · have hlive : live = true := eq_true_of_not_eq_false (not_or.mp hspins).1
    have hclear : Clear live false s := ⟨h, hquiet, (fun hfalse => nomatch hfalse), fun _ => hlive⟩
    exact (hclear.line (emitByte_sends rooms) (zipIdx_map_fst 0 _)).toLined.drainIntoFifo room
  · exact h.drainIntoFifo room

lemma Clear.foldl_user (h : Clear live false s) (bytes : List UInt8) :
    Clear live false ((bytes.map plain).foldl userByte s) := by
  induction bytes generalizing s with
  | nil => exact h
  | cons byte bytes ih =>
    refine ih ?_
    unfold userByte
    split_ifs with hfull
    · exact h
    · obtain ⟨-, hok, hlast, hcontents⟩ := h.ok.push (not_le.mp hfull) (plain byte) true
      have hlive := h.live_of rfl
      refine ⟨h.put hok ?_ hlast (fun hfalse => nomatch hlive.symm.trans hfalse) (fun hfalse => nomatch hfalse),
        h.quiet, (fun hfalse => nomatch hfalse), h.live_of⟩
      simp [Terminal.pending, hcontents, h.quiet]

lemma Lined.write (h : Lined live s) (bytes : List UInt8) (room : ℕ) : Lined live (userWrite live bytes room s) := by
  unfold userWrite
  split_ifs with hwaits hlive
  · exact h
  · have hquiet := not_not.mp (not_or.mp hwaits).2
    have hclear : Clear live true s := ⟨h, hquiet, fun _ => h.idle hlive, fun hfalse => nomatch hfalse⟩
    exact (hclear.foldl_plain spinStore_sends (starts_of_map_plain (map_id _))).toLined
  · have hquiet := not_not.mp (not_or.mp hwaits).2
    have hclear : Clear live false s :=
      ⟨h, hquiet, (fun hfalse => nomatch hfalse), fun _ => eq_true_of_not_eq_false hlive⟩
    exact (hclear.foldl_user _).toLined.drainIntoFifo room

lemma Lined.echo (h : Lined live s) {bytes : List UInt8} (hends : ∀ byte ∈ bytes.getLast?, byte = newline) :
    Lined live { s with echo := s.echo ++ bytes } := by
  have hpending : Terminal.pending { s with echo := s.echo ++ bytes } = s.pending ++ bytes.map plain := by
    simp [Terminal.pending]
  refine ⟨h.ok, ?_, fun hnewline => ?_, h.idle⟩
  · rw [LineLaw, hpending, isChain_append]
    refine ⟨h.law, ?_, fun before _ next hnext hnew => ?_⟩
    · rw [isChain_map]
      exact isChain_iff_getElem.mpr fun i _ hfalse => nomatch hfalse
    · obtain ⟨byte, -, rfl⟩ := mem_map.mp (mem_of_mem_head? hnext)
      cases hnew
  · rw [hpending]
    intro last hin
    rw [getLast?_append, mem_def, or_eq_some_iff, getLast?_map, map_eq_some_iff] at hin
    obtain ⟨byte, hbyte, rfl⟩ | ⟨-, hin⟩ := hin
    · exact hends byte hbyte
    · exact h.ends hnewline last hin

lemma LineLaw.filter {before : List Sent} (h : LineLaw (before ++ l.map Prod.fst))
    (hdrop : ∀ c ∈ l, c.2 = true → c.1.byte ≠ newline) :
    LineLaw (before ++ (l.filter fun c => !c.2).map Prod.fst) := by
  induction l generalizing before with
  | nil => exact h
  | cons c l ih =>
    obtain ⟨hc, hl⟩ := forall_mem_cons.mp hdrop
    rw [map_cons, append_cons] at h
    by_cases htag : c.2 = true
    · rw [filter_cons_of_neg (by simp [htag])]
      -- The byte behind the dropped one starts no line.
      refine ih ?_ hl
      rw [LineLaw, append_assoc, isChain_append, singleton_append, isChain_cons] at h
      rw [LineLaw, isChain_append]
      exact ⟨h.1, h.2.1.2, fun _ _ next hnext hnew => absurd (h.2.1.1 next hnext hnew) (hc htag)⟩
    · rw [filter_cons_of_pos (by simp [htag]), map_cons, append_cons]
      exact ih h hl

lemma EndsLine.filter {before : List Sent} (h : EndsLine (before ++ l.map Prod.fst))
    (hdrop : ∀ c ∈ l, c.2 = true → c.1.byte ≠ newline) :
    EndsLine (before ++ (l.filter fun c => !c.2).map Prod.fst) := by
  obtain rfl | ⟨l, c, rfl⟩ := eq_nil_or_concat' l
  · exact h
  · have hc : c.1.byte = newline := h c.1 (by simp)
    have htag : ¬c.2 = true := fun htag => hdrop c (by simp) htag hc
    intro last hin
    rw [filter_append, filter_cons_of_pos (by simp [htag]), filter_nil, map_append,
      ← append_assoc, map_singleton, getLast?_concat] at hin
    exact some.inj hin ▸ hc

lemma Lined.flush (h : Lined live s) (hquiet : s.echo = [])
    (hdrop : ∀ c ∈ s.tx.contents, c.2 = true → c.1.byte ≠ newline) :
    Lined live { s with echo := [], tx := s.tx.flush.2 } := by
  obtain ⟨-, hok, hlast, hcontents⟩ := h.ok.flush
  generalize s.tx.flush.2 = tx at hok hlast hcontents ⊢
  have hbefore : s.pending = s.wire ++ s.tx.contents.map Prod.fst := by simp [Terminal.pending, hquiet]
  have hafter : Terminal.pending { s with echo := [], tx } =
      s.wire ++ (s.tx.contents.filter fun c => !c.2).map Prod.fst := by simp [Terminal.pending, hcontents]
  refine ⟨hok, ?_, fun hnewline => ?_, fun hlive => ?_⟩
  · rw [hafter]
    exact (hbefore ▸ h.law).filter hdrop
  · rw [hafter]
    exact (hbefore ▸ h.ends (hlast ▸ hnewline)).filter hdrop
  · rw [hcontents, h.idle hlive, filter_nil]

lemma Lined.run (h : Lined live s) (step : TerminalStep) (hmeets : step.Meets s) : Lined live (step.run live s) := by
  cases step with
  | write bytes room => exact h.write bytes room
  | line bytes rooms room => exact h.line hmeets.1 hmeets.2 bytes rooms room
  | echo bytes => exact h.echo hmeets
  | drain room => exact h.drainIntoFifo room
  | flush => exact h.flush hmeets.1 hmeets.2
  | pause => exact { h with }
  | resume room =>
    have hresumed : Lined live { s with paused := false } := { h with }
    exact hresumed.drainIntoFifo room

end Steps

lemma lined_start (live : Bool) : Lined live terminalStart where
  ok := ⟨by decide, by decide, rfl⟩
  law := isChain_nil
  ends _ _ hin := nomatch hin
  idle _ := rfl

lemma lined_run {live : Bool} (steps : List TerminalStep) (s : Terminal) (h : Lined live s)
    (hmeets : MeetsAll live s steps) : Lined live (steps.foldl (TerminalStep.run live) s) := by
  induction steps generalizing s with
  | nil => exact h
  | cons step steps ih => exact ih _ (h.run step hmeets.1) hmeets.2

/-- In a run whose steps all meet the condition, every kernel line begins a line of the wire. -/
theorem wire_line (live : Bool) (steps : List TerminalStep) (hmeets : MeetsAll live terminalStart steps) :
    LineLaw (steps.foldl (TerminalStep.run live) terminalStart).wire := by
  have h := lined_run steps terminalStart (lined_start live) hmeets
  have hlaw := h.law
  rw [Terminal.pending, LineLaw, append_assoc] at hlaw
  exact hlaw.left_of_append

def outputThenLine : List TerminalStep := [.write [97] 1, .line [120, 10] (fun _ => 0) 3]

theorem wire_line_output : LineLaw (outputThenLine.foldl (TerminalStep.run true) terminalStart).wire :=
  wire_line true outputThenLine ⟨trivial, ⟨rfl, fun hpaused => nomatch hpaused⟩, trivial⟩

/-- An echoed byte, then a kernel line: the line stands behind the byte. -/
theorem echo_breaks_line : ∃ s : Terminal,
    [.echo [97], .drain 1, .line [120, 10] (fun _ => 0) 2].foldl (TerminalStep.run true) terminalStart = s ∧
      s.wire = [plain 97, ⟨120, true⟩, plain 10] ∧ ¬LineLaw s.wire := ⟨_, rfl, rfl, by decide⟩

end Takibi.Printk
