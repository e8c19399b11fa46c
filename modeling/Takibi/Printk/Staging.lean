import Takibi.Printk.WireLine

/-! How the bytes that several owners write on one core become records of the log: a line is retained when it ends, in
pieces where it fills the stage, and cut where another owner writes. -/

namespace Takibi.Printk
open List Option

def kernelLogLineBytes : ℕ := 640

structure StagedByte where
  owner : ℕ
  byte : UInt8
  deriving DecidableEq, Repr

/-- `continued` says that the record goes on from the one before, `cut` that its line was ended by another owner. -/
structure LogRecord where
  owner : ℕ
  bytes : List StagedByte
  continued : Bool
  cut : Bool
  deriving DecidableEq, Repr

structure LineStage where
  active : Bool
  owner : ℕ
  line : List StagedByte
  continued : Bool
  records : List LogRecord
  attempts : ℕ
  deriving DecidableEq, Repr

def stageStart : LineStage := ⟨false, 0, [], false, [], 0⟩

section Model

-- Which reservations the ring grants.
variable (grants : ℕ → Bool)

def retainLine (cut : Bool) (s : LineStage) : LineStage :=
  if s.line = [] then s
  else
    { s with
      records := if grants s.attempts then s.records ++ [⟨s.owner, s.line, s.continued, cut⟩] else s.records
      attempts := s.attempts + 1
      line := [] }

variable (s : LineStage)

def LineStage.store (b : StagedByte) : LineStage :=
  if s.line.length < kernelLogLineBytes then { s with line := s.line ++ [b] } else s

def cutLine : LineStage :=
  { retainLine grants true (s.store ⟨s.owner, newline⟩) with active := false }

def beginLine (owner : ℕ) (s : LineStage) : LineStage :=
  if s.active then s else { s with line := [], continued := false, owner, active := true }

def makeRoom : LineStage :=
  if s.line.length ≥ kernelLogLineBytes then { retainLine grants false s with continued := true } else s

def endLine (value : UInt8) (s : LineStage) : LineStage :=
  if value = newline then { retainLine grants false s with active := false } else s

/-- `kernel_log_stage_byte`; the answer is true for a byte that is not staged. -/
def stageByte (owner : ℕ) (value : UInt8) (s : LineStage) : Bool × LineStage :=
  let s := if s.active ∧ s.owner ≠ owner then cutLine grants s else s
  if s.active = false ∧ value = newline then (true, s)
  else (false, endLine grants value ((makeRoom grants (beginLine owner s)).store ⟨owner, value⟩))

def stageNext (r : LineStage × List StagedByte) (b : StagedByte) : LineStage × List StagedByte :=
  match stageByte grants b.owner b.byte r.1 with
  | (true, s) => (s, r.2)
  | (false, s) => (s, r.2 ++ [b])

def stageBytes (input : List StagedByte) : LineStage × List StagedByte := input.foldl (stageNext grants) (stageStart, [])

/-- What the step needs: a reservation for each record it makes, and no full stage where it cuts a line. -/
def StepMeets (b : StagedByte) : Prop :=
  (s.active = true → s.owner ≠ b.owner → s.line.length < kernelLogLineBytes ∧ grants s.attempts = true) ∧
  (s.active = true → s.owner = b.owner → s.line.length ≥ kernelLogLineBytes → grants s.attempts = true) ∧
  (s.active = true → s.owner = b.owner → b.byte = newline →
    grants (if s.line.length ≥ kernelLogLineBytes then s.attempts + 1 else s.attempts) = true)

def StepsMeet (input : List StagedByte) : Prop :=
  ∀ before b, before ++ [b] <+: input → StepMeets grants (stageBytes grants before).1 b

end Model

/-! ## What the records say -/

/-- The owner's own bytes of a record: the newline a cut has added is not one. -/
def LogRecord.payload (r : LogRecord) : List StagedByte := if r.cut then r.bytes.dropLast else r.bytes
def LogRecord.EndsLine (r : LogRecord) : Prop := ∃ b ∈ r.bytes.getLast?, b.byte = newline
def LineStage.piece (s : LineStage) : LogRecord := ⟨s.owner, s.line, s.active && s.continued, false⟩
def LineStage.tail (s : LineStage) (owner : ℕ) : List StagedByte := if s.active ∧ s.owner = owner then s.line else []

def LineStage.kept (s : LineStage) (owner : ℕ) : List StagedByte :=
  (s.records.filter (·.owner = owner)).flatMap LogRecord.payload ++ s.tail owner

/-- A record and the next: a continuation follows a full piece of its owner, any other a record that ends its line. -/
def Joined (r next : LogRecord) : Prop :=
  if next.continued then r.cut = false ∧ r.owner = next.owner ∧ r.bytes.length = kernelLogLineBytes else r.EndsLine

def Ordered (l : List LogRecord) : Prop := l.IsChain Joined ∧ ∀ r ∈ l.head?, r.continued = false

/-- Nothing lost, nothing mixed, and each line ended. -/
structure Accounted (s : LineStage) (staged : List StagedByte) : Prop where
  exact : ∀ owner, s.kept owner = staged.filter (·.owner = owner)
  single : ∀ r ∈ s.records, ∀ b ∈ r.bytes, b.owner = r.owner
  ordered : Ordered (s.records ++ [s.piece])

structure Staged (s : LineStage) (staged : List StagedByte) : Prop extends Accounted s staged where
  own : s.active = true → ∀ b ∈ s.line, b.owner = s.owner
  bound : s.line.length ≤ kernelLogLineBytes

section Steps
variable {grants : ℕ → Bool} {s s' : LineStage} {staged : List StagedByte}

lemma Ordered.congr {l : List LogRecord} {p p' : LogRecord} (h : Ordered (l ++ [p]))
    (howner : p'.continued = true → p.owner = p'.owner) (hcontinued : p.continued = p'.continued) :
    Ordered (l ++ [p']) := by
  obtain ⟨hchain, hfirst⟩ := h
  obtain ⟨hl, -, hp⟩ := isChain_append.mp hchain
  refine ⟨isChain_append.mpr ⟨hl, isChain_singleton _, fun before hbefore next hnext => ?_⟩, ?_⟩
  · cases hnext
    have hjoined := hp before hbefore p rfl
    unfold Joined at hjoined ⊢
    rw [hcontinued] at hjoined
    split_ifs at hjoined ⊢ with hgoes
    · exact howner hgoes ▸ hjoined
    · exact hjoined
  · cases l with
    | nil => exact fun r hr => some.inj hr ▸ hcontinued ▸ hfirst p rfl
    | cons first l => exact hfirst

lemma Ordered.concat {l : List LogRecord} {r p : LogRecord} (h : Ordered (l ++ [r])) (hjoin : Joined r p) :
    Ordered (l ++ [r] ++ [p]) := by
  refine ⟨isChain_append.mpr ⟨h.1, isChain_singleton _, fun before hbefore next hnext => ?_⟩, ?_⟩
  · rw [getLast?_concat] at hbefore
    cases hbefore
    cases hnext
    exact hjoin
  · cases l with
    | nil => exact h.2
    | cons first l => exact h.2

lemma Staged.record (h : Staged s staged) (hactive : s.active = true) {r : LogRecord} (howner : r.owner = s.owner)
    (hcontinued : r.continued = s.continued) (hpayload : r.payload = s.line) (hbytes : ∀ b ∈ r.bytes, b.owner = s.owner)
    (hrecords : s'.records = s.records ++ [r]) (hline : s'.line = []) (hjoin : Joined r s'.piece) : Staged s' staged := by
  refine ⟨⟨fun owner => ?_, ?_, ?_⟩, (fun _ b hb => by rw [hline] at hb; cases hb), by simp [hline]⟩
  · have htail : s'.tail owner = [] := by simp [LineStage.tail, hline]
    rw [← h.exact owner, LineStage.kept, htail, hrecords, filter_append, flatMap_append, append_nil,
      LineStage.kept]
    congr 1
    by_cases hsame : s.owner = owner
    · simp [LineStage.tail, howner, hsame, hpayload, hactive]
    · simp [LineStage.tail, howner, hsame]
  · rw [hrecords]
    refine forall_mem_append.mpr ⟨h.single, forall_mem_singleton.mpr fun b hb => ?_⟩
    rw [hbytes b hb, howner]
  · rw [hrecords]
    refine Ordered.concat (h.ordered.congr (fun _ => howner.symm) ?_) hjoin
    rw [LineStage.piece, hactive, Bool.true_and, hcontinued]

variable {b : StagedByte}

lemma Staged.put (h : Staged s staged) (hactive : s.active = true)
    (hroom : s.line.length < kernelLogLineBytes) (howner : s.owner = b.owner) :
    Staged (s.store b) (staged ++ [b]) := by
  rw [LineStage.store, if_pos hroom]
  refine ⟨⟨fun owner => ?_, h.single, h.ordered.congr (fun _ => rfl) rfl⟩, fun _ => ?_, ?_⟩
  · rw [filter_append, ← h.exact owner, LineStage.kept, LineStage.kept, append_assoc]
    congr 1
    by_cases hsame : s.owner = owner
    · simp [LineStage.tail, hactive, hsame, ← howner]
    · simp [LineStage.tail, hsame, ← howner]
  · exact forall_mem_append.mpr ⟨h.own hactive, forall_mem_singleton.mpr howner.symm⟩
  · rw [length_append]
    exact hroom

@[simp] lemma retainLine_line {cut : Bool} : (retainLine grants cut s).line = [] := by
  by_cases hline : s.line = []
  all_goals simp [retainLine, hline]

@[simp] lemma retainLine_owner {cut : Bool} : (retainLine grants cut s).owner = s.owner := by
  unfold retainLine
  split_ifs
  all_goals rfl

@[simp] lemma retainLine_active {cut : Bool} : (retainLine grants cut s).active = s.active := by
  unfold retainLine
  split_ifs
  all_goals rfl

lemma retainLine_records {cut : Bool} (hline : s.line ≠ []) (hgrant : grants s.attempts = true) :
    (retainLine grants cut s).records = s.records ++ [⟨s.owner, s.line, s.continued, cut⟩] := by
  rw [retainLine, if_neg hline, if_pos hgrant]

section
variable (h : Staged s staged)
include h

lemma Staged.cut (hactive : s.active = true) (hroom : s.line.length < kernelLogLineBytes)
    (hgrant : grants s.attempts = true) :
    Staged (cutLine grants s) staged ∧ (cutLine grants s).active = false := by
  have hrecords : (cutLine grants s).records =
      s.records ++ [⟨s.owner, s.line ++ [⟨s.owner, newline⟩], s.continued, true⟩] := by
    rw [cutLine, LineStage.store, if_pos hroom]
    exact retainLine_records (by simp) hgrant
  refine ⟨h.record hactive rfl rfl ?_ ?_ hrecords retainLine_line ?_, rfl⟩
  · simp [LogRecord.payload]
  · exact forall_mem_append.mpr ⟨h.own hactive, forall_mem_singleton.mpr rfl⟩
  · exact ⟨_, getLast?_concat, rfl⟩

lemma Staged.begin {owner : ℕ} (howner : s.active = true → s.owner = owner) :
    Staged (beginLine owner s) staged ∧ (beginLine owner s).active = true ∧ (beginLine owner s).owner = owner := by
  unfold beginLine
  split_ifs with hactive
  · exact ⟨h, hactive, howner hactive⟩
  · refine ⟨⟨⟨fun o => ?_, h.single, h.ordered.congr (fun hfalse => nomatch hfalse) ?_⟩, (fun _ b hb => nomatch hb),
      Nat.zero_le _⟩, rfl, rfl⟩
    · rw [← h.exact o]
      simp [LineStage.kept, LineStage.tail, hactive]
    · simp [LineStage.piece, hactive]

lemma Staged.room (hactive : s.active = true)
    (hgrant : s.line.length ≥ kernelLogLineBytes → grants s.attempts = true) :
    Staged (makeRoom grants s) staged ∧ (makeRoom grants s).active = true ∧ (makeRoom grants s).owner = s.owner ∧
      (makeRoom grants s).line.length < kernelLogLineBytes := by
  unfold makeRoom
  split_ifs with hfull
  · have hlength := le_antisymm h.bound hfull
    have hline : s.line ≠ [] := fun hnil => by rw [hnil] at hlength; cases hlength
    refine ⟨h.record hactive rfl rfl rfl (h.own hactive) (retainLine_records hline (hgrant hfull))
      retainLine_line ?_, retainLine_active.trans hactive, retainLine_owner, ?_⟩
    · simp [Joined, LineStage.piece, hactive, hlength]
    · simp [kernelLogLineBytes]
  · exact ⟨h, hactive, rfl, not_le.mp hfull⟩

lemma Staged.finish (hactive : s.active = true) (hlast : s.line.getLast? = some b)
    (hgrant : b.byte = newline → grants s.attempts = true) :
    Staged (endLine grants b.byte s) staged := by
  unfold endLine
  split_ifs with hnewline
  · have hline : s.line ≠ [] := fun hnil => by rw [hnil] at hlast; cases hlast
    exact h.record hactive rfl rfl rfl (h.own hactive) (retainLine_records hline (hgrant hnewline))
      retainLine_line ⟨b, hlast, hnewline⟩
  · exact h

end

lemma makeRoom_attempts :
    (makeRoom grants s).attempts = if s.line.length ≥ kernelLogLineBytes then s.attempts + 1 else s.attempts := by
  unfold makeRoom
  split_ifs with hfull
  · have hline : s.line ≠ [] := fun hnil => by rw [hnil] at hfull; cases hfull
    simp [retainLine, hline]
  · rfl

lemma store_attempts (b : StagedByte) : (s.store b).attempts = s.attempts := by
  unfold LineStage.store
  split_ifs
  all_goals rfl

lemma Staged.stage (h : Staged s staged) (howner : s.active = true → s.owner = b.owner)
    (hfull : s.active = true → s.line.length ≥ kernelLogLineBytes → grants s.attempts = true)
    (hend : b.byte = newline → s.active = true ∧
      grants (if s.line.length ≥ kernelLogLineBytes then s.attempts + 1 else s.attempts) = true) :
    Staged (endLine grants b.byte ((makeRoom grants (beginLine b.owner s)).store b)) (staged ++ [b]) := by
  obtain ⟨h₁, hactive₁, howner₁⟩ := h.begin howner
  have hgoes (hactive : s.active = true) : beginLine b.owner s = s := if_pos hactive
  obtain ⟨h₂, hactive₂, howner₂, hroom⟩ := h₁.room hactive₁ fun hlength => by
    by_cases hactive : s.active = true
    · rw [hgoes hactive] at hlength ⊢
      exact hfull hactive hlength
    · rw [beginLine, if_neg hactive] at hlength
      cases hlength
  have h₃ := h₂.put hactive₂ hroom (howner₂.trans howner₁)
  refine h₃.finish ?_ ?_ fun hnewline => ?_
  · rw [LineStage.store, if_pos hroom]
    exact hactive₂
  · rw [LineStage.store, if_pos hroom]
    exact getLast?_concat
  · obtain ⟨hactive, hgrant⟩ := hend hnewline
    rwa [store_attempts, makeRoom_attempts, hgoes hactive]

lemma Staged.step (h : Staged s staged) (hmeets : StepMeets grants s b) :
    Staged (stageNext grants (s, staged) b).1 (stageNext grants (s, staged) b).2 := by
  obtain ⟨hcut, hfull, hend⟩ := hmeets
  unfold stageNext stageByte
  dsimp only
  by_cases hother : s.active = true ∧ s.owner ≠ b.owner
  · obtain ⟨hroom, hgrant⟩ := hcut hother.1 hother.2
    obtain ⟨h₁, hactive₁⟩ := h.cut hother.1 hroom hgrant
    rw [if_pos hother]
    by_cases hnewline : b.byte = newline
    · rw [if_pos ⟨hactive₁, hnewline⟩]
      exact h₁
    · rw [if_neg fun hboth => hnewline hboth.2]
      exact h₁.stage (fun hfalse => nomatch hactive₁.symm.trans hfalse)
        (fun hfalse => nomatch hactive₁.symm.trans hfalse) fun hfalse => absurd hfalse hnewline
  · have howner : s.active = true → s.owner = b.owner := fun hactive => not_not.mp fun hne => hother ⟨hactive, hne⟩
    rw [if_neg hother]
    by_cases hskip : s.active = false ∧ b.byte = newline
    · rw [if_pos hskip]
      exact h
    · rw [if_neg hskip]
      refine h.stage howner (fun hactive => hfull hactive (howner hactive)) fun hnewline => ?_
      have hactive : s.active = true := Bool.eq_true_of_not_eq_false fun hfalse => hskip ⟨hfalse, hnewline⟩
      exact ⟨hactive, hend hactive (howner hactive) hnewline⟩

end Steps

lemma staged_start : Staged stageStart [] where
  exact _ := rfl
  single _ hr := nomatch hr
  ordered := ⟨isChain_singleton _, fun _ hr => some.inj hr ▸ rfl⟩
  own _ _ hb := nomatch hb
  bound := Nat.zero_le _

lemma stageBytes_concat (grants : ℕ → Bool) (input : List StagedByte) (b : StagedByte) :
    stageBytes grants (input ++ [b]) = stageNext grants (stageBytes grants input) b := by
  rw [stageBytes, foldl_append]
  rfl

lemma stepsMeet_concat {grants : ℕ → Bool} {input : List StagedByte} {b : StagedByte} :
    StepsMeet grants (input ++ [b]) ↔ StepsMeet grants input ∧ StepMeets grants (stageBytes grants input).1 b := by
  refine ⟨fun h => ⟨fun before b' hbefore => ?_, h input b (prefix_refl _)⟩, fun h before b' hbefore => ?_⟩
  · exact h before b' (hbefore.trans (prefix_append _ _))
  · obtain heq | hbefore := prefix_concat_iff.mp hbefore
    · obtain ⟨rfl, hb⟩ := append_inj' heq rfl
      cases hb
      exact h.2
    · exact h.1 before b' hbefore

/-- In a run whose steps all meet the condition, the records account for what was staged. -/
theorem staging_accounted (grants : ℕ → Bool) (input : List StagedByte) (hmeets : StepsMeet grants input) :
    Accounted (stageBytes grants input).1 (stageBytes grants input).2 := by
  suffices hstaged : Staged (stageBytes grants input).1 (stageBytes grants input).2 from hstaged.toAccounted
  induction input using reverseRecOn with
  | nil => exact staged_start
  | append_singleton input b ih =>
    obtain ⟨hbefore, hmeets⟩ := stepsMeet_concat.mp hmeets
    rw [stageBytes_concat]
    exact (ih hbefore).step hmeets

lemma stepMeets_granted {s : LineStage} (hroom : s.line.length < kernelLogLineBytes) (b : StagedByte) :
    StepMeets (fun _ => true) s b :=
  ⟨fun _ _ => ⟨hroom, rfl⟩, fun _ _ _ => rfl, fun _ _ _ => rfl⟩

/-- Owner 2 cuts a line of owner 1 and ends its own. -/
theorem staging_accounted_cut : ∃ r, stageBytes (fun _ => true) [⟨1, 97⟩, ⟨2, 98⟩, ⟨2, newline⟩] = r ∧
    r.1.records = [⟨1, [⟨1, 97⟩, ⟨1, newline⟩], false, true⟩, ⟨2, [⟨2, 98⟩, ⟨2, newline⟩], false, false⟩] ∧
      Accounted r.1 r.2 := by
  refine ⟨_, rfl, by decide, staging_accounted (fun _ => true) [⟨1, 97⟩, ⟨2, 98⟩, ⟨2, newline⟩] ?_⟩
  refine (@stepsMeet_concat _ [⟨1, 97⟩, ⟨2, 98⟩] _).mpr ⟨?_, stepMeets_granted (by decide) _⟩
  refine (@stepsMeet_concat _ [⟨1, 97⟩] _).mpr ⟨?_, stepMeets_granted (by decide) _⟩
  refine (@stepsMeet_concat _ [] _).mpr ⟨fun before b hbefore => ?_, stepMeets_granted (by decide) _⟩
  cases before <;> cases prefix_nil.mp hbefore

lemma stageBytes_replicate (grants : ℕ → Bool) {b : StagedByte} (hb : b.byte ≠ newline) (n : ℕ)
    (hn : n < kernelLogLineBytes) :
    stageBytes grants (replicate (n + 1) b) =
      (⟨true, b.owner, replicate (n + 1) b, false, [], 0⟩, replicate (n + 1) b) := by
  induction n with
  | zero => simp [stageBytes, stageNext, stageByte, stageStart, beginLine, makeRoom, LineStage.store, endLine, hb,
      kernelLogLineBytes]
  | succ n ih =>
    rw [replicate_succ', stageBytes_concat, ih (by omega)]
    have hroom : ¬kernelLogLineBytes ≤ n + 1 := by omega
    simp [stageNext, stageByte, beginLine, makeRoom, LineStage.store, endLine, hb, hroom, hn, replicate_succ']

/-- A line that exactly fills the stage and is cut leaves a record without a newline. -/
theorem full_line_cut : ∃ r, stageBytes (fun _ => true) (replicate kernelLogLineBytes ⟨1, 97⟩ ++ [⟨2, 98⟩]) = r ∧
    r.1.records = [⟨1, replicate kernelLogLineBytes ⟨1, 97⟩, false, true⟩] ∧
      r.1.kept 1 = replicate (kernelLogLineBytes - 1) ⟨1, 97⟩ ∧ ¬Accounted r.1 r.2 := by
  have hstaged := stageBytes_replicate (fun _ => true) (show (⟨1, 97⟩ : StagedByte).byte ≠ newline by decide) 639
    (by decide)
  obtain ⟨n, hn⟩ : ∃ n, n = 639 := ⟨_, rfl⟩
  have hsize : kernelLogLineBytes = n + 1 := hn ▸ rfl
  rw [← hn] at hstaged
  have hnext := stageBytes_concat (fun _ => true) (replicate (n + 1) ⟨1, 97⟩) ⟨2, 98⟩
  rw [hstaged] at hnext
  rw [hsize]
  simp only [stageNext, stageByte, cutLine, retainLine, beginLine, makeRoom, LineStage.store, endLine, hsize] at hnext
  refine ⟨_, hnext, ?_, ?_, fun haccounted => ?_⟩
  · simp [newline]
  · simp [newline, LineStage.kept, LineStage.tail, LogRecord.payload]
  · have hkept := congrArg length (haccounted.exact 1)
    simp [newline, LineStage.kept, LineStage.tail, LogRecord.payload] at hkept

end Takibi.Printk
