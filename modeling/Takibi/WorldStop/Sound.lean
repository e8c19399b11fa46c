import Takibi.WorldStop.Model

/-! What holds of the world stop whatever the cores do in between: one task is behind the gate, and a
core whose acknowledgement counts is in its waiting loop. -/

namespace Takibi.WorldStop
open Function Option List Bool Nat

def Task.holds : Task → Bool
  | .idle | .claimStop _ _ | .claimMachine _ | .claimStart _ => false
  | _ => true

def Task.requested : Task → Option ℕ
  | .scan _ generation _ _ _ _ | .stopped _ generation | .stoppedSome _ generation _
  | .kept _ generation | .withdraw generation => some generation
  | _ => none

def Frame.generation : Frame → Option ℕ
  | .entered => none
  | .loaded generation | .checked generation | .waiting generation | .leaving generation =>
    some generation

def Waits (w : World) (cpu : Cpu) (generation : ℕ) : Prop := .waiting generation ∈ w.frames cpu

def AllWait (w : World) (cpu : Cpu) (mask generation bound : ℕ) : Prop :=
  ∀ c ≠ cpu, c.val < bound → inMask mask c → Waits w c generation

def TaskOk (w : World) (cpu : Cpu) : Task → Prop
  | .nameOwner _ generation _ | .request _ generation _ =>
    w.generation = generation ∧ 0 < generation ∧ ∀ g ∈ w.published, g < generation
  | .scan mask generation _ i complete _ =>
    w.requested = generation ∧ 0 < generation ∧ (complete = true → AllWait w cpu mask generation i)
  | .stopped mask generation | .kept mask generation =>
    w.requested = generation ∧ AllWait w cpu mask generation kernelMaxCores
  | .stoppedSome _ generation _ | .withdraw generation => w.requested = generation
  | _ => True

structure Sound (w : World) : Prop where
  single : ∀ c c', (w.tasks c).holds = true → (w.tasks c').holds = true → c = c'
  gate : ∀ c, (w.tasks c).holds = true → w.claimed ≠ 0
  quiet : (∀ c, (w.tasks c).requested = none) → w.requested = 0
  task : ∀ c, TaskOk w c (w.tasks c)
  frames : ∀ c, ∀ f ∈ w.frames c, ∀ g, f.generation = some g →
    g ∈ w.published ∧ (f = .leaving g → w.requested ≠ g)
  ack : ∀ c, w.ack c ≠ 0 → .waiting (w.ack c) ∈ w.frames c ∨ .leaving (w.ack c) ∈ w.frames c
  order : w.published.Pairwise (· > ·)
  bound : ∀ g ∈ w.published, 0 < g ∧ g ≤ w.generation
  current : w.requested ≠ 0 → w.requested ∈ w.published
  exhausted : w.generation ≤ usizeMax

variable {generation : ℕ} {frames : List Frame} {w : World} {c : Cpu}

section Steps
variable {w w' : World} {cpu : Cpu} {t : Task}

lemma Task.holds_of_requested {g : ℕ} (h : t.requested = some g) : t.holds = true := by
  cases t <;> first | rfl | cases h

lemma Task.requested_of_not_holds (h : t.holds = false) : t.requested = none := by
  cases t <;> first | rfl | cases h

lemma taskOk_of_not_holds (h : t.holds = false) : TaskOk w cpu t := by
  cases t <;> trivial

lemma Sound.unrequested (h : Sound w) (hholds : (w.tasks cpu).holds = true)
    (hnone : (w.tasks cpu).requested = none) : w.requested = 0 := by
  refine h.quiet fun c => ?_
  cases hc : (w.tasks c).requested with
  | none => rfl
  | some g =>
    rw [h.single c cpu (Task.holds_of_requested hc) hholds, hnone] at hc
    cases hc

lemma Sound.task_other (h : Sound w) (hholds : (w.tasks cpu).holds = true) (hc : c ≠ cpu)
    (w' : World) : TaskOk w' c (w.tasks c) := by
  refine taskOk_of_not_holds (eq_false_iff.mpr fun hother => hc (h.single c cpu hother hholds))

lemma setTask_self : (w.setTask cpu t).tasks cpu = t := update_self ..

lemma setTask_of_ne (hc : c ≠ cpu) : (w.setTask cpu t).tasks c = w.tasks c := update_of_ne hc ..

/-! ## Handlers -/

lemma TaskOk.of_waits (h : TaskOk w cpu t) (hgeneration : w'.generation = w.generation)
    (hpublished : w'.published = w.published) (hrequested : w'.requested = w.requested)
    (hwaits : ∀ c, Waits w c w.requested → Waits w' c w.requested) : TaskOk w' cpu t := by
  have hall : ∀ {mask bound}, AllWait w cpu mask w.requested bound →
      AllWait w' cpu mask w.requested bound := fun hw c hc hlt hmask => hwaits c (hw c hc hlt hmask)
  cases t with
  | nameOwner | request => exact ⟨hgeneration.trans h.1, h.2.1, hpublished ▸ h.2.2⟩
  | scan mask generation remaining i complete stoppedMask =>
    obtain ⟨rfl, hpos, hscan⟩ := h
    exact ⟨hrequested, hpos, fun hcomplete => hall (hscan hcomplete)⟩
  | stopped mask generation | kept mask generation =>
    obtain ⟨rfl, hwait⟩ := h
    exact ⟨hrequested, hall hwait⟩
  | stoppedSome | withdraw => exact hrequested.trans h
  | idle | claimStop | claimMachine | capture | advance | claimStart | join | joined | reserved | leave
  | left | free => trivial

def FrameOk (w : World) (f : Frame) : Prop := ∀ g, f.generation = some g →
  g ∈ w.published ∧ (f = .leaving g → w.requested ≠ g)

section
variable (h : Sound w)
include h

lemma Sound.handler {value : ℕ} (hframes : ∀ f ∈ frames, FrameOk w f)
    (hack : value ≠ 0 → .waiting value ∈ frames ∨ .leaving value ∈ frames)
    (hwaits : Waits w cpu w.requested → .waiting w.requested ∈ frames) :
    Sound ((w.setAck cpu value).setFrames cpu frames) := by
  have hself : ((w.setAck cpu value).setFrames cpu frames).frames cpu = frames := update_self ..
  have hother : ∀ c ≠ cpu, ((w.setAck cpu value).setFrames cpu frames).frames c = w.frames c :=
    fun c hc => update_of_ne hc ..
  refine ⟨h.single, h.gate, h.quiet, fun c => ?_, fun c => ?_, fun c hc => ?_, h.order, h.bound,
    h.current, h.exhausted⟩
  · refine TaskOk.of_waits (h.task c) rfl rfl rfl fun c' hc' => ?_
    by_cases hcpu : c' = cpu
    · rw [hcpu] at hc' ⊢
      rw [Waits, hself]
      exact hwaits hc'
    · rw [Waits, hother c' hcpu]
      exact hc'
  · by_cases hcpu : c = cpu
    · rw [hcpu, hself]
      exact hframes
    · rw [hother c hcpu]
      exact h.frames c
  · by_cases hcpu : c = cpu
    · subst hcpu
      have hvalue : ((w.setAck c value).setFrames c frames).ack c = value := update_self ..
      rw [hself, hvalue]
      rw [hvalue] at hc
      exact hack hc
    · have hkept : ((w.setAck cpu value).setFrames cpu frames).ack c = w.ack c := update_of_ne hcpu ..
      rw [hother c hcpu, hkept]
      rw [hkept] at hc
      exact h.ack c hc

lemma Sound.setFrames (hframes : ∀ f ∈ frames, FrameOk w f)
    (hack : w.ack cpu ≠ 0 → .waiting (w.ack cpu) ∈ frames ∨ .leaving (w.ack cpu) ∈ frames)
    (hwaits : Waits w cpu w.requested → .waiting w.requested ∈ frames) :
    Sound (w.setFrames cpu frames) := by
  have hsame : w.setAck cpu (w.ack cpu) = w := by
    rw [World.setAck, update_eq_self]
  have hset := h.handler hframes hack hwaits
  rwa [hsame] at hset

lemma Sound.interrupt (cpu : Cpu) : Sound (w.setFrames cpu (.entered :: w.frames cpu)) := by
  refine h.setFrames (fun f hf => ?_) (fun hack => ?_) fun hwaits => mem_cons_of_mem _ hwaits
  · obtain rfl | hf := mem_cons.mp hf
    · nofun
    · exact h.frames cpu f hf
  · exact (h.ack cpu hack).imp (mem_cons_of_mem _) (mem_cons_of_mem _)

lemma Sound.handle {f : Frame} {rest : List Frame} (hcpu : w.frames cpu = f :: rest) :
    Sound (w.handle cpu rest f) := by
  have hrest : ∀ f' ∈ rest, FrameOk w f' := fun f' hf' => h.frames cpu f' (hcpu ▸ mem_cons_of_mem _ hf')
  have hcons : ∀ f', FrameOk w f' → ∀ f'' ∈ f' :: rest, FrameOk w f'' := fun f' hf' =>
    forall_mem_cons.mpr ⟨hf', hrest⟩
  have hmine : FrameOk w f := h.frames cpu f (hcpu ▸ mem_cons_self)
  have hack := h.ack cpu
  rw [hcpu] at hack
  -- A frame that neither waits nor leaves is behind no acknowledgement and no stop.
  have hackRest : (∀ g, f ≠ .waiting g ∧ f ≠ .leaving g) → w.ack cpu ≠ 0 →
      .waiting (w.ack cpu) ∈ rest ∨ .leaving (w.ack cpu) ∈ rest := fun hf hne =>
    (hack hne).imp (fun hw => (mem_cons.mp hw).resolve_left fun heq => (hf _).1 heq.symm)
      fun hl => (mem_cons.mp hl).resolve_left fun heq => (hf _).2 heq.symm
  have hwaitsRest : f ≠ .waiting w.requested → Waits w cpu w.requested → .waiting w.requested ∈ rest :=
    fun hf hw => by
      rw [Waits, hcpu] at hw
      exact (mem_cons.mp hw).resolve_left fun heq => hf heq.symm
  cases f with
  | entered =>
    have hnot : ∀ g, Frame.entered ≠ .waiting g ∧ Frame.entered ≠ .leaving g := fun g => ⟨nofun, nofun⟩
    unfold World.handle
    dsimp only
    split_ifs with hzero
    · exact h.setFrames hrest (hackRest hnot) (hwaitsRest nofun)
    · refine h.setFrames (hcons _ fun g hg => ?_)
        (fun hne => (hackRest hnot hne).imp (mem_cons_of_mem _) (mem_cons_of_mem _))
        fun hw => mem_cons_of_mem _ (hwaitsRest nofun hw)
      cases hg
      exact ⟨h.current hzero, nofun⟩
  | loaded g =>
    have hnot : ∀ g', Frame.loaded g ≠ .waiting g' ∧ Frame.loaded g ≠ .leaving g' :=
      fun g' => ⟨nofun, nofun⟩
    unfold World.handle
    dsimp only
    split_ifs
    · exact h.setFrames hrest (hackRest hnot) (hwaitsRest nofun)
    · refine h.setFrames (hcons _ fun g' hg => ?_)
        (fun hne => (hackRest hnot hne).imp (mem_cons_of_mem _) (mem_cons_of_mem _))
        fun hw => mem_cons_of_mem _ (hwaitsRest nofun hw)
      exact ⟨(hmine g' hg).1, nofun⟩
  | checked g =>
    refine h.handler (hcons _ fun g' hg => ⟨(hmine g' hg).1, nofun⟩)
      (fun _ => .inl mem_cons_self) fun hw => mem_cons_of_mem _ (hwaitsRest nofun hw)
  | waiting g =>
    unfold World.handle
    dsimp only
    split_ifs with hsame
    · exact h
    · refine h.setFrames (hcons _ fun g' hg => ?_) (fun hne => ?_) fun hw => ?_
      · obtain rfl : g = g' := some.inj hg
        exact ⟨(hmine g rfl).1, fun _ => hsame⟩
      · obtain hw | hl := hack hne
        · obtain heq | hmem := mem_cons.mp hw
          · exact .inr (by rw [Frame.waiting.inj heq]; exact mem_cons_self)
          · exact .inl (mem_cons_of_mem _ hmem)
        · exact .inr (mem_cons_of_mem _ ((mem_cons.mp hl).resolve_left nofun))
      · exact mem_cons_of_mem _ (hwaitsRest (fun heq => hsame (Frame.waiting.inj heq).symm) hw)
  | leaving g => exact h.handler hrest (fun hne => absurd rfl hne) (hwaitsRest nofun)

/-! ## Tasks -/

lemma Sound.setTask (owner participants : ℕ) {before : Task} (ht : w.tasks cpu = before)
    (hholds : t.holds = true → before.holds = true) (hrequested : t.requested = before.requested)
    (hok : TaskOk w cpu t) :
    Sound { w.setTask cpu t with owner := owner, participants := participants } := by
  subst ht
  have hall : ∀ c, ((w.setTask cpu t).tasks c).holds = true → (w.tasks c).holds = true := fun c => by
    by_cases hc : c = cpu
    · rw [hc, setTask_self]
      exact hholds
    · rw [setTask_of_ne hc]
      exact id
  refine ⟨fun c c' hc hc' => h.single c c' (hall c hc) (hall c' hc'), fun c hc => h.gate c (hall c hc),
    fun hnone => h.quiet fun c => ?_, (forall_update_iff w.tasks (TaskOk _)).mpr ⟨hok.of_waits rfl rfl rfl fun _ => id,
      fun c _ => (h.task c).of_waits rfl rfl rfl fun _ => id⟩, h.frames, h.ack, h.order, h.bound, h.current, h.exhausted⟩
  have hc := hnone c
  change ((w.setTask cpu t).tasks c).requested = none at hc
  by_cases hcpu : c = cpu
  · rw [hcpu, setTask_self, hrequested] at hc
    rw [hcpu]
    exact hc
  · rwa [setTask_of_ne hcpu] at hc

lemma Sound.hold (hholds : (w.tasks cpu).holds = true) {claimed requested : ℕ}
    {published : List ℕ} (hgate : t.holds = true → claimed ≠ 0)
    (hquiet : t.requested = none → requested = 0)
    (hok : TaskOk { w with generation := generation, requested := requested, published := published } cpu t)
    (hframes : ∀ g ∈ w.published, g ∈ published ∧ (w.requested ≠ g → requested ≠ g))
    (horder : published.Pairwise (· > ·)) (hbound : ∀ g ∈ published, 0 < g ∧ g ≤ generation)
    (hcurrent : requested ≠ 0 → requested ∈ published) (hexhausted : generation ≤ usizeMax) :
    Sound { w.setTask cpu t with
      claimed := claimed, generation := generation, requested := requested, published := published } := by
  have hall : ∀ c, ((w.setTask cpu t).tasks c).holds = true → c = cpu := fun c hc => by
    by_contra hcpu
    rw [setTask_of_ne hcpu] at hc
    exact hcpu (h.single c cpu hc hholds)
  refine ⟨fun c c' hc hc' => (hall c hc).trans (hall c' hc').symm, fun c hc => ?_, fun hnone => ?_,
    (forall_update_iff w.tasks (TaskOk _)).mpr ⟨hok.of_waits rfl rfl rfl fun _ => id,
      fun c hc => h.task_other hholds hc _⟩, fun c f hf g hg => ?_, h.ack, horder, hbound, hcurrent, hexhausted⟩
  · have hcpu := hall c hc
    subst hcpu
    change ((w.setTask c t).tasks c).holds = true at hc
    rw [setTask_self] at hc
    exact hgate hc
  · have hmine := hnone cpu
    change ((w.setTask cpu t).tasks cpu).requested = none at hmine
    rw [setTask_self] at hmine
    exact hquiet hmine
  · obtain ⟨hmem, hleaving⟩ := h.frames c f hf g hg
    exact ⟨(hframes g hmem).1, fun heq => (hframes g hmem).2 (hleaving heq)⟩

lemma Sound.acquire (hfree : w.claimed = 0) {holder : ℕ} (hholder : holder ≠ 0)
    (hok : ∀ w', TaskOk w' cpu t) :
    Sound { w.setTask cpu t with claimed := holder } := by
  have hnobody : ∀ c, (w.tasks c).holds = false := fun c =>
    eq_false_iff.mpr fun hc => h.gate c hc hfree
  have hall : ∀ c, ((w.setTask cpu t).tasks c).holds = true → c = cpu := fun c hc => by
    by_contra hcpu
    rw [setTask_of_ne hcpu, hnobody c] at hc
    cases hc
  refine ⟨fun c c' hc hc' => (hall c hc).trans (hall c' hc').symm, fun _ _ => hholder,
    fun _ => h.quiet fun c => Task.requested_of_not_holds (hnobody c),
    (forall_update_iff w.tasks (TaskOk _)).mpr ⟨hok _, fun c _ => taskOk_of_not_holds (hnobody c)⟩, h.frames, h.ack,
    h.order, h.bound, h.current, h.exhausted⟩

lemma Sound.keep {before : Task} (ht : w.tasks cpu = before)
    (hholds : t.holds = true → before.holds = true) (hrequested : t.requested = before.requested)
    (hok : TaskOk w cpu t) : Sound (w.setTask cpu t) :=
  h.setTask w.owner w.participants ht hholds hrequested hok

lemma Sound.claimAs (hout : (w.tasks cpu).holds = false) {holder : ℕ} (hholder : holder ≠ 0)
    {refused : ℕ → Task} (hok : ∀ w', TaskOk w' cpu t)
    (hrefused : ∀ current, (refused current).holds = false) :
    Sound (w.claimAs cpu holder t refused) := by
  unfold World.claimAs
  split_ifs with hfree
  · exact h.acquire hfree hholder hok
  · have hout' := hrefused w.claimed
    refine h.keep rfl (fun hholds => ?_) ((Task.requested_of_not_holds hout').trans (Task.requested_of_not_holds hout).symm)
      (taskOk_of_not_holds hout')
    rw [hout'] at hholds
    cases hholds

lemma Sound.request {mask spins : ℕ}
    (ht : w.tasks cpu = .request mask generation spins) :
    Sound { w.setTask cpu (.scan mask generation spins kernelMaxCores false 0) with
      requested := generation
      published := generation :: w.published } := by
  have hok := h.task cpu
  rw [ht] at hok
  obtain ⟨hgeneration, hpos, hfresh⟩ := hok
  have hholds : (w.tasks cpu).holds = true := by rw [ht]; rfl
  refine h.hold hholds (fun _ => h.gate cpu hholds) nofun ⟨rfl, hpos, nofun⟩ (fun g hg => ?_) ?_
    (fun g hg => ?_) (fun _ => mem_cons_self) h.exhausted
  · exact ⟨mem_cons_of_mem _ hg, fun _ => (hfresh g hg).ne'⟩
  · exact pairwise_cons.mpr ⟨hfresh, h.order⟩
  · obtain rfl | hg := mem_cons.mp hg
    · exact ⟨hpos, hgeneration.ge⟩
    · exact h.bound g hg

lemma Sound.waits_of_ack (hpos : 0 < generation)
    (hrequested : w.requested = generation) (hack : w.ack c = generation) :
    Waits w c generation := by
  have hne : w.ack c ≠ 0 := by
    rw [hack]
    exact hpos.ne'
  obtain hw | hl := h.ack c hne
  · rwa [hack] at hw
  · rw [hack] at hl
    exact absurd hrequested ((h.frames c _ hl generation rfl).2 rfl)

end

section Scan
variable {mask generation remaining i stoppedMask : ℕ} {complete : Bool}

lemma Sound.look (h : Sound w) {i : Cpu}
    (ht : w.tasks cpu = .scan mask generation remaining i complete stoppedMask) :
    Sound (w.look cpu mask generation remaining i complete stoppedMask) := by
  have hok := h.task cpu
  rw [ht] at hok
  obtain ⟨hrequested, hpos, hwait⟩ := hok
  have hnext : ∀ complete' stoppedMask', (complete' = true → AllWait w cpu mask generation (i.val + 1)) →
      Sound (w.setTask cpu (.scan mask generation remaining (i.val + 1) complete' stoppedMask')) :=
    fun complete' stoppedMask' hwait' => h.keep ht (fun _ => rfl) rfl ⟨hrequested, hpos, hwait'⟩
  -- The cores before `i` wait already.
  have hextend : (i ≠ cpu → inMask mask i → Waits w i generation) → complete = true →
      AllWait w cpu mask generation (i.val + 1) := fun hi hcomplete c hc hlt hmask => by
    by_cases hci : c = i
    · subst hci
      exact hi hc hmask
    · have hne : c.val ≠ i.val := fun heq => hci (Fin.ext heq)
      exact hwait hcomplete c hc (by omega) hmask
  unfold World.look
  split_ifs with hin hack
  · exact hnext _ _ nofun
  · exact hnext _ _ (hextend fun _ _ => h.waits_of_ack hpos hrequested (not_not.mp hack))
  · exact hnext _ _ (hextend fun hne hmask => absurd ⟨hmask, hne⟩ hin)

lemma Sound.endPass (h : Sound w) (hi : ¬ i < kernelMaxCores)
    (ht : w.tasks cpu = .scan mask generation remaining i complete stoppedMask) :
    Sound (w.endPass cpu mask generation remaining complete stoppedMask) := by
  have hok := h.task cpu
  rw [ht] at hok
  obtain ⟨hrequested, hpos, hwait⟩ := hok
  unfold World.endPass
  split_ifs with hmore hcomplete
  · refine h.keep ht (fun _ => rfl) rfl ⟨hrequested, hpos, fun _ c _ hlt => ?_⟩
    exact absurd hlt (not_lt_zero _)
  · refine h.keep ht (fun _ => rfl) rfl ⟨hrequested, fun c hc hlt hmask => ?_⟩
    exact hwait hcomplete c hc (hlt.trans_le (not_lt.mp hi)) hmask
  · exact h.keep ht (fun _ => rfl) rfl hrequested

end Scan

lemma Sound.perform (h : Sound w) {inTime : Bool}
    (hrun : w.perform cpu inTime (w.tasks cpu) = some w') : Sound w' := by
  have hok := h.task cpu
  generalize ht : w.tasks cpu = task at hrun hok
  cases task with
  | idle | stopped | stoppedSome | kept | reserved => cases hrun
  | claimStop cores spins | claimStart core =>
    cases hrun
    exact h.claimAs (by rw [ht]; rfl) (by decide) (fun _ => trivial) fun _ => rfl
  | claimMachine spins =>
    cases hrun
    refine h.claimAs (by rw [ht]; rfl) (by decide) (fun _ => trivial) fun _ => ?_
    split_ifs <;> rfl
  | capture spins =>
    cases hrun
    split_ifs <;> exact h.keep ht (fun _ => rfl) rfl trivial
  | advance mask spins =>
    have hholds : (w.tasks cpu).holds = true := by rw [ht]; rfl
    have hzero := h.unrequested hholds (by rw [ht]; rfl)
    simp only [World.perform] at hrun
    split_ifs at hrun with hmax
    · cases hrun
      exact h.keep ht (fun _ => rfl) rfl trivial
    · cases hrun
      refine h.hold hholds (fun _ => h.gate cpu hholds) (fun _ => hzero)
        ⟨rfl, succ_pos _, fun g hg => lt_succ_of_le (h.bound g hg).2⟩ (fun g hg => ⟨hg, id⟩)
        h.order (fun g hg => ⟨(h.bound g hg).1, (h.bound g hg).2.trans (le_succ _)⟩) h.current ?_
      have := h.exhausted
      omega
  | nameOwner mask generation spins =>
    cases hrun
    exact h.setTask (cpu.val + 1) w.participants ht (fun _ => rfl) rfl hok
  | request mask generation spins =>
    cases hrun
    exact h.request ht
  | scan mask generation remaining i complete stoppedMask =>
    simp only [World.perform] at hrun
    split_ifs at hrun with hi
    · cases hrun
      exact h.look ht
    · cases hrun
      exact h.endPass hi ht
  | withdraw generation =>
    have hholds : (w.tasks cpu).holds = true := by rw [ht]; rfl
    cases hrun
    refine h.hold hholds (fun _ => h.gate cpu hholds) (fun _ => rfl) trivial
      (fun g hg => ⟨hg, fun _ => (h.bound g hg).1.ne⟩) h.order h.bound (fun hne => absurd rfl hne)
      h.exhausted
  | join core | leave core =>
    cases hrun
    exact h.keep ht (fun _ => rfl) rfl trivial
  | joined core mask | left core mask =>
    cases hrun
    exact h.setTask w.owner _ ht (fun _ => rfl) rfl trivial
  | free =>
    have hholds : (w.tasks cpu).holds = true := by rw [ht]; rfl
    have hzero := h.unrequested hholds (by rw [ht]; rfl)
    cases hrun
    exact h.hold hholds nofun (fun _ => hzero) trivial (fun g hg => ⟨hg, id⟩) h.order h.bound h.current
      h.exhausted

lemma Sound.run (h : Sound w) {inTime : Bool} (hrun : w.run cpu inTime = some w') : Sound w' := by
  unfold World.run at hrun
  cases hframes : w.frames cpu with
  | nil =>
    rw [hframes] at hrun
    exact h.perform hrun
  | cons f rest =>
    rw [hframes] at hrun
    cases hrun
    exact h.handle hframes

lemma Sound.decide (h : Sound w) {f : Task → Option Task}
    (hf : ∀ before t, f before = some t → TaskOk w cpu before →
      (t.holds = true → before.holds = true) ∧ t.requested = before.requested ∧ TaskOk w cpu t)
    (hstep : w.decide cpu f = some w') : Sound w' := by
  obtain ⟨-, hmap⟩ := ite_none_right_eq_some.mp hstep
  obtain ⟨t, ht, rfl⟩ := map_eq_some_iff.mp hmap
  obtain ⟨hholds, hrequested, hok⟩ := hf _ t ht (h.task cpu)
  exact h.keep rfl hholds hrequested hok

lemma Sound.step (h : Sound w) {e : Event} (hstep : w.step e = some w') : Sound w' := by
  cases e with
  | interrupt cpu =>
    cases hstep
    exact h.interrupt cpu
  | run cpu inTime => exact h.run hstep
  | stop cpu cores spins | reserve cpu core =>
    simp only [World.step] at hstep
    refine h.decide (fun before t ht _ => ?_) hstep
    cases before <;> try cases ht
    simp only at ht
    split_ifs at ht <;> cases ht <;> exact ⟨id, rfl, trivial⟩
  | machineStop cpu spins =>
    simp only [World.step] at hstep
    refine h.decide (fun before t ht _ => ?_) hstep
    cases before <;> cases ht
    exact ⟨id, rfl, trivial⟩
  | release cpu =>
    simp only [World.step] at hstep
    refine h.decide (fun before t ht hok => ?_) hstep
    cases before <;> cases ht
    · exact ⟨id, rfl, hok.1⟩
    · exact ⟨id, rfl, hok⟩
  | keepForever cpu =>
    simp only [World.step] at hstep
    refine h.decide (fun before t ht hok => ?_) hstep
    cases before <;> cases ht
    exact ⟨id, rfl, hok⟩
  | finish cpu status =>
    simp only [World.step] at hstep
    refine h.decide (fun before t ht _ => ?_) hstep
    cases before <;> try cases ht
    simp only at ht
    split_ifs at ht <;> cases ht <;> exact ⟨fun _ => rfl, rfl, trivial⟩

end Steps

/-! ## Runs -/

def Steps (w w' : World) : Prop := ∃ e, w.step e = some w'

lemma initial_sound : Sound .initial :=
  ⟨fun _ _ h => Bool.noConfusion h, fun _ h => Bool.noConfusion h, fun _ => rfl, fun _ => trivial,
    fun _ _ hf => absurd hf not_mem_nil, fun _ h => absurd rfl h, .nil,
    fun _ hg => absurd hg not_mem_nil, fun h => absurd rfl h, zero_le _⟩

lemma run_sound (hrun : Relation.ReflTransGen Steps .initial w) : Sound w := by
  induction hrun with
  | refl => exact initial_sound
  | tail _ hstep ih =>
    obtain ⟨e, heq⟩ := hstep
    exact ih.step heq

structure Excludes (w : World) : Prop where
  /-- One task at most is between its claim of the gate and its release, with a token, with a
  reservation, or on its way to one. -/
  single : ∀ c c', (w.tasks c).holds = true → (w.tasks c').holds = true → c = c'
  /-- Under a complete stop every other core of the mask is in its waiting loop, for its generation. -/
  held : ∀ c mask generation, w.tasks c = .stopped mask generation ∨ w.tasks c = .kept mask generation →
    ∀ c' ≠ c, inMask mask c' → Waits w c' generation
  /-- An acknowledgement that a scan counts is not of an earlier generation, nor of a core on its way
  out. -/
  counted : ∀ c mask generation remaining i complete stoppedMask,
    w.tasks c = .scan mask generation remaining i complete stoppedMask →
    ∀ c', w.ack c' = generation → Waits w c' generation
  fresh : w.published.Nodup ∧ ∀ generation ∈ w.published, 0 < generation ∧ generation ≤ usizeMax

theorem world_stop_excludes {w : World} (hrun : Relation.ReflTransGen Steps .initial w) : Excludes w := by
  have h := run_sound hrun
  refine ⟨h.single, fun c mask generation htask c' hc' hmask => ?_,
    fun c mask generation remaining i complete stoppedMask htask c' hack => ?_, ?_, fun g hg => ?_⟩
  · have hok := h.task c
    obtain htask | htask := htask <;> rw [htask] at hok <;> exact hok.2 c' hc' c'.isLt hmask
  · have hok := h.task c
    rw [htask] at hok
    exact h.waits_of_ack hok.2.1 hok.1 hack
  · exact h.order.imp fun hlt => hlt.ne'
  · obtain ⟨hpos, hle⟩ := h.bound g hg
    exact ⟨hpos, hle.trans h.exhausted⟩

def World.runs : List Event → World → Option World
  | [], w => some w
  | e :: es, w => (w.step e).bind (runs es)

lemma World.runs_reaches {es : List Event} {w' : World} (h : w.runs es = some w') :
    Relation.ReflTransGen Steps w w' := by
  induction es generalizing w with
  | nil =>
    cases h
    exact .refl
  | cons e es ih =>
    obtain ⟨w₁, hstep, hrest⟩ := bind_eq_some_iff.mp h
    exact .head ⟨e, hstep⟩ (ih hrest)

open scoped Smp

def stopOfOne : List Event :=
  [.stop 0 2 1, .run 0 true, .run 0 true, .run 0 true, .run 0 true, .interrupt 1, .run 1 true,
    .run 1 true, .run 1 true, .interrupt 1, .run 0 true, .run 0 true, .run 0 true, .run 0 true,
    .run 0 true, .run 0 true]

theorem world_stop_excludes_stopOfOne : ∃ w, World.initial.runs stopOfOne = some w ∧
    w.tasks 0 = .stopped 3 1 ∧ w.frames 1 = [.entered, .waiting 1] ∧ Excludes w := by
  have hends : (World.initial.runs stopOfOne).map (fun w => (w.tasks 0, w.frames 1)) =
      some (.stopped 3 1, [.entered, .waiting 1]) := by
    decide +kernel
  obtain ⟨w, hrun, heq⟩ := map_eq_some_iff.mp hends
  obtain ⟨htask, hframes⟩ := Prod.mk.inj heq
  exact ⟨w, hrun, htask, hframes, world_stop_excludes (World.runs_reaches hrun)⟩

end Takibi.WorldStop
