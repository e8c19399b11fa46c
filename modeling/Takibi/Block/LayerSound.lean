import Takibi.Block.Fresh

/-! The operations of the block layer, in any number and interleaved in any way: a read delivers bytes that
are no older than the last write that returned before it began. -/

namespace Takibi.Block
open Concurrent Function Access List Disk Option Nat
variable {D : Type} {first : Key → D} {t : ℕ} {m m₀ : Machine D} {slot : Slot} {call : Call D}
variable {key : Key} {device : KernelBlockDevice} {block : ℕ}

structure Begun (t : ℕ) (call : Call D) (m : Machine D) : Prop where
  began : m.disk.calls t = some call
  stop : call.stop = none
  puts : ∀ key, ∀ p ∈ m.disk.puts key, p.writer ≠ some t
  counted : ∀ word, t ∉ m.disk.counted word

variable {m' : Machine D} {source : D} {vec : Word → ℕ}

lemma Since.not_put (h : Since first t m m') (hputs : ∀ p ∈ m.disk.puts key, p.writer ≠ some t) :
    ∀ p ∈ m'.disk.puts key, p.writer ≠ some t := by
  intro p hp hw
  obtain ⟨j, hj⟩ := getElem?_of_mem hp
  have hlt := h.notBy.puts key j p hj hw
  rw [getElem?_of_isPrefix (h.grows.puts key) hlt] at hj
  exact hputs p (mem_of_getElem? hj) hw

lemma Begun.since (h : Begun t call m) (hs : Since first t m m') : Begun t call m' where
  began := hs.notBy.calls.trans h.began
  stop := h.stop
  puts := fun key => hs.not_put (h.puts key)
  counted := fun word hmem => h.counted word (hs.notBy.counted word hmem)

lemma Begun.returns {answer : Option D} (h : Begun t call m)
    (hanswer : ∀ data, answer = some data → ∀ device block, call.op = .read device block →
      Copy m.disk (device.key block) data call.known) : m.disk.Returns t answer call :=
  ⟨h.began, h.stop, fun key p hp hw => absurd hw (h.puts key p hp), hanswer⟩

lemma stable_returns (answer : Option D) :
    (layerEnv first t).Stable fun m => ∃ call, m.disk.Returns t answer call := fun _ _ hs h => by
  obtain ⟨call, hcall⟩ := h
  exact ⟨call, hcall.rely hs.toSince⟩

lemma acquired {α : Type} {f : Slot → BlockCode D α} {Q : α → Machine D → Prop}
    (h : ∀ slot m₁, Since first t m₀ m₁ → m₁.holder slot = some t →
      (layerEnv first t).Triple (Rely first t m₁) (f slot) Q) :
    (layerEnv first t).Triple (Rely first t m₀) (acquireSlot >>= f) Q := by
  refine acquireSlot_spec.bind fun slot => ?_
  rintro m hself ⟨m₁, hm₁, hrely⟩
  refine h slot _ ⟨hm₁.was, hrely.was, hm₁.grows, hm₁.notBy, fun slot' hs => ?_, hm₁.counted⟩ ?_ m hself hrely
  · by_cases hslot : slot' = slot
    · subst hslot
      exact update_self ..
    · exact (update_of_ne hslot ..).trans (hm₁.held slot' hs)
  · exact update_self ..

/-! ## Reading -/

lemma blockRead_spec (h : Begun t call m₀) (hop : call.op = .read device block) :
    (layerEnv first t).Triple (Rely first t m₀) (blockRead device block) fun answer m =>
      ∃ call, m.disk.Returns t answer call := by
  refine .ite (fun _ => ?_) fun _ => ?_
  · exact .ret (Env.stable_rely m₀) fun m _ hm => ⟨call, (h.since hm.toSince).returns nofun⟩
  refine acquired fun slot m₁ hm₁ hheld => ?_
  refine (blockReadWith_spec hheld).bind fun r => ?_
  refine ((releaseSlot_spec (F := fun disk => ∃ call, disk.Returns t r call) (stable_returns r) hheld).pre
    fun m _ hm => ⟨⟨call, ?_⟩, hm.1⟩).bind fun _ => .ret (stable_returns r) fun _ _ h => h
  obtain ⟨hm, hcopy⟩ := hm
  refine (h.since (hm₁.trans hm)).returns fun data hdata device' block' hop' => ?_
  obtain ⟨rfl, rfl⟩ := Op.read.inj (hop.symm.trans hop')
  have hknown := (hm₁.was.disk.calls t call h.began).2.2
  exact (hcopy data hdata).mono fun core => (hknown _).trans (hm₁.writes_le _)

/-! ## Writing -/

lemma sum_update {words : List Word} {word : Word} (hnodup : words.Nodup) (hmem : word ∈ words) :
    (words.map (update vec word (vec word + 1))).sum = (words.map vec).sum + 1 := by
  induction words with
  | nil => cases hmem
  | cons word' words ih =>
    obtain ⟨hnot, hnodup⟩ := nodup_cons.mp hnodup
    simp only [map_cons, sum_cons]
    by_cases hw : word' = word
    · subst hw
      have hrest : words.map (update vec word' (vec word' + 1)) = words.map vec := by
        refine map_congr_left fun word hin => update_of_ne ?_ ..
        rintro rfl
        exact hnot hin
      rw [update_self, hrest]
      omega
    · rw [update_of_ne hw, ih hnodup (mem_of_ne_of_mem (Ne.symm hw) hmem)]
      omega

/-- The state after the device took the write and the operation counted it. `m₂` is where the device took
it, `m₃` where it was counted. -/
structure Written (first : Key → D) (t : ℕ) (slot : Slot) (key : Key) (source : D) (m₂ m₃ : Machine D) : Prop where
  rely : Rely first t { m₂ with disk := m₂.disk.put t key source } m₃
  held : m₂.holder slot = some t

section Written
variable {m₂ m₃ : Machine D} {epoch : ℕ}

abbrev countedOnce (t : ℕ) (slot : Slot) (key : Key) (m : Machine D) : Machine D :=
  { m with disk := m.disk.store t (slot, key.bucket) (m.disk.writes (slot, key.bucket) + 1) }

section
variable (h : Written first t slot key source m₂ m₃)
include h

/-- A writer's own copy is current at the epoch from before the write and its own count: what was counted
before the device took the write had written before. -/
theorem Written.copy (hle : ∀ word, vec word ≤ m₂.disk.writes word) :
    Copy (countedOnce t slot key m₃).disk key source
      (update vec (slot, key.bucket) (vec (slot, key.bucket) + 1)) := by
  have hput := puts_put m₂.disk t key source key
  rw [if_pos rfl] at hput
  have hlast : (m₃.disk.puts key)[(m₂.disk.puts key).length]? = some ⟨some t, source, m₂.disk.clock⟩ := by
    refine h.rely.grows.put ?_
    change ((m₂.disk.put t key source).puts key)[(m₂.disk.puts key).length]? = _
    rw [hput, getElem?_concat_length]
  have hlen : ((m₂.disk.put t key source).puts key).length = (m₂.disk.puts key).length + 1 := by
    rw [hput, length_append, length_singleton]
  refine ⟨_, _, hlast, rfl, fun core w hw j p hp hwriter => ?_⟩
  suffices hj : j < ((m₂.disk.put t key source).puts key).length by omega
  by_cases hwt : w = t
  · subst hwt
    exact h.rely.notBy.puts key j p hp hwriter
  suffices hmem : w ∈ m₂.disk.counted (core, key.bucket) from h.rely.grows.done key j p w _ hp hwriter hmem
  by_cases hcore : core = slot
  · subst hcore
    have hmem := mem_of_mem_take hw
    rw [counted_store, if_pos rfl, mem_append, mem_singleton] at hmem
    have hcounted : m₃.disk.counted (core, key.bucket) = m₂.disk.counted (core, key.bucket) :=
      h.rely.counted core h.held key.bucket
    rw [← hcounted]
    exact hmem.resolve_right hwt
  · have hne : (core, key.bucket) ≠ (slot, key.bucket) := fun heq => hcore (Prod.mk.inj heq).1
    have hbound : vec (core, key.bucket) ≤ (m₂.disk.counted (core, key.bucket)).length :=
      (hle _).trans_eq (h.rely.was.disk.lens (core, key.bucket)).symm
    have hcounted : m₂.disk.counted (core, key.bucket) <+: m₃.disk.counted (core, key.bucket) :=
      h.rely.grows.counted _
    rw [update_of_ne hne, counted_store, if_neg hne, append_nil, take_of_isPrefix hcounted hbound] at hw
    exact mem_of_mem_take hw

lemma Written.epoch_add (hepoch : Epoch m₂.disk (bucketWords key.bucket) epoch vec) :
    Epoch (countedOnce t slot key m₃).disk (bucketWords key.bucket) (epoch + 1)
      (update vec (slot, key.bucket) (vec (slot, key.bucket) + 1)) := by
  refine ⟨?_, fun word => ?_⟩
  · rw [sum_update (bucketWords_nodup _) (mem_bucketWords _ _), hepoch.sum]
  · have hle : vec word ≤ m₃.disk.writes word := (hepoch.le word).trans (h.rely.writes_le word)
    simp only [Disk.store]
    by_cases hw : word = (slot, key.bucket)
    · subst hw
      rw [update_self, update_self]
      omega
    · rw [update_of_ne hw, update_of_ne hw]
      exact hle

lemma Written.returns (hbegun : Begun t call m₂) : (countedOnce t slot key m₃).disk.Returns t none call where
  began := h.rely.notBy.calls.trans hbegun.began
  stop := hbegun.stop
  counted := by
    intro key' p hp hw
    obtain ⟨j, hj⟩ := getElem?_of_mem hp
    have hlt := h.rely.notBy.puts key' j p hj hw
    obtain hold | ⟨rfl, -, -⟩ := put_cases ((getElem?_of_isPrefix (h.rely.grows.puts key') hlt).symm.trans hj)
    · exact absurd hw (hbegun.puts key' p (mem_of_getElem? hold))
    · refine ⟨slot, ?_⟩
      rw [counted_store, if_pos rfl]
      exact mem_append_right _ (mem_singleton_self t)
  answer := nofun

end
end Written

def Counted (first : Key → D) (t : ℕ) (slot : Slot) (m : Machine D) : Prop :=
  ∃ m₁, m₁.holder slot = some t ∧ Since first t m₁ m ∧ ∃ call, m₁.disk.Returns t none call

lemma Counted.release : (layerEnv first t).Triple (Counted first t slot) (releaseSlot slot) fun _ m =>
    ∃ call, m.disk.Returns t none call := by
  rintro m hself ⟨m₁, hheld, hm, call, hreturns⟩
  exact releaseSlot_spec (F := fun disk => ∃ call, disk.Returns t none call) (stable_returns none) hheld m hself
    ⟨⟨call, hreturns.rely hm⟩, hm⟩

lemma Counted.released {α : Type} {a : α} :
    (layerEnv first t).Triple (Counted first t slot) (releaseSlot slot >>= fun _ => pure a) fun _ m =>
      ∃ call, m.disk.Returns t none call :=
  Counted.release.bind fun _ => .ret (stable_returns none) fun _ _ h => h

lemma Counted.stable : (layerEnv first t).Stable (Counted first t slot) := by
  rintro m m' hs ⟨m₁, hheld, hm, hreturns⟩
  exact ⟨m₁, hheld, hm.trans hs.toSince, hreturns⟩

lemma blockCacheNoteWrite_failed {epoch : ℕ} (h : Begun t call m₀) (hheld : m₀.holder slot = some t) :
    (layerEnv first t).Triple (Rely first t m₀) (blockCacheNoteWrite slot key source false epoch)
      fun _ => Counted first t slot := by
  refine (blockCacheCountWrite_spec h.began hheld).bind fun _ => ?_
  refine (Env.Triple.ret Counted.stable fun _ _ h => h).pre ?_
  rintro m - ⟨m₁, hm₁, hm⟩
  have hbegun := h.since hm₁.toSince
  refine ⟨countedOnce t slot key m₁, hm₁.held slot hheld, hm.toSince, call, ?_⟩
  exact ⟨hbegun.began, hbegun.stop, fun key p hp hw => absurd hw (hbegun.puts key p hp), nofun⟩

lemma blockCacheNoteWrite_written {epoch : ℕ} (h : Begun t call m₀)
    (hheld : m₀.holder slot = some t) (hepoch : Epoch m₀.disk (bucketWords key.bucket) epoch vec) :
    (layerEnv first t).Triple (Rely first t { m₀ with disk := m₀.disk.put t key source })
      (blockCacheNoteWrite slot key source true epoch) fun _ => Counted first t slot := by
  have hbegan : ({ m₀ with disk := m₀.disk.put t key source } : Machine D).disk.calls t = some call := h.began
  refine (blockCacheCountWrite_spec hbegan hheld).bind fun _ => ?_
  rintro m hself ⟨m₁, hm₁, hm⟩
  have hwritten : Written first t slot key source m₀ m₁ := ⟨hm₁, hheld⟩
  have hheld' : (countedOnce t slot key m₁).holder slot = some t := hm₁.held slot hheld
  refine (blockCacheStore_spec hheld' (hwritten.epoch_add hepoch) (hwritten.copy hepoch.le)).post
    (fun _ m' _ hm' => ?_) m hself hm.toSince
  exact ⟨countedOnce t slot key m₁, hheld', hm', call, hwritten.returns h⟩

lemma blockWrite_spec (h : Begun t call m₀) :
    (layerEnv first t).Triple (Rely first t m₀) (blockWrite device block source) fun _ m =>
      ∃ call, m.disk.Returns t none call := by
  refine .ite (fun _ => ?_) fun _ => ?_
  · exact .ret (Env.stable_rely m₀) fun m _ hm => ⟨call, (h.since hm.toSince).returns nofun⟩
  refine acquired fun slot m₁ hm₁ hheld => ?_
  refine (blockCacheBucketEpoch_spec (Env.stable_rely m₁)
    fun m hm => hm.toSince).bind fun epoch => ?_
  refine .since fun m₂ _ hm₂ => ?_
  obtain ⟨hm₂, vec, hepoch, -⟩ := hm₂
  have hbegun : Begun t call m₂ := (h.since hm₁).since hm₂.toSince
  have hheld₂ : m₂.holder slot = some t := hm₂.held slot hheld
  refine (writeDevice_spec hbegun.began hbegun.stop hbegun.counted).bind fun written => ?_
  rintro m hself (⟨rfl, hm⟩ | ⟨rfl, m₃, hm₃, hm⟩)
  · exact ((blockCacheNoteWrite_failed hbegun hheld₂).bind fun _ => Counted.released) m hself hm
  · exact ((blockCacheNoteWrite_written (hbegun.since hm₃.toSince) (hm₃.held slot hheld₂)
      (hm₃.epoch hepoch)).bind fun _ => Counted.released) m hself hm

/-! ## Writing around the cache -/

structure Uncounted (t : ℕ) (call : Call D) (m : Machine D) : Prop where
  began : m.disk.calls t = some call
  stop : call.stop = none
  counted : ∀ word, t ∉ m.disk.counted word

lemma Uncounted.since (h : Uncounted t call m) (hs : Since first t m m') : Uncounted t call m' :=
  ⟨hs.notBy.calls.trans h.began, h.stop, fun word hmem => h.counted word (hs.notBy.counted word hmem)⟩

lemma writesAround_spec (call : Call D) (sources : List (Key × D)) :
    (layerEnv first t).Triple (Uncounted t call) (sources.forM fun (key, source) => do
      let _ ← writeDevice key source) fun _ => Uncounted t call := by
  have hstable : (layerEnv first t).Stable (Uncounted t call) := fun _ _ hs h => h.since hs.toSince
  induction sources with
  | nil => exact .ret hstable fun _ _ h => h
  | cons entry sources ih =>
    have hone : (layerEnv first t).Triple (Uncounted t call) (writeDevice entry.1 entry.2)
        fun _ => Uncounted t call := by
      refine .since fun m₁ _ hm₁ => ?_
      refine (writeDevice_spec hm₁.began hm₁.stop hm₁.counted).post ?_
      rintro written m - (⟨-, hm⟩ | ⟨-, m₂, hm₂, hm⟩)
      · exact hm₁.since hm.toSince
      · have hput : Uncounted t call { m₂ with disk := m₂.disk.put t entry.1 entry.2 } := by
          have h₂ := hm₁.since hm₂.toSince
          exact ⟨h₂.began, h₂.stop, h₂.counted⟩
        exact hput.since hm.toSince
    exact hone.bind fun _ => ih

structure CountedIn (t : ℕ) (slot : Slot) (call : Call D) (done : List Bucket) (m : Machine D) : Prop where
  began : m.disk.calls t = some call
  held : m.holder slot = some t
  counted : ∀ bucket ∈ done, t ∈ m.disk.counted (slot, bucket)

lemma CountedIn.since {done : List Bucket} (h : CountedIn t slot call done m)
    (hs : Since first t m m') : CountedIn t slot call done m' :=
  ⟨hs.notBy.calls.trans h.began, hs.held slot h.held,
    fun bucket hmem => (hs.grows.counted _).subset (h.counted bucket hmem)⟩

lemma blockCacheForgetAll_spec (call : Call D) : (layerEnv first t).Triple (CountedIn t slot call [])
    (blockCacheForgetAll slot) fun _ => CountedIn t slot call (finRange blockCacheBuckets) := by
  suffices hloop : ∀ buckets done : List Bucket, (layerEnv first t).Triple (CountedIn t slot call done)
      (buckets.forM fun bucket => blockCacheCountWrite slot bucket)
      fun _ => CountedIn t slot call (buckets.reverse ++ done) by
    refine (hloop (finRange blockCacheBuckets) []).post fun _ m _ h => ⟨h.began, h.held, fun bucket hmem => ?_⟩
    refine h.counted bucket ?_
    rw [append_nil]
    exact mem_reverse.mpr hmem
  intro buckets
  induction buckets with
  | nil => exact fun done => .ret (fun _ _ hs h => h.since hs.toSince) fun _ _ h => h
  | cons bucket buckets ih =>
    intro done
    have hone : (layerEnv first t).Triple (CountedIn t slot call done) (blockCacheCountWrite slot bucket)
        fun _ => CountedIn t slot call (bucket :: done) := by
      refine .since fun m₁ _ hm₁ => ?_
      refine (blockCacheCountWrite_spec hm₁.began hm₁.held).post ?_
      rintro - m - ⟨m₂, hm₂, hm⟩
      have h₂ := hm₁.since hm₂.toSince
      suffices hstored : CountedIn t slot call (bucket :: done) _ from hstored.since hm.toSince
      refine ⟨h₂.began, h₂.held, fun bucket' hmem => ?_⟩
      rw [counted_store, mem_append]
      obtain rfl | hmem := mem_cons.mp hmem
      · rw [if_pos rfl]
        exact .inr (mem_singleton_self t)
      · exact .inl (h₂.counted bucket' hmem)
    rw [reverse_cons, append_assoc]
    exact hone.bind fun _ => ih (bucket :: done)

lemma writeAround_spec {sources : List (Key × D)} (h : Begun t call m₀) :
    (layerEnv first t).Triple (Rely first t m₀) (writeAround sources) fun _ m =>
      ∃ call, m.disk.Returns t none call := by
  refine ((writesAround_spec call sources).pre fun m _ hm => ?_).bind fun _ => ?_
  · have hm := h.since hm.toSince
    exact { hm with }
  refine .since fun m₁ _ hm₁ => ?_
  refine acquired fun slot m₂ hm₂ hheld => ?_
  refine ((blockCacheForgetAll_spec call).pre fun m _ hm => ?_).bind fun _ => ?_
  · exact CountedIn.since ⟨hm₂.notBy.calls.trans hm₁.began, hheld, nofun⟩ hm.toSince
  intro m hself hm
  have hcounted : Counted first t slot m := by
    refine ⟨m, hm.held, hself.toSince, call, hm.began, hm₁.stop, fun key p _ _ => ⟨slot, ?_⟩, nofun⟩
    exact hm.counted key.bucket (mem_finRange _)
  exact Counted.release m hself hcounted

/-! ## Any number of operations -/

lemma op_spec {op : Op D} (h : Begun t call m₀) (hop : call.op = op) :
    (layerEnv first t).Triple (Rely first t m₀) op.code fun answer m => ∃ call, m.disk.Returns t answer call := by
  cases op with
  | read device block => exact blockRead_spec h hop
  | write device block source =>
    exact (blockWrite_spec h).bind fun _ => .ret (stable_returns none) fun _ _ h => h
  | around sources =>
    exact (writeAround_spec h).bind fun _ => .ret (stable_returns none) fun _ _ h => h

lemma layerProof_sound (first : Key → D) : (layerProof first).Sound where
  start := by
    intro t op m hm hidle
    have hguar : (layerEnv first t).guar m _ := guar_disk hm (hm.disk.start op hidle) (grows_start t op)
      (fun u hu => notBy_start op hu) fun _ _ _ _ _ => rfl
    have hsilent := hm.disk.silent hidle
    have hbegun : Begun t ⟨op, m.disk.clock, m.disk.writes, none, none⟩ { m with disk := m.disk.start t op } :=
      ⟨update_self .., rfl, hsilent.1, hsilent.2⟩
    have hself := (layerEnv first t).after hguar
    exact ⟨hguar.1, hguar.2, op_spec hbegun rfl _ hself hself⟩
  finish := by
    rintro t answer m hm ⟨call, hreturns⟩
    exact guar_disk hm (hm.disk.finish hreturns) (grows_finish t answer)
      (fun u hu => notBy_finish answer hu) fun _ _ _ _ _ => rfl

def idlePool (first : Key → D) (blank : D) : Pool (Machine D) ℕ (Access D) Access.Answer (Option D) :=
  ⟨boot first blank, fun _ => .idle⟩

lemma boot_ok (first : Key → D) (blank : D) : (boot first blank).Ok first where
  disk := {
    lens := fun _ => rfl
    device := fun _ => rfl
    initial := fun _ => rfl
    writer := by
      intro key j p hp _
      have hlt : j < 1 := (List.getElem?_eq_some_iff.mp hp).1
      omega
    times := fun _ => pairwise_singleton ..
    past := by
      intro key p hp
      rw [mem_singleton.mp hp]
      exact Nat.zero_lt_one
    wrote := by
      intro key p hp w hw
      rw [mem_singleton.mp hp] at hw
      cases hw
    called := nofun
    calls := nofun
    before := nofun
    answered := nofun }
  slots := fun _ => ⟨fun _ => nofun, fun hcount => absurd rfl hcount⟩

lemma run_ok {blank : D} {events : List (Event ℕ (Op D) Choice)}
    {p : Pool (Machine D) ℕ (Access D) Access.Answer (Option D)}
    (hrun : (layer D).run (idlePool first blank) events = some p) : p.state.Ok first := by
  have hidle : (layerProof first).Holds (idlePool first blank) := ⟨boot_ok first blank, fun _ _ => rfl, nofun⟩
  exact ((layerProof_sound first).run hidle hrun).inv

/-! ## What a read delivers -/

/-- Write `j` of the block is by `w`, which returned at `stop`, before `start`. -/
def Disk.Returned (disk : Disk D) (start : ℕ) (key : Key) (j w stop : ℕ) : Prop :=
  ∃ p call, (disk.puts key)[j]? = some p ∧ p.writer = some w ∧ disk.calls w = some call ∧
    call.stop = some stop ∧ stop < start

def Disk.Overlap (disk : Disk D) (v w : ℕ) : Prop :=
  ∃ call call', disk.calls v = some call ∧ disk.calls w = some call' ∧
    (∀ stop, call.stop = some stop → call'.start ≤ stop) ∧ ∀ stop, call'.stop = some stop → call.start ≤ stop

/-- Write `j` of the block is the last by the operation that was the last to return before `start`. -/
structure Disk.Last (disk : Disk D) (start : ℕ) (key : Key) (j w stop : ℕ) : Prop where
  returned : disk.Returned start key j w stop
  last : ∀ j' w' stop', disk.Returned start key j' w' stop' → stop' ≤ stop ∧ (w' = w → j' ≤ j)

/-- The bytes are those of the last write that returned before the read began, or of a later one of the
same block that overlaps the read or that write. -/
def Disk.Fresh (disk : Disk D) (r : ℕ) (call : Call D) (key : Key) (data : D) : Prop :=
  ∃ j w stop i p, disk.Last call.start key j w stop ∧ j ≤ i ∧ (disk.puts key)[i]? = some p ∧ p.data = data ∧
    (i = j ∨ ∃ v, p.writer = some v ∧ (disk.Overlap v r ∨ disk.Overlap v w))

/-- No write returned before the read began, and the bytes are the first ones, or those of a write that
overlaps the read. -/
def Disk.FreshFirst (first : Key → D) (disk : Disk D) (r : ℕ) (call : Call D) (key : Key) (data : D) : Prop :=
  (∀ j w stop, ¬disk.Returned call.start key j w stop) ∧ (data = first key ∨
    ∃ (i : ℕ) (p : Put D) (v : ℕ), (disk.puts key)[i]? = some p ∧ p.data = data ∧ p.writer = some v ∧ disk.Overlap v r)

section Fresh
variable {disk : Disk D} {start j w stop : ℕ}

lemma Disk.Returned.same_stop {j' stop' : ℕ} (h : disk.Returned start key j w stop)
    (h' : disk.Returned start key j' w stop') : stop' = stop := by
  obtain ⟨-, call, -, -, hcall, hstop, -⟩ := h
  obtain ⟨-, call', -, -, hcall', hstop', -⟩ := h'
  cases hcall.symm.trans hcall'
  exact some.inj (hstop'.symm.trans hstop)

lemma Disk.Returned.exists_last (h : disk.Returned start key j w stop) :
    ∃ j w stop, disk.Last start key j w stop := by
  classical
  have hbound : ∀ {j w stop}, disk.Returned start key j w stop →
      j ≤ (disk.puts key).length ∧ stop ≤ start := by
    rintro j w stop ⟨p, call, hp, -, -, -, hlt⟩
    exact ⟨(List.getElem?_eq_some_iff.mp hp).1.le, hlt.le⟩
  -- The last to return, and then the last it wrote.
  obtain ⟨j₀, w₀, h₀⟩ := findGreatest_spec (P := fun stop => ∃ j w, disk.Returned start key j w stop)
    (hbound h).2 ⟨j, w, h⟩
  have hj := findGreatest_spec (P := fun j => disk.Returned start key j w₀ _) (hbound h₀).1 h₀
  refine ⟨_, w₀, _, hj, fun j' w' stop' h' => ⟨le_findGreatest (hbound h').2 ⟨j', w', h'⟩, ?_⟩⟩
  rintro rfl
  obtain rfl := h₀.same_stop h'
  exact le_findGreatest (hbound h').1 h'

variable {r i : ℕ} {p : Put D} {data : D}

lemma Disk.Ok.le_of_returned (hok : disk.Ok first) (hcall : disk.calls r = some call)
    (hcovers : Covers disk key i call.known) (h : disk.Returned call.start key j w stop) : j ≤ i := by
  obtain ⟨p, call', hp, hw, hcall', hstop, hlt⟩ := h
  obtain ⟨core, hmem⟩ := hok.before r call hcall key p (mem_of_getElem? hp) w call' stop hw hcall' hstop hlt
  exact hcovers core w hmem j p hp hw

lemma Disk.Ok.overlap_or_returned (hok : disk.Ok first) (hcall : disk.calls r = some call)
    (hp : (disk.puts key)[i]? = some p) (hw : p.writer = some w) (htime : ∀ stop, call.stop = some stop → p.time ≤ stop) :
    disk.Overlap w r ∨ ∃ stop, disk.Returned call.start key i w stop := by
  obtain ⟨call', hcall', hstart, -⟩ := hok.wrote key p (mem_of_getElem? hp) w hw
  by_cases hstop : ∀ stop, call'.stop = some stop → call.start ≤ stop
  · exact .inl ⟨call', call, hcall', hcall, hstop, fun stop h => hstart.trans (htime stop h)⟩
  · push Not at hstop
    obtain ⟨stop, hstop, hlt⟩ := hstop
    exact .inr ⟨stop, p, call', hp, hw, hcall', hstop, hlt⟩

lemma Disk.Ok.overlap_of_returned {v stop' : ℕ} (hok : disk.Ok first) (h : disk.Returned start key j w stop)
    (h' : disk.Returned start key i v stop') (hlt : j < i) (hle : stop' ≤ stop) : disk.Overlap v w := by
  obtain ⟨p, call, hp, hw, hcall, hstop, -⟩ := h
  obtain ⟨p', call', hp', hw', hcall', hstop', -⟩ := h'
  obtain ⟨c, hc, hstart, -⟩ := hok.wrote key p (mem_of_getElem? hp) w hw
  cases hcall.symm.trans hc
  obtain ⟨c', hc', hstart', hstops'⟩ := hok.wrote key p' (mem_of_getElem? hp') v hw'
  cases hcall'.symm.trans hc'
  have htimes : p.time < p'.time := by
    obtain ⟨hj, rfl⟩ := List.getElem?_eq_some_iff.mp hp
    obtain ⟨hi, rfl⟩ := List.getElem?_eq_some_iff.mp hp'
    exact pairwise_iff_getElem.mp (hok.times key) j i hj hi hlt
  have htime' := (hstops' stop' hstop').1
  refine ⟨call', call, hcall', hcall, fun s hs => ?_, fun s hs => ?_⟩
  · cases hstop'.symm.trans hs
    omega
  · cases hstop.symm.trans hs
    omega

end Fresh

/-- In every interleaving, a read delivers the bytes of the last write of its block that returned before it
began, or of a write that overlaps the read or that write; and if no write returned before, the first bytes
of the block or those of a write that overlaps the read. -/
theorem block_read_fresh (first : Key → D) (blank : D) (events : List (Event ℕ (Op D) Choice))
    (p : Pool (Machine D) ℕ (Access D) Access.Answer (Option D))
    (hrun : (layer D).run (idlePool first blank) events = some p) (r : ℕ) (call : Call D)
    (device : KernelBlockDevice) (block : ℕ) (data : D) (hcall : p.state.disk.calls r = some call)
    (hop : call.op = .read device block) (hanswer : call.answer = some data) :
    p.state.disk.Fresh r call (device.key block) data ∨
      p.state.disk.FreshFirst first r call (device.key block) data := by
  have hok := (run_ok hrun).disk
  obtain ⟨i, q, hq, hdata, hcovers, htime⟩ := hok.answered r call data hcall hanswer device block hop
  by_cases hany : ∃ j w stop, p.state.disk.Returned call.start (device.key block) j w stop
  · left
    obtain ⟨_, _, _, hsome⟩ := hany
    obtain ⟨j, w, stop, hlast⟩ := hsome.exists_last
    have hle := hok.le_of_returned hcall hcovers hlast.returned
    refine ⟨j, w, stop, i, q, hlast, hle, hq, hdata, ?_⟩
    by_cases hij : i = j
    · exact .inl hij
    cases hw : q.writer with
    | none =>
      have hzero := hok.writer _ i q hq hw
      omega
    | some v =>
      refine .inr ⟨v, rfl, ?_⟩
      obtain hoverlap | ⟨stop', hreturned⟩ := hok.overlap_or_returned hcall hq hw htime
      · exact .inl hoverlap
      · exact .inr (hok.overlap_of_returned hlast.returned hreturned (by omega) (hlast.last i v stop' hreturned).1)
  · right
    push Not at hany
    refine ⟨hany, ?_⟩
    cases hw : q.writer with
    | none =>
      have hzero := hok.writer _ i q hq hw
      rw [hzero, hok.initial] at hq
      cases hq
      exact .inl hdata.symm
    | some v =>
      obtain hoverlap | ⟨stop, hreturned⟩ := hok.overlap_or_returned hcall hq hw htime
      · exact .inr ⟨i, q, v, hq, hdata, hw, hoverlap⟩
      · exact absurd hreturned (hany i v stop)

open scoped Smp

def readAfterWrite : List (Event ℕ (Op ℕ) Choice) :=
  [.start 0 (.write ⟨2, 8192⟩ 3 7)] ++ replicate 14 (.access 0 ⟨0, false⟩) ++ [.finish 0] ++
    [.start 1 (.read ⟨2, 8192⟩ 3)] ++ replicate 10 (.access 1 ⟨0, false⟩) ++ [.finish 1]

theorem block_read_fresh_readAfterWrite : ∃ p call,
    (layer ℕ).run (idlePool (fun _ => 0) 0) readAfterWrite = some p ∧ p.state.disk.calls 1 = some call ∧
      call.op = .read ⟨2, 8192⟩ 3 ∧ call.answer = some 7 ∧
        (p.state.disk.Fresh 1 call ⟨2, 3⟩ 7 ∨ p.state.disk.FreshFirst (fun _ => 0) 1 call ⟨2, 3⟩ 7) := by
  have heval : (((layer ℕ).run (idlePool (fun _ => 0) 0) readAfterWrite).bind fun p =>
      (p.state.disk.calls 1).map fun call => (call.op, call.answer)) = some (.read ⟨2, 8192⟩ 3, some 7) := by
    decide +kernel
  obtain ⟨p, hrun, hsome⟩ := bind_eq_some_iff.mp heval
  obtain ⟨call, hcall, heq⟩ := map_eq_some_iff.mp hsome
  obtain ⟨hop, hanswer⟩ := Prod.mk.inj heq
  exact ⟨p, call, hrun, hcall, hop, hanswer,
    block_read_fresh (fun _ => 0) 0 readAfterWrite p hrun 1 call ⟨2, 8192⟩ 3 7 hcall hop hanswer⟩

end Takibi.Block
