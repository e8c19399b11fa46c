import Takibi.Block.Covers

/-! What an operation of the block layer may rely on between its steps, and what each of its steps does. -/

namespace Takibi.Block
open Concurrent Function Access Option List
variable {D : Type} {call : Call D} {state : SlotState D} {vec : Word → ℕ} {key : Key}

structure Machine.Ok (first : Key → D) (m : Machine D) : Prop where
  disk : m.disk.Ok first
  slots : ∀ slot, (m.slots slot).Ok m.disk

structure Since (first : Key → D) (t : ℕ) (m m' : Machine D) : Prop where
  was : m.Ok first
  ok : m'.Ok first
  grows : m.disk.Grows m'.disk
  notBy : m.disk.NotBy t m'.disk
  held : ∀ slot, m.holder slot = some t → m'.holder slot = some t
  counted : ∀ slot, m.holder slot = some t → ∀ bucket,
    m'.disk.counted (slot, bucket) = m.disk.counted (slot, bucket)

structure Rely (first : Key → D) (t : ℕ) (m m' : Machine D) : Prop extends Since first t m m' where
  slots : ∀ slot, m.holder slot = some t → m'.slots slot = m.slots slot

section Rely
variable {first : Key → D} {t u : ℕ} {m m' m'' : Machine D}

lemma Since.trans (h : Since first t m m') (h' : Since first t m' m'') : Since first t m m'' where
  was := h.was
  ok := h'.ok
  grows := h.grows.trans h'.grows
  notBy := h.notBy.trans h'.notBy h'.grows
  held := fun slot hs => h'.held slot (h.held slot hs)
  counted := fun slot hs bucket => (h'.counted slot (h.held slot hs) bucket).trans (h.counted slot hs bucket)

lemma Rely.refl (hm : m.Ok first) : Rely first t m m where
  was := hm
  ok := hm
  grows := .refl _
  notBy := .refl t _
  held := fun _ hs => hs
  counted := fun _ _ _ => rfl
  slots := fun _ _ => rfl

lemma Rely.trans (h : Rely first t m m') (h' : Rely first t m' m'') : Rely first t m m'' where
  toSince := h.toSince.trans h'.toSince
  slots := fun slot hs => (h'.slots slot (h.held slot hs)).trans (h.slots slot hs)

section
variable (h : Since first t m m')
include h

lemma Since.writes_le (word : Word) : m.disk.writes word ≤ m'.disk.writes word :=
  h.grows.writes_le h.was.disk h.ok.disk word

lemma Since.writes_eq {slot : Slot} (hheld : m.holder slot = some t) (bucket : Bucket) :
    m'.disk.writes (slot, bucket) = m.disk.writes (slot, bucket) := by
  rw [← h.ok.disk.lens, ← h.was.disk.lens, h.counted slot hheld]

lemma Since.copy {data : D}
    (hle : ∀ word, vec word ≤ m.disk.writes word) (hcopy : Copy m.disk key data vec) :
    Copy m'.disk key data vec := hcopy.grows h.was.disk hle h.grows

lemma Since.epoch {words : List Word} {epoch : ℕ}
    (hepoch : Epoch m.disk words epoch vec) : Epoch m'.disk words epoch vec :=
  hepoch.grows h.grows h.was.disk h.ok.disk

end

lemma Disk.Returns.rely {answer : Option D} (h : m.disk.Returns t answer call)
    (hs : Since first t m m') : m'.disk.Returns t answer call where
  began := hs.notBy.calls.trans h.began
  stop := h.stop
  counted := by
    intro key p hp hw
    obtain ⟨j, hj⟩ := getElem?_of_mem hp
    have hlt := hs.notBy.puts key j p hj hw
    rw [getElem?_of_isPrefix (hs.grows.puts key) hlt] at hj
    obtain ⟨core, hmem⟩ := h.counted key p (mem_of_getElem? hj) hw
    exact ⟨core, (hs.grows.counted _).subset hmem⟩
  answer := fun data hdata device block hop =>
    hs.copy (hs.was.disk.calls t call h.began).2.2 (h.answer data hdata device block hop)

end Rely

def layerProof (first : Key → D) : Proof (layer D) where
  inv := Machine.Ok first
  rely := Rely first
  post := fun t answer m => ∃ call, m.disk.Returns t answer call
  fresh := fun t m => m.disk.calls t = none
  refl := fun _ _ hm => .refl hm
  inv_of_rely := fun h => h.ok
  trans := .trans
  fresh_of_rely := fun h hidle => h.notBy.calls.trans hidle

abbrev layerEnv (first : Key → D) (t : ℕ) : Env (Machine D) (Access D) Access.Answer := (layerProof first).env t

section Steps
variable {first : Key → D} {t : ℕ} {m m₀ : Machine D} {slot : Slot} {P : Machine D → Prop}

/-! ### What the others are guaranteed -/

lemma guar_same (hm : m.Ok first) : (layerEnv first t).guar m m := ⟨hm, fun _ _ => .refl hm⟩

lemma guar_holder {holder : Slot → Option ℕ} (hm : m.Ok first)
    (hother : ∀ slot, ∀ u ≠ t, m.holder slot = some u → holder slot = some u) :
    (layerEnv first t).guar m { m with holder } := by
  have hm' : Machine.Ok first { m with holder } := ⟨hm.disk, hm.slots⟩
  refine ⟨hm', fun u hu => ?_⟩
  exact ⟨⟨hm, hm', .refl _, .refl u _, fun slot hs => hother slot u hu hs, fun _ _ _ => rfl⟩, fun _ _ => rfl⟩

lemma guar_slots (hm : m.Ok first) (hheld : m.holder slot = some t)
    (hstate : state.Ok m.disk) : (layerEnv first t).guar m { m with slots := update m.slots slot state } := by
  have hm' : Machine.Ok first { m with slots := update m.slots slot state } :=
    ⟨hm.disk, (forall_update_iff _ fun _ => SlotState.Ok m.disk).mpr ⟨hstate, fun slot' _ => hm.slots slot'⟩⟩
  refine ⟨hm', fun u hu => ⟨⟨hm, hm', .refl _, .refl u _, fun _ hs => hs, fun _ _ _ => rfl⟩, ?_⟩⟩
  intro slot' hs
  have hne : slot' ≠ slot := by
    rintro rfl
    exact hu (some.inj (hs.symm.trans hheld))
  exact update_of_ne hne ..

lemma guar_disk {disk : Disk D} (hm : m.Ok first) (hok : disk.Ok first) (hg : m.disk.Grows disk)
    (hnot : ∀ u ≠ t, m.disk.NotBy u disk)
    (hcounted : ∀ slot, ∀ u ≠ t, m.holder slot = some u → ∀ bucket,
      disk.counted (slot, bucket) = m.disk.counted (slot, bucket)) :
    (layerEnv first t).guar m { m with disk } := by
  have hm' : Machine.Ok first { m with disk } := ⟨hok, fun slot => (hm.slots slot).grows hg hm.disk hok⟩
  exact ⟨hm', fun u hu => ⟨⟨hm, hm', hg, hnot u hu, fun _ hs => hs, fun slot hs => hcounted slot u hu hs⟩,
    fun _ _ => rfl⟩⟩

/-! ### Assertions -/

lemma stable_since : (layerEnv first t).Stable (Since first t m₀) := fun _ _ hs h => h.trans hs.toSince

lemma stable_slotOk (state : SlotState D) : (layerEnv first t).Stable fun m => state.Ok m.disk :=
  fun _ _ hs h => h.grows hs.grows hs.was.disk hs.ok.disk

lemma stable_le_writes (n : ℕ) (word : Word) : (layerEnv first t).Stable fun m => n ≤ m.disk.writes word :=
  fun _ _ hs h => h.trans (hs.writes_le word)

/-! ### Accesses -/

lemma observe (a : Access D) {Q : a.Answer → Machine D → Prop} (hP : (layerEnv first t).Stable P)
    (hQ : ∀ r, (layerEnv first t).Stable (Q r))
    (h : ∀ m choice, m.Ok first → P m → ∃ r, m.perform t a choice = some (r, m) ∧ Q r m) :
    (layerEnv first t).Triple P (Code.call a) fun r m => P m ∧ Q r m := by
  refine .call hP (fun m r m' hm hPm hexec => ?_) fun r => hP.and (hQ r)
  obtain ⟨choice, hperform⟩ := hexec
  obtain ⟨r', hr', hQ'⟩ := h m choice hm.ok hPm
  obtain ⟨rfl, rfl⟩ := Prod.mk.inj (some.inj (hr'.symm.trans hperform))
  exact ⟨guar_same hm.ok, hPm, hQ'⟩

section
variable (hP : (layerEnv first t).Stable P)
include hP

lemma loadWord_spec {lo : ℕ} {word : Word} (hlo : ∀ m, m.Ok first → P m → lo ≤ m.disk.writes word) :
    (layerEnv first t).Triple P (loadWord word) fun r m => P m ∧ lo ≤ r ∧ r ≤ m.disk.writes word :=
  observe (.load word) hP (fun r => (Env.Stable.const _).and (stable_le_writes r word))
    fun m _ hm hPm => ⟨_, rfl, hlo m hm hPm, le_rfl⟩

lemma getSlot_spec : (layerEnv first t).Triple P (getSlot slot) fun r m => P m ∧ r.Ok m.disk :=
  observe (.get slot) hP stable_slotOk fun _ _ hm _ => ⟨_, rfl, hm.slots slot⟩

lemma getSlot_held (hrely : ∀ m, P m → Rely first t m₀ m) (hheld : m₀.holder slot = some t) :
    (layerEnv first t).Triple P (getSlot slot) fun r m => P m ∧ r = m₀.slots slot :=
  observe (.get slot) hP (fun _ => Env.Stable.const _)
    fun m _ _ hPm => ⟨_, rfl, (hrely m hPm).slots slot hheld⟩

end

lemma setSlot_spec (hheld : m₀.holder slot = some t) :
    (layerEnv first t).Triple (fun m => Since first t m₀ m ∧ state.Ok m.disk) (setSlot slot state)
      fun _ => Since first t m₀ := by
  refine .call (stable_since.and (stable_slotOk state)) (fun m _ m' _ hm hexec => ?_) fun _ => stable_since
  obtain ⟨hsince, hstate⟩ := hm
  obtain ⟨choice, hperform⟩ := hexec
  obtain ⟨-, rfl⟩ := Prod.mk.inj (some.inj hperform)
  have hguar := guar_slots hsince.ok (hsince.held slot hheld) hstate
  refine ⟨hguar, ?_⟩
  exact ⟨hsince.was, hguar.1, hsince.grows, hsince.notBy, hsince.held, hsince.counted⟩

lemma modifySlot_spec {f : SlotState D → SlotState D} (hheld : m₀.holder slot = some t)
    (hf : ∀ m state, Since first t m₀ m → state.Ok m.disk → (f state).Ok m.disk) :
    (layerEnv first t).Triple (Since first t m₀) (modifySlot slot f) fun _ => Since first t m₀ := by
  refine (getSlot_spec stable_since).bind fun state => ?_
  refine (setSlot_spec hheld).pre fun m _ hm => ?_
  exact ⟨hm.1, hf m state hm.1 hm.2⟩

lemma acquireSlot_spec : (layerEnv first t).Triple (Rely first t m₀) acquireSlot fun slot m =>
    ∃ m₁, Rely first t m₀ m₁ ∧ Rely first t { m₁ with holder := update m₁.holder slot (some t) } m := by
  refine .call (Env.stable_rely _) (fun m slot m' hself hm hexec => ?_) fun slot s s' hs h => ?_
  · obtain ⟨choice, hperform⟩ := hexec
    obtain ⟨hfree, hsome⟩ := ite_none_right_eq_some.mp hperform
    cases hsome
    have hother : ∀ slot, ∀ u ≠ t, m.holder slot = some u →
        update m.holder choice.slot (some t) slot = some u := by
      intro slot u _ hs
      have hne : slot ≠ choice.slot := by
        rintro rfl
        rw [hfree] at hs
        cases hs
      rw [update_of_ne hne, hs]
    have hguar := guar_holder hself.ok hother
    exact ⟨hguar, m, hm, .refl hguar.1⟩
  · obtain ⟨m₁, hm₁, hrely⟩ := h
    exact ⟨m₁, hm₁, hrely.trans hs⟩

lemma releaseSlot_spec {F : Disk D → Prop} (hF : (layerEnv first t).Stable fun m => F m.disk)
    (hheld : m₀.holder slot = some t) :
    (layerEnv first t).Triple (fun m => F m.disk ∧ Since first t m₀ m) (releaseSlot slot) fun _ m => F m.disk := by
  refine .call (hF.and stable_since) (fun m _ m' hself hm hexec => ?_) fun _ => hF
  obtain ⟨choice, hperform⟩ := hexec
  obtain ⟨-, rfl⟩ := Prod.mk.inj (some.inj hperform)
  refine ⟨guar_holder hself.ok fun slot' u hu hs => ?_, hm.1⟩
  have hne : slot' ≠ slot := by
    rintro rfl
    exact hu (some.inj (hs.symm.trans (hm.2.held slot' hheld)))
  exact (update_of_ne hne ..).trans hs

lemma readDevice_spec (hP : (layerEnv first t).Stable P) :
    (layerEnv first t).Triple P (readDevice key) fun r m => P m ∧ ∀ data, r = some data →
      ∃ m₁, P m₁ ∧ Since first t m₁ m ∧ Copy m₁.disk key data m₁.disk.writes := by
  refine observe (.deviceRead key) hP (fun r m m' hs h data hr => ?_) fun m choice hm hPm =>
    ⟨_, rfl, fun data hr => ?_⟩
  · obtain ⟨m₁, hPm₁, hsince, hcopy⟩ := h data hr
    exact ⟨m₁, hPm₁, hsince.trans hs.toSince, hcopy⟩
  · obtain ⟨-, hdata⟩ := ite_none_left_eq_some.mp hr
    cases hdata
    exact ⟨m, hPm, (Rely.refl hm).toSince, hm.disk.copy_device key _⟩

lemma readDeviceRun_spec {backend start count : ℕ} (hP : (layerEnv first t).Stable P) :
    (layerEnv first t).Triple P (readDeviceRun backend start count) fun r m => P m ∧ ∀ data, r = some data →
      ∃ m₁, P m₁ ∧ Since first t m₁ m ∧
        ∀ offset, Copy m₁.disk ⟨backend, start + offset⟩ (data offset) m₁.disk.writes := by
  refine observe (.deviceReadRun backend start count) hP (fun r m m' hs h data hr => ?_) fun m choice hm hPm =>
    ⟨_, rfl, fun data hr => ?_⟩
  · obtain ⟨m₁, hPm₁, hsince, hcopy⟩ := h data hr
    exact ⟨m₁, hPm₁, hsince.trans hs.toSince, hcopy⟩
  · obtain ⟨-, hdata⟩ := ite_none_left_eq_some.mp hr
    cases hdata
    exact ⟨m, hPm, (Rely.refl hm).toSince, fun offset => hm.disk.copy_device _ _⟩

lemma writeDevice_spec {source : D} (hcall : m₀.disk.calls t = some call)
    (hstop : call.stop = none) (hcounted : ∀ word, t ∉ m₀.disk.counted word) :
    (layerEnv first t).Triple (Rely first t m₀) (writeDevice key source) fun written m =>
      (written = false ∧ Rely first t m₀ m) ∨ written = true ∧
        ∃ m₁, Rely first t m₀ m₁ ∧ Rely first t { m₁ with disk := m₁.disk.put t key source } m := by
  refine .call (Env.stable_rely _) (fun m written m' hself hm hexec => ?_) fun written s s' hs h => ?_
  · obtain ⟨choice, hperform⟩ := hexec
    cases hfails : choice.fails with
    | true =>
      simp only [Machine.perform, layer, hfails] at hperform
      cases hperform
      exact ⟨guar_same hself.ok, .inl ⟨rfl, hm⟩⟩
    | false =>
      simp only [Machine.perform, layer, hfails] at hperform
      cases hperform
      have hnot : ∀ word, t ∉ m.disk.counted word := fun word hmem =>
        hcounted word (hm.notBy.counted word hmem)
      have hguar : (layerEnv first t).guar m _ := guar_disk hself.ok
        (hself.ok.disk.put key source (hm.notBy.calls.trans hcall) hstop hnot) (Disk.grows_put source hnot)
        (fun u hu => Disk.notBy_put source hu) fun _ _ _ _ _ => rfl
      exact ⟨hguar, .inr ⟨rfl, m, hm, .refl hguar.1⟩⟩
  · obtain ⟨rfl, hrely⟩ | ⟨rfl, m₁, hm₁, hrely⟩ := h
    · exact .inl ⟨rfl, hrely.trans hs⟩
    · exact .inr ⟨rfl, m₁, hm₁, hrely.trans hs⟩

lemma blockCacheCountWrite_spec {bucket : Bucket} (hcall : m₀.disk.calls t = some call)
    (hheld : m₀.holder slot = some t) :
    (layerEnv first t).Triple (Rely first t m₀) (blockCacheCountWrite slot bucket) fun _ m =>
      ∃ m₁, Rely first t m₀ m₁ ∧ Rely first t { m₁ with
        disk := m₁.disk.store t (slot, bucket) (m₁.disk.writes (slot, bucket) + 1) } m := by
  have hload : (layerEnv first t).Triple (Rely first t m₀) (loadWord (slot, bucket)) fun r m =>
      Rely first t m₀ m ∧ r = m₀.disk.writes (slot, bucket) :=
    observe (.load (slot, bucket)) (Env.stable_rely _) (fun _ => Env.Stable.const _)
      fun m _ _ hm => ⟨_, rfl, hm.writes_eq hheld bucket⟩
  refine hload.bind fun r => ?_
  refine .call ((Env.stable_rely _).and (Env.Stable.const _)) (fun m _ m' hself hm hexec => ?_)
    fun _ s s' hs h => ?_
  · obtain ⟨hm, rfl⟩ := hm
    obtain ⟨choice, hperform⟩ := hexec
    obtain ⟨-, rfl⟩ := Prod.mk.inj (some.inj hperform)
    rw [← hm.writes_eq hheld bucket]
    have hguar := guar_disk (t := t) hself.ok (hself.ok.disk.store (slot, bucket) (hm.notBy.calls.trans hcall))
      (Disk.grows_store t _ _) (fun u hu => Disk.notBy_store _ _ hu) fun slot' u hu hs bucket' => by
        have hne : (slot', bucket') ≠ (slot, bucket) := by
          rintro ⟨⟩
          exact hu (some.inj (hs.symm.trans (hm.held slot hheld)))
        rw [Disk.counted_store, if_neg hne, append_nil]
    exact ⟨hguar, m, hm, .refl hguar.1⟩
  · obtain ⟨m₁, hm₁, hrely⟩ := h
    exact ⟨m₁, hm₁, hrely.trans hs⟩

end Steps
end Takibi.Block
