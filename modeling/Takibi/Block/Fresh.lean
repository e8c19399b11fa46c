import Takibi.Block.Steps

/-! A copy that is found at the epoch summed now is no older than what was counted when the sum began. -/

namespace Takibi.Block
open Concurrent Function Access Env.Stable List Env
variable {D : Type} {first : Key → D} {t : ℕ} {m m₀ : Machine D} {slot : Slot} {P : Machine D → Prop}
variable {key : Key} {device : KernelBlockDevice} {block epoch : ℕ} {vec : Word → ℕ} {data : D}
  {words : List Word}

lemma eq_of_sum_eq {vec vec' : Word → ℕ} (hle : ∀ word, vec word ≤ vec' word)
    (hsum : (words.map vec).sum = (words.map vec').sum) : ∀ word ∈ words, vec word = vec' word := by
  induction words with
  | nil => exact nofun
  | cons word words ih =>
    have htail : (words.map vec).sum ≤ (words.map vec').sum := sum_le_sum fun word _ => hle word
    have hhead := hle word
    simp only [map_cons, sum_cons] at hsum
    intro word' hmem
    obtain rfl | hmem := mem_cons.mp hmem
    · omega
    · exact ih (by omega) word' hmem

lemma sumCounts_spec (hnodup : words.Nodup) (hP : (layerEnv first t).Stable P) (lo : Word → ℕ)
    (hlo : ∀ m, m.Ok first → P m → ∀ word, lo word ≤ m.disk.writes word) :
    (layerEnv first t).Triple P (sumCounts words) fun epoch m =>
      P m ∧ ∃ vec, Epoch m.disk words epoch vec ∧ ∀ word, lo word ≤ vec word := by
  suffices hfold : ∀ (acc : ℕ) (P : Machine D → Prop), (layerEnv first t).Stable P →
      (∀ m, m.Ok first → P m → ∀ word, lo word ≤ m.disk.writes word) →
      (layerEnv first t).Triple P
        (words.foldlM (fun epoch word => do return epoch + (← loadWord word)) acc) fun epoch m =>
        P m ∧ ∃ vec : Word → ℕ, acc + (words.map vec).sum = epoch ∧
          ∀ word, lo word ≤ vec word ∧ vec word ≤ m.disk.writes word by
    refine (hfold 0 P hP hlo).post fun epoch m _ h => ?_
    obtain ⟨hPm, vec, hsum, hvec⟩ := h
    exact ⟨hPm, vec, ⟨by rw [← hsum, Nat.zero_add], fun word => (hvec word).2⟩, fun word => (hvec word).1⟩
  clear hlo hP
  induction words with
  | nil =>
    intro acc P hP hlo
    refine .ret hP fun m hm hPm => ?_
    exact ⟨hPm, lo, Nat.add_zero acc, fun word => ⟨le_rfl, hlo m hm.ok hPm word⟩⟩
  | cons word words ih =>
    intro acc P hP hlo
    obtain ⟨hnot, hnodup⟩ := nodup_cons.mp hnodup
    rw [foldlM_cons]
    change (layerEnv first t).Triple P (loadWord word >>= fun r =>
      words.foldlM (fun epoch word => do return epoch + (← loadWord word)) (acc + r)) _
    refine (loadWord_spec hP fun m hm hPm => hlo m hm hPm word).bind fun r => ?_
    have hstable : (layerEnv first t).Stable fun m => P m ∧ lo word ≤ r ∧ r ≤ m.disk.writes word :=
      hP.and ((Env.Stable.const _).and (stable_le_writes r word))
    refine (ih hnodup (acc + r) _ hstable fun m hm h => hlo m hm h.1).post fun epoch m hm h => ?_
    obtain ⟨⟨hPm, hlow, hhigh⟩, vec, hsum, hvec⟩ := h
    refine ⟨hPm, update vec word r, ?_, fun word' => ?_⟩
    · have hrest : words.map (update vec word r) = words.map vec := by
        refine map_congr_left fun word' hmem => update_of_ne ?_ ..
        rintro rfl
        exact hnot hmem
      rw [map_cons, sum_cons, update_self, hrest, ← hsum, Nat.add_assoc]
    · by_cases hw : word' = word
      · subst hw
        rw [update_self]
        exact ⟨hlow, hhigh⟩
      · rw [update_of_ne hw]
        exact hvec word'

lemma bucketWords_nodup (bucket : Bucket) : (bucketWords bucket).Nodup :=
  (nodup_finRange _).map fun _ _ h => (Prod.mk.inj h).1

lemma allWords_nodup : allWords.Nodup := (nodup_finRange _).product (nodup_finRange _)

lemma mem_bucketWords (core : Slot) (bucket : Bucket) : (core, bucket) ∈ bucketWords bucket :=
  mem_map.mpr ⟨core, mem_finRange core, rfl⟩

lemma mem_allWords (word : Word) : word ∈ allWords :=
  pair_mem_product.mpr ⟨mem_finRange word.1, mem_finRange word.2⟩

/-! ## The cache -/

def Current (disk : Disk D) (key : Key) (data : D) : Prop := Copy disk key data disk.writes

lemma Copy.current {disk : Disk D} {vec vec' : Word → ℕ} (hepoch : Epoch disk words epoch vec)
    (hcopy : Copy disk key data vec) (hsum : (words.map vec').sum = epoch)
    (hle : ∀ word, disk.writes word ≤ vec' word) (hwords : ∀ core, (core, key.bucket) ∈ words) :
    Current disk key data := by
  refine hcopy.mono fun core => ?_
  have heq := eq_of_sum_eq (fun word => (hepoch.le word).trans (hle word)) (hepoch.sum.trans hsum.symm) _ (hwords core)
  rw [heq]
  exact hle _

lemma Current.copy (h : Current m₀.disk key data) (hs : Since first t m₀ m)
    (hle : ∀ word, vec word ≤ m₀.disk.writes word) : Copy m.disk key data vec :=
  hs.copy hle (h.mono fun _ => hle _)

lemma blockCacheBucketEpoch_spec {bucket : Bucket} (hP : (layerEnv first t).Stable P)
    (hsince : ∀ m, P m → Since first t m₀ m) :
    (layerEnv first t).Triple P (blockCacheBucketEpoch bucket) fun epoch m =>
      P m ∧ ∃ vec, Epoch m.disk (bucketWords bucket) epoch vec ∧ ∀ word, m₀.disk.writes word ≤ vec word :=
  sumCounts_spec (bucketWords_nodup bucket) hP _ fun m _ hPm => (hsince m hPm).writes_le

lemma blockCacheFind_spec (hheld : m₀.holder slot = some t) :
    (layerEnv first t).Triple (Rely first t m₀) (blockCacheFind slot key) fun found m =>
      Rely first t m₀ m ∧ ∀ k, found = some k → Current m₀.disk key ((m₀.slots slot).entries k).data := by
  refine (blockCacheBucketEpoch_spec (stable_rely m₀) fun m hm => hm.toSince).bind fun epoch => ?_
  have hstable : (layerEnv first t).Stable fun m => Rely first t m₀ m ∧
      ∃ vec : Word → ℕ, ((bucketWords key.bucket).map vec).sum = epoch ∧ ∀ word, m₀.disk.writes word ≤ vec word :=
    (stable_rely m₀).and (const _)
  refine ((getSlot_held hstable (fun m hm => hm.1) hheld).pre ?_).bind fun state => ?_
  · rintro m - ⟨hm, vec, hepoch, hle⟩
    exact ⟨hm, vec, hepoch.sum, hle⟩
  refine .ret (hstable.and (const _)) ?_
  rintro m - ⟨⟨hm, vec, hsum, hle⟩, rfl⟩
  refine ⟨hm, fun k hk => ?_⟩
  have hfound := find?_some hk
  simp only [Bool.and_eq_true, beq_iff_eq] at hfound
  obtain ⟨⟨hvalid, hepoch⟩, rfl⟩ := hfound
  obtain ⟨vec', hvec', hcopy⟩ := (hm.was.slots slot).entries k hvalid
  exact hcopy.current hvec' (hsum.trans hepoch.symm) hle fun core => mem_bucketWords core _

lemma blockCacheVictim_spec (hP : (layerEnv first t).Stable P) :
    (layerEnv first t).Triple P (blockCacheVictim slot key) fun _ => P := by
  suffices hfrom : ∀ ks victim oldest,
      (layerEnv first t).Triple P (blockCacheVictimFrom slot key ks victim oldest) fun _ => P from hfrom _ _ _
  intro ks
  induction ks with
  | nil => exact fun victim oldest => .ret hP fun _ _ h => h
  | cons k ks ih =>
    intro victim oldest
    refine ((getSlot_spec hP).post fun _ _ _ h => h.1).bind fun state => ?_
    have hret : ∀ k, (layerEnv first t).Triple P (.ret k : BlockCode D (Fin blockCacheSlots)) fun _ => P :=
      fun k => .ret hP fun _ _ h => h
    have hepoch : ∀ bucket, (layerEnv first t).Triple P (blockCacheBucketEpoch bucket) fun _ => P := fun bucket =>
      (sumCounts_spec (bucketWords_nodup bucket) hP 0 fun _ _ _ _ => Nat.zero_le _).post
        fun _ _ _ h => h.1
    refine .ite (fun _ => hret k) fun _ => (hepoch _).bind fun epoch => ?_
    refine .ite (fun _ => hret k) fun _ => .ite (fun _ => hret k) fun _ => ?_
    exact .ite (fun _ => ih k _) fun _ => ih victim oldest

section
variable (hheld : m₀.holder slot = some t)
include hheld

lemma blockCacheTouch_spec {k : Fin blockCacheSlots} :
    (layerEnv first t).Triple (Since first t m₀) (blockCacheTouch slot k) fun _ => Since first t m₀ :=
  modifySlot_spec hheld fun _ _ _ hstate => hstate.touch k

lemma blockCacheStore_spec (hepoch : Epoch m₀.disk (bucketWords key.bucket) epoch vec)
    (hcopy : Copy m₀.disk key data vec) :
    (layerEnv first t).Triple (Since first t m₀) (blockCacheStore slot key data epoch) fun _ => Since first t m₀ := by
  refine (blockCacheVictim_spec stable_since).bind fun k => ?_
  refine (modifySlot_spec hheld fun m state hm hstate => ?_).bind fun _ => blockCacheTouch_spec hheld
  exact hstate.keep k (hm.epoch hepoch) (hm.copy hepoch.le hcopy)

lemma blockCacheRead_spec :
    (layerEnv first t).Triple (Rely first t m₀) (blockCacheRead slot key) fun r m =>
      Since first t m₀ m ∧ ∀ data, r = some data → Current m₀.disk key data := by
  refine (blockCacheFind_spec hheld).bind fun found => ?_
  cases found with
  | none => exact .ret ((stable_rely m₀).and (const _)) fun m _ hm => ⟨hm.1.toSince, nofun⟩
  | some k =>
    have hstable : (layerEnv first t).Stable fun m => Rely first t m₀ m ∧
        ∀ k', some k = some k' → Current m₀.disk key ((m₀.slots slot).entries k').data :=
      (stable_rely m₀).and (const _)
    refine (getSlot_held hstable (fun m hm => hm.1) hheld).bind fun state => ?_
    intro m hself hm
    obtain ⟨⟨hm, hcurrent⟩, rfl⟩ := hm
    refine ((blockCacheTouch_spec hheld).bind fun _ => ?_) m hself hm.toSince
    refine .ret stable_since fun m' _ hm' => ⟨hm', fun data hdata => ?_⟩
    cases hdata
    exact hcurrent k rfl

/-! ## The read-ahead run -/

lemma blockRunHitHere_spec :
    (layerEnv first t).Triple (Rely first t m₀) (blockRunHitHere slot device block) fun hit m =>
      Rely first t m₀ m ∧ (hit = true → (m₀.slots slot).run.first ≤ block ∧
        Current m₀.disk (device.key block) ((m₀.slots slot).run.data (block - (m₀.slots slot).run.first))) := by
  refine (getSlot_held (stable_rely m₀) (fun _ hm => hm) hheld).bind fun state => ?_
  intro m hself hm
  obtain ⟨hm, rfl⟩ := hm
  refine (Env.Triple.ite (fun hrun => ?_) fun _ => ?_) m hself hm
  · refine (sumCounts_spec allWords_nodup (stable_rely m₀) _ fun m _ hm => hm.writes_le).bind fun epoch => ?_
    have hstable : (layerEnv first t).Stable fun m => Rely first t m₀ m ∧
        ∃ vec : Word → ℕ, (allWords.map vec).sum = epoch ∧ ∀ word, m₀.disk.writes word ≤ vec word :=
      (stable_rely m₀).and (const _)
    refine (Env.Triple.ret hstable ?_).pre ?_
    · rintro m' - ⟨hm', vec, hsum, hle⟩
      refine ⟨hm', fun hhit => ?_⟩
      obtain ⟨hepoch, hfirst, hcount⟩ := of_decide_eq_true hhit
      obtain ⟨vec', hvec', hcopies⟩ := (hm.was.slots slot).run hrun.1
      have hcopy := hcopies _ hcount
      rw [hrun.2, Nat.add_sub_cancel' hfirst] at hcopy
      exact ⟨hfirst, hcopy.current hvec' (hsum.trans hepoch.symm) hle fun _ => mem_allWords _⟩
    · rintro m' - ⟨hm', vec, hepoch, hle⟩
      exact ⟨hm', vec, hepoch.sum, hle⟩
  · exact .ret (stable_rely m₀) fun _ _ hm => ⟨hm, nofun⟩

lemma blockRunTake_spec :
    (layerEnv first t).Triple (Rely first t m₀) (blockRunTake slot device block) fun r m =>
      Rely first t m₀ m ∧ ∀ data, r = some data → Current m₀.disk (device.key block) data := by
  refine (blockRunHitHere_spec hheld).bind fun hit => ?_
  refine .ite (fun _ => ?_) fun hhit => ?_
  · exact .ret ((stable_rely m₀).and (const _)) fun m _ hm => ⟨hm.1, nofun⟩
  · have hstable := (stable_rely (E := layerEnv first t) m₀).and (const (hit = true →
      (m₀.slots slot).run.first ≤ block ∧
        Current m₀.disk (device.key block) ((m₀.slots slot).run.data (block - (m₀.slots slot).run.first))))
    refine (getSlot_held hstable (fun m hm => hm.1) hheld).bind fun state => ?_
    refine .ite (fun _ => ?_) fun _ => ?_
    · exact .ret (hstable.and (const _)) fun m _ hm => ⟨hm.1.1, nofun⟩
    · refine .ret (hstable.and (const _)) ?_
      rintro m - ⟨⟨hm, hcurrent⟩, rfl⟩
      refine ⟨hm, fun data hdata => ?_⟩
      cases hdata
      exact (hcurrent (by simpa using hhit)).2

lemma blockRunNoteSingle_spec :
    (layerEnv first t).Triple (Since first t m₀) (blockRunNoteSingle slot device block) fun _ => Since first t m₀ :=
  modifySlot_spec hheld fun _ _ _ hstate => ⟨hstate.entries, hstate.run⟩

lemma blockRunRead_spec :
    (layerEnv first t).Triple (Since first t m₀) (blockRunRead slot device block) fun _ => Since first t m₀ := by
  refine .ite (fun _ => .ret stable_since fun _ _ hm => hm) fun _ => ?_
  refine (modifySlot_spec hheld fun _ _ _ hstate => ?_).bind fun _ => ?_
  · exact ⟨hstate.entries, fun hcount => absurd rfl hcount⟩
  refine (sumCounts_spec allWords_nodup stable_since 0 fun _ _ _ _ => Nat.zero_le _).bind fun epoch => ?_
  refine .since fun m₁ _ hm₁ => ?_
  obtain ⟨hm₁, vec, hepoch, -⟩ := hm₁
  refine (readDeviceRun_spec (stable_rely m₁)).bind fun r => ?_
  cases r with
  | none =>
    refine (Env.Triple.ret stable_since fun _ _ hm => hm).pre fun m _ hm => hm₁.trans hm.1.toSince
  | some data =>
    intro m hself hm
    obtain ⟨hm, hread⟩ := hm
    obtain ⟨m₂, hm₂, hsince, hcopies⟩ := hread data rfl
    have hheld' : m.holder slot = some t := (hm₁.trans hm.toSince).held slot hheld
    refine ((modifySlot_spec hheld' fun m' state hm' hstate => ?_).bind fun _ => ?_) m hself hself.toSince
    · refine ⟨hstate.entries, fun _ => ⟨vec, hm'.epoch (hm.epoch hepoch), fun offset _ => ?_⟩⟩
      have hle : ∀ word, vec word ≤ m₂.disk.writes word := (hm₂.epoch hepoch).le
      exact (hsince.trans hm').copy hle ((hcopies offset).mono fun _ => hle _)
    · exact .ret stable_since fun m' _ hm' => (hm₁.trans hm.toSince).trans hm'

lemma blockRunContinue_spec :
    (layerEnv first t).Triple (Rely first t m₀) (blockRunContinue slot device block) fun r m =>
      ∃ m₁, Since first t m₀ m₁ ∧ Since first t m₁ m ∧
        ∀ data, r = some data → Current m₁.disk (device.key block) data := by
  have hnone : (layerEnv first t).Triple (Since first t m₀) (.ret none : BlockCode D (Option D)) fun r m =>
      ∃ m₁, Since first t m₀ m₁ ∧ Since first t m₁ m ∧
        ∀ data, r = some data → Current m₁.disk (device.key block) data :=
    .ret stable_since fun m hself hm => ⟨m, hm, hself.toSince, nofun⟩
  have hwanted : (layerEnv first t).Triple (Rely first t m₀) (blockRunWanted slot device block)
      fun _ => Since first t m₀ :=
    (getSlot_spec (stable_rely m₀)).bind fun state =>
      .ret ((stable_rely m₀).and (stable_slotOk state)) fun _ _ hm => hm.1.toSince
  refine hwanted.bind fun wanted => .ite (fun _ => ?_) fun _ => hnone
  refine (blockRunRead_spec hheld).bind fun filled => .ite (fun _ => ?_) fun _ => hnone
  refine .since fun m₁ _ hm₁ => ?_
  exact (blockRunTake_spec (hm₁.held slot hheld)).post fun r m _ hm => ⟨m₁, hm₁, hm.1.toSince, hm.2⟩

end

/-! ## Reading -/

lemma blockCacheFill_spec {m₁ : Machine D} (hm₁ : Since first t m₀ m₁) (hheld : m₀.holder slot = some t)
    (hepoch : Epoch m₁.disk (bucketWords key.bucket) epoch vec) (hcurrent : Copy m₁.disk key data vec)
    (hcopy : Copy m₁.disk key data m₀.disk.writes) :
    (layerEnv first t).Triple (Since first t m₁)
      (blockCacheFill slot key data epoch >>= fun _ => pure (some data)) fun r m =>
        Since first t m₀ m ∧ ∀ data, r = some data → Copy m.disk key data m₀.disk.writes := by
  refine (blockCacheStore_spec (hm₁.held slot hheld) hepoch hcurrent).bind fun _ => ?_
  refine .ret stable_since fun m _ hm => ⟨hm₁.trans hm, fun data' hdata => ?_⟩
  cases hdata
  exact hm.copy hm₁.writes_le hcopy

lemma blockReadWith_spec (hheld : m₀.holder slot = some t) :
    (layerEnv first t).Triple (Rely first t m₀) (blockReadWith slot device block) fun r m =>
      Since first t m₀ m ∧ ∀ data, r = some data → Copy m.disk (device.key block) data m₀.disk.writes := by
  refine (blockCacheRead_spec hheld).bind fun cached => ?_
  cases cached with
  | some data =>
    refine .ret (stable_since.and (const _)) fun m _ hm => ⟨hm.1, fun data' hdata => ?_⟩
    exact (hm.2 data' hdata).copy hm.1 fun _ => le_rfl
  | none =>
    refine ((blockCacheBucketEpoch_spec stable_since fun m hm => hm).pre fun _ _ hm => hm.1).bind fun epoch => ?_
    refine .since fun m₁ _ hm₁ => ?_
    obtain ⟨hm₁, vec, hepoch, hvec⟩ := hm₁
    have hheld₁ := hm₁.held slot hheld
    refine (blockRunTake_spec hheld₁).bind fun taken => ?_
    cases taken with
    | some data =>
      intro m hself hm
      have hcurrent := hm.2 data rfl
      refine blockCacheFill_spec hm₁ hheld hepoch ?_ ?_ m hself hm.1.toSince
      · exact hcurrent.mono fun _ => hepoch.le _
      · exact hcurrent.mono fun _ => hm₁.writes_le _
    | none =>
      refine ((blockRunContinue_spec hheld₁).pre fun _ _ hm => hm.1).bind fun continued => ?_
      cases continued with
      | some data =>
        rintro m hself ⟨m₂, hm₂, hm, hcurrent⟩
        have hcurrent := hcurrent data rfl
        refine blockCacheFill_spec (hm₁.trans hm₂) hheld (hm₂.epoch hepoch) ?_ ?_ m hself hm
        · exact hcurrent.mono fun _ => (hm₂.epoch hepoch).le _
        · exact hcurrent.mono fun _ => (hm₁.trans hm₂).writes_le _
      | none =>
        have hstable : (layerEnv first t).Stable (Since first t m₁) := stable_since
        refine ((readDevice_spec hstable).pre ?_).bind fun read => ?_
        · rintro m - ⟨m₂, hm₂, hm, -⟩
          exact hm₂.trans hm
        cases read with
        | none =>
          exact (Env.Triple.ret stable_since fun m _ hm => ⟨hm₁.trans hm, nofun⟩).pre fun _ _ hm => hm.1
        | some data =>
          rintro m hself ⟨-, hread⟩
          obtain ⟨m₂, hm₂, hm, hcurrent⟩ := hread data rfl
          have hheld₂ := hm₂.held slot hheld₁
          refine ((blockRunNoteSingle_spec hheld₂).bind fun _ => ?_) m hself hm
          refine blockCacheFill_spec (hm₁.trans hm₂) hheld (hm₂.epoch hepoch) ?_ ?_
          · exact hcurrent.mono fun _ => (hm₂.epoch hepoch).le _
          · exact hcurrent.mono fun _ => (hm₁.trans hm₂).writes_le _

end Takibi.Block
