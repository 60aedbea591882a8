/-
  File:      Validator/Ratio.lean
  Subject:   THE WEIGHTS DEPEND ON THE RATIOS OF THE SCORES only.

  * `minerShares_eq` -- the map of the shares is `accumulateAll` of the records' portions: neither
    their order nor how a UID's score is split over records matters, words that wrap included;
  * `fits_of_checked` -- a computation that panics nowhere is one that `Fits`;
  * `weights_proportional` -- scores of the UIDs in equal ratios have equal weights;
  * `Rescored`, `weights_rescored` -- the records reordered, merged or multiplied.
-/
import Sn46Validator.Validator.Weights

namespace Sn46Validator.Validator

open Library

/-! ## 1. The map of the shares -/

theorem addShare_eq (uid : U16) (x : U128) (shares : List (U16 × U128)) :
    addShare uid x shares = accumulate uid x shares := by
  induction shares with
  | nil => rfl
  | cons s shares ih => rw [addShare, accumulate, ih]

/-- What a record adds to the map. -/
def portion (burn : BurnFraction) (m : MinerScore) : U16 × U128 :=
  (Fin.ofNat (2 ^ 16) m.uid.val, m.normalizedWeight * (bps - burn.value))

theorem minerShares_eq (burn : BurnFraction) {miners : List MinerScore}
    (hu : ∀ m ∈ miners, m.uid.val < 2 ^ 16) (acc : List (U16 × U128)) :
    minerShares burn miners acc = .ok (accumulateAll (miners.map (portion burn)) acc) := by
  induction miners generalizing acc with
  | nil => rfl
  | cons m miners ih =>
    have hm := hu m List.mem_cons_self
    have hnarrow : narrow (2 ^ 16) m.uid = some (Fin.ofNat (2 ^ 16) m.uid.val) := by
      rw [narrow, dif_pos hm]
      exact congrArg some (Fin.ext (Nat.mod_eq_of_lt hm).symm)
    rw [minerShares, hnarrow]
    dsimp only
    rw [ih fun m' hm' => hu m' (List.mem_cons_of_mem _ hm'), addShare_eq]
    rfl

section

variable {miners miners' : List MinerScore} {ownerUid : U16} {burn : BurnFraction}

/-- `weights` reads the scores through their sum and the map of the shares. -/
theorem weights_congr
    (hsum : (miners'.map (·.normalizedWeight)).sum = (miners.map (·.normalizedWeight)).sum)
    (hshares : minerShares burn miners' [] = minerShares burn miners []) :
    weights miners' ownerUid burn = weights miners ownerUid burn := by
  rw [weights, weights, hsum, hshares]

theorem weights_perm (hu : ∀ m ∈ miners, m.uid.val < 2 ^ 16) (h : miners.Perm miners') :
    weights miners' ownerUid burn = weights miners ownerUid burn := by
  have hu' : ∀ m ∈ miners', m.uid.val < 2 ^ 16 := fun m hm => hu m (h.mem_iff.mpr hm)
  refine weights_congr (h.map _).sum_eq.symm ?_
  rw [minerShares_eq burn hu', minerShares_eq burn hu, accumulateAll_perm (h.map (portion burn))]

/-- The portions of one UID. -/
theorem sum_portions (burn : BurnFraction) (group : List MinerScore) :
    ((group.map (portion burn)).map Prod.snd).sum =
      (group.map (·.normalizedWeight)).sum * (bps - burn.value) := by
  induction group with
  | nil => exact (zero_mul _).symm
  | cons m group ih =>
    rw [List.map_cons, List.map_cons, List.sum_cons, ih, List.map_cons, List.sum_cons, add_mul]
    rfl

theorem uid_merged {uid : U64} {group rest : List MinerScore} {w : U128} (hne : group ≠ [])
    (huid : ∀ m ∈ group, m.uid = uid) (hu : ∀ m ∈ group ++ rest, m.uid.val < 2 ^ 16) :
    ∀ m ∈ (⟨uid, w⟩ : MinerScore) :: rest, m.uid.val < 2 ^ 16 := by
  intro m hm
  rcases List.mem_cons.mp hm with rfl | hm
  · obtain ⟨m', hm'⟩ := List.exists_mem_of_ne_nil group hne
    show uid.val < 2 ^ 16
    rw [← huid m' hm']
    exact hu m' (List.mem_append_left _ hm')
  · exact hu m (List.mem_append_right _ hm)

theorem weights_merge {uid : U64} {group rest : List MinerScore} (hne : group ≠ [])
    (huid : ∀ m ∈ group, m.uid = uid) (hu : ∀ m ∈ group ++ rest, m.uid.val < 2 ^ 16) :
    weights (⟨uid, (group.map (·.normalizedWeight)).sum⟩ :: rest) ownerUid burn =
      weights (group ++ rest) ownerUid burn := by
  refine weights_congr ?_ ?_
  · rw [List.map_append, List.sum_append, List.map_cons, List.sum_cons]
  · have hsame : accumulateAll (group.map (portion burn)) [] =
        accumulate (Fin.ofNat (2 ^ 16) uid.val)
          ((group.map (·.normalizedWeight)).sum * (bps - burn.value)) [] := by
      rw [← sum_portions]
      refine accumulateAll_same (fun hn => hne (List.map_eq_nil_iff.mp hn)) (fun e he => ?_) []
      obtain ⟨m', hm', rfl⟩ := List.mem_map.mp he
      rw [← huid m' hm']
      rfl
    rw [minerShares_eq burn (uid_merged hne huid hu), minerShares_eq burn hu, List.map_append,
      accumulateAll_append, hsame]
    rfl

end

/-! ## 2. A computation that panics nowhere -/

theorem total_of_checked {miners : List MinerScore} {acc total : U128}
    (h : (miners.map (·.normalizedWeight)).foldlM checkedAdd acc = some total) :
    total.val = acc.val + totalScore miners := by
  induction miners generalizing acc with
  | nil =>
    obtain rfl : acc = total := Option.some.inj h
    rfl
  | cons m miners ih =>
    rw [List.map_cons, List.foldlM_cons] at h
    obtain ⟨sum, hs, hf⟩ := Option.bind_eq_some_iff.mp h
    rw [ih hf, checkedAdd_eq hs, totalScore_cons, Nat.add_assoc]

theorem fits_of_addShareChecked {uid : U16} {x : U128} {shares shares' : List (U16 × U128)}
    (hasc : Ascending shares) (h : addShareChecked uid x shares = some shares') :
    valueAt uid shares + x.val < 2 ^ 128 := by
  induction shares generalizing shares' with
  | nil => exact lt_of_eq_of_lt (Nat.zero_add _) x.isLt
  | cons s shares ih =>
    obtain ⟨uid', x'⟩ := s
    rw [addShareChecked] at h
    rw [valueAt_cons]
    split_ifs at h with hlt heq
    · rw [if_neg (ne_of_lt hlt),
        valueAt_of_not_mem fun e he => ne_of_gt (lt_trans hlt (hasc.head_lt he)), Nat.zero_add]
      exact x.isLt
    · obtain ⟨sum, hs, -⟩ := Option.map_eq_some_iff.mp h
      rw [if_pos heq, ← checkedAdd_eq hs]
      exact sum.isLt
    · obtain ⟨rest, hs, -⟩ := Option.map_eq_some_iff.mp h
      rw [if_neg heq]
      exact ih hasc.tail hs

theorem fits_of_minerSharesChecked {burn : BurnFraction} {miners : List MinerScore}
    {acc : List (U16 × U128)} {r : Except Fault (List (U16 × U128))}
    (hu : ∀ m ∈ miners, m.uid.val < 2 ^ 16) (hasc : Ascending acc)
    (h : minerSharesChecked burn miners acc = some r) (uid : U16) :
    valueAt uid acc + scoreOf miners uid * (10000 - burn.value.val) < 2 ^ 128 := by
  induction miners generalizing acc with
  | nil =>
    rw [scoreOf_nil, Nat.zero_mul]
    exact valueAt_lt uid acc
  | cons m miners ih =>
    have hm := hu m List.mem_cons_self
    have hnarrow : narrow (2 ^ 16) m.uid = some ⟨m.uid.val, hm⟩ := dif_pos hm
    have hsub : (bps - burn.value).val = 10000 - burn.value.val := Fin.sub_val_of_le burn.le
    rw [minerSharesChecked, hnarrow] at h
    dsimp only at h
    rw [checkedSub_of burn.le hsub, Option.bind_eq_bind, Option.bind_some] at h
    obtain ⟨x, hx, h⟩ := Option.bind_eq_some_iff.mp h
    obtain ⟨acc', ha, h⟩ := Option.bind_eq_some_iff.mp h
    obtain ⟨hc, hv⟩ := addShare_spec ⟨m.uid.val, hm⟩ x hasc (fits_of_addShareChecked hasc ha)
    obtain rfl : addShare ⟨m.uid.val, hm⟩ x acc = acc' := Option.some.inj (hc.symm.trans ha)
    have hrest := ih (fun m' hm' => hu m' (List.mem_cons_of_mem _ hm')) (addShare_ascending hasc) h
    rw [hv, checkedMul_eq hx, hsub] at hrest
    rw [scoreOf_cons, Nat.add_mul]
    by_cases hk : m.uid.val = uid.val
    · rw [if_pos (Fin.ext hk.symm)] at hrest
      rw [if_pos hk]
      omega
    · rw [if_neg fun he => hk (congrArg Fin.val he.symm)] at hrest
      rw [if_neg hk]
      omega

theorem exists_of_mapM {α β : Type} {f : α → Option β} {l : List α} {l' : List β}
    (h : l.mapM f = some l') {a : α} (ha : a ∈ l) : ∃ b, f a = some b := by
  induction l generalizing l' with
  | nil => cases ha
  | cons x l ih =>
    rw [List.mapM_cons] at h
    obtain ⟨b, hb, h⟩ := Option.bind_eq_some_iff.mp h
    obtain ⟨bs, hbs, -⟩ := Option.bind_eq_some_iff.mp h
    rcases List.mem_cons.mp ha with rfl | ha
    · exact ⟨b, hb⟩
    · exact ih hbs ha

/-- A share that is scaled fits when it is. -/
theorem fits_of_scaleChecked {highest share : U128} {weight : U16}
    (h : scaleChecked highest share = some weight) :
    share.val * 65535 + highest.val / 2 < 2 ^ 128 := by
  rw [scaleChecked] at h
  obtain ⟨product, hp, h⟩ := Option.bind_eq_some_iff.mp h
  obtain ⟨half, hh, h⟩ := Option.bind_eq_some_iff.mp h
  obtain ⟨sum, hs, -⟩ := Option.bind_eq_some_iff.mp h
  have hhalf : checkedDiv highest 2 = some (highest / 2) :=
    checkedDiv_of (by decide) (Fin.div_val ..)
  obtain rfl : highest / 2 = half := Option.some.inj (hhalf.symm.trans hh)
  have hmax : maxWeight.val = 65535 := rfl
  have htwo : (2 : U128).val = 2 := rfl
  have hsum := checkedAdd_eq hs
  rw [checkedMul_eq hp, hmax, Fin.div_val, htwo] at hsum
  rw [← hsum]
  exact sum.isLt

section

variable {miners : List MinerScore} {ownerUid : U16} {burn : BurnFraction}

theorem maxShare_zero {burn : ℕ} (h : totalScore miners = 0) :
    maxShare miners ownerUid burn = 0 := by
  obtain ⟨uid, hu⟩ := exists_maxShare miners ownerUid burn
  have hs : scoreOf miners uid = 0 := Nat.eq_zero_of_le_zero (h ▸ scoreOf_le miners uid)
  rw [← hu, share, hs, h, Nat.zero_mul, Nat.zero_mul, ite_self]

theorem scaled_of_checked {total : U128} {r : Except Fault (List U16 × List U16)}
    (hu : ∀ m ∈ miners, m.uid.val < 2 ^ 16) (ht : total.val = totalScore miners)
    (h : apportionedChecked miners ownerUid burn total = some r) :
    maxShare miners ownerUid burn.value.val * 65535 +
      maxShare miners ownerUid burn.value.val / 2 < 2 ^ 128 := by
  rw [apportionedChecked] at h
  obtain ⟨r', hr, h⟩ := Option.bind_eq_some_iff.mp h
  obtain ⟨shares, -, hsc, hasc, hval⟩ := minerShares_spec burn hu List.Pairwise.nil
    (fits_of_minerSharesChecked hu List.Pairwise.nil hr)
  obtain rfl : Except.ok shares = r' := Option.some.inj (hsc.symm.trans hr)
  obtain ⟨burned, hb, h⟩ := Option.bind_eq_some_iff.mp h
  obtain ⟨shares', ha, h⟩ := Option.bind_eq_some_iff.mp h
  obtain ⟨scaled, hm, -⟩ := Option.bind_eq_some_iff.mp h
  obtain ⟨hc, hv⟩ := addShare_spec ownerUid burned hasc (fits_of_addShareChecked hasc ha)
  obtain rfl : addShare ownerUid burned shares = shares' := Option.some.inj (hc.symm.trans ha)
  have hshare : ∀ uid, valueAt uid (addShare ownerUid burned shares) =
      share miners ownerUid burn.value.val uid := by
    intro uid
    rw [hv, hval, valueAt_nil, Nat.zero_add, checkedMul_eq hb, ht, share]
  rw [← highestShare_eq (addShare_ascending hasc) hshare]
  rcases (highestShare_spec (addShare ownerUid burned shares)).2 with hz | ⟨e, he, hx⟩
  · rw [hz]
    decide
  · obtain ⟨b, hb⟩ := exists_of_mapM hm he
    obtain ⟨weight, hw, -⟩ := Option.map_eq_some_iff.mp hb
    have hfit := fits_of_scaleChecked hw
    rwa [hx] at hfit

/-- **What panics nowhere fits.** -/
theorem fits_of_checked (hu : ∀ m ∈ miners, m.uid.val < 2 ^ 16)
    (h : weightsChecked miners ownerUid burn ≠ none) : Fits miners ownerUid burn.value.val := by
  obtain ⟨r, hr⟩ := Option.ne_none_iff_exists'.mp h
  rw [weightsChecked] at hr
  obtain ⟨total, hf, hr⟩ := Option.bind_eq_some_iff.mp hr
  have ht : total.val = totalScore miners := (total_of_checked hf).trans (Nat.zero_add _)
  refine ⟨hu, ht ▸ total.isLt, fun hb => ?_⟩
  split_ifs at hr with hc
  · rcases hc with rfl | hz
    · exact absurd rfl hb
    · rw [maxShare_zero (by rw [← ht, hz]; rfl)]
      decide
  · exact scaled_of_checked hu ht hr

theorem weightsChecked_eq (h : Fits miners ownerUid burn.value.val) :
    weightsChecked miners ownerUid burn = some (weights miners ownerUid burn) := by
  obtain ⟨entries, hw, hc, -⟩ := weights_spec h
  rw [hw, hc]

end

/-! ## 3. Equal ratios -/

section

variable {miners miners' : List MinerScore} {ownerUid : U16} {a b : ℕ}

section

variable (hu : ∀ m ∈ miners, m.uid.val < 2 ^ 16) (hu' : ∀ m ∈ miners', m.uid.val < 2 ^ 16)
  (h : ∀ uid, a * scoreOf miners uid = b * scoreOf miners' uid)

include hu hu' h

theorem totalScore_ratio : a * totalScore miners = b * totalScore miners' := by
  rw [← sum_scoreOf hu, ← sum_scoreOf hu', Finset.mul_sum, Finset.mul_sum]
  exact Finset.sum_congr rfl fun uid _ => h uid

theorem share_ratio (ownerUid : U16) (burn : ℕ) (uid : U16) :
    a * share miners ownerUid burn uid = b * share miners' ownerUid burn uid := by
  have hburned : a * (totalScore miners * burn) = b * (totalScore miners' * burn) := by
    rw [← Nat.mul_assoc, totalScore_ratio hu hu' h, Nat.mul_assoc]
  have hkept : a * (scoreOf miners uid * (10000 - burn)) =
      b * (scoreOf miners' uid * (10000 - burn)) := by
    rw [← Nat.mul_assoc, h uid, Nat.mul_assoc]
  rw [share, share, Nat.mul_add, Nat.mul_add, hkept, mul_ite, mul_ite, hburned, Nat.mul_zero,
    Nat.mul_zero]

theorem maxShare_ratio (ownerUid : U16) (burn : ℕ) :
    a * maxShare miners ownerUid burn = b * maxShare miners' ownerUid burn := by
  refine le_antisymm ?_ ?_
  · obtain ⟨uid, he⟩ := exists_maxShare miners ownerUid burn
    rw [← he, share_ratio hu hu' h]
    exact Nat.mul_le_mul_left _ (share_le_maxShare uid)
  · obtain ⟨uid, he⟩ := exists_maxShare miners' ownerUid burn
    rw [← he, ← share_ratio hu hu' h]
    exact Nat.mul_le_mul_left _ (share_le_maxShare uid)

end

/-- **Scores in equal ratios have equal weights**, where no operation overflows. -/
theorem weights_proportional {burn : BurnFraction} (hf : Fits miners ownerUid burn.value.val)
    (hf' : Fits miners' ownerUid burn.value.val) (ha : 0 < a) (hb : 0 < b)
    (h : ∀ uid, a * scoreOf miners uid = b * scoreOf miners' uid) :
    weights miners' ownerUid burn = weights miners ownerUid burn := by
  obtain ⟨entries, hw, -, hpos, hzero⟩ := weights_spec hf
  obtain ⟨entries', hw', -, hpos', hzero'⟩ := weights_spec hf'
  have ht := totalScore_ratio hf.uid hf'.uid h
  suffices he : entries' = entries by rw [hw, hw', he]
  by_cases hp : 0 < totalScore miners
  · have hp' : 0 < totalScore miners' := by
      have : 0 < b * totalScore miners' := ht ▸ Nat.mul_pos ha hp
      exact Nat.pos_of_mul_pos_left this
    have hg := hpos hp
    have hg' := hpos' hp'
    refine hg'.ascending.ext hg.ascending hg'.pos hg.pos fun uid => ?_
    rw [hg.value, hg'.value]
    refine nearest_congr (maxShare_pos hf'.uid burn.le hp') (maxShare_pos hf.uid burn.le hp) ?_
    have hs := share_ratio hf.uid hf'.uid h ownerUid burn.value.val uid
    have hm := maxShare_ratio hf.uid hf'.uid h ownerUid burn.value.val
    -- crosswise, and the two factors cancel
    refine Nat.eq_of_mul_eq_mul_left (Nat.mul_pos ha hb) ?_
    generalize share miners ownerUid burn.value.val uid = s at hs ⊢
    generalize share miners' ownerUid burn.value.val uid = s' at hs ⊢
    generalize maxShare miners ownerUid burn.value.val = m at hm ⊢
    generalize maxShare miners' ownerUid burn.value.val = m' at hm ⊢
    calc a * b * (s' * m) = b * s' * (a * m) := by ring
      _ = a * s * (b * m') := by rw [hs, hm]
      _ = a * b * (s * m') := by ring
  · have hz : totalScore miners = 0 := by omega
    have hz' : totalScore miners' = 0 := by
      rw [hz, Nat.mul_zero] at ht
      exact (Nat.mul_eq_zero.mp ht.symm).resolve_left (by omega)
    rw [hzero hz, hzero' hz']

/-- Of scores that are a multiple, the simple ones fit too. -/
theorem Fits.of_multiple {burn : ℕ} (hf : Fits miners' ownerUid burn) (ha : 0 < a)
    (hu : ∀ m ∈ miners, m.uid.val < 2 ^ 16)
    (h : ∀ uid, a * scoreOf miners uid = scoreOf miners' uid) : Fits miners ownerUid burn := by
  have h₁ : ∀ uid, a * scoreOf miners uid = 1 * scoreOf miners' uid := by
    intro uid
    rw [h uid, Nat.one_mul]
  refine ⟨hu, ?_, fun hb => ?_⟩
  · have ht := totalScore_ratio hu hf.uid h₁
    have hle := Nat.le_mul_of_pos_left (totalScore miners) ha
    have hlt := hf.total
    omega
  · have hm := maxShare_ratio hu hf.uid h₁ ownerUid burn
    have hle := Nat.le_mul_of_pos_left (maxShare miners ownerUid burn) ha
    rw [Nat.one_mul] at hm
    rw [hm] at hle
    exact lt_of_le_of_lt (Nat.add_le_add (Nat.mul_le_mul_right _ hle) (Nat.div_le_div_right hle))
      (hf.scaled hb)

end

/-! ## 4. Reordered, merged, multiplied -/

/-- **The same scores, written otherwise**: in another order, several records of a UID as one that
    holds their sum, or every score multiplied, where the multiplied ones overflow nothing. -/
inductive Rescored (ownerUid : U16) (burn : BurnFraction) (miners : List MinerScore) :
    List MinerScore → Prop where
  | reordered {miners' : List MinerScore} (h : miners.Perm miners') :
      Rescored ownerUid burn miners miners'
  | merged {uid : U64} {group rest miners' : List MinerScore} (hne : group ≠ [])
      (huid : ∀ m ∈ group, m.uid = uid) (h : miners.Perm (group ++ rest))
      (h' : miners'.Perm (⟨uid, (group.map (·.normalizedWeight)).sum⟩ :: rest)) :
      Rescored ownerUid burn miners miners'
  | multiplied {k : ℕ} {miners' : List MinerScore} (hk : 1 ≤ k)
      (h : List.Forall₂ (fun m m' => m'.uid = m.uid ∧
        m'.normalizedWeight.val = k * m.normalizedWeight.val) miners miners')
      (hfit : weightsChecked miners' ownerUid burn ≠ none) : Rescored ownerUid burn miners miners'

section

variable {miners miners' : List MinerScore} {ownerUid : U16} {burn : BurnFraction}

theorem scoreOf_perm (h : miners.Perm miners') (uid : U16) :
    scoreOf miners' uid = scoreOf miners uid :=
  ((h.filter _).map _).sum_eq.symm

theorem scoreOf_append (miners miners' : List MinerScore) (uid : U16) :
    scoreOf (miners ++ miners') uid = scoreOf miners uid + scoreOf miners' uid := by
  rw [scoreOf, List.filter_append, List.map_append, List.sum_append]
  rfl

/-- The scores of records of one UID. -/
theorem scoreOf_same {uid : U64} (h : ∀ m ∈ miners, m.uid = uid) (uid' : U16) :
    scoreOf miners uid' = if uid.val = uid'.val then totalScore miners else 0 := by
  induction miners with
  | nil => exact (ite_self 0).symm
  | cons m miners ih =>
    rw [scoreOf_cons, ih fun m' hm' => h m' (List.mem_cons_of_mem _ hm'), totalScore_cons,
      h m List.mem_cons_self]
    split_ifs <;> rfl

theorem scoreOf_multiplied {k : ℕ}
    (h : List.Forall₂ (fun m m' => m'.uid = m.uid ∧
      m'.normalizedWeight.val = k * m.normalizedWeight.val) miners miners') (uid : U16) :
    k * scoreOf miners uid = scoreOf miners' uid := by
  induction h with
  | nil => rfl
  | cons hm _ ih =>
    rw [scoreOf_cons, scoreOf_cons, Nat.mul_add, ih, mul_ite, hm.1, hm.2, Nat.mul_zero]

/-- Records of one UID as one: its score, where the sum fits, is theirs. -/
theorem scoreOf_merged {uid : U64} {group rest : List MinerScore}
    (huid : ∀ m ∈ group, m.uid = uid) (hfit : totalScore group < 2 ^ 128) (uid' : U16) :
    scoreOf (⟨uid, (group.map (·.normalizedWeight)).sum⟩ :: rest) uid' =
      scoreOf (group ++ rest) uid' := by
  obtain ⟨total, ht, -, hsum⟩ := total_spec hfit
  rw [scoreOf_cons, scoreOf_append, scoreOf_same huid, hsum, ht]

theorem uid_multiplied {k : ℕ}
    (h : List.Forall₂ (fun m m' => m'.uid = m.uid ∧
      m'.normalizedWeight.val = k * m.normalizedWeight.val) miners miners')
    (hu : ∀ m ∈ miners, m.uid.val < 2 ^ 16) : ∀ m ∈ miners', m.uid.val < 2 ^ 16 := by
  induction h with
  | nil => exact fun m hm => absurd hm List.not_mem_nil
  | cons hm _ ih =>
    intro m' hm'
    rcases List.mem_cons.mp hm' with rfl | hm'
    · rw [hm.1]
      exact hu _ List.mem_cons_self
    · exact ih (fun m h => hu m (List.mem_cons_of_mem _ h)) m' hm'

/-- The scores of an epoch that fits still fit, written otherwise. -/
theorem Rescored.fits (h : Rescored ownerUid burn miners miners')
    (hf : Fits miners ownerUid burn.value.val) : Fits miners' ownerUid burn.value.val := by
  cases h with
  | reordered h =>
    refine hf.of_multiple one_pos (fun m hm => hf.uid m (h.mem_iff.mpr hm)) fun uid => ?_
    rw [Nat.one_mul, scoreOf_perm h]
  | @merged uid group rest _ hne huid h h' =>
    have hu : ∀ m ∈ group ++ rest, m.uid.val < 2 ^ 16 := fun m hm => hf.uid m (h.mem_iff.mpr hm)
    have hgroup : totalScore group < 2 ^ 128 := by
      have hlt := hf.total
      rw [totalScore, (h.map _).sum_eq, List.map_append, List.sum_append] at hlt
      exact lt_of_le_of_lt (Nat.le_add_right _ _) hlt
    refine hf.of_multiple one_pos (fun m hm => uid_merged hne huid hu m (h'.mem_iff.mp hm))
      fun uid' => ?_
    rw [Nat.one_mul, ← scoreOf_perm h', scoreOf_merged huid hgroup, scoreOf_perm h]
  | multiplied hk h hfit => exact fits_of_checked (uid_multiplied h hf.uid) hfit

/-- **The weights do not depend on how the scores are written**: not on the order of the records,
    not on how a UID's score is split over them, not on a common factor that overflows nothing.
    With overflow checks the same holds of a computation that panics nowhere. -/
theorem weights_rescored (hu : ∀ m ∈ miners, m.uid.val < 2 ^ 16)
    (h : Rescored ownerUid burn miners miners') :
    weights miners' ownerUid burn = weights miners ownerUid burn ∧
      (weightsChecked miners ownerUid burn ≠ none →
        weightsChecked miners' ownerUid burn = weightsChecked miners ownerUid burn) := by
  have hw : weights miners' ownerUid burn = weights miners ownerUid burn := by
    cases h with
    | reordered h => exact weights_perm hu h
    | @merged uid group rest _ hne huid h h' =>
      have hu' : ∀ m ∈ group ++ rest, m.uid.val < 2 ^ 16 := fun m hm => hu m (h.mem_iff.mpr hm)
      rw [weights_perm (fun m hm => uid_merged hne huid hu' m hm) h'.symm,
        weights_merge hne huid hu', weights_perm hu h]
    | multiplied hk h hfit =>
      have hf := fits_of_checked (uid_multiplied h hu) hfit
      refine weights_proportional (hf.of_multiple hk hu (scoreOf_multiplied h)) hf hk one_pos ?_
      intro uid
      rw [Nat.one_mul, scoreOf_multiplied h]
  refine ⟨hw, fun hc => ?_⟩
  have hf := fits_of_checked hu hc
  rw [weightsChecked_eq hf, weightsChecked_eq (h.fits hf), hw]

/-- `testMiners` with a miner's score in two records. -/
def splitMiners : List MinerScore := [⟨3, 65535⟩, ⟨1, 10000⟩, ⟨1, 20000⟩]

/-- `testMiners` with every score multiplied by three. -/
def tripledMiners : List MinerScore := [⟨1, 90000⟩, ⟨3, 196605⟩]

theorem weights_rescored_test :
    weights tripledMiners 3 .none = weights testMiners 3 .none ∧
      weights testMiners 3 .none = weights splitMiners 3 .none := by
  have htripled : Rescored 3 .none testMiners tripledMiners := by
    refine @Rescored.multiplied _ _ _ 3 _ (by decide) (.cons ?_ (.cons ?_ .nil)) (by decide)
    · decide
    · decide
  have hsplit : Rescored 3 .none splitMiners testMiners := by
    refine @Rescored.merged _ _ _ 1 [⟨1, 10000⟩, ⟨1, 20000⟩] [⟨3, 65535⟩] _ (by decide) (by decide)
      ?_ ?_
    · show List.Perm (([⟨3, 65535⟩] : List MinerScore) ++ [⟨1, 10000⟩, ⟨1, 20000⟩]) _
      exact List.perm_append_comm
    · exact List.Perm.refl _
  exact ⟨(weights_rescored testMiners_scored.uid htripled).1,
    (weights_rescored (by decide) hsplit).1⟩

end

end Sn46Validator.Validator
