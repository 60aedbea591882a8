/-
  File:      Validator/Weights.lean
  Subject:   THE WEIGHT VECTOR in exact numbers.

  * `share`, `maxShare` -- a UID's share of the epoch over unbounded integers, and the largest one;
  * `Scored` -- the scores that `weights` is meant for;
  * `weightsChecked` -- the source in a build with overflow checks whose casts are checked too;
  * `apportioned` -- the source past its early return; `Apportions`, `apportioned_spec` -- **every UID
    gets the integer nearest to its share**, scaled so that the largest is 65535;
  * `weights_well_formed`, `weights_apportion`, `burn_monotone` -- what follows for the vector that is
    submitted: it is well formed, it splits the epoch as the shares do, and burning more never
    helps a miner.
-/
import Mathlib.Algebra.BigOperators.Fin
import Mathlib.Algebra.Order.BigOperators.Group.Finset
import Mathlib.Order.Lattice.Nat
import Sn46Validator.Library.Rounding
import Sn46Validator.Library.Table
import Sn46Validator.Validator.Burn

namespace Sn46Validator.Validator

open Library

/-! ## 1. Shares over unbounded integers -/

/-- The scores of a UID together. -/
def scoreOf (miners : List MinerScore) (uid : U16) : ℕ :=
  ((miners.filter fun m => m.uid.val = uid.val).map (·.normalizedWeight.val)).sum

/-- All scores together. -/
def totalScore (miners : List MinerScore) : ℕ := (miners.map (·.normalizedWeight.val)).sum

/-- **The share of a UID**: its scores without the burned part, and for the owner all that is
    burned. -/
def share (miners : List MinerScore) (ownerUid : U16) (burn : ℕ) (uid : U16) : ℕ :=
  scoreOf miners uid * (10000 - burn) + if uid = ownerUid then totalScore miners * burn else 0

/-- The largest share. -/
def maxShare (miners : List MinerScore) (ownerUid : U16) (burn : ℕ) : ℕ :=
  Finset.univ.sup (share miners ownerUid burn)

/-- **The scores that `weights` is meant for**: of chain UIDs, each at most 65535; and a slice is no
    longer than a word can count. -/
structure Scored (miners : List MinerScore) : Prop where
  uid : ∀ m ∈ miners, m.uid.val < 2 ^ 16
  weight : ∀ m ∈ miners, m.normalizedWeight.val ≤ 65535
  length : miners.length < 2 ^ 64

theorem scoreOf_nil (uid : U16) : scoreOf [] uid = 0 := rfl

theorem scoreOf_cons (m : MinerScore) (miners : List MinerScore) (uid : U16) :
    scoreOf (m :: miners) uid =
      (if m.uid.val = uid.val then m.normalizedWeight.val else 0) + scoreOf miners uid := by
  unfold scoreOf
  by_cases h : m.uid.val = uid.val
  · rw [List.filter_cons_of_pos (by simpa using h), if_pos h, List.map_cons, List.sum_cons]
  · rw [List.filter_cons_of_neg (by simpa using h), if_neg h, Nat.zero_add]

theorem totalScore_cons (m : MinerScore) (miners : List MinerScore) :
    totalScore (m :: miners) = m.normalizedWeight.val + totalScore miners := rfl

/-- A UID with a score is a miner's. -/
theorem exists_of_scoreOf {miners : List MinerScore} {uid : U16} (h : 0 < scoreOf miners uid) :
    ∃ m ∈ miners, m.uid.val = uid.val ∧ 0 < m.normalizedWeight.val := by
  induction miners with
  | nil => exact absurd h (Nat.lt_irrefl 0)
  | cons m miners ih =>
    rw [scoreOf_cons] at h
    by_cases hm : m.uid.val = uid.val ∧ 0 < m.normalizedWeight.val
    · exact ⟨m, List.mem_cons_self, hm⟩
    · have hrest : 0 < scoreOf miners uid := by
        split_ifs at h with hu
        · have : ¬0 < m.normalizedWeight.val := fun hw => hm ⟨hu, hw⟩
          omega
        · omega
      obtain ⟨m', hm', hmu⟩ := ih hrest
      exact ⟨m', List.mem_cons_of_mem _ hm', hmu⟩

/-- The scores of all UIDs are all scores. -/
theorem sum_scoreOf {miners : List MinerScore} (h : ∀ m ∈ miners, m.uid.val < 2 ^ 16) :
    ∑ uid : U16, scoreOf miners uid = totalScore miners := by
  induction miners with
  | nil => exact Finset.sum_const_zero
  | cons m miners ih =>
    have hm := h m List.mem_cons_self
    have hone : ∑ uid : U16, (if m.uid.val = uid.val then m.normalizedWeight.val else 0) =
        m.normalizedWeight.val := by
      have hiff : ∀ uid : U16, m.uid.val = uid.val ↔ ⟨m.uid.val, hm⟩ = uid :=
        fun uid => ⟨fun he => Fin.ext he, fun he => congrArg Fin.val he⟩
      simp only [hiff]
      rw [Finset.sum_ite_eq, if_pos (Finset.mem_univ _)]
    simp only [scoreOf_cons]
    rw [Finset.sum_add_distrib, hone, ih fun m' hm' => h m' (List.mem_cons_of_mem _ hm'),
      totalScore_cons]

section

variable {miners : List MinerScore} {ownerUid : U16} {burn : ℕ}

/-- **The shares are the whole epoch.** -/
theorem sum_share (hu : ∀ m ∈ miners, m.uid.val < 2 ^ 16) (hb : burn ≤ 10000) :
    ∑ uid, share miners ownerUid burn uid = totalScore miners * 10000 := by
  unfold share
  rw [Finset.sum_add_distrib, ← Finset.sum_mul, sum_scoreOf hu, Finset.sum_ite_eq',
    if_pos (Finset.mem_univ _), ← Nat.mul_add]
  congr 1
  omega

theorem share_le_maxShare (uid : U16) :
    share miners ownerUid burn uid ≤ maxShare miners ownerUid burn :=
  Finset.le_sup (f := share miners ownerUid burn) (Finset.mem_univ uid)

theorem exists_maxShare (miners : List MinerScore) (ownerUid : U16) (burn : ℕ) :
    ∃ uid, share miners ownerUid burn uid = maxShare miners ownerUid burn := by
  obtain ⟨uid, -, he⟩ := Finset.exists_mem_eq_sup Finset.univ ⟨ownerUid, Finset.mem_univ _⟩
    (share miners ownerUid burn)
  exact ⟨uid, he.symm⟩

theorem maxShare_pos (hu : ∀ m ∈ miners, m.uid.val < 2 ^ 16) (hb : burn ≤ 10000)
    (hpos : 0 < totalScore miners) : 0 < maxShare miners ownerUid burn := by
  by_contra hz
  have hall : ∀ uid, share miners ownerUid burn uid = 0 := by
    intro uid
    have hle : share miners ownerUid burn uid ≤ maxShare miners ownerUid burn :=
      share_le_maxShare uid
    omega
  have hsum : ∑ uid, share miners ownerUid burn uid = totalScore miners * 10000 := sum_share hu hb
  simp only [hall, Finset.sum_const_zero] at hsum
  omega

theorem totalScore_lt (h : Scored miners) : totalScore miners < 2 ^ 80 := by
  have hle : ∀ miners : List MinerScore, (∀ m ∈ miners, m.normalizedWeight.val ≤ 65535) →
      totalScore miners ≤ miners.length * 65535 := by
    intro miners hw
    induction miners with
    | nil => exact Nat.zero_le _
    | cons m miners ih =>
      have h₁ := hw m List.mem_cons_self
      have h₂ := ih fun m' hm' => hw m' (List.mem_cons_of_mem _ hm')
      rw [totalScore_cons, List.length_cons, Nat.add_mul]
      omega
  have h₁ := hle miners h.weight
  have h₂ := h.length
  omega

theorem scoreOf_le (miners : List MinerScore) (uid : U16) :
    scoreOf miners uid ≤ totalScore miners := by
  induction miners with
  | nil => exact le_refl _
  | cons m miners ih =>
    rw [scoreOf_cons, totalScore_cons]
    split_ifs <;> omega

theorem share_lt (h : Scored miners) (hb : burn ≤ 10000) (uid : U16) :
    share miners ownerUid burn uid < 2 ^ 94 := by
  have h₁ := Nat.mul_le_mul_right (10000 - burn) (scoreOf_le miners uid)
  have h₂ := totalScore_lt h
  have h₃ : totalScore miners * (10000 - burn) + totalScore miners * burn =
      totalScore miners * 10000 := by
    rw [← Nat.mul_add]
    congr 1
    omega
  unfold share
  split_ifs <;> omega

/-- **Where no operation overflows**: the sum of the scores fits, and, short of a full burn, so does
    the largest share when it is scaled. -/
structure Fits (miners : List MinerScore) (ownerUid : U16) (burn : ℕ) : Prop where
  uid : ∀ m ∈ miners, m.uid.val < 2 ^ 16
  total : totalScore miners < 2 ^ 128
  scaled : burn ≠ 10000 → maxShare miners ownerUid burn * 65535 +
    maxShare miners ownerUid burn / 2 < 2 ^ 128

theorem Scored.scaled (h : Scored miners) (hb : burn ≤ 10000) :
    maxShare miners ownerUid burn * 65535 + maxShare miners ownerUid burn / 2 < 2 ^ 128 := by
  obtain ⟨uid, hu⟩ := exists_maxShare miners ownerUid burn
  have hlt : share miners ownerUid burn uid < 2 ^ 94 := share_lt h hb uid
  rw [hu] at hlt
  omega

theorem Scored.fits (h : Scored miners) (hb : burn ≤ 10000) : Fits miners ownerUid burn :=
  ⟨h.uid, lt_trans (totalScore_lt h) (by decide), fun _ => h.scaled hb⟩

end

/-! ## 2. The source with overflow checks -/

/-- One more share of a UID: `none` where the sum overflows. -/
def addShareChecked (uid : U16) (share : U128) : List (U16 × U128) → Option (List (U16 × U128))
  | [] => some [(uid, share)]
  | (uid', share') :: shares =>
    if uid < uid' then some ((uid, share) :: (uid', share') :: shares)
    else if uid = uid' then (checkedAdd share' share).map fun sum => (uid', sum) :: shares
    else (addShareChecked uid share shares).map ((uid', share') :: ·)

/-- The miners' shares. -/
def minerSharesChecked (burn : BurnFraction) : List MinerScore → List (U16 × U128) →
    Option (Except Fault (List (U16 × U128)))
  | [], shares => some (.ok shares)
  | record :: miners, shares =>
    match narrow (2 ^ 16) record.uid with
    | some uid => do
      let share ← checkedMul record.normalizedWeight (← checkedSub bps burn.value)
      minerSharesChecked burn miners (← addShareChecked uid share shares)
    | none =>
      some (.error (.burn ⟨"Miner UID " ++ toString record.uid.val ++ " is not a chain UID"⟩))

/-- The weight of a share: `none` where an operation overflows, the divisor is zero, or the cast cuts
    something off. -/
def scaleChecked (highest share : U128) : Option U16 := do
  let sum ← checkedAdd (← checkedMul share maxWeight) (← checkedDiv highest 2)
  narrow (2 ^ 16) (← checkedDiv sum highest)

/-- **`weights` past its early return**, for the sum `total` of the scores. -/
def apportionedChecked (miners : List MinerScore) (ownerUid : U16) (burn : BurnFraction)
    (total : U128) : Option (Except Fault (List U16 × List U16)) := do
  match ← minerSharesChecked burn miners [] with
  | .error fault => return .error fault
  | .ok shares =>
    let shares ← addShareChecked ownerUid (← checkedMul total burn.value) shares
    let scaled ← shares.mapM fun (uid, share) =>
      (scaleChecked (highestShare shares) share).map (uid, ·)
    return .ok (scaled.filter fun (_, weight) => weight > 0).unzip

/-- **`weights` with overflow checks**: `none` where an operation panics or a cast cuts something
    off. -/
def weightsChecked (miners : List MinerScore) (ownerUid : U16) (burn : BurnFraction) :
    Option (Except Fault (List U16 × List U16)) := do
  let total ← (miners.map (·.normalizedWeight)).foldlM checkedAdd 0
  if burn = .full ∨ total = 0 then return .ok ([ownerUid], [maxWeight.toU16])
  else apportionedChecked miners ownerUid burn total

/-- **`weights` past its early return**, as it is built. -/
def apportioned (miners : List MinerScore) (ownerUid : U16) (burn : BurnFraction) :
    Except Fault (List U16 × List U16) := do
  let total := (miners.map (·.normalizedWeight)).sum
  let shares := addShare ownerUid (total * burn.value) (← minerShares burn miners [])
  let highest := highestShare shares
  if highest = 0 then throw .panicked
  let scaled := shares.map fun (uid, share) =>
    (uid, U128.toU16 ((share * maxWeight + highest / 2) / highest))
  return (scaled.filter fun (_, weight) => weight > 0).unzip

theorem weights_eq (miners : List MinerScore) (ownerUid : U16) (burn : BurnFraction) :
    weights miners ownerUid burn =
      if burn = .full ∨ (miners.map (·.normalizedWeight)).sum = 0 then
        .ok ([ownerUid], [maxWeight.toU16])
      else apportioned miners ownerUid burn := rfl

/-! ## 3. Every operation fits -/

theorem addShare_keys {uid : U16} {x : U128} {shares : List (U16 × U128)} {e : U16 × U128}
    (h : e ∈ addShare uid x shares) : e.1 = uid ∨ ∃ e' ∈ shares, e'.1 = e.1 := by
  induction shares with
  | nil => exact .inl (congrArg Prod.fst (List.mem_singleton.mp h))
  | cons s shares ih =>
    obtain ⟨uid', x'⟩ := s
    unfold addShare at h
    split_ifs at h with hlt heq
    · rcases List.mem_cons.mp h with rfl | h
      · exact .inl rfl
      · exact .inr ⟨e, h, rfl⟩
    · rcases List.mem_cons.mp h with rfl | h
      · exact .inl heq.symm
      · exact .inr ⟨e, List.mem_cons_of_mem _ h, rfl⟩
    · rcases List.mem_cons.mp h with rfl | h
      · exact .inr ⟨_, List.mem_cons_self, rfl⟩
      · rcases ih h with he | ⟨e', he', hk⟩
        · exact .inl he
        · exact .inr ⟨e', List.mem_cons_of_mem _ he', hk⟩

theorem addShare_ascending {uid : U16} {x : U128} {shares : List (U16 × U128)}
    (h : Ascending shares) : Ascending (addShare uid x shares) := by
  induction shares with
  | nil => exact List.pairwise_singleton _ _
  | cons s shares ih =>
    obtain ⟨uid', x'⟩ := s
    unfold addShare
    split_ifs with hlt heq
    · refine List.pairwise_cons.mpr ⟨fun e he => ?_, h⟩
      rcases List.mem_cons.mp he with rfl | he
      · exact hlt
      · exact lt_trans hlt (h.head_lt he)
    · exact List.pairwise_cons.mpr (List.pairwise_cons.mp h)
    · refine List.pairwise_cons.mpr ⟨fun e he => ?_, ih h.tail⟩
      rcases addShare_keys he with he | ⟨e', he', hk⟩
      · rw [he]
        exact lt_of_le_of_ne (not_lt.mp hlt) (Ne.symm heq)
      · rw [← hk]
        exact h.head_lt he'

/-- **One more share**, where it fits. -/
theorem addShare_spec (uid : U16) (x : U128) {shares : List (U16 × U128)} (h : Ascending shares)
    (hfit : valueAt uid shares + x.val < 2 ^ 128) :
    addShareChecked uid x shares = some (addShare uid x shares) ∧
      ∀ k, valueAt k (addShare uid x shares) = valueAt k shares + if k = uid then x.val else 0 := by
  induction shares with
  | nil => exact ⟨rfl, fun k => (Nat.zero_add _).symm⟩
  | cons s shares ih =>
    obtain ⟨uid', x'⟩ := s
    unfold addShare addShareChecked
    rw [valueAt_cons] at hfit
    split_ifs with hlt heq
    · refine ⟨rfl, fun k => ?_⟩
      rw [valueAt_cons]
      split_ifs with hk
      · -- a UID before the first one has no share yet
        have hnone : valueAt k ((uid', x') :: shares) = 0 := by
          rw [hk]
          refine valueAt_of_not_mem fun e he => ?_
          rcases List.mem_cons.mp he with rfl | he
          · exact ne_of_gt hlt
          · exact ne_of_gt (lt_trans hlt (h.head_lt he))
        rw [hnone, Nat.zero_add]
      · rfl
    · subst heq
      rw [if_pos rfl] at hfit
      have hadd : checkedAdd x' x = some (x' + x) :=
        checkedAdd_of (add_val_of_lt hfit)
      refine ⟨by rw [hadd, Option.map_some], fun k => ?_⟩
      rw [valueAt_cons, valueAt_cons]
      split_ifs with hk
      · exact add_val_of_lt hfit
      · rfl
    · rw [if_neg heq] at hfit
      obtain ⟨hc, hv⟩ := ih h.tail hfit
      refine ⟨by rw [hc, Option.map_some], fun k => ?_⟩
      rw [valueAt_cons, valueAt_cons, hv]
      split_ifs with hk hk'
      · exact absurd (hk'.symm.trans hk) heq
      · rfl
      · rfl
      · rfl

/-- **The miners' shares**, where all of them fit. -/
theorem minerShares_spec (burn : BurnFraction) {miners : List MinerScore}
    {acc : List (U16 × U128)} (hu : ∀ m ∈ miners, m.uid.val < 2 ^ 16) (hacc : Ascending acc)
    (hfit : ∀ uid, valueAt uid acc + scoreOf miners uid * (10000 - burn.value.val) < 2 ^ 128) :
    ∃ shares, minerShares burn miners acc = .ok shares ∧
      minerSharesChecked burn miners acc = some (.ok shares) ∧ Ascending shares ∧
      ∀ uid, valueAt uid shares =
        valueAt uid acc + scoreOf miners uid * (10000 - burn.value.val) := by
  induction miners generalizing acc with
  | nil =>
    refine ⟨acc, rfl, rfl, hacc, fun uid => ?_⟩
    rw [scoreOf_nil, Nat.zero_mul, Nat.add_zero]
  | cons m miners ih =>
    have hm := hu m List.mem_cons_self
    have hnarrow : narrow (2 ^ 16) m.uid = some ⟨m.uid.val, hm⟩ := dif_pos hm
    have hsub : (bps - burn.value).val = 10000 - burn.value.val := Fin.sub_val_of_le burn.le
    simp only [scoreOf_cons, Nat.add_mul] at hfit
    have hfirst := hfit ⟨m.uid.val, hm⟩
    rw [if_pos rfl] at hfirst
    have hlt : m.normalizedWeight.val * (bps - burn.value).val < 2 ^ 128 := by
      rw [hsub]
      omega
    have hx : (m.normalizedWeight * (bps - burn.value)).val =
        m.normalizedWeight.val * (10000 - burn.value.val) := by
      rw [mul_val_of_lt hlt, hsub]
    have hmul : checkedMul m.normalizedWeight (bps - burn.value) =
        some (m.normalizedWeight * (bps - burn.value)) := checkedMul_of (mul_val_of_lt hlt)
    obtain ⟨hc, hv⟩ := addShare_spec ⟨m.uid.val, hm⟩ (m.normalizedWeight * (bps - burn.value))
      hacc (by
        rw [hx]
        omega)
    obtain ⟨shares, hs, hsc, hasc, hval⟩ := @ih
      (addShare ⟨m.uid.val, hm⟩ (m.normalizedWeight * (bps - burn.value)) acc)
      (fun m' hm' => hu m' (List.mem_cons_of_mem _ hm')) (addShare_ascending hacc) fun uid => by
        have hnext := hfit uid
        rw [hv, hx]
        by_cases hk : m.uid.val = uid.val
        · rw [if_pos hk] at hnext
          rw [if_pos (Fin.ext hk.symm)]
          omega
        · rw [if_neg hk, Nat.zero_mul] at hnext
          rw [if_neg fun he => hk (congrArg Fin.val he.symm)]
          omega
    refine ⟨shares, ?_, ?_, hasc, fun uid => ?_⟩
    · rw [minerShares, hnarrow]
      exact hs
    · rw [minerSharesChecked, hnarrow]
      dsimp only
      rw [checkedSub_of burn.le hsub, Option.bind_eq_bind, Option.bind_some, hmul,
        Option.bind_eq_bind, Option.bind_some, hc, Option.bind_some]
      exact hsc
    · rw [hval, hv, scoreOf_cons, Nat.add_mul, hx]
      by_cases hk : m.uid.val = uid.val
      · rw [if_pos hk, if_pos (Fin.ext hk.symm)]
        omega
      · rw [if_neg hk, if_neg fun he => hk (congrArg Fin.val he.symm)]
        omega

/-- The largest share of a table. -/
theorem highestShare_spec (shares : List (U16 × U128)) :
    (∀ e ∈ shares, e.2 ≤ highestShare shares) ∧
      (highestShare shares = 0 ∨ ∃ e ∈ shares, e.2 = highestShare shares) := by
  have hfold : ∀ (shares : List (U16 × U128)) (acc : U128),
      acc ≤ shares.foldl (fun highest s => if highest < s.2 then s.2 else highest) acc ∧
      (∀ e ∈ shares,
        e.2 ≤ shares.foldl (fun highest s => if highest < s.2 then s.2 else highest) acc) ∧
      (shares.foldl (fun highest s => if highest < s.2 then s.2 else highest) acc = acc ∨
        ∃ e ∈ shares,
          e.2 = shares.foldl (fun highest s => if highest < s.2 then s.2 else highest) acc) := by
    intro shares
    induction shares with
    | nil => exact fun acc => ⟨le_refl _, fun e he => absurd he List.not_mem_nil, .inl rfl⟩
    | cons s shares ih =>
      intro acc
      obtain ⟨h₁, h₂, h₃⟩ := ih (if acc < s.2 then s.2 else acc)
      have hacc : acc ≤ if acc < s.2 then s.2 else acc := by
        split_ifs with hlt
        · exact le_of_lt hlt
        · exact le_refl _
      have hs : s.2 ≤ if acc < s.2 then s.2 else acc := by
        split_ifs with hlt
        · exact le_refl _
        · exact not_lt.mp hlt
      refine ⟨hacc.trans h₁, fun e he => ?_, ?_⟩
      · rcases List.mem_cons.mp he with rfl | he
        · exact hs.trans h₁
        · exact h₂ e he
      · rcases h₃ with he | ⟨e, he, hv⟩
        · rw [List.foldl_cons, he]
          split_ifs with hlt
          · exact .inr ⟨s, List.mem_cons_self, rfl⟩
          · exact .inl rfl
        · exact .inr ⟨e, List.mem_cons_of_mem _ he, hv⟩
  exact (hfold shares 0).2

/-- **The sum of the scores**, where it fits. -/
theorem total_spec {miners : List MinerScore} (h : totalScore miners < 2 ^ 128) :
    ∃ total : U128, total.val = totalScore miners ∧
      (miners.map (·.normalizedWeight)).foldlM checkedAdd 0 = some total ∧
      (miners.map (·.normalizedWeight)).sum = total := by
  have hfold : ∀ (miners : List MinerScore) (acc : U128),
      acc.val + totalScore miners < 2 ^ 128 →
      ∃ total : U128, total.val = acc.val + totalScore miners ∧
        (miners.map (·.normalizedWeight)).foldlM checkedAdd acc = some total := by
    intro miners
    induction miners with
    | nil => exact fun acc _ => ⟨acc, rfl, rfl⟩
    | cons m miners ih =>
      intro acc hacc
      rw [totalScore_cons] at hacc
      have hlt : acc.val + m.normalizedWeight.val < 2 ^ 128 := by omega
      obtain ⟨total, ht, hf⟩ := ih (acc + m.normalizedWeight) (by rw [add_val_of_lt hlt]; omega)
      refine ⟨total, ?_, ?_⟩
      · rw [ht, add_val_of_lt hlt, totalScore_cons, Nat.add_assoc]
      · rw [List.map_cons, List.foldlM_cons, checkedAdd_of (add_val_of_lt hlt), Option.bind_eq_bind,
          Option.bind_some]
        exact hf
  have hsum : ∀ miners : List MinerScore, totalScore miners < 2 ^ 128 →
      (miners.map MinerScore.normalizedWeight).sum.val = totalScore miners := by
    intro miners
    induction miners with
    | nil => exact fun _ => rfl
    | cons m miners ih =>
      intro hm
      rw [totalScore_cons] at hm
      have hrest := ih (by omega)
      rw [List.map_cons, List.sum_cons, add_val_of_lt (by rw [hrest]; exact hm), hrest,
        totalScore_cons]
  obtain ⟨total, ht, hf⟩ := hfold miners 0 (lt_of_eq_of_lt (Nat.zero_add _) h)
  refine ⟨total, ht.trans (Nat.zero_add _), hf, Fin.ext ?_⟩
  rw [hsum miners h, ht]
  exact (Nat.zero_add _).symm

/-! ## 4. Every UID gets the nearest weight -/

/-- The weight of a share, as the source scales it. -/
def scale (highest share : U128) : U16 :=
  U128.toU16 ((share * maxWeight + highest / 2) / highest)

/-- **A share scaled**, where nothing overflows. -/
theorem scale_spec {highest share : U128} (hpos : 0 < highest.val) (hle : share ≤ highest)
    (hfit : highest.val * 65535 + highest.val / 2 < 2 ^ 128) :
    scaleChecked highest share = some (scale highest share) ∧
      (scale highest share).val = nearest 65535 share.val highest.val := by
  have hshare : share.val ≤ highest.val := hle
  have hmax : maxWeight.val = 65535 := rfl
  have htwo : (2 : U128).val = 2 := rfl
  have hbound : share.val * 65535 + highest.val / 2 < 2 ^ 128 :=
    lt_of_le_of_lt (Nat.add_le_add_right (Nat.mul_le_mul_right _ hshare) _) hfit
  have hmul : (share * maxWeight).val = share.val * 65535 := by
    rw [mul_val_of_lt (by rw [hmax]; exact lt_of_le_of_lt (Nat.le_add_right _ _) hbound), hmax]
  have hhalf : (highest / 2).val = highest.val / 2 := by rw [Fin.div_val, htwo]
  have hadd : (share * maxWeight + highest / 2).val = share.val * 65535 + highest.val / 2 := by
    rw [add_val_of_lt (by rw [hmul, hhalf]; exact hbound), hmul, hhalf]
  have hdiv : ((share * maxWeight + highest / 2) / highest).val =
      nearest 65535 share.val highest.val := by
    rw [Fin.div_val, hadd, nearest]
  have hword : nearest 65535 share.val highest.val < 2 ^ 16 := by
    have h₁ : nearest 65535 share.val highest.val ≤ nearest 65535 highest.val highest.val :=
      nearest_mono hpos hpos (Nat.mul_le_mul_right _ hshare)
    rw [nearest_self hpos] at h₁
    omega
  have hcast : (scale highest share).val = nearest 65535 share.val highest.val := by
    show _ % 2 ^ 16 = _
    rw [hdiv, Nat.mod_eq_of_lt hword]
  refine ⟨?_, hcast⟩
  have hnarrow : narrow (2 ^ 16) ((share * maxWeight + highest / 2) / highest) =
      some (scale highest share) := by
    rw [narrow, dif_pos (by rw [hdiv]; exact hword)]
    exact congrArg some (Fin.ext (hdiv.trans hcast.symm))
  rw [scaleChecked, checkedMul_of (by rw [hmul, hmax]), Option.bind_eq_bind, Option.bind_some,
    checkedDiv_of (by rw [htwo]; decide) (by rw [hhalf, htwo]), Option.bind_some,
    checkedAdd_of (by rw [hadd, hmul, hhalf]), Option.bind_some,
    checkedDiv_of (Nat.pos_iff_ne_zero.mp hpos) (Fin.div_val ..), Option.bind_some]
  exact hnarrow

/-- A list mapped where every entry has an image. -/
theorem mapM_some {α β : Type} {f : α → Option β} {g : α → β} {l : List α}
    (h : ∀ a ∈ l, f a = some (g a)) : l.mapM f = some (l.map g) := by
  induction l with
  | nil => rfl
  | cons a l ih =>
    rw [List.mapM_cons, h a List.mem_cons_self, ih fun a' ha' => h a' (List.mem_cons_of_mem _ ha')]
    rfl

/-- The largest share of a table of shares. -/
theorem highestShare_eq {miners : List MinerScore} {ownerUid : U16} {burn : ℕ}
    {shares : List (U16 × U128)} (h : Ascending shares)
    (hv : ∀ uid, valueAt uid shares = share miners ownerUid burn uid) :
    (highestShare shares).val = maxShare miners ownerUid burn := by
  obtain ⟨hle, hmem⟩ := highestShare_spec shares
  refine le_antisymm ?_ (Finset.sup_le fun uid _ => ?_)
  · rcases hmem with hz | ⟨e, he, hx⟩
    · rw [hz]
      exact Nat.zero_le _
    · rw [← hx, ← h.valueAt_of_mem he, hv]
      exact share_le_maxShare _
  · rw [← hv]
    by_cases hpos : 0 < valueAt uid shares
    · obtain ⟨e, he, -, hx⟩ := exists_of_valueAt hpos
      rw [← hx]
      exact hle e he
    · omega

/-- **A vector apportions the epoch**: UIDs in order, no zeros, and every UID's weight is the integer
    nearest to its share, where the largest share weighs 65535. -/
structure Apportions (miners : List MinerScore) (ownerUid : U16) (burn : ℕ)
    (entries : List (U16 × U16)) : Prop where
  ascending : Ascending entries
  pos : ∀ e ∈ entries, 0 < e.2.val
  value : ∀ uid, valueAt uid entries =
    nearest 65535 (share miners ownerUid burn uid) (maxShare miners ownerUid burn)

/-- The entries of a table of shares. -/
def entriesOf (shares : List (U16 × U128)) : List (U16 × U16) :=
  (shares.map fun (uid, share) => (uid, scale (highestShare shares) share)).filter
    fun (_, weight) => weight > 0

/-- **A table of shares, scaled.** -/
theorem entriesOf_spec {miners : List MinerScore} {ownerUid : U16} {burn : ℕ}
    {shares : List (U16 × U128)} (hfit : maxShare miners ownerUid burn * 65535 +
      maxShare miners ownerUid burn / 2 < 2 ^ 128)
    (hmaxpos : 0 < maxShare miners ownerUid burn) (hasc : Ascending shares)
    (hv : ∀ uid, valueAt uid shares = share miners ownerUid burn uid) :
    highestShare shares ≠ 0 ∧
      (shares.mapM fun e => (scaleChecked (highestShare shares) e.2).map (e.1, ·)) =
        some (shares.map fun e => (e.1, scale (highestShare shares) e.2)) ∧
      Apportions miners ownerUid burn (entriesOf shares) := by
  have hhigh := highestShare_eq hasc hv
  have hscale : ∀ e ∈ shares, scaleChecked (highestShare shares) e.2 =
        some (scale (highestShare shares) e.2) ∧ (scale (highestShare shares) e.2).val =
          nearest 65535 e.2.val (maxShare miners ownerUid burn) := by
    intro e he
    rw [← hhigh]
    exact scale_spec (by omega) ((highestShare_spec shares).1 e he) (by rw [hhigh]; exact hfit)
  have hscaled : Ascending (shares.map fun e => (e.1, scale (highestShare shares) e.2)) :=
    hasc.map (scale (highestShare shares))
  refine ⟨fun hz => ?_, mapM_some fun e he => ?_, hscaled.filter _, fun e he => ?_, fun uid => ?_⟩
  · rw [hz] at hhigh
    exact absurd hmaxpos (by rw [← hhigh]; exact Nat.lt_irrefl 0)
  · rw [(hscale e he).1, Option.map_some]
  · exact of_decide_eq_true (List.mem_filter.mp he).2
  · have hfilter := hscaled.valueAt_filter uid
    have hmap : valueAt uid (shares.map fun e => (e.1, scale (highestShare shares) e.2)) =
        nearest 65535 (valueAt uid shares) (maxShare miners ownerUid burn) :=
      valueAt_map (g := fun x => nearest 65535 x (maxShare miners ownerUid burn)) nearest_zero
        (fun e he => (hscale e he).2) uid
    rw [hmap, hv] at hfilter
    exact hfilter

/-- **The general computation**, of scores that are not all zero. -/
theorem apportioned_spec {miners : List MinerScore} {ownerUid : U16} {burn : BurnFraction}
    (hu : ∀ m ∈ miners, m.uid.val < 2 ^ 16)
    (hfit : maxShare miners ownerUid burn.value.val * 65535 +
      maxShare miners ownerUid burn.value.val / 2 < 2 ^ 128)
    (hpos : 0 < totalScore miners) {total : U128}
    (ht : total.val = totalScore miners) (hsum : (miners.map (·.normalizedWeight)).sum = total) :
    ∃ entries, apportioned miners ownerUid burn = .ok entries.unzip ∧
      apportionedChecked miners ownerUid burn total = some (.ok entries.unzip) ∧
      Apportions miners ownerUid burn.value.val entries := by
  have hmaxpos : 0 < maxShare miners ownerUid burn.value.val := maxShare_pos hu burn.le hpos
  have hshare : ∀ uid, share miners ownerUid burn.value.val uid < 2 ^ 128 := by
    intro uid
    have hle : share miners ownerUid burn.value.val uid ≤ maxShare miners ownerUid burn.value.val :=
      share_le_maxShare uid
    omega
  obtain ⟨shares, hs, hsc, hasc, hval⟩ := minerShares_spec burn hu List.Pairwise.nil fun uid => by
    have hlt := hshare uid
    rw [valueAt_nil]
    rw [share] at hlt
    omega
  have hburned : total.val * burn.value.val < 2 ^ 128 := by
    have hlt := hshare ownerUid
    rw [share, if_pos rfl] at hlt
    rw [ht]
    omega
  have hx : (total * burn.value).val = totalScore miners * burn.value.val := by
    rw [mul_val_of_lt hburned, ht]
  have howner : ∀ uid, valueAt uid shares + (if uid = ownerUid then (total * burn.value).val else 0)
      = share miners ownerUid burn.value.val uid := by
    intro uid
    rw [hval, valueAt_nil, Nat.zero_add, hx, share]
  obtain ⟨hc, hv⟩ := addShare_spec ownerUid (total * burn.value) hasc (by
    have h₁ := howner ownerUid
    have h₂ := hshare ownerUid
    rw [if_pos rfl] at h₁
    omega)
  obtain ⟨hne, hmap, hentries⟩ := entriesOf_spec hfit hmaxpos (addShare_ascending hasc)
    fun uid => (hv uid).trans (howner uid)
  refine ⟨_, ?_, ?_, hentries⟩
  · unfold apportioned
    rw [hs, hsum]
    dsimp only [bind, Except.bind]
    rw [if_neg hne]
    rfl
  · rw [apportionedChecked, hsc, Option.bind_eq_bind, Option.bind_some]
    dsimp only
    rw [checkedMul_of (mul_val_of_lt hburned), Option.bind_eq_bind, Option.bind_some, hc,
      Option.bind_eq_bind, Option.bind_some, hmap, Option.bind_eq_bind, Option.bind_some]
    rfl

/-- The weight that a vector gives a UID, 0 where it gives none. -/
def submitted (vector : List U16 × List U16) (uid : U16) : ℕ :=
  valueAt uid (vector.1.zip vector.2)

theorem submitted_unzip (entries : List (U16 × U16)) (uid : U16) :
    submitted entries.unzip uid = valueAt uid entries := by
  rw [submitted, List.zip_unzip]

/-- The owner alone. -/
def ownerAlone (ownerUid : U16) : List (U16 × U16) := [(ownerUid, 65535)]

section

variable {miners : List MinerScore} {ownerUid : U16}

theorem eq_full {burn : BurnFraction} (h : burn.value.val = 10000) : burn = .full := by
  obtain ⟨value, hle⟩ := burn
  obtain rfl : value = bps := Fin.ext h
  rfl

/-- At a full burn the owner alone apportions the epoch. -/
theorem ownerAlone_apportions (hu : ∀ m ∈ miners, m.uid.val < 2 ^ 16)
    (hpos : 0 < totalScore miners) :
    Apportions miners ownerUid 10000 (ownerAlone ownerUid) := by
  have hmax : 0 < maxShare miners ownerUid 10000 := maxShare_pos hu (le_refl _) hpos
  have hother : ∀ uid, uid ≠ ownerUid → share miners ownerUid 10000 uid = 0 := by
    intro uid hu
    rw [share, if_neg hu, Nat.sub_self, Nat.mul_zero]
  have howner : share miners ownerUid 10000 ownerUid = maxShare miners ownerUid 10000 := by
    obtain ⟨uid, hu⟩ := exists_maxShare miners ownerUid 10000
    by_cases he : uid = ownerUid
    · rwa [he] at hu
    · rw [hother uid he] at hu
      omega
  refine ⟨List.pairwise_singleton _ _, fun e he => ?_, fun uid => ?_⟩
  · rw [List.mem_singleton.mp he]
    show 0 < (65535 : U16).val
    decide
  · rw [ownerAlone, valueAt_cons, valueAt_nil]
    split_ifs with hu
    · rw [hu, howner, nearest_self hmax]
      rfl
    · rw [hother uid hu, nearest_zero]

/-- **What is submitted**: the owner alone where nothing is scored; else a vector that apportions the
    epoch, at a full burn too. No operation overflows. -/
theorem weights_spec {burn : BurnFraction} (h : Fits miners ownerUid burn.value.val) :
    ∃ entries, weights miners ownerUid burn = .ok entries.unzip ∧
      weightsChecked miners ownerUid burn = some (.ok entries.unzip) ∧
      (0 < totalScore miners → Apportions miners ownerUid burn.value.val entries) ∧
      (totalScore miners = 0 → entries = ownerAlone ownerUid) := by
  obtain ⟨total, ht, hfold, hsum⟩ := total_spec h.total
  have hzero : total = 0 ↔ totalScore miners = 0 := by
    rw [← ht]
    exact ⟨congrArg Fin.val, fun hv => Fin.ext hv⟩
  by_cases hc : burn = .full ∨ total = 0
  · refine ⟨ownerAlone ownerUid, ?_, ?_, fun hpos => ?_, fun _ => rfl⟩
    · rw [weights_eq, hsum, if_pos hc]
      rfl
    · rw [weightsChecked, hfold, Option.bind_eq_bind, Option.bind_some, if_pos hc]
      rfl
    · rcases hc with rfl | hz
      · exact ownerAlone_apportions h.uid hpos
      · have := hzero.mp hz
        omega
  · have hpos : 0 < totalScore miners := by
      rw [Nat.pos_iff_ne_zero]
      exact fun hz => hc (.inr (hzero.mpr hz))
    have hfit := h.scaled fun hv => hc (.inl (eq_full hv))
    obtain ⟨entries, ha, hac, hentries⟩ := apportioned_spec h.uid hfit hpos ht hsum
    refine ⟨entries, ?_, ?_, fun _ => hentries, fun hz => ?_⟩
    · rw [weights_eq, hsum, if_neg hc, ha]
    · rw [weightsChecked, hfold, Option.bind_eq_bind, Option.bind_some, if_neg hc, hac]
    · omega

/-! ## 5. The vector is well formed -/

/-- A vector that apportions an epoch holds the largest weight. -/
theorem Apportions.full {burn : ℕ} {entries : List (U16 × U16)}
    (h : Apportions miners ownerUid burn entries) (hmax : 0 < maxShare miners ownerUid burn) :
    ∃ e ∈ entries, e.2 = 65535 := by
  obtain ⟨uid, hu⟩ := exists_maxShare miners ownerUid burn
  have hv := h.value uid
  rw [hu, nearest_self hmax] at hv
  obtain ⟨e, he, -, hx⟩ := exists_of_valueAt (k := uid) (l := entries) (by omega)
  exact ⟨e, he, Fin.ext (hx.trans hv)⟩

/-- Its UIDs have a share. -/
theorem Apportions.share_pos {burn : ℕ} {entries : List (U16 × U16)}
    (h : Apportions miners ownerUid burn entries) {e : U16 × U16} (he : e ∈ entries) :
    0 < share miners ownerUid burn e.1 := by
  rw [Nat.pos_iff_ne_zero]
  intro hz
  have hv := h.value e.1
  rw [h.ascending.valueAt_of_mem he, hz, nearest_zero] at hv
  have := h.pos e he
  omega

/-- **The weight vector is well formed.** For a snapshot that is read and a summary that fits it, any
    owner, any burn and any scores of the summary's miners: the validator's UID has a last update,
    and `weights` gives, without an overflow, a division by zero or a cast that cuts something off,
    as many UIDs as weights, at least one, the UIDs in order and each an owner's or a scored
    miner's, and the weights from 1 to 65535, the largest of which is 65535. -/
theorem weights_well_formed {Evidence : Type} {block : U64} {storage : Storage}
    {snapshot : ChainSnapshot} {summary : EpochSummary Evidence}
    (hread : readStorage block storage = .ok snapshot)
    (hvalid : validateChain summary snapshot = .ok ())
    (hminers : ∀ m ∈ miners, (∃ x ∈ summary.miners, x.uid = m.uid) ∧ m.normalizedWeight.val ≤ 65535)
    (hlength : miners.length < 2 ^ 64) (ownerUid : U16) (burn : BurnFraction) :
    (∀ hotkey uid, snapshot.hotkeys.findIdx? (· = hotkey) = some uid →
      uid < snapshot.lastUpdates.length) ∧
    ∃ dests ws, weights miners ownerUid burn = .ok (dests, ws) ∧
      weightsChecked miners ownerUid burn = some (.ok (dests, ws)) ∧
      dests.length = ws.length ∧ dests ≠ [] ∧ dests.Pairwise (· < ·) ∧
      (∀ w ∈ ws, 1 ≤ w.val ∧ w.val ≤ 65535) ∧ (65535 : U16) ∈ ws ∧
      ∀ uid ∈ dests, uid = ownerUid ∨
        ∃ m ∈ miners, m.uid.val = uid.val ∧ 0 < m.normalizedWeight.val := by
  obtain ⟨hhotkeys, hupdates⟩ := readStorage_size hread
  have hsize := storage.size.isLt
  have hscored : Scored miners := by
    refine ⟨fun m hm => ?_, fun m hm => (hminers m hm).2, hlength⟩
    obtain ⟨⟨x, hx, hu⟩, -⟩ := hminers m hm
    have hk := validateChain_miners hvalid hx
    have hlt := (List.getElem?_eq_some_iff.mp hk).1
    rw [hu, hhotkeys] at hlt
    omega
  refine ⟨fun hotkey uid hf => ?_, ?_⟩
  · rw [hupdates, ← hhotkeys]
    exact (List.findIdx?_eq_some_iff_findIdx_eq.mp hf).1
  · obtain ⟨entries, hw, hc, hpos, hzero⟩ := weights_spec (hscored.fits burn.le : Fits miners ownerUid _)
    have hgood : Ascending entries ∧ (∀ e ∈ entries, 0 < e.2.val) ∧ (∃ e ∈ entries, e.2 = 65535) ∧
        ∀ e ∈ entries, e.1 = ownerUid ∨
          ∃ m ∈ miners, m.uid.val = e.1.val ∧ 0 < m.normalizedWeight.val := by
      by_cases ht : totalScore miners = 0
      · rw [hzero ht]
        refine ⟨List.pairwise_singleton _ _, ?_, ⟨_, List.mem_singleton_self _, rfl⟩, ?_⟩
        · intro e he
          rw [List.mem_singleton.mp he]
          show 0 < (65535 : U16).val
          decide
        · intro e he
          rw [List.mem_singleton.mp he]
          exact .inl rfl
      · have ha := hpos (Nat.pos_of_ne_zero ht)
        refine ⟨ha.ascending, ha.pos, ha.full ?_, fun e he => ?_⟩
        · exact maxShare_pos hscored.uid burn.le (Nat.pos_of_ne_zero ht)
        · by_cases ho : e.1 = ownerUid
          · exact .inl ho
          · have hs := ha.share_pos he
            rw [share, if_neg ho, Nat.add_zero] at hs
            exact .inr (exists_of_scoreOf (Nat.pos_of_mul_pos_right hs))
    obtain ⟨hasc, hp, ⟨e, he, hfull⟩, hkeys⟩ := hgood
    have hfst : entries.unzip.1 = entries.map Prod.fst := List.unzip_fst
    have hsnd : entries.unzip.2 = entries.map Prod.snd := List.unzip_snd
    refine ⟨entries.unzip.1, entries.unzip.2, hw, hc, ?_, ?_, ?_, fun w hw => ?_, ?_,
      fun uid hu => ?_⟩
    · rw [hfst, hsnd, List.length_map, List.length_map]
    · rw [hfst]
      exact fun hn => List.ne_nil_of_mem he (List.map_eq_nil_iff.mp hn)
    · rw [hfst]
      exact List.pairwise_map.mpr hasc
    · rw [hsnd] at hw
      obtain ⟨e, he, rfl⟩ := List.mem_map.mp hw
      have := e.2.isLt
      exact ⟨hp e he, by omega⟩
    · rw [hsnd]
      exact List.mem_map.mpr ⟨e, he, hfull⟩
    · rw [hfst] at hu
      obtain ⟨e, he, rfl⟩ := List.mem_map.mp hu
      exact hkeys e he

/-- Two miners, the second of which is the owner. -/
def testMiners : List MinerScore := [⟨1, 30000⟩, ⟨3, 65535⟩]

def testStorage : Storage where
  size := 4
  tempo := 360
  lastStep := 720
  blocksSinceLastStep := 10
  lastUpdates := [0, 0, 0, 0]
  weightsRateLimit := 0
  keys _ := some "hotkey"

def testSnapshot : ChainSnapshot where
  finalizedBlock := 730
  tempo := 360
  lastStep := 720
  hotkeys := ["hotkey", "hotkey", "hotkey", "hotkey"]
  lastUpdates := [0, 0, 0, 0]
  weightsRateLimit := 0

def testSummary : EpochSummary Unit where
  summaryId := "id"
  digest := "digest"
  netuid := ⟨46, by decide⟩
  tempo := ⟨360, by decide⟩
  epochStartBlock := 361
  epochEndBlock := 720
  finalizedBlock := 725
  miners := [⟨1, "hotkey"⟩, ⟨3, "hotkey"⟩]
  minerTargetUsdCents := none
  taoPriceUsdCents := none
  evidence := ()

theorem testMiners_scored : Scored testMiners := ⟨by decide, by decide, by decide⟩

theorem weights_well_formed_test : ∃ dests ws, weights testMiners 3 .none = .ok (dests, ws) ∧
    (65535 : U16) ∈ ws := by
  obtain ⟨-, dests, ws, h, -, -, -, -, -, hmax, -⟩ := weights_well_formed
    (show readStorage 730 testStorage = .ok testSnapshot from rfl)
    (show validateChain testSummary testSnapshot = .ok () from rfl)
    (show ∀ m ∈ testMiners, (∃ x ∈ testSummary.miners, x.uid = m.uid) ∧
      m.normalizedWeight.val ≤ 65535 by decide) (by decide) 3 .none
  exact ⟨dests, ws, h, hmax⟩

/-! ## 6. The vector splits the epoch -/

/-- **The weights apportion the epoch up to rounding.** The shares are the whole of it; each UID's
    weight is the integer nearest to its share, scaled so that the largest share weighs 65535; a
    larger share never weighs less; and with `n` UIDs of miners besides the owner, the fraction of
    the weight that is not the owner's is off by at most `n / 131070`. -/
theorem weights_apportion (h : Scored miners) (hpos : 0 < totalScore miners) (ownerUid : U16)
    (burn : BurnFraction) :
    ∃ vector, weights miners ownerUid burn = .ok vector ∧
      ∑ uid, share miners ownerUid burn.value.val uid = totalScore miners * 10000 ∧
      (∀ uid, (submitted vector uid : ℤ) =
        round ((65535 * share miners ownerUid burn.value.val uid : ℚ) /
          maxShare miners ownerUid burn.value.val)) ∧
      (∀ uid uid', share miners ownerUid burn.value.val uid ≤
        share miners ownerUid burn.value.val uid' → submitted vector uid ≤ submitted vector uid') ∧
      |(∑ uid ∈ Finset.univ.erase ownerUid, submitted vector uid : ℚ) /
            ∑ uid, (submitted vector uid : ℚ) -
          (∑ uid ∈ Finset.univ.erase ownerUid, share miners ownerUid burn.value.val uid : ℚ) /
            (totalScore miners * 10000)| ≤
        ((miners.map (·.uid.val)).toFinset.erase ownerUid.val).card / 131070 := by
  obtain ⟨entries, hw, -, hentries, -⟩ := weights_spec (h.fits burn.le : Fits miners ownerUid _)
  have ha := hentries hpos
  have hmax : 0 < maxShare miners ownerUid burn.value.val := maxShare_pos h.uid burn.le hpos
  have hsub : ∀ uid, submitted entries.unzip uid =
      nearest 65535 (share miners ownerUid burn.value.val uid)
        (maxShare miners ownerUid burn.value.val) :=
    fun uid => (submitted_unzip entries uid).trans (ha.value uid)
  have hsum : ∑ uid, share miners ownerUid burn.value.val uid = totalScore miners * 10000 :=
    sum_share h.uid burn.le
  refine ⟨entries.unzip, hw, hsum, fun uid => ?_, fun uid uid' hle => ?_, ?_⟩
  · rw [hsub, nearest_eq_round hmax, Nat.cast_ofNat]
  · rw [hsub, hsub]
    exact nearest_mono hmax hmax (Nat.mul_le_mul_right _ hle)
  · -- the UIDs that hold a share besides the owner
    let parts : Finset U16 :=
      (Finset.univ.erase ownerUid).filter fun uid => 0 < scoreOf miners uid
    have hzero : ∀ uid, uid ≠ ownerUid → uid ∉ parts →
        share miners ownerUid burn.value.val uid = 0 := by
      intro uid ho hn
      have hs : ¬0 < scoreOf miners uid := fun hs =>
        hn (Finset.mem_filter.mpr ⟨Finset.mem_erase.mpr ⟨ho, Finset.mem_univ _⟩, hs⟩)
      rw [share, if_neg ho, Nat.add_zero, Nat.mul_eq_zero]
      exact .inl (by omega)
    have howner : ownerUid ∉ parts := fun hm =>
      Finset.ne_of_mem_erase (Finset.mem_filter.mp hm).1 rfl
    have hcard : parts.card ≤ ((miners.map (·.uid.val)).toFinset.erase ownerUid.val).card := by
      refine Finset.card_le_card_of_injOn Fin.val (fun uid hu => ?_) fun a _ b _ he => Fin.ext he
      obtain ⟨hu, hs⟩ := Finset.mem_filter.mp hu
      obtain ⟨m, hm, hmu, -⟩ := exists_of_scoreOf hs
      refine Finset.mem_coe.mpr (Finset.mem_erase.mpr ⟨fun he => ?_, ?_⟩)
      · exact Finset.ne_of_mem_erase hu (Fin.ext he)
      · exact List.mem_toFinset.mpr (List.mem_map.mpr ⟨m, hm, hmu⟩)
    have hbound := abs_sum_fraction_sub_le (show 0 < 65535 by decide) hmax
      (exists_maxShare miners ownerUid burn.value.val) hzero howner
    have hsumq : ∑ uid, (share miners ownerUid burn.value.val uid : ℚ) =
        totalScore miners * 10000 := by exact_mod_cast hsum
    simp only [hsub]
    rw [hsumq] at hbound
    have hscale : (2 * (65535 : ℕ) : ℚ) = 131070 := by norm_num
    refine hbound.trans ?_
    rw [hscale]
    gcongr

theorem weights_apportion_test : ∃ vector, weights testMiners 3 .none = .ok vector ∧
    ∑ uid, share testMiners 3 0 uid = 95535 * 10000 := by
  obtain ⟨vector, h, hsum, -⟩ := weights_apportion testMiners_scored (by decide) 3 .none
  exact ⟨vector, h, hsum⟩

/-! ## 7. Two burns -/

/-- Burning more, no other UID gains on the whole that `uid'` holds. -/
theorem share_cross {b₁ b₂ : ℕ} (hle : b₁ ≤ b₂) (hb : b₂ ≤ 10000) {uid : U16}
    (hu : uid ≠ ownerUid) (uid' : U16) :
    share miners ownerUid b₂ uid * share miners ownerUid b₁ uid' ≤
      share miners ownerUid b₁ uid * share miners ownerUid b₂ uid' := by
  obtain ⟨k, rfl⟩ : ∃ k, b₂ = b₁ + k := ⟨b₂ - b₁, by omega⟩
  obtain ⟨j, hj⟩ : ∃ j, 10000 - b₁ = j + k ∧ 10000 - (b₁ + k) = j :=
    ⟨10000 - (b₁ + k), by omega, rfl⟩
  simp only [share, if_neg hu, hj.1, hj.2, Nat.add_zero]
  split_ifs with ho
  · -- against the owner, who gains what is burned
    generalize scoreOf miners uid = x
    generalize scoreOf miners uid' = y
    generalize totalScore miners = t
    have : x * j * (t * b₁) ≤ x * (j + k) * (t * (b₁ + k)) :=
      Nat.mul_le_mul (Nat.mul_le_mul_left _ (by omega)) (Nat.mul_le_mul_left _ (by omega))
    calc x * j * (y * (j + k) + t * b₁) = x * (j + k) * (y * j) + x * j * (t * b₁) := by ring
      _ ≤ x * (j + k) * (y * j) + x * (j + k) * (t * (b₁ + k)) := Nat.add_le_add_left this _
      _ = x * (j + k) * (y * j + t * (b₁ + k)) := by ring
  · rw [Nat.add_zero, Nat.add_zero]
    refine le_of_eq ?_
    ring

/-- The same against the largest share. -/
theorem share_cross_max {b₁ b₂ : ℕ} {uid : U16}
    (h : ∀ uid', share miners ownerUid b₂ uid * share miners ownerUid b₁ uid' ≤
      share miners ownerUid b₁ uid * share miners ownerUid b₂ uid') :
    share miners ownerUid b₂ uid * maxShare miners ownerUid b₁ ≤
      share miners ownerUid b₁ uid * maxShare miners ownerUid b₂ := by
  obtain ⟨uid', hu⟩ := exists_maxShare miners ownerUid b₁
  rw [← hu]
  exact (h uid').trans (Nat.mul_le_mul_left _ (share_le_maxShare _))

/-- **Burning more never helps a miner**: no UID but the owner's weighs more, and the owner's does not
    weigh less. At a full burn the early return gives what the general computation gives. -/
theorem burn_monotone (h : Scored miners) (ownerUid : U16) {b₁ b₂ : BurnFraction}
    (hle : b₁.value ≤ b₂.value) :
    ∃ v₁ v₂, weights miners ownerUid b₁ = .ok v₁ ∧ weights miners ownerUid b₂ = .ok v₂ ∧
      (∀ uid, uid ≠ ownerUid → submitted v₂ uid ≤ submitted v₁ uid) ∧
      submitted v₁ ownerUid ≤ submitted v₂ ownerUid ∧
      (0 < totalScore miners →
        weights miners ownerUid .full = apportioned miners ownerUid .full) := by
  obtain ⟨e₁, hw₁, -, ha₁, hz₁⟩ := weights_spec (h.fits b₁.le : Fits miners ownerUid _)
  obtain ⟨e₂, hw₂, -, ha₂, hz₂⟩ := weights_spec (h.fits b₂.le : Fits miners ownerUid _)
  refine ⟨e₁.unzip, e₂.unzip, hw₁, hw₂, ?_⟩
  by_cases hpos : 0 < totalScore miners
  · have hmax₁ : 0 < maxShare miners ownerUid b₁.value.val := maxShare_pos h.uid b₁.le hpos
    have hmax₂ : 0 < maxShare miners ownerUid b₂.value.val := maxShare_pos h.uid b₂.le hpos
    simp only [submitted_unzip, (ha₁ hpos).value, (ha₂ hpos).value]
    refine ⟨fun uid hu => nearest_mono hmax₂ hmax₁ (share_cross_max (share_cross hle b₂.le hu)),
      nearest_mono hmax₁ hmax₂ (share_cross_max fun uid => ?_), fun _ => ?_⟩
    · -- the owner against the others, read the other way round
      by_cases hu : uid = ownerUid
      · rw [hu, Nat.mul_comm]
      · rw [Nat.mul_comm, Nat.mul_comm (share miners ownerUid b₂.value.val ownerUid)]
        exact share_cross hle b₂.le hu ownerUid
    · obtain ⟨ef, hf, -, haf, -⟩ :=
        weights_spec (h.fits BurnFraction.full.le : Fits miners ownerUid _)
      obtain ⟨total, ht, -, hsum⟩ := total_spec (lt_trans (totalScore_lt h) (by decide))
      obtain ⟨eg, hg, -, hag⟩ :=
        apportioned_spec h.uid (h.scaled BurnFraction.full.le) hpos ht hsum
      have haf' := haf hpos
      obtain rfl : ef = eg := haf'.ascending.ext hag.ascending haf'.pos hag.pos fun uid =>
        (haf'.value uid).trans (hag.value uid).symm
      rw [hf, hg]
  · have hz : totalScore miners = 0 := by omega
    rw [hz₁ hz, hz₂ hz]
    exact ⟨fun _ _ => le_refl _, le_refl _, fun hp => absurd hp hpos⟩

theorem burn_monotone_test : ∃ v₁ v₂, weights testMiners 3 .none = .ok v₁ ∧
    weights testMiners 3 .full = .ok v₂ ∧ submitted v₂ 1 ≤ submitted v₁ 1 := by
  obtain ⟨v₁, v₂, h₁, h₂, h, -⟩ :=
    burn_monotone testMiners_scored 3
      (show BurnFraction.none.value ≤ BurnFraction.full.value by decide)
  exact ⟨v₁, v₂, h₁, h₂, h 1 (by decide)⟩

end

end Sn46Validator.Validator
