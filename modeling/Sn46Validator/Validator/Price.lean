/-
  File:      Validator/Price.lean
  Subject:   THE PRICED BURN in exact numbers.

  * `minersAlpha`, `minersTao`, `minersValue`, `targetValue` -- the valuation over unbounded integers;
  * `minersTaoRaoChecked`, `burnForTargetChecked` -- the source in a build with overflow checks;
  * `valuation_exact` -- **no operation leaves its word**, and the result is the exact one;
  * `burn_largest` -- **the burn is the largest whole percent** that leaves the miners the target;
  * `burn_steady` -- **the burn follows the chain's numbers**, and near values are burned alike.
-/
import Mathlib.Data.Nat.Cast.Order.Field
import Sn46Validator.Library.Rounding
import Sn46Validator.Validator.Burn

namespace Sn46Validator.Validator

open Library

/-! ## 1. The valuation over unbounded integers -/

namespace EpochEconomics

/-- The miners' emission of an epoch in alpha rao. -/
def minersAlpha (e : EpochEconomics) : ℕ :=
  e.alphaOutEmission.val * e.tempo.val * (65535 - e.ownerCut.val) / 131070

/-- The same in TAO rao. -/
def minersTao (e : EpochEconomics) : ℕ := e.minersAlpha * e.subnetTao.val / e.subnetAlphaIn.val

end EpochEconomics

/-- The target in the unit of `miners_value`. -/
def targetValue (minerTargetUsdCents : U64) : ℕ := minerTargetUsdCents.val * 1000000000

/-! ## 2. The source with overflow checks -/

namespace EpochEconomics

/-- **`miners_tao_rao` with overflow checks**: `none` where an operation panics. -/
def minersTaoRaoChecked (e : EpochEconomics) : Option (Except BurnError U128) :=
  if e.subnetAlphaIn = 0 then
    some (refuse "Subnet pool holds no alpha; its price is undefined")
  else do
    let emission ← checkedMul e.alphaOutEmission.toU128 e.tempo.toU128
    let share ← checkedMul emission (← checkedSub u16Max e.ownerCut.toU128)
    let minersAlpha ← checkedDiv share (← checkedMul 2 u16Max)
    match checkedMul minersAlpha e.subnetTao.toU128 with
    | some value => return .ok (← checkedDiv value e.subnetAlphaIn.toU128)
    | none => return .error overflow

/-- **`burn_for_target` with overflow checks**; the fraction in basis points. -/
def burnForTargetChecked (e : EpochEconomics) (minerTargetUsdCents taoPriceUsdCents : U64) :
    Option (Except BurnError U128) := do
  match ← e.minersTaoRaoChecked with
  | .error error => return .error error
  | .ok minersTaoRao =>
    match checkedMul minersTaoRao taoPriceUsdCents.toU128 with
    | none => return .error overflow
    | some minersValue =>
      let targetValue ← checkedMul minerTargetUsdCents.toU128 raoPerTao
      if minersValue ≤ targetValue then return .ok 0
      else
        let keep ← U128.checkedDivCeil (← checkedMul bps targetValue) minersValue
        let burn ← checkedSub bps keep
        return .ok (← checkedSub burn (← checkedRem burn burnStepBps))

/-! ## 3. No operation leaves its word -/

variable (e : EpochEconomics)

/-- The three factors of the emission fit. -/
theorem emission_lt : e.alphaOutEmission.val * e.tempo.val < 2 ^ 80 ∧
    e.alphaOutEmission.val * e.tempo.val * (65535 - e.ownerCut.val) < 2 ^ 96 := by
  have ha := e.alphaOutEmission.isLt
  have ht := e.tempo.isLt
  have h₁ : e.alphaOutEmission.val * e.tempo.val < 2 ^ 64 * 2 ^ 16 := Nat.mul_lt_mul'' ha ht
  refine ⟨by omega, ?_⟩
  calc e.alphaOutEmission.val * e.tempo.val * (65535 - e.ownerCut.val)
      ≤ e.alphaOutEmission.val * e.tempo.val * 65535 := Nat.mul_le_mul_left _ (by omega)
    _ < 2 ^ 96 := by omega

/-- The miners' alpha as the source computes it. -/
theorem minersAlpha_word : ∃ a : U128, a.val = e.minersAlpha ∧
    e.alphaOutEmission.toU128 * e.tempo.toU128 * (u16Max - e.ownerCut.toU128) / (2 * u16Max) = a ∧
    ∃ emission share divisor cut : U128,
      checkedMul e.alphaOutEmission.toU128 e.tempo.toU128 = some emission ∧
      checkedSub u16Max e.ownerCut.toU128 = some cut ∧
      checkedMul emission cut = some share ∧ checkedMul 2 u16Max = some divisor ∧
      checkedDiv share divisor = some a := by
  obtain ⟨h₁, h₂⟩ := e.emission_lt
  have hc := e.ownerCut.isLt
  have hcut : e.ownerCut.toU128 ≤ u16Max := by
    show e.ownerCut.val ≤ 65535
    omega
  have hemission : (e.alphaOutEmission.toU128 * e.tempo.toU128).val =
      e.alphaOutEmission.val * e.tempo.val :=
    mul_val_of_lt (show e.alphaOutEmission.val * e.tempo.val < 2 ^ 128 by omega)
  have hsub : (u16Max - e.ownerCut.toU128).val = 65535 - e.ownerCut.val := Fin.sub_val_of_le hcut
  have hshare : (e.alphaOutEmission.toU128 * e.tempo.toU128 *
      (u16Max - e.ownerCut.toU128)).val =
      e.alphaOutEmission.val * e.tempo.val * (65535 - e.ownerCut.val) := by
    rw [mul_val_of_lt (by rw [hemission, hsub]; omega), hemission, hsub]
  have hdiv : (e.alphaOutEmission.toU128 * e.tempo.toU128 * (u16Max - e.ownerCut.toU128) /
      (2 * u16Max)).val = e.minersAlpha := by
    rw [Fin.div_val, hshare]
    rfl
  refine ⟨_, hdiv, rfl, _, _, _, _, checkedMul_of hemission, checkedSub_of hcut hsub,
    checkedMul_of ?_, checkedMul_of (z := 2 * u16Max) rfl, checkedDiv_of (by decide) (Fin.div_val ..)⟩
  rw [hshare, hemission, hsub]

/-- **`miners_tao_rao`, exactly**; and the checked build does the same. -/
theorem minersTaoRao_cases :
    e.minersTaoRaoChecked = some e.minersTaoRao ∧
    ((e.subnetAlphaIn.val = 0 ∨ 2 ^ 128 ≤ e.minersAlpha * e.subnetTao.val) ∧
        (∃ error, e.minersTaoRao = .error error) ∨
      (e.subnetAlphaIn.val ≠ 0 ∧ e.minersAlpha * e.subnetTao.val < 2 ^ 128) ∧
        ∃ v, e.minersTaoRao = .ok v ∧ v.val = e.minersTao) := by
  unfold minersTaoRaoChecked minersTaoRao
  by_cases hz : e.subnetAlphaIn = 0
  · rw [if_pos hz, if_pos hz]
    exact ⟨rfl, .inl ⟨.inl (congrArg Fin.val hz), _, rfl⟩⟩
  · rw [if_neg hz, if_neg hz]
    have hne : e.subnetAlphaIn.val ≠ 0 := fun h => hz (Fin.ext h)
    obtain ⟨a, ha, haw, emission, share, divisor, cut, h₁, h₂, h₃, h₄, h₅⟩ := e.minersAlpha_word
    simp only [haw, h₁, h₂, h₃, h₄, h₅, bind, Option.bind, pure]
    by_cases hlt : e.minersAlpha * e.subnetTao.val < 2 ^ 128
    · have hmul : checkedMul a e.subnetTao.toU128 = some ⟨e.minersAlpha * e.subnetTao.val, hlt⟩ :=
        checkedMul_of (by rw [ha]; rfl)
      have hdiv : checkedDiv ⟨e.minersAlpha * e.subnetTao.val, hlt⟩ e.subnetAlphaIn.toU128 =
          some ((⟨e.minersAlpha * e.subnetTao.val, hlt⟩ : U128) / e.subnetAlphaIn.toU128) :=
        checkedDiv_of hne (Fin.div_val ..)
      rw [hmul]
      dsimp only
      rw [hdiv]
      exact ⟨rfl, .inr ⟨⟨hne, hlt⟩, _, rfl, Fin.div_val ..⟩⟩
    · have hmul : checkedMul a e.subnetTao.toU128 = none :=
        checkedMul_none (by rw [ha]; exact Nat.le_of_not_lt hlt)
      rw [hmul]
      exact ⟨rfl, .inl ⟨.inr (Nat.le_of_not_lt hlt), _, rfl⟩⟩

/-- The ceiling of the source is the ceiling, where it is below the largest word. -/
theorem divCeil_word {x v : U128} (hv : v.val ≠ 0) (hx : x.val + 1 < 2 ^ 128) :
    (U128.divCeil x v).val = x.val ⌈/⌉ v.val ∧
      U128.checkedDivCeil x v = some (U128.divCeil x v) := by
  have hdiv : checkedDiv x v = some (x / v) := checkedDiv_of hv (Fin.div_val ..)
  have hrem : checkedRem x v = some (x % v) := checkedRem_of hv (Fin.val_mod ..)
  have hq : (x / v).val ≤ x.val := by
    rw [Fin.div_val]
    exact Nat.div_le_self _ _
  have hone : (1 : U128).val = 1 := rfl
  have hlt : (x / v).val + (1 : U128).val < 2 ^ 128 := by
    rw [hone]
    exact Nat.lt_of_le_of_lt (Nat.add_le_add_right hq 1) hx
  rw [ceilDiv_eq (Nat.pos_of_ne_zero hv), U128.checkedDivCeil, hdiv, hrem]
  simp only [bind, Option.bind, pure]
  by_cases hz : x % v = 0
  · have hzv : x.val % v.val = 0 := by
      rw [← Fin.val_mod, hz]
      rfl
    have hpos : ¬x % v > 0 := by
      rw [hz]
      exact Fin.lt_irrefl _
    rw [U128.divCeil, if_pos hz, if_pos hzv, if_neg hpos, Fin.div_val]
    exact ⟨rfl, rfl⟩
  · have hzv : x.val % v.val ≠ 0 := fun h0 => hz (Fin.ext (by rw [Fin.val_mod]; exact h0))
    have hpos : x % v > 0 := by
      rw [gt_iff_lt, Fin.lt_def, Fin.val_mod]
      exact Nat.pos_of_ne_zero hzv
    have hadd : checkedAdd (x / v) 1 = some (x / v + 1) := checkedAdd_of (add_val_of_lt hlt)
    rw [U128.divCeil, if_neg hz, if_neg hzv, if_pos hpos, hadd, add_val_of_lt hlt, Fin.div_val, hone]
    exact ⟨rfl, rfl⟩

/-- The burn of a value above the target, as the source computes it. -/
theorem cut_word {target : U64} {v : U128} (h : ¬v ≤ target.toU128 * raoPerTao) :
    ∃ keep burn rest cut : U128,
      checkedMul bps (target.toU128 * raoPerTao) = some (bps * (target.toU128 * raoPerTao)) ∧
      U128.checkedDivCeil (bps * (target.toU128 * raoPerTao)) v = some keep ∧
      checkedSub bps keep = some burn ∧ checkedRem burn burnStepBps = some rest ∧
      checkedSub burn rest = some cut ∧
      cut = bps - U128.divCeil (bps * (target.toU128 * raoPerTao)) v -
        (bps - U128.divCeil (bps * (target.toU128 * raoPerTao)) v) % burnStepBps ∧
      cut.val = largestCut 10000 100 v.val (targetValue target) := by
  obtain ⟨h₁, h₂⟩ := target_val target
  have hkeep := keep_le h
  have hlt : targetValue target < v.val := by
    rw [Fin.le_def, h₁] at h
    exact Nat.lt_of_not_le h
  have ht := target.isLt
  obtain ⟨hceil, hchecked⟩ := divCeil_word (x := bps * (target.toU128 * raoPerTao)) (v := v)
    (by omega) (by rw [h₂]; omega)
  rw [h₂] at hceil
  generalize U128.divCeil (bps * (target.toU128 * raoPerTao)) v = keep at *
  have hburn : (bps - keep).val = 10000 - keep.val := Fin.sub_val_of_le (a := bps) hkeep
  have hrem : ((bps - keep) % burnStepBps).val = (10000 - keep.val) % 100 := by
    rw [Fin.val_mod, hburn]
    rfl
  have hle : (bps - keep) % burnStepBps ≤ bps - keep := by
    rw [Fin.le_def, hrem, hburn]
    exact Nat.mod_le _ _
  have hcut : (bps - keep - (bps - keep) % burnStepBps).val =
      10000 - keep.val - (10000 - keep.val) % 100 := by
    rw [Fin.sub_val_of_le hle, hrem, hburn]
  refine ⟨keep, bps - keep, _, _, checkedMul_of ?_, hchecked, checkedSub_of hkeep hburn,
    checkedRem_of (by decide) (Fin.val_mod ..), checkedSub_of hle (Fin.sub_val_of_le hle), rfl, ?_⟩
  · rw [h₂, h₁]
    rfl
  · rw [hcut, largestCut_of_lt hlt, hceil]
    rfl

/-- The value of the miners' emission in the unit of the target. -/
def minersValue (price : U64) : ℕ := e.minersTao * price.val

/-- **`burn_for_target`, exactly**; and the checked build does the same. -/
theorem burnForTarget_cases (target price : U64) :
    e.burnForTargetChecked target price = some ((e.burnForTarget target price).map (·.value)) ∧
    ((e.subnetAlphaIn.val = 0 ∨ 2 ^ 128 ≤ e.minersAlpha * e.subnetTao.val ∨
          2 ^ 128 ≤ e.minersValue price) ∧
        (∃ error, e.burnForTarget target price = .error error) ∨
      (e.subnetAlphaIn.val ≠ 0 ∧ e.minersAlpha * e.subnetTao.val < 2 ^ 128 ∧
          e.minersValue price < 2 ^ 128) ∧
        ∃ b, e.burnForTarget target price = .ok b ∧
          b.value.val = largestCut 10000 100 (e.minersValue price) (targetValue target)) := by
  obtain ⟨hc, ⟨hbad, error, he⟩ | ⟨⟨hne, hlt⟩, v, hv, hval⟩⟩ := e.minersTaoRao_cases
  · have hcv : e.minersTaoRaoChecked = some (.error error) := hc.trans (congrArg some he)
    have hb : e.burnForTarget target price = .error error := by
      rw [burnForTarget, he]
      rfl
    refine ⟨?_, .inl ⟨?_, error, hb⟩⟩
    · rw [burnForTargetChecked, hcv, hb]
      rfl
    rcases hbad with hz | hbig
    · exact .inl hz
    · exact .inr (.inl hbig)
  · have hcv : e.minersTaoRaoChecked = some (.ok v) := hc.trans (congrArg some hv)
    by_cases hbig : 2 ^ 128 ≤ e.minersValue price
    · have hmul : checkedMul v price.toU128 = none := checkedMul_none (by rw [hval]; exact hbig)
      have he : e.burnForTarget target price = .error overflow := by
        simp only [burnForTarget, hv, hmul, bind, Except.bind]
        rfl
      refine ⟨?_, .inl ⟨.inr (.inr hbig), _, he⟩⟩
      rw [he, burnForTargetChecked, hcv, Option.bind_eq_bind, Option.bind_some]
      dsimp only
      rw [hmul]
      rfl
    · have hfits : e.minersValue price < 2 ^ 128 := Nat.lt_of_not_le hbig
      have hmul : checkedMul v price.toU128 = some ⟨e.minersValue price, hfits⟩ :=
        checkedMul_of (by rw [hval]; rfl)
      have htarget : checkedMul target.toU128 raoPerTao = some (target.toU128 * raoPerTao) :=
        checkedMul_of (target_val target).1
      by_cases hle : (⟨e.minersValue price, hfits⟩ : U128) ≤ target.toU128 * raoPerTao
      · have hb : e.burnForTarget target price = .ok .none := by
          simp only [burnForTarget, hv, hmul, bind, Except.bind, dif_pos hle]
          rfl
        refine ⟨?_, .inr ⟨⟨hne, hlt, hfits⟩, _, hb, ?_⟩⟩
        · rw [hb, burnForTargetChecked, hcv, Option.bind_eq_bind, Option.bind_some]
          dsimp only
          rw [hmul]
          dsimp only
          rw [htarget, Option.bind_eq_bind, Option.bind_some, if_pos hle]
          rfl
        · rw [Fin.le_def, (target_val target).1] at hle
          have hcut : largestCut 10000 100 (e.minersValue price) (targetValue target) = 0 :=
            largestCut_of_le hle
          rw [hcut]
          rfl
      · obtain ⟨keep, burn, rest, cut, h₁, h₂, h₃, h₄, h₅, h₆, h₇⟩ := cut_word hle
        have hb : e.burnForTarget target price =
            .ok ⟨_, rounded_le (keep_le hle)⟩ := by
          simp only [burnForTarget, hv, hmul, bind, Except.bind, dif_neg hle]
          rfl
        refine ⟨?_, .inr ⟨⟨hne, hlt, hfits⟩, _, hb, ?_⟩⟩
        · rw [hb, burnForTargetChecked, hcv, Option.bind_eq_bind, Option.bind_some]
          dsimp only
          rw [hmul]
          dsimp only
          rw [htarget, Option.bind_eq_bind, Option.bind_some, if_neg hle, h₁, Option.bind_some, h₂,
            Option.bind_some, h₃, Option.bind_some, h₄, Option.bind_some, h₅, Option.bind_some]
          exact congrArg (fun c => some (Except.ok c)) h₆
        · rw [← h₇, h₆]

/-- A burn that is priced is priced exactly. -/
theorem burnForTarget_ok {target price : U64} {b : BurnFraction}
    (h : e.burnForTarget target price = .ok b) :
    (∃ v, e.minersTaoRao = .ok v ∧ v.val = e.minersTao) ∧
      b.value.val = largestCut 10000 100 (e.minersValue price) (targetValue target) := by
  obtain ⟨-, ⟨-, error, he⟩ | ⟨⟨hne, hlt, -⟩, b', hb, hval⟩⟩ := e.burnForTarget_cases target price
  · rw [h] at he
    cases he
  · rw [h] at hb
    cases hb
    obtain ⟨-, ⟨hbad, -⟩ | ⟨-, hv⟩⟩ := e.minersTaoRao_cases
    · rcases hbad with hz | hbig
      · exact absurd hz hne
      · exact absurd hlt (Nat.not_lt.mpr hbig)
    · exact ⟨hv, hval⟩

/-- A valuation that does not fail has a pool to price by. -/
theorem alphaIn_ne_zero {target price : U64} {b : BurnFraction}
    (h : e.burnForTarget target price = .ok b) : e.subnetAlphaIn.val ≠ 0 := by
  obtain ⟨-, ⟨-, error, he⟩ | ⟨⟨hne, -, -⟩, -⟩⟩ := e.burnForTarget_cases target price
  · rw [h] at he
    cases he
  · exact hne

end EpochEconomics

open EpochEconomics

/-- **The valuation never wraps.** `miners_tao_rao` and `burn_for_target` fail exactly where the
    source checks and the pool is empty or a product does not fit; in every case a build with
    overflow checks computes the same, so no operation leaves its word; and what they give is the
    value over unbounded integers. -/
theorem valuation_exact (e : EpochEconomics) (target price : U64) :
    ((∃ error, e.minersTaoRao = .error error) ↔
      e.subnetAlphaIn.val = 0 ∨ 2 ^ 128 ≤ e.minersAlpha * e.subnetTao.val) ∧
    ((∃ error, e.burnForTarget target price = .error error) ↔
      e.subnetAlphaIn.val = 0 ∨ 2 ^ 128 ≤ e.minersAlpha * e.subnetTao.val ∨
        2 ^ 128 ≤ e.minersTao * price.val) ∧
    e.minersTaoRaoChecked = some e.minersTaoRao ∧
    e.burnForTargetChecked target price = some ((e.burnForTarget target price).map (·.value)) ∧
    (∀ v, e.minersTaoRao = .ok v → v.val = e.minersTao) ∧
    ∀ b, e.burnForTarget target price = .ok b →
      b.value.val = largestCut 10000 100 (e.minersTao * price.val) (targetValue target) := by
  obtain ⟨hc, hcases⟩ := e.minersTaoRao_cases
  obtain ⟨hbc, hbcases⟩ := e.burnForTarget_cases target price
  refine ⟨⟨fun ⟨error, he⟩ => ?_, fun hbad => ?_⟩, ⟨fun ⟨error, he⟩ => ?_, fun hbad => ?_⟩, hc, hbc,
    fun v hv => ?_, fun b hb => (e.burnForTarget_ok hb).2⟩
  · rcases hcases with ⟨hbad, -⟩ | ⟨-, v, hv, -⟩
    · exact hbad
    · rw [he] at hv
      cases hv
  · rcases hcases with ⟨-, he⟩ | ⟨⟨hne, hlt⟩, -⟩
    · exact he
    · rcases hbad with hz | hbig
      · exact absurd hz hne
      · exact absurd hlt (Nat.not_lt.mpr hbig)
  · rcases hbcases with ⟨hbad, -⟩ | ⟨-, b, hb, -⟩
    · exact hbad
    · rw [he] at hb
      cases hb
  · rcases hbcases with ⟨-, he⟩ | ⟨⟨hne, hlt, hfits⟩, -⟩
    · exact he
    · rcases hbad with hz | hbig | hbig
      · exact absurd hz hne
      · exact absurd hlt (Nat.not_lt.mpr hbig)
      · exact absurd hfits (Nat.not_lt.mpr hbig)
  · rcases hcases with ⟨-, error, he⟩ | ⟨-, v', hv', hval⟩
    · rw [hv] at he
      cases he
    · rw [hv] at hv'
      cases hv'
      exact hval

/-- The subnet of the repository's tests. -/
def testEconomics : EpochEconomics where
  alphaOutEmission := 1000000000
  tempo := 360
  ownerCut := 11796
  subnetTao := 8515450000000
  subnetAlphaIn := 2378997012605306

theorem testEconomics_burn : testEconomics.burnForTarget 10000 30160 = .ok ⟨3700, by decide⟩ := by
  decide +kernel

theorem testEconomics_value : testEconomics.minersTaoRao = .ok 528326614 := by decide +kernel

theorem valuation_exact_test :
    ((⟨3700, by decide⟩ : BurnFraction).value.val =
      largestCut 10000 100 (testEconomics.minersTao * (30160 : U64).val) (targetValue 10000)) :=
  (valuation_exact testEconomics 10000 30160).2.2.2.2.2 _ testEconomics_burn

/-! ## 4. The largest whole percent -/

/-- The valuation rounds down. -/
theorem minersTao_le (e : EpochEconomics) (hne : e.subnetAlphaIn.val ≠ 0) : (e.minersTao : ℚ) ≤
    e.alphaOutEmission.val * e.tempo.val * (65535 - e.ownerCut.val) * e.subnetTao.val /
      (131070 * e.subnetAlphaIn.val) := by
  have hin : (0 : ℚ) < e.subnetAlphaIn.val := by exact_mod_cast Nat.pos_of_ne_zero hne
  have hcut : ((65535 - e.ownerCut.val : ℕ) : ℚ) = 65535 - e.ownerCut.val := by
    have := e.ownerCut.isLt
    rw [Nat.cast_sub (by omega)]
    norm_num
  have halpha : (e.minersAlpha : ℚ) ≤
      e.alphaOutEmission.val * e.tempo.val * (65535 - e.ownerCut.val) / 131070 := by
    rw [← hcut]
    exact_mod_cast Nat.cast_div_le (α := ℚ) (m := e.alphaOutEmission.val * e.tempo.val *
      (65535 - e.ownerCut.val)) (n := 131070)
  calc (e.minersTao : ℚ)
      ≤ e.minersAlpha * e.subnetTao.val / e.subnetAlphaIn.val := by
        exact_mod_cast Nat.cast_div_le (α := ℚ) (m := e.minersAlpha * e.subnetTao.val)
          (n := e.subnetAlphaIn.val)
    _ ≤ e.alphaOutEmission.val * e.tempo.val * (65535 - e.ownerCut.val) / 131070 *
          e.subnetTao.val / e.subnetAlphaIn.val := by gcongr
    _ = _ := by field_simp

/-- **The burn is the largest whole percent that keeps the target.** With `V` the miners' value and
    `T` the target: it is a whole percent; nothing where `V ≤ T`; else it leaves at least the target
    and no larger whole percent does. Valued exactly, too, the miners keep at least the target. -/
theorem burn_largest {e : EpochEconomics} {target price : U64} {b : BurnFraction}
    (h : e.burnForTarget target price = .ok b) :
    100 ∣ b.value.val ∧ b.value.val ≤ 10000 ∧
    (∃ v, e.minersTaoRao = .ok v ∧
      (v.val * price.val ≤ target.val * 10 ^ 9 → b.value.val = 0) ∧
      (target.val * 10 ^ 9 < v.val * price.val →
        10000 * (target.val * 10 ^ 9) ≤ v.val * price.val * (10000 - b.value.val) ∧
        ∀ c, 100 ∣ c → b.value.val < c → c ≤ 10000 →
          v.val * price.val * (10000 - c) < 10000 * (target.val * 10 ^ 9))) ∧
    (0 < b.value.val → (10000 * (target.val * 10 ^ 9) : ℚ) ≤
      e.alphaOutEmission.val * e.tempo.val * (65535 - e.ownerCut.val) * e.subnetTao.val * price.val /
        (131070 * e.subnetAlphaIn.val) * (10000 - b.value.val)) := by
  obtain ⟨⟨v, hv, hval⟩, hb⟩ := e.burnForTarget_ok h
  have hT : targetValue target = target.val * 10 ^ 9 := rfl
  have hV : e.minersValue price = v.val * price.val := by rw [hval, minersValue]
  rw [hT, hV] at hb
  have hle : b.value.val ≤ 10000 := by
    rw [hb]
    exact largestCut_le
  refine ⟨?_, hle, ⟨v, hv, fun hle => ?_, fun hlt => ?_⟩, fun hpos => ?_⟩
  · rw [hb]
    exact largestCut_dvd
  · rw [hb, largestCut_of_le hle]
  · have hgreatest : IsGreatest {c | Leaves 10000 100 _ _ c} _ := largestCut_isGreatest hlt
    rw [← hb] at hgreatest
    refine ⟨hgreatest.1.2.2, fun c hd hbc hc => ?_⟩
    by_contra hcon
    exact absurd (hgreatest.2 ⟨hd, hc, Nat.le_of_not_lt hcon⟩) (Nat.not_le.mpr hbc)
  · have hlt : target.val * 10 ^ 9 < v.val * price.val := by
      by_contra hcon
      rw [largestCut_of_le (Nat.le_of_not_lt hcon)] at hb
      omega
    have hgreatest : IsGreatest {c | Leaves 10000 100 _ _ c} _ := largestCut_isGreatest hlt
    rw [← hb] at hgreatest
    have hkept := hgreatest.1.2.2
    have hkept' : (10000 * (target.val * 10 ^ 9) : ℚ) ≤
        v.val * price.val * (10000 - b.value.val) := by
      have hsub : ((10000 - b.value.val : ℕ) : ℚ) = 10000 - b.value.val := by
        rw [Nat.cast_sub hle]
        norm_num
      rw [← hsub]
      exact_mod_cast hkept
    have hvalue : (v.val * price.val : ℚ) ≤ e.alphaOutEmission.val * e.tempo.val *
        (65535 - e.ownerCut.val) * e.subnetTao.val * price.val / (131070 * e.subnetAlphaIn.val) := by
      rw [hval, mul_div_right_comm]
      exact mul_le_mul_of_nonneg_right (minersTao_le e (e.alphaIn_ne_zero h)) (Nat.cast_nonneg _)
    have hrest : (0 : ℚ) ≤ 10000 - b.value.val := by
      have : (b.value.val : ℚ) ≤ 10000 := by exact_mod_cast hle
      linarith
    exact hkept'.trans (mul_le_mul_of_nonneg_right hvalue hrest)

theorem burn_largest_test : 100 ∣ (⟨3700, by decide⟩ : BurnFraction).value.val :=
  (burn_largest testEconomics_burn).1

/-! ## 5. Two valuations -/

/-- The valuation follows the chain's numbers. -/
theorem minersTao_mono {e e' : EpochEconomics} (hne : e'.subnetAlphaIn.val ≠ 0)
    (hemission : e.alphaOutEmission ≤ e'.alphaOutEmission) (htempo : e.tempo ≤ e'.tempo)
    (htao : e.subnetTao ≤ e'.subnetTao) (hcut : e'.ownerCut ≤ e.ownerCut)
    (hin : e'.subnetAlphaIn ≤ e.subnetAlphaIn) : e.minersTao ≤ e'.minersTao := by
  have hcut' : 65535 - e.ownerCut.val ≤ 65535 - e'.ownerCut.val := Nat.sub_le_sub_left hcut _
  have halpha : e.minersAlpha ≤ e'.minersAlpha :=
    Nat.div_le_div_right (Nat.mul_le_mul (Nat.mul_le_mul hemission htempo) hcut')
  exact Nat.div_le_div (Nat.mul_le_mul halpha htao) hin hne

/-- **The burn follows the chain's numbers**: it does not fall as the emission, the tempo, the pool's
    TAO or the price grow, nor as the owner's cut, the pool's alpha or the target shrink. And values
    at most one part in a hundred apart are burned at most one percent apart. -/
theorem burn_steady {e e' : EpochEconomics} {target target' price price' : U64}
    {b b' : BurnFraction} (h : e.burnForTarget target price = .ok b)
    (h' : e'.burnForTarget target' price' = .ok b') :
    (e.alphaOutEmission ≤ e'.alphaOutEmission → e.tempo ≤ e'.tempo → e.subnetTao ≤ e'.subnetTao →
      price ≤ price' → e'.ownerCut ≤ e.ownerCut → e'.subnetAlphaIn ≤ e.subnetAlphaIn →
      target' ≤ target → b.value ≤ b'.value) ∧
    ∀ v v', e.minersTaoRao = .ok v → e'.minersTaoRao = .ok v' → target = target' →
      v.val * price.val ≤ v'.val * price'.val →
      100 * (v'.val * price'.val) ≤ 101 * (v.val * price.val) →
      b.value ≤ b'.value ∧ b'.value.val - b.value.val ≤ 100 := by
  obtain ⟨⟨v, hv, hval⟩, hb⟩ := e.burnForTarget_ok h
  obtain ⟨⟨v', hv', hval'⟩, hb'⟩ := e'.burnForTarget_ok h'
  refine ⟨fun hemission htempo htao hprice hcut hin htarget => ?_, ?_⟩
  · rw [Fin.le_def, hb, hb']
    refine largestCut_mono (Nat.mul_le_mul ?_ hprice) (Nat.mul_le_mul_right _ htarget)
    exact minersTao_mono (e'.alphaIn_ne_zero h') hemission htempo htao hcut hin
  · intro w w' hw hw' he hle hnear
    subst he
    rw [hv] at hw
    rw [hv'] at hw'
    cases hw
    cases hw'
    rw [hval, hval'] at hle hnear
    rw [Fin.le_def, hb, hb']
    refine ⟨largestCut_mono hle le_rfl, ?_⟩
    have hnear' : e'.minersValue price' * (10000 - 100) ≤ e.minersValue price * 10000 := by
      rw [minersValue, minersValue]
      omega
    have hstep : largestCut 10000 100 _ (targetValue target) ≤
        largestCut 10000 100 _ (targetValue target) + 100 := largestCut_near (by decide) hnear'
    omega

theorem testEconomics_burn₁ : testEconomics.burnForTarget 10000 30300 = .ok ⟨3700, by decide⟩ := by
  decide +kernel

theorem testEconomics_burn₂ : testEconomics.burnForTarget 10000 30530 = .ok ⟨3800, by decide⟩ := by
  decide +kernel

theorem burn_steady_test : (3700 : U128) ≤ 3800 ∧ (3700 : U128) ≤ 3800 ∧
    (3800 : U128).val - (3700 : U128).val ≤ 100 := by
  have h := burn_steady testEconomics_burn₁ testEconomics_burn₂
  refine ⟨h.1 ?_ ?_ ?_ ?_ ?_ ?_ ?_, h.2 _ _ testEconomics_value testEconomics_value rfl ?_ ?_⟩
  all_goals decide

end Sn46Validator.Validator
