/-
  File:      Library/Rounding.lean
  Subject:   ROUNDING over the natural numbers, where it must not favour the wrong side.

  * `largestCut` -- the largest multiple of a step that can be cut off a whole so that the rest of a
    value is still worth a target; `largestCut_isGreatest` says so, `largestCut_mono` and
    `largestCut_near` compare two values;
  * `nearest` -- the integer nearest to a scaled ratio, ties up; `nearest_eq_round`, and with it
    `nearest_mono` and `abs_nearest_sub_le`;
  * `abs_sum_fraction_sub_le` -- what rounding does to the fraction that all parts but one hold.
-/
import Mathlib.Algebra.BigOperators.Field
import Mathlib.Algebra.Order.BigOperators.Ring.Finset
import Mathlib.Algebra.Order.Floor.Div
import Mathlib.Algebra.Order.Round
import Mathlib.Data.Rat.Floor
import Mathlib.Tactic.FieldSimp
import Mathlib.Tactic.Linarith
import Mathlib.Tactic.Positivity
import Mathlib.Tactic.Ring

namespace Library

/-- The quotient rounded up, by quotient and remainder. -/
theorem ceilDiv_eq {x y : ℕ} (hy : 0 < y) : x ⌈/⌉ y = x / y + if x % y = 0 then 0 else 1 := by
  have hdiv := Nat.div_add_mod x y
  have hmod := Nat.mod_lt x hy
  refine le_antisymm ((ceilDiv_le_iff_le_mul hy).mpr ?_) ?_
  · rw [Nat.mul_add]
    split_ifs <;> omega
  · have hle : x ≤ y * (x ⌈/⌉ y) := (ceilDiv_le_iff_le_mul hy).mp le_rfl
    split_ifs with hz
    · exact Nat.div_le_of_le_mul hle
    · rw [Nat.add_one_le_iff, Nat.div_lt_iff_lt_mul hy, Nat.mul_comm]
      refine lt_of_le_of_ne hle fun he => hz ?_
      rw [he]
      exact Nat.mul_mod_right _ _

/-! ## 1. The largest cut -/

/-- **The largest cut**: how much of `whole` can be cut off `value`, in multiples of `step`, so that
    what is left of it is worth `target`; nothing where `value` is worth no more. -/
def largestCut (whole step value target : ℕ) : ℕ :=
  if value ≤ target then 0
  else whole - whole * target ⌈/⌉ value - (whole - whole * target ⌈/⌉ value) % step

/-- The cuts that leave enough. -/
def Leaves (whole step value target cut : ℕ) : Prop :=
  step ∣ cut ∧ cut ≤ whole ∧ whole * target ≤ value * (whole - cut)

section

variable {whole step value value' target target' cut : ℕ}

theorem largestCut_of_le (h : value ≤ target) : largestCut whole step value target = 0 := if_pos h

theorem largestCut_of_lt (h : target < value) : largestCut whole step value target =
    whole - whole * target ⌈/⌉ value - (whole - whole * target ⌈/⌉ value) % step :=
  if_neg (by omega)

/-- What has to be kept of a value worth more than the target is at most all of it. -/
theorem keep_le_whole (h : target < value) : whole * target ⌈/⌉ value ≤ whole := by
  rw [ceilDiv_le_iff_le_mul (by omega), Nat.mul_comm value]
  exact Nat.mul_le_mul_left _ (by omega)

theorem largestCut_dvd : step ∣ largestCut whole step value target := by
  by_cases h : value ≤ target
  · rw [largestCut_of_le h]
    exact dvd_zero _
  · rw [largestCut_of_lt (by omega)]
    exact Nat.dvd_sub_mod _

theorem largestCut_le : largestCut whole step value target ≤ whole := by
  by_cases h : value ≤ target
  · rw [largestCut_of_le h]
    exact Nat.zero_le _
  · rw [largestCut_of_lt (by omega)]
    omega

/-- A cut leaves enough when it spares what has to be kept. -/
theorem leaves_iff (h : target < value) : Leaves whole step value target cut ↔
    step ∣ cut ∧ cut ≤ whole - whole * target ⌈/⌉ value := by
  have hk : whole * target ⌈/⌉ value ≤ whole := keep_le_whole h
  have hiff : ∀ c, whole * target ⌈/⌉ value ≤ c ↔ whole * target ≤ value * c :=
    fun c => ceilDiv_le_iff_le_mul (by omega)
  rw [Leaves, ← hiff]
  constructor
  · intro hx
    obtain ⟨hd, hc, hl⟩ := hx
    exact ⟨hd, by omega⟩
  · intro hx
    obtain ⟨hd, hc⟩ := hx
    exact ⟨hd, by omega, by omega⟩

/-- **It is the largest one.** -/
theorem largestCut_isGreatest (h : target < value) :
    IsGreatest {c | Leaves whole step value target c} (largestCut whole step value target) := by
  constructor
  · rw [Set.mem_ofPred_eq, leaves_iff h]
    refine ⟨largestCut_dvd, ?_⟩
    rw [largestCut_of_lt h]
    omega
  · intro c hc
    obtain ⟨hd, hle⟩ := (leaves_iff h).mp hc
    rw [largestCut_of_lt h]
    obtain ⟨k, rfl⟩ := hd
    -- a multiple of the step below a number is below that number rounded down
    have hdiv := Nat.div_add_mod (whole - whole * target ⌈/⌉ value) step
    by_cases hs : step = 0
    · simp [hs]
    · have hk : k ≤ (whole - whole * target ⌈/⌉ value) / step := by
        rw [Nat.le_div_iff_mul_le (by omega), Nat.mul_comm]
        exact hle
      have := Nat.mul_le_mul_left step hk
      omega

/-- **A higher value or a lower target never cuts less.** -/
theorem largestCut_mono (hv : value ≤ value') (ht : target' ≤ target) :
    largestCut whole step value target ≤ largestCut whole step value' target' := by
  by_cases h : value ≤ target
  · rw [largestCut_of_le h]
    exact Nat.zero_le _
  · have hgreatest : IsGreatest {c | Leaves whole step value target c} _ :=
      largestCut_isGreatest (Nat.lt_of_not_le h)
    obtain ⟨hd, hc, hl⟩ := hgreatest.1
    refine (largestCut_isGreatest (by omega)).2 ⟨hd, hc, ?_⟩
    calc whole * target' ≤ whole * target := Nat.mul_le_mul_left _ ht
      _ ≤ value * (whole - largestCut whole step value target) := hl
      _ ≤ value' * (whole - largestCut whole step value target) := Nat.mul_le_mul_right _ hv

/-- **Values less than a step apart are cut at most a step apart.** -/
theorem largestCut_near (hstep : step ≤ whole) (hnear : value' * (whole - step) ≤ value * whole) :
    largestCut whole step value' target ≤ largestCut whole step value target + step := by
  by_cases h' : value' ≤ target
  · rw [largestCut_of_le h']
    exact Nat.zero_le _
  have hgreatest : IsGreatest {c | Leaves whole step value' target c} _ :=
    largestCut_isGreatest (Nat.lt_of_not_le h')
  obtain ⟨hd, hc, hl⟩ := hgreatest.1
  clear hgreatest
  generalize largestCut whole step value' target = cut at hd hc hl
  by_cases hs : cut ≤ step
  · omega
  obtain ⟨rest, rfl⟩ : ∃ rest, cut = step + rest := ⟨cut - step, by omega⟩
  -- one step less is a cut of the lower value
  have hlow : whole * target ≤ value * (whole - rest) := by
    have hw : value' * (whole - (step + rest)) + value' * rest = value' * (whole - step) := by
      rw [← Nat.mul_add]
      congr 1
      omega
    have hv : value * (whole - rest) + value * rest = value * whole := by
      rw [← Nat.mul_add]
      congr 1
      omega
    by_cases hle : value ≤ value'
    · have := Nat.mul_le_mul_right rest hle
      omega
    · calc whole * target ≤ value' * (whole - (step + rest)) := hl
        _ ≤ value * (whole - rest) := Nat.mul_le_mul (by omega) (by omega)
  by_cases h : value ≤ target
  · -- then nothing is left to cut off: all of the lower value is needed
    exfalso
    have h₁ : value * whole ≤ value * (whole - rest) := by
      calc value * whole ≤ target * whole := Nat.mul_le_mul_right _ h
        _ = whole * target := Nat.mul_comm _ _
        _ ≤ value * (whole - rest) := hlow
    by_cases hz : value = 0
    · rw [hz, Nat.zero_mul, Nat.le_zero, Nat.mul_eq_zero] at hnear
      have ht : whole * target = 0 := by
        rw [hz, Nat.zero_mul] at hlow
        omega
      rw [Nat.mul_eq_zero] at ht
      omega
    · have := Nat.le_of_mul_le_mul_left h₁ (by omega)
      omega
  · have hleaves : Leaves whole step value target rest :=
      ⟨(Nat.dvd_add_right (dvd_refl step)).mp hd, by omega, hlow⟩
    have := (largestCut_isGreatest (show target < value by omega)).2 hleaves
    omega

end

/-! ## 2. Rounding to the nearest -/

/-- **The integer nearest to `scale * x / h`**, ties up. -/
def nearest (scale x h : ℕ) : ℕ := (x * scale + h / 2) / h

section

variable {scale x x' h h' : ℕ}

/-- **It is the nearest one.** -/
theorem nearest_eq_round (hh : 0 < h) :
    (nearest scale x h : ℤ) = round ((scale * x : ℚ) / h) := by
  have hq : (0 : ℚ) < h := by exact_mod_cast hh
  symm
  rw [round_eq_iff, Set.mem_Ico]
  have hdiv := Nat.div_add_mod (x * scale + h / 2) h
  have hmod := Nat.mod_lt (x * scale + h / 2) hh
  rw [← nearest] at hdiv
  generalize nearest scale x h = n at hdiv
  have hhalf : h = 2 * (h / 2) ∨ h = 2 * (h / 2) + 1 := by omega
  have h₁ : 2 * (h * n) ≤ 2 * (x * scale) + h := by omega
  have h₂ : 2 * (x * scale) < 2 * (h * n) + h := by omega
  have h₁q : (2 * (h * n) : ℚ) ≤ 2 * (x * scale) + h := by exact_mod_cast h₁
  have h₂q : (2 * (x * scale) : ℚ) < 2 * (h * n) + h := by exact_mod_cast h₂
  rw [le_div_iff₀ hq, div_lt_iff₀ hq]
  push_cast
  constructor <;> nlinarith

/-- **A larger ratio is never rounded lower.** -/
theorem nearest_mono (hh : 0 < h) (hh' : 0 < h') (hle : x * h' ≤ x' * h) :
    nearest scale x h ≤ nearest scale x' h' := by
  have hq : (0 : ℚ) < h := by exact_mod_cast hh
  have hq' : (0 : ℚ) < h' := by exact_mod_cast hh'
  have hr : (nearest scale x h : ℤ) ≤ nearest scale x' h' := by
    rw [nearest_eq_round hh, nearest_eq_round hh', round_eq, round_eq]
    refine Int.floor_mono (add_le_add_left ?_ _)
    rw [div_le_div_iff₀ hq hq']
    have hle' : (x * h' : ℚ) ≤ x' * h := by exact_mod_cast hle
    have := mul_le_mul_of_nonneg_left hle' (Nat.cast_nonneg (α := ℚ) scale)
    linarith
  exact_mod_cast hr

/-- **An equal ratio is rounded the same.** -/
theorem nearest_congr (hh : 0 < h) (hh' : 0 < h') (he : x * h' = x' * h) :
    nearest scale x h = nearest scale x' h' :=
  le_antisymm (nearest_mono hh hh' (le_of_eq he)) (nearest_mono hh' hh (le_of_eq he.symm))

/-- **It is off by at most a half.** -/
theorem abs_nearest_sub_le (hh : 0 < h) :
    |(nearest scale x h : ℚ) - (scale * x : ℚ) / h| ≤ 1 / 2 := by
  have hr := abs_sub_round ((scale * x : ℚ) / h)
  rw [← nearest_eq_round hh, abs_sub_comm] at hr
  exact_mod_cast hr

/-- All of it. -/
theorem nearest_self (hh : 0 < h) : nearest scale h h = scale := by
  rw [nearest, Nat.mul_add_div hh, Nat.div_eq_of_lt (by omega), Nat.add_zero]

/-- Nothing of it. -/
theorem nearest_zero : nearest scale 0 h = 0 := by
  rw [nearest, Nat.zero_mul, Nat.zero_add]
  by_cases hh : h = 0
  · simp [hh]
  · exact Nat.div_eq_of_lt (by omega)

end

/-! ## 3. Parts of a rounded whole -/

/-- **A part of a whole after rounding**: where the part `s` of `s + o` is off by `n` halves and the
    rest by one, the fraction is off by at most `n` halves of the whole. -/
theorem abs_fraction_sub_le {s s' o o' n m : ℚ} (hs : 0 ≤ s) (ho : 0 ≤ o) (hpos : 0 < s + o)
    (hm : 0 < m) (hm' : m ≤ s' + o') (hn : s ≤ n * s) (h₁ : |s' - s| ≤ n / 2)
    (h₂ : |o' - o| ≤ 1 / 2) : |s' / (s' + o') - s / (s + o)| ≤ n / (2 * m) := by
  have hpos' : 0 < s' + o' := hm.trans_le hm'
  have hn0 : 0 ≤ n := by
    have := abs_nonneg (s' - s)
    linarith
  have hdiff : s' / (s' + o') - s / (s + o) =
      ((s' - s) * o - s * (o' - o)) / ((s' + o') * (s + o)) := by
    rw [div_sub_div _ _ hpos'.ne' hpos.ne']
    ring
  have hnum : |(s' - s) * o - s * (o' - o)| ≤ n / 2 * (s + o) := by
    calc |(s' - s) * o - s * (o' - o)| ≤ |(s' - s) * o| + |s * (o' - o)| := abs_sub _ _
      _ = |s' - s| * o + s * |o' - o| := by rw [abs_mul, abs_mul, abs_of_nonneg ho, abs_of_nonneg hs]
      _ ≤ n / 2 * o + s * (1 / 2) :=
        add_le_add (mul_le_mul_of_nonneg_right h₁ ho) (mul_le_mul_of_nonneg_left h₂ hs)
      _ ≤ n / 2 * (s + o) := by linarith
  calc |s' / (s' + o') - s / (s + o)|
      = |(s' - s) * o - s * (o' - o)| / ((s' + o') * (s + o)) := by
        rw [hdiff, abs_div, abs_of_pos (mul_pos hpos' hpos)]
    _ ≤ n / 2 * (s + o) / ((s' + o') * (s + o)) :=
        div_le_div_of_nonneg_right hnum (mul_pos hpos' hpos).le
    _ = n / (2 * (s' + o')) := by field_simp
    _ ≤ n / (2 * m) := div_le_div_of_nonneg_left hn0 (by positivity) (by linarith)

section

variable {ι : Type} [Fintype ι] [DecidableEq ι] {o : ι} {parts : Finset ι} {share : ι → ℕ}
  {scale h : ℕ}

/-- The rounded parts are off by half an integer each. -/
theorem abs_sum_nearest_sub_le (hh : 0 < h) (hzero : ∀ i, i ≠ o → i ∉ parts → share i = 0)
    (ho : o ∉ parts) :
    |(∑ i ∈ Finset.univ.erase o, nearest scale (share i) h : ℚ) -
      ∑ i ∈ Finset.univ.erase o, (scale * share i : ℚ) / h| ≤ parts.card / 2 := by
  have hsub : parts ⊆ Finset.univ.erase o := fun i hi =>
    Finset.mem_erase.mpr ⟨fun he => ho (he ▸ hi), Finset.mem_univ _⟩
  have hout : ∀ i ∈ Finset.univ.erase o, i ∉ parts → share i = 0 :=
    fun i hi hn => hzero i (Finset.ne_of_mem_erase hi) hn
  rw [← Finset.sum_subset hsub fun i hi hn => by rw [hout i hi hn, nearest_zero, Nat.cast_zero],
    ← Finset.sum_subset hsub fun i hi hn => by
      rw [hout i hi hn, Nat.cast_zero, mul_zero, zero_div], ← Finset.sum_sub_distrib]
  calc |∑ i ∈ parts, ((nearest scale (share i) h : ℚ) - (scale * share i : ℚ) / h)|
      ≤ ∑ i ∈ parts, |(nearest scale (share i) h : ℚ) - (scale * share i : ℚ) / h| :=
        Finset.abs_sum_le_sum_abs _ _
    _ ≤ ∑ _i ∈ parts, (1 / 2 : ℚ) := Finset.sum_le_sum fun i _ => abs_nearest_sub_le hh
    _ = parts.card / 2 := by
      rw [Finset.sum_const, nsmul_eq_mul]
      ring

/-- **What all but one hold of a whole that is rounded**: where the largest of the shares is scaled to
    `scale`, their fraction is off by at most half of an integer each, of `scale`. -/
theorem abs_sum_fraction_sub_le (hscale : 0 < scale) (hh : 0 < h) (hmax : ∃ i, share i = h)
    (hzero : ∀ i, i ≠ o → i ∉ parts → share i = 0) (ho : o ∉ parts) :
    |(∑ i ∈ Finset.univ.erase o, nearest scale (share i) h : ℚ) /
          ∑ i, (nearest scale (share i) h : ℚ) -
        (∑ i ∈ Finset.univ.erase o, share i : ℚ) / ∑ i, (share i : ℚ)| ≤
      parts.card / (2 * scale) := by
  have hq : (0 : ℚ) < h := by exact_mod_cast hh
  have hsq : (0 : ℚ) < scale := by exact_mod_cast hscale
  have hc : (0 : ℚ) < scale / h := div_pos hsq hq
  have hexact : ∀ t : Finset ι, ∑ i ∈ t, (scale * share i : ℚ) / h =
      scale / h * ∑ i ∈ t, (share i : ℚ) := by
    intro t
    rw [Finset.mul_sum]
    exact Finset.sum_congr rfl fun i _ => by ring
  -- the exact fraction does not change with the scale
  have hfraction : (∑ i ∈ Finset.univ.erase o, share i : ℚ) / ∑ i, (share i : ℚ) =
      (∑ i ∈ Finset.univ.erase o, (scale * share i : ℚ) / h) /
        ((∑ i ∈ Finset.univ.erase o, (scale * share i : ℚ) / h) + (scale * share o : ℚ) / h) := by
    rw [Finset.sum_erase_add _ _ (Finset.mem_univ o), hexact, hexact, mul_div_mul_left _ _ hc.ne']
  have hrounded : ∑ i, (nearest scale (share i) h : ℚ) =
      (∑ i ∈ Finset.univ.erase o, nearest scale (share i) h : ℚ) + nearest scale (share o) h :=
    (Finset.sum_erase_add _ _ (Finset.mem_univ o)).symm
  obtain ⟨top, htop⟩ := hmax
  have hnonneg : ∀ i, (0 : ℚ) ≤ (scale * share i : ℚ) / h := fun i => by positivity
  have hpos : 0 < (∑ i ∈ Finset.univ.erase o, (scale * share i : ℚ) / h) +
      (scale * share o : ℚ) / h := by
    rw [Finset.sum_erase_add _ _ (Finset.mem_univ o)]
    refine Finset.sum_pos' (fun i _ => hnonneg i) ⟨top, Finset.mem_univ _, ?_⟩
    rw [htop]
    positivity
  have hwhole : (scale : ℚ) ≤
      (∑ i ∈ Finset.univ.erase o, nearest scale (share i) h : ℚ) + nearest scale (share o) h := by
    rw [← hrounded]
    have hle := Finset.single_le_sum (f := fun i => (nearest scale (share i) h : ℚ))
      (fun i _ => Nat.cast_nonneg _) (Finset.mem_univ top)
    rwa [htop, nearest_self hh] at hle
  have hfew : (∑ i ∈ Finset.univ.erase o, (scale * share i : ℚ) / h) ≤
      parts.card * ∑ i ∈ Finset.univ.erase o, (scale * share i : ℚ) / h := by
    have hs : 0 ≤ ∑ i ∈ Finset.univ.erase o, (scale * share i : ℚ) / h :=
      Finset.sum_nonneg fun i _ => hnonneg i
    by_cases he : parts = ∅
    · have hz : ∑ i ∈ Finset.univ.erase o, (scale * share i : ℚ) / h = 0 := by
        refine Finset.sum_eq_zero fun i hi => ?_
        rw [hzero i (Finset.ne_of_mem_erase hi) (he ▸ Finset.notMem_empty i)]
        simp
      rw [hz, mul_zero]
    · have hcard : (1 : ℚ) ≤ parts.card := by
        exact_mod_cast Finset.card_pos.mpr (Finset.nonempty_iff_ne_empty.mpr he)
      exact le_mul_of_one_le_left hs hcard
  rw [hfraction, hrounded]
  exact abs_fraction_sub_le (Finset.sum_nonneg fun i _ => hnonneg i) (hnonneg o) hpos hsq hwhole hfew
    (abs_sum_nearest_sub_le hh hzero ho) (abs_nearest_sub_le hh)

end

end Library
