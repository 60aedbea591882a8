/-
  File:      Validator/Heads.lean
  Subject:   THE HEADS OF ONE EPOCH AGREE on the reveal block.

  * `next` -- the schedule as the next head reads it; `fires` -- does an epoch fall on that head?
  * `Quiet`, `Quiet.next` -- in a block without a fall the loop sees the epoch unchanged;
  * `simulate_heads` -- the loop from a head is the loop from a later head of the epoch;
  * `reveal_agree` -- **both heads reveal on the same block**.
-/
import Mathlib.Logic.Function.Iterate
import Sn46Validator.Validator.Reveal

namespace Sn46Validator.Validator

open Library

namespace Schedule

/-! ## 1. The next head -/

/-- **The schedule that the next head holds**, by the step that is simulated. -/
def next (s : Schedule) : Schedule := { s.advance (s.block + 1) with block := s.block + 1 }

/-- Does an epoch fall on the next head? -/
def fires (s : Schedule) : Bool :=
  (s.counted (U64.saturatingAdd s.blocksSinceStep 1)).epochDue (s.block + 1)

variable {s : Schedule} {target period : U64}

/-- **No epoch falls on the next head**: not by its time, and not by the count. -/
structure Quiet (s : Schedule) : Prop where
  time : ¬s.Timed (s.block + 1).val
  count : s.blocksSinceStep.val + 1 ≤ 50400

theorem quiet_of_fires (h : s.fires = false) : s.Quiet := by
  have hno : ¬s.fires = true := Bool.not_eq_true _ ▸ h
  rw [fires, epochDue_iff, not_or] at hno
  obtain ⟨ht, hc⟩ := hno
  refine ⟨ht, ?_⟩
  have hc' : ¬50400 < min (s.blocksSinceStep.val + 1) (2 ^ 64 - 1) := hc
  omega

/-- A quiet head counts up. -/
theorem Quiet.next_eq (h : s.Quiet) : s.next =
    { s.counted (U64.saturatingAdd s.blocksSinceStep 1) with block := s.block + 1 } := by
  rw [next, advance_quiet h.time h.count]

/-- Nor does the loop see one coming. -/
theorem Quiet.due (h : s.Quiet) : s.epochDue (s.block + 1) = false := by
  rw [← Bool.not_eq_true, epochDue_iff, not_or]
  have hc := h.count
  exact ⟨h.time, by omega⟩

/-! ## 2. The loop from a later head -/

/-- The loop does not read the head. -/
theorem simulate_block (n : ℕ) (b c : U64) (s : Schedule) :
    simulate target n b { s with block := c } = simulate target n b s := by
  induction n generalizing b s with
  | zero => rfl
  | succ n ih =>
    have hdue : ({ s with block := c } : Schedule).epochDue b = s.epochDue b := rfl
    have hstep : ({ s with block := c } : Schedule).advance b = { s.advance b with block := c } := by
      unfold advance
      dsimp only
      split_ifs with h₁ h₂ h₂
      · rfl
      · exact absurd h₁ h₂
      · exact absurd h₂ h₁
      · rfl
    rw [simulate, simulate, hdue, hstep, ih]

/-- **More fuel** finds what less fuel finds. -/
theorem simulate_mono {n : ℕ} {b r : U64} (h : simulate target n b s = some r) (m : ℕ) :
    simulate target (n + m) b s = some r := by
  induction n generalizing b s with
  | zero => cases h
  | succ n ih =>
    rw [simulate] at h
    rw [Nat.succ_add, simulate]
    split_ifs at h ⊢ with hseen
    · exact h
    · exact ih h

theorem simulate_next (h : s.Quiet) (hne : s.epoch ≠ target) (n : ℕ) :
    simulate target (n + 1) (s.block + 1) s = simulate target n (s.next.block + 1) s.next := by
  have hseen : (U64.saturatingAdd s.epoch (U64.ofBool (s.epochDue (s.block + 1)))).val ≠
      target.val := by
    rw [seen_quiet]
    · exact fun he => hne (Fin.ext he)
    · rw [← epochDue_iff, h.due]
      exact Bool.false_ne_true
  rw [simulate_miss hseen]
  exact (simulate_block n _ (s.block + 1) (s.advance (s.block + 1))).symm

/-- **`k` heads later in the epoch**: what the schedule is by then, and the loop from there. -/
theorem simulate_heads {k : ℕ} (hfit : s.block.val + k < 2 ^ 64)
    (hquiet : ∀ j < k, (next^[j] s).fires = false) :
    (next^[k] s).block.val = s.block.val + k ∧ (next^[k] s).epoch = s.epoch ∧
      (next^[k] s).lastEpoch = s.lastEpoch ∧ (next^[k] s).tempo = s.tempo ∧
      (0 < k → s.blocksSinceStep.val + k ≤ 50400) ∧
      (s.epoch ≠ target → ∀ n, simulate target (k + n) (s.block + 1) s =
        simulate target n ((next^[k] s).block + 1) (next^[k] s)) := by
  induction k generalizing s with
  | zero =>
    refine ⟨rfl, rfl, rfl, rfl, fun h => absurd h (Nat.lt_irrefl 0), fun _ n => ?_⟩
    rw [Nat.zero_add]
    rfl
  | succ k ih =>
    have hq : s.Quiet := quiet_of_fires (hquiet 0 (Nat.succ_pos k))
    have hnext := hq.next_eq
    have hblock : s.next.block.val = s.block.val + 1 := by
      rw [hnext]
      exact add_val_of_lt (show s.block.val + 1 < 2 ^ 64 by omega)
    have hepoch : s.next.epoch = s.epoch := by rw [hnext]; rfl
    have hlast : s.next.lastEpoch = s.lastEpoch := by rw [hnext]; rfl
    have htempo : s.next.tempo = s.tempo := by rw [hnext]; rfl
    have hcount : s.next.blocksSinceStep.val = s.blocksSinceStep.val + 1 := by
      have hc := hq.count
      rw [hnext]
      show min (s.blocksSinceStep.val + 1) (2 ^ 64 - 1) = _
      omega
    obtain ⟨hb, he, hl, ht, hc, hsim⟩ := @ih s.next (by omega) fun j hj => by
      rw [← Function.iterate_succ_apply]
      exact hquiet (j + 1) (Nat.succ_lt_succ hj)
    rw [Function.iterate_succ_apply]
    refine ⟨by omega, he.trans hepoch, hl.trans hlast, ht.trans htempo, fun _ => ?_,
      fun hne n => ?_⟩
    · have hcq := hq.count
      by_cases hk : 0 < k
      · have := hc hk
        omega
      · omega
    · rw [show k + 1 + n = k + n + 1 by omega, simulate_next hq hne,
        hsim (by rw [hepoch]; exact hne)]

/-! ## 3. The reveal block -/

/-- **Heads of one epoch agree.** A schedule and the one `k` heads later, when no epoch falls in
    between and none is due on the block after the later head, have the same reveal block. -/
theorem reveal_agree (s : Schedule) (period : U64) (k : ℕ) (hlast : s.lastEpoch ≤ s.block)
    (htempo : 1 ≤ s.tempo) (hpos : 1 ≤ period) (hle : period ≤ 100)
    (hblock : s.block.val + k + 1 + (period.val + 1) * 50400 < 2 ^ 64)
    (hepoch : s.epoch.val + period.val < 2 ^ 64)
    (hquiet : ∀ j < k, (next^[j] s).fires = false)
    (hdue : (next^[k] s).epochDue ((next^[k] s).block + 1) = false) :
    (next^[k] s).revealBlock period = s.revealBlock period ∧
      ∃ r, s.revealBlock period = .ok r := by
  have hfit : s.block.val + k < 2 ^ 64 := by omega
  have hdue₀ : s.epochDue (s.block + 1) = false := by
    cases k with
    | zero => exact hdue
    | succ k => exact (quiet_of_fires (hquiet 0 (Nat.succ_pos k))).due
  have hlast' : s.lastEpoch.val ≤ s.block.val := hlast
  have hoff : (U64.ofBool false).val = 0 := rfl
  have hvalid : s.Valid period :=
    ⟨hlast, htempo, hpos, hle, by omega, by rw [hdue₀, hoff]; omega⟩
  obtain ⟨hb, he, hl, ht, hc, -⟩ := @simulate_heads s s.epoch k hfit hquiet
  have hvalid' : (next^[k] s).Valid period := by
    refine ⟨?_, ?_, hpos, hle, ?_, ?_⟩
    · rw [hl]
      omega
    · rw [ht]
      exact htempo
    · omega
    · rw [hdue, hoff, he]
      omega
  obtain ⟨first, target, rfl, -, htarget, hreveal⟩ := revealBlock_eq hvalid
  obtain ⟨first', target', rfl, -, htarget', hreveal'⟩ := revealBlock_eq hvalid'
  rw [hdue₀, hoff] at htarget
  rw [hdue, hoff, he] at htarget'
  obtain rfl : target' = target := Fin.ext (htarget'.trans htarget.symm)
  have hne : s.epoch ≠ target' := by
    intro heq
    have hp : 1 ≤ period.val := hpos
    rw [heq] at htarget
    omega
  obtain ⟨-, -, -, -, -, hsim⟩ := @simulate_heads s target' k hfit hquiet
  -- the loop finds a block from `s`, past the `k` heads, and so from the later head
  obtain ⟨-, r, -, -, hr, -⟩ := revealBlock_spec hvalid
  obtain ⟨n, hn⟩ : ∃ n, (period.val + 1) * 50400 + 1 = k + n := by
    refine ⟨(period.val + 1) * 50400 + 1 - k, ?_⟩
    by_cases hk : 0 < k
    · have := hc hk
      omega
    · omega
  rw [hn, hsim hne] at hreveal
  cases hfound : simulate target' n ((next^[k] s).block + 1) (next^[k] s) with
  | none =>
    rw [hreveal, hfound] at hr
    cases hr
  | some r' =>
    rw [hfound] at hreveal
    rw [show (period.val + 1) * 50400 + 1 = n + k by omega, simulate_mono hfound] at hreveal'
    exact ⟨hreveal'.trans hreveal.symm, r', hreveal⟩

theorem reveal_agree_test : testSchedule.fires = false ∧
    (next^[2] testSchedule).revealBlock 100 = testSchedule.revealBlock 100 := by
  refine ⟨by decide, (reveal_agree testSchedule 100 2 (by decide) (by decide) (by decide)
    (by decide) (by decide) (by decide) ?_ (by decide)).1⟩
  decide

end Schedule

end Sn46Validator.Validator
