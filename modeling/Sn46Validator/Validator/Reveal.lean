/-
  File:      Validator/Reveal.lean
  Subject:   THE REVEAL BLOCK of a timelocked commit: a simulation of the subnet's epochs.

  * `Schedule`, `epochDue`, `advance`, `simulate`, `revealBlock` -- the source's simulation;
  * `simulate_quiet` -- blocks in which no epoch falls due only count up;
  * `Fresh`, `simulate_fresh` -- from a block on which an epoch fell, every epoch takes `gap` blocks;
  * `revealBlock_spec` -- **the simulation ends**, at a block in closed form;
  * `reveal_found`, `reveal_closed_form` -- how far ahead it is, and which block it is.
-/
import Mathlib.Order.Lattice.Nat
import Sn46Validator.Validator.Burn

namespace Sn46Validator.Validator

open Library

/-! ## 1. The simulation -/

def maxTempo : U64 := 50400

/-- The error of a commit. -/
def commitError (text : String) : BurnError := ⟨"Commit/reveal preparation failed: " ++ text⟩

/-- **The epochs of a subnet**, as the chain stores them at the block `block`. -/
structure Schedule where
  block : U64
  lastEpoch : U64
  pendingEpoch : U64
  epoch : U64
  tempo : U16
  blocksSinceStep : U64

namespace Schedule

/-- **`epoch_due`.** -/
def epochDue (s : Schedule) (block : U64) : Bool :=
  (decide (s.pendingEpoch > 0) && decide (block ≥ s.pendingEpoch)) ||
    decide (s.blocksSinceStep > maxTempo) ||
    decide (U64.saturatingSub block s.lastEpoch ≥ s.tempo.toU64)

/-- One simulated block. -/
def advance (s : Schedule) (block : U64) : Schedule :=
  let s := { s with blocksSinceStep := U64.saturatingAdd s.blocksSinceStep 1 }
  if s.epochDue block then
    { s with
      lastEpoch := block
      pendingEpoch := 0
      epoch := U64.saturatingAdd s.epoch 1
      blocksSinceStep := 0 }
  else s

/-- The loop: `n` blocks from `block` on, until the epoch is `target`. -/
def simulate (target : U64) : ℕ → U64 → Schedule → Option U64
  | 0, _, _ => none
  | n + 1, block, s =>
    -- reveals run before coinbase, with a one-epoch lookahead
    if U64.saturatingAdd s.epoch (U64.ofBool (s.epochDue block)) = target then some block
    else simulate target n (block + 1) (s.advance block)

/-- **`reveal_block`.** -/
def revealBlock (s : Schedule) (period : U64) : Except BurnError U64 :=
  if s.tempo = 0 ∨ ¬(1 ≤ period ∧ period ≤ 100) then
    .error (commitError "invalid tempo or reveal period")
  else
    match checkedAdd s.block 1 with
    | none => .error (commitError "block overflow")
    | some first =>
      match (checkedAdd s.epoch (U64.ofBool (s.epochDue first))).bind (checkedAdd · period) with
      | none => .error (commitError "epoch overflow")
      | some target =>
        match checkedAdd first ((period + 1) * maxTempo) with
        | none => .error (commitError "block overflow")
        | some last =>
          match s.simulate target (last.val - first.val + 1) first with
          | some block => .ok block
          | none => .error (commitError "reveal block exceeds simulation bound")

/-! ## 2. One block -/

/-- An epoch falls due by its time: the pending one, or after `tempo` blocks. -/
def Timed (s : Schedule) (b : ℕ) : Prop :=
  (0 < s.pendingEpoch.val ∧ s.pendingEpoch.val ≤ b) ∨ s.tempo.val ≤ b - s.lastEpoch.val

theorem epochDue_iff {s : Schedule} {block : U64} :
    s.epochDue block = true ↔ s.Timed block.val ∨ 50400 < s.blocksSinceStep.val := by
  simp only [epochDue, Bool.or_eq_true, Bool.and_eq_true, decide_eq_true_eq]
  show ((0 < s.pendingEpoch.val ∧ s.pendingEpoch.val ≤ block.val) ∨ 50400 < s.blocksSinceStep.val) ∨
    s.tempo.val ≤ block.val - s.lastEpoch.val ↔ _
  unfold Timed
  tauto

/-- The schedule with another count of blocks. -/
def counted (s : Schedule) (n : U64) : Schedule := { s with blocksSinceStep := n }

/-- The schedule once an epoch fell on a block. -/
def rolled (s : Schedule) (block : U64) : Schedule :=
  { s with
    lastEpoch := block
    pendingEpoch := 0
    epoch := U64.saturatingAdd s.epoch 1
    blocksSinceStep := 0 }

theorem advance_quiet {s : Schedule} {block : U64} (ht : ¬s.Timed block.val)
    (hb : s.blocksSinceStep.val < 50400) :
    s.advance block = s.counted (U64.saturatingAdd s.blocksSinceStep 1) := by
  have hval : (U64.saturatingAdd s.blocksSinceStep 1).val = s.blocksSinceStep.val + 1 := by
    show min (s.blocksSinceStep.val + 1) (2 ^ 64 - 1) = _
    omega
  have hno : ¬(s.counted (U64.saturatingAdd s.blocksSinceStep 1)).epochDue block = true := by
    rw [epochDue_iff, not_or]
    refine ⟨ht, ?_⟩
    show ¬50400 < (U64.saturatingAdd s.blocksSinceStep 1).val
    rw [hval]
    omega
  exact if_neg hno

theorem advance_due {s : Schedule} {block : U64}
    (h : s.Timed block.val ∨ 50400 ≤ s.blocksSinceStep.val) : s.advance block = s.rolled block := by
  have hyes : (s.counted (U64.saturatingAdd s.blocksSinceStep 1)).epochDue block = true := by
    rw [epochDue_iff]
    rcases h with ht | hb
    · exact .inl ht
    · refine .inr ?_
      show 50400 < min (s.blocksSinceStep.val + 1) (2 ^ 64 - 1)
      have := s.blocksSinceStep.isLt
      omega
  exact if_pos hyes

/-! ## 3. Many blocks -/

section

variable {target : U64}

/-- The loop stops at a block that is seen with the target epoch. -/
theorem simulate_hit {n : ℕ} {block : U64} {s : Schedule} (hn : 0 < n)
    (h : (U64.saturatingAdd s.epoch (U64.ofBool (s.epochDue block))).val = target.val) :
    simulate target n block s = some block := by
  obtain ⟨n, rfl⟩ : ∃ k, n = k + 1 := ⟨n - 1, by omega⟩
  exact if_pos (Fin.ext h)

theorem simulate_miss {n : ℕ} {block : U64} {s : Schedule}
    (h : (U64.saturatingAdd s.epoch (U64.ofBool (s.epochDue block))).val ≠ target.val) :
    simulate target (n + 1) block s = simulate target n (block + 1) (s.advance block) :=
  if_neg fun he => h (congrArg Fin.val he)

/-- What the loop sees of an epoch that is not due, and of one that is. -/
theorem seen_quiet {s : Schedule} {block : U64}
    (h : ¬(s.Timed block.val ∨ 50400 < s.blocksSinceStep.val)) :
    (U64.saturatingAdd s.epoch (U64.ofBool (s.epochDue block))).val = s.epoch.val := by
  rw [← epochDue_iff, Bool.not_eq_true] at h
  rw [h]
  show min (s.epoch.val + 0) (2 ^ 64 - 1) = s.epoch.val
  have := s.epoch.isLt
  omega

theorem seen_due {s : Schedule} {block : U64} (h : s.Timed block.val ∨ 50400 < s.blocksSinceStep.val)
    (hlt : s.epoch.val < target.val) :
    (U64.saturatingAdd s.epoch (U64.ofBool (s.epochDue block))).val = s.epoch.val + 1 := by
  rw [← epochDue_iff] at h
  rw [h]
  show min (s.epoch.val + 1) (2 ^ 64 - 1) = s.epoch.val + 1
  have := target.isLt
  omega

/-- **Blocks in which no epoch falls due only count up.** -/
theorem simulate_quiet (m : ℕ) {n : ℕ} {block block' bss : U64} {s : Schedule}
    (hne : s.epoch.val ≠ target.val) (hb' : block'.val = block.val + m)
    (hbss : bss.val = s.blocksSinceStep.val + m) (hle : 0 < m → bss.val ≤ 50400)
    (ht : ∀ b, block.val ≤ b → b < block'.val → ¬s.Timed b) :
    simulate target (m + n) block s = simulate target n block' (s.counted bss) := by
  induction m generalizing block s with
  | zero =>
    obtain rfl : block' = block := Fin.ext hb'
    obtain rfl : bss = s.blocksSinceStep := Fin.ext hbss
    rw [Nat.zero_add]
    rfl
  | succ m ih =>
    have hle' := hle (Nat.succ_pos m)
    have hone : (block + 1).val = block.val + 1 :=
      add_val_of_lt (show block.val + 1 < 2 ^ 64 by have := block'.isLt; omega)
    have hcount : (U64.saturatingAdd s.blocksSinceStep 1).val = s.blocksSinceStep.val + 1 := by
      show min (s.blocksSinceStep.val + 1) (2 ^ 64 - 1) = _
      omega
    have hquiet : ¬s.Timed block.val := ht _ (le_refl _) (by omega)
    have hseen : (U64.saturatingAdd s.epoch (U64.ofBool (s.epochDue block))).val = s.epoch.val := by
      refine seen_quiet (not_or.mpr ⟨hquiet, ?_⟩)
      omega
    rw [show m + 1 + n = m + n + 1 by omega, simulate_miss (by rw [hseen]; exact hne),
      advance_quiet hquiet (by omega)]
    exact ih (s := s.counted (U64.saturatingAdd s.blocksSinceStep 1)) hne (by omega)
      (by show bss.val = (U64.saturatingAdd s.blocksSinceStep 1).val + m; omega) (fun _ => hle')
      fun b hb => ht b (by omega)

/-- **An epoch has just fallen** on the block before `block`. -/
structure Fresh (s : Schedule) (block : U64) : Prop where
  last : s.lastEpoch.val + 1 = block.val
  pending : s.pendingEpoch.val = 0
  count : s.blocksSinceStep.val = 0

theorem fresh_rolled {s : Schedule} {block block' : U64} (h : block.val + 1 = block'.val) :
    (s.rolled block).Fresh block' := ⟨h, rfl, rfl⟩

/-- The blocks that an epoch takes from one fall to the next. -/
def gap (s : Schedule) : ℕ := min s.tempo.val 50401

/-- How late the loop sees an epoch: a block, where the count and not the tempo makes it due. -/
def lag (s : Schedule) : ℕ := if s.tempo.val ≤ 50401 then 0 else 1

theorem Fresh.timed_iff {s : Schedule} {block : U64} (h : s.Fresh block) {b : ℕ} :
    s.Timed b ↔ s.tempo.val ≤ b - s.lastEpoch.val := by
  have hp := h.pending
  constructor
  · intro hor
    rcases hor with ⟨hpos, -⟩ | ht
    · omega
    · exact ht
  · exact .inr

/-- The blocks of a fresh epoch before the next one falls. -/
theorem Fresh.quiet {n : ℕ} {block : U64} {s : Schedule} (h : s.Fresh block)
    (ht : 1 ≤ s.tempo.val) (hlt : s.epoch.val < target.val) (hn : s.gap ≤ n)
    (hfit : block.val + n ≤ 2 ^ 64) :
    ∃ block' bss : U64, block'.val + 1 = block.val + s.gap ∧ bss.val + 1 = s.gap ∧
      simulate target n block s = simulate target (n - s.gap + 1) block' (s.counted bss) ∧
      ((s.counted bss).Timed block'.val ∨ 50400 ≤ bss.val) := by
  have hgap : 1 ≤ s.gap ∧ s.gap ≤ s.tempo.val ∧ s.gap ≤ 50401 ∧
      (s.gap = s.tempo.val ∨ s.gap = 50401) := by
    unfold gap
    omega
  have hlast := h.last
  have hcount := h.count
  have hmono : ∀ b, block.val ≤ b → b < block.val + (s.gap - 1) → ¬s.Timed b := by
    intro b _ hb
    rw [h.timed_iff]
    omega
  refine ⟨⟨block.val + (s.gap - 1), by omega⟩, ⟨s.gap - 1, by omega⟩, ?_, ?_, ?_, ?_⟩
  · show block.val + (s.gap - 1) + 1 = _
    omega
  · show s.gap - 1 + 1 = _
    omega
  · have hsplit : n = s.gap - 1 + (n - s.gap + 1) := by omega
    refine (congrArg (simulate target · block s) hsplit).trans
      (simulate_quiet (s.gap - 1) (Nat.ne_of_lt hlt) rfl ?_ ?_ hmono)
    · show s.gap - 1 = s.blocksSinceStep.val + (s.gap - 1)
      omega
    · intro _
      show s.gap - 1 ≤ 50400
      omega
  · rcases hgap.2.2.2 with hg | hg
    · refine .inl (.inr ?_)
      show s.tempo.val ≤ block.val + (s.gap - 1) - s.lastEpoch.val
      omega
    · refine .inr ?_
      show 50400 ≤ s.gap - 1
      omega

/-- What the loop sees is the epoch or the next one. -/
theorem seen_le (s : Schedule) (block : U64) :
    (U64.saturatingAdd s.epoch (U64.ofBool (s.epochDue block))).val ≤ s.epoch.val + 1 := by
  show min (s.epoch.val + (U64.ofBool (s.epochDue block)).val) (2 ^ 64 - 1) ≤ s.epoch.val + 1
  have hone : (U64.ofBool (s.epochDue block)).val ≤ 1 := by
    cases s.epochDue block <;> decide
  omega

theorem epoch_rolled {s : Schedule} {block : U64} (h : s.epoch.val < target.val) :
    (s.rolled block).epoch.val = s.epoch.val + 1 := by
  show min (s.epoch.val + 1) (2 ^ 64 - 1) = s.epoch.val + 1
  have := target.isLt
  omega

/-- **From a fresh epoch on**: the `q`-th next epoch is seen `q` gaps later. -/
theorem simulate_fresh (q : ℕ) {n : ℕ} {block : U64} {s : Schedule} (h : s.Fresh block)
    (ht : 1 ≤ s.tempo.val) (htarget : target.val = s.epoch.val + (q + 1))
    (hn : (q + 1) * s.gap + s.lag ≤ n) (hfit : block.val + n ≤ 2 ^ 64) :
    ∃ r, simulate target n block s = some r ∧
      r.val + 1 = block.val + (q + 1) * s.gap + s.lag := by
  induction q generalizing n block s with
  | zero =>
    rw [Nat.zero_add, Nat.one_mul] at hn ⊢
    have hlt : s.epoch.val < target.val := by omega
    obtain ⟨block', bss, hb', hbss, heq, hdue⟩ := h.quiet ht hlt (by omega) hfit
    rw [heq]
    by_cases hlong : s.tempo.val ≤ 50401
    · -- the tempo makes the next epoch due, and the loop sees it coming
      have hlag : s.lag = 0 := if_pos hlong
      have htimed : (s.counted bss).Timed block'.val := by
        refine .inr ?_
        have hg : s.gap = s.tempo.val := Nat.min_eq_left hlong
        have := h.last
        show s.tempo.val ≤ block'.val - s.lastEpoch.val
        omega
      refine ⟨block', simulate_hit (by omega) ?_, by omega⟩
      rw [seen_due (.inl htimed) hlt]
      show s.epoch.val + 1 = _
      omega
    · -- the count makes it due, on the block before the one that sees it
      have hlag : s.lag = 1 := if_neg hlong
      have hg : s.gap = 50401 := Nat.min_eq_right (by omega)
      have hlast := h.last
      have hmiss : (U64.saturatingAdd (s.counted bss).epoch
          (U64.ofBool ((s.counted bss).epochDue block'))).val ≠ target.val := by
        rw [seen_quiet]
        · exact Nat.ne_of_lt hlt
        · rw [not_or]
          refine ⟨?_, ?_⟩
          · intro hor
            rcases hor with ⟨hp, -⟩ | hbad
            · have := h.pending
              exact absurd hp (by show ¬0 < s.pendingEpoch.val; omega)
            · exact absurd hbad (by show ¬s.tempo.val ≤ block'.val - s.lastEpoch.val; omega)
          · show ¬50400 < bss.val
            omega
      have hone : (block' + 1).val = block'.val + 1 :=
        add_val_of_lt (show block'.val + 1 < 2 ^ 64 by omega)
      rw [simulate_miss hmiss, advance_due hdue]
      refine ⟨block' + 1, simulate_hit (by omega) ?_, by omega⟩
      have hepoch : ((s.counted bss).rolled block').epoch.val = s.epoch.val + 1 := epoch_rolled hlt
      rw [seen_quiet, hepoch]
      · omega
      · rw [not_or, (fresh_rolled hone.symm).timed_iff]
        refine ⟨?_, ?_⟩
        · show ¬s.tempo.val ≤ (block' + 1).val - block'.val
          omega
        · show ¬50400 < (0 : U64).val
          decide
  | succ q ih =>
    rw [Nat.add_mul (q + 1) 1, Nat.one_mul] at hn ⊢
    have hlt : s.epoch.val < target.val := by omega
    obtain ⟨block', bss, hb', hbss, heq, hdue⟩ := h.quiet ht hlt (by omega) hfit
    have hmiss : (U64.saturatingAdd (s.counted bss).epoch
        (U64.ofBool ((s.counted bss).epochDue block'))).val ≠ target.val := by
      have hle := seen_le (s.counted bss) block'
      have he : (s.counted bss).epoch.val = s.epoch.val := rfl
      omega
    have hgap : 1 ≤ s.gap := by
      unfold gap
      omega
    have hone : (block' + 1).val = block'.val + 1 := by
      have hpos : s.gap ≤ (q + 1) * s.gap := Nat.le_mul_of_pos_left _ (by omega)
      exact add_val_of_lt (show block'.val + 1 < 2 ^ 64 by omega)
    have hepoch : ((s.counted bss).rolled block').epoch.val = s.epoch.val + 1 := epoch_rolled hlt
    obtain ⟨r, hr, hv⟩ := ih (s := (s.counted bss).rolled block') (fresh_rolled hone.symm) ht
      (by omega) (show (q + 1) * s.gap + s.lag ≤ n - s.gap by omega) (by omega)
    refine ⟨r, ?_, ?_⟩
    · rw [heq, simulate_miss hmiss, advance_due hdue]
      exact hr
    · have hv' : r.val + 1 = (block' + 1).val + (q + 1) * s.gap + s.lag := hv
      omega

/-! ## 4. The first epoch -/

/-- The conditions under which a block is the first on which an epoch falls: by its time, or because
    the count exceeds the largest tempo on it. -/
def Falls (s : Schedule) (first b : ℕ) : Prop :=
  s.Timed b ∨ 50400 < s.blocksSinceStep.val + (b - first) + 1

/-- **The first fall** is at most 50400 blocks ahead. -/
theorem exists_falls (s : Schedule) (first : ℕ) :
    ∃ F, IsLeast {b | first ≤ b ∧ s.Falls first b} F ∧ F ≤ first + 50400 := by
  have hmem : first + 50400 ∈ {b | first ≤ b ∧ s.Falls first b} :=
    ⟨Nat.le_add_right _ _, .inr (by omega)⟩
  exact ⟨_, ⟨Nat.sInf_mem ⟨_, hmem⟩, fun b hb => Nat.sInf_le hb⟩, Nat.sInf_le hmem⟩

/-- Up to the first fall the loop only counts. -/
theorem simulate_first {n F : ℕ} {first : U64} {s : Schedule}
    (hF : IsLeast {b | first.val ≤ b ∧ s.Falls first.val b} F) (hne : s.epoch.val ≠ target.val)
    (hn : F - first.val ≤ n) (hlt : F < 2 ^ 64) :
    ∃ block bss : U64, block.val = F ∧ bss.val = s.blocksSinceStep.val + (F - first.val) ∧
      simulate target n first s = simulate target (n - (F - first.val)) block (s.counted bss) ∧
      ((s.counted bss).Timed block.val ∨ 50400 ≤ bss.val) := by
  obtain ⟨⟨hle, hfalls⟩, hleast⟩ := hF
  have hbefore : ∀ b, first.val ≤ b → b < F → ¬s.Falls first.val b :=
    fun b hb hlt hf => absurd (hleast ⟨hb, hf⟩) (Nat.not_le.mpr hlt)
  have hcount : 0 < F - first.val → s.blocksSinceStep.val + (F - first.val) ≤ 50400 := by
    intro hpos
    have hno := hbefore (F - 1) (by omega) (by omega)
    rw [Falls, not_or] at hno
    omega
  have hbss : s.blocksSinceStep.val + (F - first.val) < 2 ^ 64 := by
    by_cases hpos : 0 < F - first.val
    · have := hcount hpos
      omega
    · have := s.blocksSinceStep.isLt
      omega
  refine ⟨⟨F, hlt⟩, ⟨_, hbss⟩, rfl, rfl, ?_, ?_⟩
  · have hsplit : n = F - first.val + (n - (F - first.val)) := by omega
    refine (congrArg (simulate target · first s) hsplit).trans
      (simulate_quiet (F - first.val) hne ?_ rfl hcount fun b hb hlt ht => ?_)
    · show F = first.val + (F - first.val)
      omega
    · exact hbefore b hb hlt (.inl ht)
  · rcases hfalls with ht | hc
    · exact .inl ht
    · refine .inr ?_
      show 50400 ≤ s.blocksSinceStep.val + (F - first.val)
      omega

end

/-! ## 5. The reveal block -/

/-- **The schedules that the simulation is meant for**: the last epoch is not ahead, the tempo is not
    zero, the period is one of the chain's, and no block and no epoch overflows. -/
structure Valid (s : Schedule) (period : U64) : Prop where
  last : s.lastEpoch.val ≤ s.block.val
  tempo : 1 ≤ s.tempo.val
  period_pos : 1 ≤ period.val
  period_le : period.val ≤ 100
  block : s.block.val + 1 + (period.val + 1) * 50400 < 2 ^ 64
  epoch : s.epoch.val + (U64.ofBool (s.epochDue (s.block + 1))).val + period.val < 2 ^ 64

variable {s : Schedule} {period : U64}

/-- Nothing is refused before the simulation. -/
theorem revealBlock_eq (h : s.Valid period) :
    ∃ first target : U64, first = s.block + 1 ∧ first.val = s.block.val + 1 ∧
      target.val = s.epoch.val + (U64.ofBool (s.epochDue first)).val + period.val ∧
      s.revealBlock period =
        (s.simulate target ((period.val + 1) * 50400 + 1) first).elim
          (.error (commitError "reveal block exceeds simulation bound")) .ok := by
  obtain ⟨-, htempo, hpos, hle, hblock, hepoch⟩ := h
  have hfirst : (s.block + 1).val = s.block.val + 1 :=
    add_val_of_lt (show s.block.val + 1 < 2 ^ 64 by omega)
  have hp : (period + 1).val = period.val + 1 :=
    add_val_of_lt (show period.val + 1 < 2 ^ 64 by omega)
  have hspan : ((period + 1) * maxTempo).val = (period.val + 1) * 50400 := by
    have hm : maxTempo.val = 50400 := rfl
    rw [mul_val_of_lt (by rw [hp, hm]; omega), hp, hm]
  have hseen : (s.epoch + U64.ofBool (s.epochDue (s.block + 1))).val =
      s.epoch.val + (U64.ofBool (s.epochDue (s.block + 1))).val := add_val_of_lt (by omega)
  have htarget : (s.epoch + U64.ofBool (s.epochDue (s.block + 1)) + period).val =
      s.epoch.val + (U64.ofBool (s.epochDue (s.block + 1))).val + period.val := by
    rw [add_val_of_lt (by rw [hseen]; exact hepoch), hseen]
  have hlast : (s.block + 1 + (period + 1) * maxTempo).val =
      s.block.val + 1 + (period.val + 1) * 50400 := by
    rw [add_val_of_lt (by rw [hfirst, hspan]; exact hblock), hfirst, hspan]
  have hok : ¬(s.tempo = 0 ∨ ¬(1 ≤ period ∧ period ≤ 100)) := by
    intro hor
    rcases hor with hz | hbad
    · rw [hz] at htempo
      exact absurd htempo (by decide)
    · exact hbad ⟨hpos, hle⟩
  refine ⟨s.block + 1, s.epoch + U64.ofBool (s.epochDue (s.block + 1)) + period, rfl, hfirst,
    htarget, ?_⟩
  rw [revealBlock, if_neg hok, checkedAdd_of hfirst]
  dsimp only
  rw [checkedAdd_of hseen, Option.bind_some, checkedAdd_of (by rw [htarget, hseen])]
  dsimp only
  rw [checkedAdd_of (by rw [hlast, hfirst, hspan])]
  dsimp only
  have hn : (s.block + 1 + (period + 1) * maxTempo).val - (s.block + 1).val + 1 =
      (period.val + 1) * 50400 + 1 := by
    rw [hlast, hfirst]
    omega
  rw [hn]
  cases s.simulate (s.epoch + U64.ofBool (s.epochDue (s.block + 1)) + period)
      ((period.val + 1) * 50400 + 1) (s.block + 1) with
  | none => rfl
  | some r => rfl

/-- **The simulation ends**, at a block in closed form: with `F` the first block on which an epoch
    falls, the first block ahead, the block itself or one behind, and one gap for each further
    epoch. -/
theorem revealBlock_spec (h : s.Valid period) : ∃ F r, F ≤ s.block.val + 1 + 50400 ∧
    IsLeast {b | s.block.val + 1 ≤ b ∧ s.Falls (s.block.val + 1) b} F ∧
    s.revealBlock period = .ok r ∧
    (s.epochDue (s.block + 1) = true → F = s.block.val + 1 ∧
      r.val = s.block.val + 1 + period.val * s.gap + s.lag) ∧
    (s.epochDue (s.block + 1) = false → 2 ≤ period.val →
      r.val = F + (period.val - 1) * s.gap + s.lag) ∧
    (s.epochDue (s.block + 1) = false → period.val = 1 →
      (s.Timed F ∨ 50400 < s.blocksSinceStep.val + (F - (s.block.val + 1))) ∧ r.val = F ∨
      ¬(s.Timed F ∨ 50400 < s.blocksSinceStep.val + (F - (s.block.val + 1))) ∧ r.val = F + 1) := by
  obtain ⟨first, target, hfirst, hfv, htarget, hreveal⟩ := revealBlock_eq h
  have hrun : ∀ r, s.simulate target ((period.val + 1) * 50400 + 1) first = some r →
      s.revealBlock period = .ok r := by
    intro r hr
    rw [hreveal, hr]
    rfl
  obtain ⟨F, hF, hle⟩ := exists_falls s (s.block.val + 1)
  rw [← hfirst]
  rw [← hfv] at hF hle ⊢
  have hgap : s.gap ≤ 50401 ∧ (s.lag = 0 ∨ s.gap = 50401 ∧ s.lag = 1) := by
    unfold gap lag
    split_ifs <;> omega
  have hblock := h.block
  have hpos := h.period_pos
  have hbound := h.period_le
  -- the last gap is simulated too
  have hfuel : ∀ q, q ≤ period.val → q * s.gap + s.lag ≤ q * 50400 + 101 := by
    intro q hq
    have := Nat.mul_le_mul_left q hgap.1
    omega
  have hlt : s.epoch.val < target.val := by omega
  have hFlt : F < 2 ^ 64 := by omega
  obtain ⟨block, bss, hb, hbss, heq, hdue⟩ := simulate_first
    (n := (period.val + 1) * 50400 + 1) hF (Nat.ne_of_lt hlt) (by omega) hFlt
  have hfirstF : first.val ≤ F := hF.1.1
  have hone : (block + 1).val = block.val + 1 :=
    add_val_of_lt (show block.val + 1 < 2 ^ 64 by omega)
  have hepoch : ((s.counted bss).rolled block).epoch.val = s.epoch.val + 1 := epoch_rolled hlt
  have hfresh : ((s.counted bss).rolled block).Fresh (block + 1) := fresh_rolled hone.symm
  -- the fall on `F`, when it is not seen with the target, and the epochs from there
  have hturn : ∀ k, (period.val + 1) * 50400 + 1 - (F - first.val) = k + 1 →
      (U64.saturatingAdd (s.counted bss).epoch
        (U64.ofBool ((s.counted bss).epochDue block))).val ≠ target.val →
      simulate target ((period.val + 1) * 50400 + 1) first s =
        simulate target k (block + 1) ((s.counted bss).rolled block) := by
    intro k hk hmiss
    rw [heq, hk, simulate_miss hmiss, advance_due hdue]
  obtain ⟨k, hk⟩ : ∃ k, (period.val + 1) * 50400 + 1 - (F - first.val) = k + 1 :=
    ⟨(period.val + 1) * 50400 - (F - first.val), by omega⟩
  have hseen := seen_le (s.counted bss) block
  have hsame : (s.counted bss).epoch.val = s.epoch.val := rfl
  by_cases hd : s.epochDue first = true
  · have hFfirst : F = first.val := by
      refine le_antisymm (hF.2 ⟨le_refl _, ?_⟩) hfirstF
      rcases epochDue_iff.mp hd with ht | hc
      · exact .inl ht
      · exact .inr (by omega)
    rw [hd] at htarget
    have htarget' : target.val = s.epoch.val + 1 + period.val := htarget
    have hq : target.val = ((s.counted bss).rolled block).epoch.val + (period.val - 1 + 1) := by
      omega
    obtain ⟨r, hr, hv⟩ := simulate_fresh (period.val - 1) (n := k) hfresh h.tempo hq (by
        have hf := hfuel period.val (le_refl _)
        show (period.val - 1 + 1) * s.gap + s.lag ≤ k
        rw [Nat.sub_add_cancel hpos]
        omega) (by omega)
    have hv' : r.val + 1 = (block + 1).val + (period.val - 1 + 1) * s.gap + s.lag := hv
    rw [Nat.sub_add_cancel hpos] at hv'
    refine ⟨F, r, hle, hF, hrun r ?_, fun _ => ⟨hFfirst, by omega⟩, fun hf => ?_, fun hf => ?_⟩
    · rw [hturn k hk (by omega)]
      exact hr
    · rw [hd] at hf
      cases hf
    · rw [hd] at hf
      cases hf
  · have hd' : s.epochDue first = false := Bool.not_eq_true _ ▸ hd
    rw [hd'] at htarget
    have htarget' : target.val = s.epoch.val + period.val := htarget
    by_cases htwo : 2 ≤ period.val
    · have hq : target.val = ((s.counted bss).rolled block).epoch.val + (period.val - 2 + 1) := by
        omega
      obtain ⟨r, hr, hv⟩ := simulate_fresh (period.val - 2) (n := k) hfresh h.tempo hq (by
          have hf := hfuel (period.val - 1) (by omega)
          show (period.val - 2 + 1) * s.gap + s.lag ≤ k
          rw [show period.val - 2 + 1 = period.val - 1 by omega]
          omega) (by omega)
      have hv' : r.val + 1 = (block + 1).val + (period.val - 2 + 1) * s.gap + s.lag := hv
      rw [show period.val - 2 + 1 = period.val - 1 by omega] at hv'
      refine ⟨F, r, hle, hF, hrun r ?_, fun hf => absurd hf hd, fun _ _ => by omega,
        fun _ hp => by omega⟩
      rw [hturn k hk (by omega)]
      exact hr
    · by_cases hsees : s.Timed F ∨ 50400 < s.blocksSinceStep.val + (F - first.val)
      · have hsees' : (s.counted bss).Timed block.val ∨ 50400 < bss.val := by
          rw [hb, hbss]
          exact hsees
        refine ⟨F, block, hle, hF, hrun block ?_, fun hf => absurd hf hd, fun _ hp => absurd hp htwo,
          fun _ _ => .inl ⟨hsees, hb⟩⟩
        rw [heq]
        refine simulate_hit (by omega) ?_
        rw [seen_due hsees' hlt]
        omega
      · have hsees' : ¬((s.counted bss).Timed block.val ∨ 50400 < bss.val) := by
          rw [hb, hbss]
          exact hsees
        -- an epoch of one block would have been due on the first block
        have htempo : ¬s.tempo.val ≤ 1 := by
          intro ht
          refine hd (epochDue_iff.mpr (.inl (.inr ?_)))
          have := h.last
          have := h.tempo
          omega
        refine ⟨F, block + 1, hle, hF, hrun (block + 1) ?_, fun hf => absurd hf hd,
          fun _ hp => absurd hp htwo, fun _ _ => .inr ⟨hsees, by omega⟩⟩
        have hq := seen_quiet hsees'
        rw [hturn k hk (by omega)]
        refine simulate_hit (by omega) ?_
        rw [seen_quiet, hepoch]
        · omega
        · rw [not_or, hfresh.timed_iff]
          refine ⟨?_, ?_⟩
          · show ¬s.tempo.val ≤ (block + 1).val - block.val
            omega
          · show ¬50400 < (0 : U64).val
            decide

/-! ## 6. How far ahead, and which block -/

/-- **The reveal block is always found**, at most a largest tempo and a block a period ahead. -/
theorem reveal_found (s : Schedule) (period : U64) (hlast : s.lastEpoch ≤ s.block)
    (htempo : 1 ≤ s.tempo) (hpos : 1 ≤ period) (hle : period ≤ 100)
    (hblock : s.block.val + 1 + (period.val + 1) * 50400 < 2 ^ 64)
    (hepoch : s.epoch.val + 1 + period.val < 2 ^ 64) :
    ∃ b, s.revealBlock period = .ok b ∧ s.block.val < b.val ∧
      b.val ≤ s.block.val + 2 + period.val * 50401 := by
  have hdue : (U64.ofBool (s.epochDue (s.block + 1))).val ≤ 1 := by
    cases s.epochDue (s.block + 1) <;> decide
  have hvalid : s.Valid period := ⟨hlast, htempo, hpos, hle, hblock, by omega⟩
  obtain ⟨F, r, hF, ⟨⟨hfirst, -⟩, -⟩, hr, hnow, hlater, hone⟩ := revealBlock_spec hvalid
  have hgap : s.gap ≤ 50401 := Nat.min_le_right _ _
  have hlag : s.lag ≤ 1 := by
    unfold lag
    split_ifs <;> omega
  have hp := hvalid.period_pos
  refine ⟨r, hr, ?_⟩
  cases hd : s.epochDue (s.block + 1) with
  | true =>
    obtain ⟨-, hv⟩ := hnow hd
    have := Nat.mul_le_mul_left period.val hgap
    omega
  | false =>
    by_cases htwo : 2 ≤ period.val
    · have hv := hlater hd htwo
      have := Nat.mul_le_mul_left (period.val - 1) hgap
      omega
    · rcases hone hd (by omega) with ⟨-, hv⟩ | ⟨-, hv⟩ <;> omega

/-- The schedule of the source's test. -/
def testSchedule : Schedule := ⟨722, 720, 0, 2, 360, 2⟩

theorem reveal_found_test : (720 : U64) ≤ 722 ∧ ∃ b, testSchedule.revealBlock 100 = .ok b ∧
    722 < b.val ∧ b.val ≤ 722 + 2 + 100 * 50401 :=
  ⟨by decide, reveal_found testSchedule 100 (by decide) (by decide) (by decide) (by decide)
    (by decide) (by decide)⟩

/-- **The reveal block in closed form**, for a tempo that the chain allows: the first fall and one
    tempo for each further epoch. -/
theorem reveal_closed_form (s : Schedule) (period : U64) (h : s.Valid period)
    (htempo : s.tempo.val ≤ 50400) :
    ∃ F, IsLeast {b | s.block.val + 1 ≤ b ∧
        ((0 < s.pendingEpoch.val ∧ s.pendingEpoch.val ≤ b) ∨ s.tempo.val ≤ b - s.lastEpoch.val ∨
          50400 < s.blocksSinceStep.val + (b - (s.block.val + 1)) + 1)} F ∧
      ∃ r, s.revealBlock period = .ok r ∧
        (s.epochDue (s.block + 1) = true →
          r.val = s.block.val + 1 + period.val * s.tempo.val) ∧
        (s.epochDue (s.block + 1) = false → 2 ≤ period.val →
          r.val = F + (period.val - 1) * s.tempo.val) ∧
        (s.epochDue (s.block + 1) = false → period.val = 1 →
          r.val = if (0 < s.pendingEpoch.val ∧ s.pendingEpoch.val ≤ F) ∨
              s.tempo.val ≤ F - s.lastEpoch.val ∨
              50400 < s.blocksSinceStep.val + (F - (s.block.val + 1)) then F else F + 1) := by
  obtain ⟨F, r, -, hF, hr, hnow, hlater, hone⟩ := revealBlock_spec h
  have hgap : s.gap = s.tempo.val := Nat.min_eq_left (by omega)
  have hlag : s.lag = 0 := if_pos (by omega)
  rw [hgap, hlag] at hnow hlater
  refine ⟨F, ?_, r, hr, fun hd => (hnow hd).2, hlater, fun hd hp => ?_⟩
  · simpa only [Falls, Timed, or_assoc] using hF
  · rcases hone hd hp with ⟨hsees, hv⟩ | ⟨hsees, hv⟩
    · rw [Timed, or_assoc] at hsees
      rw [if_pos hsees, hv]
    · rw [Timed, or_assoc] at hsees
      rw [if_neg hsees, hv]

example : (testSchedule.revealBlock 1).toOption = some 1080 := by decide +kernel

theorem testSchedule_valid : testSchedule.Valid 1 :=
  ⟨by decide, by decide, by decide, by decide, by decide, by decide⟩

theorem reveal_closed_form_test : testSchedule.Valid 1 ∧
    ∃ F, IsLeast {b | 723 ≤ b ∧ ((0 < 0 ∧ 0 ≤ b) ∨ 360 ≤ b - 720 ∨ 50400 < 2 + (b - 723) + 1)} F ∧
      ∃ r, testSchedule.revealBlock 1 = .ok r ∧
        (testSchedule.epochDue 723 = true → r.val = 723 + 1 * 360) ∧
        (testSchedule.epochDue 723 = false → 2 ≤ 1 → r.val = F + (1 - 1) * 360) ∧
        (testSchedule.epochDue 723 = false → 1 = 1 →
          r.val = if (0 < 0 ∧ 0 ≤ F) ∨ 360 ≤ F - 720 ∨ 50400 < 2 + (F - 723) then F else F + 1) :=
  ⟨testSchedule_valid, reveal_closed_form testSchedule 1 testSchedule_valid (by decide)⟩

end Schedule

end Sn46Validator.Validator
