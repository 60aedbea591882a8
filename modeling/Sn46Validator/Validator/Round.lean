/-
  File:      Validator/Round.lean
  Subject:   THE DRAND ROUND of a timelocked commit.

  * `CommitState`, `revealRound`, `encryptedWeights` -- `encrypted_weights`, once everything is
    fetched; the payload and its encryption are not modelled;
  * `expected`, `sealRound` -- when the reveal is expected, and the round by the source's formula in
    numbers;
  * `commit_round` -- **the commit of a head is sealed to that round**, and nothing overflows on the
    way.
-/
import Sn46Validator.Validator.Reveal

namespace Sn46Validator.Validator

open Library

/-! ## 1. The commit -/

def quicknetGenesis : U64 := 1692803367

/-- **What the chain stores for a commit**, at one head. -/
structure CommitState where
  protocol : U16
  schedule : Schedule
  period : U64

/-- **The round**: 12 s a block, three security blocks, 3 s a round. Words wrap where the source
    does not check. -/
def revealRound (s : Schedule) (period now : U64) : Except BurnError U64 := do
  let revealBlock ← s.revealBlock period
  match checkedAdd now ((revealBlock - s.block + 3) * 12) with
  | none => throw (commitError "reveal time overflow")
  | some target => return max (U64.saturatingSub target quicknetGenesis / 3) 1

/-- **`encrypted_weights`**, at the time `now`; `encrypt` encrypts the weights to a round. -/
def encryptedWeights (encrypt : U64 → Except BurnError Bytes) (c : CommitState) (now : U64) :
    Except BurnError (Bytes × U64) := do
  if c.protocol ≠ 4 then
    throw (commitError ("unsupported commit/reveal version " ++ toString c.protocol.val))
  let round ← revealRound c.schedule c.period now
  return (← encrypt round, round)

/-! ## 2. Its round -/

/-- The time at which the chain reaches the block `b`, three security blocks added, when it is at
    the head now. -/
def expected (s : Schedule) (now b : ℕ) : ℕ := now + 12 * (b - s.block.val) + 36

/-- The round for a time: 3 s a round from the genesis on, and 1 at least. -/
def sealRound (t : ℕ) : ℕ := max ((t - quicknetGenesis.val) / 3) 1

section

variable {s : Schedule} {period now : U64}

/-- **The reveal block is not far**: a period of the longest epochs. -/
theorem Schedule.Valid.reveals (h : s.Valid period) : ∃ b : U64, s.revealBlock period = .ok b ∧
    s.block.val < b.val ∧ b.val ≤ s.block.val + 2 + (period.val + 1) * 50401 := by
  obtain ⟨F, r, hF, ⟨⟨hfirst, -⟩, -⟩, hr, hnow, hlater, hone⟩ := Schedule.revealBlock_spec h
  have hgap : s.gap ≤ 50401 := Nat.min_le_right _ _
  have hlag : s.lag ≤ 1 := by
    unfold Schedule.lag
    split_ifs <;> omega
  have hp := h.period_pos
  have hmul : ∀ n, n * s.gap ≤ n * 50401 := fun n => Nat.mul_le_mul_left n hgap
  refine ⟨r, hr, ?_⟩
  cases hd : s.epochDue (s.block + 1) with
  | true =>
    obtain ⟨-, hv⟩ := hnow hd
    have := hmul period.val
    omega
  | false =>
    by_cases htwo : 2 ≤ period.val
    · have hv := hlater hd htwo
      have := hmul (period.val - 1)
      omega
    · rcases hone hd (by omega) with ⟨-, hv⟩ | ⟨-, hv⟩ <;> omega

/-- The round in numbers. -/
theorem revealRound_eq {b : U64} (hb : s.revealBlock period = .ok b) (hlt : s.block.val < b.val)
    (hfit : expected s now.val b.val < 2 ^ 64) : ∃ round : U64, revealRound s period now = .ok round ∧
      round.val = sealRound (expected s now.val b.val) := by
  unfold sealRound expected at *
  have hsub : (b - s.block).val = b.val - s.block.val := by
    rw [Fin.sub_val_of_le (Fin.le_def.mpr (Nat.le_of_lt hlt))]
  have hthree : (3 : U64).val = 3 := rfl
  have htwelve : (12 : U64).val = 12 := rfl
  have hadd : (b - s.block + 3).val = b.val - s.block.val + 3 := by
    rw [add_val_of_lt (by omega), hsub, hthree]
  have hmul : ((b - s.block + 3) * 12).val = (b.val - s.block.val + 3) * 12 := by
    rw [mul_val_of_lt (by rw [hadd, htwelve]; omega), hadd, htwelve]
  obtain ⟨target, ht⟩ : ∃ t : U64, t.val = now.val + 12 * (b.val - s.block.val) + 36 :=
    ⟨⟨_, hfit⟩, rfl⟩
  have htarget : checkedAdd now ((b - s.block + 3) * 12) = some target :=
    checkedAdd_of (by rw [hmul, ht]; omega)
  refine ⟨max (U64.saturatingSub target quicknetGenesis / 3) 1, ?_, ?_⟩
  · simp only [revealRound, hb, htarget, bind, Except.bind]
    rfl
  · have hquot : (U64.saturatingSub target quicknetGenesis / 3).val =
        (target.val - quicknetGenesis.val) / 3 := rfl
    have hmax : ∀ x y : U64, (max x y).val = max x.val y.val := fun x y => by
      rcases Fin.le_total x y with hle | hle
      · rw [max_eq_right hle, max_eq_right (Fin.le_def.mp hle)]
      · rw [max_eq_left hle, max_eq_left (Fin.le_def.mp hle)]
    rw [hmax, hquot, ht]
    rfl

/-- **A commit can always be made** on a chain of version 4, for every schedule that the simulation is
    meant for and a clock that is behind the end of time by the longest wait: the reveal block is found
    ahead of the head, nothing overflows on the way to the round, and the commit is what the
    encryption gives to the round of the time at which the chain is expected three blocks past the
    reveal block. -/
theorem commit_round (encrypt : U64 → Except BurnError Bytes) (c : CommitState)
    (hprotocol : c.protocol = 4) (h : c.schedule.Valid c.period)
    (hnow : now.val + 12 * (2 + (c.period.val + 1) * 50401) + 36 < 2 ^ 64) :
    ∃ b round : U64, c.schedule.revealBlock c.period = .ok b ∧ c.schedule.block.val < b.val ∧
      encryptedWeights encrypt c now = (encrypt round).map (·, round) ∧
      round.val = sealRound (expected c.schedule now.val b.val) := by
  obtain ⟨b, hb, hlt, hle⟩ := h.reveals
  have hfit : expected c.schedule now.val b.val < 2 ^ 64 := by
    unfold expected
    omega
  obtain ⟨round, hround, hval⟩ := revealRound_eq hb hlt hfit
  refine ⟨b, round, hb, hlt, ?_, hval⟩
  simp only [encryptedWeights, hprotocol, hround, ne_eq, not_true_eq_false, if_false, bind,
    Except.bind, pure, Except.pure]
  cases encrypt round <;> rfl

end

theorem commit_round_test : ∃ b round : U64, Schedule.testSchedule.revealBlock 1 = .ok b ∧
    722 < b.val ∧ encryptedWeights (fun _ => .ok [0]) ⟨4, Schedule.testSchedule, 1⟩ 1790000000 =
      .ok ([0], round) := by
  obtain ⟨b, round, hb, hlt, hround, -⟩ := @commit_round 1790000000 (fun _ => .ok [0])
    ⟨4, Schedule.testSchedule, 1⟩ rfl
    ⟨by decide, by decide, by decide, by decide, by decide, by decide⟩ (by decide)
  exact ⟨b, round, hb, hlt, hround⟩

end Sn46Validator.Validator
