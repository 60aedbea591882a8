/-
  File:      Library/Clock.lean
  Subject:   READINGS OF A CLOCK: a sequence of moments of which no two neighbours are far apart.

  * `Beats gap t` -- each moment of `t` comes at most `gap` after the one before it;
  * `Beats.meets` -- **a stretch as long as the gap is met**: some moment falls into it;
  * `next day offset x` -- the first moment from `x` on that lies `offset` into its day;
  * `waitUntil` -- a loop that looks, and sleeps, until it sees an answer or its deadline is past;
    `waitUntil_iff`, `waitUntil_total` -- what it answers, and when it surely has.
-/
import Mathlib.Algebra.Order.Ring.Nat
import Mathlib.Order.Basic
import Mathlib.Tactic.Common

namespace Library

/-! ## 1. Beats -/

/-- **Each moment comes at most `gap` after the one before it.** -/
def Beats (gap : ℕ) (t : ℕ → ℕ) : Prop := ∀ n, t (n + 1) ≤ t n + gap

/-- **A stretch as long as the gap is met.** Where the moments start before `s` and get to it, the
    first that is not before `s` is less than `gap` after it. -/
theorem Beats.meets {gap : ℕ} {t : ℕ → ℕ} (h : Beats gap t) (hgap : 0 < gap) {s N : ℕ}
    (h₀ : t 0 ≤ s) (hN : s ≤ t N) : ∃ n ≤ N, s ≤ t n ∧ t n < s + gap := by
  induction N with
  | zero => exact ⟨0, Nat.le_refl 0, hN, by omega⟩
  | succ N ih =>
    by_cases hle : s ≤ t N
    · obtain ⟨n, hn, hs⟩ := ih hle
      exact ⟨n, Nat.le_succ_of_le hn, hs⟩
    · have hstep := h N
      exact ⟨N + 1, Nat.le_refl _, hN, by omega⟩

/-- A wider gap. -/
theorem Beats.mono {gap gap' : ℕ} {t : ℕ → ℕ} (h : Beats gap t) (hle : gap ≤ gap') :
    Beats gap' t := fun n => (h n).trans (Nat.add_le_add_left hle _)

/-! ## 2. The time of the day -/

/-- **The first moment** from `x` on that lies `offset` into its day. -/
def next (day offset x : ℕ) : ℕ := x + (offset + day - x % day) % day

section

variable {day offset : ℕ} (x : ℕ)

theorem le_next : x ≤ next day offset x := Nat.le_add_right _ _

/-- It comes within a day. -/
theorem next_lt (hday : 0 < day) : next day offset x < x + day :=
  Nat.add_lt_add_left (Nat.mod_lt _ hday) x

/-- It lies `offset` into its day. -/
theorem next_mod (h : offset < day) : next day offset x % day = offset := by
  have hday : 0 < day := Nat.zero_lt_of_lt h
  have hx : x % day ≤ offset + day := (Nat.mod_lt x hday).le.trans (Nat.le_add_left _ _)
  calc next day offset x % day
      = (x % day + (offset + day - x % day)) % day := by
        rw [next, Nat.add_mod_mod, Nat.mod_add_mod]
    _ = (offset + day) % day := by rw [Nat.add_sub_cancel' hx]
    _ = offset := by rw [Nat.add_mod_right, Nat.mod_eq_of_lt h]

end

/-! ## 3. Waiting until a deadline -/

section

variable {β : Type}

/-- **Look, and sleep, until there is an answer or the deadline is past.** `seen i` is the answer that
    the look `i` gives, if any, and `late i` whether the deadline is past after it. -/
def waitUntil (seen : ℕ → Option β) (late : ℕ → Bool) (onLate : β) : ℕ → ℕ → Option β
  | 0, _ => none
  | fuel + 1, i =>
    match seen i with
    | some b => some b
    | none => if late i then some onLate else waitUntil seen late onLate fuel (i + 1)

variable {seen : ℕ → Option β} {late : ℕ → Bool} {onLate b : β}

/-- **The answer comes from the first look that ends the wait.** -/
theorem waitUntil_iff {fuel i : ℕ} : waitUntil seen late onLate fuel i = some b ↔
    ∃ k, i ≤ k ∧ k < i + fuel ∧ (∀ j, i ≤ j → j < k → seen j = none ∧ late j = false) ∧
      (seen k = some b ∨ seen k = none ∧ late k = true ∧ b = onLate) := by
  induction fuel generalizing i with
  | zero =>
    rw [waitUntil]
    refine ⟨nofun, fun h => ?_⟩
    obtain ⟨k, hle, hlt, -⟩ := h
    omega
  | succ fuel ih =>
    rw [waitUntil]
    cases hs : seen i with
    | some b' =>
      dsimp only
      constructor
      · intro h
        obtain rfl := Option.some.inj h
        exact ⟨i, Nat.le_refl i, by omega, fun j hle hlt => absurd hlt (Nat.not_lt.mpr hle),
          .inl hs⟩
      · intro h
        obtain ⟨k, hle, -, hall, hk⟩ := h
        obtain rfl : k = i := by
          by_contra hne
          exact absurd ((hall i (Nat.le_refl i) (by omega)).1.symm.trans hs) (by simp)
        rw [hs] at hk
        simpa using hk
    | none =>
      dsimp only
      cases hl : late i with
      | true =>
        rw [if_pos rfl]
        constructor
        · intro h
          obtain rfl := Option.some.inj h
          exact ⟨i, Nat.le_refl i, by omega, fun j hle hlt => absurd hlt (Nat.not_lt.mpr hle),
            .inr ⟨hs, hl, rfl⟩⟩
        · intro h
          obtain ⟨k, hle, -, hall, hk⟩ := h
          obtain rfl : k = i := by
            by_contra hne
            exact absurd ((hall i (Nat.le_refl i) (by omega)).2.symm.trans hl) (by simp)
          rw [hs] at hk
          obtain hk | ⟨-, -, rfl⟩ := hk
          · cases hk
          · rfl
      | false =>
        rw [if_neg (by simp), ih]
        constructor
        · intro h
          obtain ⟨k, hle, hlt, hall, hk⟩ := h
          refine ⟨k, by omega, by omega, fun j hij hjk => ?_, hk⟩
          rcases Nat.eq_or_lt_of_le hij with rfl | hij
          · exact ⟨hs, hl⟩
          · exact hall j hij hjk
        · intro h
          obtain ⟨k, hle, hlt, hall, hk⟩ := h
          have hne : k ≠ i := by
            intro he
            subst he
            rw [hs, hl] at hk
            simp at hk
          exact ⟨k, by omega, by omega, fun j hij hjk => hall j (by omega) hjk, hk⟩

/-- The wait is over once the deadline is past. -/
theorem waitUntil_total {fuel i k : ℕ} (hle : i ≤ k) (hlt : k < i + fuel) (hk : late k = true) :
    ∃ b, waitUntil seen late onLate fuel i = some b := by
  induction fuel generalizing i with
  | zero => omega
  | succ fuel ih =>
    rw [waitUntil]
    cases seen i with
    | some b => exact ⟨b, rfl⟩
    | none =>
      dsimp only
      split_ifs with hl
      · exact ⟨onLate, rfl⟩
      · have hne : i ≠ k := fun he => hl (he ▸ hk)
        exact ih (by omega) (by omega)

/-- **A wait ends** by the first look after which the deadline is past, with the answer of the look
    that ends it. -/
theorem waitUntil_ends {n : ℕ} (hn : late n = true) :
    ∃ k ≤ n, ∃ b, (∀ j < k, seen j = none ∧ late j = false) ∧
      (seen k = some b ∨ seen k = none ∧ late k = true ∧ b = onLate) ∧
      ∀ fuel, n < fuel → waitUntil seen late onLate fuel 0 = some b := by
  obtain ⟨b, hb⟩ : ∃ b, waitUntil seen late onLate (n + 1) 0 = some b :=
    waitUntil_total (Nat.zero_le n) (by omega) hn
  obtain ⟨k, -, hlt, hall, hk⟩ := waitUntil_iff.mp hb
  have hle : k ≤ n := by omega
  refine ⟨k, hle, b, fun j hj => hall j (Nat.zero_le j) hj, hk, fun fuel hf => ?_⟩
  exact waitUntil_iff.mpr ⟨k, Nat.zero_le k, by omega, hall, hk⟩

/-- **Sleeps add up**: each look comes at least `pause` after the one before it, or at the deadline,
    so the deadline is past after as many looks as the time holds pauses. -/
theorem sleeps_late {pause deadline : ℕ} {clock : ℕ → ℕ}
    (h : ∀ i, clock i + min pause (deadline - clock i) ≤ clock (i + 1)) (i : ℕ) :
    min deadline (clock 0 + pause * i) ≤ clock i := by
  induction i with
  | zero => simp
  | succ i ih =>
    have hstep := h i
    rw [Nat.mul_succ]
    omega

/-- How many pauses cover a time to wait. -/
def pauses (pause wait : ℕ) : ℕ := (wait + pause - 1) / pause

/-- **The deadline is past** after as many looks as pauses cover the time to wait, and one more. -/
theorem sleeps_past {pause wait deadline : ℕ} {clock : ℕ → ℕ} (hpause : 0 < pause)
    (hwait : deadline ≤ clock 0 + wait)
    (h : ∀ i, clock i + min pause (deadline - clock i) ≤ clock (i + 1)) :
    deadline ≤ clock (pauses pause wait) := by
  have hlate := sleeps_late h (pauses pause wait)
  have hmul : wait + pause - 1 < pause * (pauses pause wait + 1) :=
    Nat.lt_mul_div_succ _ hpause
  rw [Nat.mul_succ] at hmul
  omega

end

end Library
