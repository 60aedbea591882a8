/-
  File:      Update/Waiting.lean
  Subject:   THE WAITS OF THE UPDATER: for the lock, for `--version`, and for the health period.

  Each is a loop that looks, reads the clock and sleeps. Times are in milliseconds; `clock i` is the
  reading after the look `i`, and a sleep lasts at least as long as it was asked to.

  * `checkHealth` -- **`restart_and_check`** after the restart;
  * `health_checked` -- **the health check ends**, it passes only when the period is over, and its
    answer is the one a run of Update/Run.lean takes from the polls it saw;
  * `waitForLock`, `waitForVersion` -- the other two; `waits_end` -- **they end**, and give up only
    when nothing was there at any look;
  * `lock_heard`, `version_heard` -- what they give is what a run may hear.
-/
import Sn46Validator.Library.Clock
import Sn46Validator.Update.Run

namespace Sn46Validator.Update

open Library

/-! ## 1. The health period -/

/-- The pause between two polls of the service. -/
def healthPoll : ℕ := 2000

/-- A poll that ends the health check. -/
def fault : Except String Unit → Option (Except String Unit)
  | .ok _ => none
  | .error why => some (.error why)

/-- **`restart_and_check`** after the restart, which was over at `start`: `baseline` is the report
    before the polls, `shows i` that of the poll `i`. -/
def checkHealth (health start : ℕ) (baseline : Except String String)
    (shows : ℕ → Except String String) (clock : ℕ → ℕ) (fuel : ℕ) : Option (Except String Unit) :=
  match unitState baseline with
  | .error why => some (.error why)
  | .ok (_, restarts) =>
    waitUntil (fun i => fault (steady restarts (shows i))) (fun i => start + health ≤ clock i)
      (.ok ()) fuel 0

theorem fault_none {r : Except String Unit} (h : fault r = none) : r = .ok () := by
  cases r with
  | ok u => rfl
  | error why => cases h

theorem fault_some {r r' : Except String Unit} (h : fault r = some r') : r = r' := by
  cases r with
  | ok u => cases h
  | error why => exact Option.some.inj h

/-- The polls of a health period that were all steady but the last. -/
theorem watch_last {restarts : U64} {shows : ℕ → Except String String} {k : ℕ}
    (h : ∀ j < k, steady restarts (shows j) = .ok ()) :
    watch restarts ((List.range (k + 1)).map shows) = steady restarts (shows k) := by
  induction k generalizing shows with
  | zero =>
    show (steady restarts (shows 0) >>= fun _ => pure ()) = _
    cases steady restarts (shows 0) <;> rfl
  | succ k ih =>
    rw [List.range_succ_eq_map, List.map_cons, watch, h 0 (Nat.succ_pos k), List.map_map]
    exact @ih (shows ∘ Nat.succ) fun j hj => h (j + 1) (Nat.succ_lt_succ hj)

/-- **The health check ends**, after one poll for every two seconds and one more at most. Its answer is
    the one of a run that saw these polls, and where it passes the health period is over. -/
theorem health_checked {health start : ℕ} {baseline : Except String String}
    {shows : ℕ → Except String String} {clock : ℕ → ℕ} (hstart : start ≤ clock 0)
    (hsleep : ∀ i, clock i + min healthPoll (start + health - clock i) ≤ clock (i + 1)) :
    ∃ k ≤ pauses healthPoll health, ∃ polls : Polls, polls.baseline = baseline ∧
      polls.first :: polls.later = (List.range (k + 1)).map shows ∧
      (∀ fuel, pauses healthPoll health < fuel →
        checkHealth health start baseline shows clock fuel = some polls.check) ∧
      (polls.check = .ok () → start + health ≤ clock k) := by
  unfold checkHealth
  cases hb : unitState baseline with
  | error why =>
    refine ⟨0, Nat.zero_le _, ⟨baseline, shows 0, []⟩, rfl, rfl, fun fuel _ => ?_, fun h => ?_⟩
    · dsimp only
      rw [Polls.check, hb]
      rfl
    · rw [Polls.check, hb] at h
      cases h
  | ok state =>
    obtain ⟨active, restarts⟩ := state
    dsimp only
    have hpast : start + health ≤ clock (pauses healthPoll health) :=
      sleeps_past (by decide) (by omega) hsleep
    obtain ⟨k, hle, r, hall, hk, hans⟩ := @waitUntil_ends _
      (fun i => fault (steady restarts (shows i))) (fun i => decide (start + health ≤ clock i))
      (.ok ()) _ (decide_eq_true hpast)
    have hwatch := watch_last (k := k) fun j hj => fault_none (hall j hj).1
    have hcheck : Polls.check ⟨baseline, shows 0, (List.range k).map (shows ∘ Nat.succ)⟩ =
        steady restarts (shows k) := by
      rw [Polls.check, hb, ← hwatch, List.range_succ_eq_map, List.map_cons, List.map_map]
      rfl
    refine ⟨k, hle, ⟨baseline, shows 0, (List.range k).map (shows ∘ Nat.succ)⟩, rfl, ?_, ?_, ?_⟩
    · rw [List.range_succ_eq_map, List.map_cons, List.map_map]
    · intro fuel hf
      rw [hcheck, hans fuel hf]
      rcases hk with hk | ⟨hk, -, rfl⟩
      · rw [fault_some hk]
      · rw [fault_none hk]
    · intro hok
      rw [hcheck] at hok
      rcases hk with hk | ⟨-, hk, -⟩
      · rw [hok] at hk
        cases hk
      · exact of_decide_eq_true hk

/-- A service that stays active through a health period of thirty seconds. -/
theorem health_checked_test :
    ∃ k ≤ 15, ∃ polls : Polls, polls.first :: polls.later =
      (List.range (k + 1)).map fun _ => .ok "ActiveState=active\nNRestarts=0\n" := by
  obtain ⟨k, hk, polls, -, hp, -⟩ := @health_checked 30000 0
    (.ok "ActiveState=active\nNRestarts=0\n")
    (fun _ => .ok "ActiveState=active\nNRestarts=0\n") (fun i => 2000 * i)
    (by decide) (fun i => by simp only [healthPoll]; omega)
  exact ⟨k, hk, polls, hp⟩

/-! ## 2. The lock and the version -/

/-- The pause and the patience of the wait for the lock. -/
def lockPause : ℕ := 50

def lockWait : ℕ := 3000

/-- A try that ends the wait. -/
def decided : TryLock → Option TryLock
  | .wouldBlock => none
  | .acquired => some .acquired
  | .error e => some (.error e)

/-- **The wait for the lock** from `start` on; `tries i` is what the try `i` gives. -/
def waitForLock (start : ℕ) (tries : ℕ → TryLock) (clock : ℕ → ℕ) (fuel : ℕ) : Option TryLock :=
  waitUntil (fun i => decided (tries i)) (fun i => start + lockWait ≤ clock i) .wouldBlock fuel 0

/-- How a process ended: whether with success, what its status reads, and what it printed. -/
structure Exited where
  success : Bool
  status : String
  out : String

/-- The pause and the patience of the wait for `--version`. -/
def versionPause : ℕ := 20

def versionTimeout : ℕ := 10000

/-- What `--version` printed. -/
def Exited.version (exited : Exited) : Except UpdateError String :=
  if exited.success then .ok (String.ofList (trim exited.out.toList))
  else .error (.binary ("--version exited with " ++ exited.status))

/-- A look that ends the wait. -/
def ended : Except IoError (Option Exited) → Option (Except UpdateError String)
  | .ok none => none
  | .ok (some exited) => some exited.version
  | .error e => some (.error (.io e))

/-- **`binary_version`** from `start` on; `looks i` is whether the process has ended. -/
def waitForVersion (start : ℕ) (looks : ℕ → Except IoError (Option Exited)) (clock : ℕ → ℕ)
    (fuel : ℕ) : Option (Except UpdateError String) :=
  waitUntil (fun i => ended (looks i)) (fun i => start + versionTimeout ≤ clock i)
    (.error (.binary "--version did not finish")) fuel 0

theorem decided_none {x : TryLock} (h : decided x = none) : x = .wouldBlock := by
  cases x with
  | wouldBlock => rfl
  | acquired => cases h
  | error e => cases h

theorem decided_some {x y : TryLock} (h : decided x = some y) : y = x ∧ y ≠ .wouldBlock := by
  cases x with
  | wouldBlock => cases h
  | acquired | error e =>
    obtain rfl := Option.some.inj h
    exact ⟨rfl, by simp⟩

theorem ended_none {x : Except IoError (Option Exited)} (h : ended x = none) : x = .ok none := by
  cases x with
  | error e => cases h
  | ok o =>
    cases o with
    | none => rfl
    | some exited => cases h

theorem ended_some {x : Except IoError (Option Exited)} {r : Except UpdateError String}
    (h : ended x = some r) : (∃ exited, x = .ok (some exited) ∧ r = exited.version) ∨
      ∃ e, x = .error e ∧ r = .error (.io e) := by
  cases x with
  | error e => exact .inr ⟨e, rfl, (Option.some.inj h).symm⟩
  | ok o =>
    cases o with
    | none => cases h
    | some exited => exact .inl ⟨exited, rfl, (Option.some.inj h).symm⟩

/-- **The waits end**: the one for the lock after 62 tries at most, the one for `--version` after 502
    looks. Each gives up only when there was nothing at any look, and its time is over. -/
theorem waits_end {start : ℕ} {tries : ℕ → TryLock} {looks : ℕ → Except IoError (Option Exited)}
    {clock clock' : ℕ → ℕ} (hstart : start ≤ clock 0) (hstart' : start ≤ clock' 0)
    (hsleep : ∀ i, clock i + lockPause ≤ clock (i + 1))
    (hsleep' : ∀ i, clock' i + versionPause ≤ clock' (i + 1)) :
    (∃ k ≤ 61, ∃ x, (∀ fuel, 62 ≤ fuel → waitForLock start tries clock fuel = some x) ∧
      x = tries k ∧ (∀ j < k, tries j = .wouldBlock) ∧
      (x = .wouldBlock → start + lockWait ≤ clock k)) ∧
    ∃ k ≤ 501, ∃ r, (∀ fuel, 502 ≤ fuel → waitForVersion start looks clock' fuel = some r) ∧
      (∀ j < k, looks j = .ok none) ∧
      (looks k = .ok none ∧ start + versionTimeout ≤ clock' k ∧
          r = .error (.binary "--version did not finish") ∨
        (∃ exited, looks k = .ok (some exited) ∧ r = exited.version) ∨
        ∃ e, looks k = .error e ∧ r = .error (.io e)) := by
  constructor
  · have hpast : start + lockWait ≤ clock (pauses lockPause lockWait) :=
      sleeps_past (by decide) (by omega) fun i => by have := hsleep i; omega
    obtain ⟨k, hle, x, hall, hk, hans⟩ := @waitUntil_ends _ (fun i => decided (tries i))
      (fun i => decide (start + lockWait ≤ clock i)) .wouldBlock _ (decide_eq_true hpast)
    have hbefore : ∀ j < k, tries j = .wouldBlock := fun j hj => decided_none (hall j hj).1
    refine ⟨k, hle.trans (by decide), x,
      fun fuel hf => hans fuel (Nat.lt_of_lt_of_le (by decide) hf), ?_⟩
    rcases hk with hk | ⟨hk, hlate, rfl⟩
    · obtain ⟨rfl, hne⟩ := decided_some hk
      exact ⟨rfl, hbefore, fun h => absurd h hne⟩
    · exact ⟨(decided_none hk).symm, hbefore, fun _ => of_decide_eq_true hlate⟩
  · have hpast : start + versionTimeout ≤ clock' (pauses versionPause versionTimeout) :=
      sleeps_past (by decide) (by omega) fun i => by have := hsleep' i; omega
    obtain ⟨k, hle, r, hall, hk, hans⟩ := @waitUntil_ends _ (fun i => ended (looks i))
      (fun i => decide (start + versionTimeout ≤ clock' i))
      (.error (.binary "--version did not finish")) _ (decide_eq_true hpast)
    refine ⟨k, hle.trans (by decide), r,
      fun fuel hf => hans fuel (Nat.lt_of_lt_of_le (by decide) hf),
      fun j hj => ended_none (hall j hj).1, ?_⟩
    rcases hk with hk | ⟨hk, hlate, rfl⟩
    · exact .inr (ended_some hk)
    · exact .inl ⟨ended_none hk, of_decide_eq_true hlate, rfl⟩

/-- A lock that is never free, and a binary that never ends. -/
theorem waits_end_test :
    waitForLock 0 (fun _ => .wouldBlock) (fun i => 50 * i) 62 = some .wouldBlock := by
  obtain ⟨⟨k, -, x, hx, rfl, -⟩, -⟩ := @waits_end 0 (fun _ => .wouldBlock)
    (fun _ => .ok none) (fun i => 50 * i) (fun i => 20 * i) (by decide) (by decide)
    (fun i => by simp only [lockPause]; omega) (fun i => by simp only [versionPause]; omega)
  exact hx 62 (by decide)

/-! ## 3. What a run hears of them -/

section

variable {reports : Bytes → Option String} {faults : Bool} {w : Host} {start fuel : ℕ}
  {clock : ℕ → ℕ}

/-- **What the wait for the lock gives is an answer of `tryLock`**, of a host that works where the lock
    gets free in time. -/
theorem lock_heard {tries : ℕ → TryLock} {x : TryLock}
    (hfree : faults = false → ∃ k, tries k = .acquired ∧
      ∀ j < k, tries j = .wouldBlock ∧ clock j < start + lockWait)
    (h : waitForLock start tries clock fuel = some x) :
    (machine reports faults).act w .tryLock x w := by
  refine ⟨rfl, fun hf => ?_⟩
  obtain ⟨n, hn, hbefore⟩ := hfree hf
  obtain ⟨k, -, -, hall, hk⟩ := waitUntil_iff.mp h
  rcases Nat.lt_trichotomy k n with hlt | rfl | hlt
  · obtain ⟨hblock, hearly⟩ := hbefore k hlt
    rcases hk with hk | ⟨-, hlate, -⟩
    · rw [hblock] at hk
      cases hk
    · exact absurd (of_decide_eq_true hlate) (Nat.not_le.mpr hearly)
  · rw [hn] at hk
    rcases hk with hk | ⟨hk, -⟩
    · exact (Option.some.inj hk).symm
    · cases hk
  · have hnone := (hall n (Nat.zero_le n) hlt).1
    rw [hn] at hnone
    cases hnone

/-- **What the wait for `--version` gives is an answer of `version`**, where the looks are at a process
    that runs the staged binary. -/
theorem version_heard {looks : ℕ → Except IoError (Option Exited)} {b : Bytes}
    {r : Except UpdateError String} (hb : w.files .staged = some b)
    (hprints : ∀ i exited, looks i = .ok (some exited) → exited.success = true →
      reports b = some (String.ofList (trim exited.out.toList)))
    (hlooks : faults = false → ∀ i e, looks i ≠ .error e)
    (h : waitForVersion start looks clock fuel = some r) :
    (machine reports faults).act w .version r w := by
  obtain ⟨k, -, -, -, hk⟩ := waitUntil_iff.mp h
  rcases hk with hk | ⟨-, -, rfl⟩
  · obtain ⟨exited, hx, rfl⟩ | ⟨e, hx, rfl⟩ := ended_some hk
    · unfold Exited.version
      split_ifs with hs
      · exact ⟨rfl, b, hb, hprints k exited hx hs⟩
      · exact ⟨rfl, .inl ⟨_, rfl⟩⟩
    · refine ⟨rfl, .inr ⟨?_, e, rfl⟩⟩
      cases hf : faults with
      | true => rfl
      | false => exact absurd hx (hlooks hf k e)
  · exact ⟨rfl, .inl ⟨_, rfl⟩⟩

end

end Sn46Validator.Update
