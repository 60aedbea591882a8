/-
  File:      Update/Timer.lean
  Subject:   THE UPDATE TIMER: runs at most so far apart reach every release in its time.

  The systemd timer starts a run every quarter of an hour, with a random delay. A release is tried by
  a run only after its apply-after time and this host's spread, and inside the maintenance window.

  * `Window.length`, `contains_of_open` -- a window stays open for as long as it is long;
  * `dueMs_bounds` -- when a release is due;
  * `release_reached` -- **a window longer than the timer's gap never starves a release**: within a
    day of its being due some run finds nothing in its way, and no run before that time does.
-/
import Sn46Validator.Library.Clock
import Sn46Validator.Update.Ordinary
import Sn46Validator.Update.Window

namespace Sn46Validator.Update

open Library

/-! ## 1. An open window -/

/-- The minutes for which a window is open. -/
def Window.length (window : Window) : ℕ := (window.stop + 1440 - window.start) % 1440

/-- A window of the day: its ends are minutes of the day, and differ. -/
structure Window.Proper (window : Window) : Prop where
  start_lt : window.start < 1440
  stop_lt : window.stop < 1440
  ne : window.start ≠ window.stop

/-- **Every accepted window is one of the day.** -/
theorem parse_proper {prints : Char → Bool} {text : String} {window : Window}
    (h : Window.parse prints text = .ok window) : window.Proper := by
  obtain ⟨hs, he, hne⟩ := (parse_iff.mp h).bounds
  exact ⟨hs, he, hne⟩

/-- **A window stays open for as long as it is long**, from any moment at which it opens. -/
theorem contains_of_open {window : Window} (h : window.Proper) {s : ℕ} {now : U64}
    (hs : s % 86400000 = window.start * 60000) (hle : s ≤ now.val)
    (hlt : now.val < s + window.length * 60000) : window.contains now = true := by
  obtain ⟨hstart, hstop, hne⟩ := h
  unfold Window.length at hlt
  unfold Window.contains
  dsimp only
  -- the minute is `start`, and less than the length of the window further on
  by_cases hwrap : window.start < window.stop
  · rw [if_pos hwrap, Bool.and_eq_true, decide_eq_true_eq, decide_eq_true_eq]
    omega
  · rw [if_neg hwrap, Bool.or_eq_true, decide_eq_true_eq, decide_eq_true_eq]
    omega

/-! ## 2. When a release is due -/

variable {crypto : Crypto}

/-- The same call at another time. -/
def Call.at (c : Call crypto) (now : U64) : Call crypto := { c with nowMs := now }

/-- **When a release is due**: from its apply-after time on, and at most the spread later. -/
theorem dueMs_bounds (c : Call crypto) (m : Manifest) :
    m.applyAfterMs ≤ dueMs c m ∧
      (dueMs c m).val ≤ m.applyAfterMs.val + c.config.spreadS.val * 1000 := by
  have hlt := spreadSeconds_lt crypto c.config.hostId c.config.spreadS
  have hm := m.applyAfterMs.isLt
  have hthousand : (1000 : U64).val = 1000 := rfl
  have hval : (dueMs c m).val = min (m.applyAfterMs.val +
      min ((spreadSeconds crypto c.config.hostId c.config.spreadS).val * 1000) (2 ^ 64 - 1))
      (2 ^ 64 - 1) := by
    rw [dueMs, U64.saturatingAdd, U64.saturatingMul, U64.saturate_val, U64.saturate_val, hthousand]
  rw [Fin.le_def, hval]
  omega

/-- A run before the release is due leaves it. -/
theorem notYet_early {c : Call crypto} {m : Manifest} (hnow : c.config.now = false)
    (h : c.nowMs < dueMs c m) : notYet c m = some (.waiting (dueMs c m)) := by
  rw [notYet, if_neg (by rw [hnow]; simp), if_pos h]

/-- A run once it is due, and inside the window, has nothing in its way. -/
theorem notYet_of_due {c : Call crypto} {m : Manifest} (h : dueMs c m ≤ c.nowMs)
    (hw : ∀ window, c.config.window = some window → window.contains c.nowMs = true) :
    notYet c m = none := by
  unfold notYet
  split_ifs with hnow hlt hout
  · rfl
  · exact absurd hlt (Fin.not_lt.mpr h)
  · cases hsome : c.config.window with
    | none =>
      rw [hsome] at hout
      cases hout
    | some window =>
      rw [hsome, Option.any_some, hw window hsome] at hout
      cases hout
  · rfl

/-! ## 3. The runs of a timer -/

/-- **A release is not starved by its window.** Let runs come at most `gap` apart, from before the
    apply-after time of the release until a day after its spread, with a window, if any, that is at
    least as long as the gap. Then no run before the apply-after time tries the release; and some run
    within the spread, a day and the gap of that time tries it, whatever state the host is in that
    is ready for it. -/
theorem release_reached {c : Call crypto} {m : Manifest} {gap N : ℕ} {t : ℕ → U64}
    (hnow : c.config.now = false) (hgap : 0 < gap)
    (hw : ∀ window, c.config.window = some window →
      window.Proper ∧ gap ≤ window.length * 60000)
    (hbeat : Beats gap fun n => (t n).val) (h₀ : t 0 ≤ m.applyAfterMs)
    (hN : m.applyAfterMs.val + c.config.spreadS.val * 1000 + 86400000 ≤ (t N).val) :
    (∀ n, t n < m.applyAfterMs → notYet (c.at (t n)) m ≠ none) ∧
      ∃ n ≤ N, m.applyAfterMs ≤ t n ∧
        (t n).val < m.applyAfterMs.val + c.config.spreadS.val * 1000 + 86400000 + gap ∧
        ∀ d f b, Ready c d m f b → Attempts (c.at (t n)) d m f b := by
  obtain ⟨hlow, hhigh⟩ := dueMs_bounds c m
  have hat : ∀ now, dueMs (c.at now) m = dueMs c m := fun _ => rfl
  refine ⟨fun n hn => ?_, ?_⟩
  · rw [notYet_early (c := c.at (t n)) hnow (by rw [hat]; exact Fin.lt_of_lt_of_le hn hlow)]
    simp
  -- from some moment within a day the way is free, for as long as the gap
  have hopen : ∃ s, (dueMs c m).val ≤ s ∧ s < (dueMs c m).val + 86400000 ∧
      ∀ now : U64, s ≤ now.val → now.val < s + gap →
        ∀ window, c.config.window = some window → window.contains now = true := by
    cases hsome : c.config.window with
    | none => exact ⟨_, Nat.le_refl _, by omega, fun _ _ _ _ h => absurd h (by simp)⟩
    | some window =>
      obtain ⟨hp, hlen⟩ := hw window hsome
      have hstart : window.start * 60000 < 86400000 := by
        have := hp.start_lt
        omega
      refine ⟨next 86400000 (window.start * 60000) (dueMs c m).val, le_next _,
        next_lt _ (by decide), fun now hle hlt window' h => ?_⟩
      obtain rfl := Option.some.inj h
      exact contains_of_open hp (next_mod _ hstart) hle (by omega)
  obtain ⟨s, hs, hday, hfree⟩ := hopen
  obtain ⟨n, hn, hle, hlt⟩ := hbeat.meets hgap (s := s) (N := N)
    ((Fin.le_def.mp (Fin.le_trans h₀ hlow)).trans hs) (by omega)
  have hdue : dueMs c m ≤ t n := Fin.le_def.mpr (hs.trans hle)
  refine ⟨n, hn, Fin.le_trans hlow hdue, by omega, fun d f b h => ?_⟩
  exact ⟨⟨h.offered, h.newer, h.version_ne, h.failures, h.unfailed, h.installed, h.spacious,
    h.download⟩, notYet_of_due (c := c.at (t n)) hdue (hfree (t n) hle hlt)⟩

/-- The test release with a window from two to five, and a run every quarter of an hour. -/
def nightCall : Call testCrypto :=
  { testCall "0.1.3" release4 true with
    config := { testConfig "0.1.3" with window := some ⟨120, 300⟩ } }

def quarterHours (n : ℕ) : U64 := U64.saturate (900000 * n)

theorem release_reached_test : ∃ n ≤ 104, ∀ d f b, Ready nightCall d release4 f b →
    Attempts (nightCall.at (quarterHours n)) d release4 f b := by
  have hbeat : Beats 1200000 fun n => (quarterHours n).val := by
    intro n
    simp only [quarterHours, U64.saturate_val]
    omega
  have hw : ∀ window, nightCall.config.window = some window →
      window.Proper ∧ 1200000 ≤ window.length * 60000 := by
    intro window h
    obtain rfl := Option.some.inj h
    have hparse : Window.parse testCrypto.prints "02:00-05:00" = .ok ⟨120, 300⟩ := rfl
    exact ⟨parse_proper hparse, by decide⟩
  obtain ⟨-, n, hn, -, -, h⟩ := release_reached (c := nightCall) (m := release4) (N := 104) rfl
    (by decide) hw hbeat (by decide) (by decide)
  exact ⟨n, hn, h⟩

end Sn46Validator.Update
