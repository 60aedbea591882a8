/-
  File:      Update/Recovery.lean
  Subject:   AN INTERRUPTED UPDATE IS FINISHED by the next run on a host that works.

  * `run_locked` -- on a host that works an enabled run gets to the part that holds the lock;
  * `locked_recovers` -- what that part does first, and how it goes on;
  * `recovery_finishes` -- **whatever a killed run left, the next one ends with nothing pending**:
    the swap had not landed, or the release is confirmed, or it is rolled back.
-/
import Sn46Validator.Update.Sequence

namespace Sn46Validator.Update

open Library

variable {crypto : Crypto} {reports : Bytes → Option String} {key : crypto.Key}

/-! ## 1. To the part that holds the lock -/

section Quiet

variable {w w' : Host} {tr : List (Event (machine reports false))} {α β : Type}

/-- A finished run that starts with an operation. -/
theorem exec_perform {op : Op} {f : Op.Ans op → Run β} {r : Except UpdateError β}
    (h : Exec (machine reports false) w (perform op >>= f).run tr (some r) w') :
    ∃ x w₁ tr₁ tr₂, (machine reports false).act w op x w₁ ∧ tr = tr₁ ++ tr₂ ∧
      Exec (machine reports false) w₁ (f x).run tr₂ (some r) w' := by
  obtain ⟨x, w₁, tr', ha, rfl, hk⟩ := Exec.of_call (M := machine reports false)
    (k := fun x : Op.Ans op => (f x).run) h
  exact ⟨x, w₁, [_], tr', ha, rfl, hk⟩

/-- On a host that works the state directory is proper. -/
theorem exec_checkStateDir {c : Call crypto} {f : Unit → Run β} {r : Except UpdateError β}
    (h : Exec (machine reports false) w (checkStateDir c >>= f).run tr (some r) w') :
    ∃ tr₁ tr₂, tr = tr₁ ++ tr₂ ∧ Exec (machine reports false) w (f ()).run tr₂ (some r) w' := by
  obtain ⟨tr₁, x, w₁, h₁, hx⟩ := h.of_bindE
  obtain ⟨y, w₂, _, _, ⟨rfl, hy⟩, -, h₂⟩ := exec_perform h₁
  obtain ⟨info, rfl, hp⟩ := hy rfl
  rw [io_ok_bind, if_pos hp] at h₂
  cases h₂ with
  | ret =>
    obtain ⟨a, tr₂, -, rfl, h₃⟩ | ⟨e, he, -⟩ := hx
    · exact ⟨tr₁, tr₂, rfl, h₃⟩
    · cases he

/-- **On a host that works an enabled run gets to the part that holds the lock**, with nothing
    changed. -/
theorem run_locked {c : Call crypto} {r : Except UpdateError Outcome}
    (he : c.config.enabled = true)
    (h : Exec (machine reports false) w (run c).run tr (some r) w') :
    ∃ tr₁ tr₂, tr = tr₁ ++ tr₂ ∧ Exec (machine reports false) w (locked c).run tr₂ (some r) w' := by
  rw [run, if_pos he] at h
  obtain ⟨x, w₁, tr₁, t₁, ⟨rfl, hx⟩, rfl, h₁⟩ := exec_perform h
  rw [hx rfl, io_ok_bind] at h₁
  obtain ⟨tr₂, t₂, rfl, h₂⟩ := exec_checkStateDir h₁
  obtain ⟨x, w₂, tr₃, t₃, ⟨rfl, hx⟩, rfl, h₃⟩ := exec_perform h₂
  rw [hx rfl, io_ok_bind] at h₃
  obtain ⟨x, w₃, tr₄, t₄, ⟨rfl, hx⟩, rfl, h₄⟩ := exec_perform h₃
  rw [hx rfl] at h₄
  exact ⟨tr₁ ++ (tr₂ ++ (tr₃ ++ tr₄)), t₄, by simp, h₄⟩

/-! ## 2. What it does first -/

/-- **On a host that works a pending release is dealt with first**: it is dropped and the run goes on
    as an ordinary one, or it is confirmed, or it is rolled back. -/
theorem locked_recovers {c : Call crypto} {r : Except UpdateError Outcome} {p : Pending}
    (he : c.config.enabled = true) (hp : (view w).pending = .holds p)
    (hf : (view w).failed ≠ .malformed)
    (h : Exec (machine reports false) w (locked c).run tr (some r) w') :
    (p.version ≠ c.config.runningVersion ∧ (view w').pending = .absent ∧
        ∃ tr₁ tr₂ w₁, tr = tr₁ ++ tr₂ ∧ view w₁ = { view w with pending := .absent } ∧
          Exec (machine reports false) w₁ (offer c).run tr₂ (some r) w') ∨
      (p.version = c.config.runningVersion ∧ Recorded c p (view w) (view w')) ∨
      RolledBack p (view w) (view w') := by
  let s : Setting crypto := ⟨reports, false, c, w.files .install⟩
  obtain ⟨tr₁, x, w₁, h₁, hx⟩ := h.of_bindE
  have hrec : Recovered s (view w) x (view w₁) :=
    h₁.result ((refines_recover (s := s) rfl).ensures w rfl)
  -- recovery came to an end: nothing else is done
  have hdone : view w₁ = view w' → (∃ q, (view w).pending = .holds q ∧
      (q.version = c.config.runningVersion ∧ q.rollingBack = false ∧
        Recorded c q (view w) (view w₁) ∨ RolledBack q (view w) (view w₁))) →
      (p.version = c.config.runningVersion ∧ Recorded c p (view w) (view w')) ∨
        RolledBack p (view w) (view w') := by
    intro hw hy
    obtain ⟨q, hq, hd⟩ := hy
    obtain rfl : p = q := Stored.holds.inj (hp.symm.trans hq)
    rw [← hw]
    exact hd.imp (fun h => ⟨h.1, h.2.2⟩) id
  match x with
  | .error e =>
    obtain ⟨a, tr₂, hx, -⟩ | ⟨-, -, -, -, rfl⟩ := hx
    · cases hx
    · exact .inr (hdone rfl (hrec rfl (by rw [hp]; simp) hf))
  | .ok (some out) =>
    obtain ⟨a, tr₂, hx, -, h₂⟩ | ⟨e, hx, -⟩ := hx
    · obtain rfl := Except.ok.inj hx
      cases h₂ with
      | ret => exact .inr (hdone rfl (hrec rfl (by rw [hp]; simp) hf))
    · cases hx
  | .ok none =>
    obtain ⟨hw₁, hcase⟩ := hrec
    obtain ⟨a, tr₂, hx, rfl, h₂⟩ | ⟨e, hx, -⟩ := hx
    · obtain rfl := Except.ok.inj hx
      obtain ⟨q, hq, -, hv, -⟩ := hcase.resolve_left (by rw [hp]; simp)
      obtain rfl : p = q := Stored.holds.inj (hp.symm.trans hq)
      have hend := Exec.result h₂ ((refines_offer (s := s) (d := view w₁) (by rw [hw₁])
        (by rw [hw₁]; rfl) he).ensures w₁ rfl) rfl (by rw [hw₁]; exact hf)
      exact .inl ⟨hv, hend, tr₁, tr₂, w₁, rfl, hw₁, h₂⟩
    · cases hx

end Quiet

/-! ## 3. The next run -/

/-- A readable `update-failed.json` stays readable. -/
theorem readable_step {c : Call crypto} {a : Action} {d d' : Durable}
    (hs : SystemStep reports key c a d d') (h : d.failed ≠ .malformed) :
    d'.failed ≠ .malformed := by
  obtain ⟨-, start, -, hs⟩ := hs
  cases hs with
  | blame | reject => simp
  | _ => exact h

theorem readable_history {w₀ w : Host} {recs : List (Record (system crypto reports key))}
    (h : History (system crypto reports key) w₀ recs w) (hf : (view w₀).failed ≠ .malformed) :
    (view w).failed ≠ .malformed := by
  refine system_induct (P := fun _ d => d.failed ≠ .malformed)
    (fun _ _ _ hs hi => readable_step hs hi) (fun _ _ _ _ ht hi => ?_) h hf
  rw [(torn_files ht).2.2]
  exact hi

/-- **An interrupted update or rollback is always finished.** Let `pending.json` exist after any
    history, wherever its last run was killed. The next enabled run of the installed binary, on a host
    where nothing fails, can finish, and however it does nothing is pending then, and: the old binary
    was installed when the run began, and it went on as an ordinary run; or the pending release's
    binary is installed, passed this run's health check and is recorded; or the old binary is
    installed and the failure is recorded. In the last two cases the service runs what is
    installed. -/
theorem recovery_finishes {w₀ w : Host} {recs : List (Record (system crypto reports key))}
    {first : Bytes} (hi : w₀.files .install = some first)
    (hp : w₀.files (.state .pending) = none) (hf : (view w₀).failed ≠ .malformed)
    (h : History (system crypto reports key) w₀ recs w)
    (hpend : w.files (.state .pending) ≠ none) {c : Call crypto}
    (hc : (system crypto reports key).enter c w w) (he : c.config.enabled = true) :
    ∃ p old, (view w).pending = .holds p ∧ w.atPending = some old ∧
      (∃ tr r w', Exec (machine reports false) w (run c).run tr (some r) w') ∧
      ∀ tr r w', Exec (machine reports false) w (run c).run tr (some r) w' →
        w'.files (.state .pending) = none ∧
        ((w.files .install = some old ∧ ∃ tr₁ tr₂ w₁, tr = tr₁ ++ tr₂ ∧
            view w₁ = { view w with pending := .absent } ∧
            Exec (machine reports false) w₁ (offer c).run tr₂ (some r) w') ∨
          ((∃ b, w'.files .install = some b ∧ Lands reports key p b) ∧
            c.polls.check = .ok () ∧ (view w').release = .holds ⟨p.version, p.sequence⟩ ∧
            w'.restarted = true) ∨
          (w'.files .install = some old ∧
            (∃ f, (view w').failed = .holds f ∧ f.has p.sequence = true) ∧
            w'.restarted = true)) := by
  have hs : Sound reports key first (view w) :=
    system_induct (P := fun _ d => Sound reports key first d)
      (fun _ _ _ hst hi => hi.step hst) (fun _ _ _ _ ht hi => hi.torn ht) h (sound_init hi hp)
  have hread : (view w).failed ≠ .malformed := readable_history h hf
  obtain ⟨-, hruns, -⟩ := hc
  cases hpd : (view w).pending with
  | absent => exact absurd (Stored.of_eq_absent.mp hpd) hpend
  | malformed => exact absurd hpd hs.wellFormed
  | holds p =>
    obtain ⟨old, hold, -, hne, hk⟩ := hs.kept p hpd
    refine ⟨p, old, rfl, hold, Exec.total (M := machine reports false)
      (act_total reports false) (run c).run w, fun tr r w' hx => ?_⟩
    obtain ⟨tr₁, tr₂, rfl, hlock⟩ := run_locked he hx
    rcases locked_recovers he hpd hread hlock with
      ⟨hv, hend, t₁, t₂, w₁, rfl, hw₁, hx₁⟩ | ⟨hv, hrec⟩ | hroll
    · refine ⟨Stored.of_eq_absent.mp hend, .inl ⟨?_, tr₁ ++ t₁, t₂, w₁, by simp, hw₁, hx₁⟩⟩
      -- had the swap landed, the pending release would be the one that runs
      rcases hk with ⟨-, hinst | ⟨b, hb, hl⟩⟩ | ⟨-, hinst⟩
      · exact hinst
      · exact absurd (Runs.unique (b := some b) hl.runs (hb ▸ hruns)) hv
      · exact hinst
    · refine ⟨Stored.of_eq_absent.mp hrec.pending, .inr (.inl ⟨?_, hrec.healthy, hrec.release,
        hrec.restarted⟩)⟩
      have hno : (view w).install ≠ some old := fun hinst => by
        obtain ⟨b, hb, hrep⟩ := hruns
        obtain rfl : old = b := Option.some.inj (hinst.symm.trans hb)
        rw [← hv] at hrep
        exact hne hrep
      rcases hk with ⟨-, hinst | ⟨b, hb, hl⟩⟩ | ⟨-, hinst⟩
      · exact absurd hinst hno
      · exact ⟨b, hrec.install.trans hb, hl⟩
      · exact absurd hinst hno
    · refine ⟨Stored.of_eq_absent.mp hroll.pending, .inr (.inr ⟨?_, hroll.failed,
        hroll.restarted⟩)⟩
      have hinst := hroll.install
      rcases hk with ⟨hprev, -⟩ | ⟨hprev, hin⟩
      · rw [hprev] at hinst
        exact hinst
      · rw [hprev, hin] at hinst
        exact hinst

/-- The test host, killed between the swap and the restart, and then updated again. -/
theorem recovery_finishes_test :
    ∃ (tr : List (Event (machine testReports false))) (r : Except UpdateError Outcome) (w' : Host),
      Exec (machine testReports false) swapped (run (testCall "0.1.4" release4 true)).run tr
        (some r) w' ∧ w'.files (.state .pending) = none := by
  obtain ⟨recs, h⟩ := history_swapped
  obtain ⟨p, old, -, -, ⟨tr, r, w', hx⟩, hall⟩ := recovery_finishes rfl rfl (by decide) h
    swapped_files.1 (c := testCall "0.1.4" release4 true) ⟨rfl, swapped_runs, rfl⟩ rfl
  exact ⟨tr, r, w', hx, (hall tr r w' hx).1⟩

end Sn46Validator.Update
