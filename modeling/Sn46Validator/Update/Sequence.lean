/-
  File:      Update/Sequence.lean
  Subject:   THE SEQUENCES OF RELEASES OVER WHOLE HISTORIES: no replay, and no failure forgotten.

  * `Newest` -- what is pending is no older than what `release.json` records;
  * `release_monotone` -- **the recorded sequence never decreases, and a swap raises it**;
  * `Remembered` -- where the evidence of a rollback is: in `update-failed.json`, or in a
    `pending.json` whose `.previous` is gone;
  * `failure_remembered` -- **a release that was rolled back is never swapped in again**.
-/
import Sn46Validator.Update.Invariant

namespace Sn46Validator.Update

open Library

variable {crypto : Crypto} {reports : Bytes → Option String} {key : crypto.Key}

/-! ## 1. No replay -/

/-- What is pending is no older than what is recorded. -/
def Newest (d : Durable) : Prop := ∀ p, d.pending = .holds p → d.recorded ≤ p.sequence

/-- The recorded sequence of `d` is recorded in `d'`, or a later one. -/
def RecordedBy (d d' : Durable) : Prop :=
  ∀ r, d.release = .holds r → ∃ r', d'.release = .holds r' ∧ r.sequence ≤ r'.sequence

theorem RecordedBy.of_eq {d d' : Durable} (h : d'.release = d.release) : RecordedBy d d' :=
  fun r hr => ⟨r, h.trans hr, Fin.le_refl _⟩

theorem RecordedBy.trans {d d' d'' : Durable} (h : RecordedBy d d') (h' : RecordedBy d' d'') :
    RecordedBy d d'' := by
  intro r hr
  obtain ⟨r', hr', hle⟩ := h r hr
  obtain ⟨r'', hr'', hle'⟩ := h' r' hr'
  exact ⟨r'', hr'', Fin.le_trans hle hle'⟩

theorem recorded_of_holds {d : Durable} {r : Installed} (h : d.release = .holds r) :
    d.recorded = r.sequence := by
  rw [Durable.recorded, h]

theorem Newest.of_eq {d d' : Durable} (h : Newest d) (hp : d'.pending = d.pending)
    (hr : d'.release = d.release) : Newest d' := by
  intro p hp'
  rw [Durable.recorded, hr]
  exact h p (hp.symm.trans hp')

theorem newest_absent {d : Durable} (h : d.pending = .absent) : Newest d := fun p hp => by
  rw [h] at hp
  cases hp

/-- **One step** keeps what is pending the newest, and lowers no recorded sequence. -/
theorem Newest.step {c : Call crypto} {a : Action} {d d' : Durable} (h : Newest d)
    (hs : SystemStep reports key c a d d') : Newest d' ∧ RecordedBy d d' := by
  obtain ⟨-, start, -, hs⟩ := hs
  cases hs with
  | idle => exact ⟨h, .of_eq rfl⟩
  | stale => exact ⟨h.of_eq rfl rfl, .of_eq rfl⟩
  | mislead => exact ⟨h.of_eq rfl rfl, .of_eq rfl⟩
  | stage => exact ⟨h.of_eq rfl rfl, .of_eq rfl⟩
  | restart => exact ⟨h.of_eq rfl rfl, .of_eq rfl⟩
  | backup => exact ⟨h.of_eq rfl rfl, .of_eq rfl⟩
  | @begin _ m _ _ _ _ _ _ _ hn =>
    refine ⟨fun p hp => ?_, .of_eq rfl⟩
    obtain rfl := Stored.holds.inj hp
    exact Fin.le_of_lt hn.2
  | @mark _ p hp =>
    refine ⟨fun q hq => ?_, .of_eq rfl⟩
    obtain rfl := Stored.holds.inj hq
    exact h p hp
  | swap => exact ⟨h.of_eq rfl rfl, .of_eq rfl⟩
  | restore => exact ⟨h.of_eq rfl rfl, .of_eq rfl⟩
  | abandon => exact ⟨newest_absent rfl, .of_eq rfl⟩
  | rolledBack => exact ⟨newest_absent rfl, .of_eq rfl⟩
  | confirmed => exact ⟨newest_absent rfl, .of_eq rfl⟩
  | @confirm _ p hp =>
    -- the pending release is recorded, and nothing newer was
    refine ⟨fun q hq => ?_, fun r hr => ⟨_, rfl, ?_⟩⟩
    · obtain rfl : p = q := Stored.holds.inj (hp.symm.trans hq)
      exact Fin.le_refl _
    · rw [← recorded_of_holds hr]
      exact h p hp
  | @adopt _ m hp _ _ _ hn =>
    refine ⟨newest_absent hp, fun r hr => ⟨_, rfl, ?_⟩⟩
    rw [← recorded_of_holds hr]
    exact Fin.le_of_lt hn.2
  | blame => exact ⟨h.of_eq rfl rfl, .of_eq rfl⟩
  | reject => exact ⟨h.of_eq rfl rfl, .of_eq rfl⟩

/-- A kill changes neither file. -/
theorem torn_files {start : Option Bytes} {d d' : Durable} (h : Torn start d d') :
    d'.pending = d.pending ∧ d'.release = d.release ∧ d'.failed = d.failed := by
  cases h with
  | idle | stage | backup => exact ⟨rfl, rfl, rfl⟩

theorem newest_history {w₀ w : Host} {recs : List (Record (system crypto reports key))}
    (h : History (system crypto reports key) w₀ recs w) (h₀ : Newest (view w₀)) :
    Newest (view w) ∧ RecordedBy (view w₀) (view w) :=
  system_induct (P := fun _ d => Newest d ∧ RecordedBy (view w₀) d)
    (fun _ _ _ hs hi => ⟨(hi.1.step hs).1, hi.2.trans (hi.1.step hs).2⟩)
    (fun _ _ _ _ ht hi =>
      ⟨hi.1.of_eq (torn_files ht).1 (torn_files ht).2.1, hi.2.trans (.of_eq (torn_files ht).2.1)⟩)
    h ⟨h₀, .of_eq rfl⟩

theorem newest_split {w₀ w : Host} {recs : List (Record (system crypto reports key))}
    (h : History (system crypto reports key) w₀ recs w) (h₀ : Newest (view w₀))
    {e : Event (machine reports true)} (he : e ∈ trace recs) :
    Newest (view e.before) ∧
      ∃ c, SystemStep reports key c (action e.op e.ans) (view e.before) (view e.after) := by
  obtain ⟨tr₁, tr₂, hsplit⟩ := List.append_of_mem he
  exact system_split (P := fun _ d => Newest d) (fun _ _ _ hs hi => (hi.step hs).1)
    (fun _ _ _ _ ht hi => hi.of_eq (torn_files ht).1 (torn_files ht).2.1) h h₀ hsplit

/-- **Releases cannot be replayed.** Whatever signed manifests are served, and wherever the runs are
    killed or fail: `release.json`, once it holds a sequence, never holds a lower one, neither from
    one run to a later one nor across a single operation; a swap is for a verified manifest with a
    sequence above the recorded one; and what a run records for a release that is pending is that
    release, which is not older than the recorded one. -/
theorem release_monotone {w₀ w w' : Host} {recs recs' : List (Record (system crypto reports key))}
    (hp : w₀.files (.state .pending) = none) (h : History (system crypto reports key) w₀ recs w)
    (h' : History (system crypto reports key) w recs' w') :
    (∀ r, (view w).release = .holds r →
        ∃ r', (view w').release = .holds r' ∧ r.sequence ≤ r'.sequence) ∧
      ∀ e ∈ trace (recs ++ recs'),
        (∀ r, (view e.before).release = .holds r →
          ∃ r', (view e.after).release = .holds r' ∧ r.sequence ≤ r'.sequence) ∧
        (action e.op e.ans = .swap → ∃ raw sig m b,
          verifyManifest crypto raw sig key = .ok m ∧ e.before.files .staged = some b ∧
            Matches crypto reports m b ∧ (view e.before).Newer m.sequence) ∧
        (action e.op e.ans = .write .release → ∀ p, (view e.before).pending = .holds p →
          (view e.before).recorded ≤ p.sequence ∧
            (view e.after).release = .holds ⟨p.version, p.sequence⟩) := by
  have h₀ : Newest (view w₀) := newest_absent (Stored.of_eq_absent.mpr hp)
  refine ⟨(newest_history h' (newest_history h h₀).1).2, fun e he => ?_⟩
  obtain ⟨hn, c, hs⟩ := newest_split (h.append h') h₀ he
  refine ⟨(hn.step hs).2, fun ha => ?_, fun ha p hp => ⟨hn p hp, ?_⟩⟩
  · obtain ⟨hk, start, -, hs⟩ := hs
    rw [ha] at hs
    generalize hd : view e.before = d at hs
    generalize view e.after = d' at hs
    cases hs with
    | @swap _ m b _ _ _ _ _ hst ha hn _ =>
      obtain ⟨raw, sig, -, -, hv⟩ := offered_verified ha.offered
      rw [hk] at hv
      refine ⟨raw, sig, m, b, hv, ?_, ha.fits, hn⟩
      rw [← hst, ← hd]
      rfl
  · obtain ⟨-, start, -, hs⟩ := hs
    rw [ha] at hs
    generalize view e.before = d at hs hp
    generalize view e.after = d' at hs
    cases hs with
    | @confirm _ q hq =>
      obtain rfl : q = p := Stored.holds.inj (hq.symm.trans hp)
      rfl
    | @adopt _ _ hq =>
      rw [hq] at hp
      cases hp

/-- The swap of the tests, from a host that records no release. -/
theorem release_monotone_test :
    ∃ (e : Event (machine testReports true)) (m : Manifest) (b : Bytes),
      action e.op e.ans = .swap ∧ e.before.files .staged = some b ∧
        Matches testCrypto testReports m b ∧ (view e.before).Newer m.sequence := by
  have h : History (system testCrypto testReports testKey) testHost _ _ :=
    history_played .nil 25 (c := testCall "0.1.3" release4 true) testHost_runs rfl
  obtain ⟨e, he, ha⟩ := played_swaps
  obtain ⟨-, -, m, b, -, hb, hm, hn⟩ :=
    ((release_monotone rfl .nil h).2 e (by simpa using he)).2.1 ha
  exact ⟨e, m, b, ha, hb, hm, hn⟩

/-! ## 2. No failure forgotten -/

/-- The evidence of the failure of a sequence that was rolled back. -/
def Remembered (d : Durable) (sequence : U64) : Prop :=
  (∃ f, d.failed = .holds f ∧ f.has sequence = true) ∨
    ∃ p, d.pending = .holds p ∧ p.sequence = sequence ∧ d.previous = none

/-- `update-failed.json` of `d'` starts with that of `d`. -/
def FailedBy (d d' : Durable) : Prop :=
  ∀ f, d.failed = .holds f → ∃ f', d'.failed = .holds f' ∧ f.failed <+: f'.failed

theorem FailedBy.of_eq {d d' : Durable} (h : d'.failed = d.failed) : FailedBy d d' :=
  fun f hf => ⟨f, h.trans hf, List.prefix_refl _⟩

theorem FailedBy.trans {d d' d'' : Durable} (h : FailedBy d d') (h' : FailedBy d' d'') :
    FailedBy d d'' := by
  intro f hf
  obtain ⟨f', hf', hp⟩ := h f hf
  obtain ⟨f'', hf'', hp'⟩ := h' f' hf'
  exact ⟨f'', hf'', hp.trans hp'⟩

theorem failedBy_push {d d' : Durable} {f : FailedReleases} {x : FailedRelease}
    (hf : d.failed.getD default = some f) (h : d'.failed = .holds (f.push x)) : FailedBy d d' := by
  intro g hg
  rw [hg] at hf
  obtain rfl : g = f := Option.some.inj hf
  exact ⟨_, h, List.prefix_append _ _⟩

theorem FailedReleases.has_of_prefix {f f' : FailedReleases} {s : U64}
    (h : f.failed <+: f'.failed) (hs : f.has s = true) : f'.has s = true := by
  obtain ⟨x, hx, he⟩ := List.any_eq_true.mp hs
  exact List.any_eq_true.mpr ⟨x, h.subset hx, he⟩

/-- Recorded failures stay remembered. -/
theorem Remembered.of_failed {d d' : Durable} {s : U64} (h : FailedBy d d')
    (hs : ∃ f, d.failed = .holds f ∧ f.has s = true) : Remembered d' s := by
  obtain ⟨f, hf, hfs⟩ := hs
  obtain ⟨f', hf', hp⟩ := h f hf
  exact .inl ⟨f', hf', FailedReleases.has_of_prefix hp hfs⟩

/-- No sequence is recorded twice. -/
def Distinct (d : Durable) : Prop := ∀ f, d.failed = .holds f → f.Distinct

theorem distinct_push {d d' : Durable} {f : FailedReleases} {x : FailedRelease} (h : Distinct d)
    (hf : d.failed.getD default = some f) (hx : f.has x.sequence = false)
    (hd' : d'.failed = .holds (f.push x)) : Distinct d' := by
  intro g hg
  obtain rfl : f.push x = g := Stored.holds.inj (hd'.symm.trans hg)
  refine FailedReleases.push_distinct ?_ hx
  cases hd : d.failed with
  | absent =>
    rw [hd] at hf
    obtain rfl : default = f := Option.some.inj hf
    exact List.nodup_nil
  | malformed =>
    rw [hd] at hf
    cases hf
  | holds g =>
    rw [hd] at hf
    obtain rfl : g = f := Option.some.inj hf
    exact h g hd

/-- **One step** loses no recorded failure and records none twice. -/
theorem failed_step {c : Call crypto} {a : Action} {d d' : Durable}
    (hs : SystemStep reports key c a d d') : FailedBy d d' ∧ (Distinct d → Distinct d') := by
  obtain ⟨-, start, -, hs⟩ := hs
  cases hs with
  | blame _ _ hf hs => exact ⟨failedBy_push hf rfl, fun h => distinct_push h hf hs rfl⟩
  | reject _ _ _ _ hf hs => exact ⟨failedBy_push hf rfl, fun h => distinct_push h hf hs rfl⟩
  | _ => exact ⟨.of_eq rfl, id⟩

/-- **Nor does a history.** -/
theorem failed_history {w₀ w : Host} {recs : List (Record (system crypto reports key))}
    (h : History (system crypto reports key) w₀ recs w) (h₀ : Distinct (view w₀)) :
    FailedBy (view w₀) (view w) ∧ Distinct (view w) :=
  system_induct (P := fun _ d => FailedBy (view w₀) d ∧ Distinct d)
    (fun _ _ _ hs hi => ⟨hi.1.trans (failed_step hs).1, (failed_step hs).2 hi.2⟩)
    (fun _ _ _ _ ht hi => ⟨hi.1.trans (.of_eq (torn_files ht).2.2),
      fun f hf => hi.2 f ((torn_files ht).2.2.symm.trans hf)⟩)
    h ⟨.of_eq rfl, h₀⟩

/-- While `.previous` is gone the old binary is installed, which does not run as the pending
    release. -/
theorem Sound.old_of_gone {first : Bytes} {d : Durable} {p : Pending}
    (h : Sound reports key first d) (hp : d.pending = .holds p) (hprev : d.previous = none) :
    ¬Runs reports d.install p.version := by
  intro hx
  obtain ⟨b, hb, hrep⟩ := hx
  obtain ⟨old, -, -, hne, hk⟩ := h.kept p hp
  rcases hk with ⟨hk, -⟩ | ⟨-, hk⟩
  · rw [hprev] at hk
    cases hk
  · obtain rfl : b = old := Option.some.inj (hb.symm.trans hk)
    exact hne hrep

/-- While something is pending that the installed binary does not run as, the old one is
    installed. -/
theorem Sound.old_installed {first : Bytes} {d : Durable} {p : Pending}
    (h : Sound reports key first d) (hp : d.pending = .holds p)
    (hno : ¬Runs reports d.install p.version) : d.atPending = d.install := by
  obtain ⟨old, hold, -, -, ⟨-, hi | ⟨b, hb, hl⟩⟩ | ⟨-, hi⟩⟩ := h.kept p hp
  · exact hold.trans hi.symm
  · exact absurd (hb ▸ hl.runs) hno
  · exact hold.trans hi.symm

/-- **One step** forgets no rollback: a `pending.json` whose `.previous` is gone is removed only when
    the failure is recorded. -/
theorem Remembered.step {first : Bytes} {c : Call crypto} {a : Action} {d d' : Durable} {s : U64}
    (h : Remembered d s) (hd : Sound reports key first d) (hs : SystemStep reports key c a d d') :
    Remembered d' s := by
  rcases h with h | ⟨p, hp, hps, hprev⟩
  · exact .of_failed (failed_step hs).1 h
  · obtain ⟨-, start, hr, hs⟩ := hs
    cases hs with
    | backup _ hp' =>
      rw [hp] at hp'
      cases hp'
    | begin hp' =>
      rw [hp] at hp'
      cases hp'
    | @mark _ q hq =>
      obtain rfl : p = q := Stored.holds.inj (hp.symm.trans hq)
      exact .inr ⟨_, rfl, hps, hprev⟩
    | swap _ _ _ hb hprev' =>
      rw [hprev] at hprev'
      exact absurd hprev'.symm hb
    | restore => exact .inr ⟨p, hp, hps, rfl⟩
    | abandon _ _ _ _ hprev' => exact absurd hprev hprev'
    | @rolledBack _ q f hq hf hs =>
      obtain rfl : p = q := Stored.holds.inj (hp.symm.trans hq)
      exact .inl ⟨f, hf, hps ▸ hs⟩
    | @confirmed _ q hq hl =>
      obtain rfl : p = q := Stored.holds.inj (hp.symm.trans hq)
      exact absurd (hl.runs hr) (hd.old_of_gone hp hprev)
    | _ => exact .inr ⟨p, hp, hps, hprev⟩

/-- **The invariant**: every rollback so far is remembered. -/
structure Unforgotten (reports : Bytes → Option String) (key : crypto.Key) (first : Bytes)
    (tr : List (Event (machine reports true))) (d : Durable) : Prop where
  sound : Sound reports key first d
  distinct : Distinct d
  remembered : ∀ e ∈ tr, action e.op e.ans = .restore → ∀ p, (view e.before).pending = .holds p →
    Remembered d p.sequence

theorem Unforgotten.step {first : Bytes} {tr : List (Event (machine reports true))}
    {e : Event (machine reports true)} {c : Call crypto}
    (h : Unforgotten reports key first tr (view e.before))
    (hs : SystemStep reports key c (action e.op e.ans) (view e.before) (view e.after)) :
    Unforgotten reports key first (tr ++ [e]) (view e.after) := by
  refine ⟨h.sound.step hs, (failed_step hs).2 h.distinct, fun e' he' ha p hp => ?_⟩
  rcases List.mem_append.mp he' with he' | he'
  · exact (h.remembered e' he' ha p hp).step h.sound hs
  · -- the rollback itself: `.previous` is gone now, and `pending.json` is still there
    obtain rfl := List.mem_singleton.mp he'
    obtain ⟨-, start, -, hs⟩ := hs
    rw [ha] at hs
    generalize view e'.before = d at hs hp
    generalize view e'.after = d' at hs
    cases hs with
    | restore => exact .inr ⟨p, hp, rfl, rfl⟩

theorem Unforgotten.torn {first : Bytes} {start : Option Bytes}
    {tr : List (Event (machine reports true))} {d d' : Durable}
    (h : Unforgotten reports key first tr d) (ht : Torn start d d') :
    Unforgotten reports key first tr d' := by
  refine ⟨h.sound.torn ht, fun f hf => h.distinct f ((torn_files ht).2.2.symm.trans hf), ?_⟩
  intro e he ha p hp
  rcases h.remembered e he ha p hp with hr | ⟨q, hq, hs, hprev⟩
  · exact .of_failed (.of_eq (torn_files ht).2.2) hr
  · cases ht with
    | idle => exact .inr ⟨q, hq, hs, hprev⟩
    | stage => exact .inr ⟨q, hq, hs, hprev⟩
    | backup _ hp' =>
      rw [hq] at hp'
      cases hp'

theorem unforgotten_split {w₀ w : Host} {recs : List (Record (system crypto reports key))}
    {first : Bytes} (hi : w₀.files .install = some first)
    (hp : w₀.files (.state .pending) = none) (hf : Distinct (view w₀))
    (h : History (system crypto reports key) w₀ recs w)
    {tr₁ tr₂ : List (Event (machine reports true))} {e : Event (machine reports true)}
    (he : trace recs = tr₁ ++ e :: tr₂) :
    Unforgotten reports key first tr₁ (view e.before) ∧
      ∃ c, SystemStep reports key c (action e.op e.ans) (view e.before) (view e.after) :=
  system_split (P := Unforgotten reports key first) (fun _ _ _ hs hi => hi.step hs)
    (fun _ _ _ _ ht hi => hi.torn ht) h ⟨sound_init hi hp, hf, by simp⟩ he

/-- **No failure is forgotten.** Whatever fails and wherever the runs are killed: once a rollback of
    the pending release `p` put the previous binary back, every later swap is for another sequence,
    and a `pending.json` of that sequence is removed only when the failure is recorded; and
    `update-failed.json` only grows at its end and never holds a sequence twice, neither from one run
    to a later one nor across a single operation. -/
theorem failure_remembered {w₀ w w' : Host} {recs recs' : List (Record (system crypto reports key))}
    {first : Bytes} (hi : w₀.files .install = some first)
    (hp : w₀.files (.state .pending) = none)
    (hf : ∀ f, (view w₀).failed = .holds f → f.Distinct)
    (h : History (system crypto reports key) w₀ recs w)
    (h' : History (system crypto reports key) w recs' w') :
    (∀ tr₁ e₁ tr₂ e₂ tr₃, trace (recs ++ recs') = tr₁ ++ e₁ :: (tr₂ ++ e₂ :: tr₃) →
      action e₁.op e₁.ans = .restore → ∃ p, (view e₁.before).pending = .holds p ∧
        (action e₂.op e₂.ans = .swap → ∃ raw sig m b,
          verifyManifest crypto raw sig key = .ok m ∧ e₂.before.files .staged = some b ∧
            Matches crypto reports m b ∧
            (view e₂.before).pending = .holds ⟨m.version, m.sequence, false⟩ ∧
            m.sequence ≠ p.sequence) ∧
        (action e₂.op e₂.ans = .clear → ∀ q, (view e₂.before).pending = .holds q →
          q.sequence = p.sequence →
            ∃ f, (view e₂.before).failed = .holds f ∧ f.has p.sequence = true)) ∧
      (∀ f, (view w).failed = .holds f →
        ∃ f', (view w').failed = .holds f' ∧ f.failed <+: f'.failed) ∧
      (∀ f, (view w').failed = .holds f → f.Distinct) ∧
      ∀ e ∈ trace (recs ++ recs'),
        (∀ f, (view e.before).failed = .holds f →
          ∃ f', (view e.after).failed = .holds f' ∧ f.failed <+: f'.failed) ∧
        ∀ f, (view e.after).failed = .holds f → f.Distinct := by
  have hboth := h.append h'
  have hdistinct : Distinct (view w) := (failed_history h hf).2
  refine ⟨fun tr₁ e₁ tr₂ e₂ tr₃ he ha₁ => ?_, (failed_history h' hdistinct).1,
    (failed_history h' hdistinct).2, fun e he => ?_⟩
  · obtain ⟨-, _, -, _, -, hs₁⟩ := unforgotten_split hi hp hf hboth he
    have he₂ : trace (recs ++ recs') = (tr₁ ++ e₁ :: tr₂) ++ e₂ :: tr₃ := by simpa using he
    obtain ⟨hu, c, hs₂⟩ := unforgotten_split hi hp hf hboth he₂
    -- what the rollback was of
    obtain ⟨p, hpend⟩ : ∃ p, (view e₁.before).pending = .holds p := by
      rw [ha₁] at hs₁
      generalize view e₁.before = d at hs₁
      generalize view e₁.after = d' at hs₁
      cases hs₁ with
      | @restore _ p _ hp => exact ⟨p, hp⟩
    have hrem : Remembered (view e₂.before) p.sequence :=
      hu.remembered e₁ (by simp) ha₁ p hpend
    refine ⟨p, hpend, fun ha₂ => ?_, fun ha₂ q hq hqs => ?_⟩
    · obtain ⟨hk, start, -, hs⟩ := hs₂
      rw [ha₂] at hs
      generalize hd : view e₂.before = d at hs hrem
      generalize view e₂.after = d' at hs
      cases hs with
      | @swap _ m b hpd _ _ hb hprev hst ha _ hun =>
        obtain ⟨raw, sig, -, -, hv⟩ := offered_verified ha.offered
        rw [hk] at hv
        refine ⟨raw, sig, m, b, hv, by rw [← hst, ← hd]; rfl, ha.fits, hpd, fun hms => ?_⟩
        rcases hrem with ⟨f, hfd, hfs⟩ | ⟨-, -, -, hnone⟩
        · rw [← hms, hun.2 f hfd] at hfs
          cases hfs
        · rw [hnone] at hprev
          exact hb hprev.symm
    · rcases hrem with hrem | ⟨p', hp', hps, hnone⟩
      · exact hrem
      · -- after the step the failure is recorded, and the step did not record it
        obtain ⟨-, start, hr, hs⟩ := hs₂
        rw [ha₂] at hs
        have hsound := hu.sound
        generalize view e₂.before = d at hs hq hp' hnone hsound
        generalize view e₂.after = d' at hs
        cases hs with
        | abandon _ _ _ _ hprev => exact absurd hnone hprev
        | @rolledBack _ q' f hq' hf' hs' =>
          obtain rfl : q = q' := Stored.holds.inj (hq.symm.trans hq')
          exact ⟨f, hf', hqs ▸ hs'⟩
        | @confirmed _ q' hq' hl =>
          obtain rfl : q = q' := Stored.holds.inj (hq.symm.trans hq')
          exact absurd (hl.runs hr) (hsound.old_of_gone hq hnone)
  · obtain ⟨tr₁, tr₂, hsplit⟩ := List.append_of_mem he
    obtain ⟨hu, c, hs⟩ := unforgotten_split hi hp hf hboth hsplit
    exact ⟨(failed_step hs).1, (failed_step hs).2 hu.distinct⟩

/-- The rollback of the tests: the failure is recorded before `pending.json` is removed. -/
theorem failure_remembered_test :
    ∃ (e₁ e₂ : Event (machine testReports true)) (p : Pending),
      action e₁.op e₁.ans = .restore ∧ action e₂.op e₂.ans = .clear ∧
        (view e₁.before).pending = .holds p ∧
        ∀ q, (view e₂.before).pending = .holds q → q.sequence = p.sequence →
          ∃ f, (view e₂.before).failed = .holds f ∧ f.has p.sequence = true := by
  have h : History (system testCrypto testReports testKey) testHost _ _ :=
    history_played .nil 33 (c := testCall "0.1.3" release4 false) testHost_runs rfl
  obtain ⟨tr₁, e₁, tr₂, e₂, tr₃, he, ha, hb⟩ := exists_actions
    (show follows .restore .clear
      (played testReports true 33 testHost (testCall "0.1.3" release4 false)).1 = true by
        decide +kernel)
  obtain ⟨p, hp, -, hq⟩ := (failure_remembered rfl rfl (fun f hf => by cases hf) .nil h).1
    tr₁ e₁ tr₂ e₂ tr₃ (by simpa using he) ha
  exact ⟨e₁, e₂, p, ha, hb, hp, hq hb⟩

end Sn46Validator.Update
