/-
  File:      Update/Invariant.lean
  Subject:   THE UPDATER OVER WHOLE HISTORIES: runs one after another, each killed anywhere or not.

  * `system` -- every run starts from the binary at `install_path`, under one release key, and
    nobody else touches the files;
  * `system_induct`, `system_split` -- the run rule in terms of the model's steps;
  * `Sound` -- the invariant of the binaries and of `pending.json`;
  * `install_whole_and_kept` -- **the installed binary is always whole, and a rollback stays
    possible**.
-/
import Sn46Validator.Update.Admission

namespace Sn46Validator.Update

open Library

variable {crypto : Crypto} {reports : Bytes → Option String} {key : crypto.Key}

/-! ## 1. The system -/

/-- **Runs of the updater**: each by the binary that is installed when it starts, under one key. -/
@[reducible] def system (crypto : Crypto) (reports : Bytes → Option String) (key : crypto.Key) :
    System iface where
  machine := machine reports true
  Call := Call crypto
  Out := Except UpdateError Outcome
  prog c := (run c).run
  enter c w w' := w' = w ∧ Runs reports (w.files .install) c.config.runningVersion ∧
    c.config.publicKey = key
  env _ _ := False

/-- One more call, on a host that works, killed after `n` operations. -/
theorem history_played {w₀ w : Host} {recs : List (Record (system crypto reports key))}
    (h : History (system crypto reports key) w₀ recs w) (n : Nat) {c : Call crypto}
    (hr : Runs reports (w.files .install) c.config.runningVersion)
    (hk : c.config.publicKey = key) :
    History (system crypto reports key) w₀
      (recs ++ [⟨c, (played reports true n w c).1, (played reports true n w c).2.1⟩])
      (playedTo reports n w c) :=
  .run h ⟨rfl, hr, hk⟩ (exec_played reports true n w c)

/-- A step of some run of the system. -/
def SystemStep (reports : Bytes → Option String) (key : crypto.Key) (c : Call crypto) (a : Action)
    (d d' : Durable) : Prop :=
  c.config.publicKey = key ∧ ∃ start, Runs reports start c.config.runningVersion ∧
    Step reports c start a d d'

/-- What every completed operation of the system guarantees. -/
def guarantee (reports : Bytes → Option String) (key : crypto.Key) (c : Call crypto)
    (e : Event (machine reports true)) : Prop :=
  SystemStep reports key c (action e.op e.ans) (view e.before) (view e.after)

theorem system_ensures (c : Call crypto) {w w' : Host}
    (he : (system crypto reports key).enter c w w') :
    Ensures (machine reports true) (guarantee reports key c)
      (fun w₁ w₂ => ∃ start, Torn start (view w₁) (view w₂)) (run c).run (fun _ _ => True) w' := by
  obtain ⟨rfl, hr, hk⟩ := he
  exact (run_refines c w').mono (fun _ hs => ⟨hk, _, hr, hs⟩) (fun _ _ ht => ⟨_, ht⟩)
    fun _ _ h => h

section Rules

variable {P : List (Event (machine reports true)) → Durable → Prop}
  (step : ∀ tr e c, SystemStep reports key c (action e.op e.ans) (view e.before) (view e.after) →
    P tr (view e.before) → P (tr ++ [e]) (view e.after))
  (torn : ∀ tr start d d', Torn start d d' → P tr d → P tr d')
  {w₀ w : Host} {recs : List (Record (system crypto reports key))}

include step torn

theorem system_invariant :
    Invariant (system crypto reports key) (guarantee reports key)
      (fun _ w w' => ∃ start, Torn start (view w) (view w')) (fun tr w => P tr (view w)) where
  env := fun _ _ _ _ he => False.elim he
  enter := fun _ _ _ _ hi he => he.1 ▸ hi
  ensures := fun _ c _ _ _ he => ⟨_, system_ensures c he⟩
  step := fun tr c e hs hi => step tr e c hs hi
  cut := fun tr _ _ _ ht hi => torn tr _ _ _ ht.choose_spec hi

/-- **The run rule of the updater.** -/
theorem system_induct (h : History (system crypto reports key) w₀ recs w)
    (h₀ : P [] (view w₀)) : P (trace recs) (view w) :=
  History.induct (system_invariant step torn) h h₀

/-- **The run rule, event by event.** -/
theorem system_split (h : History (system crypto reports key) w₀ recs w)
    (h₀ : P [] (view w₀)) {tr₁ tr₂ : List (Event (machine reports true))}
    {e : Event (machine reports true)} (he : trace recs = tr₁ ++ e :: tr₂) :
    P tr₁ (view e.before) ∧
      ∃ c, SystemStep reports key c (action e.op e.ans) (view e.before) (view e.after) :=
  History.split (system_invariant step torn) h h₀ he

end Rules

/-! ## 2. The invariant of the binaries -/

/-- A binary that some manifest under the key describes. -/
def Released (reports : Bytes → Option String) (key : crypto.Key) (b : Bytes) : Prop :=
  ∃ raw sig m, verifyManifest crypto raw sig key = .ok m ∧
    Matches crypto reports m b

/-- The binary of the release that `pending.json` names. -/
def Lands (reports : Bytes → Option String) (key : crypto.Key) (p : Pending) (b : Bytes) : Prop :=
  ∃ raw sig m, verifyManifest crypto raw sig key = .ok m ∧
    Matches crypto reports m b ∧ m.version = p.version ∧ m.sequence = p.sequence

/-- While `pending.json` names `p`: the old binary does not run as the version of `p`; either it is
    kept at `.previous` with it or the release installed, or it is installed and `.previous` gone. -/
def Kept (reports : Bytes → Option String) (key : crypto.Key) (p : Pending) (old : Bytes)
    (d : Durable) : Prop :=
  reports old ≠ some (banner p.version) ∧
    (d.previous = some old ∧
        (d.install = some old ∨ ∃ b, d.install = some b ∧ Lands reports key p b) ∨
      d.previous = none ∧ d.install = some old)

/-- **The invariant.** `first` is the binary installed at the beginning. -/
structure Sound (reports : Bytes → Option String) (key : crypto.Key) (first : Bytes)
    (d : Durable) : Prop where
  whole : ∃ b, d.install = some b ∧ (b = first ∨ Released reports key b)
  wellFormed : d.pending ≠ .malformed
  kept : ∀ p, d.pending = .holds p → ∃ old, d.atPending = some old ∧
    (old = first ∨ Released reports key old) ∧ Kept reports key p old d

theorem banner_inj {v v' : String} (h : banner v = banner v') : v = v' := by
  have h' : ("sn46-validator " ++ v).toList = ("sn46-validator " ++ v').toList := by
    rw [show "sn46-validator " ++ v = "sn46-validator " ++ v' from h]
  rw [String.toList_append, String.toList_append] at h'
  exact String.toList_inj.mp (List.append_cancel_left h')

/-- A binary runs as one version. -/
theorem Runs.unique {b : Option Bytes} {v v' : String} (h : Runs reports b v)
    (h' : Runs reports b v') : v = v' := by
  obtain ⟨x, hx, hr⟩ := h
  obtain ⟨y, hy, hr'⟩ := h'
  obtain rfl : x = y := Option.some.inj (hx.symm.trans hy)
  exact banner_inj (Option.some.inj (hr.symm.trans hr'))

theorem Lands.runs {p : Pending} {b : Bytes} (h : Lands reports key p b) :
    Runs reports (some b) p.version := by
  obtain ⟨-, -, m, -, hm, hv, -⟩ := h
  exact ⟨b, rfl, by rw [hm.version, hv]⟩

/-- A release that landed is not the old binary. -/
theorem Landed.runs {c : Call crypto} {start : Option Bytes} {p : Pending} {d : Durable}
    (h : Landed reports c start p d) (hr : Runs reports start c.config.runningVersion) :
    Runs reports d.install p.version := by
  rcases h with ⟨hv, hi⟩ | ⟨m, b, hb, hm, hv⟩
  · rw [hi, hv]
    exact hr
  · exact ⟨b, hb, by rw [hm.version, hv]⟩

/-- **One step keeps the invariant.** -/
theorem Sound.step {first : Bytes} {c : Call crypto} {a : Action} {d d' : Durable}
    (h : Sound reports key first d) (hs : SystemStep reports key c a d d') :
    Sound reports key first d' := by
  obtain ⟨hk, start, hr, hs⟩ := hs
  cases hs with
  | idle => exact h
  | stale => exact ⟨h.whole, h.wellFormed, h.kept⟩
  | mislead => exact ⟨h.whole, h.wellFormed, h.kept⟩
  | stage b => exact ⟨h.whole, h.wellFormed, h.kept⟩
  | restart => exact ⟨h.whole, h.wellFormed, h.kept⟩
  | backup b hp hi => exact ⟨h.whole, h.wellFormed, fun p hp' => by simp [hp] at hp'⟩
  | @begin _ m b hp hi hb hprev hst ha hn hf =>
    obtain ⟨old, hold, hw⟩ := h.whole
    refine ⟨h.whole, by simp, ?_⟩
    intro p hp'
    obtain rfl := Stored.holds.inj hp'
    refine ⟨old, hold, hw, ?_, .inl ⟨hprev.trans hold, .inl hold⟩⟩
    -- the old binary is the one that runs, and the release has another version
    intro hrep
    have hrun : Runs reports d.install c.config.runningVersion := by rw [hi]; exact hr
    exact ha.version_ne (Runs.unique (b := d.install) ⟨old, hold, hrep⟩ hrun)
  | @mark _ p hp =>
    refine ⟨h.whole, by simp, ?_⟩
    intro q hq
    obtain rfl := Stored.holds.inj hq
    exact h.kept p hp
  | @swap _ m b hp hi hat hb hprev hst ha hn hf =>
    obtain ⟨raw, sig, -, -, hv⟩ := offered_verified ha.offered
    rw [hk] at hv
    obtain ⟨old, hold, hw, hne, hkept⟩ := h.kept _ hp
    refine ⟨⟨b, rfl, .inr ⟨raw, sig, m, hv, ha.fits⟩⟩, h.wellFormed, ?_⟩
    intro p hp'
    obtain rfl : (⟨m.version, m.sequence, false⟩ : Pending) = p :=
      Stored.holds.inj (hp.symm.trans hp')
    refine ⟨old, hold, hw, hne, .inl ⟨?_, .inr ⟨b, rfl, raw, sig, m, hv, ha.fits, rfl, rfl⟩⟩⟩
    show d.previous = some old
    rw [hprev, ← hat, hold]
  | @restore _ p b hp hb =>
    obtain ⟨old, hold, hw, hne, hkept⟩ := h.kept p hp
    obtain ⟨hprev, -⟩ | ⟨hprev, -⟩ := hkept
    · obtain rfl : b = old := Option.some.inj (hb.symm.trans hprev)
      refine ⟨⟨b, rfl, hw⟩, h.wellFormed, ?_⟩
      intro q hq
      obtain rfl : p = q := Stored.holds.inj (hp.symm.trans hq)
      exact ⟨b, hold, hw, hne, .inr ⟨rfl, rfl⟩⟩
    · rw [hprev] at hb
      cases hb
  | abandon => exact ⟨h.whole, by simp, fun p hp' => by simp at hp'⟩
  | rolledBack => exact ⟨h.whole, by simp, fun p hp' => by simp at hp'⟩
  | confirmed => exact ⟨h.whole, by simp, fun p hp' => by simp at hp'⟩
  | confirm => exact ⟨h.whole, h.wellFormed, h.kept⟩
  | adopt => exact ⟨h.whole, h.wellFormed, h.kept⟩
  | blame => exact ⟨h.whole, h.wellFormed, h.kept⟩
  | reject => exact ⟨h.whole, h.wellFormed, h.kept⟩

/-- A kill keeps it too. -/
theorem Sound.torn {first : Bytes} {start : Option Bytes} {d d' : Durable}
    (h : Sound reports key first d) (ht : Torn start d d') : Sound reports key first d' := by
  cases ht with
  | idle => exact h
  | stage b => exact ⟨h.whole, h.wellFormed, h.kept⟩
  | backup b hp hi => exact ⟨h.whole, h.wellFormed, fun p hp' => by simp [hp] at hp'⟩

/-- The invariant holds where nothing is pending. -/
theorem sound_init {first : Bytes} {w₀ : Host} (hi : w₀.files .install = some first)
    (hp : w₀.files (.state .pending) = none) :
    Sound reports key first (view w₀) := by
  have hp' : (view w₀).pending = .absent := Stored.of_eq_absent.mpr hp
  exact ⟨⟨first, hi, .inl rfl⟩, by simp [hp'], fun p h => by simp [hp'] at h⟩

theorem sound_history {w₀ w : Host} {recs : List (Record (system crypto reports key))}
    {first : Bytes} (hi : w₀.files .install = some first)
    (hp : w₀.files (.state .pending) = none)
    (h : History (system crypto reports key) w₀ recs w) : Sound reports key first (view w) :=
  system_induct (P := fun _ d => Sound reports key first d) (fun _ _ _ hst hi => hi.step hst)
    (fun _ _ _ _ ht hi => hi.torn ht) h (sound_init hi hp)

/-! ## 3. Rollback stays possible -/

/-- **The installed binary is always whole, and a rollback stays possible.** After any history, every
    run of it finished, failed or killed at any step: what is installed is the first binary or one
    that a verified manifest describes, and while `pending.json` exists the binary installed when it
    came to exist is intact at `install_path` or at `.previous`. -/
theorem install_whole_and_kept {w₀ w : Host} {recs : List (Record (system crypto reports key))}
    {first : Bytes} (hi : w₀.files .install = some first)
    (hp : w₀.files (.state .pending) = none)
    (h : History (system crypto reports key) w₀ recs w) :
    (∃ b, w.files .install = some b ∧ (b = first ∨ Released reports key b)) ∧
      (w.files (.state .pending) ≠ none → ∃ old, w.atPending = some old ∧
        (w.files .install = some old ∨ w.files .previous = some old)) := by
  have hs : Sound reports key first (view w) := sound_history hi hp h
  refine ⟨hs.whole, fun hne => ?_⟩
  cases hpd : (view w).pending with
  | absent => exact absurd (Stored.of_eq_absent.mp hpd) hne
  | malformed => exact absurd hpd hs.wellFormed
  | holds p =>
    obtain ⟨old, hold, -, -, ⟨hprev, -⟩ | ⟨-, hinst⟩⟩ := hs.kept p hpd
    · exact ⟨old, hold, .inr hprev⟩
    · exact ⟨old, hold, .inl hinst⟩

theorem history_swapped :
    ∃ recs, History (system testCrypto testReports testKey) testHost recs swapped :=
  ⟨_, history_played .nil 20 (c := testCall "0.1.3" release4 true) testHost_runs rfl⟩

/-- The test host, killed between the swap and the restart. -/
theorem install_whole_and_kept_test :
    ∃ old, swapped.atPending = some old ∧
      (swapped.files .install = some old ∨ swapped.files .previous = some old) := by
  obtain ⟨recs, h⟩ := history_swapped
  exact (install_whole_and_kept rfl rfl h).2 swapped_files.1

end Sn46Validator.Update

