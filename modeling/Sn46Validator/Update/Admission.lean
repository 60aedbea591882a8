/-
  File:      Update/Admission.lean
  Subject:   WHAT A SWAP PRESUPPOSES: only an authentic release that is due is installed.

  * `run_refines` -- every operation of a run, from any state of the files, is a step of the model;
  * `Authentic` -- the conditions of a swap, spelled out;
  * `due_exact` -- the saturating due time is the exact one for every clock that is not the last;
  * `swap_authentic` -- **a staged file renamed onto `install_path` meets them all**.
-/
import Sn46Validator.Update.Refine
import Sn46Validator.Update.Testbed

namespace Sn46Validator.Update

open Library

variable {crypto : Crypto} {reports : Bytes → Option String} {faults : Bool}

/-- **The run refines the model**: every completed operation is a step of it, and every kill leaves
    a state of it or a torn one. -/
theorem run_refines (c : Call crypto) (w : Host) :
    Ensures (machine reports faults)
      (fun e => Step reports c (w.files .install) (action e.op e.ans) (view e.before)
        (view e.after))
      (fun w₁ w₂ => Torn (w.files .install) (view w₁) (view w₂)) (run c).run (fun _ _ => True) w :=
  (refines_run (s := ⟨reports, faults, c, w.files .install⟩) (refines_locked rfl)
    fun _ _ => trivial).ensures w rfl

/-- **The conditions of a swap** by the call `c`: the manifest `m` it was offered and verified, and
    the staged bytes `b`. -/
structure Authentic (reports : Bytes → Option String) (c : Call crypto) (m : Manifest)
    (b : Bytes) : Prop where
  enabled : c.config.enabled = true
  verified : ∃ raw sig, fetch c.net c.config.manifestUrl maxManifestBytes = .ok (some raw) ∧
    fetch c.net (signatureUrl c) 1024 = .ok (some sig) ∧
    verifyManifest crypto raw sig c.config.publicKey = .ok m
  size : b.length = m.binary.size.val
  sha256 : hexEncode (crypto.sha256 b) = m.binary.sha256.toList
  version : reports b = some ("sn46-validator " ++ m.version)
  version_ne : m.version ≠ c.config.runningVersion
  space : ∃ available : U64, c.config.availableBytes = .ok available ∧
    3 * m.binary.size.val ≤ available.val
  spread : (spreadSeconds crypto c.config.hostId c.config.spreadS).val < max c.config.spreadS.val 1
  due : c.config.now = false → c.nowMs.val < 2 ^ 64 - 1 →
    m.applyAfterMs.val + 1000 * (spreadSeconds crypto c.config.hostId c.config.spreadS).val ≤
      c.nowMs.val
  inWindow : c.config.now = false → ∀ window, c.config.window = some window →
    window.contains c.nowMs = true

/-- An offered manifest was fetched and verified. -/
theorem offered_verified {c : Call crypto} {m : Manifest} (h : offered c = .ok (some m)) :
    ∃ raw sig, fetch c.net c.config.manifestUrl maxManifestBytes = .ok (some raw) ∧
      fetch c.net (signatureUrl c) 1024 = .ok (some sig) ∧
      verifyManifest crypto raw sig c.config.publicKey = .ok m := by
  unfold offered at h
  cases hr : fetch c.net c.config.manifestUrl maxManifestBytes with
  | error e =>
    rw [hr] at h
    cases h
  | ok r =>
    rw [hr] at h
    cases r with
    | none => cases h
    | some raw =>
      cases hs : fetch c.net (signatureUrl c) 1024 with
      | error e =>
        simp only [bind, Except.bind, hs] at h
        cases h
      | ok o =>
        cases o with
        | none =>
          simp only [bind, Except.bind, hs] at h
          cases h
        | some sig =>
          simp only [bind, Except.bind, hs, pure, Except.pure] at h
          cases hv : verifyManifest crypto raw sig c.config.publicKey with
          | error e =>
            rw [hv] at h
            cases h
          | ok m' =>
            rw [hv] at h
            obtain rfl : m' = m := Option.some.inj (Except.ok.inj h)
            exact ⟨raw, sig, rfl, rfl, hv⟩

/-- **The saturating due time is exact** for every clock but the last. -/
theorem due_exact {c : Call crypto} {m : Manifest} (h : dueMs c m ≤ c.nowMs)
    (hnow : c.nowMs.val < 2 ^ 64 - 1) :
    m.applyAfterMs.val + 1000 * (spreadSeconds crypto c.config.hostId c.config.spreadS).val ≤
      c.nowMs.val := by
  have h' : (dueMs c m).val ≤ c.nowMs.val := h
  have hk : (1000 : U64).val = 1000 := rfl
  simp only [dueMs, U64.saturatingAdd, U64.saturatingMul, U64.saturate_val, hk] at h'
  omega

/-- A manifest is small enough for the exact threefold size. -/
theorem neededBytes_val {m : Manifest} (h : m.Formed) :
    (neededBytes m).val = 3 * m.binary.size.val := by
  have hle := h.size_le
  simp only [maxBinaryBytes] at hle
  have hk : (3 : U64).val = 3 := rfl
  simp only [neededBytes, U64.saturatingMul, U64.saturate_val, hk]
  omega

/-- What `notYet` lets pass. -/
theorem notYet_none {c : Call crypto} {m : Manifest} (h : notYet c m = none)
    (hnow : c.config.now = false) :
    dueMs c m ≤ c.nowMs ∧ ∀ window, c.config.window = some window →
      window.contains c.nowMs = true := by
  unfold notYet at h
  rw [hnow, if_neg (by simp)] at h
  split_ifs at h with hlt hw
  refine ⟨Fin.not_lt.mp hlt, fun window he => ?_⟩
  rw [he] at hw
  simpa using hw

theorem Admitted.authentic {c : Call crypto} {m : Manifest} {b : Bytes}
    (h : Admitted reports c m b) : Authentic reports c m b := by
  obtain ⟨raw, sig, hr, hs, hv⟩ := offered_verified h.offered
  obtain ⟨available, ha, hle⟩ := h.space
  exact {
    enabled := h.enabled
    verified := ⟨raw, sig, hr, hs, hv⟩
    size := h.fits.size
    sha256 := h.fits.sha256
    version := h.fits.version
    version_ne := h.version_ne
    space := ⟨available, ha, by rw [← neededBytes_val (verifyManifest_formed hv)]; exact hle⟩
    spread := spreadSeconds_lt _ _ _
    due := fun hnow => due_exact (notYet_none h.due hnow).1
    inWindow := fun hnow => (notYet_none h.due hnow).2 }

/-- **Only authentic, due releases are installed.** In every run, finished or killed, from any files
    and whatever the servers answer, a staged file that is renamed onto `install_path` meets every
    condition; `--now` lifts the last two alone. -/
theorem swap_authentic {c : Call crypto} {w w' : Host}
    {tr : List (Event (machine reports faults))} {o : Option (Except UpdateError Outcome)}
    (h : Exec (machine reports faults) w (run c).run tr o w') {e : Event (machine reports faults)}
    (he : e ∈ tr) (hs : action e.op e.ans = .swap) :
    ∃ m b, e.before.files .staged = some b ∧ e.after.files .install = some b ∧
      Authentic reports c m b := by
  have hstep := h.events (run_refines c w) e he
  rw [hs] at hstep
  generalize hb : view e.before = d at hstep
  generalize ha : view e.after = d' at hstep
  cases hstep with
  | @swap _ m b _ _ _ _ _ hst hadm _ _ =>
    refine ⟨m, b, ?_, ?_, hadm.authentic⟩
    · rw [← hst, ← hb]
      rfl
    · show (view e.after).install = some b
      rw [ha]

/-- The run of the tests that installs 0.1.4. -/
theorem swap_authentic_test :
    ∃ m b, Authentic testReports (testCall "0.1.3" release4 true) m b := by
  obtain ⟨e, he, hs⟩ := played_swaps
  obtain ⟨m, b, -, -, ha⟩ := swap_authentic (exec_played testReports true 25 testHost _) he hs
  exact ⟨m, b, ha⟩

end Sn46Validator.Update
