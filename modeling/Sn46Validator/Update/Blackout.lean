/-
  File:      Update/Blackout.lean
  Subject:   THE UPDATER THROUGH POWER LOSSES: whatever comes back, there is a way back.

  * `blackouts` -- runs one after another, each on what a power loss left of the disk; it may have left
    everything, so a run may also begin where the last one ended and all of it has arrived;
  * `Settled` -- a disk that nothing is lost of; `Begins` -- where a history begins;
  * `secure_history` -- **the invariant**; `proven_history` -- how a binary proves itself;
  * `way_back` -- **whatever a power loss leaves of a history, there is a way back**, to a binary that
    proved itself, as long as no sync of a directory failed and no probe missed a file;
  * `fitted_run` -- what the operations of a run write to and rename;
  * `blackout_exec` -- **every run on such a disk is a run of Update/Run's machine** on the files it
    found, whatever fails.
-/
import Sn46Validator.Library.History
import Sn46Validator.Library.Simulate
import Sn46Validator.Update.Attempt
import Sn46Validator.Update.Retreat

namespace Sn46Validator.Update

open Library Disk

variable {crypto : Crypto} {reports : Bytes → Option String} {key : crypto.Key}

/-! ## 1. The system -/

/-- **The host comes up** with the disk `d`. -/
def Powered.up (w : Powered) (d : Disk Path) (healthy : Prop) : Powered :=
  { w with disk := d, healthy := healthy }

/-- **Runs of the updater and power losses**: each run by the binary that is installed when it starts,
    under one key. -/
@[reducible] def blackouts (crypto : Crypto) (reports : Bytes → Option String) (key : crypto.Key) :
    System iface where
  machine := powered reports
  Call := Call crypto
  Out := Except UpdateError Outcome
  prog c := (run c).run
  enter c w w' := (∃ d, PowerLoss w.disk d ∧ w' = w.up d (c.polls.check = .ok ())) ∧
    Runs reports (w'.files .install) c.config.runningVersion ∧ c.config.publicKey = key
  env _ _ := False

/-- **A disk that nothing is lost of**, and on which no file has two names. -/
structure Settled (d : Disk Path) : Prop where
  kept : ∀ m, d.kept m → m = d.names
  synced : ∀ i, d.synced i
  inj : ∀ p q i, d.names p = some i → d.names q = some i → p = q

theorem Settled.lost {d : Disk Path} {f : Files Path} (h : Settled d) (hf : Lost d f) :
    f = d.files := by
  obtain ⟨m, c, hm, hc, rfl⟩ := lost_iff.mp hf
  obtain rfl := h.kept m hm
  funext p
  show (d.names p).map c = (d.names p).map d.data
  rw [funext fun i => hc i (h.synced i)]

theorem Settled.tidy {d : Disk Path} (h : Settled d) : Tidy Path.dir Path.Written d where
  inj m hm := by
    obtain rfl := h.kept m hm
    exact h.inj
  dir m m' hm hm' p q i hp hq := by
    obtain rfl := h.kept m hm
    obtain rfl := h.kept _ hm'
    rw [h.inj p q i hp hq]
  single t _ i hi m hm p hp := by
    obtain rfl := h.kept m hm
    exact h.inj p t i hp hi

/-- **Where a history begins**: on a disk at rest, with the proven binary `first` installed and nothing
    pending. -/
structure Begins (first : Bytes) (w : Powered) : Prop where
  settled : Settled w.disk
  installed : w.files .install = some first
  pending : w.files (.state .pending) = none
  readable : FailedRead (w.files (.state .failed))
  proven : w.proven first

/-! ## 2. The invariant -/

theorem Begins.secure {w : Powered} {first : Bytes} (h : Begins first w) : Secure reports key w where
  tidy := h.settled.tidy
  installed i _ := h.settled.synced i
  pending i _ := h.settled.synced i
  readable f hl := by
    rw [h.settled.lost hl]
    exact h.readable
  wayBack f g hl hg := by
    rw [h.settled.lost hl, h.settled.lost hg]
    show WayBack reports key w.proven (w.files .install) _ (w.files (.state .pending))
    rw [h.installed, h.pending]
    exact .settled h.proven

/-- **Where the host comes up.** -/
theorem Secure.rests {w : Powered} {d : Disk Path} (h : Secure reports key w)
    (hl : PowerLoss w.disk d) (healthy : Prop) :
    Rests (d.files .install) (d.files .previous) (d.files (.state .pending)) (w.up d healthy) ∧
      WayBack reports key w.proven (d.files .install) (d.files .previous)
        (d.files (.state .pending)) ∧ Firm .previous d := by
  obtain ⟨ht, hfirm⟩ := h.tidy.powerLoss hl
  have hcame : Lost w.disk d.files := ⟨d, hl, rfl⟩
  have hstay : ∀ f, Lost (w.up d healthy).disk f → f = d.files := fun f hf => hl.lost_eq hf
  refine ⟨⟨ht, hfirm _, hfirm _, fun f hf => ?_, fun f hf => ?_, fun f hf => ?_⟩,
    h.wayBack _ _ hcame hcame, hfirm _⟩
  · rw [hstay f hf]
    exact h.readable _ hcame
  · rw [hstay f hf]
    exact ⟨rfl, rfl⟩
  · rw [hstay f hf]

/-- A call, from where the host comes up. -/
theorem blackout_leaves {c : Call crypto} {w w' : Powered} (h : Secure reports key w)
    (he : (blackouts crypto reports key).enter c w w') :
    Secure reports key w' ∧ Leaves reports key (run c).run (fun _ _ => True) w' := by
  obtain ⟨⟨d, hl, rfl⟩, hrun, hkey⟩ := he
  obtain ⟨hrests, hway, hfirm⟩ := h.rests hl (c.polls.check = .ok ())
  refine ⟨Knows.secure hrests fun i q g hF hG => ?_, leaves_run hrests hway hfirm hrun hkey id⟩
  obtain ⟨rfl, rfl⟩ := hF
  exact hG ▸ hway

/-- **Everything that may come back leaves a way back**, as long as the operations are reliable. -/
theorem secure_history {w₀ w : Powered} {recs : List (Record (blackouts crypto reports key))}
    (h : History (blackouts crypto reports key) w₀ recs w) (h₀ : Secure reports key w₀)
    (hr : ∀ e ∈ trace recs, Reliable e) : Secure reports key w := by
  induction h with
  | nil => exact h₀
  | env _ he => exact he.elim
  | run _ he hx ih =>
    obtain ⟨hs, hleaves⟩ := blackout_leaves (ih fun e hm => hr e (by simp [hm])) he
    exact Exec.induct (P := fun _ w => Secure reports key w) (t := []) (fun _ _ hg _ => hg)
      (fun _ _ _ hc _ => hc) (hx.within fun e hm => hr e (by simp [hm])) hleaves hs

/-! ## 3. What proved itself -/

/-- A restart of the service found `b` installed, and the health check passes. -/
def Passed (b : Bytes) (e : Event (powered reports)) : Prop :=
  e.op = .restart ∧ e.before.healthy ∧ e.before.files .install = some b

/-- One operation proves nothing else. -/
theorem proven_act {e : Event (powered reports)} {b : Bytes}
    (ha : (powered reports).act e.before e.op e.ans e.after) (hb : e.after.proven b) :
    e.before.proven b ∨ Passed b e := by
  obtain ⟨w, op, x, w'⟩ := e
  cases op with
  | fs op =>
    obtain ⟨d, -, rfl⟩ : ∃ d, _ ∧ w' = w.filed op d := ha
    exact .inl hb
  | createStateDir | stateDirMeta | openLock | tryLock =>
    obtain rfl : w' = w := ha
    exact .inl hb
  | version =>
    obtain rfl : w' = w := by cases x <;> exact ha.1
    exact .inl hb
  | restart =>
    cases x with
    | ok u =>
      obtain rfl : w' = w.served := ha
      exact hb.imp id fun h => ⟨rfl, h⟩
    | error e =>
      obtain rfl : w' = w := ha
      exact .inl hb

/-- **A binary is proven from the beginning, or by a restart.** -/
theorem proven_history {w₀ w : Powered} {recs : List (Record (blackouts crypto reports key))}
    (h : History (blackouts crypto reports key) w₀ recs w) :
    ∀ b, w.proven b → w₀.proven b ∨ ∃ e ∈ trace recs, Passed b e := by
  refine History.induct (S := blackouts crypto reports key)
    (G := fun _ e => (powered reports).act e.before e.op e.ans e.after)
    (C := fun _ w w' => ∃ op, (powered reports).cut w op w')
    (P := fun tr w => ∀ b, w.proven b → w₀.proven b ∨ ∃ e ∈ tr, Passed b e)
    { env := fun _ _ _ _ he => False.elim he
      enter := fun _ _ _ _ hi he => ?_
      ensures := fun _ c _ w' _ _ => ⟨_, ensures_act (M := powered reports) (run c).run w'⟩
      step := fun tr _ e ha hi b hb => ?_
      cut := fun _ _ _ _ hc hi => ?_ } h fun _ hb => .inl hb
  · obtain ⟨⟨d, -, rfl⟩, -⟩ := he
    exact hi
  · rcases proven_act ha hb with hb | hp
    · exact (hi b hb).imp id fun h => h.imp fun e' he' => ⟨List.mem_append_left _ he'.1, he'.2⟩
    · exact .inr ⟨e, List.mem_append_right _ List.mem_cons_self, hp⟩
  · obtain ⟨op, hc⟩ := hc
    cases op with
    | fs op =>
      obtain ⟨d, -, rfl⟩ := hc
      exact hi
    | _ => exact hc.elim

/-! ## 4. The host of the tests -/

/-- Every operation answered without a failure. -/
def Powered.calm (reports : Bytes → Option String) (w : Powered) : (op : Op) → Op.Ans op × Powered
  | .fs op =>
    let r := op.execOn Path.dir w.due w.disk
    (r.1, w.filed op r.2)
  | .createStateDir | .openLock => (.ok (), w)
  | .stateDirMeta => (.ok ⟨true, 0, 0o755, 0⟩, w)
  | .tryLock => (.acquired, w)
  | .version =>
    match (w.files .staged).bind reports with
    | some out => (.ok out, w)
    | none => (.error (.binary "cannot run: "), w)
  | .restart => (.ok (), w.served)

theorem reliable_calm (reports : Bytes → Option String) (w : Powered) (op : Op) :
    Reliable (⟨w, op, (w.calm reports op).1, (w.calm reports op).2⟩ : Event (powered reports)) := by
  cases op with
  | fs op =>
    cases op with
    | probe p => rfl
    | sync =>
      intro a ha
      simp only [Powered.calm, FileOp.execOn, ha]
    | _ => trivial
  | _ => trivial

theorem powered_calm (reports : Bytes → Option String) (w : Powered) (op : Op) :
    (powered reports).act w op (w.calm reports op).1 (w.calm reports op).2 := by
  cases op with
  | fs op => exact ⟨_, op.actOn_execOn Path.dir w.due w.disk, rfl⟩
  | createStateDir | openLock | tryLock | stateDirMeta => rfl
  | version =>
    unfold Powered.calm
    cases h : (w.files .staged).bind reports with
    | none => exact ⟨rfl, .inl ⟨_, rfl⟩⟩
    | some out =>
      obtain ⟨b, hb, hr⟩ := Option.bind_eq_some_iff.mp h
      exact ⟨rfl, b, hb, hr⟩
  | restart => rfl

/-- **The disk of the tests**: 0.1.3 is installed, and nothing else is there. -/
def testDisk : Disk Path where
  names
    | .install => some 0
    | _ => none
  data _ := fakeBinary "0.1.3"
  synced _ := True
  kept m := m = fun
    | .install => some 0
    | _ => none
  next := 1
  names_kept := rfl
  numbered := by
    intro m hm p i hp
    subst hm
    cases p <;> cases hp
    exact Nat.zero_lt_one

theorem testDisk_settled : Settled testDisk where
  kept _ hm := hm
  synced _ := trivial
  inj p q i hp hq := by
    cases p <;> cases hp
    cases q <;> cases hq
    rfl

def testPowered : Powered := ⟨testDisk, .directory .state, True, (· = fakeBinary "0.1.3")⟩

/-- The same where the host comes up for the update of the tests. -/
def bootedPowered : Powered :=
  testPowered.up (testDisk.back testDisk.names testDisk.data rfl)
    ((testCall "0.1.3" release4 true).polls.check = .ok ())

/-- After the first `n` operations of that update. -/
def poweredAfter (n : Nat) : List (Event (powered testReports)) ×
    Option (Except UpdateError Outcome) × Powered :=
  (run (testCall "0.1.3" release4 true)).run.play (M := powered testReports)
    (Powered.calm testReports) n bootedPowered

theorem booted_enters : (blackouts testCrypto testReports testKey).enter
    (testCall "0.1.3" release4 true) testPowered bootedPowered :=
  ⟨⟨_, .back rfl fun _ _ => rfl, rfl⟩, testHost_runs, rfl⟩

theorem exec_powered (n : Nat) :
    Exec (powered testReports) bootedPowered (run (testCall "0.1.3" release4 true)).run
      (poweredAfter n).1 (poweredAfter n).2.1 (poweredAfter n).2.2 :=
  Exec.play (M := powered testReports) (powered_calm testReports) n _ _

theorem reliable_powered (n : Nat) : ∀ e ∈ (poweredAfter n).1, Reliable e :=
  Prog.play_events (T := Reliable) (reliable_calm testReports) n _ _

theorem history_powered (n : Nat) :
    History (blackouts testCrypto testReports testKey) testPowered
      [⟨testCall "0.1.3" release4 true, (poweredAfter n).1, (poweredAfter n).2.1⟩]
      (poweredAfter n).2.2 :=
  .run (S := blackouts testCrypto testReports testKey) .nil booted_enters (exec_powered n)

theorem testPowered_begins : Begins (fakeBinary "0.1.3") testPowered :=
  ⟨testDisk_settled, rfl, rfl, show Stored.of _ none ≠ .malformed from nofun, rfl⟩

/-! ## 5. The way back -/

/-- **An operation of such a disk**: it writes to a file that is written to, and renames one to another
    name of its directory. -/
def Op.Fits : Op → Prop
  | .fs op => op.Fits Path.dir Path.Written
  | _ => True

section Fits

variable {c : Call crypto} {p : Pending} {m : Manifest} {α β : Type} {nowMs : U64} {reason : String}

theorem fits_readJson {k : Codec α} {f : StateFile} : (readJson k f).run.Uses Op.Fits :=
  uses_readJson trivial

theorem fits_writeJson {f : StateFile} {bytes : Bytes} : (writeJson f bytes).run.Uses Op.Fits :=
  uses_writeJson trivial ⟨trivial, id, rfl⟩ trivial

theorem fits_removeStaged : removeStaged.run.Uses Op.Fits := uses_removeStaged trivial

theorem fits_recordFailure {version : String} {sequence : U64} :
    (recordFailure version sequence nowMs).run.Uses Op.Fits :=
  uses_recordFailure trivial fun _ => fits_writeJson

/-- **`roll_back`.** -/
theorem fits_rollBack : (rollBack p nowMs reason).Uses Op.Fits := by
  refine uses_bind fits_writeJson fun _ => uses_bind fits_recordFailure fun recorded => ?_
  refine uses_bind (uses_restore trivial ⟨trivial, id, rfl⟩ trivial) fun x => ?_
  cases x with
  | error e => trivial
  | ok u => exact uses_settle trivial trivial

/-- **`confirm`.** -/
theorem fits_confirm : (confirm c p).run.Uses Op.Fits := by
  refine uses_bindE (uses_lift (uses_restartAndCheck trivial)) fun x => ?_
  cases x with
  | error reason => exact uses_bindE (uses_lift fits_rollBack) fun _ => trivial
  | ok u =>
    exact uses_bindE fits_writeJson fun _ => uses_op trivial fun _ =>
      uses_bindE uses_io fun _ => trivial

/-- **`recover`.** -/
theorem fits_recover : (recover c).run.Uses Op.Fits := by
  refine uses_bindE fits_readJson fun o => ?_
  cases o with
  | none => trivial
  | some p =>
    refine uses_bindE ?_ fun b => ?_
    · unfold restored
      split_ifs
      · exact uses_op trivial fun _ => trivial
      · trivial
    · split_ifs
      · exact uses_bindE (uses_lift fits_rollBack) fun _ => trivial
      · exact uses_bindE fits_confirm fun _ => trivial
      · exact uses_op trivial fun _ => uses_bindE uses_io fun _ => trivial

/-- The swap, and the check of the release. -/
theorem fits_swapIn : (swapIn c m).run.Uses Op.Fits := by
  refine uses_bindE (uses_lift (uses_backUp trivial trivial)) fun x => ?_
  cases x with
  | error e => exact uses_bindE fits_removeStaged fun _ => trivial
  | ok u =>
    refine uses_op trivial fun _ => uses_catch fits_writeJson fun x => ?_
    cases x with
    | error e => exact uses_bindE fits_removeStaged fun _ => trivial
    | ok u =>
      refine uses_op ⟨trivial, id, rfl⟩ fun x => ?_
      cases x with
      | error e => exact uses_bindE fits_removeStaged fun _ => uses_op trivial fun _ => trivial
      | ok u => exact uses_op trivial fun _ => fits_confirm

theorem fits_refuse {e : UpdateError} : (refuse c m e).run.Uses Op.Fits := by
  refine uses_bindE fits_removeStaged fun _ => ?_
  cases e with
  | badRelease why => exact uses_bindE fits_recordFailure fun _ => trivial
  | _ => trivial

/-- **The operations of a run are those of such a disk**: no more is looked at. -/
@[reducible] def fitted (reports : Bytes → Option String) : Simulation (powered reports) Unit where
  view _ := ()
  step op _ _ _ := op.Fits
  torn _ _ := True

/-- A program whose operations fit. -/
abbrev Fitted (reports : Bytes → Option String) (p : Prog iface α) : Prop :=
  Refines (fitted reports) p (fun _ _ => True) ()

theorem fitted_of_uses {q : Prog iface α} (hq : q.Uses Op.Fits) : Fitted reports q :=
  refines_of_uses (J := fun _ => True) (fun _ _ _ _ _ _ => trivial)
    (fun _ _ _ _ hop _ _ => ⟨hop, trivial⟩) hq trivial

/-- The same, and what follows it. -/
theorem fitted_then {q : Run α} {f : α → Run β} (hq : q.run.Uses Op.Fits)
    (hf : ∀ a, Fitted reports (f a).run) : Fitted reports (q >>= f).run := by
  refine refines_bindE (refines_mono (fitted_of_uses hq) fun r _ _ => ?_)
  cases r with
  | ok a => exact hf a
  | error e => trivial

/-- The same, where its errors are caught. -/
theorem fitted_catch {q : Run α} {f : Except UpdateError α → Run β} (hq : Fitted reports q.run)
    (hf : ∀ r, Fitted reports (f r).run) : Fitted reports (ExceptT.lift q.run >>= f).run :=
  refines_bindE (refines_lift (refines_mono hq fun r _ _ => hf r))

theorem fitted_ret {r : Except UpdateError α} :
    Fitted reports (pure r : Prog iface (Except UpdateError α)) := refines_pure trivial

/-- **`stage`.** -/
theorem fitted_stage : Fitted reports (stage c m).run := by
  unfold stage
  generalize download c m = delivered
  refine fitted_then uses_orThrow fun binary => fitted_then fits_removeStaged fun _ => ?_
  refine fitted_then (uses_lift (uses_perform trivial)) fun _ => fitted_then uses_io fun _ => ?_
  refine fitted_then (uses_lift (uses_perform trivial)) fun x => ?_
  cases x with
  | error e => exact fitted_ret
  | ok reported =>
    dsimp only
    split_ifs
    · exact fitted_ret
    · exact fitted_ret

/-- From a due release to the swap. -/
theorem fitted_install : Fitted reports (install c m).run := by
  refine fitted_then (uses_lift (uses_perform trivial)) fun there => ?_
  split_ifs
  · refine fitted_then (uses_checkDisk (fun _ => fits_writeJson) trivial) fun _ => ?_
    refine fitted_catch fitted_stage fun x => ?_
    cases x with
    | ok u => exact fitted_of_uses fits_swapIn
    | error e => exact fitted_of_uses fits_refuse
  · exact fitted_ret

/-- What becomes of an offered release. -/
theorem fitted_consider {installed : Installed} : Fitted reports (consider c m installed).run := by
  unfold consider
  split_ifs
  · exact fitted_ret
  · exact fitted_then fits_writeJson fun _ => fitted_ret
  · refine fitted_then fits_readJson fun failed => ?_
    unfold schedule
    split_ifs
    · exact fitted_ret
    · cases notYet c m with
      | some outcome => exact fitted_ret
      | none => exact fitted_install

/-- A run that holds the lock. -/
theorem fitted_locked : Fitted reports (locked c).run := by
  refine fitted_then fits_recover fun o => ?_
  cases o with
  | some outcome => exact fitted_ret
  | none =>
    refine fitted_then fits_readJson fun installed => fitted_then uses_orThrow fun o => ?_
    cases o with
    | none => exact fitted_ret
    | some m => exact fitted_consider

/-- **The whole run.** -/
theorem fitted_run : Fitted reports (run c).run := by
  have hop : ∀ {op : Op}, op.Fits → (perform op).run.Uses Op.Fits := fun hop =>
    uses_lift (uses_perform hop)
  unfold run
  split_ifs
  · refine fitted_then (hop trivial) fun _ => fitted_then uses_io fun _ => ?_
    refine fitted_then (uses_checkStateDir trivial) fun _ => fitted_then (hop trivial) fun _ => ?_
    refine fitted_then uses_io fun _ => fitted_then (hop trivial) fun x => ?_
    cases x with
    | acquired => exact fitted_locked
    | wouldBlock => exact fitted_ret
    | error e => exact fitted_ret
  · exact fitted_ret

end Fits

/-! ## 7. The files -/

/-- The host has the files of the disk. -/
def Mirrors (w : Powered) (v : Host) : Prop :=
  v.files = w.disk.files ∧ Tidy Path.dir Path.Written w.disk

theorem mirrors_act {w w' : Powered} {v : Host} {op : Op} {x : Op.Ans op} (hR : Mirrors w v)
    (ha : (powered reports).act w op x w') (hfit : op.Fits) :
    ∃ v', (machine reports true).act v op x v' ∧ Mirrors w' v' := by
  obtain ⟨hv, ht⟩ := hR
  cases op with
  | fs op =>
    obtain ⟨d, ha, rfl⟩ := ha
    obtain ⟨ha, ht'⟩ := FileOp.act_of_actOn ht hfit ha
    exact ⟨_, ⟨d.files, hv ▸ ha, rfl⟩, heard_files _ _ _, ht'⟩
  | createStateDir | stateDirMeta | openLock | tryLock =>
    obtain rfl : w' = w := ha
    exact ⟨v, ⟨rfl, nofun⟩, hv, ht⟩
  | version =>
    cases x with
    | ok out =>
      obtain ⟨rfl, b, hb, hout⟩ := ha
      refine ⟨v, ⟨rfl, b, ?_, hout⟩, hv, ht⟩
      rw [hv]
      exact hb
    | error e =>
      obtain ⟨rfl, he⟩ := ha
      exact ⟨v, ⟨rfl, he.imp id fun he => ⟨rfl, he⟩⟩, hv, ht⟩
  | restart =>
    cases x with
    | ok u =>
      obtain rfl : w' = w.served := ha
      exact ⟨_, rfl, hv, ht⟩
    | error e =>
      obtain rfl : w' = w := ha
      exact ⟨v, ⟨rfl, rfl⟩, hv, ht⟩

theorem mirrors_cut {w w' : Powered} {v : Host} {op : Op} (hR : Mirrors w v)
    (hc : (powered reports).cut w op w')
    (hfit : ∀ x w'', (powered reports).act w op x w'' → op.Fits) :
    ∃ v', (machine reports true).cut v op v' ∧ Mirrors w' v' := by
  obtain ⟨hv, ht⟩ := hR
  cases op with
  | fs op =>
    obtain ⟨d, hc, rfl⟩ := hc
    have hx := op.actOn_execOn Path.dir w.due w.disk
    obtain ⟨hc, ht'⟩ := FileOp.cut_of_cutOn ht (hfit _ _ ⟨_, hx, rfl⟩) hc
    exact ⟨_, ⟨d.files, hv ▸ hc, rfl⟩, rfl, ht'⟩
  | _ => exact hc.elim

/-- **Every run on a disk that can lose power is a run of Update/Run's machine** on the files it found,
    whatever fails and wherever it is killed: with the same operations and answers, the same outcome
    and the same files in the end. It leaves a tidy disk, and so does any power loss after it, so the
    next run is one, too. -/
theorem blackout_exec {w w' : Powered} {c : Call crypto} {tr : List (Event (powered reports))}
    {o : Option (Except UpdateError Outcome)} {v : Host} (ht : Tidy Path.dir Path.Written w.disk)
    (hx : Exec (powered reports) w (run c).run tr o w') (hv : v.files = w.disk.files) :
    (∃ tr' v', Exec (machine reports true) v (run c).run tr' o v' ∧ asked tr' = asked tr ∧
      v'.files = w'.disk.files) ∧
    Tidy Path.dir Path.Written w'.disk ∧ ∀ d, PowerLoss w'.disk d → Tidy Path.dir Path.Written d := by
  obtain ⟨tr', v', hx', hasked, hR⟩ := Exec.simulate (machine reports true)
    (fun _ _ _ _ _ hR ha hfit => mirrors_act hR ha hfit)
    (fun _ _ _ _ hR hc hfit => mirrors_cut hR hc hfit) hx
    (fitted_run.ensures w rfl) ⟨hv, ht⟩
  exact ⟨⟨tr', v', hx', hasked, hR.1⟩, hR.2, fun d hl => (hR.2.powerLoss hl).1⟩

/-- The update of the tests, up to the swap. -/
theorem blackout_exec_test : ∃ tr v',
    Exec (machine testReports true) ⟨testPowered.files, none, true, false⟩
        (run (testCall "0.1.3" release4 true)).run tr (poweredAfter 20).2.1 v' ∧
      asked tr = asked (poweredAfter 20).1 ∧ v'.files .install = some (fakeBinary "0.1.4") := by
  obtain ⟨⟨tr, v', hx, hasked, hv⟩, -⟩ := blackout_exec
    (testDisk_settled.tidy.powerLoss (.back rfl fun _ _ => rfl)).1 (exec_powered 20)
    (v := ⟨testPowered.files, none, true, false⟩) rfl
  refine ⟨tr, v', hx, hasked, ?_⟩
  rw [hv]
  show (poweredAfter 20).2.2.files .install = _
  decide +kernel

end Sn46Validator.Update
