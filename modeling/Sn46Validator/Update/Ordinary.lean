/-
  File:      Update/Ordinary.lean
  Subject:   AN ORDINARY RUN ON A HOST THAT WORKS: what is decided, and what is left.

  Nothing is pending when such a run begins, and no operation fails but the staged binary's own.

  * `Ready`, `Attempts` -- the offered release is tried: newer, not failed before, delivered intact,
    the host has the space, and it is due;
  * `Settles` -- **the decision**: every way the run can end, with the durable state it leaves;
  * `run_settles` -- the run decides so;
  * `due_release` -- **a release that is due is installed**, or it failed here and is recorded so;
  * `attempted_once` -- **while one release is offered, one run at most changes anything**, whatever
    the clock, the health check and the downloads say.
-/
import Sn46Validator.Update.Attempt
import Sn46Validator.Update.Recovery

namespace Sn46Validator.Update

open Library

variable {crypto : Crypto} {reports : Bytes → Option String}

/-! ## 1. A host that works -/

/-- The durable state of a host that works; every operation is taken as it comes. -/
@[reducible] def working (reports : Bytes → Option String) :
    Simulation (machine reports false) Durable where
  view := view
  step _ _ _ _ := True
  torn _ _ := True

section Rules

variable {α β : Type} {d : Durable}

/-- One operation. -/
theorem works_perform {op : Op} {Q : Op.Ans op → Durable → Prop}
    (h : ∀ w x w', view w = d → (machine reports false).act w op x w' → Q x (view w')) :
    Refines (working reports) (Prog.perform (I := iface) op) Q d :=
  refines_op (fun _ _ _ _ => trivial) fun w x w' he ha => ⟨trivial, h w x w' he ha⟩

theorem works_orThrow {x : Except UpdateError α} {Q : Except UpdateError α → Durable → Prop}
    (h : Q x d) : Refines (working reports) (orThrow x).run Q d := by
  cases x with
  | ok a => exact refines_pureE h
  | error e => exact refines_throw h

/-- A directory is flushed. -/
theorem works_sync {Q : Except IoError Unit → Durable → Prop} (h : Q (.ok ()) d) :
    Refines (working reports) (Prog.perform (I := iface) (.fs .sync)) Q d := by
  refine works_perform fun w x w' he ha => ?_
  subst he
  rw [view_scratch ha (by simp [FileOp.targets]) (by simp)]
  obtain ⟨fs, ⟨-, rfl | ⟨hf, -⟩⟩, -⟩ := act_fs ha
  · exact h
  · cases hf

/-- **Reading a state file.** -/
theorem works_readJson {c : Codec α} {f : StateFile} (get : Durable → Stored α)
    (hget : ∀ w, get (view w) = .of c (w.files (.state f)))
    {Q : Except UpdateError (Option α) → Durable → Prop}
    (hnone : get d = .absent → Q (.ok none) d) (hsome : ∀ a, get d = .holds a → Q (.ok (some a)) d)
    (herr : ∀ e, get d = .malformed → Q (.error e) d) :
    Refines (working reports) (readJson c f).run Q d := by
  refine refines_bindE (refines_lift (works_perform fun w x w' he ha => ?_))
  subst he
  rw [view_scratch ha (by simp [FileOp.targets]) (by simp), rest_ok]
  obtain ⟨fs, ⟨-, rfl | ⟨hf, -⟩⟩, -⟩ := act_fs ha
  · rw [hget] at hnone hsome herr
    cases hr : w.files (.state f) with
    | none =>
      rw [hr] at hnone
      exact refines_pureE (hnone rfl)
    | some raw =>
      rw [hr] at hsome herr
      simp only [Stored.of] at hsome herr
      dsimp only
      cases hd : c.decode raw with
      | some a =>
        rw [hd] at hsome
        exact refines_pureE (hsome a rfl)
      | none =>
        rw [hd] at herr
        exact refines_throw (herr _ rfl)
  · cases hf

/-- **Writing a state file.** -/
theorem works_writeJson {f : StateFile} {bytes : Bytes}
    {Q : Except UpdateError Unit → Durable → Prop} (h : Q (.ok ()) (d.put bytes f)) :
    Refines (working reports) (writeJson f bytes).run Q d := by
  refine ⟨fun w he => ?_⟩
  subst he
  unfold writeJson
  rw [ensures_bindE, perform, ensures_liftE, ensures_perform]
  refine ⟨fun _ _ => trivial, fun x w₁ h₁ => ⟨trivial, ?_⟩⟩
  have hv₁ : view w₁ = view w := view_scratch h₁ (by simp [FileOp.targets, Scratch]) (by simp)
  obtain ⟨fs, ⟨rfl, rfl⟩ | ⟨hf, -⟩, hw₁⟩ := act_fs h₁
  · -- the temporary file holds the bytes when the rename comes
    have ht : w₁.files (.temporary f) = some bytes := by
      rw [hw₁, heard_of_ne (by simp)]
      simp [Host.filed, FileOp.put]
    rw [after_ok, io_ok_bind, perform, ensures_bindE, ensures_liftE, ensures_perform]
    refine ⟨fun _ _ => trivial, fun x w₂ h₂ => ⟨trivial, ?_⟩⟩
    obtain ⟨rfl, hv₂⟩ | ⟨hf, -⟩ := view_commit h₂ ht
    · rw [hv₁] at hv₂
      refine (refines_bindE (refines_lift (works_sync ?_))).ensures w₂ hv₂
      exact refines_pureE h
    · cases hf
  · cases hf

/-- The staged binary is removed. -/
theorem works_removeStaged {Q : Except UpdateError Unit → Durable → Prop}
    (h : Q (.ok ()) { d with staged := none }) :
    Refines (working reports) removeStaged.run Q d := by
  refine refines_bindE (refines_lift (works_perform fun w x w' he ha => ?_))
  subst he
  rw [view_staged ha (by simp [FileOp.targets]) (by simp), rest_ok]
  refine refines_pureE ?_
  obtain ⟨fs, ⟨-, -, rfl⟩ | ⟨hn, -, rfl⟩ | ⟨hf, -⟩, rfl⟩ := act_fs ha
  · rw [heard_of_ne (by simp)]
    simpa [Host.filed, FileOp.put] using h
  · rw [heard_of_ne (by simp)]
    simpa [Host.filed, hn] using h
  · cases hf

/-- `systemctl restart`. -/
theorem works_restart {Q : Except String Unit → Durable → Prop}
    (h : Q (.ok ()) { d with restarted := true }) :
    Refines (working reports) (Prog.perform (I := iface) .restart) Q d := by
  refine works_perform fun w x w' he ha => ?_
  subst he
  cases x with
  | ok u =>
    obtain rfl : w' = { w with restarted := true } := ha
    exact h
  | error e => exact absurd ha.2 (by simp)

/-- The removal of `pending.json`. -/
theorem works_clear {Q : Except IoError Unit → Durable → Prop} (hp : d.pending ≠ .absent)
    (h : Q (.ok ()) { d with pending := .absent }) :
    Refines (working reports) (Prog.perform (I := iface) (.fs (.remove (.state .pending)))) Q d := by
  refine works_perform fun w x w' he ha => ?_
  subst he
  obtain ⟨rfl, hv⟩ | ⟨hf, -⟩ := view_clear ha hp
  · rw [hv]
    exact h
  · cases hf

/-- A probe of `.previous`. -/
theorem works_probe {Q : Bool → Durable → Prop} (h : Q d.previous.isSome d) :
    Refines (working reports) (Prog.perform (I := iface) (.fs (.probe .previous))) Q d := by
  refine works_perform fun w x w' he ha => ?_
  subst he
  obtain ⟨rfl, hv⟩ | ⟨hf, -⟩ := view_probe ha
  · rw [hv]
    exact h
  · cases hf

/-- Is a binary installed? -/
theorem works_isFile {Q : Bool → Durable → Prop} (h : Q d.install.isSome d) :
    Refines (working reports) (Prog.perform (I := iface) (.fs (.isFile .install))) Q d := by
  refine works_perform fun w x w' he ha => ?_
  subst he
  rw [view_scratch ha (by simp [FileOp.targets]) (by simp)]
  obtain ⟨fs, ⟨-, rfl | ⟨hf, -⟩⟩, -⟩ := act_fs ha
  · exact h
  · cases hf

/-- The staged binary is created where there is none. -/
theorem works_create {data : Bytes} {Q : Except IoError Unit → Durable → Prop}
    (hs : d.staged = none) (h : Q (.ok ()) { d with staged := some data }) :
    Refines (working reports) (Prog.perform (I := iface) (.fs (.create .staged data))) Q d := by
  refine works_perform fun w x w' he ha => ?_
  subst he
  rw [view_staged ha (by simp [FileOp.targets]) (by simp)]
  obtain ⟨fs, ⟨-, rfl, rfl⟩ | ⟨hn, -⟩ | ⟨hf, -⟩, rfl⟩ := act_fs ha
  · rw [heard_of_ne (by simp)]
    simpa [Host.filed, FileOp.put] using h
  · exact absurd hs hn
  · cases hf

/-- The staged binary is run. -/
theorem works_version {b : Bytes} {Q : Except UpdateError String → Durable → Prop}
    (hs : d.staged = some b) (hok : ∀ out, reports b = some out → Q (.ok out) d)
    (herr : ∀ why, Q (.error (.binary why)) d) :
    Refines (working reports) (Prog.perform (I := iface) .version) Q d := by
  refine works_perform fun w x w' he ha => ?_
  subst he
  cases x with
  | ok out =>
    obtain ⟨rfl, b', hb, hr⟩ := ha
    obtain rfl : b = b' := Option.some.inj (hs.symm.trans hb)
    exact hok out hr
  | error e =>
    obtain ⟨rfl, ⟨why, rfl⟩ | ⟨hf, -⟩⟩ := ha
    · exact herr why
    · cases hf

/-- The staged binary is renamed over the installed one. -/
theorem works_swap {b : Bytes} {Q : Except IoError Unit → Durable → Prop}
    (hs : d.staged = some b)
    (h : Q (.ok ()) { d with install := some b, staged := none, restarted := false }) :
    Refines (working reports) (Prog.perform (I := iface) (.fs (.rename .staged .install))) Q d := by
  refine works_perform fun w x w' he ha => ?_
  subst he
  obtain ⟨rfl, hv⟩ | ⟨hf, -⟩ := view_swap ha hs
  · rw [hv]
    exact h
  · cases hf

/-- **`record_failure`** of a new failure. -/
theorem works_recordFailure {version : String} {sequence nowMs : U64} {f : FailedReleases}
    {Q : Except UpdateError Unit → Durable → Prop} (hf : d.failed.getD default = some f)
    (hs : f.has sequence = false)
    (h : Q (.ok ()) { d with failed := .holds (f.push ⟨sequence, version, nowMs⟩) }) :
    Refines (working reports) (recordFailure version sequence nowMs).run Q d := by
  have hput : d.put (FailedReleases.codec.encode (f.push ⟨sequence, version, nowMs⟩)) .failed =
      { d with failed := .holds (f.push ⟨sequence, version, nowMs⟩) } := by
    simp [Durable.put]
  have hwrite : Refines (working reports) (writeJson .failed (FailedReleases.codec.encode
      (f.push ⟨sequence, version, nowMs⟩))).run Q d := by
    refine works_writeJson ?_
    rw [hput]
    exact h
  refine refines_bindE (works_readJson (·.failed) (fun _ => rfl) ?_ ?_ ?_)
  · intro ha
    rw [ha] at hf
    obtain rfl := Option.some.inj hf
    exact hwrite
  · intro f' hf'
    rw [hf'] at hf
    obtain rfl := Option.some.inj hf
    show Refines (working reports) (if f'.has sequence = true then (pure () : Run Unit) else
      writeJson .failed (FailedReleases.codec.encode (f'.push ⟨sequence, version, nowMs⟩))).run Q d
    rw [if_neg (by rw [hs]; simp)]
    exact hwrite
  · intro e he
    rw [he] at hf
    cases hf

end Rules

/-! ## 2. The decision -/

/-- The host has the space for a release. -/
def Spacious (c : Call crypto) (m : Manifest) : Prop :=
  ∃ available, c.config.availableBytes = .ok available ∧ neededBytes m ≤ available

/-- **The offered release `m` can be tried**: it is newer, no other version of it runs, it did not
    fail before (`f` are the failures so far), and the host has the space for its bytes `b`. -/
structure Ready (c : Call crypto) (d : Durable) (m : Manifest) (f : FailedReleases) (b : Bytes) :
    Prop where
  offered : offered c = .ok (some m)
  newer : d.Newer m.sequence
  version_ne : m.version ≠ c.config.runningVersion
  failures : d.failed.getD default = some f
  unfailed : f.has m.sequence = false
  installed : d.install ≠ none
  spacious : Spacious c m
  download : download c m = .ok b

/-- **It is tried**: it is due, too. -/
structure Attempts (c : Call crypto) (d : Durable) (m : Manifest) (f : FailedReleases) (b : Bytes) :
    Prop extends Ready c d m f b where
  due : notYet c m = none

/-- The failures with one of `m` more. -/
def blamed (c : Call crypto) (m : Manifest) (f : FailedReleases) : Stored FailedReleases :=
  .holds (f.push ⟨m.sequence, m.version, c.nowMs⟩)

/-- **How an ordinary run ends on a host that works**, and the durable state it leaves. -/
inductive Settles (reports : Bytes → Option String) (c : Call crypto) (d : Durable) :
    Except UpdateError Outcome → Durable → Prop where
  /-- A state file cannot be read. -/
  | unreadable {e : UpdateError} (h : d.release = .malformed ∨ d.failed = .malformed) :
      Settles reports c d (.error e) d
  /-- No manifest is fetched that verifies. -/
  | unoffered {e : UpdateError} (h : offered c = .error e) : Settles reports c d (.error e) d
  | noManifest (h : offered c = .ok none) : Settles reports c d (.ok .noManifest) d
  | notNewer {m : Manifest} (ho : offered c = .ok (some m)) (hs : m.sequence ≤ d.recorded) :
      Settles reports c d (.ok .notNewer) d
  /-- The running release is recorded. -/
  | adopted {m : Manifest} (ho : offered c = .ok (some m)) (hn : d.Newer m.sequence)
      (hv : m.version = c.config.runningVersion) :
      Settles reports c d (.ok .alreadyRunning) { d with release := .holds ⟨m.version, m.sequence⟩ }
  | failedBefore {m : Manifest} {f : FailedReleases} (ho : offered c = .ok (some m))
      (hf : d.failed = .holds f) (hs : f.has m.sequence = true) :
      Settles reports c d (.ok .previouslyFailed) d
  | early {m : Manifest} {o : Outcome} (ho : offered c = .ok (some m)) (h : notYet c m = some o) :
      Settles reports c d (.ok o) d
  /-- Nothing is installed, or there is no space. -/
  | blocked {m : Manifest} {e : UpdateError} (ho : offered c = .ok (some m))
      (h : d.install = none ∨ ¬Spacious c m) : Settles reports c d (.error e) d
  /-- The binary does not arrive as the manifest describes it. -/
  | undelivered {m : Manifest} {e : UpdateError} (ho : offered c = .ok (some m))
      (h : download c m = .error e) : Settles reports c d (.error e) { d with staged := none }
  /-- The binary arrived, and does not run here as its version. -/
  | unusable {m : Manifest} {f : FailedReleases} {b : Bytes} {why : String}
      (h : Attempts c d m f b) :
      Settles reports c d (.error (.badRelease why))
        { d with staged := none, failed := blamed c m f }
  /-- The release is swapped in and healthy. -/
  | updated {m : Manifest} {f : FailedReleases} {b : Bytes} (h : Attempts c d m f b)
      (hr : reports b = some (banner m.version)) (hc : c.polls.check = .ok ()) :
      Settles reports c d (.ok (.updated m.version))
        { d with
          install := some b, previous := d.install, staged := none, pending := .absent
          release := .holds ⟨m.version, m.sequence⟩, atPending := d.install, restarted := true }
  /-- The release is swapped in, not healthy, and rolled back. -/
  | rolledBack {m : Manifest} {f : FailedReleases} {b : Bytes} {reason : String}
      (h : Attempts c d m f b) (hr : reports b = some (banner m.version))
      (hc : c.polls.check = .error reason) :
      Settles reports c d (.error (.rolledBack m.version reason))
        { d with
          previous := none, staged := none, pending := .absent, failed := blamed c m f
          atPending := d.install, restarted := true }

/-! ## 3. The run decides so -/

section Functions

variable {c : Call crypto} {d : Durable}

/-- **`check_disk`.** -/
theorem works_checkDisk {m : Manifest} {Q : Except UpdateError Unit → Durable → Prop}
    (hok : Spacious c m → Q (.ok ()) d) (herr : ∀ e, ¬Spacious c m → Q (.error e) d) :
    Refines (working reports) (checkDisk c m).run Q d := by
  refine refines_bindE (works_orThrow ?_)
  cases ha : c.config.availableBytes with
  | error e =>
    refine herr e fun hs => ?_
    obtain ⟨available, he, -⟩ := hs
    rw [ha] at he
    cases he
  | ok available =>
    rw [rest_ok]
    show Refines (working reports) (ExceptT.run (if available < neededBytes m then _ else _)) Q d
    split_ifs with hlt
    · refine refines_bindE (works_writeJson ?_)
      rw [rest_ok]
      refine refines_throw (herr _ fun hs => ?_)
      obtain ⟨available', he, hle⟩ := hs
      rw [ha] at he
      obtain rfl := Except.ok.inj he
      exact absurd hlt (Fin.not_lt.mpr hle)
    · have h := hok ⟨available, ha, Fin.not_lt.mp hlt⟩
      refine refines_bindE (refines_lift (works_perform fun w x w' he hact => ?_))
      subst he
      rw [view_scratch hact (by simp [FileOp.targets, Scratch]) (by simp), rest_ok]
      obtain ⟨fs, ⟨-, rfl, -⟩ | ⟨-, rfl, -⟩ | ⟨hf, -⟩, -⟩ := act_fs hact
      · exact refines_pureE h
      · exact refines_pureE h
      · cases hf

/-- **`stage`.** -/
theorem works_stage {m : Manifest} {Q : Except UpdateError Unit → Durable → Prop}
    (hok : ∀ b, download c m = .ok b → reports b = some (banner m.version) →
      Q (.ok ()) { d with staged := some b })
    (hbad : ∀ b why, download c m = .ok b → Q (.error (.badRelease why)) { d with staged := some b })
    (herr : ∀ e, download c m = .error e → Q (.error e) d) :
    Refines (working reports) (stage c m).run Q d := by
  refine refines_bindE (works_orThrow ?_)
  cases hb : download c m with
  | error e => exact herr e hb
  | ok b =>
    rw [rest_ok]
    refine refines_bindE (works_removeStaged ?_)
    rw [rest_ok]
    refine refines_bindE (refines_lift (works_create rfl ?_))
    rw [rest_ok, io_ok_bind]
    refine refines_bindE (refines_lift (works_version (b := b) rfl ?_ ?_))
    · intro out hr
      rw [rest_ok]
      dsimp only
      split_ifs with hne
      · exact refines_throw (hbad b _ hb)
      · refine refines_pureE (hok b hb ?_)
        rw [hr, not_not.mp hne]
    · intro why
      rw [rest_ok]
      exact refines_throw (hbad b why hb)

/-- **`roll_back`** of the release that was just swapped in. -/
theorem works_rollBack {p : Pending} {f : FailedReleases} {o : Bytes} {nowMs : U64}
    {reason : String} (hp : d.pending = .holds p) (hprev : d.previous = some o)
    (hf : d.failed.getD default = some f) (hs : f.has p.sequence = false)
    {Q : UpdateError → Durable → Prop}
    (h : Q (.rolledBack p.version reason)
      { d with
        install := some o, previous := none, pending := .absent, restarted := true
        failed := .holds (f.push ⟨p.sequence, p.version, nowMs⟩) }) :
    Refines (working reports) (rollBack p nowMs reason) Q d := by
  have hput : d.put (Pending.codec.encode { p with rollingBack := true }) .pending =
      { d with pending := .holds { p with rollingBack := true } } := by
    simp [Durable.put, hp]
  refine refines_bind (works_writeJson ?_)
  rw [hput]
  refine refines_bind (works_recordFailure (f := f) hf hs ?_)
  refine refines_bind (refines_bind (works_probe ?_))
  rw [show ({ d with pending := .holds { p with rollingBack := true }
                     failed := .holds (f.push ⟨p.sequence, p.version, nowMs⟩) } :
    Durable).previous = d.previous from rfl, hprev]
  refine refines_bind (works_perform fun w x w' he ha => ?_)
  have ho : (view w).previous = some o := by rw [he]
  obtain ⟨rfl, hv⟩ | ⟨hf', -⟩ := view_restore ha ho
  · rw [hv, he]
    refine refines_bind (works_sync (refines_pure ?_))
    refine refines_bind (works_restart ?_)
    exact refines_bind (works_clear (by simp) (refines_pure h))
  · cases hf'

/-- **`confirm`** of the release that was just swapped in. -/
theorem works_confirm {p : Pending} {f : FailedReleases} {o : Bytes}
    (hp : d.pending = .holds p) (hprev : d.previous = some o)
    (hf : d.failed.getD default = some f) (hs : f.has p.sequence = false)
    {Q : Except UpdateError Outcome → Durable → Prop}
    (hok : c.polls.check = .ok () → Q (.ok (.updated p.version))
      { d with
        pending := .absent, release := .holds ⟨p.version, p.sequence⟩, restarted := true })
    (herr : ∀ reason, c.polls.check = .error reason → Q (.error (.rolledBack p.version reason))
      { d with
        install := some o, previous := none, pending := .absent, restarted := true
        failed := .holds (f.push ⟨p.sequence, p.version, c.nowMs⟩) }) :
    Refines (working reports) (confirm c p).run Q d := by
  refine refines_bindE (refines_lift (refines_bind (works_restart (refines_pure ?_))))
  rw [rest_ok]
  cases hc : c.polls.check with
  | ok u =>
    dsimp only
    refine refines_bindE (works_writeJson ?_)
    rw [rest_ok]
    refine refines_bindE (refines_lift (works_clear ?_ ?_))
    · simp [Durable.put, hp]
    · rw [rest_ok, io_ok_bind]
      refine refines_pureE ?_
      simpa [Durable.put] using hok hc
  | error reason =>
    dsimp only
    refine refines_bindE (refines_lift (works_rollBack (f := f) (o := o) ?_ ?_ ?_ hs ?_))
    · exact hp
    · exact hprev
    · exact hf
    · rw [rest_ok]
      exact refines_throw (herr reason hc)

/-- **The swap** of the staged bytes `b`. -/
theorem works_swapIn {m : Manifest} {f : FailedReleases} {b o : Bytes}
    (hp : d.pending = .absent) (hi : d.install = some o) (hb : d.staged = some b)
    (hf : d.failed.getD default = some f) (hs : f.has m.sequence = false)
    {Q : Except UpdateError Outcome → Durable → Prop}
    (hok : c.polls.check = .ok () → Q (.ok (.updated m.version))
      { d with
        install := some b, previous := d.install, staged := none, pending := .absent
        release := .holds ⟨m.version, m.sequence⟩, atPending := d.install, restarted := true })
    (herr : ∀ reason, c.polls.check = .error reason → Q (.error (.rolledBack m.version reason))
      { d with
        previous := none, staged := none, pending := .absent, failed := blamed c m f
        atPending := d.install, restarted := true }) :
    Refines (working reports) (swapIn c m).run Q d := by
  refine refines_bindE (refines_lift (refines_bind (works_perform fun w x w' he ha => ?_)))
  obtain ⟨⟨b', hv, hx⟩, hdone⟩ := view_backUp ha
  obtain rfl := hdone rfl (by rw [he, hi]; simp)
  obtain ⟨rfl, -⟩ := hx rfl
  rw [hv, he]
  refine works_sync ?_
  rw [rest_ok]
  refine refines_bindE (refines_lift (works_sync ?_))
  rw [rest_ok]
  refine refines_bindE (refines_lift (works_writeJson ?_))
  rw [rest_ok]
  have hput : ({ d with previous := d.install } : Durable).put
      (Pending.codec.encode ⟨m.version, m.sequence, false⟩) .pending =
        { d with
          previous := d.install, pending := .holds ⟨m.version, m.sequence, false⟩
          atPending := d.install } := by
    simp [Durable.put, hp]
  rw [hput]
  refine refines_bindE (refines_lift (works_swap (b := b) hb ?_))
  rw [rest_ok]
  refine refines_bindE (refines_lift (works_sync ?_))
  rw [rest_ok]
  refine works_confirm (p := ⟨m.version, m.sequence, false⟩) (f := f) (o := o) ?_ ?_ ?_ hs ?_ ?_
  · rfl
  · exact hi
  · exact hf
  · exact hok
  · intro reason hc
    rw [← hi]
    exact herr reason hc

/-- What becomes of a binary that was not staged. -/
theorem works_refuse {m : Manifest} {e : UpdateError} {Q : Except UpdateError Outcome → Durable → Prop}
    (he : ∀ why, e ≠ .badRelease why) (h : Q (.error e) { d with staged := none }) :
    Refines (working reports) (refuse c m e).run Q d := by
  refine refines_bindE (works_removeStaged ?_)
  rw [rest_ok]
  cases e with
  | badRelease why => exact absurd rfl (he why)
  | _ => exact refines_throw h

/-- **From a due release to the swap.** -/
theorem works_install {m : Manifest} {f : FailedReleases} (ho : offered c = .ok (some m))
    (hp : d.pending = .absent) (hn : d.Newer m.sequence) (hv : m.version ≠ c.config.runningVersion)
    (hf : d.failed.getD default = some f) (hs : f.has m.sequence = false) (hd : notYet c m = none) :
    Refines (working reports) (install c m).run (Settles reports c d) d := by
  refine refines_bindE (refines_lift (works_isFile ?_))
  rw [rest_ok]
  cases hi : d.install with
  | none => exact refines_throw (.blocked ho (.inl hi))
  | some old =>
    have hne : d.install ≠ none := by rw [hi]; simp
    show Refines (working reports) (ExceptT.run (if true = true then _ else _)) _ d
    rw [if_pos rfl]
    refine refines_bindE (works_checkDisk (fun hspace => ?_) fun e hspace =>
      .blocked ho (.inr hspace))
    rw [rest_ok]
    refine refines_bindE (refines_lift (works_stage ?_ ?_ ?_))
    · intro b hb hr
      have h : Attempts c d m f b := ⟨⟨ho, hn, hv, hf, hs, hne, hspace, hb⟩, hd⟩
      rw [rest_ok]
      refine works_swapIn (f := f) (b := b) (o := old) ?_ ?_ ?_ ?_ hs ?_ ?_
      · exact hp
      · exact hi
      · rfl
      · exact hf
      · exact Settles.updated h hr
      · exact fun reason => Settles.rolledBack h hr
    · intro b why hb
      rw [rest_ok]
      refine refines_bindE (works_removeStaged ?_)
      rw [rest_ok]
      refine refines_bindE (works_recordFailure (f := f) hf hs ?_)
      rw [rest_ok]
      exact refines_throw (Settles.unusable ⟨⟨ho, hn, hv, hf, hs, hne, hspace, hb⟩, hd⟩)
    · intro e hb
      rw [rest_ok]
      exact works_refuse (download_error hb) (.undelivered ho hb)

/-- **What becomes of an offered release.** -/
theorem works_consider {m : Manifest} {r : Installed} (ho : offered c = .ok (some m))
    (hp : d.pending = .absent) (hr : d.release.getD default = some r) :
    Refines (working reports) (consider c m r).run (Settles reports c d) d := by
  have hrec : d.recorded = r.sequence := by
    unfold Durable.recorded
    cases h : d.release with
    | absent =>
      rw [h] at hr
      obtain rfl := Option.some.inj hr
      rfl
    | malformed =>
      rw [h] at hr
      cases hr
    | holds r' =>
      rw [h] at hr
      obtain rfl := Option.some.inj hr
      rfl
  have hread : d.release ≠ .malformed := by
    intro h
    rw [h] at hr
    cases hr
  unfold consider
  split_ifs with hle hv
  · exact refines_pureE (.notNewer ho (by rw [hrec]; exact hle))
  · have hn : d.Newer m.sequence := ⟨hread, by rw [hrec]; exact Fin.not_le.mp hle⟩
    refine refines_bindE (works_writeJson ?_)
    rw [rest_ok]
    refine refines_pureE ?_
    simpa [Durable.put] using Settles.adopted ho hn hv
  · have hn : d.Newer m.sequence := ⟨hread, by rw [hrec]; exact Fin.not_le.mp hle⟩
    have hgo : ∀ f, d.failed.getD default = some f → (f.has m.sequence = true → d.failed = .holds f) →
        Refines (working reports) (schedule c m f).run (Settles reports c d) d := by
      intro f hf hfs
      unfold schedule
      cases hs : f.has m.sequence with
      | true => exact refines_pureE (.failedBefore ho (hfs hs) hs)
      | false =>
        rw [if_neg (by simp)]
        cases hy : notYet c m with
        | some o => exact refines_pureE (.early ho hy)
        | none => exact works_install ho hp hn hv hf hs hy
    refine refines_bindE (works_readJson (·.failed) (fun _ => rfl) ?_ ?_ ?_)
    · intro ha
      exact hgo default (by rw [ha]; rfl) fun h => absurd h Bool.false_ne_true
    · intro f hf
      exact hgo f (by rw [hf]; rfl) fun _ => hf
    · exact fun e he => .unreadable (.inr he)

/-- **An ordinary run.** -/
theorem works_offer (hp : d.pending = .absent) :
    Refines (working reports) (offer c).run (Settles reports c d) d := by
  -- the installed release, or its default
  have hread : Refines (working reports) (readJson Installed.codec .release).run
      (fun r d' => d' = d ∧ ((∃ e, r = .error e) ∧ d.release = .malformed ∨
        ∃ o, r = .ok o ∧ d.release.getD default = some (o.getD default))) d := by
    refine works_readJson (·.release) (fun _ => rfl) ?_ ?_ ?_
    · exact fun ha => ⟨rfl, .inr ⟨none, rfl, by rw [ha]; rfl⟩⟩
    · exact fun r hr => ⟨rfl, .inr ⟨some r, rfl, by rw [hr]; rfl⟩⟩
    · exact fun e he => ⟨rfl, .inl ⟨⟨e, rfl⟩, he⟩⟩
  refine refines_bindE (refines_mono hread fun r d' hq => ?_)
  obtain ⟨rfl, ⟨⟨e, rfl⟩, he⟩ | ⟨o, rfl, hr⟩⟩ := hq
  · exact .unreadable (.inl he)
  · rw [rest_ok]
    refine refines_bindE (works_orThrow ?_)
    cases ho : offered c with
    | error e => exact .unoffered ho
    | ok o =>
      cases o with
      | none => exact refines_pureE (.noManifest ho)
      | some m => exact works_consider ho hp hr

end Functions

/-- **The run decides so**: on a host that works, an enabled run with nothing pending ends as the
    decision says. -/
theorem run_settles {c : Call crypto} {w w' : Host} {tr : List (Event (machine reports false))}
    {r : Except UpdateError Outcome} (he : c.config.enabled = true)
    (hp : w.files (.state .pending) = none)
    (h : Exec (machine reports false) w (run c).run tr (some r) w') :
    Settles reports c (view w) r (view w') := by
  obtain ⟨tr₁, tr₂, rfl, hlock⟩ := run_locked he h
  have hpend : (view w).pending = .absent := Stored.of_eq_absent.mpr hp
  have hlocked : Refines (working reports) (locked c).run (Settles reports c (view w)) (view w) := by
    refine refines_bindE (refines_bindE (works_readJson (·.pending) (fun _ => rfl) ?_ ?_ ?_))
    · intro _
      exact refines_pureE (works_offer hpend)
    · intro p hp'
      rw [hpend] at hp'
      cases hp'
    · intro e he
      rw [hpend] at he
      cases he
  exact hlock.result (hlocked.ensures w rfl)

/-! ## 4. A release that is due -/

section Decisions

variable {c : Call crypto} {d d' : Durable} {m m' : Manifest} {f f' : FailedReleases} {b b' : Bytes}
  {r : Except UpdateError Outcome}

theorem offered_inj (h : offered c = .ok (some m)) (h' : offered c = .ok (some m')) : m = m' :=
  Option.some.inj (Except.ok.inj (h.symm.trans h'))

/-- What is tried is determined. -/
theorem Attempts.unique (h : Attempts c d m f b) (h' : Attempts c d m' f' b') :
    m = m' ∧ f = f' ∧ b = b' := by
  obtain rfl := offered_inj h.offered h'.offered
  exact ⟨rfl, Option.some.inj (h.failures.symm.trans h'.failures),
    Except.ok.inj (h.download.symm.trans h'.download)⟩

/-- **A release that is tried** is installed, rolled back, or found unusable. -/
theorem Attempts.settles (h : Attempts c d m f b) (hs : Settles reports c d r d') :
    (c.polls.check = .ok () ∧ reports b = some (banner m.version) ∧ r = .ok (.updated m.version) ∧
        d' = { d with
          install := some b, previous := d.install, staged := none, pending := .absent
          release := .holds ⟨m.version, m.sequence⟩, atPending := d.install, restarted := true }) ∨
      (∃ reason, c.polls.check = .error reason ∧ r = .error (.rolledBack m.version reason) ∧
        d' = { d with
          previous := none, staged := none, pending := .absent, failed := blamed c m f
          atPending := d.install, restarted := true }) ∨
      (∃ why, r = .error (.badRelease why) ∧
        d' = { d with staged := none, failed := blamed c m f }) := by
  -- everything that stops a run before the attempt is excluded
  cases hs with
  | unreadable hm =>
    rcases hm with hm | hm
    · exact absurd hm h.newer.1
    · have hf := h.failures
      rw [hm] at hf
      cases hf
  | unoffered ho => exact absurd (ho.symm.trans h.offered) (by simp)
  | noManifest ho => exact absurd (ho.symm.trans h.offered) (by simp)
  | notNewer ho hle =>
    obtain rfl := offered_inj ho h.offered
    exact absurd h.newer.2 (Fin.not_lt.mpr hle)
  | adopted ho hn hv =>
    obtain rfl := offered_inj ho h.offered
    exact absurd hv h.version_ne
  | failedBefore ho hf hs =>
    obtain rfl := offered_inj ho h.offered
    have hf' := h.failures
    rw [hf] at hf'
    obtain rfl := Option.some.inj hf'
    exact absurd (hs.symm.trans h.unfailed) (by simp)
  | early ho hy =>
    obtain rfl := offered_inj ho h.offered
    exact absurd (hy.symm.trans h.due) (by simp)
  | blocked ho hb =>
    obtain rfl := offered_inj ho h.offered
    exact hb.elim (absurd · h.installed) (absurd h.spacious)
  | undelivered ho hd =>
    obtain rfl := offered_inj ho h.offered
    exact absurd (hd.symm.trans h.download) (by simp)
  | unusable h' =>
    obtain ⟨rfl, rfl, rfl⟩ := h.unique h'
    exact .inr (.inr ⟨_, rfl, rfl⟩)
  | updated h' hr hc =>
    obtain ⟨rfl, rfl, rfl⟩ := h.unique h'
    exact .inl ⟨hc, hr, rfl, rfl⟩
  | rolledBack h' hr hc =>
    obtain ⟨rfl, rfl, rfl⟩ := h.unique h'
    exact .inr (.inl ⟨_, hc, rfl, rfl⟩)

end Decisions

/-- **A release that is due is installed.** Where nothing is pending and the offered release is to be
    tried, an enabled run on a host that works can finish, and however it does nothing is pending
    then, and: the service stayed healthy, the delivered binary is installed and running, the old one
    is kept and the release recorded; or it did not, and the old binary is back and running, and the
    failure recorded; or the delivered binary did not run as its version, and in what is durable only
    the failure was recorded and a staged file that lay there is gone. (`update-status.json` is not in
    the view: `check_disk` removes it.) -/
theorem due_release {c : Call crypto} {w : Host} {m : Manifest} {f : FailedReleases} {b : Bytes}
    (he : c.config.enabled = true) (hp : w.files (.state .pending) = none)
    (h : Attempts c (view w) m f b) :
    (∃ tr r w', Exec (machine reports false) w (run c).run tr (some r) w') ∧
      ∀ tr r w', Exec (machine reports false) w (run c).run tr (some r) w' →
        w'.files (.state .pending) = none ∧
        ((c.polls.check = .ok () ∧ reports b = some (banner m.version) ∧
            r = .ok (.updated m.version) ∧ w'.files .install = some b ∧
            w'.files .previous = w.files .install ∧ (view w').failed = (view w).failed ∧
            (view w').release = .holds ⟨m.version, m.sequence⟩ ∧ w'.restarted = true) ∨
          (∃ reason, c.polls.check = .error reason ∧ r = .error (.rolledBack m.version reason) ∧
            w'.files .install = w.files .install ∧ (view w').failed = blamed c m f ∧
            (view w').release = (view w).release ∧ w'.restarted = true) ∨
          (∃ why, r = .error (.badRelease why) ∧
            view w' = { view w with staged := none, failed := blamed c m f })) := by
  refine ⟨Exec.total (M := machine reports false) (act_total reports false) (run c).run w, ?_⟩
  intro tr r w' hx
  have hs : Settles reports c (view w) r (view w') := run_settles he hp hx
  have hpend : ∀ {d : Durable}, view w' = d → d.pending = .absent →
      w'.files (.state .pending) = none := fun hv hd => Stored.of_eq_absent.mp (hv ▸ hd)
  rcases h.settles hs with ⟨hc, hr, rfl, hv⟩ | ⟨reason, hc, rfl, hv⟩ | ⟨why, rfl, hv⟩
  · refine ⟨hpend hv rfl, .inl ⟨hc, hr, rfl, ?_, ?_, by rw [hv], by rw [hv], ?_⟩⟩
    · exact congrArg Durable.install hv
    · exact congrArg Durable.previous hv
    · exact congrArg Durable.restarted hv
  · refine ⟨hpend hv rfl, .inr (.inl ⟨reason, hc, rfl, ?_, by rw [hv], by rw [hv], ?_⟩)⟩
    · exact congrArg Durable.install hv
    · exact congrArg Durable.restarted hv
  · exact ⟨hpend hv (Stored.of_eq_absent.mpr hp), .inr (.inr ⟨why, rfl, hv⟩)⟩

/-- The release of the tests is tried on the test host. -/
theorem attempts_release4 : Attempts (testCall "0.1.3" release4 true) (view testHost) release4
    default (fakeBinary "0.1.4") where
  offered := by decide +kernel
  newer := ⟨by decide, by decide⟩
  version_ne := by decide
  failures := rfl
  unfailed := rfl
  due := by decide +kernel
  installed := by simp [view, testHost]
  spacious := ⟨1000000000, rfl, by decide +kernel⟩
  download := by decide +kernel

/-- It is installed there. -/
theorem due_release_test :
    ∃ (tr : List (Event (machine testReports false))) (r : Except UpdateError Outcome) (w' : Host),
      Exec (machine testReports false) testHost (run (testCall "0.1.3" release4 true)).run tr
        (some r) w' ∧ w'.files (.state .pending) = none := by
  obtain ⟨⟨tr, r, w', hx⟩, hall⟩ := due_release rfl rfl attempts_release4
  exact ⟨tr, r, w', hx, (hall tr r w' hx).1⟩

/-! ## 5. Only one run changes anything -/

/-- The same but for the staged binary, too, which no run reads back. -/
def Durable.core (d : Durable) : Durable := { d with staged := none }

theorem core_install {w w' : Host} (h : (view w).core = (view w').core) :
    w.files .install = w'.files .install := congrArg Durable.install h

/-- **The release `m` is dealt with**: it is not newer than the recorded one, or it failed here and
    another version is installed. -/
def Done (reports : Bytes → Option String) (m : Manifest) (d : Durable) : Prop :=
  ¬d.Newer m.sequence ∨
    (∃ f, d.failed.getD default = some f ∧ f.has m.sequence = true) ∧ ¬Runs reports d.install m.version

theorem done_core {m : Manifest} {d : Durable} : Done reports m d.core ↔ Done reports m d := Iff.rfl

section Decisions

variable {c : Call crypto} {d d' : Durable} {m : Manifest} {r : Except UpdateError Outcome}

/-- A release that is dealt with is not tried. -/
theorem Done.untried (h : Done reports m d) {f : FailedReleases} {b : Bytes}
    (ha : Attempts c d m f b) : False := by
  rcases h with h | ⟨⟨f', hf, hs⟩, -⟩
  · exact h ha.newer
  · obtain rfl : f = f' := Option.some.inj (ha.failures.symm.trans hf)
    exact absurd (hs.symm.trans ha.unfailed) (by simp)

/-- **A release that is dealt with stays so**, and the run leaves everything. -/
theorem Done.settles (h : Done reports m d) (ho : offered c = .ok (some m))
    (hv : Runs reports d.install c.config.runningVersion) (hs : Settles reports c d r d') :
    d'.core = d.core := by
  cases hs with
  | adopted ho' hn hv' =>
    obtain rfl := offered_inj ho' ho
    rcases h with h | ⟨-, h⟩
    · exact absurd hn h
    · exact absurd (hv' ▸ hv) h
  | unusable h' | updated h' | rolledBack h' =>
    obtain rfl := offered_inj h'.offered ho
    exact (h.untried h').elim
  | _ => rfl

/-- **A run leaves everything, or the release is dealt with after it.** -/
theorem settles_done (ho : offered c = .ok (some m))
    (hv : Runs reports d.install c.config.runningVersion) (hs : Settles reports c d r d') :
    d'.core = d.core ∨ Done reports m d' := by
  -- the old binary is not the offered version
  have hold : m.version ≠ c.config.runningVersion → ¬Runs reports d.install m.version :=
    fun hne hr => hne (Runs.unique hr hv)
  have hfailed : ∀ f, ∃ f', (blamed c m f).getD default = some f' ∧ f'.has m.sequence = true :=
    fun f => ⟨_, rfl, by simp [FailedReleases.has_push]⟩
  cases hs with
  | adopted ho' hn hv' =>
    obtain rfl := offered_inj ho' ho
    exact .inr (.inl fun h => absurd h.2 (by simp [Durable.recorded]))
  | unusable h' =>
    obtain rfl := offered_inj h'.offered ho
    exact .inr (.inr ⟨hfailed _, hold h'.version_ne⟩)
  | updated h' =>
    obtain rfl := offered_inj h'.offered ho
    exact .inr (.inl fun h => absurd h.2 (by simp [Durable.recorded]))
  | rolledBack h' =>
    obtain rfl := offered_inj h'.offered ho
    exact .inr (.inr ⟨hfailed _, hold h'.version_ne⟩)
  | _ => exact .inl rfl

/-- Nothing is pending after an ordinary run. -/
theorem settles_pending (hp : d.pending = .absent) (hs : Settles reports c d r d') :
    d'.pending = .absent := by
  cases hs with
  | updated | rolledBack => rfl
  | _ => exact hp

end Decisions

/-- **A visit of the updater**: a finished enabled run of the installed binary on a host that works,
    at any time, while `m` is offered. -/
def Visit (crypto : Crypto) (reports : Bytes → Option String) (m : Manifest) (w w' : Host) : Prop :=
  ∃ (c : Call crypto) (tr : List (Event (machine reports false))) (r : Except UpdateError Outcome),
    c.config.enabled = true ∧ offered c = .ok (some m) ∧
      Runs reports (w.files .install) c.config.runningVersion ∧
      Exec (machine reports false) w (run c).run tr (some r) w'

/-- Any number of visits, one after the other. -/
abbrev Visits (crypto : Crypto) (reports : Bytes → Option String) (m : Manifest) :
    Host → Host → Prop := Relation.ReflTransGen (Visit crypto reports m)

section Visits

variable {m : Manifest} {w w' w₁ w₂ w₃ : Host}

theorem Visit.pending (h : Visit crypto reports m w w') (hp : w.files (.state .pending) = none) :
    w'.files (.state .pending) = none := by
  obtain ⟨c, tr, r, he, -, -, hx⟩ := h
  exact Stored.of_eq_absent.mp
    (settles_pending (Stored.of_eq_absent.mpr hp) (run_settles he hp hx))

theorem Visits.pending (h : Visits crypto reports m w w') (hp : w.files (.state .pending) = none) :
    w'.files (.state .pending) = none := by
  induction h with
  | refl => exact hp
  | tail _ hx ih => exact hx.pending ih

/-- Visits leave everything once the release is dealt with. -/
theorem Visits.done (h : Visits crypto reports m w w') (hp : w.files (.state .pending) = none)
    (hd : Done reports m (view w)) : (view w').core = (view w).core := by
  induction h with
  | refl => rfl
  | @tail w₁ w₂ h hx ih =>
    have hd₁ : Done reports m (view w₁) := done_core.mp (ih ▸ done_core.mpr hd)
    obtain ⟨c, tr, r, he, ho, hv, hx⟩ := hx
    exact (hd₁.settles ho hv (run_settles he (Visits.pending h hp) hx)).trans ih

/-- **A release is tried once.** From a host on which nothing is pending, while one release is offered,
    whatever the clock, the downloads and the health check say on each visit (a finished run of the
    installed binary in which nothing fails but the staged one): the first visit that changes anything
    durable but the staged file and `update-status.json` is the last one that does. A visit that is
    short of space writes `update-status.json`, and does not count. -/
theorem attempted_once (hp : w.files (.state .pending) = none)
    (h : Visits crypto reports m w w₁) (hx : Visit crypto reports m w₁ w₂)
    (hne : (view w₂).core ≠ (view w₁).core) (h' : Visits crypto reports m w₂ w₃) :
    (view w₃).core = (view w₂).core := by
  have hp₁ := Visits.pending h hp
  have hp₂ := hx.pending hp₁
  obtain ⟨c, tr, r, he, ho, hv, hx⟩ := hx
  exact Visits.done h' hp₂ ((settles_done ho hv (run_settles he hp₁ hx)).resolve_left hne)

/-- What is offered does not depend on the version that runs. -/
theorem offered_release4 (version : String) :
    offered (testCall version release4 true) = .ok (some release4) := attempts_release4.offered

/-- On a host that works a visit of the tests can be made. -/
theorem visit_test {version : String} (hr : Runs testReports (w.files .install) version) :
    ∃ w', Visit testCrypto testReports release4 w w' ∧ ∃ tr r, Exec (machine testReports false) w
      (run (testCall version release4 true)).run tr (some r) w' := by
  obtain ⟨tr, r, w', hx⟩ := Exec.total (M := machine testReports false)
    (act_total testReports false) (run (testCall version release4 true)).run w
  exact ⟨w', ⟨_, tr, r, rfl, offered_release4 version, hr, hx⟩, tr, r, hx⟩

/-- The test host is changed by its first visit, and not by the second one. -/
theorem attempted_once_test :
    ∃ w₂ w₃ : Host, (view w₂).core ≠ (view testHost).core ∧
      Visit testCrypto testReports release4 w₂ w₃ ∧ (view w₃).core = (view w₂).core := by
  obtain ⟨w₂, hv, tr, r, hx⟩ := visit_test testHost_runs
  have hrun : ∃ version, Runs testReports (w₂.files .install) version ∧
      (view w₂).core ≠ (view testHost).core := by
    rcases attempts_release4.settles (run_settles rfl rfl hx) with
      ⟨-, hr, -, he⟩ | ⟨reason, hc, -, -⟩ | ⟨why, -, he⟩
    · have hinst : w₂.files .install = some (fakeBinary "0.1.4") := congrArg Durable.install he
      refine ⟨"0.1.4", ⟨_, hinst, hr⟩, fun hcore => ?_⟩
      have hsame := core_install hcore
      rw [hinst] at hsame
      exact absurd hsame (by decide +kernel)
    · have hok : (testCall "0.1.3" release4 true).polls.check = .ok () := by decide +kernel
      exact absurd (hok.symm.trans hc) (by simp)
    · have hinst : w₂.files .install = testHost.files .install := congrArg Durable.install he
      refine ⟨"0.1.3", hinst ▸ testHost_runs, fun hcore => ?_⟩
      have hfailed := congrArg Durable.failed hcore
      rw [he] at hfailed
      exact absurd hfailed (by simp [Durable.core, blamed, view, testHost])
  obtain ⟨version, hr, hne⟩ := hrun
  obtain ⟨w₃, hv', -⟩ := visit_test hr
  exact ⟨w₂, w₃, hne, hv', attempted_once rfl .refl hv hne (.single hv')⟩

end Visits

end Sn46Validator.Update
