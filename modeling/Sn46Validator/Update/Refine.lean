/-
  File:      Update/Refine.lean
  Subject:   EVERY OPERATION OF A RUN IS A STEP OF THE MODEL.

  * what an operation does to the durable state, seen from the files it names;
  * the rules of `Refines` for this model: one for each operation, one for each function of the
    run. An outcome that only a failing host gives is told apart by `faults = true`;
  * `run_refines` -- **the run refines the model**.
-/
import Sn46Validator.Library.Refinement
import Sn46Validator.Update.Model

namespace Sn46Validator.Update

open Library

variable {crypto : Crypto} {reports : Bytes → Option String} {faults : Bool}

/-! ## 1. Operations on the durable state -/

section Views

variable {w w' : Host}

/-- The host after an operation on its files. -/
theorem act_fs {op : FileOp Path} {x : op.Ans}
    (h : (machine reports faults).act w (.fs op) x w') :
    ∃ fs, FileOp.act faults w.files op x fs ∧ w' = (w.filed op fs).heard op x := h

theorem heard_of_ne {op : FileOp Path} (hop : op ≠ .probe .previous) (x : op.Ans) :
    w.heard op x = w := by
  unfold Host.heard
  split
  · exact absurd rfl hop
  · rfl

/-- Files that no run reads back: the temporary ones and the disk status. -/
def Scratch (p : Path) : Prop := p = .state .status ∨ ∃ f, p = .temporary f

theorem view_filed {op : FileOp Path} {fs : Files Path}
    (hi : fs .install = w.files .install) (hp : fs .previous = w.files .previous)
    (hpd : fs (.state .pending) = w.files (.state .pending))
    (hr : fs (.state .release) = w.files (.state .release))
    (hf : fs (.state .failed) = w.files (.state .failed)) (ht : .install ∉ op.targets) :
    view (w.filed op fs) = { view w with staged := fs .staged } := by
  simp only [view, Host.filed, hi, hp, hpd, hr, hf, ht, not_false_eq_true, decide_true,
    Bool.and_true]
  congr 1
  split_ifs with h
  · exact absurd h.1 h.2
  · rfl

/-- An operation on scratch files changes nothing durable. -/
theorem view_scratch {op : FileOp Path} {x : op.Ans}
    (h : (machine reports faults).act w (.fs op) x w') (ht : ∀ p ∈ op.targets, Scratch p)
    (hop : op ≠ .probe .previous) : view w' = view w := by
  obtain ⟨fs, ha, rfl⟩ := act_fs h
  have hk : ∀ p, ¬Scratch p → p ∉ op.targets := fun p hp hm => hp (ht p hm)
  have hs : ∀ p, ¬Scratch p → fs p = w.files p := fun p hp => FileOp.act_frame ha (hk p hp)
  rw [heard_of_ne hop, view_filed (hs _ (by simp [Scratch])) (hs _ (by simp [Scratch]))
    (hs _ (by simp [Scratch])) (hs _ (by simp [Scratch])) (hs _ (by simp [Scratch]))
    (hk _ (by simp [Scratch])), hs _ (by simp [Scratch])]
  rfl

/-- An operation on the staged binary changes only that. -/
theorem view_staged {op : FileOp Path} {x : op.Ans}
    (h : (machine reports faults).act w (.fs op) x w') (ht : ∀ p ∈ op.targets, p = .staged)
    (hop : op ≠ .probe .previous) : view w' = { view w with staged := w'.files .staged } := by
  obtain ⟨fs, ha, rfl⟩ := act_fs h
  have hk : ∀ p, p ≠ .staged → p ∉ op.targets := fun p hp hm => hp (ht p hm)
  have hs : ∀ p, p ≠ .staged → fs p = w.files p := fun p hp => FileOp.act_frame ha (hk p hp)
  rw [heard_of_ne hop, view_filed (hs _ (by simp)) (hs _ (by simp)) (hs _ (by simp))
    (hs _ (by simp)) (hs _ (by simp)) (hk _ (by simp))]
  rfl

/-- A kill inside an operation on scratch files or on the staged binary. -/
theorem torn_of_targets {start : Option Bytes} {op : FileOp Path}
    (h : (machine reports faults).cut w (.fs op) w')
    (ht : ∀ p ∈ op.targets, Scratch p ∨ p = .staged) : Torn start (view w) (view w') := by
  obtain ⟨fs, hc, rfl⟩ := h
  have hk : ∀ p, ¬Scratch p → p ≠ .staged → p ∉ op.targets := fun p hp hn hm =>
    (ht p hm).elim hp hn
  have hs : ∀ p, ¬Scratch p → p ≠ .staged → fs p = w.files p := fun p hp hn =>
    FileOp.cut_frame hc (hk p hp hn)
  rw [view_filed (hs _ (by simp [Scratch]) (by simp)) (hs _ (by simp [Scratch]) (by simp))
    (hs _ (by simp [Scratch]) (by simp)) (hs _ (by simp [Scratch]) (by simp))
    (hs _ (by simp [Scratch]) (by simp)) (hk _ (by simp [Scratch]) (by simp))]
  exact .stage _

/-- The bytes of a state file, as the durable state sees them. -/
def Durable.put (d : Durable) (bytes : Bytes) : StateFile → Durable
  | .pending => { d with
      pending := .of Pending.codec (some bytes)
      atPending := if d.pending = .absent then d.install else d.atPending }
  | .release => { d with release := .of Installed.codec (some bytes) }
  | .failed => { d with failed := .of FailedReleases.codec (some bytes) }
  | .status => d

/-- The rename that ends a write of a state file. -/
theorem view_commit {f : StateFile} {x : Except IoError Unit} {bytes : Bytes}
    (h : (machine reports faults).act w (.fs (.rename (.temporary f) (.state f))) x w')
    (ht : w.files (.temporary f) = some bytes) :
    x = .ok () ∧ view w' = (view w).put bytes f ∨
      faults = true ∧ x = .error .other ∧ view w' = view w := by
  obtain ⟨fs, ha, rfl⟩ := act_fs h
  rw [heard_of_ne (by simp)]
  obtain ⟨d, hd, rfl, rfl⟩ | ⟨hn, -, -⟩ | ⟨hf, rfl, rfl⟩ := ha
  · left
    obtain rfl := Option.some.inj (ht.symm.trans hd)
    refine ⟨rfl, ?_⟩
    cases f <;>
      simp [view, Host.filed, Durable.put, FileOp.targets, Stored.of_eq_absent]
  · rw [ht] at hn
    cases hn
  · right
    refine ⟨hf, rfl, ?_⟩
    rw [view_filed rfl rfl rfl rfl rfl (by simp [FileOp.targets])]
    rfl

/-- The rename of the staged binary over the installed one. -/
theorem view_swap {x : Except IoError Unit} {b : Bytes}
    (h : (machine reports faults).act w (.fs (.rename .staged .install)) x w')
    (hs : (view w).staged = some b) :
    x = .ok () ∧
        view w' = { view w with install := some b, staged := none, restarted := false } ∨
      faults = true ∧ x = .error .other ∧ view w' = { view w with restarted := false } := by
  obtain ⟨fs, ha, rfl⟩ := act_fs h
  rw [heard_of_ne (by simp)]
  obtain ⟨d, hd, rfl, rfl⟩ | ⟨hn, -, -⟩ | ⟨hf, rfl, rfl⟩ := ha
  · left
    obtain rfl := Option.some.inj (hs.symm.trans hd)
    refine ⟨rfl, ?_⟩
    simp only [view, Host.filed, Function.update_apply, FileOp.targets]
    simp
  · exact absurd (hs.symm.trans hn) (by simp)
  · right
    refine ⟨hf, rfl, ?_⟩
    simp [view, Host.filed, FileOp.targets]

/-- The rename of the previous binary over the installed one. -/
theorem view_restore {x : Except IoError Unit} {b : Bytes}
    (h : (machine reports faults).act w (.fs (.rename .previous .install)) x w')
    (hs : (view w).previous = some b) :
    x = .ok () ∧
        view w' = { view w with install := some b, previous := none, restarted := false } ∨
      faults = true ∧ x = .error .other ∧ view w' = { view w with restarted := false } := by
  obtain ⟨fs, ha, rfl⟩ := act_fs h
  rw [heard_of_ne (by simp)]
  obtain ⟨d, hd, rfl, rfl⟩ | ⟨hn, -, -⟩ | ⟨hf, rfl, rfl⟩ := ha
  · left
    obtain rfl := Option.some.inj (hs.symm.trans hd)
    refine ⟨rfl, ?_⟩
    simp only [view, Host.filed, Function.update_apply, FileOp.targets]
    simp
  · exact absurd (hs.symm.trans hn) (by simp)
  · right
    refine ⟨hf, rfl, ?_⟩
    simp [view, Host.filed, FileOp.targets]

/-- The copy of the installed binary to `.previous`. -/
theorem view_backUp {x : Except IoError Unit}
    (h : (machine reports faults).act w (.fs (.copy .install .previous)) x w') :
    (∃ b, view w' = { view w with previous := b } ∧
        (x = .ok () → b = (view w).install ∧ b ≠ none)) ∧
      (faults = false → (view w).install ≠ none → x = .ok ()) := by
  obtain ⟨fs, ha, rfl⟩ := act_fs h
  rw [heard_of_ne (by simp)]
  obtain ⟨d, hd, rfl, rfl⟩ | ⟨hn, rfl, rfl⟩ | ⟨hf, rfl, b, rfl⟩ := ha
  · refine ⟨⟨some d, ?_, fun _ => ⟨hd.symm, by simp⟩⟩, fun _ _ => rfl⟩
    simp [view, Host.filed, FileOp.targets]
  · refine ⟨⟨w.files .previous, ?_, by simp⟩, fun _ hi => absurd hn hi⟩
    simp [view, Host.filed, FileOp.targets]
  · refine ⟨⟨b, ?_, by simp⟩, fun hf' => absurd (hf'.symm.trans hf) (by simp)⟩
    simp [view, Host.filed, FileOp.targets]

/-- A kill inside that copy. -/
theorem torn_backUp {start : Option Bytes}
    (h : (machine reports faults).cut w (.fs (.copy .install .previous)) w')
    (hp : (view w).pending = .absent) (hi : (view w).install = start) :
    Torn start (view w) (view w') := by
  obtain ⟨fs, ⟨b, rfl⟩, rfl⟩ := h
  have he : view (w.filed (.copy .install .previous) (FileOp.put w.files .previous b)) =
      { view w with previous := b } := by
    simp [view, Host.filed, FileOp.targets]
  rw [he]
  exact .backup b hp hi

/-- The removal of `pending.json`. -/
theorem view_clear {x : Except IoError Unit}
    (h : (machine reports faults).act w (.fs (.remove (.state .pending))) x w')
    (hp : (view w).pending ≠ .absent) :
    x = .ok () ∧ view w' = { view w with pending := .absent } ∨
      faults = true ∧ x = .error .other ∧ view w' = view w := by
  obtain ⟨fs, ha, rfl⟩ := act_fs h
  rw [heard_of_ne (by simp)]
  have hne : w.files (.state .pending) ≠ none := fun hn => hp (Stored.of_eq_absent.mpr hn)
  obtain ⟨-, rfl, rfl⟩ | ⟨hn, -, -⟩ | ⟨hf, rfl, rfl⟩ := ha
  · left
    refine ⟨rfl, ?_⟩
    simp [view, Host.filed, FileOp.targets]
  · exact absurd hn hne
  · right
    refine ⟨hf, rfl, ?_⟩
    rw [view_filed rfl rfl rfl rfl rfl (by simp [FileOp.targets])]
    rfl

/-- A probe of `.previous`. -/
theorem view_probe {x : Bool} (h : (machine reports faults).act w (.fs (.probe .previous)) x w') :
    x = (view w).previous.isSome ∧ view w' = view w ∨
      faults = true ∧ x = false ∧ (view w).previous ≠ none ∧
        view w' = { view w with misled := true } := by
  obtain ⟨fs, ⟨rfl, hx⟩, rfl⟩ := act_fs h
  have hv : view (w.filed (.probe .previous) w.files) = view w := by
    rw [view_filed rfl rfl rfl rfl rfl (by simp [FileOp.targets])]
    rfl
  have hh : ∀ b, b = (w.files .previous).isSome →
      view ((w.filed (.probe .previous) w.files).heard (.probe .previous) b) = view w := by
    intro hor hb
    rcases hor with _ | _
    · simp only [Host.heard, Host.filed, view, ← hb, Bool.or_false, FileOp.targets]
      simp
    · exact hv
  rcases hx with rfl | ⟨hf, rfl⟩
  · exact .inl ⟨rfl, hh _ rfl⟩
  · by_cases hn : (w.files .previous).isSome = true
    · right
      refine ⟨hf, rfl, fun hn' => ?_, ?_⟩
      · rw [show w.files .previous = none from hn'] at hn
        cases hn
      · simp only [Host.heard, Host.filed, view, hn, Bool.or_true, FileOp.targets]
        simp
    · left
      have hb : false = (w.files .previous).isSome := by simpa using hn
      exact ⟨hb, hh _ hb⟩

end Views

/-! ## 2. Refinement and its rules -/

/-- What a refinement is about: the host, the call, and the binary installed when it began. -/
structure Setting (crypto : Crypto) where
  reports : Bytes → Option String
  faults : Bool
  call : Call crypto
  start : Option Bytes

/-- A step of the model in a setting. -/
abbrev Setting.Step (s : Setting crypto) : Action → Durable → Durable → Prop :=
  Update.Step s.reports s.call s.start

/-- **The model as an abstraction of the machine** in a setting. -/
@[reducible] def Setting.sim (s : Setting crypto) :
    Simulation (machine s.reports s.faults) Durable where
  view := view
  step op x := s.Step (action op x)
  torn := Torn s.start

section Rules

variable {s : Setting crypto} {α β : Type} {d : Durable}

theorem io_ok_bind (a : α) (f : α → Run β) : (io (.ok a) >>= f) = f a := rfl

theorem io_error_bind (e : IoError) (f : α → Run β) :
    (io (.error e) >>= f) = throw (.io e) := rfl

theorem refines_orThrow {x : Except UpdateError α} {Q : Except UpdateError α → Durable → Prop}
    (h : Q x d) : Refines s.sim (orThrow x).run Q d := by
  cases x with
  | ok a => exact refines_pureE h
  | error e => exact refines_throw h

/-- One operation. -/
theorem refines_perform {op : Op} {Q : Op.Ans op → Durable → Prop}
    (hcut : ∀ w w', view w = d → (machine s.reports s.faults).cut w op w' →
      Torn s.start d (view w'))
    (hact : ∀ w x w', view w = d → (machine s.reports s.faults).act w op x w' →
      s.Step (action op x) d (view w') ∧ Q x (view w')) :
    Refines s.sim (Prog.perform (I := iface) op) Q d := refines_op hcut hact

/-- An operation on files no run reads back. -/
theorem refines_scratch {op : FileOp Path} {Q : op.Ans → Durable → Prop}
    (ht : ∀ p ∈ op.targets, Scratch p) (hop : op ≠ .probe .previous)
    (ha : ∀ x, action (.fs op) x = .other) (h : ∀ x, Q x d) :
    Refines s.sim (Prog.perform (I := iface) (.fs op)) Q d := by
  refine refines_perform ?_ ?_
  · intro w w' he hc
    subst he
    exact torn_of_targets hc fun p hp => .inl (ht p hp)
  · intro w x w' he hact
    subst he
    rw [ha, view_scratch hact ht hop]
    exact ⟨.idle, h x⟩

theorem refines_sync {Q : Except IoError Unit → Durable → Prop} (h : ∀ x, Q x d) :
    Refines s.sim (Prog.perform (I := iface) (.fs .sync)) Q d :=
  refines_scratch (by simp [FileOp.targets]) (by simp) (fun _ => rfl) h

/-- The staged binary is removed. -/
theorem refines_removeStaged {Q : Except UpdateError Unit → Durable → Prop}
    (h : ∀ b, Q (.ok ()) { d with staged := b }) : Refines s.sim removeStaged.run Q d := by
  refine refines_bindE (refines_lift (refines_perform ?_ ?_))
  · intro w w' he hc
    subst he
    exact torn_of_targets hc fun p hp => by simp_all [FileOp.targets]
  · intro w x w' he hact
    subst he
    rw [view_staged hact (by simp [FileOp.targets]) (by simp)]
    exact ⟨.stage _, refines_pureE (h _)⟩

/-- **Reading a state file.** -/
theorem refines_readJson {c : Codec α} {f : StateFile} (get : Durable → Stored α)
    (hget : ∀ w, get (view w) = .of c (w.files (.state f)))
    {Q : Except UpdateError (Option α) → Durable → Prop}
    (hnone : get d = .absent → Q (.ok none) d) (hsome : ∀ a, get d = .holds a → Q (.ok (some a)) d)
    (herr : ∀ e, get d = .malformed ∨ s.faults = true → Q (.error e) d) :
    Refines s.sim (readJson c f).run Q d := by
  refine refines_bindE (refines_lift (refines_perform ?_ ?_))
  · intro w w' he hc
    subst he
    exact torn_of_targets hc fun p hp => by simp [FileOp.targets] at hp
  · intro w x w' he hact
    subst he
    rw [view_scratch hact (by simp [FileOp.targets]) (by simp)]
    refine ⟨.idle, ?_⟩
    obtain ⟨fs, ⟨-, hx⟩, -⟩ := act_fs hact
    rw [hget] at hnone hsome herr
    rcases hx with hx | ⟨hf, rfl⟩
    · cases hr : w.files (.state f) with
      | none =>
        rw [hr] at hx hnone
        subst hx
        exact refines_pureE (hnone rfl)
      | some raw =>
        rw [hr] at hx hsome herr
        subst hx
        simp only [Stored.of] at hsome herr
        rw [rest_ok]
        dsimp only
        cases hd : c.decode raw with
        | some a =>
          rw [hd] at hsome
          exact refines_pureE (hsome a rfl)
        | none =>
          rw [hd] at herr
          exact refines_throw (herr _ (.inl rfl))
    · exact refines_throw (herr _ (.inr hf))

/-- **Writing a state file.** -/
theorem refines_writeJson {f : StateFile} {bytes : Bytes}
    {Q : Except UpdateError Unit → Durable → Prop}
    (hstep : s.Step (action (.fs (.rename (.temporary f) (.state f))) (.ok ())) d (d.put bytes f))
    (hok : Q (.ok ()) (d.put bytes f)) (herr : ∀ e, s.faults = true → Q (.error e) d) :
    Refines s.sim (writeJson f bytes).run Q d := by
  refine ⟨?_⟩
  intro w he
  subst he
  unfold writeJson
  rw [ensures_bindE, perform, ensures_liftE, ensures_perform]
  have hsc : ∀ p ∈ (FileOp.write (Path.temporary f) bytes).targets, Scratch p := by
    simp [FileOp.targets, Scratch]
  refine ⟨fun w' hc => torn_of_targets hc fun p hp => .inl (hsc p hp), fun x w₁ h₁ => ?_⟩
  have hv₁ : view w₁ = view w := view_scratch h₁ hsc (by simp)
  refine ⟨by show s.Step _ (view w) (view w₁); rw [hv₁]; exact .idle, ?_⟩
  obtain ⟨fs, ⟨rfl, rfl⟩ | ⟨hf, rfl, -⟩, hw₁⟩ := act_fs h₁
  · -- the temporary file holds the bytes when the rename comes
    have ht : w₁.files (.temporary f) = some bytes := by
      rw [hw₁, heard_of_ne (by simp)]
      simp [Host.filed, FileOp.put]
    rw [after_ok, io_ok_bind, perform, ensures_bindE, ensures_liftE, ensures_perform]
    refine ⟨fun w' hc => hc.elim fun fs hc => hc.1.elim, fun x w₂ h₂ => ?_⟩
    obtain ⟨rfl, hv₂⟩ | ⟨hf, rfl, hv₂⟩ := view_commit h₂ ht
    · rw [hv₁] at hv₂
      refine ⟨by show s.Step _ (view w₁) (view w₂); rw [hv₁, hv₂]; exact hstep, ?_⟩
      exact (refines_bindE (refines_lift (refines_sync fun _ => refines_pureE hok))).ensures w₂ hv₂
    · rw [hv₁] at hv₂
      refine ⟨?_, ?_⟩
      · show s.Step _ (view w₁) (view w₂)
        rw [hv₁, hv₂]
        cases f <;> exact .idle
      · show Q (.error (.io .other)) (view w₂)
        rw [hv₂]
        exact herr _ hf
  · show Q (.error (.io .other)) (view w₁)
    rw [hv₁]
    exact herr _ hf

/-- `systemctl restart`. -/
theorem refines_restart {Q : Except String Unit → Durable → Prop}
    (hok : Q (.ok ()) { d with restarted := true }) (herr : ∀ e, s.faults = true → Q (.error e) d) :
    Refines s.sim (Prog.perform (I := iface) .restart) Q d := by
  refine refines_perform (fun w w' _ hc => hc.elim) ?_
  intro w x w' he hact
  subst he
  cases x with
  | ok u =>
    obtain rfl : w' = { w with restarted := true } := hact
    exact ⟨.restart, hok⟩
  | error e =>
    obtain ⟨rfl, hf⟩ : w' = w ∧ s.faults = true := hact
    exact ⟨.idle, herr e hf⟩

/-- The removal of `pending.json`. -/
theorem refines_clear {Q : Except IoError Unit → Durable → Prop}
    (hstep : s.Step .clear d { d with pending := .absent }) (hp : d.pending ≠ .absent)
    (hok : Q (.ok ()) { d with pending := .absent }) (herr : ∀ e, s.faults = true → Q (.error e) d) :
    Refines s.sim (Prog.perform (I := iface) (.fs (.remove (.state .pending)))) Q d := by
  refine refines_perform (fun w w' _ hc => hc.elim fun fs hc => hc.1.elim) ?_
  intro w x w' he hact
  subst he
  obtain ⟨rfl, hv⟩ | ⟨hf, rfl, hv⟩ := view_clear hact hp
  · rw [hv]
    exact ⟨hstep, hok⟩
  · rw [hv]
    exact ⟨.idle, herr _ hf⟩

/-- A probe of `.previous`. -/
theorem refines_probe {Q : Bool → Durable → Prop} (h : Q d.previous.isSome d)
    (hmiss : s.faults = true → d.previous ≠ none → Q false { d with misled := true }) :
    Refines s.sim (Prog.perform (I := iface) (.fs (.probe .previous))) Q d := by
  refine refines_perform (fun w w' _ hc => hc.elim fun fs hc => hc.1.elim) ?_
  intro w x w' he hact
  subst he
  obtain ⟨rfl, hv⟩ | ⟨hf, rfl, hn, hv⟩ := view_probe hact
  · rw [hv]
    exact ⟨.idle, h⟩
  · rw [hv]
    exact ⟨.mislead, hmiss hf hn⟩

end Rules

/-! ## 3. Rolling back -/

section Functions

variable {s : Setting crypto} {d : Durable}

/-- **`record_failure`.** -/
theorem refines_recordFailure {version : String} {sequence nowMs : U64}
    {Q : Except UpdateError Unit → Durable → Prop}
    (hstep : ∀ f, d.failed.getD default = some f → f.has sequence = false →
      s.Step (.write .failed) d { d with failed := .holds (f.push ⟨sequence, version, nowMs⟩) })
    (hok : ∀ f : FailedReleases, f.has sequence = true → Q (.ok ()) { d with failed := .holds f })
    (herr : ∀ e, d.failed = .malformed ∨ s.faults = true → Q (.error e) d) :
    Refines s.sim (recordFailure version sequence nowMs).run Q d := by
  have hwrite : ∀ f, d.failed.getD default = some f → f.has sequence = false →
      Refines s.sim (writeJson .failed (FailedReleases.codec.encode
        (f.push ⟨sequence, version, nowMs⟩))).run Q d := by
    intro f hf hs
    have hput : d.put (FailedReleases.codec.encode (f.push ⟨sequence, version, nowMs⟩)) .failed =
        { d with failed := .holds (f.push ⟨sequence, version, nowMs⟩) } := by
      simp [Durable.put]
    refine refines_writeJson ?_ ?_ fun e he => herr e (.inr he)
    · rw [hput]
      exact hstep f hf hs
    · rw [hput]
      exact hok _ (by simp [FailedReleases.has_push])
  refine refines_bindE (refines_readJson (·.failed) (fun _ => rfl) ?_ ?_ herr)
  · intro ha
    exact hwrite default (by rw [ha]; rfl) rfl
  · intro f hf
    show Refines s.sim (if f.has sequence = true then (pure () : Run Unit) else
      writeJson .failed (FailedReleases.codec.encode (f.push ⟨sequence, version, nowMs⟩))).run Q d
    split_ifs with hs
    · refine refines_pureE ?_
      have he : ({ d with failed := .holds f } : Durable) = d := by rw [← hf]
      rw [← he]
      exact hok f hs
    · exact hwrite f (by rw [hf]; rfl) (by simpa using hs)

/-- **The restore of `roll_back`.** -/
theorem refines_restore {p : Pending} {Q : Except IoError Unit → Durable → Prop}
    (hp : d.pending = .holds p) (hgone : d.previous = none → Q (.ok ()) d)
    (hput : ∀ b, d.previous = some b →
      Q (.ok ()) { d with install := some b, previous := none, restarted := false })
    (hmiss : s.faults = true → Q (.ok ()) { d with misled := true })
    (herr : ∀ e, s.faults = true → Q (.error e) { d with restarted := false }) :
    Refines s.sim restore Q d := by
  refine refines_bind (refines_probe ?_ fun hf _ => refines_pure (hmiss hf))
  cases hprev : d.previous with
  | none => exact refines_pure (hgone hprev)
  | some b =>
    refine refines_bind (refines_perform (fun w w' _ hc => hc.elim fun fs hc => hc.1.elim) ?_)
    intro w x w' he hact
    subst he
    obtain ⟨rfl, hv⟩ | ⟨hf, rfl, hv⟩ := view_restore hact hprev
    · rw [hv]
      refine ⟨.restore hp hprev, refines_bind (refines_sync fun _ => ?_)⟩
      exact refines_pure (hput b hprev)
    · rw [hv]
      exact ⟨.stale, refines_pure (herr _ hf)⟩

/-- What a rollback on a host that works leaves: the previous binary installed and running, the
    failure recorded, nothing pending. -/
structure RolledBack (p : Pending) (d d' : Durable) : Prop where
  pending : d'.pending = .absent
  failed : ∃ f, d'.failed = .holds f ∧ f.has p.sequence = true
  install : d'.install = d.previous.or d.install
  atPending : d'.atPending = d.atPending
  restarted : d'.restarted = true

/-- **The end of `roll_back`**, from a state `d'` whose restore is done or was missed. -/
theorem refines_settle {p q : Pending} {reason : String} {r : Except UpdateError Unit}
    {d' : Durable} (hq : d'.pending = .holds q) (hs : q.sequence = p.sequence)
    (hprev : d'.previous = none ∨ d'.misled = true)
    (hr : r = .ok () → ∃ f, d'.failed = .holds f ∧ f.has p.sequence = true)
    (hquiet : s.faults = false → d.failed ≠ .malformed → r = .ok () ∧
      d'.install = d.previous.or d.install ∧ d'.atPending = d.atPending) :
    Refines s.sim (settle p reason r)
      (fun _ d' => s.faults = false → d.failed ≠ .malformed → RolledBack p d d') d' := by
  refine refines_bind (refines_restart ?_ fun e hf => ?_)
  · cases r with
    | error e => exact refines_pure fun hf hm => absurd (hquiet hf hm).1 (by simp)
    | ok u =>
      obtain ⟨f, hf, hfs⟩ := hr rfl
      refine refines_bind (refines_clear ?_ ?_ ?_ fun e he => ?_)
      · exact .rolledBack (p := q) hq hf (by rw [hs]; exact hfs) hprev
      · rw [show ({ d' with restarted := true } : Durable).pending = d'.pending from rfl, hq]
        simp
      · exact refines_pure fun he hm => ⟨rfl, ⟨f, hf, hfs⟩, (hquiet he hm).2.1,
          (hquiet he hm).2.2, rfl⟩
      · exact refines_pure fun he' _ => absurd (he'.symm.trans he) (by simp)
  · exact refines_pure fun hf' _ => absurd (hf'.symm.trans hf) (by simp)

/-- **The restore of `roll_back`** and what follows it, from a state `d₁` that has the binaries
    of `d`: an incomplete restore ends the run, any other is settled. -/
theorem refines_restored {p q : Pending} {reason : String} {r : Except UpdateError Unit}
    {k : Except IoError Unit → Prog iface UpdateError} {d₁ : Durable}
    (hk : ∀ e, k (.error e) = pure (.rollbackIncomplete p.version reason))
    (hk' : k (.ok ()) = settle p reason r) (h₁ : d₁.pending = .holds q)
    (hs : q.sequence = p.sequence) (hprev : d₁.previous = d.previous)
    (hinst : d₁.install = d.install) (hat : d₁.atPending = d.atPending)
    (hr : r = .ok () → ∃ f, d₁.failed = .holds f ∧ f.has p.sequence = true)
    (hquiet : s.faults = false → d.failed ≠ .malformed → r = .ok ()) :
    Refines s.sim (restore >>= k)
      (fun _ d' => s.faults = false → d.failed ≠ .malformed → RolledBack p d d') d₁ := by
  refine refines_bind (refines_restore h₁ ?_ ?_ ?_ ?_)
  · intro hgone
    rw [hk']
    refine refines_settle h₁ hs (.inl hgone) hr fun hf hm => ⟨hquiet hf hm, ?_, hat⟩
    rw [hinst, ← hprev, hgone]
    rfl
  · intro b hb
    rw [hk']
    refine refines_settle h₁ hs (.inl rfl) hr fun hf hm => ⟨hquiet hf hm, ?_, hat⟩
    rw [← hprev, hb]
    rfl
  · intro hf
    rw [hk']
    exact refines_settle h₁ hs (.inr rfl) hr fun hf' _ => absurd (hf'.symm.trans hf) (by simp)
  · intro e hf
    rw [hk]
    exact refines_pure fun hf' _ => absurd (hf'.symm.trans hf) (by simp)

/-- **`roll_back` after its mark**, from a state `d'` that is `d` but for the mark. -/
theorem refines_putBack {p q : Pending} {nowMs : U64} {reason : String} {d' : Durable}
    (hd' : d' = { d with pending := .holds q }) (hv : q.version = p.version)
    (hs : q.sequence = p.sequence) :
    Refines s.sim (putBack p nowMs reason)
      (fun _ d' => s.faults = false → d.failed ≠ .malformed → RolledBack p d d') d' := by
  have hq : d'.pending = .holds q := by rw [hd']
  -- recording changes `failed` only, so the restore starts from the binaries of `d`
  refine refines_bind (refines_recordFailure ?_ ?_ ?_)
  · intro f hf hfs
    have h : s.Step (.write .failed) d'
        { d' with failed := .holds (f.push ⟨q.sequence, q.version, nowMs⟩) } :=
      .blame nowMs hq hf (by rw [hs]; exact hfs)
    rw [hs, hv] at h
    exact h
  · intro f hfs
    exact refines_restored (fun _ => rfl) rfl hq hs (by rw [hd']) (by rw [hd']) (by rw [hd'])
      (fun _ => ⟨f, rfl, hfs⟩) fun _ _ => rfl
  · intro e he
    refine refines_restored (fun _ => rfl) rfl hq hs (by rw [hd']) (by rw [hd']) (by rw [hd'])
      (by simp) ?_
    intro hf hm
    rw [hd'] at he
    rcases he with he | he
    · exact absurd he hm
    · exact absurd (hf.symm.trans he) (by simp)

/-- **`roll_back`.** -/
theorem refines_rollBack {p : Pending} {nowMs : U64} {reason : String}
    (hp : d.pending = .holds p) :
    Refines s.sim (rollBack p nowMs reason)
      (fun _ d' => s.faults = false → d.failed ≠ .malformed → RolledBack p d d') d := by
  have hput : d.put (Pending.codec.encode { p with rollingBack := true }) .pending =
      { d with pending := .holds { p with rollingBack := true } } := by
    simp [Durable.put, hp]
  refine refines_bind (refines_writeJson ?_ ?_ fun e _ => ?_)
  · rw [hput]
    exact .mark hp
  · rw [hput]
    exact refines_putBack (q := { p with rollingBack := true }) rfl rfl rfl
  · exact refines_putBack (q := p) (by rw [← hp]) rfl rfl

/-! ## 4. Confirming and recovering -/

/-- What a confirmed release leaves. -/
structure Recorded (c : Call crypto) (p : Pending) (d d' : Durable) : Prop where
  healthy : c.polls.check = .ok ()
  pending : d'.pending = .absent
  release : d'.release = .holds ⟨p.version, p.sequence⟩
  install : d'.install = d.install
  restarted : d'.restarted = true

/-- **`confirm`**, when the pending release is the installed one. -/
theorem refines_confirm {p : Pending} (hp : d.pending = .holds p)
    (hl : Landed s.reports s.call s.start p d) (hr : p.rollingBack = false) :
    Refines s.sim (confirm s.call p).run
      (fun _ d' => s.faults = false → d.failed ≠ .malformed →
        Recorded s.call p d d' ∨ RolledBack p d d') d := by
  have hroll : ∀ (reason : String) (d₁ : Durable), d₁.pending = .holds p →
      d₁.failed = d.failed → d₁.previous = d.previous → d₁.install = d.install →
      d₁.atPending = d.atPending →
      Refines s.sim (do throw (← ExceptT.lift (rollBack p s.call.nowMs reason)) : Run Outcome).run
        (fun _ d' => s.faults = false → d.failed ≠ .malformed →
          Recorded s.call p d d' ∨ RolledBack p d d') d₁ := by
    intro reason d₁ h₁ hf hprev hi hat
    refine refines_bindE (refines_lift (refines_mono (refines_rollBack h₁) ?_))
    intro e d' hq
    rw [rest_ok]
    refine refines_throw fun hq' hm => Or.inr ?_
    have h := hq hq' (by rw [hf]; exact hm)
    exact ⟨h.pending, h.failed, by rw [h.install, hprev, hi], by rw [h.atPending, hat],
      h.restarted⟩
  refine refines_bindE (refines_lift (refines_bind (refines_restart ?_ fun e hf => ?_)))
  · refine refines_pure ?_
    cases hc : s.call.polls.check with
    | error reason => exact hroll reason _ hp rfl rfl rfl rfl
    | ok u =>
      cases u
      rw [rest_ok]
      have hput : Durable.put { d with restarted := true }
          (Installed.codec.encode ⟨p.version, p.sequence⟩) .release =
          { d with restarted := true, release := .holds ⟨p.version, p.sequence⟩ } := by
        simp [Durable.put]
      refine refines_bindE (refines_writeJson ?_ ?_ fun e hf => ?_)
      · rw [hput]
        exact .confirm (d := { d with restarted := true }) hp hl hr
      · rw [hput, rest_ok]
        refine refines_bindE (refines_lift (refines_clear ?_ ?_ ?_ fun e hf => ?_))
        · exact .confirmed hp hl rfl
        · rw [show ({ d with restarted := true, release := .holds ⟨p.version, p.sequence⟩ } :
            Durable).pending = d.pending from rfl, hp]
          simp
        · rw [rest_ok, io_ok_bind]
          exact refines_pureE fun _ _ => Or.inl ⟨hc, rfl, rfl, rfl, rfl⟩
        · rw [rest_ok, io_error_bind]
          exact refines_throw fun hf' _ => absurd (hf'.symm.trans hf) (by simp)
      · exact fun hf' _ => absurd (hf'.symm.trans hf) (by simp)
  · refine refines_pure (hroll e d hp rfl rfl rfl rfl)

/-- What recovery did: it finished the interrupted run one way or the other, or it removed a
    `pending.json` whose swap had not landed, or there was none. -/
def Recovered (s : Setting crypto) (d : Durable) :
    Except UpdateError (Option Outcome) → Durable → Prop
  | .ok none, d' => d' = { d with pending := .absent } ∧
      (d.pending = .absent ∨ ∃ p, d.pending = .holds p ∧ p.rollingBack = false ∧
        p.version ≠ s.call.config.runningVersion ∧ d.previous ≠ none)
  | _, d' => s.faults = false → d.pending ≠ .malformed → d.failed ≠ .malformed →
      ∃ p, d.pending = .holds p ∧
        (p.version = s.call.config.runningVersion ∧ p.rollingBack = false ∧
            Recorded s.call p d d' ∨
          RolledBack p d d')

/-- **Recovery.** -/
theorem refines_recover (hi : d.install = s.start) :
    Refines s.sim (recover s.call).run (Recovered s d) d := by
  -- a rollback from the state a probe may have left
  have hroll : ∀ (p : Pending) (m : Bool), d.pending = .holds p →
      (s.faults = false → m = d.misled) →
      Refines s.sim (do throw (← ExceptT.lift (rollBack p s.call.nowMs
        "an earlier rollback was interrupted")) : Run (Option Outcome)).run (Recovered s d)
        { d with misled := m } := by
    intro p m hp _
    refine refines_bindE (refines_lift (refines_mono (refines_rollBack (by exact hp)) ?_))
    intro e d' hq
    rw [rest_ok]
    refine refines_throw fun hf _ hm => ⟨p, hp, Or.inr ?_⟩
    have h := hq hf hm
    exact ⟨h.pending, h.failed, h.install, h.atPending, h.restarted⟩
  refine refines_bindE (refines_readJson (·.pending) (fun _ => rfl) ?_ ?_ ?_)
  · intro ha
    refine refines_pureE ⟨?_, .inl ha⟩
    rw [← ha]
  · intro p hp
    refine refines_bindE ?_
    show Refines s.sim (restored s.call p).run _ d
    unfold restored
    by_cases hv : p.version = s.call.config.runningVersion
    · rw [if_neg (by simpa using hv)]
      refine refines_pureE ?_
      show Refines s.sim (if (p.rollingBack || false) = true then _ else _ : Run _).run _ d
      cases hr : p.rollingBack with
      | true => exact hroll p d.misled hp fun _ => rfl
      | false =>
        rw [if_neg (by simp), if_pos hv]
        refine refines_bindE (refines_mono (refines_confirm hp (.inl ⟨hv, hi⟩) hr) ?_)
        intro r d' hq
        cases r with
        | ok out =>
          refine refines_pureE fun hf _ hm => ⟨p, hp, ?_⟩
          exact (hq hf hm).imp (fun h => ⟨hv, hr, h⟩) id
        | error e =>
          intro hf _ hm
          exact ⟨p, hp, (hq hf hm).imp (fun h => ⟨hv, hr, h⟩) id⟩
    · rw [if_pos hv]
      refine refines_bindE (refines_lift (refines_probe ?_ fun hf hn => ?_))
      · refine refines_pureE ?_
        show Refines s.sim (if (p.rollingBack || !d.previous.isSome) = true then _ else _ : Run _).run
          _ d
        split_ifs with hc
        · exact hroll p d.misled hp fun _ => rfl
        · simp only [Bool.or_eq_true, Bool.not_eq_true', not_or, Bool.not_eq_true,
            Bool.not_eq_false] at hc
          have hprev : d.previous ≠ none := by
            intro hn
            rw [hn] at hc
            simp at hc
          refine refines_bindE (refines_lift (refines_clear ?_ ?_ ?_ fun e hf => ?_))
          · exact .abandon hp hc.1 hv hi hprev
          · rw [hp]
            simp
          · rw [rest_ok, io_ok_bind]
            exact refines_pureE ⟨rfl, Or.inr ⟨p, hp, hc.1, hv, hprev⟩⟩
          · rw [rest_ok, io_error_bind]
            exact refines_throw fun hf' => absurd (hf'.symm.trans hf) (by simp)
      · refine refines_pureE ?_
        show Refines s.sim (if (p.rollingBack || true) = true then _ else _ : Run _).run _ _
        rw [if_pos (by simp)]
        exact hroll p true hp fun hf' => absurd (hf'.symm.trans hf) (by simp)
  · intro e he hf hp _
    rcases he with he | he
    · exact absurd he hp
    · exact absurd (hf.symm.trans he) (by simp)

/-! ## 5. Installing -/

/-- **`check_disk`** changes nothing durable, and passes only with enough space. -/
theorem refines_checkDisk {m : Manifest} {Q : Except UpdateError Unit → Durable → Prop}
    (hok : ∀ available, s.call.config.availableBytes = .ok available → neededBytes m ≤ available →
      Q (.ok ()) d) (herr : ∀ e, Q (.error e) d) : Refines s.sim (checkDisk s.call m).run Q d := by
  refine refines_bindE (refines_orThrow ?_)
  cases ha : s.call.config.availableBytes with
  | error e => exact herr e
  | ok available =>
    have hput : ∀ bytes, d.put bytes .status = d := fun _ => rfl
    rw [rest_ok]
    show Refines s.sim (ExceptT.run (if available < neededBytes m then _ else _)) Q d
    split_ifs with hlt
    · refine refines_bindE (refines_writeJson (by rw [hput]; exact .idle) ?_ fun e _ => herr e)
      rw [hput, rest_ok]
      exact refines_throw (herr _)
    · refine refines_bindE (refines_lift (refines_scratch (by simp [FileOp.targets, Scratch])
        (by simp) (fun _ => rfl) fun x => ?_))
      rw [rest_ok]
      have h := hok available ha (Fin.not_lt.mp hlt)
      cases x with
      | ok u => exact refines_pureE h
      | error e =>
        cases e with
        | notFound => exact refines_pureE h
        | notADirectory => exact refines_throw (herr _)
        | alreadyExists => exact refines_throw (herr _)
        | other => exact refines_throw (herr _)

/-- The staged binary is created. -/
theorem refines_create {data : Bytes} {Q : Except IoError Unit → Durable → Prop}
    (hok : Q (.ok ()) { d with staged := some data })
    (herr : ∀ e b, Q (.error e) { d with staged := b }) :
    Refines s.sim (Prog.perform (I := iface) (.fs (.create .staged data))) Q d := by
  refine refines_perform ?_ ?_
  · intro w w' he hc
    subst he
    exact torn_of_targets hc fun p hp => by simp_all [FileOp.targets]
  · intro w x w' he hact
    subst he
    rw [view_staged hact (by simp [FileOp.targets]) (by simp)]
    refine ⟨.stage _, ?_⟩
    obtain ⟨fs, ⟨-, rfl, rfl⟩ | ⟨-, rfl, -⟩ | ⟨-, rfl, -⟩, rfl⟩ := act_fs hact
    · rw [heard_of_ne (by simp)]
      simpa [Host.filed, FileOp.put] using hok
    · exact herr _ _
    · exact herr _ _

/-- The staged binary is run. -/
theorem refines_version {Q : Except UpdateError String → Durable → Prop}
    (hok : ∀ b out, d.staged = some b → s.reports b = some out → Q (.ok out) d)
    (herr : ∀ e, Q (.error e) d) : Refines s.sim (Prog.perform (I := iface) .version) Q d := by
  refine refines_perform (fun w w' _ hc => hc.elim) ?_
  intro w x w' he hact
  subst he
  cases x with
  | ok out =>
    obtain ⟨rfl, b, hb, hr⟩ : w' = w ∧ ∃ b, w.files .staged = some b ∧ s.reports b = some out :=
      hact
    exact ⟨.idle, hok b out hb hr⟩
  | error e =>
    obtain ⟨rfl, -⟩ := hact
    exact ⟨.idle, herr e⟩

/-- A download has the size and the hash of the manifest. -/
theorem download_ok {c : Call crypto} {m : Manifest} {b : Bytes} (h : download c m = .ok b) :
    b.length = m.binary.size.val ∧ hexEncode (crypto.sha256 b) = m.binary.sha256.toList := by
  unfold download at h
  simp only [bind, Except.bind, throw, throwThe, MonadExceptOf.throw, pure, Except.pure] at h
  repeat' split at h
  all_goals cases h
  rename_i hsize hsha
  exact ⟨not_not.mp hsize, not_not.mp hsha⟩

/-- **`stage`** leaves the binary of the manifest, or fails. -/
theorem refines_stage {m : Manifest} {Q : Except UpdateError Unit → Durable → Prop}
    (hok : ∀ b, Matches crypto s.reports m b → Q (.ok ()) { d with staged := some b })
    (herr : ∀ e b, Q (.error e) { d with staged := b }) :
    Refines s.sim (stage s.call m).run Q d := by
  refine refines_bindE (refines_orThrow ?_)
  cases hd : download s.call m with
  | error e => exact herr e d.staged
  | ok binary =>
    obtain ⟨hsize, hsha⟩ := download_ok hd
    rw [rest_ok]
    refine refines_bindE (refines_removeStaged fun b₀ => ?_)
    rw [rest_ok]
    refine refines_bindE (refines_lift (refines_create ?_ fun e b => ?_))
    · rw [rest_ok, io_ok_bind]
      refine refines_bindE (refines_lift (refines_version ?_ fun e => ?_))
      · intro b out hb hr
        obtain rfl := Option.some.inj hb
        rw [rest_ok]
        dsimp only
        split_ifs with hout
        · exact refines_throw (herr _ _)
        · exact refines_pureE (hok binary ⟨hsize, hsha, by rw [hr, not_not.mp hout]⟩)
      · rw [rest_ok]
        exact refines_throw (herr _ _)
    · rw [rest_ok, io_error_bind]
      exact refines_throw (herr _ _)

/-- The copy of the installed binary to `.previous`. -/
theorem refines_backUp {Q : Except IoError Unit → Durable → Prop} (hp : d.pending = .absent)
    (hi : d.install = s.start)
    (hok : d.install ≠ none → Q (.ok ()) { d with previous := d.install })
    (herr : ∀ e b, Q (.error e) { d with previous := b }) : Refines s.sim backUp Q d := by
  refine refines_bind (refines_perform ?_ ?_)
  · intro w w' he hc
    subst he
    exact torn_backUp hc hp hi
  · intro w x w' he hact
    subst he
    obtain ⟨⟨b, hv, hb⟩, -⟩ := view_backUp hact
    rw [hv]
    refine ⟨.backup b hp hi, ?_⟩
    cases x with
    | error e => exact refines_pure (herr e b)
    | ok u =>
      cases u
      obtain ⟨rfl, hne⟩ := hb rfl
      refine refines_sync fun x => ?_
      cases x with
      | ok u => exact hok hne
      | error e => exact herr e _

/-- **The swap.** On a host that works nothing stays pending. -/
theorem refines_swapIn {m : Manifest} {b : Bytes} (hp : d.pending = .absent)
    (hi : d.install = s.start) (hs : d.staged = some b) (ha : Admitted s.reports s.call m b)
    (hn : d.Newer m.sequence) (hf : d.Unfailed m.sequence) :
    Refines s.sim (swapIn s.call m).run
      (fun _ d' => s.faults = false → d.failed ≠ .malformed → d'.pending = .absent) d := by
  refine refines_bindE (refines_lift (refines_backUp hp hi ?_ ?_))
  · intro hne
    rw [rest_ok]
    refine refines_bindE (refines_lift (refines_sync fun _ => ?_))
    rw [rest_ok]
    have hput : Durable.put { d with previous := d.install }
        (Pending.codec.encode ⟨m.version, m.sequence, false⟩) .pending =
        { d with previous := d.install, pending := .holds ⟨m.version, m.sequence, false⟩,
                 atPending := d.install } := by
      simp [Durable.put, hp]
    refine refines_bindE (refines_lift (refines_writeJson ?_ ?_ fun e _ => ?_))
    · rw [hput]
      exact .begin (d := { d with previous := d.install }) hp hi hne rfl hs ha hn hf
    · rw [hput, rest_ok]
      -- `pending.json` is there and nothing else has changed: the swap
      refine refines_bindE (refines_lift
        (refines_perform (fun w w' _ hc => hc.elim fun fs hc => hc.1.elim) ?_))
      intro w x w' hw hact
      obtain ⟨rfl, hv⟩ | ⟨he, rfl, hv⟩ := view_swap hact (by rw [hw]; exact hs)
      · rw [hv, hw]
        refine ⟨.swap rfl hi rfl hne rfl hs ha hn hf, ?_⟩
        rw [rest_ok]
        refine refines_bindE (refines_lift (refines_sync fun _ => ?_))
        rw [rest_ok]
        refine refines_mono (refines_confirm rfl (.inr ⟨m, b, rfl, ha.fits, rfl⟩) rfl) ?_
        intro r d' h hq hm
        rcases h hq hm with h | h
        · exact h.pending
        · exact h.pending
      · rw [hv, hw]
        refine ⟨.stale, ?_⟩
        rw [rest_ok]
        refine refines_bindE (refines_removeStaged fun b' => ?_)
        rw [rest_ok]
        refine refines_bindE (refines_lift (refines_clear ?_ (by simp) ?_ fun e _ => ?_))
        · exact .abandon rfl rfl ha.version_ne hi hne
        · rw [rest_ok]
          exact refines_throw fun he' => absurd (he'.symm.trans he) (by simp)
        · rw [rest_ok]
          exact refines_throw fun he' => absurd (he'.symm.trans he) (by simp)
    · rw [rest_ok]
      refine refines_bindE (refines_removeStaged fun b' => ?_)
      rw [rest_ok]
      exact refines_throw fun _ _ => hp
  · intro e b'
    rw [rest_ok]
    refine refines_bindE (refines_removeStaged fun b'' => ?_)
    rw [rest_ok]
    exact refines_throw fun _ _ => hp

/-- A binary that was not staged. -/
theorem refines_refuse {m : Manifest} {e : UpdateError} (hp : d.pending = .absent)
    (ho : offered s.call = .ok (some m)) (hn : d.Newer m.sequence) :
    Refines s.sim (refuse s.call m e).run
      (fun _ d' => s.faults = false → d.failed ≠ .malformed → d'.pending = .absent) d := by
  refine refines_bindE (refines_removeStaged fun b' => ?_)
  rw [rest_ok]
  cases e with
  | badRelease why =>
    refine refines_bindE (refines_recordFailure ?_ ?_ ?_)
    · intro f hfd hfs
      exact .reject _ hp ho hn hfd hfs
    · intro f _
      rw [rest_ok]
      exact refines_throw fun _ _ => hp
    · exact fun _ _ _ _ => hp
  | _ => exact refines_throw fun _ _ => hp

/-- **`install`.** -/
theorem refines_install {m : Manifest} (hp : d.pending = .absent) (hi : d.install = s.start)
    (he : s.call.config.enabled = true) (ho : offered s.call = .ok (some m))
    (hv : m.version ≠ s.call.config.runningVersion) (hy : notYet s.call m = none)
    (hn : d.Newer m.sequence) (hf : d.Unfailed m.sequence) :
    Refines s.sim (install s.call m).run
      (fun _ d' => s.faults = false → d.failed ≠ .malformed → d'.pending = .absent) d := by
  refine refines_bindE (refines_lift (refines_scratch (by simp [FileOp.targets]) (by simp)
    (fun _ => rfl) fun x => ?_))
  rw [rest_ok]
  split_ifs
  · refine refines_bindE (refines_checkDisk ?_ fun e _ _ => hp)
    intro available hav hle
    rw [rest_ok]
    refine refines_bindE (refines_lift (refines_stage ?_ ?_))
    · intro b hb
      rw [rest_ok]
      exact refines_swapIn (d := { d with staged := some b }) hp hi rfl
        ⟨he, ho, hb, hv, ⟨available, hav, hle⟩, hy⟩ hn hf
    · intro e b
      rw [rest_ok]
      exact refines_refuse (d := { d with staged := b }) hp ho hn
  · exact refines_throw fun _ _ => hp

/-! ## 6. The run -/

/-- A release that is newer than the recorded one. -/
theorem refines_schedule {m : Manifest} {f : FailedReleases} (hp : d.pending = .absent)
    (hi : d.install = s.start) (he : s.call.config.enabled = true)
    (ho : offered s.call = .ok (some m)) (hv : m.version ≠ s.call.config.runningVersion)
    (hn : d.Newer m.sequence) (hf : f.has m.sequence = false → d.Unfailed m.sequence) :
    Refines s.sim (schedule s.call m f).run
      (fun _ d' => s.faults = false → d.failed ≠ .malformed → d'.pending = .absent) d := by
  unfold schedule
  split_ifs with hfs
  · exact refines_pureE fun _ _ => hp
  · cases hy : notYet s.call m with
    | some outcome => exact refines_pureE fun _ _ => hp
    | none => exact refines_install hp hi he ho hv hy hn (hf (by simpa using hfs))

/-- An offered release, with what `release.json` records read. -/
theorem refines_consider {m : Manifest} {r : Installed} (hp : d.pending = .absent)
    (hi : d.install = s.start) (he : s.call.config.enabled = true)
    (ho : offered s.call = .ok (some m)) (hmal : d.release ≠ .malformed)
    (hr : d.recorded = r.sequence) :
    Refines s.sim (consider s.call m r).run
      (fun _ d' => s.faults = false → d.failed ≠ .malformed → d'.pending = .absent) d := by
  unfold consider
  split_ifs with hle hv
  · exact refines_pureE fun _ _ => hp
  · have hn : d.Newer m.sequence := ⟨hmal, by rw [hr]; exact Fin.not_le.mp hle⟩
    have hput : d.put (Installed.codec.encode ⟨m.version, m.sequence⟩) .release =
        { d with release := .holds ⟨m.version, m.sequence⟩ } := by
      simp [Durable.put]
    refine refines_bindE (refines_writeJson ?_ ?_ fun e _ _ _ => hp)
    · rw [hput]
      exact .adopt hp hi ho hv hn
    · rw [hput, rest_ok]
      exact refines_pureE fun _ _ => hp
  · have hn : d.Newer m.sequence := ⟨hmal, by rw [hr]; exact Fin.not_le.mp hle⟩
    refine refines_bindE (refines_readJson (·.failed) (fun _ => rfl) ?_ ?_ fun _ _ _ _ => hp)
    · intro ha
      refine refines_schedule hp hi he ho hv hn fun _ => ⟨by rw [ha]; simp, ?_⟩
      intro f hf
      rw [ha] at hf
      cases hf
    · intro f hf
      refine refines_schedule hp hi he ho hv hn fun hfs => ⟨by rw [hf]; simp, ?_⟩
      intro f' hf'
      rw [hf] at hf'
      obtain rfl := Stored.holds.inj hf'
      exact hfs

/-- **An ordinary run.** -/
theorem refines_offer (hp : d.pending = .absent) (hi : d.install = s.start)
    (he : s.call.config.enabled = true) :
    Refines s.sim (offer s.call).run
      (fun _ d' => s.faults = false → d.failed ≠ .malformed → d'.pending = .absent) d := by
  have hread : ∀ (r : Installed) (k : Option Manifest → Run Outcome),
      k none = pure Outcome.noManifest → (∀ m, k (some m) = consider s.call m r) →
      d.release ≠ .malformed → d.recorded = r.sequence →
      Refines s.sim (orThrow (offered s.call) >>= k).run
        (fun _ d' => s.faults = false → d.failed ≠ .malformed → d'.pending = .absent) d := by
    intro r k hnone hsome hmal hr
    refine refines_bindE (refines_orThrow ?_)
    cases ho : offered s.call with
    | error e => exact fun _ _ => hp
    | ok o =>
      rw [rest_ok]
      cases o with
      | none =>
        rw [hnone]
        exact refines_pureE fun _ _ => hp
      | some m =>
        rw [hsome]
        exact refines_consider hp hi he ho hmal hr
  refine refines_bindE (refines_readJson (·.release) (fun _ => rfl) ?_ ?_ fun _ _ _ _ => hp)
  · intro ha
    exact hread default _ rfl (fun _ => rfl) (by rw [ha]; simp)
      (by rw [Durable.recorded, ha]; rfl)
  · intro r hr
    exact hread r _ rfl (fun _ => rfl) (by rw [hr]; simp) (by rw [Durable.recorded, hr])

/-- **A run that holds the lock.** -/
theorem refines_locked (hi : d.install = s.start) (he : s.call.config.enabled = true) :
    Refines s.sim (locked s.call).run (fun _ _ => True) d := by
  refine refines_bindE (refines_mono (refines_recover hi) ?_)
  intro r d' hr
  match r with
  | .error e => trivial
  | .ok (some out) =>
    rw [rest_ok]
    exact refines_pureE trivial
  | .ok none =>
    obtain ⟨rfl, -⟩ := hr
    rw [rest_ok]
    exact refines_mono (refines_offer rfl hi he) fun _ _ _ => trivial

/-- **`check_state_dir`** changes nothing, and passes on a host that works. -/
theorem refines_checkStateDir {Q : Except UpdateError Unit → Durable → Prop} (hok : Q (.ok ()) d)
    (herr : ∀ e, s.faults = true → Q (.error e) d) :
    Refines s.sim (checkStateDir s.call).run Q d := by
  refine refines_bindE (refines_lift (refines_perform (fun _ _ _ h => h.elim) ?_))
  intro w x w' heq hy
  subst heq
  obtain ⟨rfl, hx⟩ := hy
  refine ⟨.idle, ?_⟩
  rw [rest_ok]
  have hf : (∃ info, x = .ok info ∧ info.proper = true) ∨ s.faults = true := by
    cases hs : s.faults with
    | false => exact .inl (hx hs)
    | true => exact .inr rfl
  cases x with
  | error e =>
    rw [io_error_bind]
    exact refines_throw (herr _ (hf.resolve_left (by simp)))
  | ok info =>
    rw [io_ok_bind]
    split_ifs with hp
    · exact refines_pureE hok
    · refine refines_throw (herr _ (hf.resolve_left ?_))
      intro hy
      obtain ⟨info', he, hp'⟩ := hy
      obtain rfl := Except.ok.inj he
      exact hp hp'

/-- **The run refines the model**, from any state of the files. On a host that works, an enabled
    run ends as the part that holds the lock does. -/
theorem refines_run {Q : Except UpdateError Outcome → Durable → Prop}
    (h : s.call.config.enabled = true → Refines s.sim (locked s.call).run Q d)
    (hquiet : ∀ r, s.call.config.enabled = false ∨ s.faults = true → Q r d) :
    Refines s.sim (run s.call).run Q d := by
  unfold run
  split_ifs with he
  · refine refines_bindE (refines_lift (refines_perform (fun _ _ _ h => h.elim) ?_))
    intro w x w' heq hy
    subst heq
    obtain ⟨rfl, hx⟩ := hy
    refine ⟨.idle, ?_⟩
    rw [rest_ok]
    cases x with
    | error e =>
      rw [io_error_bind]
      exact refines_throw (hquiet _ (.inr (by cases hs : s.faults <;> simp_all)))
    | ok u =>
      rw [io_ok_bind]
      refine refines_bindE (refines_checkStateDir ?_ fun e hf => hquiet _ (.inr hf))
      rw [rest_ok]
      refine refines_bindE (refines_lift (refines_perform (fun _ _ _ h => h.elim) ?_))
      intro w₁ x w₂ hw₁ hy
      obtain ⟨rfl, hx⟩ := hy
      rw [hw₁]
      refine ⟨.idle, ?_⟩
      rw [rest_ok]
      cases x with
      | error e =>
        rw [io_error_bind]
        exact refines_throw (hquiet _ (.inr (by cases hs : s.faults <;> simp_all)))
      | ok u =>
        rw [io_ok_bind]
        refine refines_bindE (refines_lift (refines_perform (fun _ _ _ h => h.elim) ?_))
        intro w₃ x w₄ hw₃ hy
        obtain ⟨rfl, hx⟩ := hy
        rw [hw₃]
        refine ⟨.idle, ?_⟩
        rw [rest_ok]
        cases x with
        | acquired => exact h he
        | wouldBlock =>
          exact refines_pureE (hquiet _ (.inr (by cases hs : s.faults <;> simp_all)))
        | error e => exact refines_throw (hquiet _ (.inr (by cases hs : s.faults <;> simp_all)))
  · exact refines_pureE (hquiet _ (.inl (by simpa using he)))

end Functions

end Sn46Validator.Update
