/-
  File:      Update/Attempt.lean
  Subject:   AN ATTEMPT THAT FAILS LEAVES THE HOST AS IT WAS.

  * `Part`, `Op.footprint`, `Within` -- the parts of a host that a run has touched so far; all other
    files are as they were;
  * the rules for the functions of a run, each with what it touches;
  * `Unchanged`, `Blamed`, `Ended` -- what a run that started without a `pending.json` leaves;
  * `attempt_unchanged` -- **a run that does not get to the swap** leaves the installed binary, the
    service and `release.json` alone, and nothing that a later run would take up.
-/
import Sn46Validator.Library.Ends
import Sn46Validator.Update.Refine
import Sn46Validator.Update.Testbed

namespace Sn46Validator.Update

open Library

variable {crypto : Crypto} {reports : Bytes → Option String} {faults : Bool}

/-! ## 1. What an operation touches -/

/-- **A part of the host** that a run can change: a file, or the service (`systemctl`). -/
inductive Part where
  | file (p : Path)
  | service
  deriving DecidableEq

/-- The parts an operation may change. -/
def Op.footprint : Op → List Part
  | .fs op => op.targets.map .file
  | .restart => [.service]
  | _ => []

theorem heard_files (w : Host) (op : FileOp Path) (x : op.Ans) :
    (w.heard op x).files = w.files := by
  unfold Host.heard
  split
  · rfl
  · rfl

/-- **Frame**: an operation keeps the files it does not touch. -/
theorem act_files {w w' : Host} {op : Op} {x : Op.Ans op}
    (h : (machine reports faults).act w op x w') {p : Path} (hp : .file p ∉ op.footprint) :
    w'.files p = w.files p := by
  cases op with
  | fs op =>
    obtain ⟨fs, ha, rfl⟩ := act_fs h
    rw [heard_files]
    exact FileOp.act_frame ha fun ht => hp (List.mem_map_of_mem ht)
  | createStateDir | stateDirMeta | openLock | tryLock => rw [h.1]
  | version =>
    cases x with
    | ok out => rw [h.1]
    | error e => rw [h.1]
  | restart =>
    cases x with
    | ok u => rw [show w' = { w with restarted := true } from h]
    | error e => rw [h.1]

/-- **A run stays within `ps`**, from the host `w₀`: it touched no other part. -/
structure Within (w₀ : Host) (ps : List Part) (tr : List (Event (machine reports faults)))
    (w : Host) : Prop where
  frame : ∀ p, .file p ∉ ps → w.files p = w₀.files p
  touched : ∀ e ∈ tr, ∀ x ∈ e.op.footprint, x ∈ ps

section Frame

variable {w₀ w w' : Host} {ps : List Part} {tr : List (Event (machine reports faults))}

theorem Within.act (h : Within w₀ ps tr w) {op : Op} {x : Op.Ans op}
    (hop : ∀ y ∈ op.footprint, y ∈ ps) (ha : (machine reports faults).act w op x w') :
    Within w₀ ps (tr ++ [⟨w, op, x, w'⟩]) w' := by
  refine ⟨fun p hp => ?_, fun e he => ?_⟩
  · rw [act_files ha fun ht => hp (hop _ ht), h.frame p hp]
  · rcases List.mem_append.mp he with he | he
    · exact h.touched e he
    · rw [List.mem_singleton.mp he]
      exact hop

theorem Within.mono (h : Within w₀ ps tr w) {ps' : List Part} (hps : ps ⊆ ps') :
    Within w₀ ps' tr w :=
  ⟨fun p hp => h.frame p fun hm => hp (hps hm), fun e he x hx => hps (h.touched e he x hx)⟩

/-- An operation within `ps`. -/
abbrev Op.In (ps : List Part) (op : Op) : Prop := ∀ y ∈ op.footprint, y ∈ ps

theorem in_nothing {op : Op} (hop : op.footprint = []) : Op.In ps op := by
  intro z hz
  rw [hop] at hz
  cases hz

theorem in_singleton {op : Op} {y : Part} (hop : op.footprint = [y]) (hy : y ∈ ps) :
    Op.In ps op := by
  intro z hz
  rw [hop] at hz
  rwa [List.mem_singleton.mp hz]

/-- **A program of operations within `ps`.** -/
theorem ends_within {α : Type} {p : Prog iface α} (hp : p.Uses (Op.In ps))
    (h : Within w₀ ps tr w) :
    Ends (machine reports faults) p (fun _ => Within w₀ ps) tr w :=
  ends_of_uses (fun _ _ _ _ _ hop ha h => h.act hop ha) hp h

end Frame

/-! ## 2. Functions that touch little -/

section Uses

variable {T : Op → Prop} {ps : List Part} {α : Type}

theorem uses_io {x : Except IoError α} : (io x).run.Uses T := by
  cases x with
  | ok a => trivial
  | error e => trivial

theorem uses_orThrow {x : Except UpdateError α} : (orThrow x).run.Uses T := by
  cases x with
  | ok a => trivial
  | error e => trivial

/-- One operation, and what follows it. -/
theorem uses_op {op : Op} {f : Op.Ans op → Run α} (hop : T op) (hf : ∀ x, (f x).run.Uses T) :
    (perform op >>= f).run.Uses T :=
  uses_bindE (uses_lift (uses_perform hop)) hf

/-- What a first part answers, an error too, and what follows it. -/
theorem uses_catch {β : Type} {p : Run β} {f : Except UpdateError β → Run α} (hp : p.run.Uses T)
    (hf : ∀ x, (f x).run.Uses T) : (ExceptT.lift p.run >>= f).run.Uses T :=
  uses_bindE (uses_lift hp) hf

theorem uses_readJson {c : Codec α} {f : StateFile} (hr : T (.fs (.read (.state f)))) :
    (readJson c f).run.Uses T := by
  refine uses_op hr fun x => ?_
  cases x with
  | ok raw =>
    dsimp only
    cases c.decode raw with
    | some a => trivial
    | none => trivial
  | error e =>
    cases e with
    | notFound => trivial
    | notADirectory => trivial
    | alreadyExists => trivial
    | other => trivial

theorem uses_writeJson {f : StateFile} {bytes : Bytes} (hw : T (.fs (.write (.temporary f) bytes)))
    (hr : T (.fs (.rename (.temporary f) (.state f)))) (hs : T (.fs .sync)) :
    (writeJson f bytes).run.Uses T :=
  uses_op hw fun _ => uses_bindE uses_io fun _ => uses_op hr fun _ =>
    uses_bindE uses_io fun _ => uses_op hs fun _ => trivial

theorem within_writeJson {f : StateFile} {bytes : Bytes} (hf : .file (.state f) ∈ ps)
    (ht : .file (.temporary f) ∈ ps) : (writeJson f bytes).run.Uses (Op.In ps) := by
  refine uses_writeJson (in_singleton rfl ht) ?_ (in_nothing rfl)
  simpa [Op.In, Op.footprint, FileOp.targets] using ⟨ht, hf⟩

theorem uses_removeStaged (hd : T (.fs (.remove .staged))) : removeStaged.run.Uses T :=
  uses_op hd fun _ => trivial

theorem uses_checkStateDir {c : Call crypto} (hm : T .stateDirMeta) :
    (checkStateDir c).run.Uses T := by
  refine uses_op hm fun x => uses_bindE uses_io fun info => ?_
  split_ifs
  · trivial
  · trivial

/-- The files that no run reads back. -/
def scratch : List Part :=
  [.file (.state .status), .file (.temporary .status), .file (.temporary .pending),
    .file (.temporary .release), .file (.temporary .failed)]

theorem uses_checkDisk {c : Call crypto} {m : Manifest}
    (hw : ∀ bytes, (writeJson .status bytes).run.Uses T) (hd : T (.fs (.remove (.state .status)))) :
    (checkDisk c m).run.Uses T := by
  refine uses_bindE uses_orThrow fun available => ?_
  dsimp only
  split_ifs
  · exact uses_bindE (hw _) fun _ => trivial
  · refine uses_op hd fun x => ?_
    cases x with
    | ok u => trivial
    | error e =>
      cases e with
      | notFound => trivial
      | notADirectory => trivial
      | alreadyExists => trivial
      | other => trivial

end Uses

/-! ## 3. Functions that matter -/

/-- **A removal that fails**, of the staged file or of `pending.json`. That there was no such file is
    no failure. -/
def failedRemoval : (op : Op) → Op.Ans op → Bool
  | .fs (.remove .staged), .error e | .fs (.remove (.state .pending)), .error e => e ≠ .notFound
  | _, _ => false

/-- **The removals succeeded.** -/
def Cleaned (tr : List (Event (machine reports faults))) : Prop :=
  ∀ e ∈ tr, failedRemoval e.op e.ans = false

/-- The bytes that an operation stages. -/
def stagedBytes : (op : Op) → Op.Ans op → Option Bytes
  | .fs (.create .staged b), .ok _ => some b
  | _, _ => none

/-- **The bytes that the manifest describes were staged.** -/
def Downloaded (crypto : Crypto) (m : Manifest) (tr : List (Event (machine reports faults))) :
    Prop :=
  ∃ e ∈ tr, ∃ b, stagedBytes e.op e.ans = some b ∧ b.length = m.binary.size.val ∧
    hexEncode (crypto.sha256 b) = m.binary.sha256.toList

section Functions

variable {T : Op → Prop} {w₀ w w' : Host} {ps : List Part}
  {tr : List (Event (machine reports faults))}
  {c : Call crypto}

theorem Downloaded.append {m : Manifest} (h : Downloaded crypto m tr)
    (t : List (Event (machine reports faults))) : Downloaded crypto m (tr ++ t) := by
  obtain ⟨e, he, hb⟩ := h
  exact ⟨e, List.mem_append_left t he, hb⟩

/-- One operation, and what follows it. -/
theorem ends_op {α : Type} {op : Op} {f : Op.Ans op → Run α}
    {Q : Except UpdateError α → List (Event (machine reports faults)) → Host → Prop}
    (h : ∀ x w', (machine reports faults).act w op x w' →
      Ends (machine reports faults) (f x).run Q (tr ++ [⟨w, op, x, w'⟩]) w') :
    Ends (machine reports faults) (perform op >>= f).run Q tr w :=
  ends_bindE (ends_lift (ends_perform h))

/-- `?` on an I/O result, and what follows it. -/
theorem ends_io {α β : Type} {x : Except IoError α} {f : α → Run β}
    {Q : Except UpdateError β → List (Event (machine reports faults)) → Host → Prop}
    (hok : ∀ a, x = .ok a → Ends (machine reports faults) (f a).run Q tr w)
    (herr : ∀ e, x = .error e → Q (.error (.io e)) tr w) :
    Ends (machine reports faults) (io x >>= f).run Q tr w := by
  cases x with
  | ok a => exact hok a rfl
  | error e => exact ends_pure (herr e rfl)

/-- **`read_json`** finds what the file holds, or fails. -/
theorem ends_readJson {α : Type} {k : Codec α} {f : StateFile} (h : Within w₀ ps tr w) :
    Ends (machine reports faults) (readJson k f).run (fun r tr' w' => Within w₀ ps tr' w' ∧
      w'.files = w.files ∧ ((∃ e, r = .error e) ∨
        ∃ o, r = .ok o ∧ Stored.of k (w.files (.state f)) = o.elim .absent .holds)) tr w := by
  refine ends_op fun x w' ha => ?_
  have hw := h.act (fun y hy => absurd hy List.not_mem_nil) ha
  have hfiles : w'.files = w.files := funext fun p => act_files ha List.not_mem_nil
  obtain ⟨fs, ⟨-, hx⟩, -⟩ := act_fs ha
  rcases hx with hx | ⟨-, rfl⟩
  · cases hr : w.files (.state f) with
    | none =>
      rw [hr] at hx
      subst hx
      exact ends_pure ⟨hw, hfiles, .inr ⟨none, rfl, rfl⟩⟩
    | some raw =>
      rw [hr] at hx
      subst hx
      dsimp only
      cases hd : k.decode raw with
      | some a => exact ends_pure ⟨hw, hfiles, .inr ⟨some a, rfl, by rw [Stored.of, hd]; rfl⟩⟩
      | none => exact ends_pure ⟨hw, hfiles, .inl ⟨_, rfl⟩⟩
  · exact ends_pure ⟨hw, hfiles, .inl ⟨_, rfl⟩⟩

/-- **`write_json`**: an error leaves the file as it was. -/
theorem ends_writeJson {f : StateFile} {bytes : Bytes} (ht : .file (.temporary f) ∈ ps)
    (h : Within w₀ ps tr w) : Ends (machine reports faults) (writeJson f bytes).run
      (fun r tr' w' => Within w₀ (.file (.state f) :: ps) tr' w' ∧
        (r = .ok () ∧ w'.files (.state f) = some bytes ∨
          (∃ e, r = .error e) ∧ w'.files (.state f) = w.files (.state f))) tr w := by
  have h₀ : Within w₀ (.file (.state f) :: ps) tr w := h.mono (List.subset_cons_self _ _)
  refine ends_op fun x w₁ ha₁ => ?_
  have h₁ := h₀.act (by simpa [Op.footprint, FileOp.targets] using ht) ha₁
  have hf₁ : w₁.files (.state f) = w.files (.state f) :=
    act_files ha₁ (by simp [Op.footprint, FileOp.targets])
  refine ends_io (fun u hu => ?_) fun e he => ⟨h₁, .inr ⟨⟨_, rfl⟩, hf₁⟩⟩
  have ht₁ : w₁.files (.temporary f) = some bytes := by
    obtain ⟨fs, ⟨-, rfl⟩ | ⟨-, rfl, -⟩, rfl⟩ := act_fs ha₁
    · rw [heard_files]
      exact Function.update_self _ _ _
    · cases hu
  refine ends_op fun x w₂ ha₂ => ?_
  have h₂ := h₁.act (by simpa [Op.footprint, FileOp.targets] using ht) ha₂
  obtain ⟨fs, hfs, hw₂⟩ := act_fs ha₂
  have hfs₂ : w₂.files = fs := by rw [hw₂, heard_files]; rfl
  refine ends_io (fun u hu => ?_) fun e he => ⟨h₂, .inr ⟨⟨_, rfl⟩, ?_⟩⟩
  · have hf₂ : w₂.files (.state f) = some bytes := by
      obtain ⟨d, hd, -, rfl⟩ | ⟨-, rfl, -⟩ | ⟨-, rfl, -⟩ := hfs
      · rw [hfs₂, FileOp.put, Function.update_of_ne (by simp), FileOp.put, Function.update_self,
          ← hd, ht₁]
      · cases hu
      · cases hu
    refine ends_op fun x w₃ ha₃ => ?_
    have h₃ := h₂.act (fun y hy => absurd hy List.not_mem_nil) ha₃
    refine ends_pure ⟨h₃, .inl ⟨rfl, ?_⟩⟩
    rw [act_files ha₃ List.not_mem_nil, hf₂]
  · rw [hfs₂, ← hf₁]
    obtain ⟨d, -, rfl, -⟩ | ⟨-, -, rfl⟩ | ⟨-, -, rfl⟩ := hfs
    · cases he
    · rfl
    · rfl

/-- A file whose removal did not fail is gone. -/
theorem act_removed {p : Path} {x : Except IoError Unit}
    (h : (machine reports faults).act w (.fs (.remove p)) x w')
    (hp : p = .staged ∨ p = .state .pending)
    (hx : failedRemoval (.fs (.remove p)) x = false) : w'.files p = none := by
  obtain ⟨fs, ⟨-, -, rfl⟩ | ⟨hn, -, rfl⟩ | ⟨-, rfl, -⟩, rfl⟩ := act_fs h
  · rw [heard_files]
    exact Function.update_self _ _ _
  · rw [heard_files]
    exact hn
  · rcases hp with rfl | rfl
    · cases hx
    · cases hx

/-- **The staged file is removed.** -/
theorem ends_removeStaged (hs : .file .staged ∈ ps) (h : Within w₀ ps tr w) :
    Ends (machine reports faults) removeStaged.run (fun r tr' w' => r = .ok () ∧
      Within w₀ ps tr' w' ∧ (Cleaned tr' → w'.files .staged = none) ∧
      ∀ p, p ≠ .staged → w'.files p = w.files p) tr w := by
  refine ends_op fun x w' ha => ends_pure ⟨rfl, h.act ?_ ha, fun hc => ?_, fun p hp => ?_⟩
  · simpa [Op.footprint, FileOp.targets] using hs
  · exact act_removed ha (.inl rfl) (hc _ (List.mem_append_right _ List.mem_cons_self))
  · exact act_files ha (by simpa [Op.footprint, FileOp.targets] using hp)

/-- **A failure is added** to what `update-failed.json` held, or the file is as it was. -/
def Added (old new : Option Bytes) (failure : FailedRelease) : Prop :=
  new = old ∨ ∃ f : FailedReleases,
    (Stored.of FailedReleases.codec old).getD default = some f ∧
      f.has failure.sequence = false ∧ new = some (FailedReleases.codec.encode (f.push failure))

/-- **`record_failure`.** -/
theorem ends_recordFailure {version : String} {sequence nowMs : U64}
    (ht : .file (.temporary .failed) ∈ ps) (h : Within w₀ ps tr w) :
    Ends (machine reports faults) (recordFailure version sequence nowMs).run
      (fun _ tr' w' => Within w₀ (.file (.state .failed) :: ps) tr' w' ∧
        Added (w.files (.state .failed)) (w'.files (.state .failed))
          ⟨sequence, version, nowMs⟩) tr w := by
  refine ends_bindE ((ends_readJson h).mono fun r tr₁ w₁ hr => ?_)
  obtain ⟨h₁, hfiles, ⟨e, rfl⟩ | ⟨o, rfl, ho⟩⟩ := hr
  · exact ⟨h₁.mono (List.subset_cons_self _ _), .inl (by rw [hfiles])⟩
  · have hget : (Stored.of FailedReleases.codec (w.files (.state .failed))).getD default =
        some (o.getD default) := by
      rw [ho]
      cases o with
      | none => rfl
      | some f => rfl
    show Ends (machine reports faults) (if (o.getD default).has sequence = true then
      (pure () : Run Unit) else writeJson .failed
        (FailedReleases.codec.encode ((o.getD default).push ⟨sequence, version, nowMs⟩))).run _ tr₁ w₁
    split_ifs with hhas
    · exact ends_pure ⟨h₁.mono (List.subset_cons_self _ _), .inl (by rw [hfiles])⟩
    · refine (ends_writeJson ht h₁).mono fun r tr₂ w₂ hr => ⟨hr.1, ?_⟩
      rcases hr.2 with ⟨-, hf⟩ | ⟨-, hf⟩
      · exact .inr ⟨_, hget, by simpa using hhas, hf⟩
      · exact .inl (by rw [hf, hfiles])

/-! ## 4. Staging -/

theorem fetch_error {net : Net} {url : String} {max : Nat} {e : UpdateError}
    (h : fetch net url max = .error e) (why : String) : e ≠ .badRelease why := by
  unfold fetch at h
  simp only [bind, Except.bind, throw, throwThe, MonadExceptOf.throw, pure, Except.pure] at h
  repeat' split at h
  all_goals
    cases h
    try exact nofun

/-- A download that fails gives no release to blame. -/
theorem download_error {m : Manifest} {e : UpdateError} (h : download c m = .error e)
    (why : String) : e ≠ .badRelease why := by
  unfold download at h
  cases hf : fetch c.net (binaryUrl c m) m.binary.size.val with
  | error e' =>
    rw [hf] at h
    obtain rfl := Except.error.inj h
    exact fetch_error hf why
  | ok o =>
    rw [hf] at h
    simp only [bind, Except.bind, throw, throwThe, MonadExceptOf.throw, pure, Except.pure] at h
    repeat' split at h
    all_goals
      cases h
      try exact nofun

/-- **`stage`** touches the staged file only, and blames a release only for the bytes that its
    manifest describes. -/
theorem ends_stage {m : Manifest} (h : Within w₀ scratch tr w) :
    Ends (machine reports faults) (stage c m).run
      (fun r tr' w' => Within w₀ (.file .staged :: scratch) tr' w' ∧
        (Downloaded crypto m tr' ∨ ∃ e, r = .error e ∧ ∀ why, e ≠ .badRelease why)) tr w := by
  have h₀ : Within w₀ (.file .staged :: scratch) tr w := h.mono (List.subset_cons_self _ _)
  unfold stage
  cases hd : download c m with
  | error e => exact ends_pure ⟨h₀, .inr ⟨e, rfl, download_error hd⟩⟩
  | ok binary =>
    obtain ⟨hsize, hsha⟩ := download_ok hd
    refine ends_bindE (p := removeStaged) ((ends_removeStaged (by decide) h₀).mono ?_)
    intro r tr₁ w₁ hr
    obtain ⟨rfl, h₁, -⟩ := hr
    refine ends_op fun x w₂ ha => ?_
    have h₂ := h₁.act (in_singleton rfl (by decide)) ha
    refine ends_io (fun u hu => ?_) fun e he => ⟨h₂, .inr ⟨_, rfl, nofun⟩⟩
    -- from here on the staged bytes are those of the manifest
    have hdown : Downloaded crypto m (tr₁ ++ [⟨w₁, .fs (.create .staged binary), x, w₂⟩]) := by
      refine ⟨_, List.mem_append_right _ List.mem_cons_self, binary, ?_, hsize, hsha⟩
      rw [hu]
      rfl
    refine ends_op fun y w₃ ha₃ => ?_
    have h₃ := h₂.act (fun y hy => absurd hy List.not_mem_nil) ha₃
    have hdown₃ := hdown.append [⟨w₂, .version, y, w₃⟩]
    cases y with
    | error e => exact ends_pure ⟨h₃, .inl hdown₃⟩
    | ok reported =>
      dsimp only
      split_ifs
      · exact ends_pure ⟨h₃, .inl hdown₃⟩
      · exact ends_pure ⟨h₃, .inl hdown₃⟩

/-! ## 5. Refusing and swapping -/

/-- **The swap**: the staged file was renamed onto `install_path`. -/
def Swapped (tr : List (Event (machine reports faults))) : Prop :=
  ∃ e ∈ tr, action e.op e.ans = .swap

/-- **What an attempt leaves that does not get to the swap**, from the host `w₀`: the installed
    binary and the service, and `release.json` but for a release that runs already. Where the
    removals succeed there is no `pending.json`, and no staged file but one that the run found and
    did not touch. -/
structure Unchanged (w₀ : Host) (r : Except UpdateError Outcome)
    (tr : List (Event (machine reports faults))) (w : Host) : Prop where
  install : w.files .install = w₀.files .install
  silent : ∀ e ∈ tr, e.op ≠ .restart
  release : r ≠ .ok .alreadyRunning → w.files (.state .release) = w₀.files (.state .release)
  pending : Cleaned tr → w.files (.state .pending) = none
  staged : Cleaned tr → w.files .staged = none ∨
    w.files .staged = w₀.files .staged ∧ ∀ e ∈ tr, .file .staged ∉ e.op.footprint

/-- **A release is blamed only for bytes that its manifest describes.** -/
def Blamed (c : Call crypto) (w₀ : Host) (tr : List (Event (machine reports faults))) (w : Host) :
    Prop :=
  w.files (.state .failed) = w₀.files (.state .failed) ∨
    ∃ m, offered c = .ok (some m) ∧ Downloaded crypto m tr ∧
      Added (w₀.files (.state .failed)) (w.files (.state .failed)) ⟨m.sequence, m.version, c.nowMs⟩

/-- **How a run ends** that found no `pending.json`. -/
def Ended (c : Call crypto) (w₀ : Host) (r : Except UpdateError Outcome)
    (tr : List (Event (machine reports faults))) (w : Host) : Prop :=
  Blamed c w₀ tr w ∧
    (Unchanged w₀ r tr w ∨ Swapped tr ∧ ∀ o, r = .ok o → ∃ version, o = .updated version)

theorem Cleaned.of_append {t : List (Event (machine reports faults))} (h : Cleaned (tr ++ t)) :
    Cleaned tr := fun e he => h e (List.mem_append_left t he)

theorem Within.silent (h : Within w₀ ps tr w) (hs : .service ∉ ps) : ∀ e ∈ tr, e.op ≠ .restart := by
  intro e he hop
  have ht := h.touched e he .service (by rw [hop]; exact List.mem_cons_self)
  exact hs ht

/-- A run that touched scratch files only. -/
theorem Within.ended (h : Within w₀ scratch tr w) (hp : w₀.files (.state .pending) = none)
    (r : Except UpdateError Outcome) : Ended c w₀ r tr w := by
  refine ⟨.inl (h.frame _ (by decide)), .inl ?_⟩
  exact {
    install := h.frame _ (by decide)
    silent := h.silent (by decide)
    release := fun _ => h.frame _ (by decide)
    pending := fun _ => (h.frame _ (by decide)).trans hp
    staged := fun _ => .inr ⟨h.frame _ (by decide), fun e he ht =>
      absurd (h.touched e he _ ht) (by decide)⟩ }

/-- **A file that a program does not touch** keeps what is known of it. -/
theorem ends_file {α : Type} {p : Prog iface α} {q : Path} {P : Option Bytes → Prop}
    (hp : p.Uses (Op.In ps)) (hq : .file q ∉ ps) (h : Cleaned tr → P (w.files q)) :
    Ends (machine reports faults) p (fun _ tr w => Cleaned tr → P (w.files q)) tr w := by
  refine ends_of_uses (J := fun tr w => Cleaned tr → P (w.files q)) ?_ hp h
  intro tr w op x w' hop ha hJ hc
  rw [act_files ha fun ht => hq (hop _ ht)]
  exact hJ hc.of_append

theorem uses_recordFailure {version : String} {sequence nowMs : U64}
    (hr : T (.fs (.read (.state .failed)))) (hw : ∀ bytes, (writeJson .failed bytes).run.Uses T) :
    (recordFailure version sequence nowMs).run.Uses T := by
  refine uses_bindE (uses_readJson hr) fun o => ?_
  dsimp only
  split_ifs
  · trivial
  · exact hw _

/-- **`refuse`**: the staged file is removed, and the release is blamed if its bytes were staged. -/
theorem ends_refuse {m : Manifest} {e : UpdateError} (hp : w₀.files (.state .pending) = none)
    (ho : offered c = .ok (some m)) (h : Within w₀ (.file .staged :: scratch) tr w)
    (hd : Downloaded crypto m tr ∨ ∀ why, e ≠ .badRelease why) :
    Ends (machine reports faults) (refuse c m e).run (Ended c w₀) tr w := by
  have hdone : ∀ (r : Except UpdateError Outcome) (tr' : List (Event (machine reports faults)))
      (w' : Host), Within w₀ (.file (.state .failed) :: .file .staged :: scratch) tr' w' →
      (Cleaned tr' → w'.files .staged = none) → Unchanged w₀ r tr' w' := by
    intro r tr' w' hw hc
    exact {
      install := hw.frame _ (by decide)
      silent := hw.silent (by decide)
      release := fun _ => hw.frame _ (by decide)
      pending := fun _ => (hw.frame _ (by decide)).trans hp
      staged := fun hy => .inl (hc hy) }
  unfold refuse
  refine ends_bindE (p := removeStaged) ((ends_removeStaged (by decide) h).extends.mono ?_)
  intro r tr₁ w₁ hr
  obtain ⟨⟨rfl, h₁, hc, -⟩, t, rfl⟩ := hr
  cases e with
  | badRelease why =>
    have hdown := (hd.resolve_right fun hne => hne why rfl).append t
    have hu : (recordFailure m.version m.sequence c.nowMs).run.Uses
        (Op.In [.file (.state .failed), .file (.temporary .failed)]) :=
      uses_recordFailure (in_nothing rfl) fun _ => within_writeJson (by decide) (by decide)
    refine ends_bindE (((ends_recordFailure (by decide) h₁).extends.and
      (ends_file (q := .staged) (P := (· = none)) hu (by decide) hc)).mono ?_)
    intro r tr₂ w₂ hr
    obtain ⟨⟨⟨h₂, hadd⟩, t', rfl⟩, hc₂⟩ := hr
    have hended : ∀ r, Ended c w₀ r (tr ++ t ++ t') w₂ := by
      refine fun r => ⟨.inr ⟨m, ho, hdown.append t', ?_⟩, .inl (hdone r _ _ h₂ hc₂)⟩
      rwa [h₁.frame (.state .failed) (by decide)] at hadd
    cases r with
    | error e => exact hended _
    | ok u => exact ends_pure (hended _)
  | _ =>
    have h₂ := h₁.mono (List.subset_cons_self (Part.file (.state .failed)) _)
    exact ends_pure ⟨.inl (h₁.frame _ (by decide)), .inl (hdone _ _ _ h₂ hc)⟩

/-! ## 6. After the swap -/

/-- Everything but the record of failures. -/
def others : List Part :=
  .file .install :: .file .previous :: .file .staged :: .file (.state .pending) ::
    .file (.state .release) :: .service :: scratch

theorem uses_restartAndCheck {polls : Polls} (hs : T .restart) :
    (restartAndCheck polls).Uses T := by
  refine uses_bind (uses_perform hs) fun x => ?_
  cases x with
  | ok u => trivial
  | error e => trivial

theorem uses_restore (hp : T (.fs (.probe .previous)))
    (hr : T (.fs (.rename .previous .install))) (hs : T (.fs .sync)) : restore.Uses T := by
  refine uses_bind (uses_perform hp) fun there => ?_
  split_ifs
  · refine uses_bind (uses_perform hr) fun x => ?_
    cases x with
    | error e => trivial
    | ok u => exact uses_bind (uses_perform hs) fun _ => trivial
  · trivial

theorem uses_settle {pending : Pending} {reason : String} {recorded : Except UpdateError Unit}
    (hs : T .restart) (hd : T (.fs (.remove (.state .pending)))) :
    (settle pending reason recorded).Uses T := by
  refine uses_bind (uses_perform hs) fun x => ?_
  cases x with
  | error e => trivial
  | ok u =>
    cases recorded with
    | error e => trivial
    | ok u => exact uses_bind (uses_perform hd) fun _ => trivial

/-- With that record it is the whole host. -/
theorem mem_others (x : Part) : x ∈ Part.file (.state .failed) :: others := by
  cases x with
  | service => decide
  | file p =>
    cases p with
    | state f => cases f <;> decide
    | temporary f => cases f <;> decide
    | _ => decide

theorem within_others (tr : List (Event (machine reports faults))) (w : Host) :
    Within w (.file (.state .failed) :: others) tr w :=
  ⟨fun _ _ => rfl, fun _ _ x _ => mem_others x⟩

/-- What a program of other operations leaves of the record of failures. -/
theorem ends_others {α : Type} {p : Prog iface α} {P : Option Bytes → Prop}
    (hp : p.Uses (Op.In others)) (h : P (w.files (.state .failed))) :
    Ends (machine reports faults) p (fun _ _ (w' : Host) => P (w'.files (.state .failed))) tr w := by
  have hJ : ∀ (tr : List (Event (machine reports faults))) (w : Host) (op : Op) (x : Op.Ans op)
      (w' : Host), Op.In others op → (machine reports faults).act w op x w' →
      P (w.files (.state .failed)) → P (w'.files (.state .failed)) := by
    intro tr w op x w' hop ha hJ
    rwa [act_files ha fun ht => absurd (hop _ ht) (by decide)]
  exact ends_of_uses (M := machine reports faults)
    (J := fun _ (w' : Host) => P (w'.files (.state .failed))) hJ hp h

/-- **`roll_back`** blames the pending release only. -/
theorem ends_rollBack {p : Pending} {nowMs : U64} {reason : String} {old : Option Bytes}
    (h : w.files (.state .failed) = old) : Ends (machine reports faults) (rollBack p nowMs reason)
      (fun _ _ (w' : Host) => Added old (w'.files (.state .failed))
        ⟨p.sequence, p.version, nowMs⟩) tr w := by
  refine ends_bind ((ends_others (P := (· = old)) (within_writeJson (by decide) (by decide))
    h).mono fun _ tr₁ w₁ h₁ => ?_)
  refine ends_bind ((ends_recordFailure (by decide) (within_others tr₁ w₁)).mono ?_)
  intro r tr₂ w₂ hr
  have hadd := hr.2
  rw [h₁] at hadd
  refine ends_bind ((ends_others (P := (Added old · _))
    (uses_restore (in_nothing rfl) (by decide) (in_nothing rfl)) hadd).mono ?_)
  intro x tr₃ w₃ h₃
  cases x with
  | error e => exact ends_pure (h₃)
  | ok u => exact ends_others (P := (Added old · _)) (uses_settle (by decide) (by decide)) h₃

/-- **`confirm`** after the swap: the release may be blamed, and no outcome but that of an update is
    left. -/
theorem ends_confirm {m : Manifest} (ho : offered c = .ok (some m))
    (hd : Downloaded crypto m tr) (hs : Swapped tr)
    (h : w.files (.state .failed) = w₀.files (.state .failed)) :
    Ends (machine reports faults) (confirm c ⟨m.version, m.sequence, false⟩).run (Ended c w₀) tr w := by
  have hfinish : ∀ (r : Except UpdateError Outcome) (tr' : List (Event (machine reports faults)))
      (w' : Host), (∃ t, tr' = tr ++ t) →
      Added (w₀.files (.state .failed)) (w'.files (.state .failed)) ⟨m.sequence, m.version, c.nowMs⟩ →
      (∀ o, r = .ok o → ∃ version, o = .updated version) → Ended c w₀ r tr' w' := by
    intro r tr' w' ht hadd hr
    obtain ⟨t, rfl⟩ := ht
    obtain ⟨e, he, hswap⟩ := hs
    exact ⟨.inr ⟨m, ho, hd.append t, hadd⟩, .inr ⟨⟨e, List.mem_append_left t he, hswap⟩, hr⟩⟩
  suffices hmain : Ends (machine reports faults) (confirm c ⟨m.version, m.sequence, false⟩).run
      (fun r _ (w' : Host) => Added (w₀.files (.state .failed)) (w'.files (.state .failed))
        ⟨m.sequence, m.version, c.nowMs⟩ ∧ ∀ o, r = .ok o → ∃ version, o = .updated version) tr w from
    hmain.extends.mono fun r tr' w' hr => hfinish r tr' w' hr.2 hr.1.1 hr.1.2
  refine ends_bindE (ends_lift ((ends_others (P := (· = w₀.files (.state .failed)))
    (uses_restartAndCheck (by decide)) h).mono fun x tr₁ w₁ h₁ => ?_))
  cases x with
  | error reason =>
    refine ends_bindE (ends_lift ((ends_rollBack h₁).mono fun e tr₂ w₂ h₂ => ?_))
    exact ends_pure ⟨h₂, nofun⟩
  | ok u =>
    refine ends_bindE ((ends_others (P := (· = w₀.files (.state .failed)))
      (within_writeJson (by decide) (by decide)) h₁).mono fun r tr₂ w₂ h₂ => ?_)
    cases r with
    | error e => exact ⟨.inl h₂, nofun⟩
    | ok u =>
      refine ends_op fun x w₃ ha => ?_
      have h₃ : w₃.files (.state .failed) = w₀.files (.state .failed) :=
        (act_files ha (by decide)).trans h₂
      exact ends_io (fun _ _ => ends_pure
        ⟨.inl h₃, fun o ho => ⟨m.version, (Except.ok.inj ho).symm⟩⟩)
        fun _ _ => ⟨.inl h₃, nofun⟩

/-! ## 7. The swap -/

theorem uses_backUp (hc : T (.fs (.copy .install .previous))) (hs : T (.fs .sync)) :
    backUp.Uses T := by
  refine uses_bind (uses_perform hc) fun x => ?_
  cases x with
  | error e => trivial
  | ok u => exact uses_perform hs

/-- **The rename that fails** leaves both files as they were. -/
theorem act_swapFails {e : IoError}
    (h : (machine reports faults).act w (.fs (.rename .staged .install)) (.error e) w') :
    w'.files = w.files := by
  obtain ⟨fs, ⟨d, -, hx, -⟩ | ⟨-, -, rfl⟩ | ⟨-, -, rfl⟩, rfl⟩ := act_fs h
  · cases hx
  · rw [heard_files]
    rfl
  · rw [heard_files]
    rfl

/-- **`swapIn`**: an error before the swap leaves nothing pending, and nothing staged. -/
theorem ends_swapIn {m : Manifest} (hp : w₀.files (.state .pending) = none)
    (ho : offered c = .ok (some m)) (h : Within w₀ (.file .staged :: scratch) tr w)
    (hd : Downloaded crypto m tr) :
    Ends (machine reports faults) (swapIn c m).run (Ended c w₀) tr w := by
  -- what every failure here leaves, with the files it touched
  have hdone : ∀ (r : Except UpdateError Outcome) (tr' : List (Event (machine reports faults)))
      (w' : Host), Within w₀ (.file .install :: .file .previous :: .file (.state .pending) ::
        .file .staged :: scratch) tr' w' → w'.files .install = w₀.files .install →
      (Cleaned tr' → w'.files (.state .pending) = none) →
      (Cleaned tr' → w'.files .staged = none) → Ended c w₀ r tr' w' := by
    intro r tr' w' hw hinst hpend hst
    refine ⟨.inl (hw.frame _ (by decide)), .inl ?_⟩
    exact {
      install := hinst
      silent := hw.silent (by decide)
      release := fun _ => hw.frame _ (by decide)
      pending := hpend
      staged := fun hy => .inl (hst hy) }
  have hsub : Part.file .staged :: scratch ⊆ .file .previous :: .file .staged :: scratch :=
    List.subset_cons_self _ _
  have hsub' : Part.file .previous :: .file .staged :: scratch ⊆ .file .install ::
      .file .previous :: .file (.state .pending) :: .file .staged :: scratch := by decide
  have hback := (ends_within (uses_backUp (by decide) (in_nothing rfl)) (h.mono hsub)).extends
  refine ends_bindE (ends_lift (hback.mono fun x tr₁ w₁ h₁ => ?_))
  obtain ⟨h₁, t₁, rfl⟩ := h₁
  have hinst₁ : w₁.files .install = w₀.files .install := h₁.frame _ (by decide)
  have hpend₁ : w₁.files (.state .pending) = none := (h₁.frame _ (by decide)).trans hp
  cases x with
  | error e =>
    refine ends_bindE ((ends_removeStaged (by decide) h₁).mono fun r tr₂ w₂ hr => ?_)
    obtain ⟨rfl, h₂, hc, hsame⟩ := hr
    exact ends_throw (hdone _ _ _ (h₂.mono hsub') ((hsame _ (by decide)).trans hinst₁)
      (fun _ => (hsame _ (by decide)).trans hpend₁) hc)
  | ok u =>
    refine ends_op fun x w₂ ha => ?_
    have h₂ := h₁.act (fun y hy => absurd hy List.not_mem_nil) ha
    have hpend₂ : w₂.files (.state .pending) = none := (h₂.frame _ (by decide)).trans hp
    refine ends_bindE (ends_lift ((ends_writeJson (by decide) h₂).extends.mono
      fun r tr₃ w₃ hr => ?_))
    obtain ⟨⟨h₃, hr⟩, t₃, rfl⟩ := hr
    have hinst₃ : w₃.files .install = w₀.files .install := h₃.frame _ (by decide)
    have hall := h₃.mono (show _ ⊆ Part.file .install :: .file .previous ::
      .file (.state .pending) :: .file .staged :: scratch by decide)
    cases r with
    | error e =>
      have hpend₃ : w₃.files (.state .pending) = none := by
        rcases hr with ⟨hr, -⟩ | ⟨-, hf⟩
        · cases hr
        · exact hf.trans hpend₂
      refine ends_bindE ((ends_removeStaged (by decide) hall).mono fun r tr₄ w₄ hr => ?_)
      obtain ⟨rfl, h₄, hc, hsame⟩ := hr
      exact ends_throw (hdone _ _ _ h₄ ((hsame _ (by decide)).trans hinst₃)
        (fun _ => (hsame _ (by decide)).trans hpend₃) hc)
    | ok u =>
      refine ends_op fun x w₄ ha₄ => ?_
      have h₄ := hall.act (by decide) ha₄
      cases x with
      | error e =>
        have hsame₄ := act_swapFails ha₄
        refine ends_bindE ((ends_removeStaged (by decide) h₄).mono fun r tr₅ w₅ hr => ?_)
        obtain ⟨rfl, h₅, hc, hsame₅⟩ := hr
        refine ends_op fun y w₆ ha₆ => ends_throw
          (hdone _ _ _ (h₅.act (in_singleton rfl (by decide)) ha₆) ?_ ?_ ?_)
        · rw [act_files ha₆ (by decide), hsame₅ _ (by decide), hsame₄, hinst₃]
        · exact fun hcl => act_removed ha₆ (.inr rfl)
            (hcl _ (List.mem_append_right _ List.mem_cons_self))
        · exact fun hcl => (act_files ha₆ (by decide)).trans (hc hcl.of_append)
      | ok u =>
        refine ends_op fun y w₅ ha₅ => ends_confirm ho ?_ ?_ ?_
        · exact (((hd.append t₁).append _).append t₃).append _ |>.append _
        · exact ⟨_, List.mem_append_left _ (List.mem_append_right _ List.mem_cons_self), rfl⟩
        · exact (act_files ha₅ (by decide)).trans (h₄.frame _ (by decide))

/-- **`install`.** -/
theorem ends_install {m : Manifest} (hp : w₀.files (.state .pending) = none)
    (ho : offered c = .ok (some m)) (h : Within w₀ scratch tr w) :
    Ends (machine reports faults) (install c m).run (Ended c w₀) tr w := by
  refine ends_op fun x w₁ ha => ?_
  have h₁ := h.act (fun y hy => absurd hy List.not_mem_nil) ha
  split_ifs
  · refine ends_bindE ((ends_within (uses_checkDisk (fun _ => within_writeJson (by decide)
      (by decide)) (by decide)) h₁).mono fun r tr₂ w₂ h₂ => ?_)
    cases r with
    | error e => exact h₂.ended hp _
    | ok u =>
      have hstage := ends_stage (c := c) (m := m) h₂
      refine ends_bindE (ends_lift (hstage.mono fun r tr₃ w₃ hr => ?_))
      obtain ⟨h₃, hd⟩ := hr
      cases r with
      | error e =>
        have hne : Downloaded crypto m tr₃ ∨ ∀ why, e ≠ .badRelease why := by
          refine hd.imp id fun hne => ?_
          obtain ⟨e', he, hne⟩ := hne
          rwa [Except.error.inj he]
        exact ends_refuse hp ho h₃ hne
      | ok u =>
        have hdown : Downloaded crypto m tr₃ := by
          refine hd.resolve_right fun hne => ?_
          obtain ⟨e, he, -⟩ := hne
          cases he
        exact ends_swapIn hp ho h₃ hdown
  · exact ends_pure (h₁.ended hp _)

/-! ## 8. The run -/

theorem ends_consider {m : Manifest} {r : Installed} (hp : w₀.files (.state .pending) = none)
    (ho : offered c = .ok (some m)) (h : Within w₀ scratch tr w) :
    Ends (machine reports faults) (consider c m r).run (Ended c w₀) tr w := by
  unfold consider
  split_ifs with hle hv
  · exact ends_pure (h.ended hp _)
  · refine ends_bindE ((ends_writeJson (by decide) h).mono fun r tr₁ w₁ hr => ?_)
    obtain ⟨h₁, hr⟩ := hr
    have hblame : Blamed c w₀ tr₁ w₁ := .inl (h₁.frame _ (by decide))
    have hdone : ∀ r : Except UpdateError Outcome, (r ≠ .ok .alreadyRunning →
        w₁.files (.state .release) = w₀.files (.state .release)) → Unchanged w₀ r tr₁ w₁ := by
      intro r hrel
      exact {
        install := h₁.frame _ (by decide)
        silent := h₁.silent (by decide)
        release := hrel
        pending := fun _ => (h₁.frame _ (by decide)).trans hp
        staged := fun _ => .inr ⟨h₁.frame _ (by decide), fun e he ht =>
          absurd (h₁.touched e he _ ht) (by decide)⟩ }
    rcases hr with ⟨rfl, -⟩ | ⟨⟨e, rfl⟩, hf⟩
    · exact ends_pure ⟨hblame, .inl (hdone _ fun hne => absurd rfl hne)⟩
    · exact ⟨hblame, .inl (hdone _ fun _ => hf.trans (h.frame _ (by decide)))⟩
  · refine ends_bindE ((ends_within (uses_readJson (in_nothing rfl)) h).mono fun r tr₁ w₁ h₁ => ?_)
    cases r with
    | error e => exact h₁.ended hp _
    | ok f =>
      show Ends (machine reports faults) (schedule c m (f.getD default)).run _ tr₁ w₁
      unfold schedule
      split_ifs
      · exact ends_pure (h₁.ended hp _)
      · cases notYet c m with
        | some outcome => exact ends_pure (h₁.ended hp _)
        | none => exact ends_install hp ho h₁

theorem ends_offer (hp : w₀.files (.state .pending) = none) (h : Within w₀ scratch tr w) :
    Ends (machine reports faults) (offer c).run (Ended c w₀) tr w := by
  refine ends_bindE ((ends_within (uses_readJson (in_nothing rfl)) h).mono fun r tr₁ w₁ h₁ => ?_)
  cases r with
  | error e => exact h₁.ended hp _
  | ok installed =>
    show Ends (machine reports faults) (orThrow (offered c) >>= _ : Run Outcome).run _ tr₁ w₁
    cases ho : offered c with
    | error e => exact ends_pure (h₁.ended hp _)
    | ok o =>
      cases o with
      | none => exact ends_pure (h₁.ended hp _)
      | some m => exact ends_consider hp ho h₁

/-- Without a `pending.json` there is nothing to recover. -/
theorem ends_recover (hp : w₀.files (.state .pending) = none) (h : Within w₀ scratch tr w) :
    Ends (machine reports faults) (recover c).run (fun r tr' w' => Within w₀ scratch tr' w' ∧
      (r = .ok none ∨ ∃ e, r = .error e)) tr w := by
  refine ends_bindE ((ends_readJson h).mono fun r tr₁ w₁ hr => ?_)
  obtain ⟨h₁, -, ⟨e, rfl⟩ | ⟨o, rfl, ho⟩⟩ := hr
  · exact ⟨h₁, .inr ⟨e, rfl⟩⟩
  · rw [h.frame (.state .pending) (by decide), hp] at ho
    cases o with
    | none => exact ends_pure ⟨h₁, .inl rfl⟩
    | some p => cases ho

/-- **Every run that finds no `pending.json`** ends so. -/
theorem ends_run (hp : w₀.files (.state .pending) = none) :
    Ends (machine reports faults) (run c).run (Ended c w₀) [] w₀ := by
  have h : Within w₀ scratch ([] : List (Event (machine reports faults))) w₀ :=
    ⟨fun _ _ => rfl, fun _ he => absurd he List.not_mem_nil⟩
  unfold run
  split_ifs
  · refine ends_op fun x w₁ ha => ?_
    have h₁ := h.act (fun y hy => absurd hy List.not_mem_nil) ha
    refine ends_io (fun _ _ => ?_) fun e _ => h₁.ended hp _
    refine ends_bindE ((ends_within (uses_checkStateDir (in_nothing rfl)) h₁).mono fun r tr₂ w₂ h₂ => ?_)
    cases r with
    | error e => exact h₂.ended hp _
    | ok u =>
      refine ends_op fun x w₃ ha => ?_
      have h₃ := h₂.act (fun y hy => absurd hy List.not_mem_nil) ha
      refine ends_io (fun _ _ => ?_) fun e _ => h₃.ended hp _
      refine ends_op fun x w₄ ha => ?_
      have h₄ := h₃.act (fun y hy => absurd hy List.not_mem_nil) ha
      cases x with
      | wouldBlock => exact ends_pure (h₄.ended hp _)
      | error e => exact ends_pure (h₄.ended hp _)
      | acquired =>
        refine ends_bindE ((ends_recover hp h₄).mono fun r tr₅ w₅ hr => ?_)
        obtain ⟨h₅, rfl | ⟨e, rfl⟩⟩ := hr
        · exact ends_offer hp h₅
        · exact h₅.ended hp _
  · exact ends_pure (h.ended hp _)

end Functions

/-! ## 9. The attempt -/

/-- **An attempt that fails leaves the host as it was.** A run that finds no `pending.json` and
    does not get to the swap, or that ends with any outcome but an update, leaves the installed binary
    and the service alone, and `release.json` but for a release that runs already. Where the removals
    succeed, there is no `pending.json`, and no staged file but one that an earlier run had left and
    this one did not touch. A sequence is recorded as failed only if the bytes that were staged have
    the size and the hash of its manifest. -/
theorem attempt_unchanged {c : Call crypto} {w w' : Host}
    {tr : List (Event (machine reports faults))} {r : Except UpdateError Outcome}
    (hp : w.files (.state .pending) = none)
    (h : Exec (machine reports faults) w (run c).run tr (some r) w') :
    (¬Swapped tr ∨ (∃ o, r = .ok o ∧ ∀ version, o ≠ .updated version) → Unchanged w r tr w') ∧
      Blamed c w tr w' := by
  obtain ⟨hblame, hend⟩ := (ends_run hp).holds tr r w' h
  refine ⟨fun hno => hend.resolve_right fun hswap => ?_, hblame⟩
  rcases hno with hno | ⟨o, rfl, hne⟩
  · exact hno hswap.1
  · obtain ⟨version, hv⟩ := hswap.2 o rfl
    exact hne version hv

/-- The update of the tests with a release whose binary does not run here. -/
theorem attempt_unchanged_test : ∃ (tr : List (Event (machine (fun _ => none) true))) (w' : Host),
    Unchanged testHost (.error (.badRelease "cannot run: ")) tr w' ∧
      Blamed (testCall "0.1.3" release4 true) testHost tr w' ∧
      (view w').failed = .holds ⟨[⟨2, "0.1.4", 1790000000000⟩]⟩ := by
  have hx := exec_played (fun _ => none) true 17 testHost (testCall "0.1.3" release4 true)
  have hr : (played (fun _ => none) true 17 testHost (testCall "0.1.3" release4 true)).2.1 =
      some (.error (.badRelease "cannot run: ")) := by decide +kernel
  have hno : ¬Swapped (played (fun _ => none) true 17 testHost
      (testCall "0.1.3" release4 true)).1 := by
    unfold Swapped
    decide +kernel
  rw [hr] at hx
  obtain ⟨hu, hb⟩ := attempt_unchanged rfl hx
  exact ⟨_, _, hu (.inl hno), hb, by decide +kernel⟩

/-- The test host after an update that was killed when the new binary had told its version. -/
def leftover : Host := playedTo testReports 12 testHost (testCall "0.1.3" release4 true)

/-- **A staged file that an earlier run had left remains** where a run does not get to staging: the
    next one ends as disabled, no removal fails, and the file is still there. -/
theorem attempt_leftover : ∃ (c : Call testCrypto) (w' : Host)
    (tr : List (Event (machine testReports true))) (r : Except UpdateError Outcome),
    leftover.files (.state .pending) = none ∧
      Exec (machine testReports true) leftover (run c).run tr (some r) w' ∧
      (∃ o, r = .ok o ∧ ∀ version, o ≠ .updated version) ∧ Cleaned tr ∧
      w'.files .staged = some (fakeBinary "0.1.4") := by
  have hfiles : leftover.files (.state .pending) = none ∧
      leftover.files .staged = some (fakeBinary "0.1.4") := by decide +kernel
  let c : Call testCrypto := { testCall "0.1.3" release4 true with
    config := { testConfig "0.1.3" with enabled := false } }
  exact ⟨c, leftover, [], .ok .disabled, hfiles.1, .ret _ _, ⟨.disabled, rfl, nofun⟩,
    fun _ he => absurd he List.not_mem_nil, hfiles.2⟩

end Sn46Validator.Update
