/-
  File:      Validator/Smooth.lean
  Subject:   A HOST WHERE NOTHING FAILS, with any snapshot and any burner, and what a run makes of it.

  * `smooth` -- the host: every file operation succeeds, the chain reads one snapshot, and the burner
    answers as it likes; `smooth_act` says that the machine may do all of this;
  * `watch` -- what is watched of a run: the state file, and the calls of the burner;
  * `load_yields`, `save_yields` -- the state file is read and written as expected;
  * `Run.smoothly`, `Run.calls` -- the one run there is, and the burner's calls in it.
-/
import Sn46Validator.Library.Evaluation
import Sn46Validator.Validator.Run

namespace Sn46Validator.Validator

open Library

/-! ## 1. A smooth host -/

/-- A call of the burner. -/
structure BurnerCall where
  netuid : U64
  finalizedBlock : U64
  miners : List MinerScore
  burn : BurnPolicy

/-- **A burner**: its answer to each call. -/
abbrev Burner : Type := BurnerCall → Except BurnError String

/-- **A host on which nothing fails.** What only a real chain is asked is refused. -/
def smooth (law : Law) (snapshot : ChainSnapshot) (burner : Burner) : Environment (machine law)
  | w, .fs op => ((op.exec w.files).1, { w with files := (op.exec w.files).2 })
  | w, .createDirectory | w, .openLock => (.ok (), w)
  | w, .tryLock => (.acquired, w)
  | w, .snapshot _ => (.ok snapshot, w)
  | w, .submit netuid block miners burn => (burner ⟨netuid, block, miners, burn⟩, w)
  | w, .currentBlock | w, .storage _ _ | w, .sign _ => (.error "", w)
  | w, .broadcast x => (.elapsed, w.broadcast x)
  | w, .atBlock _ | w, .atHash _ | w, .burnState _ _ | w, .economics _ _ | w, .nextIndex
  | w, .bestHash | w, .encrypt _ _ _ _ _ | w, .waitFinalized | w, .waitSuccess => (.elapsed, w)

/-- The machine may answer so. -/
theorem smooth_act {law : Law} {snapshot : ChainSnapshot} {burner : Burner} (w : Host) (op : Op) :
    (machine law).act w op (smooth law snapshot burner w op).1
      (smooth law snapshot burner w op).2 := by
  refine ⟨_, ?_, .refl _ _⟩
  cases op with
  | fs op => exact ⟨_, FileOp.act_exec true _ _, rfl⟩
  | _ => rfl

/-- A host before the first run. -/
def newHost : Host := ⟨fun _ => none, ⟨[], [], fun _ => none, 0, 0⟩, none⟩

/-- A chain that says anything; no file is lost. -/
def anyLaw : Law := ⟨false, fun _ _ => True, fun _ _ _ _ => True, fun _ => True, anyEncryption⟩

/-! ## 2. What is watched -/

/-- What `load` makes of the state file. -/
def stateOf (w : Host) : Except StateError ValidatorState :=
  ValidatorState.ofFile (w.files (.file .state))

/-- What is noted of a run: the calls of the burner, with the state file as it was. -/
def noteCall {law : Law} (e : Event (machine law)) :
    Option (BurnerCall × Except StateError ValidatorState) :=
  match e.op with
  | .submit netuid block miners burn => some (⟨netuid, block, miners, burn⟩, stateOf e.before)
  | _ => none

/-- The state file is watched. -/
def watch (law : Law) : Observer (machine law) (Except StateError ValidatorState)
    (BurnerCall × Except StateError ValidatorState) := ⟨stateOf, noteCall⟩

/-- All files are watched. -/
def watchFiles (law : Law) : Observer (machine law) (Files Path)
    (BurnerCall × Except StateError ValidatorState) := ⟨Host.files, noteCall⟩

/-! ## 3. The files -/

section

variable {law : Law} {snapshot : ChainSnapshot} {burner : Burner} {ε : Type}

/-- An operation that is answered `a`, changes nothing and is not noted. -/
theorem yields_ask (op : Op) (a : op.Ans) {S : Type} {see : Host → S} {x : S}
    (h : ∀ w, smooth law snapshot burner w op = (a, w))
    (hn : ∀ w, noteCall (⟨w, op, a, w⟩ : Event (machine law)) = none) :
    Observer.Yields ⟨see, noteCall⟩ (smooth law snapshot burner)
      (perform op : Fallible iface ε _).run x [] (.ok a) x := by
  refine yields_lift (yields_perform fun w hw => ?_)
  rw [h w]
  exact ⟨rfl, hw, congrArg Option.toList (hn w)⟩

theorem takeLock_yields (x : Except StateError ValidatorState) :
    (watch law).Yields (smooth law snapshot burner) takeLock.run x [] (.ok ()) x := by
  refine yields_then (yields_ask .createDirectory (.ok ()) (fun _ => rfl) fun _ => rfl) ?_
  refine yields_then (yields_except _) ?_
  refine yields_then (yields_ask .openLock (.ok ()) (fun _ => rfl) fun _ => rfl) ?_
  refine yields_then (yields_except _) ?_
  refine yields_then (yields_ask .tryLock .acquired (fun _ => rfl) fun _ => rfl) ?_
  exact yields_return ()

/-- A file operation. -/
theorem yields_fs (op : FileOp Path) (fs : Files Path) :
    (watchFiles law).Yields (smooth law snapshot burner)
      (perform (.fs op) : Fallible iface ε _).run fs [] (.ok (op.exec fs).1) (op.exec fs).2 := by
  refine yields_lift (yields_perform fun w hw => ?_)
  obtain rfl : w.files = fs := hw
  exact ⟨rfl, rfl, rfl⟩

/-- **`load`** gives what is seen of the state file. -/
theorem load_yields (x : Except StateError ValidatorState) :
    (watch law).Yields (smooth law snapshot burner) load.run x [] x x := by
  refine yields_coarsen (watchFiles law)
    (g := fun fs => ValidatorState.ofFile (fs (.file .state))) rfl (fun _ => rfl) fun fs hfs => ?_
  refine ⟨fs, yields_then (yields_fs _ fs) ?_, hfs⟩
  cases h : fs (.file .state) with
  | none =>
    have hread : (FileOp.exec fs (.read (.file .state))).1 = .error .notFound := by
      rw [FileOp.exec, h]
    rw [hread, ← hfs, h]
    exact yields_return default
  | some raw =>
    have hread : (FileOp.exec fs (.read (.file .state))).1 = .ok raw := by
      rw [FileOp.exec, h]
    rw [hread, ← hfs, h]
    exact yields_except _

/-- The files once `data` is saved. -/
def savedFiles (fs : Files Path) (f : File) (data : Bytes) : Files Path :=
  FileOp.put (FileOp.put (FileOp.put fs (.temporary f) (some data)) (.file f) (some data))
    (.temporary f) none

theorem writeDurably_yields (f : File) (data : Bytes) (fs : Files Path) :
    (watchFiles law).Yields (smooth law snapshot burner) (writeDurably f data).run fs [] (.ok ())
      (savedFiles fs f data) := by
  -- the temporary file holds the data when the rename comes
  have hrename : FileOp.exec (FileOp.exec fs (.write (.temporary f) data)).2
      (.rename (.temporary f) (.file f)) = (.ok (), savedFiles fs f data) := by
    simp [FileOp.exec, savedFiles]
  refine yields_then (yields_ask .createDirectory (.ok ()) (fun _ => rfl) fun _ => rfl) ?_
  refine yields_then (yields_except _) ?_
  refine yields_then (yields_fs (.write (.temporary f) data) fs) ?_
  refine yields_then (yields_except _) ?_
  refine yields_then (yields_fs (.rename (.temporary f) (.file f)) _) ?_
  rw [hrename]
  refine yields_then (yields_except _) ?_
  exact yields_then (yields_fs .sync _) (yields_except _)

/-- There is no temporary file to drop. -/
theorem dropTemporary_yields {f : File} {fs : Files Path} (h : fs (.temporary f) = none) :
    (watchFiles law).Yields (smooth law snapshot burner)
      (dropTemporary f : Fallible iface ε Unit).run fs [] (.ok ()) fs := by
  have hgone : (FileOp.exec fs (.probe (.temporary f))).1 = false := by
    simp [FileOp.exec, h]
  refine yields_then (yields_fs (.probe (.temporary f)) fs) ?_
  rw [hgone]
  exact yields_return ()

/-- **`save_bytes`** of the state file. -/
theorem saveBytes_yields (data : Bytes) (x : Except StateError ValidatorState) :
    (watch law).Yields (smooth law snapshot burner) (saveBytes .state data).run x [] (.ok ())
      (ValidatorState.decode data) := by
  refine yields_coarsen (watchFiles law)
    (g := fun fs => ValidatorState.ofFile (fs (.file .state))) rfl (fun _ => rfl) fun fs _ => ?_
  refine ⟨savedFiles fs .state data, ?_, by simp [savedFiles, ValidatorState.ofFile]⟩
  -- the rename took the temporary file away
  have hgone : savedFiles fs .state data (.temporary .state) = none := by simp [savedFiles]
  refine yields_then (yields_lift (writeDurably_yields .state data fs)) ?_
  exact yields_then (dropTemporary_yields hgone) (yields_except _)

/-- **`save`** of a well-formed state. -/
theorem save_yields {saved : ValidatorState} (hw : saved.WellFormed)
    (x : Except StateError ValidatorState) :
    (watch law).Yields (smooth law snapshot burner) (save saved).run x [] (.ok ()) (.ok saved) := by
  rw [← ValidatorState.decode_encode hw]
  exact saveBytes_yields saved.encode x

end

/-! ## 4. The run -/

section

variable {shared : Shared} (run : Run shared) (law : Law) (snapshot : ChainSnapshot)
  (burner : Burner)

/-- The run on a smooth host: its operations, its result, the host it leaves. -/
def Run.smoothly (w : Host) :
    List (Event (machine law)) × Except RunError (List MinerScore) × Host :=
  (runOnce run).run.eval (smooth law snapshot burner) w

/-- It is a run of the machine. -/
theorem Run.smoothly_exec (w : Host) :
    Exec (machine law) w (runOnce run).run (run.smoothly law snapshot burner w).1
      (some (run.smoothly law snapshot burner w).2.1) (run.smoothly law snapshot burner w).2.2 := by
  unfold Run.smoothly
  exact Exec.eval (M := machine law) smooth_act (runOnce run).run w

/-- The calls of the burner, each with the state file as it was. -/
def Run.calls (w : Host) : List (BurnerCall × Except StateError ValidatorState) :=
  (run.smoothly law snapshot burner w).1.filterMap noteCall

end

end Sn46Validator.Validator
