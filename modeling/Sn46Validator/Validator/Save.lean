/-
  File:      Validator/Save.lean
  Subject:   SAVING THE STATE on a disk that can lose power.

  `Submit.lean` has the same save as a running validator sees it, one operation a file; here is
  every system call of it, and what a power loss leaves.

  * `writeDurably`, `saveBytes`, `save`, `load` -- the code's functions;
  * `StateDirectory` -- a directory whose temporary file is no second name of the file it replaces;
    the temporary file an earlier save left behind may hold anything;
  * `saveBytes_replaces`, `saveBytes_held` -- what a save does to the file, wherever it stops, and
    what it has done when it returns `Ok`;
  * `save_all_or_nothing` -- **the file is as it would be without the save, or as it was saved**;
  * `History.load` -- **any number of saves and power losses**: there is always a state to load, and
    it is one that was saved;
  * `acknowledged_kept` -- and none that is older than the last save that returned `Ok`.

  The lock makes a save the only one. A directory that was synced outlives a power loss with the
  names it had.
-/
import Sn46Validator.Library.Disk
import Sn46Validator.Library.Evaluation
import Sn46Validator.Library.Guarantee
import Sn46Validator.Validator.Host

namespace Sn46Validator.Validator.StateStore

open Library Disk

/-! ## 1. The functions -/

section

variable {ε : Type}

/-- One system call. -/
def call (op : DiskOp Path) : Fallible (DiskOp.iface Path) ε (DiskOp.Ans op) :=
  ExceptT.lift (Prog.perform (I := DiskOp.iface Path) op)

/-- **`write_durably`.** -/
def writeDurably (temporary target : Path) (data : Bytes) :
    Fallible (DiskOp.iface Path) IoError Unit := do
  Fallible.ofExcept (← call .createDirectory)
  let file ← Fallible.ofExcept (← call (.openTruncated temporary))
  Fallible.ofExcept (← call (.setPermissions file))
  Fallible.ofExcept (← call (.writeAll file data))
  Fallible.ofExcept (← call (.syncFile file))
  Fallible.ofExcept (← call (.rename temporary target))
  Fallible.ofExcept (← call .syncDirectory)

/-- The temporary file is removed if it is still there. -/
def dropTemporary (temporary : Path) : Fallible (DiskOp.iface Path) ε Unit := do
  if ← call (.probe temporary) then
    let _ ← call (.remove temporary)

/-- **`save_bytes`.** -/
def saveBytes (path : File) (data : Bytes) : Fallible (DiskOp.iface Path) StateError Unit := do
  let result ← ExceptT.lift (writeDurably (.temporary path) (.file path) data).run
  dropTemporary (.temporary path)
  Fallible.ofExcept (result.mapError .save)

/-- **`StateStore::save`.** -/
def save (state : ValidatorState) : Fallible (DiskOp.iface Path) StateError Unit :=
  saveBytes .state state.encode

/-- **`StateStore::load`**, where the file can be read. -/
def load (d : Disk Path) : Except StateError ValidatorState :=
  ValidatorState.ofFile (d.files (.file .state))

end

/-! ## 2. What every step does -/

/-- The step of a save of `x` in `q` through `t`. -/
def Guarded (t q : Path) (x : Bytes) (d d' : Disk Path) : Prop :=
  Apart t q d → Replaces t q x d d'

/-- A save of `x` in `q` through `t`, from `d`: each step is guarded, and `Q` holds at its end. -/
abbrev Does {α : Type} (t q : Path) (x : Bytes) (p : Prog (DiskOp.iface Path) α)
    (Q : α → Disk Path → Prop) (d : Disk Path) : Prop :=
  Ensures (DiskOp.machine Path) (fun e => Guarded t q x e.before e.after) (Guarded t q x) p Q d

section

variable {t q : Path} {x : Bytes} {d : Disk Path} {i : Nat}

/-! What each system call may do, where it is made. -/

theorem idle_guarded {d' : Disk Path} (h : d' = d) : Guarded t q x d d' := by
  intro hap
  rw [h]
  exact .refl hap

theorem open_guarded (hne : q ≠ t) {r : Except IoError Nat} {d' : Disk Path}
    (ha : DiskOp.act d (.openTruncated t) r d') : Guarded t q x d d' := by
  intro hap
  cases r with
  | ok i => exact replaces_opened hap hne ha
  | error =>
    rcases ha with rfl | ⟨c, i, ho⟩
    · exact .refl hap
    · exact replaces_opened hap hne ho

theorem write_guarded {data : Bytes} (hi : d.names t = some i) {r : Except IoError Unit}
    {d' : Disk Path} (ha : DiskOp.act d (.writeAll i data) r d') : Guarded t q x d d' := by
  intro hap
  cases r with
  | ok => exact ha ▸ replaces_fill hap hi
  | error =>
    obtain ⟨c, rfl⟩ := ha
    exact replaces_fill hap hi

theorem sync_guarded (hi : d.names t = some i) {r : Except IoError Unit} {d' : Disk Path}
    (ha : DiskOp.act d (.syncFile i) r d') : Guarded t q x d d' := by
  intro hap
  cases r with
  | ok => exact ha ▸ replaces_flush hap
  | error =>
    rcases ha with rfl | ⟨c, rfl⟩
    · exact replaces_flush hap
    · exact replaces_fill hap hi

theorem rename_guarded (hne : q ≠ t) (hi : d.names t = some i) (hs : d.synced i) (hx : d.data i = x)
    {r : Except IoError Unit} {d' : Disk Path} (ha : DiskOp.act d (.rename t q) r d') :
    Guarded t q x d d' := by
  intro hap
  cases r with
  | ok => exact ha.2 ▸ replaces_move hap hne hi hs hx
  | error =>
    rcases ha with rfl | ⟨-, rfl⟩
    · exact .refl hap
    · exact replaces_move hap hne hi hs hx

theorem settle_guarded {r : Except IoError Unit} {d' : Disk Path}
    (ha : DiskOp.act d .syncDirectory r d') : Guarded t q x d d' := by
  intro hap
  cases r with
  | ok => exact ha ▸ replaces_settle hap
  | error =>
    rcases ha with rfl | rfl
    · exact .refl hap
    · exact replaces_settle hap

theorem remove_guarded (hne : q ≠ t) {r : Except IoError Unit} {d' : Disk Path}
    (ha : DiskOp.act d (.remove t) r d') : Guarded t q x d d' := by
  intro hap
  cases r with
  | ok => exact ha.2 ▸ replaces_unlink hap hne
  | error =>
    rcases ha with rfl | rfl
    · exact .refl hap
    · exact replaces_unlink hap hne

/-! ## 3. A save -/

/-- From the file synced on. -/
theorem rename_does (hne : q ≠ t) (hi : d.names t = some i) (hs : d.synced i) (hx : d.data i = x) :
    Does t q x (do
      Fallible.ofExcept (← call (.rename t q))
      Fallible.ofExcept (← call .syncDirectory) : Fallible (DiskOp.iface Path) IoError Unit).run
      (fun r d' => r = .ok () → Held q x d') d := by
  refine ensures_attempt (fun _ hc => hc.elim) (fun r d' ha => rename_guarded hne hi hs hx ha)
    (fun _ _ _ _ _ hr => nomatch hr) fun r d' a ha hr => ?_
  cases hr
  obtain ⟨-, rfl⟩ := ha
  refine ensures_answer (M := DiskOp.machine Path) (fun _ (hc : False) => hc.elim)
     (fun r d' ha => settle_guarded ha)
    fun r d' ha hr => ?_
  cases hr
  cases ha
  exact held_settle hne hi hs hx

/-- **`write_durably`**: each step is guarded, and after the last the file is held. -/
theorem writeDurably_does (hne : q ≠ t) (data : Bytes) (d : Disk Path) :
    Does t q data (writeDurably t q data).run (fun r d' => r = .ok () → Held q data d') d := by
  refine ensures_attempt (fun _ hc => hc.elim) (fun r d' ha => idle_guarded ha)
    (fun _ _ _ _ _ hr => nomatch hr) fun r d₁ a ha hr => ?_
  cases ha
  refine ensures_attempt (fun d' hc hap => ?_) (fun r d' ha => open_guarded hne ha)
    (fun _ _ _ _ _ hr => nomatch hr) fun r d₁ i ha hr => ?_
  · obtain ⟨c, i, ho⟩ := hc
    exact replaces_opened hap hne ho
  cases hr
  have hi : d₁.names t = some i := ha.names_eq
  have hempty : d₁.data i = [] := ha.data_eq
  refine ensures_attempt (fun _ hc => hc.elim) (fun r d' ha => idle_guarded ha)
    (fun _ _ _ _ _ hr => nomatch hr) fun r d₂ a ha hr => ?_
  cases ha
  refine ensures_attempt (fun d' hc hap => ?_) (fun r d' ha => write_guarded hi ha)
    (fun _ _ _ _ _ hr => nomatch hr) fun r d₂ a ha hr => ?_
  · obtain ⟨c, rfl⟩ := hc
    exact replaces_fill hap hi
  cases hr
  cases ha
  have hi : (d₁.fill i (d₁.data i ++ data)).names t = some i := hi
  refine ensures_attempt (fun _ hc => hc.elim) (fun r d' ha => sync_guarded hi ha)
    (fun _ _ _ _ _ hr => nomatch hr) fun r d₃ a ha hr => ?_
  cases hr
  cases ha
  refine rename_does hne hi (.inl rfl) ?_
  show Function.update d₁.data i (d₁.data i ++ data) i = data
  rw [Function.update_self, hempty, List.nil_append]

/-- The temporary file is dropped: what is held stays held. -/
theorem dropTemporary_does {ε : Type} (hne : q ≠ t) {P : Prop} (h : P → Held q x d) :
    Does t q x (dropTemporary t : Fallible (DiskOp.iface Path) ε Unit).run
      (fun r d' => r = .ok () ∧ (P → Held q x d')) d := by
  rw [Does, dropTemporary, call, ensures_bindE, ensures_liftE, ensures_perform]
  refine ⟨fun _ hc => hc.elim, fun b d' ha => ⟨idle_guarded ha.1, ?_⟩⟩
  obtain ⟨rfl, -⟩ := ha
  cases b with
  | false => exact ⟨rfl, h⟩
  | true =>
    refine ⟨fun _ hc => hc.elim, fun r d' ha => ⟨remove_guarded hne ha, rfl, fun hp => ?_⟩⟩
    cases r with
    | ok => exact ha.2 ▸ (h hp).unlink hne
    | error =>
      rcases ha with rfl | rfl
      · exact h hp
      · exact (h hp).unlink hne

end

theorem file_ne_temporary (path : File) : Path.file path ≠ .temporary path := nofun

/-- **`save_bytes`**: whatever is left of the temporary file, each step is guarded. -/
theorem saveBytes_does (path : File) (data : Bytes) (d : Disk Path) :
    Does (.temporary path) (.file path) data (saveBytes path data).run
      (fun r d' => r = .ok () → Held (.file path) data d') d := by
  rw [Does, saveBytes, ensures_bindE, ensures_liftE]
  refine (writeDurably_does (file_ne_temporary path) data d).post fun r d₁ hr => ?_
  rw [after_ok, ensures_bindE]
  refine (dropTemporary_does (file_ne_temporary path) hr).post fun r' d₂ h => ?_
  obtain ⟨rfl, hheld⟩ := h
  cases r with
  | ok => exact fun _ => hheld rfl
  | error => exact nofun

/-! ## 4. All or nothing -/

/-- **The directory of a file that is saved**: its temporary file is no second name of the file,
    whatever a power loss makes of the directory. -/
structure StateDirectory (path : File) where
  disk : Disk Path
  apart : Apart (.temporary path) (.file path) disk

section

variable {path : File} {data : Bytes} {tr : List (Event (DiskOp.machine Path))}
  {o : Option (Except StateError Unit)} {d d' : Disk Path}

/-- **A save, wherever it stops**: the file is as it was, or holds `data`. -/
theorem saveBytes_replaces (hap : Apart (.temporary path) (.file path) d)
    (h : Exec (DiskOp.machine Path) d (saveBytes path data).run tr o d') :
    Replaces (.temporary path) (.file path) data d d' := by
  refine Exec.induct (t := []) (P := fun _ w => Replaces (.temporary path) (.file path) data d w)
    ?step ?cut h (saveBytes_does path data d) (.refl hap)
  case step => exact fun _ _ hg hi => hi.trans (hg hi.apart)
  case cut => exact fun _ _ _ hc hi => hi.trans (hc hi.apart)

/-- **A save that returns `Ok`**: the file holds `data`, whatever a power loss does. -/
theorem saveBytes_held
    (h : Exec (DiskOp.machine Path) d (saveBytes path data).run tr (some (.ok ())) d') :
    Held (.file path) data d' :=
  Exec.result h (saveBytes_does path data d) rfl

/-- A load after a save stopped: at once, or after a power loss. -/
inductive Outcome (d : Disk Path) : Except StateError ValidatorState → Prop where
  | now : Outcome d (load d)
  | lost {d' : Disk Path} (hl : PowerLoss d d') : Outcome d (load d')

/-- `state` is stored: a load gives it, whatever a power loss does. -/
def Stored (state : ValidatorState) (d : Disk Path) : Prop :=
  ∀ r, Outcome d r → r = .ok state

/-- What a load makes of the file that a save of `state` writes. -/
def written (state : ValidatorState) : Except StateError ValidatorState :=
  ValidatorState.ofFile (some state.encode)

/-- It is the state, for the states that a load accepts at all. -/
theorem written_iff {state : ValidatorState} : written state = .ok state ↔ state.WellFormed :=
  ⟨ValidatorState.ofFile_wellFormed, ValidatorState.decode_encode⟩

theorem Outcome.of_held {state : ValidatorState} {r : Except StateError ValidatorState}
    (h : Held (.file .state) state.encode d) (hr : Outcome d r) : r = written state := by
  cases hr with
  | now => exact congrArg ValidatorState.ofFile h.files
  | lost hl => exact congrArg ValidatorState.ofFile (h.survives ⟨_, hl, rfl⟩)

/-- **A save is all or nothing**: from any directory, through any failures, killed anywhere or not.
    A load is what it was, or of what was written; after a power loss it is what one could have left
    without the save, or of what was written; after `Ok` it is always the latter. -/
theorem save_all_or_nothing (v : StateDirectory .state) (new : ValidatorState)
    (h : Exec (DiskOp.machine Path) v.disk (save new).run tr o d') :
    (load d' = load v.disk ∨ load d' = written new) ∧
    (∀ d₁, PowerLoss d' d₁ →
      (∃ d₀, PowerLoss v.disk d₀ ∧ load d₁ = load d₀) ∨ load d₁ = written new) ∧
    (∀ old, Stored old v.disk → ∀ r, Outcome d' r → r = .ok old ∨ r = written new) ∧
    (o = some (.ok ()) → ∀ r, Outcome d' r → r = written new) ∧
    (written new = .ok new ↔ new.WellFormed) := by
  have hr := saveBytes_replaces v.apart h
  have hnow : load d' = load v.disk ∨ load d' = written new :=
    hr.now.imp (congrArg ValidatorState.ofFile) (congrArg ValidatorState.ofFile)
  have hlost : ∀ d₁, PowerLoss d' d₁ →
      (∃ d₀, PowerLoss v.disk d₀ ∧ load d₁ = load d₀) ∨ load d₁ = written new := by
    intro d₁ hl
    rcases hr.lost _ ⟨d₁, hl, rfl⟩ with ⟨d₀, hl₀, he⟩ | he
    · exact .inl ⟨d₀, hl₀, (congrArg ValidatorState.ofFile he).symm⟩
    · exact .inr (congrArg ValidatorState.ofFile he)
  refine ⟨hnow, hlost, fun old hold r hout => ?_, fun ho r hout => ?_, written_iff⟩
  · cases hout with
    | now => exact hnow.imp (fun he => he.trans (hold _ .now)) id
    | lost hl =>
      rcases hlost _ hl with ⟨d₀, hl₀, he⟩ | he
      · exact .inl (he.trans (hold _ (.lost hl₀)))
      · exact .inr he
  · subst ho
    exact hout.of_held (saveBytes_held h)

end

/-! ## 5. Any number of saves -/

/-- **What can happen to the directory**, newest save first: saves that stop anywhere, and power
    losses. At first there is no state file, and any temporary one. -/
inductive History : List ValidatorState → Disk Path → Prop where
  | start {d : Disk Path} (hnew : ∀ m, d.kept m → m (.file .state) = none) : History [] d
  | save {states : List ValidatorState} {d d' : Disk Path} {new : ValidatorState}
      {tr : List (Event (DiskOp.machine Path))} {o : Option (Except StateError Unit)}
      (h : History states d) (hs : Exec (DiskOp.machine Path) d (save new).run tr o d') :
      History (new :: states) d'
  | loss {states : List ValidatorState} {d d' : Disk Path} (h : History states d)
      (hl : PowerLoss d d') : History states d'

/-- The state file of a history: none, or one that was saved. -/
def Known (states : List ValidatorState) (f : Option Bytes) : Prop :=
  f = none ∨ ∃ s ∈ states, f = some s.encode

theorem Known.weaken {states : List ValidatorState} {new : ValidatorState} {f : Option Bytes}
    (h : Known states f ∨ f = some new.encode) : Known (new :: states) f := by
  rcases h with (h | ⟨s, hs, he⟩) | h
  · exact .inl h
  · exact .inr ⟨s, List.mem_cons_of_mem _ hs, he⟩
  · exact .inr ⟨new, List.mem_cons_self, h⟩

/-- Along a history the two names stay apart, and what the state file holds, or may hold after a
    power loss, was saved. -/
theorem History.known {states : List ValidatorState} {d : Disk Path} (h : History states d) :
    Apart (.temporary .state) (.file .state) d ∧ Known states (d.files (.file .state)) ∧
      ∀ f, Survives (.file .state) d f → Known states f := by
  induction h with
  | start hnew =>
    refine ⟨fun m hm i hi => ?_, .inl ?_, fun f hf => .inl ?_⟩
    · rw [hnew m hm] at hi
      cases hi
    · rw [Disk.files, hnew _ (Disk.names_kept _), Option.map_none]
    · obtain ⟨m, c, hm, -, rfl⟩ := survives_iff.mp hf
      rw [hnew m hm, Option.map_none]
  | save _ hs ih =>
    obtain ⟨hap, hnow, hlost⟩ := ih
    have hr := saveBytes_replaces hap hs
    refine ⟨hr.apart, .weaken ?_, fun f hf => .weaken ((hr.lost f hf).imp (hlost f) id)⟩
    rcases hr.now with he | he
    · rw [he]
      exact .inl hnow
    · exact .inr he
  | loss _ hl ih =>
    obtain ⟨hap, -, hlost⟩ := ih
    refine ⟨hap.powerLoss hl, hlost _ ⟨_, hl, rfl⟩, fun f hf => hlost f ?_⟩
    exact hf.of_powerLoss hl

/-- **There is always a state to load**: the first one, or one that was saved. -/
theorem History.load {states : List ValidatorState} {d : Disk Path} (h : History states d)
    (hw : ∀ s ∈ states, s.WellFormed) :
    load d = .ok default ∨ ∃ s ∈ states, load d = .ok s := by
  rcases h.known.2.1 with he | ⟨s, hs, he⟩
  · exact .inl (congrArg ValidatorState.ofFile he)
  · exact .inr ⟨s, hs, (congrArg ValidatorState.ofFile he).trans (written_iff.mpr (hw s hs))⟩

/-! ## 6. Acknowledged saves -/

/-- **Saves one after another**, newest first, each with whether it returned `Ok`; power losses between
    them. -/
inductive Saves : List (ValidatorState × Bool) → Disk Path → Prop where
  | start {d : Disk Path} (hnew : ∀ m, d.kept m → m (.file .state) = none) : Saves [] d
  | save {saves : List (ValidatorState × Bool)} {d d' : Disk Path} {new : ValidatorState}
      {tr : List (Event (DiskOp.machine Path))} {o : Option (Except StateError Unit)}
      (h : Saves saves d) (hs : Exec (DiskOp.machine Path) d (save new).run tr o d') :
      Saves ((new, decide (o = some (.ok ()))) :: saves) d'
  | loss {saves : List (ValidatorState × Bool)} {d d' : Disk Path} (h : Saves saves d)
      (hl : PowerLoss d d') : Saves saves d'

/-- The state file is of the newest acknowledged save, or of one after it. -/
def Recent : List (ValidatorState × Bool) → Option Bytes → Prop
  | [], f => f = none
  | (new, ok) :: saves, f => f = some new.encode ∨ ok = false ∧ Recent saves f

/-- Along the saves the two names stay apart, and what the state file holds, or may hold after a power
    loss, is recent. -/
theorem Saves.recent {saves : List (ValidatorState × Bool)} {d : Disk Path} (h : Saves saves d) :
    Apart (.temporary .state) (.file .state) d ∧ Recent saves (d.files (.file .state)) ∧
      ∀ f, Survives (.file .state) d f → Recent saves f := by
  induction h with
  | start hnew =>
    refine ⟨fun m hm i hi => ?_, ?_, fun f hf => ?_⟩
    · rw [hnew m hm] at hi
      cases hi
    · rw [Recent, Disk.files, hnew _ (Disk.names_kept _), Option.map_none]
    · obtain ⟨m, c, hm, -, rfl⟩ := survives_iff.mp hf
      rw [Recent, hnew m hm, Option.map_none]
  | @save saves d d' new tr o _ hs ih =>
    obtain ⟨hap, hnow, hlost⟩ := ih
    have hr := saveBytes_replaces hap hs
    by_cases hok : o = some (.ok ())
    · -- what was acknowledged is held
      subst hok
      have hheld := saveBytes_held hs
      exact ⟨hr.apart, .inl hheld.files, fun f hf => .inl (hheld.survives hf)⟩
    · refine ⟨hr.apart, ?_, fun f hf => ?_⟩
      · rcases hr.now with he | he
        · rw [he]
          exact .inr ⟨decide_eq_false hok, hnow⟩
        · exact .inl he
      · rcases hr.lost f hf with he | he
        · exact .inr ⟨decide_eq_false hok, hlost f he⟩
        · exact .inl he
  | loss _ hl ih =>
    obtain ⟨hap, -, hlost⟩ := ih
    refine ⟨hap.powerLoss hl, hlost _ ⟨_, hl, rfl⟩, fun f hf => hlost f ?_⟩
    exact hf.of_powerLoss hl

theorem Recent.at {saves : List (ValidatorState × Bool)} {f : Option Bytes} (h : Recent saves f) :
    (f = none ∧ ∀ x ∈ saves, x.2 = false) ∨
    ∃ (j : ℕ) (new : ValidatorState) (ok : Bool), saves[j]? = some (new, ok) ∧
      f = some new.encode ∧
      ∀ i < j, ∀ x : ValidatorState × Bool, saves[i]? = some x → x.2 = false := by
  induction saves with
  | nil => exact .inl ⟨h, fun x hx => absurd hx List.not_mem_nil⟩
  | cons x saves ih =>
    obtain ⟨new, ok⟩ := x
    obtain rfl | ⟨rfl, hrest⟩ := h
    · exact .inr ⟨0, new, ok, rfl, rfl, fun i hi => absurd hi (Nat.not_lt_zero i)⟩
    · obtain ⟨hn, hall⟩ | ⟨j, new', ok', hj, hf, hall⟩ := ih hrest
      · refine .inl ⟨hn, fun x hx => ?_⟩
        obtain rfl | hx := List.mem_cons.mp hx
        · rfl
        · exact hall x hx
      · refine .inr ⟨j + 1, new', ok', hj, hf, fun i hi x hx => ?_⟩
        cases i with
        | zero =>
          obtain rfl := Option.some.inj hx
          rfl
        | succ i => exact hall i (Nat.lt_of_succ_lt_succ hi) x hx

/-- **What was acknowledged is kept.** After any number of saves of well-formed states (those that
    `load` accepts), each of them failing or killed anywhere, and of power losses, a load gives the
    state of a save with no acknowledged one after it; the first state, only where none was
    acknowledged. -/
theorem acknowledged_kept {saves : List (ValidatorState × Bool)} {d : Disk Path}
    (h : Saves saves d) (hw : ∀ x ∈ saves, x.1.WellFormed) :
    (load d = .ok default ∧ ∀ x ∈ saves, x.2 = false) ∨
    ∃ (j : ℕ) (new : ValidatorState) (ok : Bool), saves[j]? = some (new, ok) ∧
      load d = .ok new ∧
      ∀ i < j, ∀ x : ValidatorState × Bool, saves[i]? = some x → x.2 = false := by
  rcases h.recent.2.1.at with ⟨hn, hall⟩ | ⟨j, new, ok, hj, hf, hall⟩
  · exact .inl ⟨congrArg ValidatorState.ofFile hn, hall⟩
  · refine .inr ⟨j, new, ok, hj, ?_, hall⟩
    have hnew := written_iff.mpr (hw _ (List.mem_of_getElem? hj))
    exact (congrArg ValidatorState.ofFile hf).trans hnew

/-! ## 7. An interrupted save -/

/-- The names a save leaves that is killed while it writes. -/
def remnants : Names Path
  | .file .state => some 0
  | .temporary .state => some 1
  | _ => none

theorem remnants_lt {p : Path} {i : Nat} (h : remnants p = some i) : i < 2 := by
  rcases p with (_ | _) | (_ | _) <;> cases h <;> decide

/-- A directory with a state that is stored and a temporary file that was never synced. -/
def interrupted (state : ValidatorState) : StateDirectory .state where
  disk :=
    { names := remnants
      data := fun i => if i = 0 then state.encode else [0x7b]
      synced := fun i => i = 0
      kept := fun m => m = remnants
      next := 2
      names_kept := rfl
      numbered := by
        intro m hm p i hp
        cases hm
        exact remnants_lt hp }
  apart := by
    intro m hm i hi
    cases hm
    cases hi
    exact ⟨nofun, nofun⟩

theorem interrupted_stored {state : ValidatorState} (h : state.WellFormed) :
    Stored state (interrupted state).disk := by
  have hw : written state = .ok state := written_iff.mpr h
  intro r hr
  cases hr with
  | now => exact hw
  | lost hl =>
    obtain ⟨hm, hc⟩ := hl
    cases hm
    rw [← hw]
    exact congrArg (fun c => ValidatorState.ofFile (some c)) (hc 0 rfl)

/-- The save of `new` there, when nothing fails. -/
theorem interrupted_saved (old new : ValidatorState) :
    ∃ tr d', Exec (DiskOp.machine Path) (interrupted old).disk (save new).run tr
      (some (.ok ())) d' :=
  ⟨_, _, Exec.eval (M := DiskOp.machine Path) DiskOp.act_exec _ _⟩

def sample : ValidatorState := ⟨some 720, some "sha256:digest", some 720, some "summary-1"⟩

/-- The save of a state that follows an interrupted one. -/
theorem save_all_or_nothing_interrupted :
    ∃ tr d', Exec (DiskOp.machine Path) (interrupted default).disk (save sample).run tr
      (some (.ok ())) d' ∧ ∀ r, Outcome d' r → r = .ok sample := by
  obtain ⟨tr, d', h⟩ := interrupted_saved default sample
  obtain ⟨-, -, -, hok, -⟩ := save_all_or_nothing (interrupted default) sample h
  have hw : written sample = .ok sample := by decide +kernel
  exact ⟨tr, d', h, fun r hr => (hok rfl r hr).trans hw⟩

/-- A directory with no file in it. -/
def blank : Disk Path where
  names _ := none
  data _ := []
  synced _ := True
  kept m := m = fun _ => none
  next := 0
  names_kept := rfl
  numbered := by
    intro m hm p i hp
    cases hm
    cases hp

/-- A save that is killed at once, after an acknowledged one. -/
theorem acknowledged_kept_test : ∃ d new, Saves [(default, false), (sample, true)] d ∧
    load d = .ok new ∧ (new = default ∨ new = sample) := by
  have hrun := Exec.eval (M := DiskOp.machine Path) DiskOp.act_exec (save sample).run blank
  have hstart : Saves [] blank := .start fun m hm => by
    cases hm
    rfl
  have h : Saves [(default, false), (sample, true)] _ := (hstart.save hrun).save (.kill _ _)
  have hw : ∀ x ∈ [((default : ValidatorState), false), (sample, true)], x.1.WellFormed := by
    have hsample : written sample = .ok sample := by decide +kernel
    simp only [List.forall_mem_cons]
    exact ⟨ValidatorState.wellFormed_default, written_iff.mp hsample,
      fun x hx => absurd hx List.not_mem_nil⟩
  rcases acknowledged_kept h hw with ⟨-, hall⟩ | ⟨j, new, ok, hj, hload, -⟩
  · exact absurd (hall (sample, true) (by simp)) (by simp)
  · refine ⟨_, new, h, hload, ?_⟩
    have hmem := List.mem_of_getElem? hj
    simp only [List.mem_cons, Prod.mk.injEq, List.not_mem_nil, or_false] at hmem
    exact hmem.imp And.left And.left

/-- A state that no load accepts: a summary without its digest. -/
def incomplete : ValidatorState := ⟨none, none, none, some "summary-1"⟩

/-- **A state that no load accepts is saved all the same.** -/
theorem save_incomplete :
    ¬∀ (v : StateDirectory .state) (old new : ValidatorState) (tr : List _) (o : Option _)
      (d' : Disk Path), Stored old v.disk →
      Exec (DiskOp.machine Path) v.disk (save new).run tr o d' →
      (∀ r, Outcome d' r → r = .ok old ∨ r = .ok new) ∧
        (o = some (.ok ()) → ∀ r, Outcome d' r → r = .ok new) := by
  intro hall
  obtain ⟨tr, d', h⟩ := interrupted_saved default incomplete
  have hnew := (hall _ default incomplete tr _ d'
    (interrupted_stored ValidatorState.wellFormed_default) h).2 rfl _ .now
  have hload : load d' = written incomplete := Outcome.of_held (saveBytes_held h) .now
  have hbad : written incomplete = .error .incompleteEpochSummary := by decide +kernel
  rw [hload, hbad] at hnew
  cases hnew

end Sn46Validator.Validator.StateStore
