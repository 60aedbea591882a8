/-
  File:      Validator/Serial.lean
  Subject:   THE STATE LOCK: validators on one state directory, however their runs interleave.

  Any number of processes run `run_once` on the same state file: they start at any time, their
  operations come in any order, and each can be killed at any point. Before it has the lock a run makes
  the directory and opens the lock file; the lock is the kernel's and is gone with its process.

  * `Op.beforeLock`, `Op.takesLock` -- what a run does without the lock, and what takes it;
  * `stateLock` -- **`StateStore::lock`** is a lock of the runs;
  * `runs_serial` -- **the world sees one run after another**, and only the run that has the lock writes
    a file or broadcasts;
  * `processes_submit_once` -- so at most one submission for an epoch succeeds, whichever processes
    made them.
-/
import Sn46Validator.Library.Locking
import Sn46Validator.Validator.Once

namespace Sn46Validator.Validator

open Library

variable {law : Law} {shared : Shared} {writer : Writer} {netuid : U64}

/-! ## 1. The lock -/

/-- What a run does before it has the lock. -/
def Op.beforeLock (op : Op) : Prop := op = .createDirectory ∨ op = .openLock ∨ op = .tryLock

/-- **`try_lock`** gives the lock to one process at a time. -/
def Op.takesLock : (op : Op) → op.Ans → Prop
  | .tryLock, .acquired => True
  | _, _ => False

/-- What a run asks before it has the lock leaves the host as it is. -/
theorem acts_beforeLock {w w' : Host} {op : Op} {x : op.Ans} (hf : op.beforeLock) :
    Acts law w op x w' ↔ w' = w := by
  rcases hf with rfl | rfl | rfl <;> exact Iff.rfl

theorem cut_beforeLock {w w' : Host} {op : Op} (hf : op.beforeLock) :
    ¬(machine law).cut w op w' := by
  rcases hf with rfl | rfl | rfl <;> exact id

theorem Drift.trans {w w' w'' : Host} (h : Drift law w w') (h' : Drift law w' w'') :
    Drift law w w'' where
  files := fun p hp => (h'.files p hp).trans (h.files p hp)
  state := by
    rcases h'.state with he | hl
    · rw [he]
      exact h.state
    · exact .inr hl
  ledger := h.ledger.trans h'.ledger
  epoch := h'.epoch.trans h.epoch

theorem locks_perform {ε : Type} {op : Op} {P : op.Ans → Prop} (hf : op.beforeLock)
    (hP : ∀ x, ¬op.takesLock x → P x) :
    (perform op : Fallible iface ε op.Ans).Locks Op.beforeLock Op.takesLock P :=
  locks_lift (I := iface) hf hP

/-- **A run that does not get the lock fails.** -/
theorem locks_takeLock : takeLock.Locks Op.beforeLock Op.takesLock fun _ => False := by
  unfold takeLock
  refine locks_bindE (locks_perform (.inl rfl) fun _ _ => trivial) fun r (_ : True) => ?_
  refine locks_bindE (locks_ofExcept fun _ _ => trivial) fun _ (_ : True) => ?_
  refine locks_bindE (locks_perform (.inr (.inl rfl)) fun _ _ => trivial) fun r (_ : True) => ?_
  refine locks_bindE (locks_ofExcept fun _ _ => trivial) fun _ (_ : True) => ?_
  refine locks_bindE (P := fun x => ¬Op.takesLock .tryLock x)
    (locks_perform (.inr (.inr rfl)) fun _ hx => hx) fun x hx => ?_
  cases x with
  | acquired => exact absurd trivial hx
  | wouldBlock => exact fun a ha => by cases ha
  | error e => exact fun a ha => by cases ha

theorem locks_runOnce (c : Run shared) :
    (runOnce c).run.Locks Op.beforeLock Op.takesLock fun _ => True := by
  have h : (runOnce c).Locks Op.beforeLock Op.takesLock fun _ => False := by
    unfold runOnce
    exact locks_bindE (locks_mapError locks_takeLock) fun _ h => h.elim
  exact locks_mono h fun _ _ => trivial

/-- **`StateStore::lock`**, as a lock of the runs. -/
def stateLock (shared : Shared) (law : Law) (writer : Writer) (netuid : U64) :
    Lock (nodeSystem shared law writer netuid) where
  free := Op.beforeLock
  takes := Op.takesLock
  locks := locks_runOnce
  act_env := by
    intro w op x w' hf _ ha
    obtain ⟨w₁, ha, hd⟩ := ha
    obtain rfl := (acts_beforeLock hf).mp ha
    exact hd
  act_still := fun w op x w' w₁ hf _ _ => ⟨w₁, (acts_beforeLock hf).mpr rfl, .refl _ _⟩
  cut_env := fun w op w' hf hc => (cut_beforeLock hf hc).elim
  absorb := by
    intro w op x w' w'' ha hd
    obtain ⟨w₁, ha, hd₁⟩ := ha
    exact ⟨w₁, ha, hd₁.trans hd⟩
  env_refl := fun w => .refl law w

theorem takes_acquired (shared : Shared) (law : Law) (writer : Writer) (netuid : U64) :
    (stateLock shared law writer netuid).takes .tryLock TryLock.acquired := trivial

/-! ## 2. The runs are serial -/

section

variable {ι : Type} [DecidableEq ι]

/-- **The state lock makes the runs serial.** In whatever order the operations of any number of
    processes come, and whichever of them are killed: the host and the chain are those of a history of
    the runs that had the lock, one after another in the order in which they had it, each with what it
    returned. What is more than the drift of the chain is done by the run that has the lock, while all
    others stay where they are. -/
theorem runs_serial {s₀ s : Processes (nodeSystem shared law writer netuid) ι}
    {acts : List (Option (Run shared × Option (Except RunError (List MinerScore))))}
    (h : Steps (Move (stateLock shared law writer netuid)) s₀ acts s) (h₀ : s₀.Idle) :
    (∃ recs, History (nodeSystem shared law writer netuid) s₀.world recs s.world ∧
      calls recs = acts.reduceOption ++ s.held) ∧
    ∀ a s', Move (stateLock shared law writer netuid) a s s' →
      Drift law s.world s'.world ∨ ∃ i, (s.holder = some i ∨ s'.holder = some i) ∧
        ∀ j, j ≠ i → s'.running j = s.running j :=
  ⟨Lock.serial h h₀, fun _ _ hm => Lock.foreign h h₀ hm⟩

/-! ## 3. Submissions -/

/-- Of two submissions for an epoch the earlier one did not succeed. -/
theorem Single.unique {l : Ledger} (h : Single l) {i j : Nat} {x y : Broadcast} {e : U64}
    {m n : Nat} (hx : l.sent[i]? = some x) (hy : l.sent[j]? = some y) (hex : x.epoch = some e)
    (hey : y.epoch = some e) (hi : l.landed i = some ⟨m, true⟩) (hj : l.landed j = some ⟨n, true⟩) :
    i = j := by
  have hlate : ∀ (i j : Nat) (x y : Broadcast) (m : Nat), l.sent[i]? = some x →
      l.sent[j]? = some y → x.epoch = some e → y.epoch = some e →
      l.landed i = some ⟨m, true⟩ → ¬i < j := by
    intro i j x y m hx hy hex hey hi hij
    rcases h i j x y e hx hy hij hex hey with ⟨m', hm⟩ | ⟨hm, -⟩
    · have := hi.symm.trans hm
      simp at this
    · have := hi.symm.trans hm
      simp at this
  have h₁ := hlate i j x y m hx hy hex hey hi
  have h₂ := hlate j i y x n hy hx hey hex hj
  omega

/-- **At most one effective submission per epoch, whichever processes made them.** -/
theorem processes_submit_once
    {s₀ s : Processes (nodeSystem shared (chainLaw writer) writer netuid) ι}
    {acts : List (Option (Run shared × Option (Except RunError (List MinerScore))))}
    (hsent : s₀.world.ledger.sent = []) (hseen : s₀.world.ledger.seen = [])
    (hlanded : ∀ i, s₀.world.ledger.landed i = none)
    (hobs : s₀.world.ledger.observed ≤ s₀.world.ledger.finalized)
    (h : Steps (Move (stateLock shared (chainLaw writer) writer netuid)) s₀ acts s)
    (h₀ : s₀.Idle) {i j : Nat} {x y : Broadcast} {e : U64} {m n : Nat}
    (hx : s.world.ledger.sent[i]? = some x) (hy : s.world.ledger.sent[j]? = some y)
    (hex : x.epoch = some e) (hey : y.epoch = some e)
    (hi : s.world.ledger.landed i = some ⟨m, true⟩)
    (hj : s.world.ledger.landed j = some ⟨n, true⟩) : i = j := by
  obtain ⟨recs, hh, -⟩ := Lock.serial h h₀
  have hsound : Sound writer netuid (view s.world) :=
    History.induct (sound_invariant shared writer netuid) hh (sound_nil hsent hseen hlanded hobs)
  exact hsound.single.unique hx hy hex hey hi hj

/-! ## 4. Two processes -/

/-- What is left of a program after an answer to `op`. -/
abbrev Next (op : Op) : Type := op.Ans → Prog iface (Except RunError (List MinerScore))

/-- **A run until it tries the lock**, and if it is taken. -/
structure Knocks (c : Run shared) (made : Next .createDirectory) (opened : Next .openLock)
    (tried : Next .tryLock) : Prop where
  start : (runOnce c).run = .call .createDirectory made
  directory : made (.ok ()) = .call .openLock opened
  file : opened (.ok ()) = .call .tryLock tried
  refused : tried .wouldBlock = .ret (.error (.state .lockContended))

theorem knocks (c : Run shared) : ∃ made opened tried, Knocks c made opened tried :=
  ⟨_, _, _, rfl, rfl, rfl, rfl⟩

section

/-- A run asks something before it has the lock. -/
theorem move_free (s : Processes (nodeSystem shared law writer netuid) ι) (c : Run shared) {i : ι}
    {op : Op} {x : op.Ans} {p q : Prog iface (Except RunError (List MinerScore))}
    {k : Next op} (hi : s.holder ≠ some i) (hf : op.beforeLock) (hx : ¬op.takesLock x)
    (hp : p = .call op k) (hq : k x = q) :
    Move (stateLock shared law writer netuid) none (s.put i (some (c, p)) s.holder s.world)
      (s.put i (some (c, q)) s.holder s.world) := by
  subst hp hq
  have h := Move.free (L := stateLock shared law writer netuid)
    (s := s.put i (some (c, .call op k)) s.holder s.world) (s.put_self ..) hi hx
    ⟨s.world, (acts_beforeLock hf).mpr rfl, .refl _ _⟩
  rw [Processes.put_put] at h
  exact h

variable {s : Processes (nodeSystem shared law writer netuid) ι} {i : ι} {c : Run shared}
  {made : Next .createDirectory} {opened : Next .openLock} {tried : Next .tryLock}

/-- **A run comes to the lock.** -/
theorem moves_ask (ha : Knocks c made opened tried) (hs : s.running i = none)
    (hi : s.holder ≠ some i) :
    Steps (Move (stateLock shared law writer netuid)) s [none, none, none]
      (s.put i (some (c, .call .tryLock tried)) s.holder s.world) := by
  have hstart := Move.start (L := stateLock shared law writer netuid) c hs
  have hmade := move_free s c hi (.inl rfl) id ha.start ha.directory
  have hopened := move_free s c hi (.inr (.inl rfl)) id rfl ha.file
  exact ((Steps.one hstart).snoc hmade).snoc hopened

/-- **A run that finds the lock taken** leaves everything as it was. -/
theorem moves_refused (c : Run shared) (hs : s.running i = none) (hi : s.holder ≠ some i) :
    Steps (Move (stateLock shared law writer netuid)) s (List.replicate 5 none) s := by
  obtain ⟨made, opened, tried, ha⟩ := knocks c
  have hask := moves_ask ha hs hi
  have hlock := move_free s c hi (.inr (.inr rfl)) id rfl ha.refused
  have hleave := Move.leave (L := stateLock shared law writer netuid)
    (s := s.put i (some (c, .ret (.error (.state .lockContended)))) s.holder s.world)
    (s.put_self ..) hi (.ret _ _)
  rw [Processes.put_put] at hleave
  have h : Steps (Move (stateLock shared law writer netuid)) s (List.replicate 5 none)
      (s.put i none s.holder s.world) := (hask.snoc hlock).snoc hleave
  rw [Processes.put_eq hs] at h
  exact h

/-- **A run that finds the lock free** takes it. -/
theorem moves_taken (ha : Knocks c made opened tried) (hc : Serves c writer netuid)
    (hs : s.running i = none) (hn : s.holder = none) :
    Steps (Move (stateLock shared law writer netuid)) s (List.replicate 4 none)
      (s.put i (some (c, tried .acquired)) (some i) { s.world with epoch := c.epochEnd }) := by
  have hask := moves_ask ha hs (by simp [hn])
  have htake := Move.take (L := stateLock shared law writer netuid)
    (s := s.put i (some (c, .call .tryLock tried)) s.holder s.world) (s.put_self ..) hn
    (takes_acquired shared law writer netuid) ⟨rfl, hc⟩ ⟨_, rfl, .refl _ _⟩
  rw [Processes.put_put] at htake
  exact hask.snoc htake

end

/-- Under the lock the run goes on as it would alone. -/
theorem exec_acquired {law : Law} (hl : Obeyed "v" law) (patient later : Bool) (w : Host)
    {made : Next .createDirectory} {opened : Next .openLock} {tried : Next .tryLock}
    (ha : Knocks (nodeRun later) made opened tried) :
    ∃ tr a, Exec (machine law) { w with epoch := (nodeRun later).epochEnd } (tried .acquired) tr
      (some a) (hostAfterRun law patient w later) := by
  have hw : hostAfterRun law patient w later =
      ((tried .acquired).eval (M := machine law) (calm "v" patient)
        { w with epoch := (nodeRun later).epochEnd }).2.2 := by
    rw [hostAfterRun, ha.start, Prog.eval]
    show ((made (.ok ())).eval (M := machine law) (calm "v" patient) _).2.2 = _
    rw [ha.directory, Prog.eval]
    show ((opened (.ok ())).eval (M := machine law) (calm "v" patient) _).2.2 = _
    rw [ha.file, Prog.eval]
    rfl
  rw [hw]
  exact ⟨_, _, Exec.eval (M := machine law) (act_calm hl patient) _ _⟩

/-- **A run of one process, while another one is refused.** -/
theorem moves_crossed {law : Law} (hl : Obeyed "v" law) (patient later : Bool)
    {s : Processes (nodeSystem nodeShared law ⟨"g", "v"⟩ 46) ι} {i j : ι} (hj : j ≠ i)
    (hsi : s.running i = none) (hsj : s.running j = none) (hn : s.holder = none) :
    ∃ acts a, Steps (Move (stateLock nodeShared law ⟨"g", "v"⟩ 46)) s acts
        (s.put i none none (hostAfterRun law patient s.world later)) ∧
      acts.reduceOption = [(nodeRun later, some a)] := by
  obtain ⟨made, opened, tried, ha⟩ := knocks (nodeRun later)
  obtain ⟨tr, a, hx⟩ := exec_acquired hl patient later s.world ha
  have htaken := moves_taken ha (serves_nodeRun later) hsi hn
  have hrefused := htaken.append (moves_refused (nodeRun later) (i := j)
    ((s.put_ne hj ..).trans hsj) (by simpa [Processes.put] using hj.symm))
  have hunder := hrefused.append (moves_under (s.put_self ..) rfl hx)
  rw [Processes.put_put] at hunder
  have hrelease := Move.release (L := stateLock nodeShared law ⟨"g", "v"⟩ 46)
    (s := s.put i (some (nodeRun later, .ret a)) (some i) (hostAfterRun law patient s.world later))
    (s.put_self ..) rfl (.ret _ _)
  rw [Processes.put_put] at hrelease
  refine ⟨_, a, hunder.snoc hrelease, ?_⟩
  simp [List.reduceOption_append]

end

/-- No process runs, and the head is at 400. -/
def unstarted : Processes (nodeSystem nodeShared (chainLaw ⟨"g", "v"⟩) ⟨"g", "v"⟩ 46) Bool :=
  ⟨fun _ => none, none, hostAt 400⟩

/-- The run of one process times out after its broadcast, which never lands; later the other one
    submits again. Each is tried by the other process meanwhile. -/
theorem moves_resent : ∃ acts s a b,
    Steps (Move (stateLock nodeShared (chainLaw ⟨"g", "v"⟩) ⟨"g", "v"⟩ 46)) unstarted acts s ∧
      s.world = resent ∧ s.holder = none ∧
      acts.reduceOption = [(nodeRun false, some a), (nodeRun false, some b)] := by
  have hl := obeyed_chainLaw ⟨"g", "v"⟩
  obtain ⟨acts₁, a, h₁, hc₁⟩ := moves_crossed hl false false (s := unstarted) (i := false)
    (j := true) (by simp) rfl rfl rfl
  have h₂ := h₁.snoc (.env (drift_waits _ resent_landed.1))
  obtain ⟨acts₂, b, h₃, hc₂⟩ := moves_crossed hl true false
    (s := { unstarted.put false none none _ with
      world := (hostAfterRun (chainLaw ⟨"g", "v"⟩) false (hostAt 400) false).waits 470 })
    (i := true) (j := false) (by simp) rfl rfl rfl
  refine ⟨_, _, a, b, h₂.append h₃, by rw [Processes.put_world, resent], rfl, ?_⟩
  rw [List.reduceOption_append, List.reduceOption_append, hc₁, hc₂]
  rfl

theorem runs_serial_test : ∃ recs a b,
    History (nodeSystem nodeShared (chainLaw ⟨"g", "v"⟩) ⟨"g", "v"⟩ 46) (hostAt 400) recs resent ∧
      calls recs = [(nodeRun false, some a), (nodeRun false, some b)] := by
  obtain ⟨acts, s, a, b, h, hs, hn, hc⟩ := moves_resent
  obtain ⟨recs, hh, hr⟩ := (runs_serial h ⟨fun _ => rfl, rfl⟩).1
  refine ⟨recs, a, b, hs ▸ hh, ?_⟩
  rw [hr, hc, Processes.held, hn]
  rfl

theorem processes_submit_once_test : resent.ledger.sent.length = 2 ∧
    resent.ledger.landed 1 = some ⟨471, true⟩ ∧
    ∀ (i : Nat) (x : Broadcast) (m : Nat), resent.ledger.sent[i]? = some x → x.epoch = some 360 →
      resent.ledger.landed i = some ⟨m, true⟩ → i = 1 := by
  obtain ⟨-, hsent, hland⟩ := resent_landed
  refine ⟨by simpa using congrArg List.length hsent, hland, fun i x m hx he hi => ?_⟩
  obtain ⟨y, hy, hey⟩ : ∃ y, resent.ledger.sent[1]? = some y ∧ y.epoch = some 360 := by
    apply Option.map_eq_some_iff.mp
    rw [← List.getElem?_map, hsent]
    rfl
  obtain ⟨acts, s, a, b, h, hs, -, -⟩ := moves_resent
  exact processes_submit_once rfl rfl (fun _ => rfl) (by decide) h ⟨fun _ => rfl, rfl⟩
    (hs ▸ hx) (hs ▸ hy) he hey (hs ▸ hi) (hs ▸ hland)

end Sn46Validator.Validator
