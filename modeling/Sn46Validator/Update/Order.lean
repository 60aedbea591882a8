/-
  File:      Update/Order.lean
  Subject:   THE ORDER IN WHICH A RUN WRITES ITS RECORDS.

  * `Phase`, `phases`, `order` -- a machine that sees only which of the two records a run has
    written, and what may be done then;
  * the rules for the functions of a run: one that writes no record keeps the phase;
  * `run_ordered` -- **once a run has written `release.json` it only removes `pending.json`, and once
    it has written `update-failed.json` it does not write `release.json`**.
-/
import Sn46Validator.Library.Simulate
import Sn46Validator.Update.Attempt

namespace Sn46Validator.Update

open Library

variable {crypto : Crypto} {reports : Bytes → Option String} {faults : Bool}

/-! ## 1. Phases -/

/-- What a run has recorded so far. -/
inductive Phase where
  | nothing
  | blamed
  | recorded
  deriving DecidableEq

def Phase.next (m : Phase) : Action → Phase
  | .write .failed => blamed
  | .write .release => recorded
  | _ => m

theorem Phase.next_eq {m : Phase} {a : Action} (hf : a = .write .failed → m = blamed)
    (hr : a ≠ .write .release) : m.next a = m := by
  unfold next
  split
  · exact (hf rfl).symm
  · exact absurd rfl hr
  · rfl

/-- The end of `confirm`: the directory is synced, and `pending.json` is removed. -/
def Op.Closing (op : Op) : Prop := op = .fs .sync ∨ op = .fs (.remove (.state .pending))

/-- What may be done in a phase. -/
def Phase.Allows (m : Phase) (op : Op) (x : Op.Ans op) : Prop :=
  (m = recorded → op.Closing) ∧ (m = blamed → action op x ≠ .write .release)

/-- **The machine of the phases**: it knows no files, and any answer is possible. -/
@[reducible] def phases : Machine iface where
  World := Phase
  act m op x m' := m' = m.next (action op x)
  cut m _ m' := m' = m

/-- **The order**: what is done is allowed in its phase. -/
@[reducible] def order : Simulation phases Phase where
  view m := m
  step op x m m' := m.Allows op x ∧ m' = m.next (action op x)
  torn m m' := m' = m

section Rules

variable {α β : Type} {m : Phase}

theorem order_perform {op : Op} {Q : Op.Ans op → Phase → Prop} (h : ∀ x, m.Allows op x)
    (hQ : ∀ x, Q x (m.next (action op x))) :
    Refines order (Prog.perform (I := iface) op) Q m := by
  refine refines_op (fun w w' he hc => he ▸ hc) fun w x w' he ha => ?_
  obtain rfl : w = m := he
  obtain rfl : w' = w.next (action op x) := ha
  exact ⟨⟨h x, rfl⟩, hQ x⟩

/-- One operation, and what follows it. -/
theorem order_op {op : Op} {f : Op.Ans op → Run β} {Q : Except UpdateError β → Phase → Prop}
    (h : ∀ x, m.Allows op x) (hf : ∀ x, Refines order (f x).run Q (m.next (action op x))) :
    Refines order (perform op >>= f).run Q m :=
  refines_bindE (refines_lift (order_perform h hf))

/-- The parts of the host beside the two records. -/
def unrecorded : List Part :=
  .file .install :: .file .previous :: .file .staged :: .file (.state .pending) :: .service ::
    scratch

/-- An operation on them writes no record. -/
theorem action_unrecorded {op : Op} (h : Op.In unrecorded op) (x : Op.Ans op) :
    action op x ≠ .write .failed ∧ action op x ≠ .write .release := by
  unfold action
  split
  · simp
  · simp
  · simp
  · simp
  · exact absurd (h (.file (.state .release)) (by simp [Op.footprint, FileOp.targets])) (by decide)
  · exact absurd (h (.file (.state .failed)) (by simp [Op.footprint, FileOp.targets])) (by decide)
  · simp
  · simp
  · simp

theorem next_unrecorded {op : Op} (h : Op.In unrecorded op) (x : Op.Ans op) (m : Phase) :
    m.next (action op x) = m :=
  Phase.next_eq (fun hf => absurd hf (action_unrecorded h x).1) (action_unrecorded h x).2

/-- **A program that writes no record** keeps the phase. -/
theorem order_of_uses {p : Prog iface α} {Q : α → Phase → Prop} (hp : p.Uses (Op.In unrecorded))
    (hm : m ≠ .recorded) (hQ : ∀ a, Q a m) : Refines order p Q m := by
  refine refines_mono (refines_of_uses (J := (· = m)) (fun _ _ _ _ _ hc => hc) ?_ hp rfl) ?_
  · intro w op x w' hop he ha
    obtain rfl : w = m := he
    refine ⟨⟨⟨fun h => absurd h hm, fun _ => (action_unrecorded hop x).2⟩, ha⟩, ?_⟩
    exact (show w' = w.next (action op x) from ha).trans (next_unrecorded hop x w)
  · intro a d he
    rw [he]
    exact hQ a

/-- The same, and what follows it. -/
theorem order_skip {p : Run α} {f : α → Run β} {Q : Except UpdateError β → Phase → Prop}
    (hp : p.run.Uses (Op.In unrecorded)) (hm : m ≠ .recorded)
    (hf : ∀ a, Refines order (f a).run Q m) (herr : ∀ e, Q (.error e) m) :
    Refines order (p >>= f).run Q m := by
  refine refines_bindE (order_of_uses hp hm fun r => ?_)
  cases r with
  | ok a => exact hf a
  | error e => exact herr e

/-- The same where nothing is recorded, and nothing is to be shown at the end. -/
theorem order_then {p : Run α} {f : α → Run β} (hp : p.run.Uses (Op.In unrecorded))
    (hf : ∀ a, Refines order (f a).run (fun _ _ => True) .nothing) :
    Refines order (p >>= f).run (fun _ _ => True) .nothing :=
  order_skip hp (by simp) hf fun _ => trivial

/-- A program that records nothing, whose errors are caught, and what follows it. -/
theorem order_catch {p : Run α} {f : Except UpdateError α → Run β}
    (hp : Refines order p.run (fun _ m => m = .nothing) .nothing)
    (hf : ∀ r, Refines order (f r).run (fun _ _ => True) .nothing) :
    Refines order (ExceptT.lift p.run >>= f).run (fun _ _ => True) .nothing := by
  refine refines_bindE (refines_lift (refines_mono hp fun r m hm => ?_))
  subst hm
  exact hf r

/-- A program that may record something, and nothing after it. -/
theorem order_last {p : Run α} {f : α → Run β} {P : Except UpdateError α → Phase → Prop}
    (hp : Refines order p.run P m) (hf : ∀ a m', Refines order (f a).run (fun _ _ => True) m') :
    Refines order (p >>= f).run (fun _ _ => True) m := by
  refine refines_bindE (refines_mono hp fun r m' _ => ?_)
  cases r with
  | ok a => exact hf a m'
  | error e => trivial

theorem order_ret {r : Except UpdateError α} :
    Refines order (pure r : Prog iface (Except UpdateError α)) (fun _ _ => True) m :=
  refines_pure trivial

theorem uses_touching {op : Op} (hop : Op.In unrecorded op) :
    (perform op).run.Uses (Op.In unrecorded) :=
  uses_lift (uses_perform hop)

/-- An operation that touches nothing. -/
theorem uses_looking {op : Op} (hop : op.footprint = []) :
    (perform op).run.Uses (Op.In unrecorded) := uses_touching (in_nothing hop)

end Rules

/-! ## 2. The functions of a run -/

section Functions

variable {m : Phase} {c : Call crypto}

theorem in_temporary {f : StateFile} {bytes : Bytes} :
    Op.In unrecorded (.fs (.write (.temporary f) bytes)) := by
  cases f <;> simp [Op.In, Op.footprint, FileOp.targets, unrecorded, scratch]

/-- **`write_json`**: a record is written in one step. -/
theorem order_writeJson {f : StateFile} {bytes : Bytes} (hm : m ≠ .recorded)
    (hf : f = .release → m ≠ .blamed) :
    Refines order (writeJson f bytes).run (fun _ m' => m' = m ∨ m' = m.next (.write f)) m := by
  refine order_op (fun x => ⟨fun h => absurd h hm, fun _ => (action_unrecorded in_temporary x).2⟩)
    fun x => ?_
  rw [next_unrecorded in_temporary]
  cases x with
  | error e => exact refines_throw (.inl rfl)
  | ok u =>
    rw [io_ok_bind]
    refine order_op (fun x => ⟨fun h => absurd h hm, fun h ha => ?_⟩) fun x => ?_
    · cases f with
      | release => exact hf rfl h
      | _ => cases x <;> simp [action] at ha
    · cases x with
      | error e => exact refines_throw (.inl (by cases f <;> rfl))
      | ok u =>
        rw [io_ok_bind]
        refine order_op (fun _ => ⟨fun _ => .inl rfl, fun _ => by simp [action]⟩) fun _ => ?_
        exact refines_pureE (.inr (by cases f <;> rfl))

theorem uses_writePending {bytes : Bytes} :
    (writeJson .pending bytes).run.Uses (Op.In unrecorded) :=
  within_writeJson (by decide) (by decide)

/-- **`record_failure`**. -/
theorem order_recordFailure {version : String} {sequence nowMs : U64} (hm : m ≠ .recorded) :
    Refines order (recordFailure version sequence nowMs).run (fun _ m' => m' ≠ .recorded) m := by
  refine order_skip (uses_readJson (in_nothing rfl)) hm (fun o => ?_) fun _ => hm
  dsimp only
  split_ifs
  · exact refines_pureE hm
  · refine refines_mono (order_writeJson hm (by simp)) fun _ m' h => ?_
    rcases h with rfl | rfl
    · exact hm
    · simp [Phase.next]

/-- **`roll_back`** writes no `release.json`. -/
theorem order_rollBack {p : Pending} {nowMs : U64} {reason : String} (hm : m ≠ .recorded) :
    Refines order (rollBack p nowMs reason) (fun _ _ => True) m := by
  refine refines_bind (order_of_uses uses_writePending hm fun _ => ?_)
  refine refines_bind (refines_mono (order_recordFailure hm) fun recorded m' hm' => ?_)
  refine refines_bind (order_of_uses
    (uses_restore (in_nothing rfl) (by decide) (in_nothing rfl)) hm' fun x => ?_)
  cases x with
  | error e => exact refines_pure trivial
  | ok u => exact order_of_uses (uses_settle (by decide) (by decide)) hm' fun _ => trivial

/-- **`confirm`**: after `release.json` is written, `pending.json` is removed. -/
theorem order_confirm {p : Pending} :
    Refines order (confirm c p).run (fun _ _ => True) .nothing := by
  refine order_then (uses_lift (uses_restartAndCheck (by decide))) fun x => ?_
  cases x with
  | error reason =>
    exact refines_bindE (refines_lift (refines_mono (order_rollBack (by simp)) fun _ _ _ =>
      refines_throw trivial))
  | ok u =>
    refine order_last (order_writeJson (by simp) (by simp)) fun _ m' => ?_
    refine order_op (fun x => ⟨fun _ => .inr rfl, fun _ => ?_⟩) fun x => ?_
    · cases x <;> simp [action]
    · cases x with
      | error e => exact refines_throw trivial
      | ok u => exact refines_pureE trivial

/-- **Recovery**: where a run goes on as an ordinary one nothing is recorded yet. -/
theorem order_recover :
    Refines order (recover c).run (fun r m => r = .ok none → m = .nothing) .nothing := by
  refine order_skip (uses_readJson (in_nothing rfl)) (by simp) (fun o => ?_) (by simp)
  cases o with
  | none => exact refines_pureE fun _ => rfl
  | some p =>
    refine order_skip ?_ (by simp) (fun b => ?_) (by simp)
    · unfold restored
      split_ifs
      · exact uses_bindE (uses_looking rfl) fun _ => trivial
      · trivial
    · split_ifs
      · exact refines_bindE (refines_lift (refines_mono (order_rollBack (by simp)) fun _ _ _ =>
          refines_throw (by simp)))
      · refine refines_bindE (refines_mono order_confirm fun r m' _ => ?_)
        cases r with
        | ok out => exact refines_pureE (by simp)
        | error e => exact fun h => by cases h
      · refine order_skip (uses_touching (by decide)) (by simp) (fun x => ?_) (by simp)
        exact order_skip uses_io (by simp) (fun _ => refines_pureE fun _ => rfl) (by simp)

/-- **`stage`** writes no record. -/
theorem order_stage {m : Manifest} :
    Refines order (stage c m).run (fun _ m => m = .nothing) .nothing := by
  unfold stage
  generalize download c m = delivered
  refine order_skip uses_orThrow (by simp) (fun binary => ?_) (by simp)
  refine order_skip (uses_removeStaged (by decide)) (by simp) (fun _ => ?_) (by simp)
  refine order_skip (uses_touching (in_singleton rfl (by decide))) (by simp) (fun x => ?_) (by simp)
  refine order_skip uses_io (by simp) (fun _ => ?_) (by simp)
  refine order_skip (uses_looking rfl) (by simp) (fun x => ?_) (by simp)
  cases x with
  | error e => exact refines_throw rfl
  | ok reported =>
    dsimp only
    split_ifs
    · exact refines_throw rfl
    · exact refines_pureE rfl

/-- The swap, and the check of the release. -/
theorem order_swapIn {m : Manifest} :
    Refines order (swapIn c m).run (fun _ _ => True) .nothing := by
  have hdrop : removeStaged.run.Uses (Op.In unrecorded) := uses_removeStaged (by decide)
  refine order_then (uses_lift (uses_backUp (by decide) (in_nothing rfl))) fun x => ?_
  cases x with
  | error e => exact order_then hdrop fun _ => order_ret
  | ok u =>
    refine order_then (uses_looking rfl) fun _ =>
      order_catch (order_of_uses uses_writePending (by simp) fun _ => rfl) fun x => ?_
    cases x with
    | error e => exact order_then hdrop fun _ => order_ret
    | ok u =>
      refine order_then (uses_touching (by decide)) fun x => ?_
      cases x with
      | error e =>
        exact order_then hdrop fun _ => order_then (uses_touching (by decide)) fun _ => order_ret
      | ok u => exact order_then (uses_looking rfl) fun _ => order_confirm

/-- A release that was not staged. -/
theorem order_refuse {m : Manifest} {e : UpdateError} :
    Refines order (refuse c m e).run (fun _ _ => True) .nothing := by
  refine order_then (uses_removeStaged (by decide)) fun _ => ?_
  cases e with
  | badRelease why => exact order_last (order_recordFailure (by simp)) fun _ _ => order_ret
  | _ => exact order_ret

/-- From a due release to the swap. -/
theorem order_install {m : Manifest} :
    Refines order (install c m).run (fun _ _ => True) .nothing := by
  refine order_then (uses_looking rfl) fun there => ?_
  split_ifs
  · refine order_then (uses_checkDisk (fun _ => within_writeJson (by decide) (by decide))
      (by decide)) fun _ => ?_
    refine order_catch order_stage fun x => ?_
    cases x with
    | ok u => exact order_swapIn
    | error e => exact order_refuse
  · exact order_ret

/-- What becomes of an offered release. -/
theorem order_consider {m : Manifest} {r : Installed} :
    Refines order (consider c m r).run (fun _ _ => True) .nothing := by
  unfold consider
  split_ifs
  · exact order_ret
  · exact order_last (order_writeJson (by simp) (by simp)) fun _ _ => order_ret
  · refine order_then (uses_readJson (in_nothing rfl)) fun failed => ?_
    unfold schedule
    split_ifs
    · exact order_ret
    · cases notYet c m with
      | some outcome => exact order_ret
      | none => exact order_install

/-- A run that holds the lock. -/
theorem order_locked : Refines order (locked c).run (fun _ _ => True) .nothing := by
  refine refines_bindE (refines_mono order_recover fun r m' hr => ?_)
  cases r with
  | error e => trivial
  | ok o =>
    cases o with
    | some out => exact order_ret
    | none =>
      obtain rfl := hr rfl
      refine order_then (uses_readJson (in_nothing rfl)) fun installed => ?_
      refine order_then uses_orThrow fun o => ?_
      cases o with
      | none => exact order_ret
      | some m => exact order_consider

/-- **A run keeps the order.** -/
theorem order_run : Refines order (run c).run (fun _ _ => True) .nothing := by
  unfold run
  split_ifs
  · refine order_then (uses_looking rfl) fun x => order_then uses_io fun _ => ?_
    refine order_then (uses_checkStateDir (in_nothing rfl)) fun _ => ?_
    refine order_then (uses_looking rfl) fun x => order_then uses_io fun _ => ?_
    refine order_then (uses_looking rfl) fun x => ?_
    cases x with
    | acquired => exact order_locked
    | wouldBlock => exact order_ret
    | error e => exact order_ret
  · exact order_ret

end Functions

/-! ## 3. Every run -/

/-- What may come after an operation of the same run. -/
def Follows (x y : Σ op : Op, Op.Ans op) : Prop :=
  (action x.1 x.2 = .write .release → y.1.Closing) ∧
    (action x.1 x.2 = .write .failed → action y.1 y.2 ≠ .write .release)

theorem closing_action {op : Op} (h : op.Closing) (x : Op.Ans op) (f : StateFile) :
    action op x ≠ .write f := by
  rcases h with rfl | rfl
  · simp [action]
  · cases x <;> simp [action]

/-- The phase is what was recorded, and the operations are in order. -/
structure InOrder (tr : List (Event phases)) (m : Phase) : Prop where
  ordered : (asked tr).Pairwise Follows
  recorded : ∀ x ∈ asked tr, action x.1 x.2 = .write .release → m = .recorded
  blamed : ∀ x ∈ asked tr, action x.1 x.2 = .write .failed → m = .blamed

theorem InOrder.step {tr : List (Event phases)} {e : Event phases} (h : InOrder tr e.before)
    (ha : e.before.Allows e.op e.ans) (hn : e.after = e.before.next (action e.op e.ans)) :
    InOrder (tr ++ [e]) e.after := by
  have hasked : asked (tr ++ [e]) = asked tr ++ [⟨e.op, e.ans⟩] := List.map_append
  refine ⟨?_, fun x hx hr => ?_, fun x hx hf => ?_⟩
  · rw [hasked, List.pairwise_append]
    refine ⟨h.ordered, List.pairwise_singleton _ _, fun x hx y hy => ?_⟩
    obtain rfl := List.mem_singleton.mp hy
    exact ⟨fun hr => ha.1 (h.recorded x hx hr), fun hf => ha.2 (h.blamed x hx hf)⟩
  · rw [hn]
    rcases List.mem_append.mp (hasked ▸ hx) with hx | hx
    · -- nothing is recorded after that
      have hm := h.recorded x hx hr
      have hno := closing_action (ha.1 hm) e.ans
      rw [Phase.next_eq (fun hf => absurd hf (hno _)) (hno _), hm]
    · obtain rfl := List.mem_singleton.mp hx
      rw [show action e.op e.ans = .write .release from hr]
      rfl
  · rw [hn]
    rcases List.mem_append.mp (hasked ▸ hx) with hx | hx
    · have hm := h.blamed x hx hf
      rw [Phase.next_eq (fun _ => hm) (ha.2 hm), hm]
    · obtain rfl := List.mem_singleton.mp hx
      rw [show action e.op e.ans = .write .failed from hf]
      rfl

/-- **The order in a run**, killed or not: after it wrote `release.json` it only syncs the directory
    and removes `pending.json`; after it wrote `update-failed.json` it does not write
    `release.json`. -/
theorem run_ordered {c : Call crypto} {w w' : Host} {tr : List (Event (machine reports faults))}
    {o : Option (Except UpdateError Outcome)}
    (h : Exec (machine reports faults) w (run c).run tr o w') : (asked tr).Pairwise Follows := by
  obtain ⟨tr', m, hx, hasked⟩ := Exec.follow phases (R := fun _ _ => True) (v := .nothing)
    (T := fun _ => True) (fun _ _ m op x _ _ _ => ⟨m.next (action op x), rfl, trivial⟩)
    (fun _ _ m _ _ _ => ⟨m, rfl⟩) h (fun _ _ => trivial) trivial
  rw [← hasked]
  have hin : InOrder tr' m := Exec.induct (t := []) (P := InOrder)
    (C := fun m m' : Phase => m' = m) (fun tr e hg hi => hi.step hg.1 hg.2)
    (fun _ _ _ he hi => he ▸ hi) hx
    ((order_run (c := c)).ensures .nothing rfl) ⟨.nil, by simp [asked], by simp [asked]⟩
  exact hin.ordered

/-! ## 4. A run that finds its own release pending -/

/-- The service was restarted, if that was asked. -/
def Restarts : (op : Op) → Op.Ans op → Prop
  | .restart, .error _ => False
  | _, _ => True

/-- What is read of `pending.json`, if anything, is `p`. -/
def Reads (p : Pending) : (op : Op) → Op.Ans op → Prop
  | .fs (.read (.state .pending)), .ok raw => Pending.codec.decode raw = some p
  | .fs (.read (.state .pending)), .error e => e ≠ .notFound
  | _, _ => True

/-- A step towards the end of an update. -/
def Forward (op : Op) : Prop :=
  ∀ x, action op x ≠ .write .pending ∧ action op x ≠ .write .failed ∧ action op x ≠ .restore

/-- **The machine of a run that finds `p` pending** and can restart the service: its state is whether
    anything was touched yet. -/
@[reducible] def resumed (p : Pending) : Machine iface where
  World := Bool
  act touched op x touched' :=
    Restarts op x ∧ (touched = false → Reads p op x) ∧
      touched' = (touched || decide (op.footprint ≠ []))
  cut _ _ _ := True

/-- **The way on**: every operation is a step forward. -/
@[reducible] def onward (p : Pending) : Simulation (resumed p) Bool where
  view touched := touched
  step op _ _ _ := Forward op
  torn _ _ := True

theorem closing_forward {op : Op} (h : op.Closing) : Forward op := fun x =>
  ⟨closing_action h x _, closing_action h x _, by
    rcases h with rfl | rfl
    · simp [action]
    · cases x <;> simp [action]⟩

section Onward

variable {p : Pending} {β : Type} {touched : Bool}

theorem onward_perform {op : Op} {Q : Op.Ans op → Bool → Prop} (h : Forward op)
    (hQ : ∀ x, Restarts op x → (touched = false → Reads p op x) →
      Q x (touched || decide (op.footprint ≠ []))) :
    Refines (onward p) (Prog.perform (I := iface) op) Q touched := by
  refine refines_op (fun _ _ _ _ => trivial) fun w x w' he ha => ⟨h, ?_⟩
  obtain rfl : w = touched := he
  obtain ⟨hr, hp, rfl⟩ := ha
  exact hQ x hr hp

/-- One operation, and what follows it. -/
theorem onward_op {op : Op} {f : Op.Ans op → Run β} {Q : Except UpdateError β → Bool → Prop}
    (h : Forward op) (hf : ∀ x, Restarts op x → (touched = false → Reads p op x) →
      Refines (onward p) (f x).run Q (touched || decide (op.footprint ≠ []))) :
    Refines (onward p) (perform op >>= f).run Q touched :=
  refines_bindE (refines_lift (onward_perform h hf))

/-- `?` on an I/O result, and what follows it. -/
theorem onward_io {α : Type} {x : Except IoError α} {f : α → Run β}
    (hf : ∀ a, x = .ok a → Refines (onward p) (f a).run (fun _ _ => True) touched) :
    Refines (onward p) (io x >>= f).run (fun _ _ => True) touched := by
  cases x with
  | ok a => exact hf a rfl
  | error e => exact refines_throw trivial

theorem footprint_nil {op : Op} (h : Op.In [] op) : op.footprint = [] :=
  List.eq_nil_iff_forall_not_mem.mpr fun y hy => List.not_mem_nil (h y hy)

theorem forward_looking {op : Op} (h : Op.In [] op) : Forward op := by
  intro x
  have hop := footprint_nil h
  unfold action
  split
  · simp
  · cases hop
  · simp
  · cases hop
  · simp
  · cases hop
  · simp
  · simp
  · simp

/-- **A program that touches nothing**, and what follows it. -/
theorem onward_skip {α : Type} {q : Run α} {f : α → Run β} (hq : q.run.Uses (Op.In []))
    (hf : ∀ a, Refines (onward p) (f a).run (fun _ _ => True) false) :
    Refines (onward p) (q >>= f).run (fun _ _ => True) false := by
  refine refines_bindE (refines_mono (refines_of_uses (T := Op.In []) (J := (· = false))
    (fun _ _ _ _ _ _ => trivial) ?_ hq rfl) fun r t ht => ?_)
  · intro t op x t' hop ht ha
    obtain rfl : t = false := ht
    obtain ⟨-, -, rfl⟩ := ha
    refine ⟨forward_looking hop, ?_⟩
    simp [footprint_nil hop]
  · obtain rfl : t = false := ht
    cases r with
    | ok a => exact hf a
    | error e => trivial

theorem forward_temporary {f : StateFile} {bytes : Bytes} :
    Forward (.fs (.write (.temporary f) bytes)) := fun _ => by simp [action]

/-- **`write_json`** of `release.json`. -/
theorem onward_writeRelease {bytes : Bytes} {touched : Bool} :
    Refines (onward p) (writeJson .release bytes).run (fun _ _ => True) touched := by
  refine onward_op forward_temporary fun x _ _ => onward_io fun _ _ => ?_
  refine onward_op (fun x => by cases x <;> simp [action]) fun x _ _ => onward_io fun _ _ => ?_
  exact onward_op (fun _ => by simp [action]) fun _ _ _ => refines_pureE trivial

/-- **`confirm`** of a release that passes its health check. -/
theorem onward_confirm {c : Call crypto} {touched : Bool} (hc : c.polls.check = .ok ()) :
    Refines (onward p) (confirm c p).run (fun _ _ => True) touched := by
  refine refines_bindE (refines_lift (refines_bind (onward_perform ?_ fun x hr _ => ?_)))
  · intro x
    cases x <;> simp [action]
  · cases x with
    | error e => exact hr.elim
    | ok u =>
      refine refines_pure ?_
      rw [hc, rest_ok]
      refine refines_bindE (refines_mono onward_writeRelease fun r _ _ => ?_)
      cases r with
      | error e => trivial
      | ok u =>
        refine onward_op (fun x => by cases x <;> simp [action]) fun x _ _ => ?_
        exact onward_io fun _ _ => refines_pureE trivial

/-- **Recovery** of a release that is the running one and passes. -/
theorem onward_recover {c : Call crypto} (hm : p.rollingBack = false)
    (hv : p.version = c.config.runningVersion) (hc : c.polls.check = .ok ()) :
    Refines (onward p) (recover c).run (fun r _ => r ≠ .ok none) false := by
  refine refines_bindE (onward_op (forward_looking (by decide)) fun x _ hr => ?_)
  cases x with
  | error e =>
    cases e with
    | notFound => exact absurd rfl (hr rfl)
    | _ => exact refines_throw fun h => by cases h
  | ok raw =>
    have hraw : Pending.codec.decode raw = some p := hr rfl
    dsimp only
    rw [hraw]
    refine refines_pureE (refines_bindE ?_)
    rw [restored, if_neg (by simpa using hv)]
    refine refines_pureE ?_
    rw [rest_ok, if_neg (by simp [hm]), if_pos hv]
    refine refines_bindE (refines_mono (onward_confirm hc) fun r _ _ => ?_)
    cases r with
    | ok out => exact refines_pureE (by simp)
    | error e => exact fun h => by cases h

/-- **A run that finds its own release pending**, unmarked, goes only on if the release passes. -/
theorem onward_run {c : Call crypto} (hm : p.rollingBack = false)
    (hv : p.version = c.config.runningVersion) (hc : c.polls.check = .ok ()) :
    Refines (onward p) (run c).run (fun _ _ => True) false := by
  have hlook : ∀ {op : Op}, op.footprint = [] → (perform op).run.Uses (Op.In []) := by
    intro op hop
    refine uses_lift (uses_perform fun y hy => ?_)
    rwa [hop] at hy
  unfold run
  split_ifs
  · refine onward_skip (hlook rfl) fun x => onward_skip uses_io fun _ => ?_
    refine onward_skip (uses_checkStateDir (in_nothing rfl)) fun _ => ?_
    refine onward_skip (hlook rfl) fun x => onward_skip uses_io fun _ => ?_
    refine onward_skip (hlook rfl) fun x => ?_
    cases x with
    | acquired =>
      refine refines_bindE (refines_mono (onward_recover hm hv hc) fun r _ hr => ?_)
      cases r with
      | error e => trivial
      | ok o =>
        cases o with
        | some out => exact refines_pureE trivial
        | none => exact absurd rfl hr
    | wouldBlock => exact refines_pureE trivial
    | error e => exact refines_throw trivial
  · exact refines_pureE trivial

/-- What is read of `pending.json` while it names `p`. -/
theorem reads_pending {w w' : Host} {op : Op} {x : Op.Ans op} (h : (view w).pending = .holds p)
    (ha : (machine reports faults).act w op x w') : Reads p op x := by
  obtain ⟨raw, hraw, hdec⟩ := Stored.of_eq_holds h
  unfold Reads
  split
  · obtain ⟨fs, ⟨-, hx⟩, -⟩ := act_fs ha
    rw [hraw] at hx
    obtain hx | ⟨-, hx⟩ := hx
    · rw [Except.ok.inj hx]
      exact hdec
    · cases hx
  · obtain ⟨fs, ⟨-, hx⟩, -⟩ := act_fs ha
    rw [hraw] at hx
    obtain hx | ⟨-, hx⟩ := hx
    · cases hx
    · rw [Except.error.inj hx]
      simp
  · trivial

/-- It names `p` until it is touched. -/
theorem pending_looking {w w' : Host} {op : Op} {x : Op.Ans op} (hop : op.footprint = [])
    (ha : (machine reports faults).act w op x w') : (view w').pending = (view w).pending :=
  congrArg (Stored.of Pending.codec) (act_files ha (by rw [hop]; exact List.not_mem_nil))

/-- **A run that finds its own release pending**, unmarked, with a service that restarts and stays
    healthy: it takes no step back, killed or not. -/
theorem run_forward {c : Call crypto} {w w' : Host} {tr : List (Event (machine reports faults))}
    {o : Option (Except UpdateError Outcome)} (hp : (view w).pending = .holds p)
    (hm : p.rollingBack = false) (hv : p.version = c.config.runningVersion)
    (hc : c.polls.check = .ok ()) (hr : ∀ e ∈ tr, Restarts e.op e.ans)
    (h : Exec (machine reports faults) w (run c).run tr o w') : ∀ e ∈ tr, Forward e.op := by
  have hact : ∀ (w w' : Host) (t : Bool) (op : Op) (x : Op.Ans op),
      (t = false → (view w).pending = .holds p) → (machine reports faults).act w op x w' →
      Restarts op x → ∃ t', (resumed p).act t op x t' ∧
        (t' = false → (view w').pending = .holds p) := by
    intro w w' t op x hR ha hT
    refine ⟨_, ⟨hT, fun ht => reads_pending (hR ht) ha, rfl⟩, fun ht => ?_⟩
    simp only [ne_eq, decide_not, Bool.or_eq_false_iff, Bool.not_eq_eq_eq_not, Bool.not_false,
      decide_eq_true_eq] at ht
    rw [pending_looking ht.2 ha, hR ht.1]
  obtain ⟨tr', t, hx, hasked⟩ := Exec.follow (resumed p) (T := fun e => Restarts e.op e.ans) hact
    (fun _ _ t _ _ _ => ⟨t, trivial⟩) h hr (fun _ => hp)
  have hall := hx.events ((onward_run hm hv hc).ensures false rfl)
  intro e he
  have hmem : (⟨e.op, e.ans⟩ : Σ op : Op, Op.Ans op) ∈ asked tr :=
    List.mem_map_of_mem (f := fun e : Event (machine reports faults) =>
      (⟨e.op, e.ans⟩ : Σ op : Op, Op.Ans op)) he
  rw [← hasked] at hmem
  obtain ⟨e', he', heq⟩ := List.mem_map.mp hmem
  have hop : e'.op = e.op := congrArg Sigma.fst heq
  exact hop ▸ hall e' he'

end Onward

end Sn46Validator.Update
