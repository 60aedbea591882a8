/-
  File:      Library/Evaluation.lean
  Subject:   PROGRAMS WHOSE EVERY OPERATION IS ANSWERED: the one run they then have, and what an
             observer makes of it.

  * `Prog.eval env` -- the run of a program under an environment that answers everything;
    `Exec.eval` says that it is a run of the machine, where the environment answers as the machine may;
  * `Observer` -- it sees a value of each world and notes some of the events;
  * `Observer.Yields` -- **what a program does, as observed**, with one rule for each way of building
    a program.
-/
import Sn46Validator.Library.Program

namespace Library

/-- An environment: it answers every operation, in any world. -/
abbrev Environment {I : Interface} (M : Machine I) : Type :=
  M.World → (op : I.Op) → I.Ans op × M.World

section

variable {I : Interface} {M : Machine I} {α β : Type}

/-! ## 1. Evaluation -/

/-- **The run of a program under `env`**: its events, its value, the world it leaves. -/
def Prog.eval (env : Environment M) : M.World → Prog I α → List (Event M) × α × M.World
  | w, .ret a => ([], a, w)
  | w, .call op k =>
    let r := env w op
    let rest := eval env r.2 (k r.1)
    (⟨w, op, r.1, r.2⟩ :: rest.1, rest.2)

theorem Prog.eval_bind (env : Environment M) (p : Prog I α) (f : α → Prog I β) (w : M.World) :
    (p.bind f).eval env w =
      ((p.eval env w).1 ++ ((f (p.eval env w).2.1).eval env (p.eval env w).2.2).1,
        ((f (p.eval env w).2.1).eval env (p.eval env w).2.2).2) := by
  induction p generalizing w with
  | ret a => rfl
  | call op k ih => simp [Prog.eval, ih]

/-- An environment that answers as the machine may gives a run of the machine. -/
theorem Exec.eval {env : Environment M} (henv : ∀ w op, M.act w op (env w op).1 (env w op).2)
    (p : Prog I α) (w : M.World) :
    Exec M w p (p.eval env w).1 (some (p.eval env w).2.1) (p.eval env w).2.2 := by
  induction p generalizing w with
  | ret a => exact .ret w a
  | call op k ih => exact .call (henv w op) (ih _ _)

/-! ## 2. Observers -/

/-- **An observer**: it sees a value of `S` in each world, and notes a `C` of some events. -/
structure Observer {I : Interface} (M : Machine I) (S C : Type) where
  see : M.World → S
  note : Event M → Option C

variable {S C : Type}

/-- **What a program does, as observed**: wherever `x` is seen, it returns `a`, the notes are `cs`,
    and then `x'` is seen. -/
structure Observer.Yields (obs : Observer M S C) (env : Environment M) (p : Prog I α) (x : S)
    (cs : List C) (a : α) (x' : S) : Prop where
  notes : ∀ w, obs.see w = x → (p.eval env w).1.filterMap obs.note = cs
  value : ∀ w, obs.see w = x → (p.eval env w).2.1 = a
  after : ∀ w, obs.see w = x → obs.see (p.eval env w).2.2 = x'

variable {obs : Observer M S C} {env : Environment M} {x x' x'' : S} {cs cs' : List C}

theorem yields_ret (a : α) : obs.Yields env (.ret a) x [] a x :=
  ⟨fun _ _ => rfl, fun _ _ => rfl, fun _ h => h⟩

/-- One operation. -/
theorem yields_perform {op : I.Op} {a : I.Ans op}
    (h : ∀ w, obs.see w = x → (env w op).1 = a ∧ obs.see (env w op).2 = x' ∧
      (obs.note ⟨w, op, (env w op).1, (env w op).2⟩).toList = cs) :
    obs.Yields env (Prog.perform op) x cs a x' := by
  refine ⟨fun w hw => ?_, fun w hw => (h w hw).1, fun w hw => (h w hw).2.1⟩
  rw [← (h w hw).2.2]
  show [_].filterMap obs.note = _
  cases hn : obs.note ⟨w, op, (env w op).1, (env w op).2⟩ <;> simp [hn]

/-- **Sequencing.** -/
theorem yields_bind {p : Prog I α} {f : α → Prog I β} {a : α} {b : β}
    (h : obs.Yields env p x cs a x') (h' : obs.Yields env (f a) x' cs' b x'') :
    obs.Yields env (p.bind f) x (cs ++ cs') b x'' := by
  refine ⟨fun w hw => ?_, fun w hw => ?_, fun w hw => ?_⟩
  · rw [Prog.eval_bind, List.filterMap_append, h.notes w hw, h.value w hw]
    exact congrArg (cs ++ ·) (h'.notes _ (h.after w hw))
  · rw [Prog.eval_bind, h.value w hw]
    exact h'.value _ (h.after w hw)
  · rw [Prog.eval_bind, h.value w hw]
    exact h'.after _ (h.after w hw)

/-- **An observer that sees less**: `g` is what it makes of the finer one's view. -/
theorem yields_coarsen (obs : Observer M S C) {T : Type} {coarse : Observer M T C} {g : S → T}
    {y y' : T} {p : Prog I α} {a : α} (hnote : coarse.note = obs.note)
    (hsee : ∀ w, coarse.see w = g (obs.see w))
    (h : ∀ x, g x = y → ∃ x', obs.Yields env p x cs a x' ∧ g x' = y') :
    coarse.Yields env p y cs a y' := by
  refine ⟨fun w hw => ?_, fun w hw => ?_, fun w hw => ?_⟩
  all_goals
    rw [hsee] at hw
    obtain ⟨x', hy, hx'⟩ := h _ hw
  · rw [hnote]
    exact hy.notes w rfl
  · exact hy.value w rfl
  · rw [hsee, hy.after w rfl]
    exact hx'

/-! ## The error channel -/

variable {ε ε' : Type}

/-- The first part gives a value. -/
theorem yields_then {p : Fallible I ε α} {f : α → Fallible I ε β} {a : α} {r : Except ε β}
    (h : obs.Yields env p.run x cs (.ok a) x') (h' : obs.Yields env (f a).run x' cs' r x'') :
    obs.Yields env (p >>= f).run x (cs ++ cs') r x'' :=
  yields_bind (f := ExceptT.bindCont f) h h'

/-- The first part fails, and with it the whole. -/
theorem yields_stop {p : Fallible I ε α} {f : α → Fallible I ε β} {e : ε}
    (h : obs.Yields env p.run x cs (.error e) x') :
    obs.Yields env (p >>= f).run x cs (.error e) x' := by
  have hb := yields_bind (f := ExceptT.bindCont f) h (yields_ret (Except.error (α := β) e))
  rwa [List.append_nil] at hb

theorem yields_return (a : α) : obs.Yields env (pure a : Fallible I ε α).run x [] (.ok a) x :=
  yields_ret _

theorem yields_throw (e : ε) : obs.Yields env (throw e : Fallible I ε α).run x [] (.error e) x :=
  yields_ret _

theorem yields_except (r : Except ε α) :
    obs.Yields env (Fallible.ofExcept r : Fallible I ε α).run x [] r x := yields_ret _

/-- A converted error. -/
theorem yields_convert {f : ε → ε'} {p : Fallible I ε α} {r : Except ε α}
    (h : obs.Yields env p.run x cs r x') :
    obs.Yields env (Fallible.mapError f p).run x cs (r.mapError f) x' := by
  have hb := yields_bind (f := fun r => Prog.ret (r.mapError f)) h (yields_ret _)
  rwa [List.append_nil] at hb

/-- A program without errors inside one with. -/
theorem yields_lift {p : Prog I α} {a : α} (h : obs.Yields env p x cs a x') :
    obs.Yields env (ExceptT.lift p : Fallible I ε α).run x cs (.ok a) x' := by
  have hb := yields_bind (f := fun a => Prog.ret (Except.ok (ε := ε) a)) h (yields_ret _)
  rwa [List.append_nil] at hb

end

end Library
