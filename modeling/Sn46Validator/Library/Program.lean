/-
  File:      Library/Program.lean
  Subject:   SEQUENTIAL PROGRAMS OVER OPERATIONS, and their runs when the process can be killed.

  A program is a tree: it returns, or it performs one operation and goes on with the answer. What
  an operation does to the world is not part of the program; a `Machine` says which answers are
  possible and what they leave behind.

  * `Prog I` -- programs over the interface `I`, a monad;
  * `Machine I` -- the world, the completed operations (`act`) and what an operation leaves behind
    when the process dies inside it (`cut`);
  * `Exec M w p tr o w'` -- a run of `p` from `w`: the completed operations `tr`, the value `o`
    it returned (`none`: it was killed), the world `w'` it left;
  * `Exec.total` -- a program whose operations always have an answer always has a finished run;
  * `Machine.within`, `Exec.within` -- a machine some of whose operations do not happen, and the runs
    in which none of them does.
-/
import Mathlib.Tactic.Common

namespace Library

/-- **An interface**: the operations a program can perform and the type of each answer. -/
structure Interface where
  Op : Type
  Ans : Op → Type

/-- **A program** over `I`. -/
inductive Prog (I : Interface) (α : Type) : Type where
  | ret (a : α) : Prog I α
  | call (op : I.Op) (k : I.Ans op → Prog I α) : Prog I α

/-! ## 1. Programs -/

namespace Prog

variable {I : Interface} {α β γ : Type}

/-- Run `p`, then go on with its value. -/
def bind : Prog I α → (α → Prog I β) → Prog I β
  | .ret a, f => f a
  | .call op k, f => .call op fun x => (k x).bind f

instance : Monad (Prog I) where
  pure := .ret
  bind := Prog.bind

/-- Perform one operation and return its answer. -/
def perform (op : I.Op) : Prog I (I.Ans op) := .call op .ret

@[simp] theorem bind_call (op : I.Op) (k : I.Ans op → Prog I α) (f : α → Prog I β) :
    (Prog.call op k).bind f = .call op fun x => (k x).bind f := rfl

theorem bind_eq (p : Prog I α) (f : α → Prog I β) : (p >>= f) = p.bind f := rfl

end Prog

/-- A program that returns a value or an error: `do` blocks over it stop at the first error. -/
abbrev Fallible (I : Interface) (ε α : Type) : Type := ExceptT ε (Prog I) α

namespace Fallible

variable {I : Interface} {α ε ε' : Type}

/-- Return a value, or stop with an error. -/
def ofExcept (r : Except ε α) : Fallible I ε α := ExceptT.mk (pure r)

/-- The program with its error converted. -/
def mapError (f : ε → ε') (p : Fallible I ε α) : Fallible I ε' α :=
  ExceptT.mk (p.run >>= fun r => pure (r.mapError f))

end Fallible

/-! ## 2. Machines and runs -/

/-- **A machine** for `I`: `act w op a w'` is the operation completed in `w`, answered `a`, leaving
    `w'`; `cut w op w'` is what the operation may leave behind when the process dies inside it. -/
structure Machine (I : Interface) where
  World : Type
  act : World → (op : I.Op) → I.Ans op → World → Prop
  cut : World → I.Op → World → Prop

/-- A completed operation. -/
structure Event {I : Interface} (M : Machine I) where
  before : M.World
  op : I.Op
  ans : I.Ans op
  after : M.World

/-- **A run of a program.** The process can die before any operation, inside one, and before it
    returns; then the run has no value. -/
inductive Exec {I : Interface} (M : Machine I) {α : Type} :
    M.World → Prog I α → List (Event M) → Option α → M.World → Prop where
  | ret (w : M.World) (a : α) : Exec M w (.ret a) [] (some a) w
  | kill (w : M.World) (p : Prog I α) : Exec M w p [] none w
  | cut {w w' : M.World} {op : I.Op} (k : I.Ans op → Prog I α) (hc : M.cut w op w') :
      Exec M w (.call op k) [] none w'
  | call {w w' w'' : M.World} {op : I.Op} {x : I.Ans op} {k : I.Ans op → Prog I α}
      {tr : List (Event M)} {o : Option α} (ha : M.act w op x w') (h : Exec M w' (k x) tr o w'') :
      Exec M w (.call op k) (⟨w, op, x, w'⟩ :: tr) o w''

section Runs

variable {I : Interface} {M : Machine I} {α β : Type}

/-- A finished run of an operation and what comes next. -/
theorem Exec.of_call {w w'' : M.World} {op : I.Op} {k : I.Ans op → Prog I α} {a : α}
    {tr : List (Event M)} (h : Exec M w (.call op k) tr (some a) w'') :
    ∃ x w' tr', M.act w op x w' ∧ tr = ⟨w, op, x, w'⟩ :: tr' ∧
      Exec M w' (k x) tr' (some a) w'' := by
  cases h with
  | call ha h => exact ⟨_, _, _, ha, rfl, h⟩

/-- The first operation of a run finds the world it started in. -/
theorem Exec.head {w w' : M.World} {p : Prog I α} {tr : List (Event M)} {o : Option α}
    (h : Exec M w p tr o w') {e : Event M} (he : tr.head? = some e) : e.before = w := by
  cases h with
  | ret | kill | cut => cases he
  | call => rw [← Option.some.inj he]

/-- A finished run of both is a finished run of the first and one of what comes next. -/
theorem Exec.of_bind {w w'' : M.World} {p : Prog I α} {f : α → Prog I β} {b : β}
    {tr : List (Event M)} (h : Exec M w (p.bind f) tr (some b) w'') :
    ∃ tr₁ tr₂ a w', tr = tr₁ ++ tr₂ ∧ Exec M w p tr₁ (some a) w' ∧
      Exec M w' (f a) tr₂ (some b) w'' := by
  induction p generalizing w tr with
  | ret a => exact ⟨[], tr, a, w, rfl, .ret w a, h⟩
  | call op k ih =>
    obtain ⟨x, w₁, tr', ha, rfl, hk⟩ := Exec.of_call h
    obtain ⟨tr₁, tr₂, a, w', rfl, h₁, h₂⟩ := ih _ hk
    exact ⟨_ :: tr₁, tr₂, a, w', rfl, .call ha h₁, h₂⟩

/-- The same, where the first part can stop with an error. -/
theorem Exec.of_bindE {ε : Type} {w w'' : M.World} {p : Fallible I ε α} {f : α → Fallible I ε β}
    {r : Except ε β} {tr : List (Event M)} (h : Exec M w (p >>= f).run tr (some r) w'') :
    ∃ tr₁ x w', Exec M w p.run tr₁ (some x) w' ∧
      ((∃ a tr₂, x = .ok a ∧ tr = tr₁ ++ tr₂ ∧ Exec M w' (f a).run tr₂ (some r) w'') ∨
        ∃ e, x = .error e ∧ r = .error e ∧ tr = tr₁ ∧ w'' = w') := by
  obtain ⟨tr₁, tr₂, x, w', rfl, h₁, h₂⟩ := Exec.of_bind (p := p.run) h
  refine ⟨tr₁, x, w', h₁, ?_⟩
  cases x with
  | ok a => exact .inl ⟨a, tr₂, rfl, rfl, h₂⟩
  | error e =>
    cases (show Exec M w' (.ret (.error e)) tr₂ (some r) w'' from h₂) with
    | ret => exact .inr ⟨e, rfl, rfl, List.append_nil _, rfl⟩

/-- **Programs terminate**: where every operation has some answer, some run returns. -/
theorem Exec.total (hM : ∀ w op, ∃ x w', M.act w op x w') (p : Prog I α) (w : M.World) :
    ∃ tr a w', Exec M w p tr (some a) w' := by
  induction p generalizing w with
  | ret a => exact ⟨[], a, w, .ret w a⟩
  | call op k ih =>
    obtain ⟨x, w', ha⟩ := hM w op
    obtain ⟨tr, a, w'', h⟩ := ih x w'
    exact ⟨⟨w, op, x, w'⟩ :: tr, a, w'', .call ha h⟩

end Runs

/-! ## 3. A machine of which less is possible -/

section Within

variable {I : Interface} {M : Machine I} {R : Event M → Prop} {α : Type}

/-- **The machine whose completed operations are those of `R`.** -/
@[reducible] def Machine.within (M : Machine I) (R : Event M → Prop) : Machine I where
  World := M.World
  act w op x w' := M.act w op x w' ∧ R ⟨w, op, x, w'⟩
  cut := M.cut

/-- A completed operation, as one of that machine. -/
def Event.within (R : Event M → Prop) (e : Event M) : Event (M.within R) :=
  ⟨e.before, e.op, e.ans, e.after⟩

/-- **A run whose operations are all of `R`** is a run of that machine. -/
theorem Exec.within {w w' : M.World} {p : Prog I α} {tr : List (Event M)} {o : Option α}
    (h : Exec M w p tr o w') (hR : ∀ e ∈ tr, R e) :
    Exec (M.within R) w p (tr.map (.within R)) o w' := by
  induction h with
  | ret w a => exact .ret (M := M.within R) w a
  | kill w p => exact .kill (M := M.within R) w p
  | cut k hc => exact .cut (M := M.within R) k hc
  | call ha _ ih =>
    exact .call (M := M.within R) ⟨ha, hR _ List.mem_cons_self⟩
      (ih fun e he => hR e (List.mem_cons_of_mem _ he))

end Within

/-! ## 4. Playing a program against a fixed environment -/

/-- The run of `p` in which every operation is answered by `env`, killed after `n` operations. -/
def Prog.play {I : Interface} {M : Machine I} {α : Type}
    (env : M.World → (op : I.Op) → I.Ans op × M.World) :
    Nat → M.World → Prog I α → List (Event M) × Option α × M.World
  | _, w, .ret a => ([], some a, w)
  | 0, w, .call _ _ => ([], none, w)
  | n + 1, w, .call op k =>
    let r := env w op
    let rest := play env n r.2 (k r.1)
    (⟨w, op, r.1, r.2⟩ :: rest.1, rest.2)

/-- **What is played is what the environment answers.** -/
theorem Prog.play_events {I : Interface} {M : Machine I} {α : Type}
    {env : M.World → (op : I.Op) → I.Ans op × M.World} {T : Event M → Prop}
    (henv : ∀ w op, T ⟨w, op, (env w op).1, (env w op).2⟩) (n : Nat) (w : M.World)
    (p : Prog I α) : ∀ e ∈ (p.play env n w).1, T e := by
  induction n generalizing w p with
  | zero => cases p <;> exact fun e he => absurd he List.not_mem_nil
  | succ n ih =>
    cases p with
    | ret a => exact fun e he => absurd he List.not_mem_nil
    | call op k =>
      intro e he
      rcases List.mem_cons.mp he with rfl | he
      · exact henv w op
      · exact ih _ _ e he

/-- An environment that answers as the machine may plays runs of the machine. -/
theorem Exec.play {I : Interface} {M : Machine I} {α : Type}
    {env : M.World → (op : I.Op) → I.Ans op × M.World}
    (henv : ∀ w op, M.act w op (env w op).1 (env w op).2) (n : Nat) (w : M.World)
    (p : Prog I α) :
    Exec M w p (p.play env n w).1 (p.play env n w).2.1 (p.play env n w).2.2 := by
  induction n generalizing w p with
  | zero =>
    cases p with
    | ret a => exact .ret w a
    | call op k => exact .kill w _
  | succ n ih =>
    cases p with
    | ret a => exact .ret w a
    | call op k => exact .call (henv w op) (ih _ _)

end Library
