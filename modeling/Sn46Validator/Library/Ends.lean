/-
  File:      Library/Ends.lean
  Subject:   WHAT A FINISHED RUN LEAVES, as a fact of its value, its whole trace and its last world.

  `Ends M p Q tr w`: where `p` goes on from the world `w` after the events `tr`, and returns, its
  value, all events and the world it leaves satisfy `Q`. Nothing is said of a killed run. Unlike a
  guarantee, `Q` sees the trace, so it can speak of what was done and of what failed on the way.

  * `ends_bind`, `ends_bindE`, `ends_perform` -- the rules, one for each way to build a
    program;
  * `Prog.Uses`, `ends_of_uses` -- a program of harmless operations keeps what each of them keeps.
-/
import Sn46Validator.Library.Program

namespace Library

variable {I : Interface} {M : Machine I} {α β ε : Type}

/-- **What a program leaves** when it returns. -/
structure Ends (M : Machine I) (p : Prog I α) (Q : α → List (Event M) → M.World → Prop)
    (tr : List (Event M)) (w : M.World) : Prop where
  holds : ∀ tr' a w', Exec M w p tr' (some a) w' → Q a (tr ++ tr') w'

/-! ## 1. Rules -/

section Rules

variable {Q : β → List (Event M) → M.World → Prop} {tr : List (Event M)} {w : M.World}

theorem ends_pure {a : β} (h : Q a tr w) : Ends M (pure a : Prog I β) Q tr w := by
  refine ⟨fun tr' b w' hx => ?_⟩
  cases hx with
  | ret =>
    rw [List.append_nil]
    exact h

/-- One operation, then the rest of a program. -/
theorem ends_call {op : I.Op} {k : I.Ans op → Prog I β}
    (h : ∀ x w', M.act w op x w' → Ends M (k x) Q (tr ++ [⟨w, op, x, w'⟩]) w') :
    Ends M (.call op k) Q tr w := by
  refine ⟨fun tr' b w' hx => ?_⟩
  obtain ⟨x, w₁, tr₁, ha, rfl, hk⟩ := Exec.of_call hx
  have hq := (h x w₁ ha).holds tr₁ b w' hk
  rwa [List.append_assoc, List.singleton_append] at hq

/-- **One operation.** -/
theorem ends_perform {op : I.Op} {Q : I.Ans op → List (Event M) → M.World → Prop}
    (h : ∀ x w', M.act w op x w' → Q x (tr ++ [⟨w, op, x, w'⟩]) w') :
    Ends M (Prog.perform op) Q tr w :=
  ends_call fun x w' ha => ends_pure (h x w' ha)

/-- **Consequence.** -/
theorem Ends.mono {Q' : β → List (Event M) → M.World → Prop} {p : Prog I β}
    (h : Ends M p Q tr w) (hQ : ∀ a tr w, Q a tr w → Q' a tr w) : Ends M p Q' tr w :=
  ⟨fun tr' a w' hx => hQ a _ w' (h.holds tr' a w' hx)⟩

/-- Two things that are left. -/
theorem Ends.and {Q' : β → List (Event M) → M.World → Prop} {p : Prog I β}
    (h : Ends M p Q tr w) (h' : Ends M p Q' tr w) :
    Ends M p (fun a tr w => Q a tr w ∧ Q' a tr w) tr w :=
  ⟨fun tr' a w' hx => ⟨h.holds tr' a w' hx, h'.holds tr' a w' hx⟩⟩

/-- A trace only grows. -/
theorem Ends.extends {p : Prog I β} (h : Ends M p Q tr w) :
    Ends M p (fun a tr' w' => Q a tr' w' ∧ ∃ t, tr' = tr ++ t) tr w :=
  ⟨fun tr' a w' hx => ⟨h.holds tr' a w' hx, tr', rfl⟩⟩

/-- **Sequencing.** -/
theorem ends_bind {p : Prog I α} {f : α → Prog I β}
    (h : Ends M p (fun a tr' w' => Ends M (f a) Q tr' w') tr w) :
    Ends M (p >>= f) Q tr w := by
  refine ⟨fun tr' b w' hx => ?_⟩
  obtain ⟨tr₁, tr₂, a, w₁, rfl, h₁, h₂⟩ := Exec.of_bind hx
  rw [← List.append_assoc]
  exact (h.holds tr₁ a w₁ h₁).holds tr₂ b w' h₂

end Rules

/-! ## 2. The error channel -/

section Errors

variable {Q : Except ε β → List (Event M) → M.World → Prop} {tr : List (Event M)} {w : M.World}

/-- What is left to show of a program after its first part answered. -/
def Next (M : Machine I) (f : α → Fallible I ε β)
    (Q : Except ε β → List (Event M) → M.World → Prop) :
    Except ε α → List (Event M) → M.World → Prop
  | .ok a, tr, w => Ends M (f a).run Q tr w
  | .error e, tr, w => Q (.error e) tr w

/-- **Sequencing with errors.** -/
theorem ends_bindE {p : Fallible I ε α} {f : α → Fallible I ε β}
    (h : Ends M p.run (Next M f Q) tr w) : Ends M (p >>= f).run Q tr w := by
  refine ends_bind (p := p.run) (f := ExceptT.bindCont f) (h.mono fun r tr' w' hr => ?_)
  cases r with
  | ok a => exact hr
  | error e => exact ends_pure hr

theorem ends_throw {e : ε} (h : Q (.error e) tr w) :
    Ends M (throw e : Fallible I ε β).run Q tr w := ends_pure h

/-- A program without errors inside one with. -/
theorem ends_lift {p : Prog I β} (h : Ends M p (fun a tr w => Q (.ok a) tr w) tr w) :
    Ends M (ExceptT.lift p : Fallible I ε β).run Q tr w :=
  ends_bind (p := p) (f := fun a => Prog.ret (Except.ok a)) (h.mono fun _ _ _ => ends_pure)

end Errors

/-! ## 3. Harmless operations -/

/-- **All operations of a program** are among those of `T`. -/
def Prog.Uses (T : I.Op → Prop) : Prog I α → Prop
  | .ret _ => True
  | .call op k => T op ∧ ∀ x, (k x).Uses T

section Uses

variable {T : I.Op → Prop}

theorem uses_perform {op : I.Op} (h : T op) : (Prog.perform op : Prog I (I.Ans op)).Uses T :=
  ⟨h, fun _ => trivial⟩

theorem uses_bind {p : Prog I α} {f : α → Prog I β} (hp : p.Uses T) (hf : ∀ a, (f a).Uses T) :
    (p >>= f).Uses T := by
  rw [Prog.bind_eq]
  induction p with
  | ret a => exact hf a
  | call op k ih => exact ⟨hp.1, fun x => ih x (hp.2 x)⟩

theorem uses_bindE {p : Fallible I ε α} {f : α → Fallible I ε β} (hp : p.run.Uses T)
    (hf : ∀ a, (f a).run.Uses T) : (p >>= f).run.Uses T := by
  refine uses_bind (p := p.run) (f := ExceptT.bindCont f) hp fun r => ?_
  cases r with
  | ok a => exact hf a
  | error e => exact trivial

theorem uses_lift {p : Prog I α} (h : p.Uses T) :
    (ExceptT.lift p : Fallible I ε α).run.Uses T :=
  uses_bind (p := p) (f := fun a => Prog.ret (Except.ok (ε := ε) a)) h fun _ => trivial

/-- **What every operation of `T` keeps, a program of them keeps.** -/
theorem ends_of_uses {J : List (Event M) → M.World → Prop}
    (hJ : ∀ tr w op x w', T op → M.act w op x w' → J tr w → J (tr ++ [⟨w, op, x, w'⟩]) w')
    {p : Prog I α} (hp : p.Uses T) {tr : List (Event M)} {w : M.World} (h : J tr w) :
    Ends M p (fun _ => J) tr w := by
  induction p generalizing tr w with
  | ret a => exact ends_pure h
  | call op k ih => exact ends_call fun x w' ha => ih x (hp.2 x) (hJ _ _ _ _ _ hp.1 ha h)

end Uses

end Library
