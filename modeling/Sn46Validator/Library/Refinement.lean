/-
  File:      Library/Refinement.lean
  Subject:   PROGRAMS THAT REFINE AN ABSTRACT TRANSITION SYSTEM, killed or not.

  * `Simulation M D` -- an abstraction of the machine `M`: the abstract state of a world, the steps
    that completed operations may be, and what a kill inside an operation may leave;
  * `Refines S p Q d` -- from the abstract state `d`, every operation `p` completes is a step of the
    abstraction, a kill leaves a torn state, and what `p` returns satisfies `Q`;
  * `refines_bind`, `refines_bindE`, `refines_op` -- the rules, one for each way to build a program;
  * `OnOk`, `refines_then` -- the same where an error may leave anything;
  * `refines_of_uses` -- a program of harmless operations.
-/
import Sn46Validator.Library.Ends
import Sn46Validator.Library.Guarantee

namespace Library

variable {I : Interface}

/-- **An abstraction of a machine.** -/
structure Simulation (M : Machine I) (D : Type) where
  view : M.World → D
  step : (op : I.Op) → I.Ans op → D → D → Prop
  torn : D → D → Prop

/-- **A program refines an abstraction** from the abstract state `d`. -/
structure Refines {M : Machine I} {D : Type} (S : Simulation M D) {α : Type} (p : Prog I α)
    (Q : α → D → Prop) (d : D) : Prop where
  ensures : ∀ w, S.view w = d →
    Ensures M (fun e => S.step e.op e.ans (S.view e.before) (S.view e.after))
      (fun w w' => S.torn (S.view w) (S.view w')) p (fun a w' => Q a (S.view w')) w

section Rules

variable {M : Machine I} {D : Type} {S : Simulation M D} {α β ε : Type} {d : D}

theorem refines_pure {a : α} {Q : α → D → Prop} (h : Q a d) : Refines S (pure a) Q d := by
  refine ⟨fun w hw => ?_⟩
  rw [← hw] at h
  exact h

/-- **Consequence.** -/
theorem refines_mono {p : Prog I α} {Q Q' : α → D → Prop} (h : Refines S p Q d)
    (hQ : ∀ a d, Q a d → Q' a d) : Refines S p Q' d :=
  ⟨fun w hw => (h.ensures w hw).post fun a w' => hQ a (S.view w')⟩

/-- **Sequencing.** -/
theorem refines_bind {p : Prog I α} {f : α → Prog I β} {Q : β → D → Prop}
    (h : Refines S p (fun a d' => Refines S (f a) Q d') d) : Refines S (p >>= f) Q d := by
  refine ⟨fun w hw => ?_⟩
  rw [ensures_bind]
  exact (h.ensures w hw).post fun a w' h' => h'.ensures w' rfl

/-- **One operation.** -/
theorem refines_op {op : I.Op} {Q : I.Ans op → D → Prop}
    (hcut : ∀ w w', S.view w = d → M.cut w op w' → S.torn d (S.view w'))
    (hact : ∀ w x w', S.view w = d → M.act w op x w' →
      S.step op x d (S.view w') ∧ Q x (S.view w')) :
    Refines S (Prog.perform op) Q d := by
  refine ⟨fun w hw => ?_⟩
  rw [ensures_perform]
  refine ⟨fun w' h => ?_, fun x w' h => ?_⟩
  · rw [hw]
    exact hcut w w' hw h
  · show S.step op x (S.view w) (S.view w') ∧ Q x (S.view w')
    rw [hw]
    exact hact w x w' hw h

/-- **A program of harmless operations**: each is a step and keeps `J`. -/
theorem refines_of_uses {T : I.Op → Prop} {J : D → Prop}
    (hcut : ∀ w op w', T op → J (S.view w) → M.cut w op w' → S.torn (S.view w) (S.view w'))
    (hact : ∀ w op x w', T op → J (S.view w) → M.act w op x w' →
      S.step op x (S.view w) (S.view w') ∧ J (S.view w'))
    {p : Prog I α} (hp : p.Uses T) (hd : J d) : Refines S p (fun _ => J) d := by
  refine ⟨fun w hw => ?_⟩
  subst hw
  induction p generalizing w with
  | ret a => exact hd
  | call op k ih =>
    refine ⟨fun w' hc => hcut w op w' hp.1 hd hc, fun x w' ha => ?_⟩
    obtain ⟨hs, hJ⟩ := hact w op x w' hp.1 hd ha
    exact ⟨hs, ih x (hp.2 x) w' hJ⟩

/-! ## The error channel -/

/-- What is left to show of a program after its first part answered. -/
def Rest (S : Simulation M D) (f : α → Fallible I ε β) (Q : Except ε β → D → Prop) :
    Except ε α → D → Prop
  | .ok a, d => Refines S (f a).run Q d
  | .error e, d => Q (.error e) d

theorem rest_ok {f : α → Fallible I ε β} {Q : Except ε β → D → Prop} {a : α} :
    Rest S f Q (.ok a) d ↔ Refines S (f a).run Q d := Iff.rfl

/-- **Sequencing with errors.** -/
theorem refines_bindE {p : Fallible I ε α} {f : α → Fallible I ε β} {Q : Except ε β → D → Prop}
    (h : Refines S p.run (Rest S f Q) d) : Refines S (p >>= f).run Q d := by
  refine ⟨fun w hw => ?_⟩
  rw [ensures_bindE]
  refine (h.ensures w hw).post fun r w' h' => ?_
  cases r with
  | ok a => exact h'.ensures w' rfl
  | error e => exact h'

theorem refines_pureE {a : α} {Q : Except ε α → D → Prop} (h : Q (.ok a) d) :
    Refines S (pure a : Fallible I ε α).run Q d := refines_pure h

theorem refines_throw {e : ε} {Q : Except ε α → D → Prop} (h : Q (.error e) d) :
    Refines S (throw e : Fallible I ε α).run Q d := refines_pure h

theorem refines_ofExcept {r : Except ε α} {Q : Except ε α → D → Prop} (h : Q r d) :
    Refines S (Fallible.ofExcept r : Fallible I ε α).run Q d := refines_pure h

/-- A converted error. -/
theorem refines_mapError {ε' : Type} {f : ε → ε'} {p : Fallible I ε α}
    {Q : Except ε' α → D → Prop} (h : Refines S p.run (fun r d' => Q (r.mapError f) d') d) :
    Refines S (Fallible.mapError f p).run Q d :=
  refines_bind (refines_mono h fun _ _ => refines_pure)

/-- A program without errors inside one with. -/
theorem refines_lift {p : Prog I α} {Q : Except ε α → D → Prop}
    (h : Refines S p (fun a d' => Q (.ok a) d') d) :
    Refines S (ExceptT.lift p : Fallible I ε α).run Q d := by
  refine ⟨fun w hw => ?_⟩
  rw [ensures_liftE]
  exact h.ensures w hw

/-- What only a value, and no error, has to satisfy. -/
def OnOk (P : α → D → Prop) : Except ε α → D → Prop
  | .ok a, d => P a d
  | .error _, _ => True

/-- **Sequencing where an error may leave anything.** -/
theorem refines_then {p : Fallible I ε α} {f : α → Fallible I ε β} {P : α → D → Prop}
    {P' : β → D → Prop} (h : Refines S p.run (OnOk P) d)
    (hf : ∀ a d', P a d' → Refines S (f a).run (OnOk P') d') :
    Refines S (p >>= f).run (OnOk P') d := by
  refine refines_bindE (refines_mono h fun r d' hr => ?_)
  cases r with
  | ok a => exact hf a d' hr
  | error e => exact trivial

theorem refines_return {a : α} {P : α → D → Prop} (h : P a d) :
    Refines S (pure a : Fallible I ε α).run (OnOk P) d := refines_pureE h

theorem refines_fail {e : ε} {P : α → D → Prop} :
    Refines S (throw e : Fallible I ε α).run (OnOk P) d := refines_throw trivial

theorem refines_except {r : Except ε α} {P : α → D → Prop} (h : ∀ a, r = .ok a → P a d) :
    Refines S (Fallible.ofExcept r : Fallible I ε α).run (OnOk P) d := by
  cases r with
  | ok a => exact refines_ofExcept (h a rfl)
  | error e => exact refines_ofExcept trivial

/-- The error that is converted is an error before. -/
theorem refines_exceptMap {ε' : Type} {r : Except ε' α} {f : ε' → ε} {P : α → D → Prop}
    (h : ∀ a, r = .ok a → P a d) :
    Refines S (Fallible.ofExcept (r.mapError f) : Fallible I ε α).run (OnOk P) d := by
  cases r with
  | ok a => exact refines_ofExcept (h a rfl)
  | error e => exact refines_ofExcept trivial

theorem refines_convert {ε' : Type} {f : ε → ε'} {p : Fallible I ε α} {P : α → D → Prop}
    (h : Refines S p.run (OnOk P) d) : Refines S (Fallible.mapError f p).run (OnOk P) d := by
  refine refines_mapError (refines_mono h fun r d' hr => ?_)
  cases r with
  | ok a => exact hr
  | error e => exact trivial

end Rules

end Library
