/-
  File:      Library/Guarantee.lean
  Subject:   WHAT EVERY STEP OF A PROGRAM GUARANTEES, whether or not the run is killed.

  `Ensures M G C p Q w`: from the world `w`, every operation `p` completes is an event of `G`,
  whatever a kill inside an operation leaves behind is related by `C`, and a value `p` returns
  satisfies `Q`. The predicate is computed from the program, one conjunct per operation, so a proof
  of it follows the program's text.

  * `ensures_bind`, `ensures_bindE` -- sequencing, with and without an error channel;
  * `Ensures.mono` -- consequence;
  * `Exec.induct` -- from `Ensures` to a run: an invariant that every event of `G` and every cut of
    `C` preserves holds at the end of the run, killed or not.
-/
import Sn46Validator.Library.Program

namespace Library

variable {I : Interface} {M : Machine I} {α β ε : Type}

/-- **The guarantee of a program** from the world `w`. -/
def Ensures (M : Machine I) (G : Event M → Prop) (C : M.World → M.World → Prop) :
    Prog I α → (α → M.World → Prop) → M.World → Prop
  | .ret a, Q, w => Q a w
  | .call op k, Q, w =>
    (∀ w', M.cut w op w' → C w w') ∧
    ∀ x w', M.act w op x w' → G ⟨w, op, x, w'⟩ ∧ Ensures M G C (k x) Q w'

section Rules

variable {G G' : Event M → Prop} {C C' : M.World → M.World → Prop}

@[simp] theorem ensures_ret {a : α} {Q : α → M.World → Prop} {w : M.World} :
    Ensures M G C (.ret a) Q w ↔ Q a w := Iff.rfl

@[simp] theorem ensures_pure {a : α} {Q : α → M.World → Prop} {w : M.World} :
    Ensures M G C (pure a : Prog I α) Q w ↔ Q a w := Iff.rfl

theorem ensures_call {op : I.Op} {k : I.Ans op → Prog I α} {Q : α → M.World → Prop} {w : M.World} :
    Ensures M G C (.call op k) Q w ↔
      (∀ w', M.cut w op w' → C w w') ∧
      ∀ x w', M.act w op x w' → G ⟨w, op, x, w'⟩ ∧ Ensures M G C (k x) Q w' := Iff.rfl

theorem ensures_perform {op : I.Op} {Q : I.Ans op → M.World → Prop} {w : M.World} :
    Ensures M G C (Prog.perform op) Q w ↔
      (∀ w', M.cut w op w' → C w w') ∧
      ∀ x w', M.act w op x w' → G ⟨w, op, x, w'⟩ ∧ Q x w' := Iff.rfl

/-- **Sequencing.** -/
theorem ensures_bind {p : Prog I α} {f : α → Prog I β} {Q : β → M.World → Prop} {w : M.World} :
    Ensures M G C (p >>= f) Q w ↔ Ensures M G C p (fun a w' => Ensures M G C (f a) Q w') w := by
  rw [Prog.bind_eq]
  induction p generalizing w with
  | ret a => exact Iff.rfl
  | call op k ih =>
    rw [Prog.bind_call, ensures_call, ensures_call]
    refine and_congr Iff.rfl (forall_congr' fun x => forall_congr' fun w' => ?_)
    exact imp_congr Iff.rfl (and_congr Iff.rfl (ih x))

theorem ensures_map {p : Prog I α} {f : α → β} {Q : β → M.World → Prop} {w : M.World} :
    Ensures M G C (f <$> p) Q w ↔ Ensures M G C p (fun a w' => Q (f a) w') w :=
  ensures_bind (p := p) (f := fun a => Prog.ret (f a))

/-- **Consequence.** -/
theorem Ensures.mono {p : Prog I α} {Q Q' : α → M.World → Prop} {w : M.World}
    (h : Ensures M G C p Q w) (hG : ∀ e, G e → G' e) (hC : ∀ w w', C w w' → C' w w')
    (hQ : ∀ a w, Q a w → Q' a w) : Ensures M G' C' p Q' w := by
  induction p generalizing w with
  | ret a => exact hQ a w h
  | call op k ih =>
    refine ⟨fun w' hc => hC _ _ (h.1 w' hc), fun x w' ha => ?_⟩
    obtain ⟨hg, hk⟩ := h.2 x w' ha
    exact ⟨hG _ hg, ih x hk⟩

/-- A stronger postcondition. -/
theorem Ensures.post {p : Prog I α} {Q Q' : α → M.World → Prop} {w : M.World}
    (h : Ensures M G C p Q w) (hQ : ∀ a w, Q a w → Q' a w) : Ensures M G C p Q' w :=
  h.mono (fun _ he => he) (fun _ _ hc => hc) hQ

/-! ## The error channel -/

/-- What is left to show after the first part of a fallible program answered `r`. -/
def After (M : Machine I) (G : Event M → Prop) (C : M.World → M.World → Prop)
    (f : α → Fallible I ε β) (Q : Except ε β → M.World → Prop) : Except ε α → M.World → Prop
  | .ok a, w => Ensures M G C (f a).run Q w
  | .error e, w => Q (.error e) w

@[simp] theorem after_ok {f : α → Fallible I ε β} {Q : Except ε β → M.World → Prop} {a : α}
    {w : M.World} : After M G C f Q (.ok a) w ↔ Ensures M G C (f a).run Q w := Iff.rfl

@[simp] theorem after_error {f : α → Fallible I ε β} {Q : Except ε β → M.World → Prop} {e : ε}
    {w : M.World} : After M G C f Q (.error e) w ↔ Q (.error e) w := Iff.rfl

/-- **Sequencing with errors**: an error of the first part is the error of the whole. -/
theorem ensures_bindE {p : Fallible I ε α} {f : α → Fallible I ε β}
    {Q : Except ε β → M.World → Prop} {w : M.World} :
    Ensures M G C (p >>= f).run Q w ↔ Ensures M G C p.run (After M G C f Q) w := by
  refine (ensures_bind (p := p.run)).trans ?_
  have e : (fun r w' => Ensures M G C (ExceptT.bindCont f r) Q w') = After M G C f Q := by
    funext r w'
    cases r <;> rfl
  rw [← e]

@[simp] theorem ensures_pureE {a : α} {Q : Except ε α → M.World → Prop} {w : M.World} :
    Ensures M G C (pure a : Fallible I ε α).run Q w ↔ Q (.ok a) w := Iff.rfl

@[simp] theorem ensures_throwE {e : ε} {Q : Except ε α → M.World → Prop} {w : M.World} :
    Ensures M G C (throw e : Fallible I ε α).run Q w ↔ Q (.error e) w := Iff.rfl

/-- A program without errors inside one with. -/
theorem ensures_liftE {p : Prog I α} {Q : Except ε α → M.World → Prop} {w : M.World} :
    Ensures M G C (ExceptT.lift p : Fallible I ε α).run Q w ↔
      Ensures M G C p (fun a w' => Q (.ok a) w') w :=
  ensures_map (p := p)

/-- An operation that can fail, and what comes next. -/
theorem ensures_attempt {op : I.Op} {r : I.Ans op → Except ε α} {k : α → Fallible I ε β}
    {Q : Except ε β → M.World → Prop} {w : M.World} (hcut : ∀ w', M.cut w op w' → C w w')
    (hG : ∀ x w', M.act w op x w' → G ⟨w, op, x, w'⟩)
    (herr : ∀ x w' e, M.act w op x w' → r x = .error e → Q (.error e) w')
    (hok : ∀ x w' a, M.act w op x w' → r x = .ok a → Ensures M G C (k a).run Q w') :
    Ensures M G C
      (ExceptT.lift (Prog.perform op) >>= fun x => Fallible.ofExcept (r x) >>= k).run Q w := by
  rw [ensures_bindE, ensures_liftE, ensures_perform]
  refine ⟨hcut, fun x w' ha => ⟨hG x w' ha, ?_⟩⟩
  cases hr : r x with
  | ok a =>
    rw [after_ok, hr]
    exact hok x w' a ha hr
  | error e =>
    rw [after_ok, hr]
    exact herr x w' e ha hr

/-- An operation that can fail, at the end. -/
theorem ensures_answer {op : I.Op} {r : I.Ans op → Except ε α} {Q : Except ε α → M.World → Prop}
    {w : M.World} (hcut : ∀ w', M.cut w op w' → C w w')
    (hG : ∀ x w', M.act w op x w' → G ⟨w, op, x, w'⟩)
    (hQ : ∀ x w', M.act w op x w' → Q (r x) w') :
    Ensures M G C (ExceptT.lift (Prog.perform op) >>= fun x => Fallible.ofExcept (r x)).run Q w := by
  rw [ensures_bindE, ensures_liftE, ensures_perform]
  exact ⟨hcut, fun x w' ha => ⟨hG x w' ha, hQ x w' ha⟩⟩

/-! ## From guarantees to runs -/

/-- **Induction along a run.** `P tr w`: an invariant of the world `w` after the events `tr`. -/
theorem Exec.induct {P : List (Event M) → M.World → Prop}
    (step : ∀ tr e, G e → P tr e.before → P (tr ++ [e]) e.after)
    (cut : ∀ tr w w', C w w' → P tr w → P tr w')
    {p : Prog I α} {Q : α → M.World → Prop} {w w' : M.World} {tr t : List (Event M)}
    {o : Option α} (h : Exec M w p tr o w') (hE : Ensures M G C p Q w) (h₀ : P t w) :
    P (t ++ tr) w' := by
  induction h generalizing t with
  | ret w a => simpa using h₀
  | kill w p => simpa using h₀
  | cut k hc => simpa using cut _ _ _ (hE.1 _ hc) h₀
  | call ha _ ih =>
    obtain ⟨hg, hk⟩ := hE.2 _ _ ha
    have h₁ := ih hk (step _ _ hg h₀)
    simpa using h₁

/-- **Every completed operation of a run meets the guarantee.** -/
theorem Exec.events {p : Prog I α} {Q : α → M.World → Prop} {w w' : M.World}
    {tr : List (Event M)} {o : Option α} (h : Exec M w p tr o w') (hE : Ensures M G C p Q w) :
    ∀ e ∈ tr, G e := by
  have hinv := Exec.induct (P := fun tr _ => ∀ e ∈ tr, G e) (t := [])
    (fun tr e hg hi e' he' => by
      rcases List.mem_append.mp he' with h | h
      · exact hi e' h
      · rw [List.mem_singleton.mp h]; exact hg)
    (fun _ _ _ _ hi => hi) h hE (fun _ he => absurd he List.not_mem_nil)
  simpa using hinv

/-- **A finished run meets the postcondition.** -/
theorem Exec.result {p : Prog I α} {Q : α → M.World → Prop} {w w' : M.World}
    {tr : List (Event M)} {a : α} (h : Exec M w p tr (some a) w') (hE : Ensures M G C p Q w) :
    Q a w' := by
  generalize ho : some a = o at h
  induction h with
  | ret w b => cases ho; exact hE
  | kill => cases ho
  | cut => cases ho
  | call ha _ ih => exact ih (hE.2 _ _ ha).2 ho

end Rules

end Library
