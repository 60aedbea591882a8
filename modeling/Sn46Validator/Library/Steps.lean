/-
  File:      Library/Steps.lean
  Subject:   RUNS OF A LABELLED STEP RELATION: what a component does, one named act after another.

  * `Steps R s₀ as s` -- the acts `as` lead from `s₀` to `s`;
  * `Steps.induct` -- the run rule: an invariant of the acts so far and of the state;
  * `Steps.append`, `Steps.split` -- two runs in a row, and a run cut in two;
  * `Steps.ranked` -- **a ranked kind of act is rare**: where every act of the kind lowers a rank
    that no act raises, a run has no more of them than the rank it starts with;
  * `OpStep`, `Steps.exec`, `Exec.steps` -- a program one operation at a time: what was done so far
    and a run of the rest are a run of the whole, and a finished run is made so.
-/
import Mathlib.Data.List.Induction
import Sn46Validator.Library.Program

namespace Library

/-- **Runs**: `R a s s'` is the act `a` taken in `s`, leaving `s'`. -/
inductive Steps {A S : Type} (R : A → S → S → Prop) (s₀ : S) : List A → S → Prop where
  | nil : Steps R s₀ [] s₀
  | snoc {as : List A} {s s' : S} {a : A} (h : Steps R s₀ as s) (hs : R a s s') :
      Steps R s₀ (as ++ [a]) s'

section

variable {A S : Type} {R : A → S → S → Prop} {s₀ s s' : S} {as bs : List A}

/-- **The run rule.** -/
theorem Steps.induct {P : List A → S → Prop} (h : Steps R s₀ as s) (h₀ : P [] s₀)
    (step : ∀ as a s s', P as s → R a s s' → P (as ++ [a]) s') : P as s := by
  induction h with
  | nil => exact h₀
  | snoc _ hs ih => exact step _ _ _ _ ih hs

theorem Steps.one {a : A} (h : R a s s') : Steps R s [a] s' := by
  simpa using Steps.nil.snoc h

/-- **Two runs in a row.** -/
theorem Steps.append (h : Steps R s₀ as s) (h' : Steps R s bs s') : Steps R s₀ (as ++ bs) s' := by
  induction h' with
  | nil => simpa using h
  | snoc _ hs ih =>
    rw [← List.append_assoc]
    exact .snoc ih hs

/-- **A run cut in two.** -/
theorem Steps.split (h : Steps R s₀ (as ++ bs) s) :
    ∃ s₁, Steps R s₀ as s₁ ∧ Steps R s₁ bs s := by
  induction bs using List.reverseRecOn generalizing s with
  | nil => exact ⟨s, by simpa using h, .nil⟩
  | append_singleton bs b ih =>
    rw [← List.append_assoc] at h
    generalize hc : as ++ bs ++ [b] = cs at h
    cases h with
    | nil => exact absurd hc (by simp)
    | snoc h hs =>
      obtain ⟨rfl, hb⟩ := List.append_inj' hc rfl
      obtain rfl := (List.cons.inj hb).1
      obtain ⟨s₁, h₁, h₂⟩ := ih h
      exact ⟨s₁, h₁, .snoc h₂ hs⟩

/-- **A ranked kind of act is rare.** -/
theorem Steps.ranked (I : S → Prop) (c : A → Bool) (rank : S → ℕ) (h : Steps R s₀ as s)
    (h₀ : I s₀)
    (step : ∀ a s s', I s → R a s s' → I s' ∧ rank s' + (if c a then 1 else 0) ≤ rank s) :
    I s ∧ rank s + as.countP c ≤ rank s₀ := by
  induction h with
  | nil => exact ⟨h₀, by simp⟩
  | @snoc as s s' a _ hs ih =>
    obtain ⟨hI, hr⟩ := step a s s' ih.1 hs
    refine ⟨hI, ?_⟩
    rw [List.countP_append, List.countP_singleton]
    have hle := ih.2
    omega

end

/-! ## Programs, one operation at a time -/

/-- **One operation** of a program. -/
inductive OpStep {I : Interface} (M : Machine I) {α : Type} :
    Event M → Prog I α × M.World → Prog I α × M.World → Prop where
  | call {w w' : M.World} {op : I.Op} {x : I.Ans op} {k : I.Ans op → Prog I α}
      (ha : M.act w op x w') : OpStep M ⟨w, op, x, w'⟩ (.call op k, w) (k x, w')

/-- **What was done, then a run of the rest**, is a run of the whole. -/
theorem Steps.exec {I : Interface} {M : Machine I} {α : Type} {p p' : Prog I α}
    {w w' w'' : M.World} {tr tr' : List (Event M)} {o : Option α}
    (h : Steps (OpStep M) (p, w) tr (p', w')) (hx : Exec M w' p' tr' o w'') :
    Exec M w p (tr ++ tr') o w'' := by
  generalize hq : (p', w') = q at h
  induction h generalizing p' w' tr' with
  | nil =>
    obtain ⟨rfl, rfl⟩ := Prod.mk.inj hq
    exact hx
  | snoc _ hs ih =>
    cases hs with
    | call ha =>
      obtain ⟨rfl, rfl⟩ := Prod.mk.inj hq
      rw [List.append_assoc]
      exact ih (.call ha hx) rfl

/-- **A finished run**, one operation at a time. -/
theorem Exec.steps {I : Interface} {M : Machine I} {α : Type} {p : Prog I α} {w w' : M.World}
    {tr : List (Event M)} {a : α} (h : Exec M w p tr (some a) w') :
    Steps (OpStep M) (p, w) tr (.ret a, w') := by
  induction p generalizing w tr with
  | ret b =>
    cases h
    exact .nil
  | call op k ih =>
    obtain ⟨x, w₁, tr', ha, rfl, hk⟩ := Exec.of_call h
    exact (Steps.one (.call ha)).append (ih x hk)

end Library
