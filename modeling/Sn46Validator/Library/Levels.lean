/-
  File:      Library/Levels.lean
  Subject:   A PROGRAM ON TWO LEVELS: one over fine operations does what one over coarse operations may.

  * `Implements R Q p p' w w'` -- **every run of the fine program `p` from `w` is one of the coarse
    program `p'` from `w'`**, killed or not: the worlds they leave are related by `R`, what they return
    by `Q`;
  * `implements_ret`, `implements_bind`, `implements_bindE` -- both return, or go on after related
    values;
  * `implements_fine`, `implements_coarse` -- only one of them takes an operation; where the fine one
    is killed inside, `Catches` says that the coarse one can be killed too.
-/
import Sn46Validator.Library.Program

namespace Library

variable {I I' : Interface} {M : Machine I} {M' : Machine I'} {α β α' β' ε ε' : Type}

/-! ## 1. Runs of a sequence -/

/-- A run of both parts: killed in the first, or in what comes next. -/
theorem Exec.bind_cases {w w'' : M.World} {p : Prog I α} {f : α → Prog I β}
    {tr : List (Event M)} {o : Option β} (h : Exec M w (p.bind f) tr o w'') :
    (o = none ∧ Exec M w p tr none w'') ∨ ∃ tr₁ tr₂ a w', tr = tr₁ ++ tr₂ ∧
      Exec M w p tr₁ (some a) w' ∧ Exec M w' (f a) tr₂ o w'' := by
  induction p generalizing w tr with
  | ret a => exact .inr ⟨[], tr, a, w, rfl, .ret w a, h⟩
  | call op k ih =>
    cases h with
    | kill => exact .inl ⟨rfl, .kill _ _⟩
    | cut _ hc => exact .inl ⟨rfl, .cut _ hc⟩
    | call ha hk =>
      obtain ⟨rfl, hp⟩ | ⟨tr₁, tr₂, a, w', rfl, h₁, h₂⟩ := ih _ hk
      · exact .inl ⟨rfl, .call ha hp⟩
      · exact .inr ⟨_ :: tr₁, tr₂, a, w', rfl, .call ha h₁, h₂⟩

/-- A killed first part. -/
theorem Exec.bind_killed {w w' : M.World} {p : Prog I α} {f : α → Prog I β}
    {tr : List (Event M)} (h : Exec M w p tr none w') : Exec M w (p.bind f) tr none w' := by
  induction p generalizing w tr with
  | ret a =>
    cases h
    exact .kill _ _
  | call op k ih =>
    cases h with
    | kill => exact .kill _ _
    | cut _ hc => exact .cut _ hc
    | call ha hk => exact .call ha (ih _ hk)

/-- A finished first part, and a run of what comes next. -/
theorem Exec.bind_done {w w' w'' : M.World} {p : Prog I α} {f : α → Prog I β} {a : α}
    {tr₁ tr₂ : List (Event M)} {o : Option β} (h : Exec M w p tr₁ (some a) w')
    (h' : Exec M w' (f a) tr₂ o w'') : Exec M w (p.bind f) (tr₁ ++ tr₂) o w'' := by
  induction p generalizing w tr₁ with
  | ret b =>
    cases h
    exact h'
  | call op k ih =>
    obtain ⟨x, w₁, tr, ha, rfl, hk⟩ := Exec.of_call h
    exact .call ha (ih x hk)

/-! ## 2. One level over another -/

/-- What two runs return: nothing, or related values. -/
def Returns (Q : α → α' → Prop) : Option α → Option α' → Prop
  | none, none => True
  | some a, some a' => Q a a'
  | _, _ => False

/-- **Every run of the fine program is one of the coarse program.** -/
structure Implements (R : M.World → M'.World → Prop) (Q : α → α' → Prop) (p : Prog I α)
    (p' : Prog I' α') (w : M.World) (w' : M'.World) : Prop where
  runs : ∀ (tr : List (Event M)) (o : Option α) (w₁ : M.World), Exec M w p tr o w₁ →
    ∃ tr' o' w₁', Exec M' w' p' tr' o' w₁' ∧ R w₁ w₁' ∧ Returns Q o o'

/-- Where the fine program is killed, leaving `w`, the coarse one can be killed. -/
def Catches (R : M.World → M'.World → Prop) (w : M.World) (p' : Prog I' α') (w' : M'.World) : Prop :=
  ∃ tr' w₁', Exec M' w' p' tr' none w₁' ∧ R w w₁'

section Rules

variable {R : M.World → M'.World → Prop} {Q : α → α' → Prop} {w : M.World} {w' : M'.World}

theorem catches_now {p' : Prog I' α'} (h : R w w') : Catches R w p' w' := ⟨[], w', .kill w' p', h⟩

/-- **Both return.** -/
theorem implements_ret {a : α} {a' : α'} (hR : R w w') (hQ : Q a a') :
    @Implements I I' M M' _ _ R Q (.ret a) (.ret a') w w' := by
  refine ⟨fun tr o w₁ h => ?_⟩
  cases h with
  | ret => exact ⟨[], some a', w', .ret w' a', hR, hQ⟩
  | kill => exact ⟨[], none, w', .kill w' _, hR, trivial⟩

/-- **The fine program takes an operation.** -/
theorem implements_fine {op : I.Op} {k : I.Ans op → Prog I α} {p' : Prog I' α'}
    (hkill : Catches R w p' w') (hcut : ∀ w₁, M.cut w op w₁ → Catches R w₁ p' w')
    (hact : ∀ x w₁, M.act w op x w₁ → Implements R Q (k x) p' w₁ w') :
    Implements R Q (.call op k) p' w w' := by
  refine ⟨fun tr o w₁ h => ?_⟩
  cases h with
  | kill =>
    obtain ⟨tr', w₁', hx, hR⟩ := hkill
    exact ⟨tr', none, w₁', hx, hR, trivial⟩
  | cut _ hc =>
    obtain ⟨tr', w₁', hx, hR⟩ := hcut w₁ hc
    exact ⟨tr', none, w₁', hx, hR, trivial⟩
  | call ha hk => exact (hact _ _ ha).runs _ _ _ hk

/-- **The coarse program takes an operation.** -/
theorem implements_coarse {op : I'.Op} {k : I'.Ans op → Prog I' α'} {p : Prog I α} {x : I'.Ans op}
    {w₁' : M'.World} (ha : M'.act w' op x w₁') (h : Implements R Q p (k x) w w₁') :
    Implements R Q p (.call op k) w w' := by
  refine ⟨fun tr o w₁ hx => ?_⟩
  obtain ⟨tr', o', w₂', hx', hR, ho⟩ := h.runs tr o w₁ hx
  exact ⟨_ :: tr', o', w₂', .call ha hx', hR, ho⟩

/-- **Sequencing.** -/
theorem implements_bind {Q' : β → β' → Prop} {p : Prog I α} {p' : Prog I' α'}
    {f : α → Prog I β} {f' : α' → Prog I' β'} (hp : Implements R Q p p' w w')
    (hf : ∀ a a' w₁ w₁', Q a a' → R w₁ w₁' → Implements R Q' (f a) (f' a') w₁ w₁') :
    Implements R Q' (p >>= f) (p' >>= f') w w' := by
  refine ⟨fun tr o w₁ h => ?_⟩
  obtain ⟨rfl, hx⟩ | ⟨tr₁, tr₂, a, w₂, rfl, h₁, h₂⟩ := Exec.bind_cases h
  · obtain ⟨tr', o', w₁', hx', hR, ho⟩ := hp.runs _ _ _ hx
    cases o' with
    | none => exact ⟨tr', none, w₁', Exec.bind_killed hx', hR, trivial⟩
    | some a' => exact ho.elim
  · obtain ⟨tr', o', w₂', hx', hR, ho⟩ := hp.runs _ _ _ h₁
    cases o' with
    | none => exact ho.elim
    | some a' =>
      obtain ⟨tr'', o'', w₁', hx'', hR', ho'⟩ := (hf a a' w₂ w₂' ho hR).runs _ _ _ h₂
      exact ⟨tr' ++ tr'', o'', w₁', Exec.bind_done hx' hx'', hR', ho'⟩

/-- Related values, or errors on both sides. -/
def BothOr (Q : α → α' → Prop) (E : ε → ε' → Prop) : Except ε α → Except ε' α' → Prop
  | .ok a, .ok a' => Q a a'
  | .error e, .error e' => E e e'
  | _, _ => False

/-- **Sequencing with errors**: an error of the first part ends both. -/
theorem implements_bindE {Q' : β → β' → Prop} {E : ε → ε' → Prop} {p : Fallible I ε α}
    {p' : Fallible I' ε' α'} {f : α → Fallible I ε β} {f' : α' → Fallible I' ε' β'}
    (hp : Implements R (BothOr Q E) p.run p'.run w w')
    (hf : ∀ a a' w₁ w₁', Q a a' → R w₁ w₁' →
      Implements R (BothOr Q' E) (f a).run (f' a').run w₁ w₁') :
    Implements R (BothOr Q' E) (p >>= f).run (p' >>= f').run w w' := by
  show Implements R (BothOr Q' E) (p.run >>= ExceptT.bindCont f) (p'.run >>= ExceptT.bindCont f') w w'
  refine implements_bind hp fun r r' w₁ w₁' hr hR => ?_
  cases r with
  | ok a =>
    cases r' with
    | ok a' => exact hf a a' w₁ w₁' hr hR
    | error e' => exact hr.elim
  | error e =>
    cases r' with
    | ok a' => exact hr.elim
    | error e' => exact implements_ret hR hr

/-- Programs without errors inside ones with. -/
theorem implements_lift {E : ε → ε' → Prop} {p : Prog I α} {p' : Prog I' α'}
    (hp : Implements R Q p p' w w') : Implements R (BothOr Q E)
      (ExceptT.lift p : Fallible I ε α).run (ExceptT.lift p' : Fallible I' ε' α').run w w' := by
  show Implements R (BothOr Q E) (p >>= fun a => Prog.ret (Except.ok a))
    (p' >>= fun a => Prog.ret (Except.ok a)) w w'
  exact implements_bind hp fun _ _ _ _ hQ hR => implements_ret hR hQ

/-- The fine program takes an operation, with what follows it. -/
theorem implements_fineE {Q : Except ε β → α' → Prop} {op : I.Op} {f : I.Ans op → Fallible I ε β}
    {p' : Prog I' α'} (hkill : Catches R w p' w')
    (hcut : ∀ w₁, M.cut w op w₁ → Catches R w₁ p' w')
    (hact : ∀ x w₁, M.act w op x w₁ → Implements R Q (f x).run p' w₁ w') :
    Implements R Q (ExceptT.lift (Prog.perform op) >>= f).run p' w w' :=
  implements_fine hkill hcut hact

/-- The coarse program takes an operation, with what follows it. -/
theorem implements_coarseE {Q : α → Except ε' β' → Prop} {op : I'.Op}
    {f' : I'.Ans op → Fallible I' ε' β'} {p : Prog I α} {x : I'.Ans op} {w₁' : M'.World}
    (ha : M'.act w' op x w₁') (h : Implements R Q p (f' x).run w w₁') :
    Implements R Q p (ExceptT.lift (Prog.perform op) >>= f').run w w' :=
  implements_coarse ha h

end Rules

end Library
