/-
  File:      Library/Simulate.lean
  Subject:   ONE PROGRAM ON TWO MACHINES: every run on the one is a run on the other.

  The machine `M` knows more of the world than `M'` does; `R` says which worlds belong together.

  * `asked` -- what a trace shows of its worlds: the operations and their answers;
  * `Exec.simulate` -- **every run on `M` is a run on `M'`**, killed or not, with the same operations
    and answers and the same value;
  * `Exec.follow` -- the same by what is known of the operations of this run;
  * `ensures_act` -- every operation a program completes, or is killed in, is one of its machine.
-/
import Sn46Validator.Library.Guarantee

namespace Library

variable {I : Interface} {M : Machine I} {α : Type}

/-- **The operations of a trace and their answers.** -/
def asked (tr : List (Event M)) : List (Σ op : I.Op, I.Ans op) := tr.map fun e => ⟨e.op, e.ans⟩

/-- **Every run on the one machine is a run on the other**, where each completed operation that is
    guaranteed, and each cut of an operation that is, leaves related worlds. -/
theorem Exec.simulate (M' : Machine I) {R : M.World → M'.World → Prop} {G : Event M → Prop}
    {C : M.World → M.World → Prop}
    (act : ∀ w w' v op x, R w v → M.act w op x w' → G ⟨w, op, x, w'⟩ →
      ∃ v', M'.act v op x v' ∧ R w' v')
    (cut : ∀ w w' v op, R w v → M.cut w op w' → (∀ x w'', M.act w op x w'' → G ⟨w, op, x, w''⟩) →
      ∃ v', M'.cut v op v' ∧ R w' v')
    {p : Prog I α} {Q : α → M.World → Prop} {w w' : M.World} {v : M'.World} {tr : List (Event M)}
    {o : Option α} (h : Exec M w p tr o w') (hE : Ensures M G C p Q w) (hR : R w v) :
    ∃ tr' v', Exec M' v p tr' o v' ∧ asked tr' = asked tr ∧ R w' v' := by
  induction h generalizing v with
  | ret w a => exact ⟨[], v, .ret v a, rfl, hR⟩
  | kill w p => exact ⟨[], v, .kill v p, rfl, hR⟩
  | cut k hc =>
    obtain ⟨v', hv, hR'⟩ := cut _ _ v _ hR hc fun x w'' ha => (hE.2 x w'' ha).1
    exact ⟨[], v', .cut k hv, rfl, hR'⟩
  | call ha _ ih =>
    obtain ⟨hg, hk⟩ := hE.2 _ _ ha
    obtain ⟨v₁, hv, hR₁⟩ := act _ _ v _ _ hR ha hg
    obtain ⟨tr', v', hx, hasked, hR'⟩ := ih hk hR₁
    exact ⟨_ :: tr', v', .call hv hx, congrArg (List.cons _) hasked, hR'⟩

/-- **A run on the one machine is a run on the other**, by what is known of its operations. -/
theorem Exec.follow (M' : Machine I) {R : M.World → M'.World → Prop} {T : Event M → Prop}
    (act : ∀ w w' v op x, R w v → M.act w op x w' → T ⟨w, op, x, w'⟩ →
      ∃ v', M'.act v op x v' ∧ R w' v')
    (cut : ∀ w w' v op, R w v → M.cut w op w' → ∃ v', M'.cut v op v')
    {p : Prog I α} {w w' : M.World} {v : M'.World} {tr : List (Event M)} {o : Option α}
    (h : Exec M w p tr o w') (hT : ∀ e ∈ tr, T e) (hR : R w v) :
    ∃ tr' v', Exec M' v p tr' o v' ∧ asked tr' = asked tr := by
  induction h generalizing v with
  | ret w a => exact ⟨[], v, .ret v a, rfl⟩
  | kill w p => exact ⟨[], v, .kill v p, rfl⟩
  | cut k hc =>
    obtain ⟨v', hv⟩ := cut _ _ v _ hR hc
    exact ⟨[], v', .cut k hv, rfl⟩
  | call ha _ ih =>
    obtain ⟨v₁, hv, hR₁⟩ := act _ _ v _ _ hR ha (hT _ List.mem_cons_self)
    obtain ⟨tr', v', hx, hasked⟩ := ih (fun e he => hT e (List.mem_cons_of_mem _ he)) hR₁
    exact ⟨_ :: tr', v', .call hv hx, congrArg (List.cons _) hasked⟩

/-- **Every completed operation is one of the machine.** -/
theorem ensures_act (p : Prog I α) (w : M.World) :
    Ensures M (fun e => M.act e.before e.op e.ans e.after) (fun w w' => ∃ op, M.cut w op w') p
      (fun _ _ => True) w := by
  induction p generalizing w with
  | ret a => trivial
  | call op k ih => exact ⟨fun _ hc => ⟨op, hc⟩, fun x w' ha => ⟨ha, ih x w'⟩⟩

end Library
