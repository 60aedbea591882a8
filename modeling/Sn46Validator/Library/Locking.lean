/-
  File:      Library/Locking.lean
  Subject:   PROCESSES UNDER ONE LOCK: in whatever order their operations come, the world sees a
             history, one call after another.

  Each process runs the program of one call of a `System`. The processes perform their operations in
  any order, each of them can be killed at any point, and the surroundings act in between. A program
  makes a few free operations, takes the lock or gives up, and goes on under the lock until it ends.

  * `Prog.Locks` -- a program makes free operations only, until an answer takes the lock;
  * `Lock S` -- a lock of the calls of `S`: what takes it, and what is free;
  * `Processes`, `Move` -- the processes and **what can happen next**;
  * `Serialised` -- the invariant: a history of the calls that had the lock, and the call that has it on
    its way from there;
  * `Lock.serial` -- **every interleaving is a history** of the calls that had the lock, in the order in
    which they had it and with what they returned;
  * `Lock.foreign` -- a process without the lock does nothing that the surroundings cannot do.
-/
import Mathlib.Data.List.ReduceOption
import Sn46Validator.Library.History
import Sn46Validator.Library.Steps

namespace Library

variable {I : Interface} {α β ε : Type}

/-! ## 1. Programs that take a lock -/

/-- **Free operations until an answer takes the lock.** What the program returns without the lock
    satisfies `Q`. -/
def Prog.Locks (free : I.Op → Prop) (takes : (op : I.Op) → I.Ans op → Prop) (Q : α → Prop) :
    Prog I α → Prop
  | .ret a => Q a
  | .call op k => free op ∧ ∀ x, ¬takes op x → (k x).Locks free takes Q

section

variable {free : I.Op → Prop} {takes : (op : I.Op) → I.Ans op → Prop}

/-- **Sequencing**: what comes next is met without the lock, or under it. -/
theorem locks_bind {p : Prog I α} {f : α → Prog I β} {P : α → Prop} {Q : β → Prop}
    (hp : p.Locks free takes P) (hf : ∀ a, P a → (f a).Locks free takes Q) :
    (p >>= f).Locks free takes Q := by
  rw [Prog.bind_eq]
  induction p with
  | ret a => exact hf a hp
  | call op k ih => exact ⟨hp.1, fun x hx => ih x (hp.2 x hx)⟩

theorem locks_mono {p : Prog I α} {P Q : α → Prop} (hp : p.Locks free takes P)
    (h : ∀ a, P a → Q a) : p.Locks free takes Q := by
  induction p with
  | ret a => exact h a hp
  | call op k ih => exact ⟨hp.1, fun x hx => ih x (hp.2 x hx)⟩

/-- The same for a program with errors: `P` of the value it gives without the lock. -/
def Fallible.Locks (free : I.Op → Prop) (takes : (op : I.Op) → I.Ans op → Prop) (P : α → Prop)
    (p : Fallible I ε α) : Prop :=
  p.run.Locks free takes fun r => ∀ a, r = .ok a → P a

theorem locks_bindE {p : Fallible I ε α} {f : α → Fallible I ε β} {P : α → Prop} {Q : β → Prop}
    (hp : p.Locks free takes P) (hf : ∀ a, P a → (f a).Locks free takes Q) :
    (p >>= f).Locks free takes Q := by
  refine locks_bind (p := p.run) hp fun r hr => ?_
  cases r with
  | ok a => exact hf a (hr a rfl)
  | error e => exact fun b hb => by cases hb

theorem locks_lift {op : I.Op} {P : I.Ans op → Prop} (hf : free op)
    (hP : ∀ x, ¬takes op x → P x) :
    Fallible.Locks free takes P (ExceptT.lift (Prog.perform op) : Fallible I ε (I.Ans op)) := by
  refine ⟨hf, fun x hx a ha => ?_⟩
  obtain rfl : x = a := Except.ok.inj ha
  exact hP x hx

theorem locks_ofExcept {r : Except ε α} {P : α → Prop} (h : ∀ a, r = .ok a → P a) :
    Fallible.Locks free takes P (Fallible.ofExcept r : Fallible I ε α) := h

theorem locks_mapError {ε' : Type} {f : ε → ε'} {p : Fallible I ε α} {P : α → Prop}
    (h : p.Locks free takes P) : Fallible.Locks free takes P (Fallible.mapError f p) := by
  refine locks_bind (p := p.run) h fun r hr a ha => ?_
  cases r with
  | ok b => exact hr a (congrArg _ (Except.ok.inj ha))
  | error e => cases ha

end

/-- **A lock of the calls of a system**: the answer `x` to `op` takes it when `takes op x`. A free
    operation that does not take it does what the surroundings can do, and can be answered so in every
    world; what the surroundings do after an operation may be counted to it. -/
structure Lock (S : System I) where
  free : I.Op → Prop
  takes : (op : I.Op) → I.Ans op → Prop
  locks : ∀ c, (S.prog c).Locks free takes fun _ => True
  act_env : ∀ w op x w', free op → ¬takes op x → S.machine.act w op x w' → S.env w w'
  act_still : ∀ w op x w' w₁, free op → ¬takes op x → S.machine.act w op x w' →
    S.machine.act w₁ op x w₁
  cut_env : ∀ w op w', free op → S.machine.cut w op w' → S.env w w'
  absorb : ∀ w op x w' w'', S.machine.act w op x w' → S.env w' w'' → S.machine.act w op x w''
  env_refl : ∀ w, S.env w w

/-! ## 2. Processes -/

/-- **Processes**: the call of each and what is left of its program, the one that has the lock, and
    the world. -/
structure Processes (S : System I) (ι : Type) where
  running : ι → Option (S.Call × Prog I S.Out)
  holder : Option ι
  world : S.machine.World

section

variable {S : System I} {ι : Type} [DecidableEq ι]

/-- The process `i` is at `p`. -/
def Processes.put (s : Processes S ι) (i : ι) (p : Option (S.Call × Prog I S.Out))
    (holder : Option ι) (w : S.machine.World) : Processes S ι :=
  ⟨Function.update s.running i p, holder, w⟩

@[simp] theorem Processes.put_self (s : Processes S ι) (i : ι)
    (p : Option (S.Call × Prog I S.Out)) (h : Option ι) (w : S.machine.World) :
    (s.put i p h w).running i = p := Function.update_self i _ _

theorem Processes.put_ne (s : Processes S ι) {i j : ι} (hj : j ≠ i)
    (p : Option (S.Call × Prog I S.Out)) (h : Option ι) (w : S.machine.World) :
    (s.put i p h w).running j = s.running j := Function.update_of_ne hj _ _

@[simp] theorem Processes.put_world (s : Processes S ι) (i : ι)
    (p : Option (S.Call × Prog I S.Out)) (h : Option ι) (w : S.machine.World) :
    (s.put i p h w).world = w := rfl

@[simp] theorem Processes.put_put (s : Processes S ι) (i : ι)
    (p q : Option (S.Call × Prog I S.Out)) (h h' : Option ι) (w w' : S.machine.World) :
    (s.put i p h w).put i q h' w' = s.put i q h' w' := by
  simp [Processes.put]

/-- A process that is where it was. -/
theorem Processes.put_eq {s : Processes S ι} {i : ι} {p : Option (S.Call × Prog I S.Out)}
    (hs : s.running i = p) : s.put i p s.holder s.world = s := by
  rw [Processes.put, ← hs, Function.update_eq_self]

/-- No process runs. -/
def Processes.Idle (s : Processes S ι) : Prop := (∀ i, s.running i = none) ∧ s.holder = none

/-- The call that has the lock, as if it were killed now. -/
def Processes.held (s : Processes S ι) : List (S.Call × Option S.Out) :=
  ((s.holder.bind s.running).map fun q => (q.1, none)).toList

/-- **What can happen next.** The label is the call that gives the lock back and what it returned
    (`none`: killed). A call enters the world when it takes the lock. -/
inductive Move (L : Lock S) : Option (S.Call × Option S.Out) → Processes S ι → Processes S ι →
    Prop where
  | start {s : Processes S ι} {i : ι} (c : S.Call) (hs : s.running i = none) :
      Move L none s (s.put i (some (c, S.prog c)) s.holder s.world)
  | free {s : Processes S ι} {i : ι} {c : S.Call} {op : I.Op} {x : I.Ans op}
      {k : I.Ans op → Prog I S.Out} {w : S.machine.World}
      (hs : s.running i = some (c, .call op k)) (hi : s.holder ≠ some i) (hx : ¬L.takes op x)
      (ha : S.machine.act s.world op x w) :
      Move L none s (s.put i (some (c, k x)) s.holder w)
  | take {s : Processes S ι} {i : ι} {c : S.Call} {op : I.Op} {x : I.Ans op}
      {k : I.Ans op → Prog I S.Out} {w w' : S.machine.World}
      (hs : s.running i = some (c, .call op k)) (hi : s.holder = none) (hx : L.takes op x)
      (he : S.enter c s.world w) (ha : S.machine.act w op x w') :
      Move L none s (s.put i (some (c, k x)) (some i) w')
  | under {s : Processes S ι} {i : ι} {c : S.Call} {op : I.Op} {x : I.Ans op}
      {k : I.Ans op → Prog I S.Out} {w : S.machine.World}
      (hs : s.running i = some (c, .call op k)) (hi : s.holder = some i)
      (ha : S.machine.act s.world op x w) :
      Move L none s (s.put i (some (c, k x)) (some i) w)
  -- a process ends: it returns, or is killed, perhaps inside an operation
  | leave {s : Processes S ι} {i : ι} {c : S.Call} {p : Prog I S.Out} {o : Option S.Out}
      {w : S.machine.World} (hs : s.running i = some (c, p)) (hi : s.holder ≠ some i)
      (hx : Exec S.machine s.world p [] o w) : Move L none s (s.put i none s.holder w)
  | release {s : Processes S ι} {i : ι} {c : S.Call} {p : Prog I S.Out} {o : Option S.Out}
      {w : S.machine.World} (hs : s.running i = some (c, p)) (hi : s.holder = some i)
      (hx : Exec S.machine s.world p [] o w) :
      Move L (some (c, o)) s (s.put i none none w)
  | env {s : Processes S ι} {w : S.machine.World} (he : S.env s.world w) :
      Move L none s { s with world := w }

/-! ## 3. The invariant -/

variable {L : Lock S}

/-- **A process without the lock** did nothing yet that could not be done later. -/
def Lock.Waiting (L : Lock S) (c : S.Call) (p : Prog I S.Out) : Prop :=
  p.Locks L.free L.takes (fun _ => True) ∧
    ∀ w, ∃ tr, Steps (OpStep S.machine) (S.prog c, w) tr (p, w)

/-- The world, after a history that ended in `w₁`: there, or on its way in the call that has the
    lock. -/
def Processes.OnWay (s : Processes S ι) (w₁ : S.machine.World) : Prop :=
  (s.holder = none ∧ s.world = w₁) ∨
  ∃ i c p w₂ tr e, s.holder = some i ∧ s.running i = some (c, p) ∧ S.enter c w₁ w₂ ∧
    Steps (OpStep S.machine) (S.prog c, w₂) (tr ++ [e]) (p, s.world)

/-- The calls of a history and what they returned. -/
def calls (recs : List (Record S)) : List (S.Call × Option S.Out) :=
  recs.map fun r => (r.call, r.out)

/-- A history of the calls that `ended`, and the call that has the lock on its way from there. -/
def Processes.After (w₀ : S.machine.World) (ended : List (S.Call × Option S.Out))
    (s : Processes S ι) : Prop :=
  ∃ recs w₁, History S w₀ recs w₁ ∧ calls recs = ended ∧ s.OnWay w₁

/-- **The invariant.** -/
structure Lock.Serialised (L : Lock S) (w₀ : S.machine.World)
    (ended : List (S.Call × Option S.Out)) (s : Processes S ι) : Prop where
  waiting : ∀ i c p, s.running i = some (c, p) → s.holder ≠ some i → L.Waiting c p
  after : s.After w₀ ended

/-! ### Waiting -/

theorem waiting_start (c : S.Call) : L.Waiting c (S.prog c) :=
  ⟨L.locks c, fun _ => ⟨[], .nil⟩⟩

section

variable {c : S.Call} {op : I.Op} {k : I.Ans op → Prog I S.Out} {x : I.Ans op}
  {w w' : S.machine.World}

theorem waiting_free (h : L.Waiting c (.call op k)) (hx : ¬L.takes op x)
    (ha : S.machine.act w op x w') : L.Waiting c (k x) := by
  obtain ⟨hl, hsteps⟩ := h
  refine ⟨hl.2 x hx, fun w₁ => ?_⟩
  obtain ⟨tr, htr⟩ := hsteps w₁
  exact ⟨_, htr.snoc (.call (L.act_still _ _ _ _ w₁ hl.1 hx ha))⟩

theorem waiting_take (h : L.Waiting c (.call op k)) (ha : S.machine.act w op x w') :
    ∃ tr e, Steps (OpStep S.machine) (S.prog c, w) (tr ++ [e]) (k x, w') := by
  obtain ⟨tr, htr⟩ := h.2 w
  exact ⟨tr, _, htr.snoc (.call ha)⟩

/-- A process that ends without the lock. -/
theorem waiting_leave {p : Prog I S.Out} {o : Option S.Out} (h : L.Waiting c p)
    (hx : Exec S.machine w p [] o w') : S.env w w' := by
  cases hx with
  | ret => exact L.env_refl w
  | kill => exact L.env_refl w
  | cut k hc => exact L.cut_env _ _ _ h.1.1 hc

end

/-! ### On the way -/

section

variable {s : Processes S ι} {i : ι} {w₀ w w₁ : S.machine.World}
  {ended : List (S.Call × Option S.Out)}

omit [DecidableEq ι] in
/-- **What the surroundings do** is part of the last operation of the call that has the lock, or
    comes between two calls. -/
theorem Processes.After.env (L : Lock S) (h : s.After w₀ ended) (he : S.env s.world w) :
    ({ s with world := w } : Processes S ι).After w₀ ended := by
  obtain ⟨recs, w₁, hh, hc, hw⟩ := h
  rcases hw with ⟨hn, rfl⟩ | ⟨i, c, p, w₂, tr, e, hi, hr, hent, hst⟩
  · exact ⟨recs, w, hh.env he, hc, .inl ⟨hn, rfl⟩⟩
  · generalize hev : tr ++ [e] = evs at hst
    generalize hq : (p, s.world) = q at hst
    cases hst with
    | nil => exact absurd hev (by simp)
    | snoc h hs =>
      cases hs with
      | call ha =>
        obtain ⟨rfl, rfl⟩ := Prod.mk.inj hq
        have hst' := h.snoc (.call (L.absorb _ _ _ _ _ ha he))
        exact ⟨recs, w₁, hh, hc, .inr ⟨i, c, _, w₂, _, _, hi, hr, hent, hst'⟩⟩

omit [DecidableEq ι] in
theorem Processes.After.running (h : s.After w₀ ended) (hi : s.holder = some i) :
    s.running i ≠ none := by
  obtain ⟨recs, w₁, -, -, hw⟩ := h
  rcases hw with ⟨hn, -⟩ | ⟨j, c, p, w₂, tr, e, hj, hr, -⟩
  · rw [hi] at hn
    cases hn
  · obtain rfl : i = j := Option.some.inj (hi.symm.trans hj)
    simp [hr]

/-- Another process moves. -/
theorem Processes.After.other (h : s.After w₀ ended) (hi : s.holder ≠ some i)
    (p : Option (S.Call × Prog I S.Out)) : (s.put i p s.holder s.world).After w₀ ended := by
  obtain ⟨recs, w₁, hh, hc, hw⟩ := h
  refine ⟨recs, w₁, hh, hc, ?_⟩
  rcases hw with hn | ⟨j, c, q, w₂, tr, e, hj, hr, hent, hst⟩
  · exact .inl hn
  · have hji : j ≠ i := fun h => hi (h ▸ hj)
    exact .inr ⟨j, c, q, w₂, tr, e, hj, (s.put_ne hji ..).trans hr, hent, hst⟩

/-- **The call that has the lock** moves on. -/
theorem Processes.After.under {c : S.Call} {op : I.Op} {x : I.Ans op} {k : I.Ans op → Prog I S.Out}
    (h : s.After w₀ ended) (hs : s.running i = some (c, .call op k)) (hi : s.holder = some i)
    (ha : S.machine.act s.world op x w) : (s.put i (some (c, k x)) (some i) w).After w₀ ended := by
  obtain ⟨recs, w₁, hh, hc, hw⟩ := h
  rcases hw with ⟨hn, -⟩ | ⟨j, c', p, w₂, tr, e, hj, hr, hent, hst⟩
  · rw [hi] at hn
    cases hn
  · obtain rfl : i = j := Option.some.inj (hi.symm.trans hj)
    obtain ⟨rfl, rfl⟩ := Prod.mk.inj (Option.some.inj (hs.symm.trans hr))
    have hst' := hst.snoc (.call ha)
    exact ⟨recs, w₁, hh, hc, .inr ⟨i, c, _, w₂, _, _, rfl, s.put_self .., hent, hst'⟩⟩

/-- **A call takes the lock**, where none has it. -/
theorem Processes.After.take {c : S.Call} {p : Prog I S.Out} {w₂ : S.machine.World}
    {tr : List (Event S.machine)} {e : Event S.machine} (h : s.After w₀ ended)
    (hi : s.holder = none) (he : S.enter c s.world w₂)
    (hst : Steps (OpStep S.machine) (S.prog c, w₂) (tr ++ [e]) (p, w)) :
    (s.put i (some (c, p)) (some i) w).After w₀ ended := by
  obtain ⟨recs, w₁, hh, hc, hw⟩ := h
  rcases hw with ⟨-, rfl⟩ | ⟨j, c', q, w₃, tr', e', hj, -⟩
  · exact ⟨recs, _, hh, hc, .inr ⟨i, c, p, w₂, tr, e, rfl, s.put_self .., he, hst⟩⟩
  · rw [hi] at hj
    cases hj

omit [DecidableEq ι] in
/-- **A call that has the lock ends**: then it is the last one of the history. -/
theorem Processes.After.ends {c : S.Call} {p : Prog I S.Out} {o : Option S.Out} (h : s.After w₀ ended)
    (hs : s.running i = some (c, p)) (hi : s.holder = some i)
    (hx : Exec S.machine s.world p [] o w) :
    ∃ recs, History S w₀ recs w ∧ calls recs = ended ++ [(c, o)] := by
  obtain ⟨recs, w₁, hh, hc, hw⟩ := h
  rcases hw with ⟨hn, -⟩ | ⟨j, c', q, w₂, tr, e, hj, hr, hent, hst⟩
  · rw [hi] at hn
    cases hn
  · obtain rfl : i = j := Option.some.inj (hi.symm.trans hj)
    obtain ⟨rfl, rfl⟩ := Prod.mk.inj (Option.some.inj (hs.symm.trans hr))
    exact ⟨_, hh.run hent (hst.exec hx), by simp [calls, ← hc]⟩

end

/-! ## 4. The step lemma -/

/-- Who waits after a move of the process `i`. -/
theorem waiting_put {s : Processes S ι} {i : ι} {q : Option (S.Call × Prog I S.Out)}
    {holder : Option ι} {w : S.machine.World}
    (h : ∀ j c p, s.running j = some (c, p) → s.holder ≠ some j → L.Waiting c p)
    (hh : ∀ j, j ≠ i → holder ≠ some j → s.holder ≠ some j)
    (hq : ∀ c p, q = some (c, p) → holder ≠ some i → L.Waiting c p) :
    ∀ j c p, (s.put i q holder w).running j = some (c, p) →
      (s.put i q holder w).holder ≠ some j → L.Waiting c p := by
  intro j c p hr hj
  by_cases hji : j = i
  · subst hji
    rw [s.put_self] at hr
    exact hq c p hr hj
  · rw [s.put_ne hji] at hr
    exact h j c p hr (hh j hji hj)

/-- **Every move keeps the invariant.** -/
theorem serialised_move {w₀ : S.machine.World} {acts : List (Option (S.Call × Option S.Out))}
    {a : Option (S.Call × Option S.Out)} {s s' : Processes S ι}
    (h : L.Serialised w₀ acts.reduceOption s) (hm : Move L a s s') :
    L.Serialised w₀ (acts ++ [a]).reduceOption s' := by
  rw [List.reduceOption_append, List.reduceOption_singleton]
  cases hm with
  | start c hs =>
    have hi := fun hi => h.after.running hi hs
    rw [Option.toList_none, List.append_nil]
    refine ⟨waiting_put h.waiting (fun _ _ hj => hj) fun c' p hq _ => ?_, h.after.other hi _⟩
    obtain ⟨rfl, rfl⟩ := Prod.mk.inj (Option.some.inj hq)
    exact waiting_start c
  | @free _ i c op x k w hs hi hx ha =>
    have hw := h.waiting i c _ hs hi
    rw [Option.toList_none, List.append_nil]
    refine ⟨waiting_put h.waiting (fun _ _ hj => hj) fun c' p hq _ => ?_, ?_⟩
    · obtain ⟨rfl, rfl⟩ := Prod.mk.inj (Option.some.inj hq)
      exact waiting_free hw hx ha
    · exact (h.after.other hi _).env L (L.act_env _ _ _ _ hw.1.1 hx ha)
  | @take _ i c op x k w w' hs hi hx he ha =>
    have hni : s.holder ≠ some i := by simp [hi]
    obtain ⟨tr, e, hst⟩ := waiting_take (h.waiting i c _ hs hni) ha
    rw [Option.toList_none, List.append_nil]
    refine ⟨waiting_put h.waiting (fun _ _ _ => by simp [hi]) fun _ _ _ hn => absurd rfl hn, ?_⟩
    exact h.after.take hi he hst
  | @under _ i c op x k w hs hi ha =>
    rw [Option.toList_none, List.append_nil]
    refine ⟨waiting_put h.waiting (fun j _ hj => hi ▸ hj) fun _ _ _ hn => absurd rfl hn, ?_⟩
    exact h.after.under hs hi ha
  | @leave _ i c p o w hs hi hx =>
    rw [Option.toList_none, List.append_nil]
    refine ⟨waiting_put h.waiting (fun _ _ hj => hj) fun _ _ hq => (by cases hq), ?_⟩
    exact (h.after.other hi none).env L (waiting_leave (h.waiting i c p hs hi) hx)
  | @release _ i c p o w hs hi hx =>
    obtain ⟨recs, hh, hc⟩ := h.after.ends hs hi hx
    refine ⟨waiting_put h.waiting (fun j hj _ hn => ?_) fun _ _ hq => (by cases hq), ?_⟩
    · exact hj (Option.some.inj (hn.symm.trans hi))
    · exact ⟨recs, w, hh, hc, .inl ⟨rfl, rfl⟩⟩
  | env he =>
    rw [Option.toList_none, List.append_nil]
    exact ⟨h.waiting, h.after.env L he⟩

/-! ## 5. The run lemma -/

theorem serialised_run {s₀ s : Processes S ι} {acts : List (Option (S.Call × Option S.Out))}
    (h : Steps (Move L) s₀ acts s) (h₀ : s₀.Idle) :
    L.Serialised s₀.world acts.reduceOption s := by
  refine h.induct (P := fun acts s => L.Serialised s₀.world acts.reduceOption s) ⟨?_, ?_⟩
    fun _ _ _ _ hs hm => serialised_move hs hm
  · intro i c p hr
    rw [h₀.1 i] at hr
    cases hr
  · exact ⟨[], s₀.world, .nil, rfl, .inl ⟨h₀.2, rfl⟩⟩

/-- **Every interleaving is a history** of the calls that had the lock, in the order in which they had
    it and with what they returned; a call that has it now counts as killed. -/
theorem Lock.serial {s₀ s : Processes S ι} {acts : List (Option (S.Call × Option S.Out))}
    (h : Steps (Move L) s₀ acts s) (h₀ : s₀.Idle) :
    ∃ recs, History S s₀.world recs s.world ∧ calls recs = acts.reduceOption ++ s.held := by
  have hA := (serialised_run h h₀).after
  cases hi : s.holder with
  | none =>
    obtain ⟨recs, w₁, hh, hc, ⟨-, rfl⟩ | ⟨i, c, p, w₂, tr, e, hj, -⟩⟩ := hA
    · exact ⟨recs, hh, by simp [Processes.held, hi, hc]⟩
    · rw [hi] at hj
      cases hj
  | some i =>
    cases hr : s.running i with
    | none => exact absurd hr (hA.running hi)
    | some q =>
      obtain ⟨recs, hh, hc⟩ := hA.ends hr hi (.kill _ _)
      exact ⟨recs, hh, by simp [Processes.held, hi, hr, hc]⟩

/-- **A process without the lock does nothing that the surroundings cannot do.** -/
theorem Lock.foreign {s₀ s s' : Processes S ι} {acts : List (Option (S.Call × Option S.Out))}
    {a : Option (S.Call × Option S.Out)} (h : Steps (Move L) s₀ acts s) (h₀ : s₀.Idle)
    (hm : Move L a s s') :
    S.env s.world s'.world ∨ ∃ i, (s.holder = some i ∨ s'.holder = some i) ∧
      ∀ j, j ≠ i → s'.running j = s.running j := by
  have hS := serialised_run h h₀
  cases hm with
  | start c hs => exact .inl (L.env_refl _)
  | free hs hi hx ha => exact .inl (L.act_env _ _ _ _ (hS.waiting _ _ _ hs hi).1.1 hx ha)
  | take hs hi hx he ha => exact .inr ⟨_, .inr rfl, fun j hj => s.put_ne hj ..⟩
  | under hs hi ha => exact .inr ⟨_, .inl hi, fun j hj => s.put_ne hj ..⟩
  | leave hs hi hx => exact .inl (waiting_leave (hS.waiting _ _ _ hs hi) hx)
  | release hs hi hx => exact .inr ⟨_, .inl hi, fun j hj => s.put_ne hj ..⟩
  | env he => exact .inl he

/-- **A run under the lock**, as moves. -/
theorem moves_under {s : Processes S ι} {i : ι} {c : S.Call} {p : Prog I S.Out} {a : S.Out}
    {tr : List (Event S.machine)} {w : S.machine.World} (hs : s.running i = some (c, p))
    (hi : s.holder = some i) (hx : Exec S.machine s.world p tr (some a) w) :
    Steps (Move L) s (List.replicate tr.length none)
      (s.put i (some (c, .ret a)) (some i) w) := by
  induction p generalizing s tr with
  | ret b =>
    cases hx
    rw [← hi, Processes.put_eq hs]
    exact .nil
  | call op k ih =>
    obtain ⟨x, w₁, tr', ha, rfl, hk⟩ := Exec.of_call hx
    have hrest := ih x (s := s.put i (some (c, k x)) (some i) w₁) (s.put_self ..) rfl hk
    rw [List.length_cons, List.replicate_succ]
    rw [Processes.put_put] at hrest
    exact (Steps.one (.under hs hi ha)).append hrest

end

end Library
