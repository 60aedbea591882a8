/-
  File:      Library/History.lean
  Subject:   HISTORIES: one run after another on the same world, any of them killed anywhere.

  A `System` is a machine, the calls that can be made of it, the program each call runs and what
  happens around the calls: `enter c w w'` starts the call `c` in the world `w` (as `w'`), and
  `env w w'` is what the surroundings may do between two calls.

  * `History S w₀ recs w` -- the calls `recs`, from `w₀`, ending in `w`; each record holds the call,
    its completed operations and its value (`none`: killed);
  * `Invariant`, `History.induct` -- the run rule: an invariant of trace and world that every guaranteed
    event, every cut, every start and the surroundings preserve holds after every history. Since a run can
    be killed between any two operations, it holds in every intermediate state too;
  * `History.at`, `History.split` -- the same, for the operation at a place of a history;
  * `System.among`, `History.among` -- a history as one of a system that makes no other calls than
    those of the history, so that an invariant can speak of them.
-/
import Sn46Validator.Library.Guarantee

namespace Library

/-- **A system**: the calls that can be made on a machine. -/
structure System (I : Interface) where
  machine : Machine I
  Call : Type
  Out : Type
  prog : Call → Prog I Out
  enter : Call → machine.World → machine.World → Prop
  env : machine.World → machine.World → Prop

/-- One call of a history: its completed operations and what it returned. -/
structure Record {I : Interface} (S : System I) where
  call : S.Call
  events : List (Event S.machine)
  out : Option S.Out

/-- **Histories from `w₀`.** -/
inductive History {I : Interface} (S : System I) (w₀ : S.machine.World) :
    List (Record S) → S.machine.World → Prop where
  | nil : History S w₀ [] w₀
  | env {recs : List (Record S)} {w w' : S.machine.World} (h : History S w₀ recs w)
      (he : S.env w w') : History S w₀ recs w'
  | run {recs : List (Record S)} {w w₁ w' : S.machine.World} {c : S.Call}
      {tr : List (Event S.machine)} {o : Option S.Out} (h : History S w₀ recs w)
      (hs : S.enter c w w₁) (hx : Exec S.machine w₁ (S.prog c) tr o w') :
      History S w₀ (recs ++ [⟨c, tr, o⟩]) w'

section

variable {I : Interface} {S : System I}

/-- Every completed operation of a history, in order. -/
def trace (recs : List (Record S)) : List (Event S.machine) := recs.flatMap (·.events)

@[simp] theorem trace_nil : trace ([] : List (Record S)) = [] := rfl

@[simp] theorem trace_append (recs recs' : List (Record S)) :
    trace (recs ++ recs') = trace recs ++ trace recs' := by
  simp [trace]

@[simp] theorem trace_singleton (r : Record S) : trace [r] = r.events := by
  simp [trace]

/-- Where in a history an event of its trace is. -/
theorem trace_split {recs : List (Record S)} {tr₁ tr₂ : List (Event S.machine)}
    {e : Event S.machine} (h : trace recs = tr₁ ++ e :: tr₂) :
    ∃ recs₁ r recs₂ t₁ t₂, recs = recs₁ ++ r :: recs₂ ∧ r.events = t₁ ++ e :: t₂ ∧
      tr₁ = trace recs₁ ++ t₁ := by
  induction recs generalizing tr₁ with
  | nil => simp at h
  | cons r recs ih =>
    have hr : r.events ++ trace recs = tr₁ ++ e :: tr₂ := by simpa [trace] using h
    rcases List.append_eq_append_iff.mp hr with ⟨t, rfl, ht⟩ | ⟨t, hev, ht⟩
    · obtain ⟨recs₁, r', recs₂, t₁, t₂, rfl, he, rfl⟩ := ih ht
      exact ⟨r :: recs₁, r', recs₂, t₁, t₂, rfl, he, by simp [trace]⟩
    · cases t with
      | nil =>
        have hrest : trace recs = [] ++ e :: tr₂ := by simpa using ht.symm
        obtain ⟨recs₁, r', recs₂, t₁, t₂, rfl, he, htr⟩ := ih hrest
        refine ⟨r :: recs₁, r', recs₂, t₁, t₂, rfl, he, ?_⟩
        have : trace (r :: recs₁) ++ t₁ = r.events ++ (trace recs₁ ++ t₁) := by simp [trace]
        rw [this, ← htr, hev]
        simp
      | cons x t =>
        obtain ⟨rfl, rfl⟩ := List.cons.inj ht
        exact ⟨[], r, recs, tr₁, t, rfl, hev, by simp⟩

/-- **An invariant** `P` of the trace and the world: the surroundings keep it, every start, every
    guaranteed event and every cut; and where it holds a call guarantees `G`. -/
structure Invariant (S : System I) (G : S.Call → Event S.machine → Prop)
    (C : S.Call → S.machine.World → S.machine.World → Prop)
    (P : List (Event S.machine) → S.machine.World → Prop) : Prop where
  env : ∀ tr w w', P tr w → S.env w w' → P tr w'
  enter : ∀ tr c w w', P tr w → S.enter c w w' → P tr w'
  ensures : ∀ tr c w w', P tr w → S.enter c w w' →
    ∃ Q, Ensures S.machine (G c) (C c) (S.prog c) Q w'
  step : ∀ tr c e, G c e → P tr e.before → P (tr ++ [e]) e.after
  cut : ∀ tr c w w', C c w w' → P tr w → P tr w'

section

variable {G : S.Call → Event S.machine → Prop}
  {C : S.Call → S.machine.World → S.machine.World → Prop}
  {P : List (Event S.machine) → S.machine.World → Prop} (hI : Invariant S G C P)

include hI

/-- **The run rule.** -/
theorem History.induct
    {w₀ w : S.machine.World} {recs : List (Record S)} (h : History S w₀ recs w)
    (h₀ : P [] w₀) : P (trace recs) w := by
  induction h with
  | nil => exact h₀
  | env _ he ih => exact hI.env _ _ _ ih he
  | run _ hs hx ih =>
    obtain ⟨Q, hE⟩ := hI.ensures _ _ _ _ ih hs
    have h₁ := Exec.induct (fun tr e => hI.step tr _ e) (fun tr w w' => hI.cut tr _ w w') hx hE
      (hI.enter _ _ _ _ ih hs)
    simpa using h₁

/-- **The run rule, event by event**: every completed operation of a history is guaranteed to its
    call, and found the invariant of the operations before it. -/
theorem History.at
    {w₀ w : S.machine.World} {recs : List (Record S)} (h : History S w₀ recs w)
    (h₀ : P [] w₀) {recs₁ recs₂ : List (Record S)} {r : Record S}
    (hr : recs = recs₁ ++ r :: recs₂) {tr₁ tr₂ : List (Event S.machine)} {e : Event S.machine}
    (he : r.events = tr₁ ++ e :: tr₂) : P (trace recs₁ ++ tr₁) e.before ∧ G r.call e := by
  induction h generalizing recs₂ with
  | nil => simp at hr
  | env _ _ ih => exact ih hr
  | @run recs' w' w₁ w'' c tr o h' hs hx ih =>
    rcases List.eq_nil_or_concat recs₂ with rfl | ⟨recs₃, x, rfl⟩
    · -- the event is one of the last call: carry what is claimed of its events so far
      obtain ⟨rfl, hl⟩ := List.append_inj' hr rfl
      obtain rfl := (List.cons.inj hl).1
      have hP := History.induct hI h' h₀
      obtain ⟨Q, hE⟩ := hI.ensures _ _ _ _ hP hs
      have hall := Exec.induct (t := []) (P := fun tr w => P (trace recs' ++ tr) w ∧
          ∀ (tr₁ : List (Event S.machine)) (e : Event S.machine) (tr₂ : List (Event S.machine)),
            tr = tr₁ ++ e :: tr₂ → P (trace recs' ++ tr₁) e.before ∧ G c e)
        (fun tr e hg hi => by
          refine ⟨?_, fun tr₁ e' tr₂ he => ?_⟩
          · rw [← List.append_assoc]
            exact hI.step _ c e hg hi.1
          · rcases List.eq_nil_or_concat tr₂ with rfl | ⟨tr₃, x, rfl⟩
            · obtain ⟨rfl, hl⟩ := List.append_inj' he rfl
              obtain rfl := (List.cons.inj hl).1
              exact ⟨hi.1, hg⟩
            · rw [List.concat_eq_append, ← List.cons_append, ← List.append_assoc] at he
              exact hi.2 tr₁ e' tr₃ (List.append_inj' he rfl).1)
        (fun tr w w' hc hi => ⟨hI.cut _ c w w' hc hi.1, hi.2⟩) hx hE
        ⟨by simpa using hI.enter _ _ _ _ hP hs, fun tr₁ e tr₂ he => absurd he (by simp)⟩
      exact hall.2 tr₁ e tr₂ (by simpa using he)
    · rw [List.concat_eq_append, ← List.cons_append, ← List.append_assoc] at hr
      exact ih (List.append_inj' hr rfl).1

/-- The same, for an event of the trace. -/
theorem History.split
    {w₀ w : S.machine.World} {recs : List (Record S)} (h : History S w₀ recs w)
    (h₀ : P [] w₀) {tr₁ tr₂ : List (Event S.machine)} {e : Event S.machine}
    (he : trace recs = tr₁ ++ e :: tr₂) : P tr₁ e.before ∧ ∃ c, G c e := by
  obtain ⟨recs₁, r, recs₂, t₁, t₂, hr, het, rfl⟩ := trace_split he
  obtain ⟨hP, hG⟩ := History.at hI h h₀ hr het
  exact ⟨hP, r.call, hG⟩

end

/-- The system that makes calls of `A` only. -/
@[reducible] def System.among (S : System I) (A : S.Call → Prop) : System I where
  machine := S.machine
  Call := S.Call
  Out := S.Out
  prog := S.prog
  enter c w w' := A c ∧ S.enter c w w'
  env := S.env

/-- The calls of a history. -/
def Called (recs : List (Record S)) (c : S.Call) : Prop := ∃ r ∈ recs, r.call = c

/-- **A history makes its own calls only.** -/
theorem History.among {A : S.Call → Prop} {w₀ w : S.machine.World} {recs : List (Record S)}
    (h : History S w₀ recs w) (hA : ∀ c, Called recs c → A c) :
    ∃ recs', History (S.among A) w₀ recs' w ∧ trace recs' = trace recs := by
  induction h with
  | nil => exact ⟨[], .nil, rfl⟩
  | env _ he ih =>
    obtain ⟨recs', h', ht⟩ := ih hA
    exact ⟨recs', .env h' he, ht⟩
  | @run _ _ _ _ c tr o _ hs hx ih =>
    obtain ⟨recs', h', ht⟩ := ih fun c ⟨r, hr, hc⟩ => hA c ⟨r, List.mem_append_left _ hr, hc⟩
    refine ⟨_, .run h' ⟨hA c ⟨_, List.mem_append_right _ (List.mem_singleton_self _), rfl⟩, hs⟩ hx,
      ?_⟩
    rw [trace_append, trace_append, trace_singleton, trace_singleton]
    exact congrArg (· ++ tr) ht

/-- Two histories, one after the other. -/
theorem History.append {w₀ w w' : S.machine.World} {recs recs' : List (Record S)}
    (h : History S w₀ recs w) (h' : History S w recs' w') : History S w₀ (recs ++ recs') w' := by
  induction h' with
  | nil => simpa using h
  | env _ he ih => exact .env ih he
  | run _ hs hx ih =>
    rw [← List.append_assoc]
    exact .run ih hs hx

end

end Library
