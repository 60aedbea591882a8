/-
  File:      Validator/Lives.lean
  Subject:   LIVES OF THE SERVICE: what its processes do to the world is a history of runs.

  A process runs `serve` and, on the threads `serve` spawns, attempts; each connects and then performs
  the operations of a run one by one. Its acts, theirs and the signals come in any order, and the
  process can be killed between any two and inside an operation.

  * `Live` -- **the process**: `serve`, its threads and the world;
  * `Flying` -- the invariant: what the finished runs did is a history, and the one that flies is under
    way from where it ended;
  * `Life`, `Lives` -- a process that stops by itself or is killed, and one after another;
  * `lives_history` -- **the world sees a history**: whatever an invariant says of histories of runs
    holds of the service. Only a killed process leaves a run unfinished, and at most one.
-/
import Sn46Validator.Validator.Service
import Sn46Validator.Validator.Node

namespace Sn46Validator.Validator

open Library

/-! ## 1. A process -/

/-- What the thread of an attempt is at. -/
inductive Flight {I : Interface} (S : System I) where
  | connecting
  | running (c : S.Call) (done : List (Event S.machine)) (rest : Prog I S.Out)

/-- **A process**: `serve`, the threads of its attempts, and the world. -/
structure Process {I : Interface} (S : System I) where
  service : Service
  flights : ℕ → Option (Flight S)
  world : S.machine.World

section

variable {I : Interface} {S : System I} {joined : S.Out → Joined} {pollInterval t₀ : ℕ}

/-- A process as it starts. -/
def Process.boot (t₀ : ℕ) (w : S.machine.World) : Process S := ⟨.start t₀, fun _ => none, w⟩

/-- The thread of the attempt `i` is at `f`. -/
def Process.fly (p : Process S) (v : Service) (i : ℕ) (f : Flight S) (w : S.machine.World) :
    Process S := ⟨v, Function.update p.flights i (some f), w⟩

/-- The thread of the attempt `i` is done. -/
def Process.land (p : Process S) (v : Service) (i : ℕ) : Process S :=
  ⟨v, Function.update p.flights i none, p.world⟩

@[simp] theorem Process.fly_self (p : Process S) (v : Service) (i : ℕ) (f : Flight S)
    (w : S.machine.World) : (p.fly v i f w).flights i = some f := Function.update_self i _ _

theorem Process.fly_ne (p : Process S) (v : Service) {i j : ℕ} (h : j ≠ i) (f : Flight S)
    (w : S.machine.World) : (p.fly v i f w).flights j = p.flights j := Function.update_of_ne h _ _

@[simp] theorem Process.fly_fly (p : Process S) (v v' : Service) (i : ℕ) (f f' : Flight S)
    (w w' : S.machine.World) : (p.fly v i f w).fly v' i f' w' = p.fly v' i f' w' := by
  simp [Process.fly]

/-- No call is under way. -/
def Process.Idle (p : Process S) : Prop :=
  ∀ i c done rest, p.flights i ≠ some (.running c done rest)

/-- **The acts of a process**, with those of `serve` as labels. `joined` is what a thread gives its
    handle for a value of its program. -/
inductive Live (pollInterval : ℕ) (joined : S.Out → Joined) :
    Option Act → Process S → Process S → Prop where
  | serve {p : Process S} {a : Act} {v : Service} (hs : Serve pollInterval a p.service v)
      (ha : a.spawns = false) (hf : a.finishes = false) :
      Live pollInterval joined (some a) p { p with service := v }
  | spawn {p : Process S} {v : Service} (hs : Serve pollInterval .spawn p.service v) :
      Live pollInterval joined (some .spawn) p
        (p.fly v p.service.attempts.length .connecting p.world)
  | connect {p : Process S} {i : ℕ} {c : S.Call} {w : S.machine.World}
      (hp : p.flights i = some .connecting) (he : S.enter c p.world w) :
      Live pollInterval joined none p
        (p.fly p.service i (.running c [] (S.prog c)) w)
  -- connecting failed, or panicked
  | refuse {p : Process S} {i : ℕ} {r : Joined} {v : Service}
      (hp : p.flights i = some .connecting) (hr : r ≠ .ok (.ok ()))
      (hs : Serve pollInterval (.finish i r) p.service v) :
      Live pollInterval joined (some (.finish i r)) p (p.land v i)
  | op {p : Process S} {i : ℕ} {c : S.Call} {done : List (Event S.machine)}
      {rest rest' : Prog I S.Out} {e : Event S.machine} {w : S.machine.World}
      (hp : p.flights i = some (.running c done rest))
      (ho : OpStep S.machine e (rest, p.world) (rest', w)) :
      Live pollInterval joined none p
        (p.fly p.service i (.running c (done ++ [e]) rest') w)
  | returned {p : Process S} {i : ℕ} {c : S.Call} {done : List (Event S.machine)} {out : S.Out}
      {v : Service} (hp : p.flights i = some (.running c done (.ret out)))
      (hs : Serve pollInterval (.finish i (joined out)) p.service v) :
      Live pollInterval joined (some (.finish i (joined out))) p (p.land v i)
  -- inside a call the machine's operations have the surroundings in them
  | env {p : Process S} {w : S.machine.World} (hp : p.Idle) (he : S.env p.world w) :
      Live pollInterval joined none p { p with world := w }

/-! ## 2. What flies -/

/-- What the attempts gave so far. -/
def Service.results (s : Service) : List Joined := s.attempts.filterMap Attempt.result

/-- What the finished runs of a history gave. -/
def outs (joined : S.Out → Joined) (recs : List (Record S)) : List Joined :=
  recs.filterMap fun r => r.out.map joined

/-- The world, after a history that ended in `w₁`: there, or on its way in the run that flies. -/
def OnWay (w₁ : S.machine.World) (p : Process S) : Prop :=
  (p.Idle ∧ p.world = w₁) ∨
  ∃ i c done rest w₂, p.flights i = some (.running c done rest) ∧ S.enter c w₁ w₂ ∧
    Steps (OpStep S.machine) (S.prog c, w₂) done (rest, p.world)

/-- **The invariant**: a history of finished runs, and what flies. -/
def Flying (joined : S.Out → Joined) (t₀ pollInterval : ℕ) (w₀ : S.machine.World) (p : Process S) :
    Prop :=
  Accounted pollInterval t₀ p.service ∧
  (∀ i f, p.flights i = some f → ∃ start, p.service.attempts[i]? = some ⟨start, none⟩) ∧
  ∃ recs w₁, History S w₀ recs w₁ ∧ (∀ r ∈ recs, ∃ out, r.out = some out) ∧
    (outs joined recs).Sublist p.service.results ∧ OnWay w₁ p

/-! ## 3. The step lemma -/

/-- `serve`'s other acts leave the attempts. -/
theorem serve_attempts {a : Act} {s s' : Service} (hs : Serve pollInterval a s s')
    (ha : a.spawns = false) (hf : a.finishes = false) : s'.attempts = s.attempts := by
  cases hs with
  | spawn => cases ha
  | finish => cases hf
  | _ => rfl

theorem serve_spawn {s s' : Service} (hs : Serve pollInterval .spawn s s') :
    s'.attempts = s.attempts ++ [⟨s.now, none⟩] := by
  cases hs
  rfl

theorem serve_finish {s s' : Service} {i : ℕ} {r : Joined}
    (hs : Serve pollInterval (.finish i r) s s') : ∃ start, s.attempts[i]? = some ⟨start, none⟩ ∧
      s'.attempts = s.attempts.set i ⟨start, some r⟩ := by
  cases hs with
  | @finish _ _ start _ h => exact ⟨start, h, rfl⟩

/-- An attempt that ends is the last to have given something. -/
theorem results_finish {s s' : Service} {i : ℕ} {r : Joined} (h : Accounted pollInterval t₀ s)
    (hs : Serve pollInterval (.finish i r) s s') : s'.results = s.results ++ [r] := by
  obtain ⟨start, ha, hset⟩ := serve_finish hs
  obtain ⟨hi, -⟩ := h.flying ha
  have hlt : i < s.attempts.length := (List.getElem?_eq_some_iff.mp ha).1
  have hsplit : s.attempts = s.attempts.take i ++ [⟨start, none⟩] := by
    conv_lhs => rw [← List.take_append_drop i s.attempts]
    rw [List.drop_eq_getElem_cons hlt, hi, List.drop_length, (List.getElem?_eq_some_iff.mp ha).2]
  have hlen : (s.attempts.take i).length = i := by
    rw [List.length_take, Nat.min_eq_left hlt.le]
  rw [Service.results, Service.results, hset, hsplit, List.set_append_right i _ hlen.le, hlen,
    Nat.sub_self, List.filterMap_append, List.filterMap_append, List.append_assoc]
  rfl

variable {w₀ : S.machine.World} {p p' : Process S}

/-- Only one attempt flies. -/
theorem Flying.unique (h : Flying joined t₀ pollInterval w₀ p) {i j : ℕ} {f g : Flight S}
    (hi : p.flights i = some f) (hj : p.flights j = some g) : i = j ∧ f = g := by
  obtain ⟨hk, hf, -⟩ := h
  obtain ⟨_, hi'⟩ := hf i f hi
  obtain ⟨_, hj'⟩ := hf j g hj
  have h₁ := (hk.flying hi').1
  have h₂ := (hk.flying hj').1
  obtain rfl : i = j := by omega
  exact ⟨rfl, Option.some.inj (hi.symm.trans hj)⟩

/-- Without the thread of `i`, none flies where it was the only one. -/
theorem Flying.grounded (h : Flying joined t₀ pollInterval w₀ p) {i : ℕ} {f : Flight S}
    (hi : p.flights i = some f) (j : ℕ) : Function.update p.flights i none j = none := by
  by_cases hij : j = i
  · rw [hij, Function.update_self]
  · rw [Function.update_of_ne hij]
    cases hj : p.flights j with
    | none => rfl
    | some g => exact absurd (h.unique hi hj).1.symm hij

/-- A thread that is done, and its history. -/
theorem Flying.land (h : Flying joined t₀ pollInterval w₀ p) {i : ℕ} {f : Flight S} {r : Joined}
    {v : Service} (hi : p.flights i = some f) (hs : Serve pollInterval (.finish i r) p.service v)
    {recs : List (Record S)} (hh : History S w₀ recs p.world)
    (hall : ∀ r ∈ recs, ∃ out, r.out = some out)
    (hsub : (outs joined recs).Sublist (p.service.results ++ [r])) :
    Flying joined t₀ pollInterval w₀ (p.land v i) := by
  have hnone : ∀ j, (p.land v i).flights j = none := h.grounded hi
  refine ⟨accounted_step h.1 hs, fun j g hj => ?_, recs, p.world, hh, hall, ?_, .inl ⟨?_, rfl⟩⟩
  · rw [hnone j] at hj
    cases hj
  · rwa [show (p.land v i).service.results = _ from results_finish h.1 hs]
  · intro j c done rest hj
    rw [hnone j] at hj
    cases hj

/-- Its world, where nothing flies. -/
theorem OnWay.idle {w₁ : S.machine.World} (h : OnWay w₁ p) (hp : p.Idle) : p.world = w₁ := by
  obtain ⟨-, hw⟩ | ⟨i, c, done, rest, w₂, hi, -⟩ := h
  · exact hw
  · exact absurd hi (hp i c done rest)

/-- **The step lemma.** -/
theorem flying_step {a : Option Act} (h : Flying joined t₀ pollInterval w₀ p)
    (hl : Live pollInterval joined a p p') : Flying joined t₀ pollInterval w₀ p' := by
  obtain ⟨hk, hf, recs, w₁, hh, hall, hsub, hway⟩ := id h
  cases hl with
  | @serve _ a v hs ha hfin =>
    have hatt := serve_attempts hs ha hfin
    refine ⟨accounted_step hk hs, fun i f hi => ?_, recs, w₁, hh, hall, ?_, hway⟩
    · rw [hatt]
      exact hf i f hi
    · rwa [Service.results, hatt]
  | @spawn _ v hs =>
    have hatt := serve_spawn hs
    have hne : ∀ i f, p.flights i = some f → i ≠ p.service.attempts.length := fun i f hi => by
      obtain ⟨_, ha⟩ := hf i f hi
      exact (List.getElem?_eq_some_iff.mp ha).1.ne
    refine ⟨accounted_step hk hs, fun i f hi => ?_, recs, w₁, hh, hall, ?_, ?_⟩
    · show ∃ start, v.attempts[i]? = _
      rw [hatt]
      by_cases hlast : i = p.service.attempts.length
      · exact ⟨p.service.now, by rw [hlast]; simp⟩
      · rw [p.fly_ne v hlast] at hi
        obtain ⟨start, ha⟩ := hf i f hi
        exact ⟨start, List.getElem?_append_left (List.getElem?_eq_some_iff.mp ha).1 ▸ ha⟩
    · show (outs joined recs).Sublist v.results
      rw [Service.results, hatt, List.filterMap_append]
      exact hsub.trans (List.sublist_append_left _ _)
    · obtain ⟨hidle, hw⟩ | ⟨i, c, done, rest, w₂, hi, hrest⟩ := hway
      · refine .inl ⟨fun i c done rest hi => ?_, hw⟩
        by_cases hlast : i = p.service.attempts.length
        · rw [hlast, p.fly_self] at hi
          cases hi
        · rw [p.fly_ne v hlast] at hi
          exact hidle i c done rest hi
      · exact .inr ⟨i, c, done, rest, w₂, by rwa [p.fly_ne v (hne i _ hi)], hrest⟩
  | @connect _ i c w hp he =>
    -- no call is under way, since only this thread flies
    have hidle : p.Idle := fun j c' done rest hj => by
      have := (h.unique hp hj).2
      cases this
    refine ⟨hk, fun j f hj => ?_, recs, w₁, hh, hall, hsub, .inr ⟨i, c, [], S.prog c, w,
      p.fly_self _ i _ _, hway.idle hidle ▸ he, .nil⟩⟩
    by_cases hij : j = i
    · exact hij ▸ hf i _ hp
    · rw [p.fly_ne _ hij] at hj
      exact hf j f hj
  | @refuse _ i r v hp hr hs =>
    have hidle : p.Idle := fun j c' done rest hj => by
      have := (h.unique hp hj).2
      cases this
    exact h.land hp hs (hway.idle hidle ▸ hh) hall (hsub.trans (List.sublist_append_left _ _))
  | @op _ i c done rest rest' e w hp ho =>
    obtain ⟨hidle, -⟩ | ⟨j, c', done', rest₀, w₂, hj, he, hsteps⟩ := hway
    · exact absurd hp (hidle i c done rest)
    · obtain ⟨rfl, hflight⟩ := h.unique hp hj
      obtain ⟨rfl, rfl, rfl⟩ := Flight.running.inj hflight
      refine ⟨hk, fun j f hj => ?_, recs, w₁, hh, hall, hsub, .inr ⟨i, c, done ++ [e], rest', w₂,
        p.fly_self _ i _ _, he, hsteps.snoc ho⟩⟩
      by_cases hij : j = i
      · exact hij ▸ hf i _ hp
      · rw [p.fly_ne _ hij] at hj
        exact hf j f hj
  | @returned _ i c done out v hp hs =>
    obtain ⟨hidle, -⟩ | ⟨j, c', done', rest₀, w₂, hj, he, hsteps⟩ := hway
    · exact absurd hp (hidle i c done _)
    · obtain ⟨rfl, hflight⟩ := h.unique hp hj
      obtain ⟨rfl, rfl, rfl⟩ := Flight.running.inj hflight
      have hx : Exec S.machine w₂ (S.prog c) done (some out) p.world := by
        simpa using hsteps.exec (.ret p.world out)
      refine h.land hp hs (.run hh he hx) (fun r hr => ?_) ?_
      · rcases List.mem_append.mp hr with hr | hr
        · exact hall r hr
        · exact ⟨out, by rw [List.mem_singleton.mp hr]⟩
      · rw [outs, List.filterMap_append]
        exact hsub.append (List.Sublist.refl _)
  | @env _ w hp he =>
    refine ⟨hk, hf, recs, w, .env hh ?_, hall, hsub, .inl ⟨hp, rfl⟩⟩
    rwa [← hway.idle hp]

/-- **The run lemma.** -/
theorem flying_steps {as : List (Option Act)} (h : Steps (Live pollInterval joined)
    (.boot t₀ w₀) as p) : Flying joined t₀ pollInterval w₀ p := by
  refine h.induct (P := fun _ p => Flying joined t₀ pollInterval w₀ p) ?_
    fun _ _ _ _ => flying_step
  exact ⟨accounted_start, nofun, [], w₀, .nil, nofun, .slnil, .inl ⟨nofun, rfl⟩⟩

/-! ## 4. One life, and one after another -/

/-- **The life of a process** in the world `w`: what its attempts gave, whether it was killed, and the
    world it left. A kill leaves the world as it is, or as an operation leaves it that is cut. -/
inductive Life (pollInterval : ℕ) (joined : S.Out → Joined) (w : S.machine.World) :
    List Joined → Bool → S.machine.World → Prop where
  | stopped {t₀ : ℕ} {as : List (Option Act)} {p : Process S} {ok : Bool}
      (h : Steps (Live pollInterval joined) (.boot t₀ w) as p)
      (hp : p.service.phase = .stopped ok) : Life pollInterval joined w p.service.results false p.world
  | killed {t₀ : ℕ} {as : List (Option Act)} {p : Process S}
      (h : Steps (Live pollInterval joined) (.boot t₀ w) as p) :
      Life pollInterval joined w p.service.results true p.world
  | cut {t₀ : ℕ} {as : List (Option Act)} {p : Process S} {i : ℕ} {c : S.Call}
      {done : List (Event S.machine)} {op : I.Op} {k : I.Ans op → Prog I S.Out}
      {w' : S.machine.World} (h : Steps (Live pollInterval joined) (.boot t₀ w) as p)
      (hi : p.flights i = some (.running c done (.call op k))) (hc : S.machine.cut p.world op w') :
      Life pollInterval joined w p.service.results true w'

/-- **Lives one after another**: what all their attempts gave, and how many were killed. -/
inductive Lives (S : System I) (pollInterval : ℕ) (joined : S.Out → Joined) (w₀ : S.machine.World) :
    List Joined → ℕ → S.machine.World → Prop where
  | nil : Lives S pollInterval joined w₀ [] 0 w₀
  | env {rs : List Joined} {n : ℕ} {w w' : S.machine.World} (h : Lives S pollInterval joined w₀ rs n w)
      (he : S.env w w') : Lives S pollInterval joined w₀ rs n w'
  | life {rs rs' : List Joined} {n : ℕ} {killed : Bool} {w w' : S.machine.World}
      (h : Lives S pollInterval joined w₀ rs n w) (hl : Life pollInterval joined w rs' killed w') :
      Lives S pollInterval joined w₀ (rs ++ rs') (n + if killed then 1 else 0) w'

/-- How many runs of a history were killed. -/
def cuts (recs : List (Record S)) : ℕ := recs.countP (·.out.isNone)

/-- Finished runs. -/
theorem cuts_eq_zero {recs : List (Record S)} (h : ∀ r ∈ recs, ∃ out, r.out = some out) :
    cuts recs = 0 := by
  refine List.countP_eq_zero.mpr fun r hr => ?_
  obtain ⟨out, ho⟩ := h r hr
  simp [ho]

/-- A killed life: its finished runs, and the one it leaves. -/
theorem History.killed {recs : List (Record S)} {w₁ w' : S.machine.World}
    (hh : History S w₀ recs w₁) (hall : ∀ r ∈ recs, ∃ out, r.out = some out) {rs : List Joined}
    (hsub : (outs joined recs).Sublist rs) {c : S.Call} {done : List (Event S.machine)}
    {w₂ : S.machine.World} (he : S.enter c w₁ w₂) (hx : Exec S.machine w₂ (S.prog c) done none w') :
    ∃ recs', History S w₀ recs' w' ∧ cuts recs' ≤ 1 ∧ (outs joined recs').Sublist rs := by
  refine ⟨_, .run hh he hx, ?_, ?_⟩
  · rw [cuts, List.countP_append]
    have h₀ := cuts_eq_zero hall
    rw [cuts] at h₀
    simp [h₀]
  · rw [outs, List.filterMap_append]
    simpa [outs] using hsub

/-- **A life is a history**: its runs are finished unless it was killed, and then at most one is not. -/
theorem life_history {rs : List Joined} {killed : Bool} {w' : S.machine.World}
    (h : Life pollInterval joined w₀ rs killed w') :
    ∃ recs, History S w₀ recs w' ∧ cuts recs ≤ (if killed then 1 else 0) ∧
      (outs joined recs).Sublist rs := by
  cases h with
  | stopped h hp =>
    obtain ⟨hk, hf, recs, w₁, hh, hall, hsub, hway⟩ := flying_steps h
    -- with nothing to wait for, nothing flies
    have hidle : Process.Idle _ := fun i c done rest hi => by
      obtain ⟨_, ha⟩ := hf i _ hi
      obtain ⟨-, hw | hw⟩ := hk.flying ha
      · exact absurd (hp.symm.trans hw) (by simp)
      · exact absurd (hp.symm.trans hw) (by simp)
    exact ⟨recs, hway.idle hidle ▸ hh, (cuts_eq_zero hall).le, hsub⟩
  | killed h =>
    obtain ⟨hk, hf, recs, w₁, hh, hall, hsub, hway⟩ := flying_steps h
    obtain ⟨-, hw⟩ | ⟨i, c, done, rest, w₂, hi, he, hsteps⟩ := hway
    · exact ⟨recs, hw ▸ hh, (cuts_eq_zero hall).le.trans (Nat.zero_le _), hsub⟩
    · exact History.killed hh hall hsub he (hsteps.exec (.kill _ rest))
  | cut h hi hc =>
    have hfly := flying_steps h
    obtain ⟨hk, hf, recs, w₁, hh, hall, hsub, hway⟩ := id hfly
    obtain ⟨hidle, -⟩ | ⟨j, c, done, rest, w₂, hj, he, hsteps⟩ := hway
    · exact absurd hi (hidle _ _ _ _)
    · obtain ⟨rfl, hflight⟩ := hfly.unique hi hj
      obtain ⟨rfl, rfl, rfl⟩ := Flight.running.inj hflight
      exact History.killed hh hall hsub he (hsteps.exec (.cut _ hc))

/-- **The world sees a history.** Whatever the order in which `serve`, its threads, the signals, the
    clock and the surroundings take their acts, and wherever processes are killed and started again:
    what was done is a history of runs, with no more unfinished ones than processes were killed, whose
    finished ones gave, in order, what attempts gave. -/
theorem lives_history {rs : List Joined} {n : ℕ} {w : S.machine.World}
    (h : Lives S pollInterval joined w₀ rs n w) :
    ∃ recs, History S w₀ recs w ∧ cuts recs ≤ n ∧ (outs joined recs).Sublist rs := by
  induction h with
  | nil => exact ⟨[], .nil, Nat.le_refl 0, .slnil⟩
  | env _ he ih =>
    obtain ⟨recs, hh, hn, hsub⟩ := ih
    exact ⟨recs, .env hh he, hn, hsub⟩
  | life _ hl ih =>
    obtain ⟨recs, hh, hn, hsub⟩ := ih
    obtain ⟨recs', hh', hn', hsub'⟩ := life_history hl
    refine ⟨recs ++ recs', hh.append hh', ?_, ?_⟩
    · rw [cuts, List.countP_append]
      exact Nat.add_le_add hn hn'
    · rw [outs, List.filterMap_append]
      exact hsub.append hsub'

/-! ## 5. Every run is one of a life -/

/-- A thread goes on with its call. -/
theorem live_ops {v : Service} {i : ℕ} {c : S.Call} {done tr : List (Event S.machine)}
    {rest : Prog I S.Out} {w : S.machine.World} {q : Prog I S.Out × S.machine.World}
    (h : Steps (OpStep S.machine) (rest, w) tr q) :
    ∃ as, Steps (Live pollInterval joined) (p.fly v i (.running c done rest) w) as
      (p.fly v i (.running c (done ++ tr) q.1) q.2) := by
  induction h with
  | nil => exact ⟨[], by simpa using Steps.nil⟩
  | @snoc tr q q' e _ ho ih =>
    obtain ⟨as, h⟩ := ih
    have hop : Live pollInterval joined none (p.fly v i (.running c (done ++ tr) q.1) q.2)
        ((p.fly v i (.running c (done ++ tr) q.1) q.2).fly v i
          (.running c (done ++ tr ++ [e]) q'.1) q'.2) := .op (p.fly_self v i _ q.2) ho
    rw [Process.fly_fly, List.append_assoc] at hop
    exact ⟨_, h.snoc hop⟩

/-- The service with its first attempt under way, and once it gave `r`. -/
def firstAttempt (r : Option Joined) : Service :=
  ⟨0, .attempting, fun _ => false, [⟨0, r⟩], []⟩

/-- A service whose first attempt gave `r` stops: when it is asked to, or at once if it panicked. -/
theorem firstAttempt_stops (p : Process S) (r : Joined) : ∃ (as : List (Option Act)) (v : Service)
    (ok : Bool), Steps (Live pollInterval joined) { p with service := firstAttempt (some r) } as
      { p with service := v } ∧ v.phase = .stopped ok ∧ v.results = [r] := by
  cases r with
  | error e =>
    exact ⟨_, _, false, .one (.serve (.panicked rfl rfl) rfl rfl), rfl, rfl⟩
  | ok o =>
    have h₁ : Steps (Live pollInterval joined) { p with service := firstAttempt (some (.ok o)) }
        [some .outcome] { p with service := ⟨0, .sleeping false (0 + nextDelay o pollInterval),
          fun _ => false, [⟨0, some (.ok o)⟩], [⟨0, o⟩]⟩ } := .one (.serve (.outcome rfl rfl) rfl rfl)
    have h₂ := h₁.snoc (.serve (.arrive .interrupt) rfl rfl)
    exact ⟨_, _, true, h₂.snoc (.serve (.leave (k := .interrupt) rfl rfl) rfl rfl), rfl, rfl⟩

/-- **Every finished run is that of a life**: nothing was lost. -/
theorem life_run {c : S.Call} {w w₁ w' : S.machine.World} {tr : List (Event S.machine)} {out : S.Out}
    (he : S.enter c w w₁) (hx : Exec S.machine w₁ (S.prog c) tr (some out) w') :
    Life pollInterval joined w [joined out] false w' := by
  let p₁ : Process S := (Process.boot 0 w).fly (firstAttempt none) 0 .connecting w
  have h₁ : Steps (Live pollInterval joined) (.boot 0 w) [some .spawn] p₁ := .one (.spawn (.spawn rfl))
  have h₂ : Live pollInterval joined none p₁
      (p₁.fly (firstAttempt none) 0 (.running c [] (S.prog c)) w₁) := .connect (Process.fly_self ..) he
  obtain ⟨as, h₃⟩ : ∃ as, Steps (Live pollInterval joined)
      (p₁.fly (firstAttempt none) 0 (.running c [] (S.prog c)) w₁) as
      (p₁.fly (firstAttempt none) 0 (.running c tr (.ret out)) w') := live_ops hx.steps
  have h₄ : Serve pollInterval (.finish 0 (joined out)) (firstAttempt none)
      (firstAttempt (some (joined out))) := .finish _ rfl
  obtain ⟨bs, v, ok, h₅, hp, hr⟩ : ∃ (bs : List (Option Act)) (v : Service) (ok : Bool),
      Steps (Live pollInterval joined)
        ((p₁.fly (firstAttempt none) 0 (.running c tr (.ret out)) w').land
          (firstAttempt (some (joined out))) 0) bs
        { (p₁.fly (firstAttempt none) 0 (.running c tr (.ret out)) w').land
          (firstAttempt (some (joined out))) 0 with service := v } ∧
      v.phase = .stopped ok ∧ v.results = [joined out] :=
    firstAttempt_stops ((p₁.fly (firstAttempt none) 0 (.running c tr (.ret out)) w').land
      (firstAttempt (some (joined out))) 0) (joined out)
  have hlife := ((h₁.snoc h₂).append h₃).snoc (.returned (p₁.fly_self _ 0 _ w') h₄)
  exact hr ▸ .stopped (hlife.append h₅) hp

end

/-! ## 6. The validator's -/

/-- What a thread gives for the value of `Config::run_once`: a panic ends it. -/
def joinedRun {α : Type} : Except RunError α → Joined
  | .error .panicked => .error ⟨⟩
  | .error e => .ok (.error e)
  | .ok _ => .ok (.ok ())

/-- A process that runs once against the node of the tests. -/
theorem lives_nodeRun : ∃ rs, Lives (nodeSystem nodeShared anyLaw ⟨"g", "v"⟩ 46) 300000 joinedRun
    (hostAt 400) rs 0 (hostAfterRun anyLaw true (hostAt 400) false) := by
  have he : (nodeSystem nodeShared anyLaw ⟨"g", "v"⟩ 46).enter (nodeRun false) (hostAt 400)
      { hostAt 400 with epoch := (nodeRun false).epochEnd } := ⟨rfl, serves_nodeRun false⟩
  exact ⟨_, .life .nil (life_run he (Exec.eval (M := machine anyLaw)
    (act_calm (obeyed_anyLaw "v") true) (runOnce (nodeRun false)).run _))⟩

theorem lives_history_test : ∃ rs recs, History (nodeSystem nodeShared anyLaw ⟨"g", "v"⟩ 46)
    (hostAt 400) recs (hostAfterRun anyLaw true (hostAt 400) false) ∧ cuts recs ≤ 0 ∧
    (outs joinedRun recs).Sublist rs := by
  obtain ⟨rs, h⟩ := lives_nodeRun
  exact ⟨rs, lives_history h⟩

end Sn46Validator.Validator
