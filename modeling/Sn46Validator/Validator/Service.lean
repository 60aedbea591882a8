/-
  File:      Validator/Service.lean
  Subject:   THE SERVICE: attempt after attempt, until a signal asks it to stop.

  `serve` runs each attempt on a thread of its own and waits for it, for the next one's time, and for
  two signals. What it waits for can happen in any order and between any two of its own acts.

  * `nextDelay` -- **`next_delay`**;
  * `Service`, `Serve` -- **`serve`**: where it stands, its attempts, the signals it has not taken yet;
    one rule for each branch of its two `select!`s, and three for what it does not do itself;
  * `Accounted` -- what holds in every state, `accounted_step` its step lemma;
  * `serve_accounts` -- **no attempt is left behind**: `serve` returns with none in flight, and each one
    that finished was logged, in order;
  * `serve_stops` -- **a signal ends it**: at most one attempt starts after it, none while one is in
    flight, and nothing is waited for but that one;
  * `serve_paced` -- **attempts keep their distance**.
-/
import Sn46Validator.Library.Steps
import Sn46Validator.Validator.Run

namespace Sn46Validator.Validator

open Library

/-! ## 1. The delay -/

/-- `STALE_RETRY`, in milliseconds. -/
def staleRetry : ℕ := 30 * 1000

/-- **`next_delay`**, in milliseconds. -/
def nextDelay (outcome : Except RunError Unit) (pollInterval : ℕ) : ℕ :=
  match outcome with
  | .error (.chain .staleEpoch) => min staleRetry pollInterval
  | _ => pollInterval

/-- No delay is shorter than a stale one. -/
theorem nextDelay_ge (outcome : Except RunError Unit) (pollInterval : ℕ) :
    min staleRetry pollInterval ≤ nextDelay outcome pollInterval := by
  unfold nextDelay
  split
  · exact Nat.le_refl _
  · exact Nat.min_le_right _ _

/-! ## 2. The service -/

/-- The two signals `serve` listens to. -/
inductive Signal where
  | interrupt
  | terminate
  deriving DecidableEq

/-- The attempt's thread panicked. -/
structure JoinError where

/-- What joining the attempt's thread gives. -/
abbrev Joined : Type := Except JoinError (Except RunError Unit)

/-- An attempt on its thread: when it was spawned, and what it gave. -/
structure Attempt where
  start : ℕ
  result : Option (Joined)

/-- An outcome that was logged, and when. -/
structure Logged where
  time : ℕ
  outcome : Except RunError Unit

/-- **Where `serve` stands.** `sleeping polled deadline`: a sleep is not over before it was polled once,
    which is when `select!` looks at the signals too. -/
inductive Phase where
  | spawning
  | attempting
  | finishing
  | sleeping (polled : Bool) (deadline : ℕ)
  | stopped (ok : Bool)
  deriving DecidableEq

/-- **The service**: the clock, in milliseconds, its attempts and the signals it has not taken yet. -/
structure Service where
  now : ℕ
  phase : Phase
  pending : Signal → Bool
  attempts : List Attempt
  logged : List Logged

/-- The service as it starts. -/
def Service.start (now : ℕ) : Service := ⟨now, .spawning, fun _ => false, [], []⟩

/-- What the attempt that is waited for gave. -/
def Service.gave (s : Service) : Option (Joined) :=
  s.attempts.getLast? >>= Attempt.result

def Service.record (s : Service) (k : Signal) : Service :=
  { s with pending := fun k' => decide (k' = k) || s.pending k' }

def Service.take (s : Service) (k : Signal) : Service :=
  { s with pending := fun k' => decide (k' ≠ k) && s.pending k' }

/-- `log_outcome`. -/
def Service.log (s : Service) (outcome : Except RunError Unit) : Service :=
  { s with logged := s.logged ++ [⟨s.now, outcome⟩] }

/-- **The acts.** The first three are not `serve`'s own. -/
inductive Act where
  | elapse (now : ℕ)
  | arrive (k : Signal)
  | finish (i : ℕ) (result : Joined)
  | spawn
  | outcome
  | shutdown (k : Signal)
  | finished
  | settle
  | wake
  | leave (k : Signal)

/-- The acts of `serve` itself. -/
def Act.own : Act → Bool
  | .elapse _ | .arrive _ | .finish _ _ => false
  | _ => true

def Act.spawns : Act → Bool
  | .spawn => true
  | _ => false

def Act.finishes : Act → Bool
  | .finish _ _ => true
  | _ => false

/-- **`serve`**, one act at a time. A `select!` takes any of its branches that is ready. -/
inductive Serve (pollInterval : ℕ) : Act → Service → Service → Prop where
  | elapse {s : Service} {now : ℕ} (h : s.now ≤ now) :
      Serve pollInterval (.elapse now) s { s with now := now }
  | arrive {s : Service} (k : Signal) : Serve pollInterval (.arrive k) s (s.record k)
  | finish {s : Service} {i start : ℕ} (r : Joined)
      (h : s.attempts[i]? = some ⟨start, none⟩) :
      Serve pollInterval (.finish i r) s { s with attempts := s.attempts.set i ⟨start, some r⟩ }
  | spawn {s : Service} (h : s.phase = .spawning) :
      Serve pollInterval .spawn s
        { s with phase := .attempting, attempts := s.attempts ++ [⟨s.now, none⟩] }
  -- the first `select!`: the attempt, or a signal
  | outcome {s : Service} {o : Except RunError Unit} (h : s.phase = .attempting)
      (ho : s.gave = some (.ok o)) :
      Serve pollInterval .outcome s
        { s.log o with phase := .sleeping false (s.now + nextDelay o pollInterval) }
  | panicked {s : Service} {e : JoinError} (h : s.phase = .attempting)
      (ho : s.gave = some (.error e)) :
      Serve pollInterval .outcome s { s with phase := .stopped false }
  | shutdown {s : Service} {k : Signal} (h : s.phase = .attempting) (hk : s.pending k = true) :
      Serve pollInterval (.shutdown k) s { s.take k with phase := .finishing }
  -- `attempt.await` after a signal
  | finished {s : Service} {o : Except RunError Unit} (h : s.phase = .finishing)
      (ho : s.gave = some (.ok o)) :
      Serve pollInterval .finished s { s.log o with phase := .stopped true }
  | lost {s : Service} {e : JoinError} (h : s.phase = .finishing)
      (ho : s.gave = some (.error e)) :
      Serve pollInterval .finished s { s with phase := .stopped false }
  -- the second `select!`: the sleep, or a signal
  | settle {s : Service} {deadline : ℕ} (h : s.phase = .sleeping false deadline)
      (hk : ∀ k, s.pending k = false) :
      Serve pollInterval .settle s { s with phase := .sleeping true deadline }
  | wake {s : Service} {deadline : ℕ} (h : s.phase = .sleeping true deadline)
      (hd : deadline ≤ s.now) : Serve pollInterval .wake s { s with phase := .spawning }
  | leave {s : Service} {k : Signal} {polled : Bool} {deadline : ℕ}
      (h : s.phase = .sleeping polled deadline) (hk : s.pending k = true) :
      Serve pollInterval (.leave k) s { s.take k with phase := .stopped true }

/-! ## 3. What holds in every state -/

/-- How many attempts are spawned and not logged. -/
def Phase.unlogged : Phase → ℕ
  | .attempting | .finishing | .stopped false => 1
  | _ => 0

/-- What the last logged outcome says of the time. -/
def Rested (pollInterval now : ℕ) (l : Logged) : Phase → Prop
  | .spawning => l.time + nextDelay l.outcome pollInterval ≤ now
  | .sleeping _ deadline => deadline = l.time + nextDelay l.outcome pollInterval
  | _ => True

/-- **What holds in every state** of a service that started at `t₀`. -/
structure Accounted (pollInterval t₀ : ℕ) (s : Service) : Prop where
  length : s.attempts.length = s.logged.length + s.phase.unlogged
  logged : ∀ (i : ℕ) (l : Logged), s.logged[i]? = some l →
    ∃ t ≤ l.time, s.attempts[i]? = some ⟨t, some (.ok l.outcome)⟩
  failed : s.phase = .stopped false → ∃ e, s.gave = some (.error e)
  began : t₀ ≤ s.now ∧ ∀ a ∈ s.attempts, t₀ ≤ a.start ∧ a.start ≤ s.now
  paced : ∀ (i : ℕ) (l : Logged) (a : Attempt), s.logged[i]? = some l → s.attempts[i + 1]? = some a →
    l.time + nextDelay l.outcome pollInterval ≤ a.start
  rested : ∀ l, s.logged.getLast? = some l → Rested pollInterval s.now l s.phase

variable {pollInterval t₀ : ℕ} {s s' : Service}

theorem accounted_start : Accounted pollInterval t₀ (.start t₀) where
  length := rfl
  logged := by simp [Service.start]
  failed := by simp [Service.start]
  began := by simp [Service.start]
  paced := by simp [Service.start]
  rested := by simp [Service.start]

/-- The attempt that is waited for is the last. -/
theorem Service.gave_some {r : Joined} (h : s.gave = some r) :
    ∃ start, s.attempts[s.attempts.length - 1]? = some ⟨start, some r⟩ := by
  unfold Service.gave at h
  rw [List.getLast?_eq_getElem?] at h
  obtain ⟨⟨start, r'⟩, ha, hr⟩ := Option.bind_eq_some_iff.mp h
  exact ⟨start, by rw [ha]; exact congrArg _ (congrArg _ hr)⟩

/-- Signals change nothing else. -/
theorem Accounted.signals (h : Accounted pollInterval t₀ s) (p : Signal → Bool) :
    Accounted pollInterval t₀ { s with pending := p } :=
  ⟨h.length, h.logged, h.failed, h.began, h.paced, h.rested⟩

/-- Another phase, with the same attempts. -/
theorem Accounted.phase (h : Accounted pollInterval t₀ s) {p : Phase} (hu : p.unlogged = s.phase.unlogged)
    (hf : p = .stopped false → ∃ e, s.gave = some (.error e))
    (hr : ∀ l, s.logged.getLast? = some l → Rested pollInterval s.now l p) :
    Accounted pollInterval t₀ { s with phase := p } :=
  ⟨by rw [h.length, hu], h.logged, hf, h.began, h.paced, hr⟩

/-- An outcome is logged. -/
theorem Accounted.log (h : Accounted pollInterval t₀ s) (hu : s.phase.unlogged = 1)
    {o : Except RunError Unit} (ho : s.gave = some (.ok o)) {p : Phase} (hp : p.unlogged = 0)
    (hr : Rested pollInterval s.now ⟨s.now, o⟩ p) :
    Accounted pollInterval t₀ { s.log o with phase := p } where
  length := by
    show s.attempts.length = (s.logged ++ [_]).length + p.unlogged
    rw [h.length, hu, hp, List.length_append, List.length_singleton]
  logged := by
    intro i l hl
    obtain ⟨start, ha⟩ := s.gave_some ho
    rw [h.length, hu, Nat.add_sub_cancel] at ha
    rcases Nat.lt_trichotomy i s.logged.length with hi | rfl | hi
    · exact h.logged i l (by rwa [Service.log, List.getElem?_append_left hi] at hl)
    · rw [Service.log, List.getElem?_append_right (Nat.le_refl _), Nat.sub_self] at hl
      obtain rfl := Option.some.inj hl
      exact ⟨start, (h.began.2 _ (List.mem_of_getElem? ha)).2, ha⟩
    · rw [Service.log, List.getElem?_eq_none (by simp; omega)] at hl
      cases hl
  failed := by
    intro hf
    rw [show p = .stopped false from hf] at hp
    cases hp
  began := h.began
  paced := by
    intro i l a hl ha
    have hi : i + 1 < s.attempts.length := (List.getElem?_eq_some_iff.mp ha).1
    rw [h.length, hu] at hi
    exact h.paced i l a (by rwa [Service.log, List.getElem?_append_left (by omega)] at hl) ha
  rested := by
    intro l hl
    rw [Service.log, List.getLast?_concat] at hl
    obtain rfl := Option.some.inj hl
    exact hr

/-- An attempt is spawned. -/
theorem Accounted.spawn (h : Accounted pollInterval t₀ s) (hp : s.phase = .spawning) :
    Accounted pollInterval t₀
      { s with phase := .attempting, attempts := s.attempts ++ [⟨s.now, none⟩] } where
  length := by
    show (s.attempts ++ [_]).length = _
    rw [List.length_append, h.length, hp]
    rfl
  logged := by
    intro i l hl
    obtain ⟨t, ht, ha⟩ := h.logged i l hl
    exact ⟨t, ht, List.getElem?_append_left (List.getElem?_eq_some_iff.mp ha).1 ▸ ha⟩
  failed := nofun
  began := by
    refine ⟨h.began.1, fun a ha => ?_⟩
    rcases List.mem_append.mp ha with ha | ha
    · exact h.began.2 a ha
    · obtain rfl := List.mem_singleton.mp ha
      exact ⟨h.began.1, Nat.le_refl _⟩
  paced := by
    intro i l a hl ha
    have hlen : s.attempts.length = s.logged.length := by rw [h.length, hp]; rfl
    have hi : i < s.logged.length := (List.getElem?_eq_some_iff.mp hl).1
    by_cases hlast : i + 1 < s.attempts.length
    · exact h.paced i l a hl (by rwa [List.getElem?_append_left hlast] at ha)
    · -- the last outcome: its rest is over
      have he : i + 1 = s.attempts.length := by omega
      rw [he, List.getElem?_append_right (Nat.le_refl _), Nat.sub_self] at ha
      obtain rfl := Option.some.inj ha
      have hg : s.logged.getLast? = some l := by
        rw [List.getLast?_eq_getElem?, ← hlen, ← he, Nat.add_sub_cancel, hl]
      have hr := h.rested l hg
      rwa [hp] at hr
  rested := fun _ _ => trivial

/-- An attempt ends. -/
theorem Accounted.finish (h : Accounted pollInterval t₀ s) {i start : ℕ}
    {r : Joined}
    (ha : s.attempts[i]? = some ⟨start, none⟩) :
    Accounted pollInterval t₀ { s with attempts := s.attempts.set i ⟨start, some r⟩ } where
  length := by
    show (s.attempts.set i _).length = _
    rw [List.length_set]
    exact h.length
  logged := by
    intro j l hl
    obtain ⟨t, ht, hj⟩ := h.logged j l hl
    have hne : i ≠ j := fun he => by
      rw [← he, ha] at hj
      cases hj
    exact ⟨t, ht, by rw [List.getElem?_set_ne hne, hj]⟩
  failed := by
    intro hf
    obtain ⟨e, he⟩ := h.failed hf
    obtain ⟨t, hlast⟩ := s.gave_some he
    have hne : i ≠ s.attempts.length - 1 := fun he => by
      rw [← he, ha] at hlast
      cases hlast
    refine ⟨e, ?_⟩
    show (s.attempts.set i _).getLast? >>= Attempt.result = _
    rw [List.getLast?_eq_getElem?, List.length_set, List.getElem?_set_ne hne, hlast]
    rfl
  began := by
    refine ⟨h.began.1, fun a hmem => ?_⟩
    rcases List.mem_or_eq_of_mem_set hmem with hmem | rfl
    · exact h.began.2 a hmem
    · exact h.began.2 ⟨start, none⟩ (List.mem_of_getElem? ha)
  paced := by
    intro j l a hl hj
    by_cases hij : i = j + 1
    · have hj' : s.attempts[j + 1]? = some ⟨start, none⟩ := hij ▸ ha
      rw [hij, List.getElem?_set_self (List.getElem?_eq_some_iff.mp hj').1] at hj
      obtain rfl := Option.some.inj hj
      exact h.paced j l ⟨start, none⟩ hl hj'
    · exact h.paced j l a hl (by rwa [List.getElem?_set_ne hij] at hj)
  rested := h.rested

/-- **The step lemma.** -/
theorem accounted_step {a : Act} (h : Accounted pollInterval t₀ s) (hs : Serve pollInterval a s s') :
    Accounted pollInterval t₀ s' := by
  cases hs with
  | elapse hle =>
    refine ⟨h.length, h.logged, h.failed, ⟨h.began.1.trans hle, fun a ha => ?_⟩, h.paced,
      fun l hl => ?_⟩
    · exact ⟨(h.began.2 a ha).1, (h.began.2 a ha).2.trans hle⟩
    · have hr := h.rested l hl
      revert hr
      show Rested _ _ l s.phase → Rested _ _ l s.phase
      cases s.phase with
      | spawning => exact fun hr => Nat.le_trans hr hle
      | _ => exact id
  | arrive k => exact h.signals _
  | finish r ha => exact h.finish ha
  | spawn hp => exact h.spawn hp
  | outcome hp ho => exact h.log (by rw [hp]; rfl) ho rfl rfl
  | panicked hp ho =>
    exact h.phase (by rw [hp]; rfl) (fun _ => ⟨_, ho⟩) fun _ _ => trivial
  | shutdown hp hk =>
    exact (h.signals _).phase (by show _ = s.phase.unlogged; rw [hp]; rfl) nofun
      fun _ _ => trivial
  | finished hp ho => exact h.log (by rw [hp]; rfl) ho rfl trivial
  | lost hp ho => exact h.phase (by rw [hp]; rfl) (fun _ => ⟨_, ho⟩) fun _ _ => trivial
  | settle hp hk =>
    refine h.phase (by rw [hp]; rfl) nofun fun l hl => ?_
    have hr := h.rested l hl
    rwa [hp] at hr
  | wake hp hd =>
    refine h.phase (by rw [hp]; rfl) nofun fun l hl => ?_
    have hr := h.rested l hl
    rw [hp] at hr
    exact (Nat.le_of_eq hr.symm).trans hd
  | leave hp hk =>
    exact (h.signals _).phase (by show _ = s.phase.unlogged; rw [hp]; rfl) nofun
      fun _ _ => trivial

theorem accounted_steps {as : List Act} (h : Steps (Serve pollInterval) (.start t₀) as s) :
    Accounted pollInterval t₀ s :=
  h.induct (P := fun _ s => Accounted pollInterval t₀ s) accounted_start fun _ _ _ _ => accounted_step

/-! ## 4. No attempt is left behind -/

/-- An attempt is waited for. -/
def Phase.Waits (p : Phase) : Prop := p = .attempting ∨ p = .finishing

/-- The results of the attempts: what was logged, and the rest. -/
theorem Accounted.results (h : Accounted pollInterval t₀ s) : ∃ rest : List Attempt,
    s.attempts.map Attempt.result =
      s.logged.map (fun l => some (.ok l.outcome)) ++ rest.map Attempt.result ∧
    rest.length = s.phase.unlogged ∧ (rest ≠ [] → rest.getLast? = s.attempts.getLast?) := by
  have hlen : s.logged.length ≤ s.attempts.length := h.length ▸ Nat.le_add_right _ _
  refine ⟨s.attempts.drop s.logged.length, ?_, ?_, fun hne => ?_⟩
  · conv_lhs => rw [← List.take_append_drop s.logged.length s.attempts, List.map_append]
    congr 1
    refine List.ext_getElem? fun i => ?_
    rw [List.getElem?_map, List.getElem?_map, List.getElem?_take]
    split_ifs with hi
    · obtain ⟨t, -, ha⟩ := h.logged i s.logged[i] (List.getElem?_eq_getElem hi)
      rw [ha, List.getElem?_eq_getElem hi]
      rfl
    · rw [List.getElem?_eq_none (Nat.not_lt.mp hi)]
      rfl
  · rw [List.length_drop, h.length, Nat.add_sub_cancel_left]
  · rw [List.getLast?_drop, if_neg]
    intro hle
    exact hne (List.drop_eq_nil_of_le hle)

/-- An attempt in flight is the last one, and is waited for. -/
theorem Accounted.flying (h : Accounted pollInterval t₀ s) {i start : ℕ}
    (ha : s.attempts[i]? = some ⟨start, none⟩) :
    i + 1 = s.attempts.length ∧ s.phase.Waits := by
  have hi : i < s.attempts.length := (List.getElem?_eq_some_iff.mp ha).1
  have hge : s.logged.length ≤ i := by
    by_contra hlt
    obtain ⟨t, -, hl⟩ := h.logged i s.logged[i] (List.getElem?_eq_getElem (Nat.not_le.mp hlt))
    rw [ha] at hl
    cases hl
  have hlen := h.length
  unfold Phase.Waits
  cases hp : s.phase with
  | attempting => simp only [hp, Phase.unlogged] at hlen; exact ⟨by omega, .inl rfl⟩
  | finishing => simp only [hp, Phase.unlogged] at hlen; exact ⟨by omega, .inr rfl⟩
  | spawning => simp only [hp, Phase.unlogged] at hlen; omega
  | sleeping => simp only [hp, Phase.unlogged] at hlen; omega
  | stopped ok =>
    cases ok with
    | true => simp only [hp, Phase.unlogged] at hlen; omega
    | false =>
      -- the last attempt panicked
      obtain ⟨e, he⟩ := h.failed hp
      obtain ⟨t, hlast⟩ := s.gave_some he
      simp only [hp, Phase.unlogged] at hlen
      rw [show s.attempts.length - 1 = i by omega, ha] at hlast
      cases hlast

/-- **No attempt is left behind.** At any time at most the last attempt is in flight, and `serve` waits
    for it; when `serve` returns, the attempts gave what was logged, in order, and nothing else but the
    panic that it reports. -/
theorem serve_accounts {as : List Act} (h : Steps (Serve pollInterval) (.start t₀) as s) :
    (∀ (i start : ℕ), s.attempts[i]? = some ⟨start, none⟩ →
      i + 1 = s.attempts.length ∧ s.phase.Waits) ∧
    (s.phase = .stopped true →
      s.attempts.map Attempt.result = s.logged.map fun l => some (.ok l.outcome)) ∧
    (s.phase = .stopped false → ∃ e,
      s.attempts.map Attempt.result =
        (s.logged.map fun l => some (.ok l.outcome)) ++ [some (.error e)]) := by
  have hk := accounted_steps h
  obtain ⟨rest, hres, hlen, hlast⟩ := hk.results
  refine ⟨fun i start ha => hk.flying ha, fun hok => ?_, fun hok => ?_⟩
  · rw [hok] at hlen
    obtain rfl := List.length_eq_zero_iff.mp hlen
    rw [hres, List.map_nil, List.append_nil]
  · obtain ⟨e, he⟩ := hk.failed hok
    rw [hok] at hlen
    obtain ⟨a, rfl⟩ := List.length_eq_one_iff.mp hlen
    have ha : a.result = some (.error e) := by
      unfold Service.gave at he
      rwa [← hlast (by simp)] at he
    exact ⟨e, by rw [hres, List.map_singleton, ha]⟩

/-! ## 5. A signal ends it -/

/-- A signal was recorded, and `serve` has it or will take it. -/
def Asked (s : Service) : Prop :=
  (∃ k, s.pending k = true) ∨ s.phase = .finishing ∨ ∃ ok, s.phase = .stopped ok

/-- How many acts of its own `serve` has left once it was asked. -/
def Phase.left : Phase → ℕ
  | .stopped _ => 0
  | .finishing | .sleeping false _ => 1
  | .attempting => 2
  | .spawning => 3
  | .sleeping true _ => 4

/-- How many attempts it has left to spawn. -/
def Phase.spawns : Phase → ℕ
  | .spawning | .sleeping true _ => 1
  | _ => 0

/-- **The step lemma** of a service that was asked to stop. -/
theorem asked_step {a : Act} (h : Asked s) (hs : Serve pollInterval a s s') :
    Asked s' ∧ s'.phase.left + (if a.own then 1 else 0) ≤ s.phase.left ∧
      s'.phase.spawns + (if a.spawns then 1 else 0) ≤ s.phase.spawns := by
  -- a pending signal is kept by whatever does not take it
  have hkeep : ∀ p : Phase, s.phase ≠ .finishing → (∀ ok, s.phase ≠ .stopped ok) →
      Asked { s with phase := p } := fun p hf hst => by
    obtain hk | hp | ⟨ok, hp⟩ := h
    · exact .inl hk
    · exact absurd hp hf
    · exact absurd hp (hst ok)
  cases hs with
  | elapse => exact ⟨h, by simp [Act.own], by simp [Act.spawns]⟩
  | arrive k => exact ⟨.inl ⟨k, by simp [Service.record]⟩, by simp [Service.record, Act.own],
      by simp [Service.record, Act.spawns]⟩
  | finish => exact ⟨h, by simp [Act.own], by simp [Act.spawns]⟩
  | spawn hp =>
    exact ⟨hkeep .attempting (by simp [hp]) (by simp [hp]), by simp [hp, Phase.left, Act.own],
      by simp [hp, Phase.spawns, Act.spawns]⟩
  | outcome hp ho =>
    exact ⟨hkeep _ (by simp [hp]) (by simp [hp]), by simp [hp, Phase.left, Act.own],
      by simp [hp, Phase.spawns, Act.spawns]⟩
  | panicked hp ho =>
    exact ⟨.inr (.inr ⟨false, rfl⟩), by simp [hp, Phase.left, Act.own],
      by simp [hp, Phase.spawns, Act.spawns]⟩
  | shutdown hp hk =>
    exact ⟨.inr (.inl rfl), by simp [hp, Phase.left, Act.own],
      by simp [hp, Phase.spawns, Act.spawns]⟩
  | finished hp ho =>
    exact ⟨.inr (.inr ⟨true, rfl⟩), by simp [hp, Phase.left, Act.own],
      by simp [hp, Phase.spawns, Act.spawns]⟩
  | lost hp ho =>
    exact ⟨.inr (.inr ⟨false, rfl⟩), by simp [hp, Phase.left, Act.own],
      by simp [hp, Phase.spawns, Act.spawns]⟩
  | settle hp hk =>
    -- it looked at the signals and saw none
    obtain ⟨k, hk'⟩ | hp' | ⟨ok, hp'⟩ := h
    · exact absurd (hk k) (by simp [hk'])
    · exact absurd hp' (by simp [hp])
    · exact absurd hp' (by simp [hp])
  | wake hp hd =>
    exact ⟨hkeep .spawning (by simp [hp]) (by simp [hp]), by simp [hp, Phase.left, Act.own],
      by simp [hp, Phase.spawns, Act.spawns]⟩
  | @leave s k polled deadline hp hk =>
    refine ⟨.inr (.inr ⟨true, rfl⟩), ?_, by simp [Phase.spawns, Act.spawns]⟩
    cases polled <;> simp [hp, Phase.left, Act.own]

/-- **It is never stuck**: it has an act of its own, or waits for the attempt in flight. -/
theorem asked_acts (h : Asked s) (hk : Accounted pollInterval t₀ s) :
    (∃ ok, s.phase = .stopped ok) ∨
    (∃ (a : Act) (s' : Service), a.own = true ∧ Serve pollInterval a s s') ∨
    s.phase = .finishing ∧ ∃ (i start : ℕ), s.attempts[i]? = some ⟨start, none⟩ := by
  cases hp : s.phase with
  | stopped ok => exact .inl ⟨ok, rfl⟩
  | spawning => exact .inr (.inl ⟨_, _, rfl, .spawn hp⟩)
  | finishing =>
    have hlen := hk.length
    simp only [hp, Phase.unlogged] at hlen
    have hi : s.attempts.length - 1 < s.attempts.length := by omega
    have hlast : s.attempts.getLast? = some s.attempts[s.attempts.length - 1] := by
      rw [List.getLast?_eq_getElem?, List.getElem?_eq_getElem hi]
    cases hr : s.attempts[s.attempts.length - 1].result with
    | none =>
      refine .inr (.inr ⟨rfl, s.attempts.length - 1, s.attempts[s.attempts.length - 1].start, ?_⟩)
      rw [List.getElem?_eq_getElem hi, ← hr]
    | some r =>
      have hg : s.gave = some r := by
        rw [Service.gave, hlast]
        exact hr
      cases r with
      | ok o => exact .inr (.inl ⟨.finished, _, rfl, .finished hp hg⟩)
      | error e => exact .inr (.inl ⟨.finished, _, rfl, .lost hp hg⟩)
  | attempting =>
    obtain ⟨k, hk'⟩ | hp' | ⟨ok, hp'⟩ := h
    · exact .inr (.inl ⟨_, _, rfl, .shutdown hp hk'⟩)
    · exact absurd hp' (by simp [hp])
    · exact absurd hp' (by simp [hp])
  | sleeping polled deadline =>
    obtain ⟨k, hk'⟩ | hp' | ⟨ok, hp'⟩ := h
    · exact .inr (.inl ⟨_, _, rfl, .leave hp hk'⟩)
    · exact absurd hp' (by simp [hp])
    · exact absurd hp' (by simp [hp])

/-- **A signal ends it.** After a signal, whatever else happens and in whatever order: at most one
    attempt is spawned, none where one was waited for; `serve` takes at most four acts of its own; and
    until it has stopped it has such an act, or waits for the attempt in flight. -/
theorem serve_stops {as bs : List Act} (h : Steps (Serve pollInterval) (.start t₀) as s)
    (k : Signal) (h' : Steps (Serve pollInterval) (s.record k) bs s') :
    bs.countP Act.spawns ≤ 1 ∧ (s.phase.Waits → bs.countP Act.spawns = 0) ∧
    bs.countP Act.own ≤ 4 ∧
    ((∃ ok, s'.phase = .stopped ok) ∨
      (∃ (a : Act) (s'' : Service), a.own = true ∧ Serve pollInterval a s' s'') ∨
      s'.phase = .finishing ∧ ∃ (i start : ℕ), s'.attempts[i]? = some ⟨start, none⟩) := by
  have h₀ : Asked (s.record k) := .inl ⟨k, by simp [Service.record]⟩
  obtain ⟨-, hown⟩ := h'.ranked Asked Act.own (·.phase.left) h₀
    fun a s s' ha hs => ⟨(asked_step ha hs).1, (asked_step ha hs).2.1⟩
  obtain ⟨hasked, hspawn⟩ := h'.ranked Asked Act.spawns (·.phase.spawns) h₀
    fun a s s' ha hs => ⟨(asked_step ha hs).1, (asked_step ha hs).2.2⟩
  have hphase : (s.record k).phase = s.phase := rfl
  rw [hphase] at hown hspawn
  have hleft : s.phase.left ≤ 4 := by
    unfold Phase.left
    split <;> omega
  have hone : s.phase.spawns ≤ 1 := by
    unfold Phase.spawns
    split <;> omega
  have hkept : Accounted pollInterval t₀ s' := accounted_steps ((h.snoc (.arrive k)).append h')
  refine ⟨by omega, fun hw => ?_, by omega, asked_acts hasked hkept⟩
  have hzero : s.phase.spawns = 0 := by
    obtain hp | hp := hw <;> rw [hp] <;> rfl
  omega

/-! ## 6. Attempts keep their distance -/

/-- **Attempts keep their distance.** Each attempt after the first starts no sooner after the outcome
    before it was logged than that outcome's delay; so the starts are at least the shortest delay
    apart. -/
theorem serve_paced {as : List Act} (h : Steps (Serve pollInterval) (.start t₀) as s) :
    (∀ (i : ℕ) (a : Attempt), s.attempts[i + 1]? = some a → ∃ l, s.logged[i]? = some l ∧
      l.time + nextDelay l.outcome pollInterval ≤ a.start) ∧
    ∀ (i : ℕ) (a : Attempt), s.attempts[i]? = some a →
      t₀ + i * min staleRetry pollInterval ≤ a.start := by
  have hk := accounted_steps h
  have hprev : ∀ (i : ℕ) (a : Attempt), s.attempts[i + 1]? = some a → ∃ l, s.logged[i]? = some l ∧
      l.time + nextDelay l.outcome pollInterval ≤ a.start := fun i a ha => by
    have hi : i + 1 < s.attempts.length := (List.getElem?_eq_some_iff.mp ha).1
    have hlen := hk.length
    have hu : s.phase.unlogged ≤ 1 := by
      unfold Phase.unlogged
      split <;> omega
    have hlt : i < s.logged.length := by omega
    have hl : s.logged[i]? = some s.logged[i] := List.getElem?_eq_getElem hlt
    exact ⟨s.logged[i], hl, hk.paced i _ a hl ha⟩
  refine ⟨hprev, fun i => ?_⟩
  induction i with
  | zero =>
    intro a ha
    rw [Nat.zero_mul]
    exact (hk.began.2 a (List.mem_of_getElem? ha)).1
  | succ i ih =>
    intro a ha
    obtain ⟨l, hl, hle⟩ := hprev i a ha
    obtain ⟨t, ht, ha'⟩ := hk.logged i l hl
    have hstart := ih _ ha'
    have hge := nextDelay_ge l.outcome pollInterval
    rw [Nat.succ_mul]
    dsimp only at hstart
    omega

/-! ## 7. A test run -/

/-- A stale attempt, the next one thirty seconds later, and `SIGTERM` while it runs. -/
def staleService : Service where
  now := 31000
  phase := .attempting
  pending := fun _ => false
  attempts := [⟨0, some (.ok (.error (.chain .staleEpoch)))⟩, ⟨31000, none⟩]
  logged := [⟨1000, .error (.chain .staleEpoch)⟩]

theorem staleService_steps : ∃ as, Steps (Serve 300000) (.start 0) as staleService := by
  have h₁ : Steps (Serve 300000) (.start 0) [.spawn, .elapse 1000]
      ⟨1000, .attempting, fun _ => false, [⟨0, none⟩], []⟩ :=
    (Steps.one (.spawn rfl)).snoc (.elapse (by decide : 0 ≤ 1000))
  have h₂ : Serve 300000 (.finish 0 (.ok (.error (.chain .staleEpoch))))
      ⟨1000, .attempting, fun _ => false, [⟨0, none⟩], []⟩
      ⟨1000, .attempting, fun _ => false, [⟨0, some (.ok (.error (.chain .staleEpoch)))⟩], []⟩ :=
    .finish _ rfl
  have h₃ := ((h₁.snoc h₂).snoc (.outcome rfl rfl)).snoc (.settle rfl fun _ => rfl)
  have h₄ := (h₃.snoc (.elapse (by decide : 1000 ≤ 31000))).snoc (.wake rfl (by decide))
  exact ⟨_, h₄.snoc (.spawn rfl)⟩

theorem staleService_stops : ∃ bs s, Steps (Serve 300000) (staleService.record .terminate) bs s ∧
    s.phase = .stopped true ∧ s.logged.map Logged.time = [1000, 31000] := by
  have h : Steps (Serve 300000) (staleService.record .terminate) [.shutdown .terminate]
      { (staleService.record .terminate).take .terminate with phase := .finishing } :=
    .one (.shutdown rfl rfl)
  have h₁ : Serve 300000 (.finish 1 (.ok (.ok ())))
      { (staleService.record .terminate).take .terminate with phase := .finishing }
      { (staleService.record .terminate).take .terminate with
        phase := .finishing
        attempts := staleService.attempts.set 1 ⟨31000, some (.ok (.ok ()))⟩ } := .finish _ rfl
  exact ⟨_, _, (h.snoc h₁).snoc (.finished rfl rfl), rfl, rfl⟩

theorem serve_accounts_test : ∃ (as : List Act) (s : Service),
    Steps (Serve 300000) (.start 0) as s ∧ s.phase = .stopped true ∧
    s.attempts.map Attempt.result = s.logged.map fun l => some (.ok l.outcome) := by
  obtain ⟨as, h⟩ := staleService_steps
  obtain ⟨bs, s, hs, hp, -⟩ := staleService_stops
  have h' := (h.snoc (.arrive .terminate)).append hs
  exact ⟨_, s, h', hp, (serve_accounts h').2.1 hp⟩

theorem serve_stops_test : ∃ (bs : List Act) (s : Service),
    Steps (Serve 300000) (staleService.record .terminate) bs s ∧ bs.countP Act.spawns = 0 := by
  obtain ⟨as, h⟩ := staleService_steps
  obtain ⟨bs, s, hs, -, -⟩ := staleService_stops
  exact ⟨bs, s, hs, (serve_stops h .terminate hs).2.1 (.inl rfl)⟩

theorem serve_paced_test : ∃ l, staleService.logged[0]? = some l ∧
    l.time + nextDelay l.outcome 300000 ≤ 31000 := by
  obtain ⟨as, h⟩ := staleService_steps
  exact (serve_paced h).1 0 ⟨31000, none⟩ rfl

end Sn46Validator.Validator
