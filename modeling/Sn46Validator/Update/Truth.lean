/-
  File:      Update/Truth.lean
  Subject:   WHEN `release.json` NAMES WHAT IS INSTALLED.

  * `Truthful` -- the recorded release is the installed one, and it is not a recorded failure;
  * `Orderly` -- the condition on a run, in terms of what it finds and is given and of the writes that
    fail or are cut off;
  * `Faithful`, `Course` -- the invariants of a history and of a run;
  * `release_truthful` -- **under that condition `release.json` is truthful whenever nothing is
    pending**;
  * `release_untruthful` -- two histories that end otherwise: a run killed between the two steps of
    `confirm`, and an offer of the running version under a failed sequence.
-/
import Sn46Validator.Update.Order
import Sn46Validator.Update.Sequence

namespace Sn46Validator.Update

open Library

variable {crypto : Crypto} {reports : Bytes → Option String} {key : crypto.Key}

/-! ## 1. The condition -/

/-- Has the sequence failed? -/
def Durable.Failed (d : Durable) (sequence : U64) : Prop :=
  ∃ f, d.failed = .holds f ∧ f.has sequence = true

/-- **What `release.json` says is true**: its version is installed, and its sequence has not
    failed. -/
def Truthful (reports : Bytes → Option String) (d : Durable) : Prop :=
  ∀ r, d.release = .holds r → Runs reports d.install r.version ∧ ¬d.Failed r.sequence

/-- **Half-way through `confirm`**: `release.json` names the release that is still pending. -/
def Durable.Halfway (d : Durable) : Prop :=
  ∃ p r, d.pending = .holds p ∧ d.release = .holds r ∧ r.sequence = p.sequence

/-- What a run found: the durable state before its first operation. -/
def found (x : Record (system crypto reports key)) : Option Durable :=
  x.events.head?.map fun e => view e.before

/-- **The condition on a run.** -/
structure Orderly (x : Record (system crypto reports key)) : Prop where
  /-- Where an earlier run stopped half-way through `confirm`, the service restarts and passes the
      health check. -/
  passes : ∀ d ∈ found x, d.Halfway →
    x.call.polls.check = .ok () ∧ ∀ e ∈ x.events, Restarts e.op e.ans
  /-- A rollback that records the failure has marked `pending.json`, or the previous binary is back,
      or the same run puts it back. -/
  restores : ∀ tr₁ e tr₂, x.events = tr₁ ++ e :: tr₂ → action e.op e.ans = .write .failed →
    ∀ p, (view e.before).pending = .holds p → p.rollingBack = true ∨
      (view e.before).previous = none ∨ ∃ e' ∈ tr₂, action e'.op e'.ans = .restore
  /-- The running version is not offered under a newer sequence that has failed. -/
  offers : ∀ d ∈ found x, ∀ m, offered x.call = .ok (some m) →
    m.version = x.call.config.runningVersion → d.Newer m.sequence → ¬d.Failed m.sequence

/-! ## 2. One step -/

/-- While `p` is pending, `release.json` names what was installed before, which is older; or it names
    `p` already, which is installed. -/
def Describes (reports : Bytes → Option String) (p : Pending) (d : Durable) (r : Installed) : Prop :=
  Runs reports d.atPending r.version ∧ r.sequence < p.sequence ∨
    r = ⟨p.version, p.sequence⟩ ∧ p.rollingBack = false ∧ Runs reports d.install p.version

/-- **The invariant.** -/
structure Faithful (reports : Bytes → Option String) (d : Durable) : Prop where
  unfailed : ∀ r, d.release = .holds r → ¬d.Failed r.sequence
  settled : d.pending = .absent → ∀ r, d.release = .holds r → Runs reports d.install r.version
  underway : ∀ p, d.pending = .holds p → ∀ r, d.release = .holds r → Describes reports p d r

/-- **A rollback that a later run would take for an update**: the failure is recorded, but the
    previous binary is not back and `pending.json` is not marked. -/
def Durable.Exposed (d : Durable) : Prop :=
  ∃ p, d.pending = .holds p ∧ p.rollingBack = false ∧ d.previous ≠ none ∧ d.Failed p.sequence

theorem failed_push {d : Durable} {f : FailedReleases} {x : FailedRelease} {s : U64}
    (hf : d.failed.getD default = some f) (hs : s ≠ x.sequence) (h : ¬d.Failed s) :
    (f.push x).has s = false := by
  rw [FailedReleases.has_push, Bool.or_eq_false_iff]
  refine ⟨Bool.eq_false_iff.mpr fun hfs => ?_, by simpa using hs.symm⟩
  cases hd : d.failed with
  | absent =>
    rw [hd] at hf
    obtain rfl : default = f := Option.some.inj hf
    cases hfs
  | malformed =>
    rw [hd] at hf
    cases hf
  | holds g =>
    rw [hd] at hf
    obtain rfl : g = f := Option.some.inj hf
    exact h ⟨g, hd, hfs⟩

/-- While nothing but the marks of the past, the staged binary or `.previous` changes. -/
theorem Faithful.of_eq {d d' : Durable} (h : Faithful reports d) (hi : d'.install = d.install)
    (hp : d'.pending = d.pending) (hr : d'.release = d.release) (hf : d'.failed = d.failed)
    (hat : d'.atPending = d.atPending) : Faithful reports d' := by
  refine ⟨fun r hr' => ?_, fun ha r hr' => ?_, fun p hp' r hr' => ?_⟩
  · rw [Durable.Failed, hf]
    exact h.unfailed r (hr.symm.trans hr')
  · rw [hi]
    exact h.settled (hp.symm.trans ha) r (hr.symm.trans hr')
  · rw [Describes, hat, hi]
    exact h.underway p (hp.symm.trans hp') r (hr.symm.trans hr')

/-- A new failure that is not the recorded release. -/
theorem Faithful.blamed {d : Durable} {f : FailedReleases} {x : FailedRelease}
    (h : Faithful reports d) (hf : d.failed.getD default = some f)
    (hx : ∀ r, d.release = .holds r → r.sequence ≠ x.sequence) :
    Faithful reports { d with failed := .holds (f.push x) } := by
  refine ⟨fun r hr => ?_, h.settled, h.underway⟩
  intro hy
  obtain ⟨g, hg, hs⟩ := hy
  obtain rfl := Stored.holds.inj hg
  rw [failed_push hf (hx r hr) (h.unfailed r hr)] at hs
  cases hs

/-- What is pending was recorded already. -/
theorem halfway_of {d : Durable} {p : Pending} {r : Installed} (hp : d.pending = .holds p)
    (hr : d.release = .holds r) (he : r = ⟨p.version, p.sequence⟩) : d.Halfway :=
  ⟨p, r, hp, hr, by rw [he]⟩

/-- While nothing is half-way, what is recorded is what was installed before. -/
theorem Faithful.before {d : Durable} {p : Pending} {r : Installed} (h : Faithful reports d)
    (hh : ¬d.Halfway) (hp : d.pending = .holds p) (hr : d.release = .holds r) :
    Runs reports d.atPending r.version ∧ r.sequence < p.sequence :=
  (h.underway p hp r hr).resolve_right fun he => hh (halfway_of hp hr he.1)

/-- **One step** keeps the invariant: no step back is taken half-way, what is recorded has not failed,
    and no probe missed `.previous`. -/
theorem Faithful.step {first : Bytes} {c : Call crypto} {a : Action} {d d' : Durable}
    (h : Faithful reports d) (hd : Sound reports key first d)
    (hs : SystemStep reports key c a d d') (hm : d'.misled = false)
    (hback : a = .write .pending ∨ a = .write .failed ∨ a = .restore → ¬d.Halfway)
    (hpend : a = .write .release → ∀ p, d.pending = .holds p → p.rollingBack = false →
      d.previous ≠ none → ¬d.Failed p.sequence)
    (hoffer : a = .write .release → ∀ m, offered c = .ok (some m) →
      m.version = c.config.runningVersion → d.Newer m.sequence → ¬d.Failed m.sequence) :
    Faithful reports d' := by
  obtain ⟨-, start, hrun, hs⟩ := hs
  cases hs with
  | idle => exact h
  | stale | mislead | stage | restart | backup => exact h.of_eq rfl rfl rfl rfl rfl
  | begin hp _ _ _ _ _ hn =>
    -- what is recorded is what was installed before
    refine ⟨h.unfailed, by simp, fun q hq r hr => .inl ⟨h.settled hp r hr, ?_⟩⟩
    obtain rfl := Stored.holds.inj hq
    rw [← recorded_of_holds hr]
    exact hn.2
  | @mark _ p hp =>
    refine ⟨h.unfailed, by simp, fun q hq r hr => ?_⟩
    obtain rfl := Stored.holds.inj hq
    have hb := h.before (hback (.inl rfl)) hp hr
    exact .inl hb
  | @swap _ m b hp _ _ _ _ _ ha =>
    refine ⟨h.unfailed, fun ha => by simp [hp] at ha, fun q hq r hr => ?_⟩
    obtain rfl := Stored.holds.inj (hp.symm.trans hq)
    rcases h.underway _ hp r hr with h | ⟨he, hm, -⟩
    · exact .inl h
    · exact .inr ⟨he, hm, b, rfl, ha.fits.version⟩
  | @restore _ p b hp =>
    refine ⟨h.unfailed, fun ha => by simp [hp] at ha, fun q hq r hr => .inl ?_⟩
    obtain rfl : p = q := Stored.holds.inj (hp.symm.trans hq)
    exact h.before (hback (.inr (.inr rfl))) hp hr
  | @abandon _ p hp _ hv hi =>
    -- the swap never landed, so the release was not recorded either
    refine ⟨h.unfailed, fun _ r hr => ?_, by simp⟩
    have hno : ¬Runs reports d.install p.version := fun hrun' =>
      hv (Runs.unique hrun' (hi ▸ hrun))
    rcases h.underway p hp r hr with ⟨hat, -⟩ | ⟨-, -, hl⟩
    · rw [hd.old_installed hp hno] at hat
      exact hat
    · exact absurd hl hno
  | @rolledBack _ p f hp hf hs hprev =>
    refine ⟨h.unfailed, fun _ r hr => ?_, by simp⟩
    have hno := hd.old_of_gone hp (hprev.resolve_right (by rw [hm]; simp))
    rcases h.underway p hp r hr with ⟨hat, -⟩ | ⟨-, -, hl⟩
    · rw [hd.old_installed hp hno] at hat
      exact hat
    · exact absurd hl hno
  | @confirmed _ p hp hl hr =>
    refine ⟨h.unfailed, fun _ r hr' => ?_, by simp⟩
    obtain rfl := Stored.holds.inj (hr.symm.trans hr')
    exact hl.runs hrun
  | @confirm _ p hp hl hmark =>
    have hinst : Runs reports d.install p.version := hl.runs hrun
    have hprev : d.previous ≠ none := fun hn => hd.old_of_gone hp hn hinst
    refine ⟨fun r hr => ?_, fun ha => by simp [hp] at ha, fun q hq r hr => ?_⟩
    · obtain rfl := Stored.holds.inj hr
      exact hpend rfl p hp hmark hprev
    · obtain rfl : p = q := Stored.holds.inj (hp.symm.trans hq)
      exact .inr ⟨(Stored.holds.inj hr).symm, hmark, hinst⟩
  | @adopt _ m hp hi hof hv hn =>
    refine ⟨fun r hr => ?_, fun _ r hr => ?_, fun q hq => by simp [hp] at hq⟩
    · obtain rfl := Stored.holds.inj hr
      exact hoffer rfl m hof hv hn
    · obtain rfl := Stored.holds.inj hr
      rw [hv, hi]
      exact hrun
  | @blame _ p f _ hp hf _ =>
    refine h.blamed hf fun r hr he => ?_
    have hlt := (h.before (hback (.inr (.inl rfl))) hp hr).2
    rw [he] at hlt
    exact absurd hlt (Fin.lt_irrefl _)
  | @reject _ m f _ hp _ hn hf =>
    refine h.blamed hf fun r hr he => ?_
    -- the offered release is newer than the recorded one
    have hlt := hn.2
    rw [recorded_of_holds hr, he] at hlt
    exact absurd hlt (Fin.lt_irrefl _)

/-- Only its own writes change `release.json`. -/
theorem release_step {c : Call crypto} {a : Action} {d d' : Durable}
    (hs : SystemStep reports key c a d d') (ha : a ≠ .write .release) : d'.release = d.release := by
  obtain ⟨-, start, -, hs⟩ := hs
  cases hs with
  | confirm => exact absurd rfl ha
  | adopt => exact absurd rfl ha
  | _ => rfl

/-- Only its own writes change `update-failed.json`. -/
theorem failures_step {c : Call crypto} {a : Action} {d d' : Durable}
    (hs : SystemStep reports key c a d d') (ha : a ≠ .write .failed) : d'.failed = d.failed := by
  obtain ⟨-, start, -, hs⟩ := hs
  cases hs with
  | blame => exact absurd rfl ha
  | reject => exact absurd rfl ha
  | _ => rfl

/-- Only a write of `release.json` leads half-way. -/
theorem halfway_step {c : Call crypto} {a : Action} {d d' : Durable}
    (hs : SystemStep reports key c a d d') (h : d'.Halfway) : a = .write .release ∨ d.Halfway := by
  obtain ⟨-, start, -, hs⟩ := hs
  obtain ⟨p, r, hp, hr, he⟩ := h
  cases hs with
  | confirm => exact .inl rfl
  | adopt => exact .inl rfl
  | begin _ _ _ _ _ _ hn =>
    -- what is pending now is newer
    obtain rfl := Stored.holds.inj hp
    have hlt := hn.2
    rw [recorded_of_holds (d := d) hr, he] at hlt
    exact absurd hlt (Fin.lt_irrefl _)
  | @mark _ q hq =>
    obtain rfl := Stored.holds.inj hp
    exact .inr ⟨q, r, hq, hr, he⟩
  | abandon => cases hp
  | rolledBack => cases hp
  | confirmed => cases hp
  | _ => exact .inr ⟨p, r, hp, hr, he⟩

/-- Only an unmarked rollback exposes its release, and a restore ends that. -/
theorem exposed_step {c : Call crypto} {a : Action} {d d' : Durable}
    (hs : SystemStep reports key c a d d') (h : d'.Exposed) :
    d.Exposed ∧ a ≠ .restore ∨ a = .write .failed ∧
      ∃ p, d.pending = .holds p ∧ p.rollingBack = false ∧ d.previous ≠ none := by
  obtain ⟨-, start, -, hs⟩ := hs
  obtain ⟨p, hp, hm, hprev, hf⟩ := h
  cases hs with
  | backup _ hp' => simp [hp'] at hp
  | begin _ _ _ _ _ _ _ hun =>
    obtain rfl := Stored.holds.inj hp
    obtain ⟨f, hfd, hfs⟩ := hf
    rw [hun.2 f hfd] at hfs
    cases hfs
  | mark =>
    obtain rfl := Stored.holds.inj hp
    cases hm
  | restore => exact absurd rfl hprev
  | abandon => cases hp
  | rolledBack => cases hp
  | confirmed => cases hp
  | blame => exact .inr ⟨rfl, p, hp, hm, hprev⟩
  | reject _ hp' => simp [hp'] at hp
  | _ => exact .inl ⟨⟨p, hp, hm, hprev, hf⟩, by simp⟩

/-! ## 3. One run -/

/-- **A failure was recorded of an unmarked rollback**, and the previous binary not put back since. -/
def Unrestored (tr : List (Event (machine reports true))) : Prop :=
  ∃ tr₁ e tr₂, tr = tr₁ ++ e :: tr₂ ∧ action e.op e.ans = .write .failed ∧
    (∃ p, (view e.before).pending = .holds p ∧ p.rollingBack = false ∧
      (view e.before).previous ≠ none) ∧
    ∀ e' ∈ tr₂, action e'.op e'.ans ≠ .restore

theorem Unrestored.append {tr : List (Event (machine reports true))}
    {e : Event (machine reports true)} (h : Unrestored tr) (he : action e.op e.ans ≠ .restore) :
    Unrestored (tr ++ [e]) := by
  obtain ⟨tr₁, e₁, tr₂, rfl, ha, hp, hno⟩ := h
  refine ⟨tr₁, e₁, tr₂ ++ [e], by simp, ha, hp, fun e' he' => ?_⟩
  rcases List.mem_append.mp he' with he' | he'
  · exact hno e' he'
  · rw [List.mem_singleton.mp he']
    exact he

theorem Unrestored.blamed {tr : List (Event (machine reports true))} (h : Unrestored tr) :
    ∃ e ∈ tr, action e.op e.ans = .write .failed := by
  obtain ⟨tr₁, e, tr₂, rfl, ha, -⟩ := h
  exact ⟨e, by simp, ha⟩

/-- **What is known of the operations of a run** of the call `c` that found `d₀`: their order, that
    none is a step back where the release was recorded already, and what was offered. -/
structure Fitting (c : Call crypto) (d₀ : Durable) (tr : List (Event (machine reports true))) :
    Prop where
  ordered : (asked tr).Pairwise Follows
  forward : d₀.Halfway → ∀ e ∈ tr, Forward e.op
  offers : tr ≠ [] → ∀ m, offered c = .ok (some m) → m.version = c.config.runningVersion →
    d₀.Newer m.sequence → ¬d₀.Failed m.sequence

theorem Fitting.of_append {c : Call crypto} {d₀ : Durable}
    {tr : List (Event (machine reports true))} {e : Event (machine reports true)}
    (h : Fitting c d₀ (tr ++ [e])) : Fitting c d₀ tr ∧ (d₀.Halfway → Forward e.op) ∧
      ∀ e' ∈ tr, (action e'.op e'.ans = .write .release → e.op.Closing) ∧
        (action e'.op e'.ans = .write .failed → action e.op e.ans ≠ .write .release) := by
  have hasked : asked (tr ++ [e]) = asked tr ++ [⟨e.op, e.ans⟩] := List.map_append
  have ho := h.ordered
  rw [hasked, List.pairwise_append] at ho
  refine ⟨⟨ho.1, fun hh e' he' => h.forward hh e' (List.mem_append_left _ he'),
    fun _ => h.offers (by simp)⟩, fun hh => h.forward hh e (by simp), fun e' he' => ?_⟩
  exact ho.2.2 ⟨e'.op, e'.ans⟩ (List.mem_map_of_mem (f := fun e : Event (machine reports true) =>
    (⟨e.op, e.ans⟩ : Σ op : Op, Op.Ans op)) he') _ (List.mem_singleton_self _)

/-- **The invariant of a run** that found `d₀`. -/
structure Course (reports : Bytes → Option String) (d₀ : Durable)
    (tr : List (Event (machine reports true))) (d : Durable) : Prop where
  faithful : Faithful reports d
  release : (∀ e ∈ tr, action e.op e.ans ≠ .write .release) → d.release = d₀.release
  failed : (∀ e ∈ tr, action e.op e.ans ≠ .write .failed) → d.failed = d₀.failed
  halfway : d.Halfway → d₀.Halfway ∨ ∃ e ∈ tr, action e.op e.ans = .write .release
  exposed : d.Exposed → Unrestored tr

/-- **One step of a run.** -/
theorem Course.step {first : Bytes} {c : Call crypto} {d₀ : Durable}
    {tr : List (Event (machine reports true))} {e : Event (machine reports true)}
    (h : Course reports d₀ tr (view e.before)) (hd : Sound reports key first (view e.before))
    (hs : SystemStep reports key c (action e.op e.ans) (view e.before) (view e.after))
    (hm : (view e.after).misled = false) (hf : Fitting c d₀ (tr ++ [e])) :
    Course reports d₀ (tr ++ [e]) (view e.after) := by
  obtain ⟨-, hfwd, hfol⟩ := hf.of_append
  -- before a write of `release.json` the run wrote no record
  have hfirst : action e.op e.ans = .write .release → (view e.before).release = d₀.release ∧
      (view e.before).failed = d₀.failed := by
    intro ha
    refine ⟨h.release fun e' he' hr => ?_, h.failed fun e' he' hr => (hfol e' he').2 hr ha⟩
    exact closing_action ((hfol e' he').1 hr) e.ans .release ha
  refine ⟨h.faithful.step hd hs hm ?_ ?_ ?_, fun hno => ?_, fun hno => ?_, fun hh => ?_, fun hx => ?_⟩
  · -- a step back half-way: the release was found recorded, or this run has just recorded it
    intro ha hh
    have hfw : Forward e.op := (h.halfway hh).elim hfwd fun hy =>
      closing_forward ((hfol _ hy.choose_spec.1).1 hy.choose_spec.2)
    obtain ⟨hp, hf, hr⟩ := hfw e.ans
    rcases ha with ha | ha | ha
    · exact hp ha
    · exact hf ha
    · exact hr ha
  · intro ha p hp hmark hprev hfail
    obtain ⟨e', he', hr⟩ := (h.exposed ⟨p, hp, hmark, hprev, hfail⟩).blamed
    exact (hfol e' he').2 hr ha
  · intro ha m hm hv hn hfail
    obtain ⟨hr, hfd⟩ := hfirst ha
    refine hf.offers (by simp) m hm hv ?_ ?_
    · rw [Durable.Newer, Durable.recorded, hr] at hn
      exact hn
    · rwa [Durable.Failed, hfd] at hfail
  · rw [release_step hs (hno e (by simp))]
    exact h.release fun e' he' => hno e' (List.mem_append_left _ he')
  · rw [failures_step hs (hno e (by simp))]
    exact h.failed fun e' he' => hno e' (List.mem_append_left _ he')
  · rcases halfway_step hs hh with ha | hh
    · exact .inr ⟨e, by simp, ha⟩
    · exact (h.halfway hh).imp id fun hy => hy.imp fun e' he' => ⟨List.mem_append_left _ he'.1, he'.2⟩
  · rcases exposed_step hs hx with ⟨hx, ha⟩ | ⟨ha, hp⟩
    · exact (h.exposed hx).append ha
    · exact ⟨tr, e, [], rfl, ha, hp, by simp⟩

theorem misled_step {c : Call crypto} {a : Action} {d d' : Durable}
    (hs : SystemStep reports key c a d d') (h : d'.misled = false) : d.misled = false := by
  obtain ⟨-, start, -, hs⟩ := hs
  cases hs with
  | mislead => cases h
  | _ => exact h

/-- A kill inside an operation. -/
theorem Course.torn {start : Option Bytes} {d₀ d d' : Durable}
    {tr : List (Event (machine reports true))} (h : Course reports d₀ tr d)
    (ht : Torn start d d') : Course reports d₀ tr d' := by
  obtain ⟨hf, hr, hfd, hh, hx⟩ := h
  cases ht with
  | idle => exact ⟨hf, hr, hfd, hh, hx⟩
  | stage => exact ⟨hf.of_eq rfl rfl rfl rfl rfl, hr, hfd, hh, hx⟩
  | backup _ hp =>
    refine ⟨hf.of_eq rfl rfl rfl rfl rfl, hr, hfd, hh, fun hy => ?_⟩
    obtain ⟨p, hp', -⟩ := hy
    exact absurd (hp.symm.trans hp') (by simp)

theorem misled_torn {start : Option Bytes} {d d' : Durable} (ht : Torn start d d') :
    d'.misled = d.misled := by
  cases ht with
  | idle | stage | backup => rfl

/-! ## 4. Whole histories -/

/-- **The invariant between two runs.** -/
structure Covered (reports : Bytes → Option String) (d : Durable) : Prop where
  faithful : Faithful reports d
  covered : ¬d.Exposed

/-- What is half-way is installed, and not marked. -/
theorem Covered.halfway {d : Durable} (h : Covered reports d) (hh : d.Halfway) :
    ∃ p, d.pending = .holds p ∧ p.rollingBack = false ∧ Runs reports d.install p.version := by
  obtain ⟨p, r, hp, hr, he⟩ := hh
  rcases h.faithful.underway p hp r hr with ⟨-, hlt⟩ | ⟨-, hm, hi⟩
  · rw [he] at hlt
    exact absurd hlt (Fin.lt_irrefl _)
  · exact ⟨p, hp, hm, hi⟩

/-- What a run found is where it started. -/
theorem found_run {c : Call crypto} {w w' : Host} {tr : List (Event (machine reports true))}
    {o : Option (Except UpdateError Outcome)}
    (h : Exec (machine reports true) w (run c).run tr o w') {d : Durable}
    (hd : d ∈ found (⟨c, tr, o⟩ : Record (system crypto reports key))) : d = view w := by
  obtain ⟨e, hhead, rfl⟩ := Option.map_eq_some_iff.mp hd
  rw [h.head hhead]

section Runs

variable {first : Bytes} {c : Call crypto} {w w' : Host}
  {tr : List (Event (machine reports true))} {o : Option (Except UpdateError Outcome)}
  (he : (system crypto reports key).enter c w w)
  (h : Exec (machine reports true) w (run c).run tr o w')

include he h

/-- **An orderly run** is a fitting one. -/
theorem fitting_run (ho : Orderly (⟨c, tr, o⟩ : Record (system crypto reports key)))
    (hc : Covered reports (view w)) : Fitting c (view w) tr := by
  have hfound : tr ≠ [] → view w ∈ found (⟨c, tr, o⟩ : Record (system crypto reports key)) := by
    intro hne
    obtain ⟨e, t, rfl⟩ := List.exists_cons_of_ne_nil hne
    rw [← h.head rfl]
    rfl
  refine ⟨run_ordered h, fun hh e he' => ?_, fun hne => ho.offers _ (hfound hne)⟩
  obtain ⟨p, hp, hm, hi⟩ := hc.halfway hh
  obtain ⟨hcheck, hr⟩ := ho.passes _ (hfound (List.ne_nil_of_mem he')) hh
  exact run_forward hp hm (Runs.unique hi he.2.1) hcheck hr h e he'

theorem misled_run (hm : w'.misled = false) : w.misled = false :=
  Exec.induct (P := fun _ (w₁ : Host) => w₁.misled = false → w.misled = false) (t := [])
    (fun _ _ hs hi hm => hi (misled_step hs hm))
    (fun _ _ _ ht hi hm => hi ((misled_torn ht.choose_spec).symm.trans hm)) h
    (system_ensures c he) id hm

/-- **An orderly run** keeps the invariant. -/
theorem Covered.run (hd : Sound reports key first (view w)) (hc : Covered reports (view w))
    (ho : Orderly (⟨c, tr, o⟩ : Record (system crypto reports key))) (hm : w'.misled = false) :
    Covered reports (view w') := by
  have h₀ : Course reports (view w) [] (view w) :=
    ⟨hc.faithful, fun _ => rfl, fun _ => rfl, .inl, fun hx => absurd hx hc.covered⟩
  have hall := Exec.induct (t := []) (P := fun tr w₁ => Fitting c (view w) tr →
      Sound reports key first (view w₁) ∧
        (w₁.misled = false → Course reports (view w) tr (view w₁)))
    (fun tr e hs hi hf => by
      obtain ⟨hd, hc⟩ := hi hf.of_append.1
      exact ⟨hd.step hs, fun hm => (hc (misled_step hs hm)).step hd hs hm hf⟩)
    (fun tr w₁ w₂ ht hi hf => by
      obtain ⟨hd, hc⟩ := hi hf
      have ht := ht.choose_spec
      exact ⟨hd.torn ht, fun hm => (hc ((misled_torn ht).symm.trans hm)).torn ht⟩)
    h (system_ensures c he) (fun _ => ⟨hd, fun _ => h₀⟩) (fitting_run he h ho hc)
  have hcourse := hall.2 hm
  refine ⟨hcourse.faithful, fun hx => ?_⟩
  obtain ⟨tr₁, e, tr₂, htr, ha, ⟨p, hp, hmark, hprev⟩, hno⟩ := hcourse.exposed hx
  rcases ho.restores tr₁ e tr₂ htr ha p hp with hr | hn | hy
  · rw [hmark] at hr
    cases hr
  · exact hprev hn
  · exact hno _ hy.choose_spec.1 hy.choose_spec.2

end Runs

/-- **When `release.json` tells the truth.** In every history whose runs are orderly and in which no
    probe missed a `.previous` that was there: whenever nothing is pending, the release that
    `release.json` names is installed and has not failed. -/
theorem release_truthful {w₀ w : Host} {recs : List (Record (system crypto reports key))}
    {first : Bytes} (hi : w₀.files .install = some first)
    (hp : w₀.files (.state .pending) = none) (hr : Truthful reports (view w₀))
    (h : History (system crypto reports key) w₀ recs w) (ho : ∀ x ∈ recs, Orderly x)
    (hm : w.misled = false) (hpend : w.files (.state .pending) = none) :
    Truthful reports (view w) := by
  have hp' : (view w₀).pending = .absent := Stored.of_eq_absent.mpr hp
  have h₀ : Covered reports (view w₀) := by
    refine ⟨⟨fun r h => (hr r h).2, fun _ r h => (hr r h).1, fun p h => by simp [hp'] at h⟩, ?_⟩
    intro hx
    obtain ⟨p, hx, -⟩ := hx
    exact absurd (hp'.symm.trans hx) (by simp)
  have hall : Covered reports (view w) := by
    clear hpend
    induction h with
    | nil => exact h₀
    | env _ he => exact he.elim
    | run h he hx ih =>
      obtain rfl := he.1
      exact Covered.run he hx (sound_history hi hp h)
        (ih (fun x hx => ho x (List.mem_append_left _ hx)) (misled_run he hx hm))
        (ho _ (by simp)) hm
  exact fun r hrel =>
    ⟨hall.faithful.settled (Stored.of_eq_absent.mpr hpend) r hrel, hall.faithful.unfailed r hrel⟩

/-- The test host after an undisturbed update. -/
theorem release_truthful_test : Truthful testReports (view updated) := by
  have h : History (system testCrypto testReports testKey) testHost _ updated :=
    history_played .nil 25 (c := testCall "0.1.3" release4 true) testHost_runs rfl
  obtain ⟨hall, hmisled, hpend⟩ :
      (played testReports true 25 testHost (testCall "0.1.3" release4 true)).1.all
        (fun e => decide (action e.op e.ans ≠ .write .failed)) = true ∧
      updated.misled = false ∧ updated.files (.state .pending) = none := by decide +kernel
  refine release_truthful rfl rfl (fun r hr => by cases hr) h ?_ hmisled hpend
  intro x hx
  obtain rfl := List.mem_singleton.mp hx
  have hfound : ∀ d ∈ found (⟨testCall "0.1.3" release4 true, _, _⟩ :
      Record (system testCrypto testReports testKey)), d = view testHost :=
    fun d hd => found_run (exec_played testReports true 25 testHost _) hd
  refine ⟨fun d hd hh => ?_, fun tr₁ e tr₂ htr ha => ?_, fun d hd m _ _ _ hf => ?_⟩
  · rw [hfound d hd] at hh
    obtain ⟨p, r, hp, -⟩ := hh
    cases hp
  · have hmem : e ∈ (played testReports true 25 testHost
        (testCall "0.1.3" release4 true)).1 := by
      exact (congrArg (e ∈ ·) htr).mpr (by simp)
    exact absurd ha (by simpa using List.all_eq_true.mp hall e hmem)
  · rw [hfound d hd] at hf
    obtain ⟨f, hf, -⟩ := hf
    cases hf

/-- **`release.json` can be wrong in two ways.** A release that was rolled back stays recorded: the run
    that confirmed it was killed before it removed `pending.json`, and the next run's health check
    failed. And a failed sequence is recorded: the running version was offered under it. -/
theorem release_untruthful :
    (∀ raw raw' sig sig' m m', verifyManifest testCrypto raw sig testKey = .ok m →
        verifyManifest testCrypto raw' sig' testKey = .ok m' → m.sequence = m'.sequence → m = m') ∧
      (testHost.files (.state .pending) = none ∧ Truthful testReports (view testHost) ∧
        ∃ recs, History (system testCrypto testReports testKey) testHost recs undone ∧
          undone.files (.state .pending) = none ∧ ¬Truthful testReports (view undone)) ∧
      relapsed.files (.state .pending) = none ∧ Truthful testReports (view relapsed) ∧
        ∃ recs, History (system testCrypto testReports testKey) relapsed recs adopted ∧
          adopted.files (.state .pending) = none ∧ ¬Truthful testReports (view adopted) := by
  refine ⟨fun _ _ _ _ _ _ => testManifests_distinct, ⟨rfl, fun r hr => (by cases hr), ?_⟩, rfl,
    fun r hr => (by cases hr), ?_⟩
  · have h₁ : History (system testCrypto testReports testKey) testHost _ confirmed :=
      history_played .nil 23 (c := testCall "0.1.3" release4 true) testHost_runs rfl
    have hi : confirmed.files .install = some (fakeBinary "0.1.4") := by decide +kernel
    have h₂ : History (system testCrypto testReports testKey) testHost _ undone :=
      history_played h₁ 40 (c := testCall "0.1.4" release4 false)
        ⟨fakeBinary "0.1.4", hi, by decide +kernel⟩ rfl
    obtain ⟨hpend, hrel, hfail⟩ : undone.files (.state .pending) = none ∧
        (view undone).release = .holds ⟨"0.1.4", 2⟩ ∧
        (view undone).failed = .holds ⟨[⟨2, "0.1.4", 1790000000000⟩]⟩ := by decide +kernel
    exact ⟨_, h₂, hpend, fun ht => (ht _ hrel).2 ⟨_, hfail, rfl⟩⟩
  · have h : History (system testCrypto testReports testKey) relapsed _ adopted :=
      history_played .nil 25 (c := testCall "0.1.4" release4 true)
        ⟨fakeBinary "0.1.4", rfl, by decide +kernel⟩ rfl
    obtain ⟨hpend, hrel, hfail⟩ : adopted.files (.state .pending) = none ∧
        (view adopted).release = .holds ⟨"0.1.4", 2⟩ ∧
        (view adopted).failed = .holds ⟨[⟨2, "0.1.4", 1790000000000⟩]⟩ := by decide +kernel
    exact ⟨_, h, hpend, fun ht => (ht _ hrel).2 ⟨_, hfail, rfl⟩⟩

end Sn46Validator.Update
