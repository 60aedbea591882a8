/-
  File:      Validator/Memory.lean
  Subject:   THE STATE FILE OVER WHOLE HISTORIES, whatever the chain and the burner are.

  * `anyChain`, `anyBurner` -- a chain and a burner of which nothing is known;
  * `Follows` -- a later state: its epochs are no older, and an epoch keeps its summary;
  * `state_kept` -- **the state file always loads, its epochs never go back, the summary of an epoch
    never changes, and an epoch that is marked is never burned again**.
-/
import Sn46Validator.Validator.Refine
import Sn46Validator.Validator.Smooth

namespace Sn46Validator.Validator

open Library

variable {shared : Shared} {law : Law}

/-! ## 1. The system -/

/-- The epoch end of the summary a run is given. -/
def Run.epochEnd (run : Run shared) : Option U64 :=
  match run.summary with
  | .ok summary => some summary.epochEndBlock
  | .error _ => none

theorem Run.Offers.epochEnd {run : Run shared} {o : Stamp} (h : run.Offers o) :
    run.epochEnd = some o.epochEnd := by
  obtain ⟨summary, hs, -, -, he⟩ := h
  rw [Run.epochEnd, hs, he]

/-- A chain of which nothing is known. -/
def anyChain (netuid : U64) : Fallible iface ChainError ChainSnapshot := do
  Fallible.ofExcept (← perform (.snapshot netuid))

/-- A burner of which nothing is known. -/
def anyBurner (netuid block : U64) (miners : List MinerScore) (policy : BurnPolicy) :
    Submit String := do
  orRefuse (← perform (.submit netuid block miners policy))

/-- **Runs with any chain and any burner**, one after another. -/
@[reducible] def anySystem (shared : Shared) (law : Law) : System iface where
  machine := machine law
  Call := Run shared
  Out := Except RunError (List MinerScore)
  prog c := (runOnce c).run
  enter c w w' := w' = { w with epoch := c.epochEnd } ∧ c.chain = anyChain ∧ c.submit = anyBurner
  env w w' := Drift law w w'

/-- What such a run is given. -/
def anySetting (law : Law) (c : Run shared) : Setting where
  law := law
  offered := c.Offers
  basis _ _ := True
  earned _ _ := True

/-- An unknown chain and an unknown burner will do. -/
theorem anySeams {c : Run shared} (hc : c.chain = anyChain) (hb : c.submit = anyBurner) :
    Seams (anySetting law c) c (fun _ => True) (fun _ _ => True) where
  start_stable := fun _ _ _ _ => trivial
  shown_stable := fun _ _ _ _ _ => trivial
  shown_saved := fun _ _ _ _ => trivial
  earned_stable := fun _ _ _ _ _ => trivial
  chain := by
    intro d _
    rw [hc]
    refine refines_then (refines_ask (K := fun _ => True) (fun _ _ _ _ => trivial) trivial)
      fun r d₁ _ => ?_
    exact refines_except fun _ _ => trivial
  onChain := fun _ _ _ _ => trivial
  submit := by
    intro snapshot summary u d saved policy hv _ _ _ hdue _
    have hoff : (anySetting law c).offered (stampOf hv.given) := offers_stampOf hv.given
    rw [hb]
    refine refines_then (refines_perform (P := fun _ => Kept (anySetting law c) saved)
      (fun _ _ _ h => h.elim) fun w x w₁ hw ha => ?_)
      fun r d₁ h₁ => refines_exceptMap fun _ _ => ⟨h₁, trivial⟩
    obtain rfl : w₁ = w := ha
    rw [hw]
    exact ⟨.submit hoff hdue, fun d' hd' => stable_kept saved _ _ hdue.kept hd'⟩

/-- A step of some run of the system, after which the chain goes on. -/
def AnyStep (law : Law) (c : Run shared) (a : Action) (d d' : Durable) : Prop :=
  ∃ d₁, Step (anySetting law c) a d d₁ ∧ Drifted law d₁ d'

theorem anySystem_ensures {c : Run shared} {w w' : Host}
    (he : (anySystem shared law).enter c w w') :
    Ensures (machine law) (fun e => AnyStep law c (action e.op e.ans) (view e.before) (view e.after))
      (fun w₁ w₂ => Torn (anySetting law c) (view w₁) (view w₂)) (runOnce c).run
      (fun _ _ => True) w' :=
  ((refines_runOnce (anySeams he.2.1 he.2.2) rfl trivial).ensures w' rfl).post fun _ _ _ => trivial

/-! ## 2. Later states -/

/-- **A later state.** -/
structure Follows (s s' : ValidatorState) : Prop where
  summary : ∀ e, s.summaryEpochEndBlock = some e → ∃ e', s'.summaryEpochEndBlock = some e' ∧
    e ≤ e' ∧ (e = e' → s'.summaryId = s.summaryId ∧ s'.summaryDigest = s.summaryDigest)
  burn : ∀ b, s.burnEpochEndBlock = some b → ∃ b', s'.burnEpochEndBlock = some b' ∧ b ≤ b'

theorem Follows.refl (s : ValidatorState) : Follows s s :=
  ⟨fun e he => ⟨e, he, Fin.le_refl _, fun _ => ⟨rfl, rfl⟩⟩, fun b hb => ⟨b, hb, Fin.le_refl _⟩⟩

theorem Follows.trans {s s' s'' : ValidatorState} (h : Follows s s') (h' : Follows s' s'') :
    Follows s s'' := by
  refine ⟨fun e he => ?_, fun b hb => ?_⟩
  · obtain ⟨e', he', hle, heq⟩ := h.summary e he
    obtain ⟨e'', he'', hle', heq'⟩ := h'.summary e' he'
    refine ⟨e'', he'', Fin.le_trans hle hle', fun h => ?_⟩
    -- between two equal epochs there is no other
    subst h
    have hee : e = e' := Fin.le_antisymm hle hle'
    obtain ⟨h₁, h₂⟩ := heq hee
    obtain ⟨h₃, h₄⟩ := heq' hee.symm
    exact ⟨h₃.trans h₁, h₄.trans h₂⟩
  · obtain ⟨b', hb', hle⟩ := h.burn b hb
    obtain ⟨b'', hb'', hle'⟩ := h'.burn b' hb'
    exact ⟨b'', hb'', Fin.le_trans hle hle'⟩

/-- A newer summary. -/
theorem follows_stamped {s : ValidatorState} {o : Stamp}
    (hn : ∀ e, s.summaryEpochEndBlock = some e → e < o.epochEnd) : Follows s (s.stamped o) := by
  refine ⟨fun e he => ⟨o.epochEnd, rfl, Fin.le_of_lt (hn e he), fun h => ?_⟩,
    fun b hb => ⟨b, hb, Fin.le_refl _⟩⟩
  exact absurd (hn e he) (by rw [h]; exact Fin.lt_irrefl _)

/-- The mark of the processed epoch. -/
theorem follows_burned {s : ValidatorState} {e : U64} (hw : s.WellFormed)
    (he : s.summaryEpochEndBlock = some e) : Follows s (s.burned e) := by
  refine ⟨fun e' he' => ⟨e', he', Fin.le_refl _, fun _ => ⟨rfl, rfl⟩⟩, fun b hb => ⟨e, rfl, ?_⟩⟩
  obtain ⟨e', he', hle⟩ := hw.burn_le hb
  obtain rfl : e = e' := Option.some.inj (he.symm.trans he')
  exact hle

/-- The state file of `d'` is a later one than that of `d`. -/
def SavedBy (x x' : Except StateError ValidatorState) : Prop :=
  ∀ s, x = .ok s → ∃ s', x' = .ok s' ∧ Follows s s'

theorem SavedBy.refl (x : Except StateError ValidatorState) : SavedBy x x :=
  fun s hs => ⟨s, hs, .refl s⟩

theorem SavedBy.trans {x x' x'' : Except StateError ValidatorState} (h : SavedBy x x')
    (h' : SavedBy x' x'') : SavedBy x x'' := by
  intro s hs
  obtain ⟨s', hs', hf⟩ := h s hs
  obtain ⟨s'', hs'', hf'⟩ := h' s' hs'
  exact ⟨s'', hs'', hf.trans hf'⟩

theorem SavedBy.of_eq {x x' : Except StateError ValidatorState} (h : x' = x) : SavedBy x x' :=
  h ▸ .refl x

theorem savedBy_drift (hl : law.lossy = false) {d d' : Durable} (h : Drifted law d d') :
    d'.saved = d.saved := by
  rcases h.saved with he | ⟨hl', -⟩
  · exact he
  · exact absurd (hl.symm.trans hl') (by simp)

/-- **One step saves a later state or none.** -/
theorem savedBy_step {s : Setting} (hl : s.law.lossy = false) {a : Action} {d d' : Durable}
    (h : Step s a d d') : SavedBy d.saved d'.saved := by
  cases h with
  | idle => exact .refl _
  | reveal => exact .refl _
  | @process _ saved o ho hk hw hn =>
    intro x hx
    obtain rfl : saved = x := Except.ok.inj ((hk hl).symm.trans hx)
    exact ⟨_, rfl, follows_stamped hn⟩
  | @mark _ saved o ho hd he =>
    intro x hx
    obtain rfl : saved = x := Except.ok.inj ((hd.kept hl).symm.trans hx)
    exact ⟨_, rfl, follows_burned hd.wellFormed hd.processed⟩
  | submit => exact .refl _
  | begin => exact .refl _
  | broadcast h =>
    cases h
    exact .refl _
  | confirm => exact .refl _
  | clear => exact .refl _

theorem savedBy_torn {s : Setting} {d d' : Durable} (h : Torn s d d') : d'.saved = d.saved := by
  cases h with
  | idle => rfl
  | broadcast h =>
    cases h
    rfl

/-- A burner is called for an epoch that is newer than the marked one. -/
theorem submit_unmarked {s : Setting} (hl : s.law.lossy = false) {a : Action} {d d' : Durable}
    (h : Step s a d d') (ha : a = .submit) : ∃ o saved, s.offered o ∧ d.saved = .ok saved ∧
      ∀ b, saved.burnEpochEndBlock = some b → b < o.epochEnd := by
  cases h with
  | @submit _ saved o ho hd =>
    refine ⟨o, saved, ho, hd.kept hl, fun b hb => ?_⟩
    obtain ⟨e, he, hle⟩ := hd.wellFormed.burn_le hb
    obtain rfl : e = o.epochEnd := Option.some.inj (he.symm.trans hd.processed)
    have hne : b.val ≠ o.epochEnd.val := fun heq =>
      hd.unmarked (hb.trans (congrArg some (Fin.ext heq)))
    exact Nat.lt_of_le_of_ne hle hne
  | _ => cases ha

/-! ## 3. Histories -/

/-- The epoch that the state file marks. -/
def Marks (w : Host) (b : U64) : Prop := ∃ s, stateOf w = .ok s ∧ s.burnEpochEndBlock = some b

theorem Marks.later {w w' : Host} {b : U64} (h : Marks w b)
    (hw : SavedBy (stateOf w) (stateOf w')) : ∃ b', Marks w' b' ∧ b ≤ b' := by
  obtain ⟨s, hs, hb⟩ := h
  obtain ⟨s', hs', hf⟩ := hw s hs
  obtain ⟨b', hb', hle⟩ := hf.burn b hb
  exact ⟨b', ⟨s', hs', hb'⟩, hle⟩

/-- Every state so far is followed by the state `x`. -/
def AllSavedBy (w₀ : Host) (tr : List (Event (machine law)))
    (x : Except StateError ValidatorState) : Prop :=
  SavedBy (stateOf w₀) x ∧ ∀ e ∈ tr, SavedBy (stateOf e.after) x

theorem AllSavedBy.later {w₀ : Host} {tr : List (Event (machine law))}
    {x x' : Except StateError ValidatorState} (h : AllSavedBy w₀ tr x) (hx : SavedBy x x') :
    AllSavedBy w₀ tr x' := ⟨h.1.trans hx, fun e he => (h.2 e he).trans hx⟩

section

variable {w₀ : Host}

theorem allSavedBy_step (hl : law.lossy = false) (tr : List (Event (machine law)))
    (c : Run shared) (e : Event (machine law))
    (h : AnyStep law c (action e.op e.ans) (view e.before) (view e.after))
    (hi : AllSavedBy w₀ tr (stateOf e.before)) : AllSavedBy w₀ (tr ++ [e]) (stateOf e.after) := by
  obtain ⟨d₁, hs, hd⟩ := h
  have hsd : stateOf e.after = d₁.saved := savedBy_drift hl hd
  have hstep : SavedBy (stateOf e.before) (stateOf e.after) := by
    rw [hsd]
    exact savedBy_step (s := anySetting law c) hl hs
  refine ⟨(hi.later hstep).1, fun e' he' => ?_⟩
  rcases List.mem_append.mp he' with h' | h'
  · exact (hi.later hstep).2 e' h'
  · rw [List.mem_singleton.mp h']
    exact .refl _

/-- **Every state of a history is followed by the later ones.** -/
theorem allSavedBy_invariant (shared : Shared) (w₀ : Host) (hl : law.lossy = false) :
    Invariant (anySystem shared law)
      (fun c e => AnyStep law c (action e.op e.ans) (view e.before) (view e.after))
      (fun c w w' => Torn (anySetting law c) (view w) (view w'))
      (fun tr w => AllSavedBy w₀ tr (stateOf w)) where
  env := fun _ _ _ hi hd => hi.later (.of_eq (savedBy_drift hl hd.view))
  enter := fun _ _ _ _ hi he => by rw [he.1]; exact hi
  ensures := fun _ _ _ _ _ he => ⟨_, anySystem_ensures he⟩
  step := allSavedBy_step hl
  cut := fun _ _ _ _ ht hi => hi.later (.of_eq (savedBy_torn ht))

end

/-- **The state file over whole histories.** From a state file that is absent or that `load` accepts,
    with any chain, any burner and any summaries, every run finished, failed or killed at any step:
    the file is absent or `load` accepts it, and then it is well formed. At every operation, the
    states before it are followed by the later ones: no epoch of theirs is newer, and an epoch keeps
    its summary. And a burner is only called for an epoch that is newer than every epoch marked
    before. -/
theorem state_kept (hl : law.lossy = false) {w₀ w : Host}
    {recs : List (Record (anySystem shared law))} (h₀ : ∃ s, stateOf w₀ = .ok s)
    (h : History (anySystem shared law) w₀ recs w) :
    (∃ s, stateOf w = .ok s ∧ s.WellFormed) ∧ SavedBy (stateOf w₀) (stateOf w) ∧
      ∀ recs₁ r recs₂, recs = recs₁ ++ r :: recs₂ → ∀ tr₁ e tr₂, r.events = tr₁ ++ e :: tr₂ →
        SavedBy (stateOf w₀) (stateOf e.before) ∧
        (∀ e' ∈ trace recs₁ ++ tr₁, SavedBy (stateOf e'.after) (stateOf e.before)) ∧
        SavedBy (stateOf e.before) (stateOf e.after) ∧ SavedBy (stateOf e.after) (stateOf w) ∧
        (action e.op e.ans = .submit → ∃ epochEnd, r.call.epochEnd = some epochEnd ∧
          ∀ b, (Marks w₀ b ∨ ∃ e' ∈ trace recs₁ ++ tr₁, Marks e'.after b) → b < epochEnd) := by
  have hI := allSavedBy_invariant shared w₀ hl
  have h_nil : AllSavedBy w₀ ([] : List (Event (machine law))) (stateOf w₀) := ⟨.refl _, by simp⟩
  have hall := History.induct hI h h_nil
  refine ⟨?_, hall.1, ?_⟩
  · obtain ⟨s, hs⟩ := h₀
    obtain ⟨s', hs', -⟩ := hall.1 s hs
    exact ⟨s', hs', ValidatorState.ofFile_wellFormed hs'⟩
  · intro recs₁ r recs₂ hr tr₁ e tr₂ he
    obtain ⟨hbefore, hstep⟩ := History.at hI h h_nil hr he
    have hmem : e ∈ trace recs := by
      rw [hr]
      simp [trace, he]
    refine ⟨hbefore.1, hbefore.2, ?_, hall.2 e hmem, fun ha => ?_⟩
    · exact (allSavedBy_step hl [] r.call e hstep ⟨.refl _, by simp⟩).1
    · obtain ⟨d₁, hs, -⟩ := hstep
      obtain ⟨o, saved, ho, hsaved, hlt⟩ := submit_unmarked (s := anySetting law r.call) hl hs ha
      refine ⟨o.epochEnd, Run.Offers.epochEnd ho, fun b hb => ?_⟩
      -- the mark only grew until now
      have hnow : ∃ b', Marks e.before b' ∧ b ≤ b' := by
        rcases hb with hb | ⟨e', he', hb⟩
        · exact hb.later hbefore.1
        · exact hb.later (hbefore.2 e' he')
      obtain ⟨b', ⟨s', hs', hb'⟩, hle⟩ := hnow
      obtain rfl : saved = s' := Except.ok.inj (hsaved.symm.trans hs')
      exact Fin.lt_of_le_of_lt hle (hlt b' hb')

theorem netuid_ne : (46 : U64) ≠ 0 := by decide

theorem tempo_ne : (360 : U64) ≠ 0 := by decide

/-- A summary with a target and a price, of the only miner. -/
def sampleSummary : EpochSummary Unit where
  summaryId := "id"
  digest := "digest"
  netuid := ⟨46, netuid_ne⟩
  tempo := ⟨360, tempo_ne⟩
  epochStartBlock := 361
  epochEndBlock := 720
  finalizedBlock := 725
  miners := [⟨0, "a"⟩]
  minerTargetUsdCents := some ⟨100, by decide⟩
  taoPriceUsdCents := some ⟨300, by decide⟩
  evidence := ()

def sampleShared : Shared where
  Evidence := Unit
  parseEpochSummary _ _ _ _ := .ok sampleSummary
  scoreEpochSummary _ := [⟨0, 65535⟩]
  texts := by rintro _ _ _ _ _ ⟨⟩; decide

def sampleRun : Run sampleShared where
  network := "finney"
  netuid := 46
  platformSigners := ["s"]
  fetched := .ok []
  chain := anyChain
  hotkey := "v"
  submit := anyBurner

/-- What the chain stores: the miner and the validator, whose weights are old. -/
def sampleStorage : Storage where
  size := 2
  tempo := 360
  lastStep := 720
  blocksSinceLastStep := 10
  lastUpdates := [0, 400]
  weightsRateLimit := 100
  keys uid := some (if uid = 0 then "a" else "v")

def sampleSnapshot : ChainSnapshot where
  finalizedBlock := 730
  tempo := 360
  lastStep := 720
  hotkeys := ["a", "v"]
  lastUpdates := [0, 400]
  weightsRateLimit := 100

/-- A history of one run, whose burner is happy. -/
theorem state_kept_test : ∃ s, stateOf (sampleRun.smoothly anyLaw sampleSnapshot (fun _ => .ok "ok")
    { newHost with epoch := some 720 }).2.2 = .ok s ∧ s.WellFormed :=
  (state_kept rfl ⟨default, rfl⟩ (.run (S := anySystem sampleShared anyLaw) .nil
    (c := sampleRun) ⟨rfl, rfl, rfl⟩ (sampleRun.smoothly_exec anyLaw sampleSnapshot _ _))).1

end Sn46Validator.Validator
