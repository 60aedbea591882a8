/-
  File:      Validator/Decision.lean
  Subject:   THE DECISION OF A RUN on a host where nothing fails.

  * `Weighing` -- what becomes of the weights of an epoch; `decision` -- what a run decides, as a
    function of the stored state, the summary and the snapshot;
  * `runOnce_decides` -- **a run does what is decided**: the burner's calls with the state file as it
    was then, the result, and the state file it leaves;
  * `run_decided` -- under which conditions what happens;
  * `retry_same` -- a retry submits what the first attempt would have.
-/
import Sn46Validator.Validator.Memory

namespace Sn46Validator.Validator

open Library

variable {law : Law} {snapshot : ChainSnapshot} {burner : Burner}

/-! ## 1. The decision -/

section

variable {shared : Shared} (run : Run shared) (snapshot : ChainSnapshot)
  (summary : EpochSummary shared.Evidence)

/-- What becomes of the weights of an epoch that is not marked. -/
inductive Weighing where
  | refused (e : RunError)
  | onChain
  | limited
  | asked (burn : BurnPolicy)

def weighing : Weighing :=
  match snapshot.hotkeys.findIdx? (· = run.hotkey) with
  | none => .refused (.burn ⟨"Validator hotkey is not registered"⟩)
  | some validatorUid =>
    match snapshot.lastUpdates[validatorUid]? with
    | none => .refused .panicked
    | some lastUpdate =>
      if lastUpdate ≥ summary.epochEndBlock then .onChain
      else if (rateLimited snapshot lastUpdate).isSome then .limited
      else
        match targetPolicy summary with
        | .error e => .refused (.burn e)
        | .ok burn => .asked burn

/-- **What a run does**: the calls of the burner with the state file as it is then, the result, and
    the state it leaves. -/
structure Decision where
  calls : List (BurnerCall × Except StateError ValidatorState)
  result : Except RunError (List MinerScore)
  state : ValidatorState

/-- The call for the weights of a summary. -/
def callFor (burn : BurnPolicy) : BurnerCall :=
  ⟨summary.netuid.val, snapshot.finalizedBlock, shared.scoreEpochSummary summary, burn⟩

/-- From a processed summary on. -/
def settle (burner : Burner) (saved : ValidatorState) (records : List MinerScore) : Decision :=
  if saved.burnEpochEndBlock = some summary.epochEndBlock then ⟨[], .ok records, saved⟩
  else
    match weighing run snapshot summary with
    | .refused e => ⟨[], .error e, saved⟩
    | .onChain => ⟨[], .ok records, saved.burned summary.epochEndBlock⟩
    | .limited => ⟨[], .ok records, saved⟩
    | .asked burn =>
      match burner (callFor snapshot summary burn) with
      | .ok _ => ⟨[(callFor snapshot summary burn, .ok saved)], .ok records,
          saved.burned summary.epochEndBlock⟩
      | .error e => ⟨[(callFor snapshot summary burn, .ok saved)], .error (.burn e), saved⟩

/-- **What a run decides.** -/
def decision (burner : Burner) (saved : ValidatorState) : Decision :=
  match validateChain summary snapshot with
  | .error e => ⟨[], .error (.chain e), saved⟩
  | .ok () =>
    match compare saved summary with
    | .error e => ⟨[], .error (.state e), saved⟩
    | .ok true => settle run snapshot summary burner saved []
    | .ok false => settle run snapshot summary burner (saved.processed summary)
        (shared.scoreEpochSummary summary)

end

/-! ## 2. A run does what is decided -/

section

variable {shared : Shared} {run : Run shared} {summary : EpochSummary shared.Evidence}
  {saved : ValidatorState}

/-- The burner is asked, and the call noted. -/
theorem anyBurner_yields (call : BurnerCall) (x : Except StateError ValidatorState) :
    (watch law).Yields (smooth law snapshot burner)
      (anyBurner call.netuid call.finalizedBlock call.miners call.burn).run x [(call, x)]
      ((burner call).mapError .burn) x := by
  have hask : (watch law).Yields (smooth law snapshot burner)
      (perform (.submit call.netuid call.finalizedBlock call.miners call.burn) :
        Fallible iface Fault _).run x [(call, x)] (.ok (burner call)) x := by
    refine yields_lift (yields_perform fun w hw => ⟨rfl, hw, ?_⟩)
    show [(call, stateOf w)] = [(call, x)]
    rw [show stateOf w = x from hw]
  exact yields_then hask (yields_except _)

/-- **The weights of an epoch** become what `weighing` says. -/
theorem setWeights_yields (law : Law) (snapshot : ChainSnapshot) (burner : Burner)
    (summary : EpochSummary shared.Evidence) (hb : run.submit = anyBurner)
    (x : Except StateError ValidatorState) :
    match weighing run snapshot summary with
    | .refused e => (watch law).Yields (smooth law snapshot burner)
        (setWeights run snapshot summary (shared.scoreEpochSummary summary)).run x [] (.error e) x
    | .onChain => (watch law).Yields (smooth law snapshot burner)
        (setWeights run snapshot summary (shared.scoreEpochSummary summary)).run x [] (.ok true) x
    | .limited => (watch law).Yields (smooth law snapshot burner)
        (setWeights run snapshot summary (shared.scoreEpochSummary summary)).run x [] (.ok false) x
    | .asked burn => (watch law).Yields (smooth law snapshot burner)
        (setWeights run snapshot summary (shared.scoreEpochSummary summary)).run x
        [(callFor snapshot summary burn, x)]
        (match burner (callFor snapshot summary burn) with
          | .ok _ => .ok true
          | .error e => .error (.burn e)) x := by
  unfold setWeights weighing
  cases snapshot.hotkeys.findIdx? (· = run.hotkey) with
  | none => exact yields_throw _
  | some uid =>
    dsimp only
    cases snapshot.lastUpdates[uid]? with
    | none => exact yields_throw _
    | some u =>
      dsimp only
      by_cases hle : u ≥ summary.epochEndBlock
      · rw [if_pos hle, if_pos hle]
        exact yields_return true
      · rw [if_neg hle, if_neg hle]
        by_cases hlim : (rateLimited snapshot u).isSome
        · rw [if_pos hlim, if_pos hlim]
          exact yields_return false
        · rw [if_neg hlim, if_neg hlim]
          cases targetPolicy summary with
          | error e => exact yields_stop (yields_except _)
          | ok burn =>
            have hcall : (watch law).Yields (smooth law snapshot burner)
                (Fallible.mapError Fault.toRunError (run.submit summary.netuid.val
                  snapshot.finalizedBlock (shared.scoreEpochSummary summary) burn)).run x
                [(callFor snapshot summary burn, x)]
                (((burner (callFor snapshot summary burn)).mapError Fault.burn).mapError
                  Fault.toRunError) x := by
              rw [hb]
              exact yields_convert (anyBurner_yields (callFor snapshot summary burn) x)
            have hpolicy : (watch law).Yields (smooth law snapshot burner)
                (Fallible.ofExcept (.ok burn) : Fallible iface RunError _).run x [] (.ok burn) x :=
              yields_except _
            refine yields_then hpolicy ?_
            cases hr : burner (callFor snapshot summary burn) with
            | ok message =>
              rw [hr] at hcall
              exact yields_then hcall (yields_return true)
            | error e =>
              rw [hr] at hcall
              exact yields_stop hcall

/-- **The burn part of a run** settles what is settled. -/
theorem burn_yields (hb : run.submit = anyBurner) (hw : saved.WellFormed)
    (he : saved.summaryEpochEndBlock = some summary.epochEndBlock) (records : List MinerScore) :
    (watch law).Yields (smooth law snapshot burner)
      (burn run snapshot summary saved (shared.scoreEpochSummary summary) records).run (.ok saved)
      (settle run snapshot summary burner saved records).calls
      (settle run snapshot summary burner saved records).result
      (.ok (settle run snapshot summary burner saved records).state) := by
  unfold burn settle
  by_cases hmark : saved.burnEpochEndBlock = some summary.epochEndBlock
  · rw [if_neg (not_not.mpr hmark), if_pos hmark]
    exact yields_return records
  · rw [if_pos hmark, if_neg hmark]
    have hset := setWeights_yields law snapshot burner summary hb (.ok saved)
    have hmarked : (watch law).Yields (smooth law snapshot burner) (ExceptT.run (do
        Fallible.mapError RunError.state (save (saved.burned summary.epochEndBlock))
        return records)) (.ok saved) [] (.ok records)
        (.ok (saved.burned summary.epochEndBlock)) :=
      yields_then (yields_convert (save_yields (burned_wellFormed hw he) _)) (yields_return records)
    have hwait : (watch law).Yields (smooth law snapshot burner)
        (pure records : Fallible iface RunError _).run (.ok saved) [] (.ok records) (.ok saved) :=
      yields_return records
    cases hweigh : weighing run snapshot summary with
    | refused e =>
      rw [hweigh] at hset
      exact yields_stop hset
    | onChain =>
      rw [hweigh] at hset
      exact yields_then hset hmarked
    | limited =>
      rw [hweigh] at hset
      exact yields_then hset hwait
    | asked policy =>
      rw [hweigh] at hset
      cases hr : burner (callFor snapshot summary policy) with
      | ok message =>
        simp only [hr] at hset ⊢
        exact yields_then hset hmarked
      | error e =>
        simp only [hr] at hset ⊢
        exact yields_stop hset

theorem processed_wellFormed (hs : run.summary = .ok summary) (hw : saved.WellFormed)
    (hn : ∀ e, saved.summaryEpochEndBlock = some e → e < summary.epochEndBlock) :
    (saved.processed summary).WellFormed :=
  stamped_wellFormed (o := stampOf hs) hw hn

/-- **`run_once` does what is decided.** -/
theorem runOnce_decides (law : Law) (snapshot : ChainSnapshot) (burner : Burner)
    (hc : run.chain = anyChain) (hb : run.submit = anyBurner) (hs : run.summary = .ok summary)
    (hw : saved.WellFormed) :
    (watch law).Yields (smooth law snapshot burner) (runOnce run).run (.ok saved)
      (decision run snapshot summary burner saved).calls
      (decision run snapshot summary burner saved).result
      (.ok (decision run snapshot summary burner saved).state) := by
  refine yields_then (yields_convert (takeLock_yields _)) ?_
  have hchain : (watch law).Yields (smooth law snapshot burner) (run.chain run.netuid).run
      (.ok saved) [] (.ok snapshot) (.ok saved) := by
    rw [hc]
    exact yields_then (yields_ask (.snapshot run.netuid) (.ok snapshot) (fun _ => rfl) fun _ => rfl)
      (yields_except _)
  refine yields_then (yields_convert hchain) ?_
  rw [hs]
  refine yields_then (yields_except _) ?_
  unfold decision
  cases validateChain summary snapshot with
  | error e => exact yields_stop (yields_except _)
  | ok u =>
    refine yields_then (yields_except _) ?_
    have hload : (watch law).Yields (smooth law snapshot burner)
        (Fallible.mapError RunError.state load).run (.ok saved) [] (.ok saved) (.ok saved) :=
      yields_convert (load_yields (.ok saved))
    refine yields_then hload ?_
    unfold process
    cases hcmp : compare saved summary with
    | error e => exact yields_stop (yields_except _)
    | ok seen =>
      refine yields_then (yields_except _) ?_
      cases seen with
      | true => exact burn_yields hb hw (compare_true hcmp) []
      | false =>
        have hw' := processed_wellFormed hs hw fun e he => compare_false hcmp he
        refine yields_then (yields_convert (save_yields hw' _)) ?_
        exact burn_yields hb hw' rfl _

end

/-! ## 3. The conditions -/

section

variable {shared : Shared} {run : Run shared} {summary : EpochSummary shared.Evidence}
  {saved : ValidatorState}

/-- **The run is admitted**: the summary fits the snapshot, and what is stored is nothing, an older
    epoch, or this very summary. -/
structure Admitted {Evidence : Type} (summary : EpochSummary Evidence) (snapshot : ChainSnapshot)
    (saved : ValidatorState) : Prop where
  fits : validateChain summary snapshot = .ok ()
  stored : ∀ e, saved.summaryEpochEndBlock = some e → e < summary.epochEndBlock ∨
    e = summary.epochEndBlock ∧ saved.summaryId = some summary.summaryId ∧
      saved.summaryDigest = some summary.digest

/-- The chain has weights of the hotkey that are no older than the epoch's end. -/
def OnChain (run : Run shared) (snapshot : ChainSnapshot)
    (summary : EpochSummary shared.Evidence) : Prop :=
  ∃ u, LastUpdate run snapshot u ∧ summary.epochEndBlock ≤ u

/-- **The burner is asked**: the hotkey is registered, its weights are older than the epoch's end,
    the chain's rate limit lets it set new ones, and the summary carries a target and a price. -/
def Asks (run : Run shared) (snapshot : ChainSnapshot)
    (summary : EpochSummary shared.Evidence) : Prop :=
  ∃ u, LastUpdate run snapshot u ∧ u < summary.epochEndBlock ∧
    (u = 0 ∨ u.val + snapshot.weightsRateLimit.val ≤ snapshot.finalizedBlock.val) ∧
    summary.minerTargetUsdCents.isSome ∧ summary.taoPriceUsdCents.isSome

/-- The burner accepts the weights. -/
def Accepts (burner : Burner) (snapshot : ChainSnapshot)
    (summary : EpochSummary shared.Evidence) : Prop :=
  ∃ policy message, targetPolicy summary = .ok policy ∧
    burner (callFor snapshot summary policy) = .ok message

/-- **The rate limit, in exact integers**, below the largest block. -/
theorem rateLimited_eq_none_iff {u : U64} (h : snapshot.finalizedBlock.val < 2 ^ 64 - 1) :
    rateLimited snapshot u = none ↔
      u = 0 ∨ u.val + snapshot.weightsRateLimit.val ≤ snapshot.finalizedBlock.val := by
  have hsum : U64.saturatingAdd u snapshot.weightsRateLimit > snapshot.finalizedBlock ↔
      snapshot.finalizedBlock.val < u.val + snapshot.weightsRateLimit.val := by
    show snapshot.finalizedBlock.val < min (u.val + snapshot.weightsRateLimit.val) (2 ^ 64 - 1) ↔ _
    omega
  have hpos : u > 0 ↔ u ≠ 0 := Fin.pos_iff_ne_zero
  unfold rateLimited
  dsimp only
  split_ifs with hlim
  · rw [hsum, hpos] at hlim
    simp only [false_iff, not_or]
    exact ⟨hlim.1, by omega⟩
  · rw [hsum, hpos] at hlim
    simp only [true_iff]
    by_cases hu : u = 0
    · exact .inl hu
    · refine .inr ?_
      by_contra hlt
      exact hlim ⟨hu, by omega⟩

theorem targetPolicy_ok (ht : summary.minerTargetUsdCents.isSome)
    (hp : summary.taoPriceUsdCents.isSome) : ∃ policy, targetPolicy summary = .ok policy := by
  obtain ⟨target, ht⟩ := Option.isSome_iff_exists.mp ht
  obtain ⟨price, hp⟩ := Option.isSome_iff_exists.mp hp
  exact ⟨.target target.val price.val, by rw [targetPolicy, ht, hp]⟩

theorem weighing_of_lastUpdate {u : U64} (h : LastUpdate run snapshot u) :
    weighing run snapshot summary =
      if u ≥ summary.epochEndBlock then .onChain
      else if (rateLimited snapshot u).isSome then .limited
      else
        match targetPolicy summary with
        | .error e => .refused (.burn e)
        | .ok burn => .asked burn := by
  obtain ⟨uid, huid, hu⟩ := h
  rw [weighing, huid]
  dsimp only
  rw [hu]

theorem weighing_onChain (h : OnChain run snapshot summary) :
    weighing run snapshot summary = .onChain := by
  obtain ⟨u, hu, hle⟩ := h
  rw [weighing_of_lastUpdate hu, if_pos hle]

theorem weighing_asks (hfin : snapshot.finalizedBlock.val < 2 ^ 64 - 1)
    (h : Asks run snapshot summary) : ∃ policy, targetPolicy summary = .ok policy ∧
      weighing run snapshot summary = .asked policy := by
  obtain ⟨u, hu, hlt, hlim, ht, hp⟩ := h
  obtain ⟨policy, hpolicy⟩ := targetPolicy_ok ht hp
  have hfree : ¬(rateLimited snapshot u).isSome := by
    rw [(rateLimited_eq_none_iff hfin).mpr hlim]
    simp
  refine ⟨policy, hpolicy, ?_⟩
  rw [weighing_of_lastUpdate hu, if_neg (Fin.not_le.mpr hlt), if_neg hfree, hpolicy]

/-- Otherwise nothing is set, now or at all. -/
theorem weighing_neither (hfin : snapshot.finalizedBlock.val < 2 ^ 64 - 1)
    (hon : ¬OnChain run snapshot summary) (has : ¬Asks run snapshot summary) :
    weighing run snapshot summary = .limited ∨ ∃ e, weighing run snapshot summary = .refused e := by
  cases huid : snapshot.hotkeys.findIdx? (· = run.hotkey) with
  | none => exact .inr ⟨_, by rw [weighing, huid]⟩
  | some uid =>
    cases hu : snapshot.lastUpdates[uid]? with
    | none =>
      refine .inr ⟨.panicked, ?_⟩
      rw [weighing, huid]
      dsimp only
      rw [hu]
    | some u =>
      have hlast : LastUpdate run snapshot u := ⟨uid, huid, hu⟩
      have hlt : u < summary.epochEndBlock := Fin.not_le.mp fun hle => hon ⟨u, hlast, hle⟩
      rw [weighing_of_lastUpdate hlast, if_neg (Fin.not_le.mpr hlt)]
      by_cases hlim : (rateLimited snapshot u).isSome
      · exact .inl (if_pos hlim)
      · refine .inr ?_
        rw [if_neg hlim]
        rw [Option.not_isSome_iff_eq_none, rateLimited_eq_none_iff hfin] at hlim
        cases ht : summary.minerTargetUsdCents with
        | none => exact ⟨_, by rw [targetPolicy, ht]; rfl⟩
        | some target =>
          cases hp : summary.taoPriceUsdCents with
          | none => exact ⟨_, by rw [targetPolicy, ht, hp]; rfl⟩
          | some price =>
            exact absurd ⟨u, hlast, hlt, hlim, by rw [ht]; rfl, by rw [hp]; rfl⟩ has

/-! ## 4. What is settled, and what is decided -/

/-- The burner is called for weights that are due, once, and with the state file as it is. -/
theorem settle_calls (run : Run shared) (summary : EpochSummary shared.Evidence) (burner : Burner)
    (saved : ValidatorState) (records : List MinerScore)
    (hfin : snapshot.finalizedBlock.val < 2 ^ 64 - 1) :
    (saved.burnEpochEndBlock ≠ some summary.epochEndBlock ∧ Asks run snapshot summary →
      ∃ policy, targetPolicy summary = .ok policy ∧
        (settle run snapshot summary burner saved records).calls =
          [(callFor snapshot summary policy, .ok saved)]) ∧
    (¬(saved.burnEpochEndBlock ≠ some summary.epochEndBlock ∧ Asks run snapshot summary) →
      (settle run snapshot summary burner saved records).calls = []) := by
  unfold settle
  by_cases hmark : saved.burnEpochEndBlock = some summary.epochEndBlock
  · rw [if_pos hmark]
    exact ⟨fun h => absurd hmark h.1, fun _ => rfl⟩
  · rw [if_neg hmark]
    by_cases has : Asks run snapshot summary
    · obtain ⟨policy, hpolicy, hw⟩ := weighing_asks hfin has
      refine ⟨fun _ => ⟨policy, hpolicy, ?_⟩, fun h => absurd ⟨hmark, has⟩ h⟩
      rw [hw]
      dsimp only
      cases burner (callFor snapshot summary policy) <;> rfl
    · refine ⟨fun h => absurd h.2 has, fun _ => ?_⟩
      by_cases hon : OnChain run snapshot summary
      · rw [weighing_onChain hon]
      · rcases weighing_neither hfin hon has with hw | ⟨e, hw⟩ <;> rw [hw]

/-- An epoch is marked once its weights are on the chain, or accepted. -/
theorem settle_state (run : Run shared) (summary : EpochSummary shared.Evidence) (burner : Burner)
    (saved : ValidatorState) (records : List MinerScore)
    (hfin : snapshot.finalizedBlock.val < 2 ^ 64 - 1) :
    (saved.burnEpochEndBlock ≠ some summary.epochEndBlock ∧ (OnChain run snapshot summary ∨
        Asks run snapshot summary ∧ Accepts burner snapshot summary) →
      (settle run snapshot summary burner saved records).state =
        saved.burned summary.epochEndBlock) ∧
    (¬(saved.burnEpochEndBlock ≠ some summary.epochEndBlock ∧ (OnChain run snapshot summary ∨
        Asks run snapshot summary ∧ Accepts burner snapshot summary)) →
      (settle run snapshot summary burner saved records).state = saved) := by
  unfold settle
  by_cases hmark : saved.burnEpochEndBlock = some summary.epochEndBlock
  · rw [if_pos hmark]
    exact ⟨fun h => absurd hmark h.1, fun _ => rfl⟩
  · rw [if_neg hmark]
    by_cases hon : OnChain run snapshot summary
    · rw [weighing_onChain hon]
      exact ⟨fun _ => rfl, fun h => absurd ⟨hmark, .inl hon⟩ h⟩
    · by_cases has : Asks run snapshot summary
      · obtain ⟨policy, hpolicy, hw⟩ := weighing_asks hfin has
        rw [hw]
        dsimp only
        cases hr : burner (callFor snapshot summary policy) with
        | ok message =>
          exact ⟨fun _ => rfl,
            fun h => absurd ⟨hmark, .inr ⟨has, policy, message, hpolicy, hr⟩⟩ h⟩
        | error e =>
          refine ⟨fun h => ?_, fun _ => rfl⟩
          rcases h.2 with hon' | ⟨-, policy', message, hpolicy', hr'⟩
          · exact absurd hon' hon
          · obtain rfl : policy = policy' := Except.ok.inj (hpolicy.symm.trans hpolicy')
            rw [hr] at hr'
            cases hr'
      · have hno : ¬(OnChain run snapshot summary ∨
            Asks run snapshot summary ∧ Accepts burner snapshot summary) := by
          intro hor
          rcases hor with h | h
          · exact hon h
          · exact has h.1
        refine ⟨fun h => absurd h.2 hno, fun _ => ?_⟩
        rcases weighing_neither hfin hon has with hw | ⟨e, hw⟩ <;> rw [hw]

/-- In any case the state is kept, or marks the epoch. -/
theorem settle_or (run : Run shared) (snapshot : ChainSnapshot)
    (summary : EpochSummary shared.Evidence) (burner : Burner) (saved : ValidatorState)
    (records : List MinerScore) :
    (settle run snapshot summary burner saved records).state = saved ∨
      (settle run snapshot summary burner saved records).state =
        saved.burned summary.epochEndBlock := by
  unfold settle
  split
  · exact .inl rfl
  · cases weighing run snapshot summary with
    | refused e => exact .inl rfl
    | onChain => exact .inr rfl
    | limited => exact .inl rfl
    | asked policy =>
      dsimp only
      cases burner (callFor snapshot summary policy) with
      | ok message => exact .inr rfl
      | error e => exact .inl rfl

/-- A summary that is stored already. -/
theorem processed_self (he : saved.summaryEpochEndBlock = some summary.epochEndBlock)
    (hid : saved.summaryId = some summary.summaryId)
    (hdigest : saved.summaryDigest = some summary.digest) : saved.processed summary = saved := by
  rw [ValidatorState.processed, ← he, ← hid, ← hdigest]

/-- **An admitted run** settles its summary, stored now or before. -/
theorem decision_admitted (h : Admitted summary snapshot saved) :
    decision run snapshot summary burner saved =
      settle run snapshot summary burner (saved.processed summary)
        (if saved.summaryEpochEndBlock = some summary.epochEndBlock then []
          else shared.scoreEpochSummary summary) := by
  have hold : saved.summaryEpochEndBlock.any (· > summary.epochEndBlock) = false := by
    cases he : saved.summaryEpochEndBlock with
    | none => rfl
    | some e =>
      rw [Option.any_some, decide_eq_false_iff_not]
      rcases h.stored e he with hlt | ⟨rfl, -⟩
      · exact Fin.not_lt.mpr (Fin.le_of_lt hlt)
      · exact Fin.lt_irrefl _
  rw [decision, h.fits]
  dsimp only
  unfold compare
  rw [hold, if_neg Bool.false_ne_true]
  by_cases he : saved.summaryEpochEndBlock = some summary.epochEndBlock
  · have hsame : saved.summaryId = some summary.summaryId ∧
        saved.summaryDigest = some summary.digest := by
      rcases h.stored _ he with hlt | ⟨-, hsame⟩
      · exact absurd hlt (Fin.lt_irrefl _)
      · exact hsame
    rw [if_pos he, if_pos he, if_neg (by simp [hsame]), processed_self he hsame.1 hsame.2]
  · rw [if_neg he, if_neg he]

/-- **A run that is not admitted** changes nothing, and the burner is not called. -/
theorem decision_refused (run : Run shared) (burner : Burner)
    (h : ¬Admitted summary snapshot saved) :
    ∃ e, e ≠ .panicked ∧ decision run snapshot summary burner saved = ⟨[], .error e, saved⟩ := by
  unfold decision
  cases hfits : validateChain summary snapshot with
  | error e => exact ⟨.chain e, (fun h => by cases h), rfl⟩
  | ok u =>
    dsimp only
    cases hcmp : compare saved summary with
    | error e => exact ⟨.state e, (fun h => by cases h), rfl⟩
    | ok seen =>
      refine absurd ⟨hfits, fun e he => ?_⟩ h
      cases seen with
      | false => exact .inl (compare_false hcmp he)
      | true =>
        refine .inr ?_
        have hend := compare_true hcmp
        obtain rfl : e = summary.epochEndBlock := Option.some.inj (he.symm.trans hend)
        unfold compare at hcmp
        rw [if_pos hend] at hcmp
        split_ifs at hcmp with h₁ h₂
        rw [not_or, not_not, not_not] at h₂
        exact ⟨rfl, h₂⟩

/-- Where every hotkey has its last update, nothing panics. -/
theorem weighing_ne_panicked (run : Run shared) (summary : EpochSummary shared.Evidence)
    (hlen : snapshot.hotkeys.length = snapshot.lastUpdates.length) :
    weighing run snapshot summary ≠ .refused .panicked := by
  unfold weighing
  cases huid : snapshot.hotkeys.findIdx? (· = run.hotkey) with
  | none => exact fun h => by cases h
  | some uid =>
    have hlt : uid < snapshot.lastUpdates.length := by
      rw [← hlen]
      exact (List.findIdx?_eq_some_iff_findIdx_eq.mp huid).1
    dsimp only
    rw [List.getElem?_eq_getElem hlt]
    dsimp only
    split_ifs
    · exact fun h => by cases h
    · exact fun h => by cases h
    · cases targetPolicy summary <;> exact fun h => by cases h

theorem settle_ne_panicked (hlen : snapshot.hotkeys.length = snapshot.lastUpdates.length)
    (records : List MinerScore) :
    (settle run snapshot summary burner saved records).result ≠ .error .panicked := by
  have hw := weighing_ne_panicked run summary hlen
  unfold settle
  split_ifs
  · exact fun h => by cases h
  · cases hweigh : weighing run snapshot summary with
    | refused e =>
      rw [hweigh] at hw
      exact fun h => hw (congrArg Weighing.refused (Except.error.inj h))
    | onChain => exact fun h => by cases h
    | limited => exact fun h => by cases h
    | asked policy =>
      dsimp only
      cases burner (callFor snapshot summary policy) <;> exact fun h => by cases h

/-! ## 5. A run on a smooth host -/

theorem Run.smoothly_decides (law : Law) (snapshot : ChainSnapshot) (burner : Burner)
    (hc : run.chain = anyChain) (hb : run.submit = anyBurner) (hs : run.summary = .ok summary)
    {w : Host} (hw : stateOf w = .ok saved) :
    run.calls law snapshot burner w = (decision run snapshot summary burner saved).calls ∧
      (run.smoothly law snapshot burner w).2.1 =
        (decision run snapshot summary burner saved).result ∧
      stateOf (run.smoothly law snapshot burner w).2.2 =
        .ok (decision run snapshot summary burner saved).state := by
  have h := runOnce_decides law snapshot burner hc hb hs
    (ValidatorState.ofFile_wellFormed hw)
  exact ⟨h.notes w hw, h.value w hw, h.after w hw⟩

/-- The stored summary. -/
def ValidatorState.triple (saved : ValidatorState) : Option String × Option String × Option U64 :=
  (saved.summaryId, saved.summaryDigest, saved.summaryEpochEndBlock)

/-- What is stored of a summary. -/
def tripleOf {Evidence : Type} (summary : EpochSummary Evidence) :
    Option String × Option String × Option U64 :=
  (some summary.summaryId, some summary.digest, some summary.epochEndBlock)

/-- An admitted summary that is stored already is the stored one. -/
theorem Admitted.repeated (h : Admitted summary snapshot saved)
    (he : saved.summaryEpochEndBlock = some summary.epochEndBlock) :
    saved.triple = tripleOf summary := by
  rcases h.stored _ he with hlt | ⟨-, hid, hdigest⟩
  · exact absurd hlt (Fin.lt_irrefl _)
  · rw [ValidatorState.triple, tripleOf, he, hid, hdigest]

/-- **What a run decides**, on a host where nothing fails. For any state file that `load` accepts, any
    summary, any snapshot that `read` can return below the largest block, and any burner:

    * the summary is stored if and only if the run is admitted and the summary is not the stored one,
      and before the burner is called;
    * the burner is called if and only if the run is admitted, the epoch is not marked, and the
      burner is to be asked; then once, for the miners and the policy of the summary;
    * the epoch is marked if and only if the run is admitted, it was not marked, and its weights are
      on the chain already, or the burner was asked and accepted them;
    * nothing else of the state changes, and the run does not panic. -/
theorem run_decided (law : Law) (hc : run.chain = anyChain) (hb : run.submit = anyBurner)
    (hs : run.summary = .ok summary) {block : U64} {storage : Storage}
    (hread : readStorage block storage = .ok snapshot)
    (hfin : snapshot.finalizedBlock.val < 2 ^ 64 - 1) (burner : Burner) {w : Host}
    (hw : stateOf w = .ok saved) :
    ∃ after, stateOf (run.smoothly law snapshot burner w).2.2 = .ok after ∧
      (Admitted summary snapshot saved ∧ saved.summaryEpochEndBlock ≠ some summary.epochEndBlock →
        after.triple = tripleOf summary) ∧
      (¬(Admitted summary snapshot saved ∧
          saved.summaryEpochEndBlock ≠ some summary.epochEndBlock) →
        after.triple = saved.triple) ∧
      (Admitted summary snapshot saved ∧ saved.burnEpochEndBlock ≠ some summary.epochEndBlock ∧
          Asks run snapshot summary →
        ∃ policy, targetPolicy summary = .ok policy ∧ run.calls law snapshot burner w =
          [(callFor snapshot summary policy,
            .ok { after with burnEpochEndBlock := saved.burnEpochEndBlock })]) ∧
      (¬(Admitted summary snapshot saved ∧ saved.burnEpochEndBlock ≠ some summary.epochEndBlock ∧
          Asks run snapshot summary) → run.calls law snapshot burner w = []) ∧
      (Admitted summary snapshot saved ∧ saved.burnEpochEndBlock ≠ some summary.epochEndBlock ∧
          (OnChain run snapshot summary ∨
            Asks run snapshot summary ∧ Accepts burner snapshot summary) →
        after.burnEpochEndBlock = some summary.epochEndBlock) ∧
      (¬(Admitted summary snapshot saved ∧ saved.burnEpochEndBlock ≠ some summary.epochEndBlock ∧
          (OnChain run snapshot summary ∨
            Asks run snapshot summary ∧ Accepts burner snapshot summary)) →
        after.burnEpochEndBlock = saved.burnEpochEndBlock) ∧
      (run.smoothly law snapshot burner w).2.1 ≠ .error .panicked := by
  obtain ⟨hcalls, hresult, hstate⟩ := Run.smoothly_decides law snapshot burner hc hb hs hw
  refine ⟨_, hstate, ?_⟩
  rw [hcalls, hresult]
  by_cases ha : Admitted summary snapshot saved
  · rw [decision_admitted ha]
    generalize (if saved.summaryEpochEndBlock = some summary.epochEndBlock then []
      else shared.scoreEpochSummary summary) = records
    obtain ⟨hasked, hsilent⟩ := settle_calls run summary burner (saved.processed summary) records hfin
    obtain ⟨hmarked, hkept⟩ := settle_state run summary burner (saved.processed summary) records hfin
    generalize hd : settle run snapshot summary burner (saved.processed summary) records = d at *
    -- whatever becomes of the weights, the summary is stored by then
    have htriple : d.state.triple = tripleOf summary ∧
        { d.state with burnEpochEndBlock := saved.burnEpochEndBlock } = saved.processed summary := by
      rcases hd ▸ settle_or run snapshot summary burner (saved.processed summary) records with
        h | h <;>
      · rw [h]
        exact ⟨rfl, rfl⟩
    refine ⟨fun _ => htriple.1, fun hno => ?_, fun h => ?_, fun h => ?_, fun h => ?_, fun h => ?_, ?_⟩
    · have he : saved.summaryEpochEndBlock = some summary.epochEndBlock := by
        by_contra hne
        exact hno ⟨ha, hne⟩
      rw [htriple.1, ha.repeated he]
    · rw [htriple.2]
      exact hasked h.2
    · exact hsilent fun h' => h ⟨ha, h'⟩
    · rw [hmarked h.2]
      rfl
    · rw [hkept fun h' => h ⟨ha, h'⟩]
      rfl
    · rw [← hd]
      exact settle_ne_panicked (readStorage_ok hread).2.2.2.2.1 records
  · obtain ⟨e, hne, hd⟩ := decision_refused run burner ha
    rw [hd]
    refine ⟨fun h => absurd h.1 ha, fun _ => rfl, fun h => absurd h.1 ha, fun _ => rfl,
      fun h => absurd h.1 ha, fun _ => rfl, fun h => hne (Except.error.inj h)⟩

theorem sampleSnapshot_read : readStorage 730 sampleStorage = .ok sampleSnapshot := rfl

theorem sample_admitted : Admitted sampleSummary sampleSnapshot default :=
  ⟨rfl, fun _ he => by cases he⟩

theorem sample_asks : Asks sampleRun sampleSnapshot sampleSummary :=
  ⟨400, ⟨1, by decide, rfl⟩, by decide, .inr (by decide), rfl, rfl⟩

/-- A first run whose burner refuses stores the summary and marks nothing. -/
theorem run_decided_test : ∃ after, stateOf (sampleRun.smoothly anyLaw sampleSnapshot
      (fun _ => .error ⟨"no"⟩) newHost).2.2 = .ok after ∧
    after.triple = tripleOf sampleSummary ∧ after.burnEpochEndBlock = none ∧
    ∃ call, sampleRun.calls anyLaw sampleSnapshot (fun _ => .error ⟨"no"⟩) newHost = [call] := by
  obtain ⟨after, hafter, hfresh, -, hasked, -, -, hkept, -⟩ := run_decided anyLaw
    (show sampleRun.chain = anyChain from rfl) rfl
    (show sampleRun.summary = .ok sampleSummary from rfl) sampleSnapshot_read (by decide)
    (fun _ => .error ⟨"no"⟩) (show stateOf newHost = .ok default from rfl)
  obtain ⟨policy, -, hcall⟩ := hasked ⟨sample_admitted, by decide, sample_asks⟩
  refine ⟨after, hafter, hfresh ⟨sample_admitted, by decide⟩, hkept ?_, _, hcall⟩
  intro h
  obtain ⟨-, -, ⟨u, ⟨uid, huid, hu⟩, hle⟩ | ⟨-, policy, message, -, hok⟩⟩ := h
  · obtain rfl : 1 = uid := Option.some.inj (huid.symm.trans (by decide) |>.symm)
    obtain rfl : 400 = u := Option.some.inj hu
    exact absurd hle (by decide)
  · cases hok

/-! ## 6. Retries -/

/-- Two states that do not mark the epoch settle alike. -/
theorem settle_same (run : Run shared) (snapshot : ChainSnapshot) (burner : Burner)
    {saved' : ValidatorState} (records records' : List MinerScore)
    (h : saved.burnEpochEndBlock ≠ some summary.epochEndBlock)
    (h' : saved'.burnEpochEndBlock ≠ some summary.epochEndBlock) :
    (settle run snapshot summary burner saved records).calls.map (·.1) =
        (settle run snapshot summary burner saved' records').calls.map (·.1) ∧
      (∀ e, (settle run snapshot summary burner saved records).result = .error e ↔
        (settle run snapshot summary burner saved' records').result = .error e) ∧
      ((settle run snapshot summary burner saved records).state = saved ∧
          (settle run snapshot summary burner saved' records').state = saved' ∨
        (settle run snapshot summary burner saved records).state =
            saved.burned summary.epochEndBlock ∧
          (settle run snapshot summary burner saved' records').state =
            saved'.burned summary.epochEndBlock) := by
  unfold settle
  rw [if_neg h, if_neg h']
  cases weighing run snapshot summary with
  | refused e => exact ⟨rfl, fun _ => Iff.rfl, .inl ⟨rfl, rfl⟩⟩
  | onChain => exact ⟨rfl, fun _ => by simp, .inr ⟨rfl, rfl⟩⟩
  | limited => exact ⟨rfl, fun _ => by simp, .inl ⟨rfl, rfl⟩⟩
  | asked policy =>
    dsimp only
    cases burner (callFor snapshot summary policy) with
    | ok message => exact ⟨rfl, fun _ => by simp, .inr ⟨rfl, rfl⟩⟩
    | error e => exact ⟨rfl, fun _ => Iff.rfl, .inl ⟨rfl, rfl⟩⟩

/-- A state that stores an older epoch, or none, does not mark this one. -/
theorem unmarked_of_older (hw : saved.WellFormed)
    (hold : ∀ e, saved.summaryEpochEndBlock = some e → e < summary.epochEndBlock) :
    saved.burnEpochEndBlock ≠ some summary.epochEndBlock := by
  intro hb
  obtain ⟨e, he, hle⟩ := hw.burn_le hb
  exact absurd (hold e he) (Fin.not_lt.mpr hle)

/-- **What an attempt leaves**: the state as it was, or one that stores the summary. -/
theorem decision_triple :
    (decision run snapshot summary burner saved).state = saved ∨
      (decision run snapshot summary burner saved).state.triple = tripleOf summary := by
  by_cases ha : Admitted summary snapshot saved
  · refine .inr ?_
    rw [decision_admitted ha]
    rcases settle_or run snapshot summary burner (saved.processed summary) _ with h | h <;>
    · rw [h]
      rfl
  · obtain ⟨e, -, hd⟩ := decision_refused run burner ha
    exact .inl (by rw [hd])

/-- Attempts at a summary, one after another, each with its snapshot and its burner. -/
def Run.attempts (run : Run shared) (law : Law) : List (ChainSnapshot × Burner) → Host → Host
  | [], w => w
  | (snapshot, burner) :: attempts, w =>
    run.attempts law attempts (run.smoothly law snapshot burner w).2.2

/-- **Any attempts** leave the state as it was, or one that stores the summary. -/
theorem Run.attempts_triple (hc : run.chain = anyChain) (hb : run.submit = anyBurner)
    (hs : run.summary = .ok summary) (attempts : List (ChainSnapshot × Burner)) {w : Host}
    (hw : stateOf w = .ok saved) : ∃ s, stateOf (run.attempts law attempts w) = .ok s ∧
      (s = saved ∨ s.triple = tripleOf summary) := by
  induction attempts generalizing w saved with
  | nil => exact ⟨saved, hw, .inl rfl⟩
  | cons attempt attempts ih =>
    obtain ⟨snapshot, burner⟩ := attempt
    obtain ⟨-, -, hstate⟩ := Run.smoothly_decides law snapshot burner hc hb hs hw
    obtain ⟨s, hs', hor⟩ := ih hstate
    refine ⟨s, hs', ?_⟩
    rcases hor with rfl | htriple
    · exact decision_triple
    · exact .inr htriple

/-- **What a first attempt and a retry have in common**, started in `saved` and in `saved'`. -/
structure Alike {Evidence : Type} (summary : EpochSummary Evidence) (snapshot : ChainSnapshot)
    (saved saved' : ValidatorState) (d d' : Decision) : Prop where
  calls : d.calls.map (·.1) = d'.calls.map (·.1)
  error : ∀ e, d.result = .error e ↔ d'.result = .error e
  fits : validateChain summary snapshot = .ok () →
    d.state.triple = tripleOf summary ∧ d'.state.triple = tripleOf summary
  refused : validateChain summary snapshot ≠ .ok () → d.state = saved ∧ d'.state = saved'
  marked : d.state.burnEpochEndBlock = some summary.epochEndBlock ↔
    d'.state.burnEpochEndBlock = some summary.epochEndBlock
  same : d.state.burnEpochEndBlock = some summary.epochEndBlock → d.state = d'.state

theorem decision_alike (run : Run shared) (burner : Burner) {saved' : ValidatorState}
    (hw : saved.WellFormed)
    (hold : ∀ e, saved.summaryEpochEndBlock = some e → e < summary.epochEndBlock)
    (hsame : saved'.triple = tripleOf summary)
    (hmark : saved'.burnEpochEndBlock ≠ some summary.epochEndBlock) :
    Alike summary snapshot saved saved' (decision run snapshot summary burner saved)
      (decision run snapshot summary burner saved') := by
  have hun := unmarked_of_older hw hold
  obtain ⟨hid, hdigest, hend⟩ : saved'.summaryId = some summary.summaryId ∧
      saved'.summaryDigest = some summary.digest ∧
      saved'.summaryEpochEndBlock = some summary.epochEndBlock := by
    simpa [ValidatorState.triple, tripleOf] using hsame
  cases hfits : validateChain summary snapshot with
  | error e =>
    have hd : ∀ s, decision run snapshot summary burner s = ⟨[], .error (.chain e), s⟩ := by
      intro s
      rw [decision, hfits]
    rw [hd, hd]
    refine ⟨rfl, fun _ => Iff.rfl, fun h => ?_, fun _ => ⟨rfl, rfl⟩,
      ⟨fun h => absurd h hun, fun h => absurd h hmark⟩, fun h => absurd h hun⟩
    rw [hfits] at h
    cases h
  | ok u =>
    have ha : Admitted summary snapshot saved := ⟨hfits, fun e he => .inl (hold e he)⟩
    have ha' : Admitted summary snapshot saved' := by
      refine ⟨hfits, fun e he => .inr ⟨?_, hid, hdigest⟩⟩
      exact Option.some.inj (he.symm.trans hend)
    have hp : saved'.processed summary = saved' := processed_self hend hid hdigest
    rw [decision_admitted ha, decision_admitted ha', hp]
    generalize (if saved.summaryEpochEndBlock = some summary.epochEndBlock then []
      else shared.scoreEpochSummary summary) = records
    generalize (if saved'.summaryEpochEndBlock = some summary.epochEndBlock then []
      else shared.scoreEpochSummary summary) = records'
    have hun' : (saved.processed summary).burnEpochEndBlock ≠ some summary.epochEndBlock := hun
    obtain ⟨hcalls, herror, hstate⟩ := settle_same run snapshot burner records records' hun' hmark
    rcases hstate with ⟨h, h'⟩ | ⟨h, h'⟩
    · refine ⟨hcalls, herror, fun _ => ?_, fun hno => absurd hfits hno, ?_, fun hm => ?_⟩
      · rw [h, h']
        exact ⟨rfl, hsame⟩
      · rw [h, h']
        exact ⟨fun hm => absurd hm hun', fun hm => absurd hm hmark⟩
      · rw [h] at hm
        exact absurd hm hun'
    · refine ⟨hcalls, herror, fun _ => ?_, fun hno => absurd hfits hno, ?_, fun _ => ?_⟩
      · rw [h, h']
        exact ⟨rfl, hsame⟩
      · rw [h, h']
        exact Iff.rfl
      · rw [h, h', ← hp]
        rfl

/-- **A retry submits what the first attempt would have.** For any snapshot and any burner, a run that
    starts with an older epoch or none, and a run that starts with the summary stored and the epoch
    not marked:

    * call the burner alike, for the same miners and with the same policy, and fail alike;
    * where the summary fits the snapshot, both leave it stored, and where it does not, both change
      nothing;
    * mark the epoch alike, and then leave the same state.

    And after any attempts, as long as the epoch is not marked, the burner is called as it would have
    been at first. -/
theorem retry_same (law : Law) (hc : run.chain = anyChain) (hb : run.submit = anyBurner)
    (hs : run.summary = .ok summary) (snapshot : ChainSnapshot) (burner : Burner) {w w' : Host}
    {saved' : ValidatorState} (hw : stateOf w = .ok saved) (hw' : stateOf w' = .ok saved')
    (hold : ∀ e, saved.summaryEpochEndBlock = some e → e < summary.epochEndBlock)
    (hsame : saved'.triple = tripleOf summary)
    (hmark : saved'.burnEpochEndBlock ≠ some summary.epochEndBlock) :
    (run.calls law snapshot burner w).map (·.1) = (run.calls law snapshot burner w').map (·.1) ∧
      (∀ e, (run.smoothly law snapshot burner w).2.1 = .error e ↔
        (run.smoothly law snapshot burner w').2.1 = .error e) ∧
      (∃ after after', stateOf (run.smoothly law snapshot burner w).2.2 = .ok after ∧
        stateOf (run.smoothly law snapshot burner w').2.2 = .ok after' ∧
        (validateChain summary snapshot = .ok () →
          after.triple = tripleOf summary ∧ after'.triple = tripleOf summary) ∧
        (validateChain summary snapshot ≠ .ok () → after = saved ∧ after' = saved') ∧
        (after.burnEpochEndBlock = some summary.epochEndBlock ↔
          after'.burnEpochEndBlock = some summary.epochEndBlock) ∧
        (after.burnEpochEndBlock = some summary.epochEndBlock → after = after')) ∧
      ∀ attempts s, stateOf (run.attempts law attempts w) = .ok s →
        s.burnEpochEndBlock ≠ some summary.epochEndBlock →
        (run.calls law snapshot burner (run.attempts law attempts w)).map (·.1) =
          (run.calls law snapshot burner w).map (·.1) := by
  obtain ⟨hcalls, hresult, hstate⟩ := Run.smoothly_decides law snapshot burner hc hb hs hw
  obtain ⟨hcalls', hresult', hstate'⟩ := Run.smoothly_decides law snapshot burner hc hb hs hw'
  have hwell := ValidatorState.ofFile_wellFormed hw
  have h : Alike summary snapshot saved saved' (decision run snapshot summary burner saved)
      (decision run snapshot summary burner saved') :=
    decision_alike run burner hwell hold hsame hmark
  rw [hcalls, hcalls', hresult, hresult']
  refine ⟨h.calls, h.error, ⟨_, _, hstate, hstate', h.fits, h.refused, h.marked, h.same⟩, ?_⟩
  intro attempts s hs' hun
  have hafter : ∃ s, stateOf (run.attempts law attempts w) = .ok s ∧
      (s = saved ∨ s.triple = tripleOf summary) := Run.attempts_triple hc hb hs attempts hw
  obtain ⟨s', hs'', hor⟩ := hafter
  obtain rfl : s = s' := Except.ok.inj (hs'.symm.trans hs'')
  rw [(Run.smoothly_decides law snapshot burner hc hb hs hs').1]
  rcases hor with rfl | htriple
  · rfl
  · exact (decision_alike run burner hwell hold htriple hun).calls.symm

/-- The state that a failed first attempt leaves, and a host with it. -/
def attempted : ValidatorState := ⟨none, some "digest", some 720, some "id"⟩

def attemptedHost : Host :=
  { newHost with files := fun p => if p = .file .state then some attempted.encode else none }

theorem attemptedHost_state : stateOf attemptedHost = .ok attempted := by
  have hfile : attemptedHost.files (.file .state) = some attempted.encode := by
    simp only [attemptedHost, if_true]
  have hwell : attempted.WellFormed := by
    refine ⟨.some rfl rfl rfl (by decide) (by decide), ?_⟩
    intro h
    obtain ⟨b, hb, -⟩ := h
    cases hb
  rw [stateOf, hfile, ValidatorState.ofFile, ValidatorState.decode_encode hwell]

theorem retry_same_test : (sampleRun.calls anyLaw sampleSnapshot (fun _ => .ok "ok") newHost).map
      (·.1) =
    (sampleRun.calls anyLaw sampleSnapshot (fun _ => .ok "ok") attemptedHost).map (·.1) :=
  (retry_same anyLaw (show sampleRun.chain = anyChain from rfl) rfl
    (show sampleRun.summary = .ok sampleSummary from rfl) sampleSnapshot (fun _ => .ok "ok")
    (show stateOf newHost = .ok default from rfl) attemptedHost_state (fun _ he => by cases he) rfl
    (by decide)).1

/-- A snapshot that the summary does not fit: the subnet's tempo changed. -/
def changedStorage : Storage := { sampleStorage with tempo := 100 }

def changedSnapshot : ChainSnapshot := { sampleSnapshot with tempo := 100 }

/-- **Where the summary does not fit**, a first attempt and a retry leave what was stored, and that is
    not the same summary. -/
theorem retry_differs : ¬∀ (run : Run sampleShared) (summary : EpochSummary Unit)
    (snapshot : ChainSnapshot) (burner : Burner) (w w' : Host) (saved saved' : ValidatorState),
    run.chain = anyChain → run.submit = anyBurner → run.summary = .ok summary →
    (∃ block storage, readStorage block storage = .ok snapshot) →
    stateOf w = .ok saved → stateOf w' = .ok saved' →
    (∀ e, saved.summaryEpochEndBlock = some e → e < summary.epochEndBlock) →
    saved'.triple = tripleOf summary → saved'.burnEpochEndBlock ≠ some summary.epochEndBlock →
    ∃ after after', stateOf (run.smoothly anyLaw snapshot burner w).2.2 = .ok after ∧
      stateOf (run.smoothly anyLaw snapshot burner w').2.2 = .ok after' ∧
      after.triple = after'.triple := by
  intro h
  have hs : sampleRun.summary = .ok sampleSummary := rfl
  have hw : stateOf newHost = .ok default := rfl
  obtain ⟨after, after', ha, ha', heq⟩ := h sampleRun sampleSummary changedSnapshot
    (fun _ => .ok "ok") newHost attemptedHost default attempted rfl rfl hs
    ⟨730, changedStorage, rfl⟩ hw attemptedHost_state (fun _ he => by cases he) rfl (by decide)
  -- both runs stop at the comparison with the snapshot
  have hd := Run.smoothly_decides anyLaw changedSnapshot (fun _ => .ok "ok") rfl rfl hs hw
  have hd' := Run.smoothly_decides anyLaw changedSnapshot (fun _ => .ok "ok") rfl rfl hs
    attemptedHost_state
  obtain rfl : default = after := Except.ok.inj (hd.2.2.symm.trans ha)
  obtain rfl : attempted = after' := Except.ok.inj (hd'.2.2.symm.trans ha')
  exact absurd heq (by decide)

end

end Sn46Validator.Validator
