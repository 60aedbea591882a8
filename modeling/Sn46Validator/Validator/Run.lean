/-
  File:      Validator/Run.lean
  Subject:   ONE VALIDATOR RUN: fetch the summary, check it against the chain, score, and set weights.

  * `RunError` -- why a run fails;
  * `readChain` -- **`BittensorChain::snapshot`**;
  * `Run` -- the seams of a run: the chain, the burner, and what the fetch gave;
  * `runOnce` -- **`run_once`**; `takeLock`, `load`, `save`, `process` and `setWeights` are its parts.

  The journal is left out, and with it the lines that log the scores.
-/
import Sn46Validator.Validator.Submit

namespace Sn46Validator.Validator

open Library

/-! ## 1. Errors -/

/-- **Why a run fails.** -/
inductive RunError where
  | epochSummary (e : EpochSummaryError)
  | chain (e : ChainError)
  | state (e : StateError)
  | burn (e : BurnError)
  | fetch (text : String)
  | panicked

def Fault.toRunError : Fault → RunError
  | .burn e => .burn e
  | .panicked => .panicked

/-! ## 2. The chain -/

/-- **`BittensorChain::snapshot`** at the finalized head. -/
def readChain (netuid : U64) : Fallible iface ChainError ChainSnapshot := do
  let block ← Fallible.ofExcept ((← perform .currentBlock).mapError .lookup)
  match narrow (2 ^ 16) netuid with
  | some netuid =>
    let storage ← Fallible.ofExcept ((← perform (.storage block netuid)).mapError .lookup)
    Fallible.ofExcept (readStorage block storage)
  | none => throw (.lookup outOfRange)

/-! ## 3. The state file -/

/-- **`StateStore::lock`.** -/
def takeLock : Fallible iface StateError Unit := do
  Fallible.ofExcept ((← perform .createDirectory).mapError .openLock)
  Fallible.ofExcept ((← perform .openLock).mapError .openLock)
  match ← perform .tryLock with
  | .acquired => return ()
  | .wouldBlock => throw .lockContended
  | .error e => throw (.acquireLock e)

/-- **`StateStore::load`.** -/
def load : Fallible iface StateError ValidatorState := do
  match ← perform (.fs (.read (.file .state))) with
  | .ok raw => Fallible.ofExcept (ValidatorState.decode raw)
  | .error .notFound | .error .notADirectory => return default
  | .error e => throw (.read e)

/-- **`StateStore::save`.** -/
def save (s : ValidatorState) : Fallible iface StateError Unit := saveBytes .state s.encode

/-! ## 4. The run -/

/-- **The seams of a run.** `fetched` is what the fetch of the summary gave. -/
structure Run (shared : Shared) where
  network : String
  netuid : U64
  platformSigners : List String
  fetched : Except RunError Bytes
  chain : U64 → Fallible iface ChainError ChainSnapshot
  hotkey : String
  submit : U64 → U64 → List MinerScore → BurnPolicy → Submit String

section

variable {shared : Shared} (run : Run shared)

/-- The summary a run is given. -/
def Run.summary : Except RunError (EpochSummary shared.Evidence) := do
  let raw ← run.fetched
  (parseSignedSummary shared raw run.network run.netuid run.platformSigners).mapError .epochSummary

/-- The state once the summary is processed. -/
def ValidatorState.processed (saved : ValidatorState) (summary : EpochSummary shared.Evidence) :
    ValidatorState :=
  { saved with
    summaryId := some summary.summaryId
    summaryDigest := some summary.digest
    summaryEpochEndBlock := some summary.epochEndBlock }

/-- The state once the weights of an epoch are set. -/
def ValidatorState.burned (saved : ValidatorState) (epochEnd : U64) : ValidatorState :=
  { saved with burnEpochEndBlock := some epochEnd }

/-- Was this epoch's summary processed already? An older summary and another one are refused. -/
def compare (saved : ValidatorState) (summary : EpochSummary shared.Evidence) :
    Except StateError Bool :=
  if saved.summaryEpochEndBlock.any (· > summary.epochEndBlock) then .error .olderEpochSummary
  else if saved.summaryEpochEndBlock = some summary.epochEndBlock then
    if saved.summaryId ≠ some summary.summaryId ∨ saved.summaryDigest ≠ some summary.digest then
      .error .changedEpochSummary
    else .ok true
  else .ok false

/-- The weights of an epoch that is not marked yet: `false` when they have to wait. -/
def setWeights (snapshot : ChainSnapshot) (summary : EpochSummary shared.Evidence)
    (miners : List MinerScore) : Fallible iface RunError Bool :=
  match snapshot.hotkeys.findIdx? (· = run.hotkey) with
  | none => throw (.burn ⟨"Validator hotkey is not registered"⟩)
  | some validatorUid =>
    match snapshot.lastUpdates[validatorUid]? with
    | none => throw .panicked
    | some lastUpdate =>
      if lastUpdate ≥ summary.epochEndBlock then return true
      else if (rateLimited snapshot lastUpdate).isSome then return false
      else do
        let burn ← Fallible.ofExcept ((targetPolicy summary).mapError .burn)
        let _ ← Fallible.mapError Fault.toRunError
          (run.submit summary.netuid.val snapshot.finalizedBlock miners burn)
        return true

/-- The burn part of a run: the weights, then the mark. -/
def burn (snapshot : ChainSnapshot) (summary : EpochSummary shared.Evidence)
    (saved : ValidatorState) (miners records : List MinerScore) :
    Fallible iface RunError (List MinerScore) :=
  if saved.burnEpochEndBlock ≠ some summary.epochEndBlock then do
    if ← setWeights run snapshot summary miners then
      Fallible.mapError .state (save (saved.burned summary.epochEndBlock))
    return records
  else return records

/-- From the loaded state on. -/
def process (snapshot : ChainSnapshot) (summary : EpochSummary shared.Evidence)
    (saved : ValidatorState) : Fallible iface RunError (List MinerScore) := do
  let alreadyProcessed ← Fallible.ofExcept ((compare saved summary).mapError .state)
  let scores := shared.scoreEpochSummary summary
  if alreadyProcessed then burn run snapshot summary saved scores []
  else
    let saved := saved.processed summary
    Fallible.mapError .state (save saved)
    burn run snapshot summary saved scores scores

/-- **`run_once`.** -/
def runOnce : Fallible iface RunError (List MinerScore) := do
  Fallible.mapError .state takeLock
  let snapshot ← Fallible.mapError .chain (run.chain run.netuid)
  let summary ← Fallible.ofExcept run.summary
  Fallible.ofExcept ((validateChain summary snapshot).mapError .chain)
  let saved ← Fallible.mapError .state load
  process run snapshot summary saved

end

end Sn46Validator.Validator
