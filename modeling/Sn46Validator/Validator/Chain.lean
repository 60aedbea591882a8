/-
  File:      Validator/Chain.lean
  Subject:   SUMMARIES AND SNAPSHOTS of the chain, and when the one fits the other.

  * `EpochSummary`, `MinerScore`, `Shared` -- what the program uses of `sn46_shared`, whose parser
    and scoring are parameters;
  * `Storage` -- what the chain stores about a subnet at one block; `readStorage` makes a
    `ChainSnapshot` of it, or refuses;
  * `validateChain` -- does a summary fit a snapshot?
  * `rateLimited` -- must the validator wait before it sets weights again?
-/
import Sn46Validator.Library.Text

namespace Sn46Validator.Validator

open Library

/-! ## 1. Summaries -/

abbrev NonZeroU64 : Type := { n : U64 // n ≠ 0 }

structure Miner where
  uid : U64
  hotkey : String

/-- **A parsed summary.** What only the scoring reads of it is `evidence`. -/
structure EpochSummary (Evidence : Type) where
  summaryId : String
  digest : String
  netuid : NonZeroU64
  tempo : NonZeroU64
  epochStartBlock : U64
  epochEndBlock : U64
  finalizedBlock : U64
  miners : List Miner
  minerTargetUsdCents : Option NonZeroU64
  taoPriceUsdCents : Option NonZeroU64
  evidence : Evidence

/-- A miner's score; of the miner only its UID is read. -/
structure MinerScore where
  uid : U64
  normalizedWeight : U128

/-- Why a summary is refused: another signer's, or anything else. -/
inductive EpochSummaryError where
  | signer
  | other (text : String)

/-- **What `sn46_shared` does**: its parser, which gives no empty texts, and its scoring. -/
structure Shared where
  Evidence : Type
  parseEpochSummary : Bytes → String → U64 → String →
    Except EpochSummaryError (EpochSummary Evidence)
  scoreEpochSummary : EpochSummary Evidence → List MinerScore
  texts : ∀ {raw network netuid signer s}, parseEpochSummary raw network netuid signer = .ok s →
    s.summaryId ≠ "" ∧ s.digest ≠ ""

/-- **`parse_signed_summary`**: the summary, signed by one of `signers`. -/
def parseSignedSummary (shared : Shared) (raw : Bytes) (network : String) (netuid : U64) :
    List String → Except EpochSummaryError (EpochSummary shared.Evidence)
  | [] => .error .signer
  | signer :: signers =>
    match shared.parseEpochSummary raw network netuid signer with
    | .error .signer => parseSignedSummary shared raw network netuid signers
    | outcome => outcome

theorem parseSignedSummary_texts {shared : Shared} {raw : Bytes} {network : String} {netuid : U64}
    {signers : List String} {s : EpochSummary shared.Evidence}
    (h : parseSignedSummary shared raw network netuid signers = .ok s) :
    s.summaryId ≠ "" ∧ s.digest ≠ "" := by
  induction signers with
  | nil => cases h
  | cons signer signers ih =>
    unfold parseSignedSummary at h
    split at h
    · exact ih h
    · exact shared.texts h

/-! ## 2. Snapshots -/

/-- The errors of a snapshot and of its comparison with a summary. -/
inductive ChainError where
  | lookup (text : String)
  | emptySubnet
  | inconsistentEpoch
  | invalidRoster
  | tempo
  | staleEpoch
  | blockAhead
  | epochStart
  | uidHotkey (uid : U64)
  deriving DecidableEq

/-- **What the chain stores about a subnet at one block.** `keys` is the roster, each account in its
    SS58 spelling. -/
structure Storage where
  size : U16
  tempo : U16
  lastStep : U64
  blocksSinceLastStep : U64
  lastUpdates : List U64
  weightsRateLimit : U64
  keys : Nat → Option String

/-- **A snapshot**: the finalized state a run decides by. -/
structure ChainSnapshot where
  finalizedBlock : U64
  tempo : U64
  lastStep : U64
  hotkeys : List String
  lastUpdates : List U64
  weightsRateLimit : U64

/-- The hotkeys of the UIDs `uid`, `uid + 1`, …, of which there are `n`. -/
def roster (keys : Nat → Option String) : Nat → Nat → Except ChainError (List String)
  | _, 0 => .ok []
  | uid, n + 1 =>
    match keys uid with
    | some account => (roster keys (uid + 1) n).map (account :: ·)
    | none => .error (.lookup ("KeyError: " ++ toString uid))

/-- **`BittensorChain::read`**, once everything is fetched at the finalized head `block`. -/
def readStorage (block : U64) (s : Storage) : Except ChainError ChainSnapshot := do
  let hotkeys ← roster s.keys 0 s.size.val
  if s.size = 0 then throw .emptySubnet
  if s.tempo = 0 ∨ checkedAdd s.lastStep s.blocksSinceLastStep ≠ some block then
    throw .inconsistentEpoch
  if hotkeys.length ≠ s.lastUpdates.length then throw .invalidRoster
  return {
    finalizedBlock := block
    tempo := ⟨s.tempo.val, by have := s.tempo.isLt; omega⟩
    lastStep := s.lastStep
    hotkeys := hotkeys
    lastUpdates := s.lastUpdates
    weightsRateLimit := s.weightsRateLimit }

/-- The hotkeys of a roster are those of the chain, by their UIDs. -/
theorem roster_get {keys : Nat → Option String} {uid n : Nat} {l : List String}
    (h : roster keys uid n = .ok l) {i : Nat} {k : String} (hk : l[i]? = some k) :
    keys (uid + i) = some k := by
  induction n generalizing uid l i with
  | zero =>
    cases h
    simp at hk
  | succ n ih =>
    unfold roster at h
    split at h
    · rename_i account ha
      cases hr : roster keys (uid + 1) n with
      | error e =>
        rw [hr] at h
        cases h
      | ok rest =>
        rw [hr] at h
        cases h
        cases i with
        | zero => simpa [ha] using hk
        | succ i =>
          have hi := ih hr (by simpa using hk)
          rwa [Nat.add_assoc, Nat.add_comm 1 i] at hi
    · cases h

theorem roster_length {keys : Nat → Option String} {uid n : Nat} {l : List String}
    (h : roster keys uid n = .ok l) : l.length = n := by
  induction n generalizing uid l with
  | zero =>
    cases h
    rfl
  | succ n ih =>
    unfold roster at h
    split at h
    · cases hr : roster keys (uid + 1) n with
      | error e =>
        rw [hr] at h
        cases h
      | ok rest =>
        rw [hr] at h
        cases h
        exact congrArg (· + 1) (ih hr)
    · cases h

/-- **A snapshot is what the chain stores**, at a block no earlier than its last step. -/
theorem readStorage_ok {block : U64} {s : Storage} {snapshot : ChainSnapshot}
    (h : readStorage block s = .ok snapshot) :
    snapshot.finalizedBlock = block ∧ snapshot.lastStep = s.lastStep ∧ s.lastStep ≤ block ∧
      snapshot.lastUpdates = s.lastUpdates ∧
      snapshot.hotkeys.length = snapshot.lastUpdates.length ∧
      ∀ i k, snapshot.hotkeys[i]? = some k → s.keys i = some k := by
  unfold readStorage at h
  cases hr : roster s.keys 0 s.size.val with
  | error e =>
    rw [hr] at h
    cases h
  | ok l =>
    rw [hr] at h
    simp only [bind, Except.bind, pure, Except.pure] at h
    split at h
    · cases h
    · split at h
      · cases h
      · rename_i hstep
        split at h
        · cases h
        · rename_i hlen
          cases h
          have hadd : checkedAdd s.lastStep s.blocksSinceLastStep = some block := by
            by_contra hne
            exact hstep (.inr hne)
          have hval := checkedAdd_eq hadd
          refine ⟨rfl, rfl, ?_, rfl, ?_, fun i k hk => ?_⟩
          · rw [Fin.le_def]
            omega
          · simpa using hlen
          · have hi := roster_get hr hk
            rwa [Nat.zero_add] at hi

/-- A snapshot lists one hotkey and one last update for each UID. -/
theorem readStorage_size {block : U64} {s : Storage} {snapshot : ChainSnapshot}
    (h : readStorage block s = .ok snapshot) :
    snapshot.hotkeys.length = s.size.val ∧ snapshot.lastUpdates.length = s.size.val := by
  have hlen := (readStorage_ok h).2.2.2.2.1
  suffices hs : snapshot.hotkeys.length = s.size.val from ⟨hs, hlen ▸ hs⟩
  unfold readStorage at h
  cases hr : roster s.keys 0 s.size.val with
  | error e =>
    rw [hr] at h
    cases h
  | ok l =>
    rw [hr] at h
    simp only [bind, Except.bind, pure, Except.pure] at h
    split_ifs at h
    cases h
    exact roster_length hr

/-! ## 3. Decisions -/

/-- Every miner of a summary has its UID. -/
def checkMiners (hotkeys : List String) : List Miner → Except ChainError Unit
  | [] => .ok ()
  | m :: miners =>
    if hotkeys[m.uid.val]? = some m.hotkey then checkMiners hotkeys miners
    else .error (.uidHotkey m.uid)

/-- **`validate_chain`.** -/
def validateChain {Evidence : Type} (e : EpochSummary Evidence) (s : ChainSnapshot) :
    Except ChainError Unit := do
  if e.tempo.val ≠ s.tempo then throw .tempo
  if e.epochEndBlock ≠ s.lastStep then throw .staleEpoch
  if e.finalizedBlock > s.finalizedBlock then throw .blockAhead
  let expectedStart : Int := s.lastStep.val - s.tempo.val + 1
  if (e.epochStartBlock.val : Int) ≠ expectedStart then throw .epochStart
  checkMiners s.hotkeys e.miners

/-- A valid summary is about the last epoch of the snapshot. -/
theorem validateChain_end {Evidence : Type} {e : EpochSummary Evidence} {s : ChainSnapshot}
    (h : validateChain e s = .ok ()) : e.epochEndBlock = s.lastStep := by
  by_contra hne
  unfold validateChain at h
  by_cases ht : e.tempo.val ≠ s.tempo
  · rw [if_pos ht] at h
    cases h
  · rw [if_neg ht, if_pos hne] at h
    cases h

theorem checkMiners_ok {hotkeys : List String} {miners : List Miner}
    (h : checkMiners hotkeys miners = .ok ()) {m : Miner} (hm : m ∈ miners) :
    hotkeys[m.uid.val]? = some m.hotkey := by
  induction miners with
  | nil => cases hm
  | cons m' miners ih =>
    unfold checkMiners at h
    split_ifs at h with hk
    rcases List.mem_cons.mp hm with rfl | hm
    · exact hk
    · exact ih h hm

/-- The miners of a valid summary have their UIDs. -/
theorem validateChain_miners {Evidence : Type} {e : EpochSummary Evidence} {s : ChainSnapshot}
    (h : validateChain e s = .ok ()) {m : Miner} (hm : m ∈ e.miners) :
    s.hotkeys[m.uid.val]? = some m.hotkey := by
  unfold validateChain at h
  simp only [bind, Except.bind] at h
  split_ifs at h
  exact checkMiners_ok h hm

/-- **`rate_limited`**, by the hotkey's last update: the first block at which weights can be set
    again, while it is ahead of the finalized head. -/
def rateLimited (snapshot : ChainSnapshot) (lastUpdate : U64) : Option U64 :=
  let allowedFrom := U64.saturatingAdd lastUpdate snapshot.weightsRateLimit
  if lastUpdate > 0 ∧ allowedFrom > snapshot.finalizedBlock then some allowedFrom else none

end Sn46Validator.Validator
