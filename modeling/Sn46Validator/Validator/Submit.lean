/-
  File:      Validator/Submit.lean
  Subject:   ONE SUBMISSION of weights, as a program over the host's operations.

  * `saveBytes` -- a file replaced through a temporary one;
  * `Writer` -- the hotkey that signs and the chain it signs for; `savePending`, `checkPending` --
    the record of an uncertain extrinsic;
  * `submitAt` -- **a submission** from the finalized block it is pinned to: the checks, the weights,
    the record, the broadcast, the wait, and the record's removal. `price`, `prepare` and `transmit`
    are its parts.

  An await that the timeout cuts short ends the submission there. The journal is left out, and so is
  what the libraries say in their errors.
-/
import Sn46Validator.Validator.Host

namespace Sn46Validator.Validator

open Library

section

variable {ε α : Type}

/-- One operation. -/
def perform (op : Op) : Fallible iface ε (Op.Ans op) := ExceptT.lift (Prog.perform (I := iface) op)

/-! ## 1. Saving -/

/-- **`write_durably`.** -/
def writeDurably (f : File) (data : Bytes) : Fallible iface IoError Unit := do
  Fallible.ofExcept (← perform .createDirectory)
  Fallible.ofExcept (← perform (.fs (.write (.temporary f) data)))
  Fallible.ofExcept (← perform (.fs (.rename (.temporary f) (.file f))))
  Fallible.ofExcept (← perform (.fs .sync))

/-- The temporary file is removed if it is still there. -/
def dropTemporary (f : File) : Fallible iface ε Unit := do
  if ← perform (.fs (.probe (.temporary f))) then
    let _ ← perform (.fs (.remove (.temporary f)))

/-- **`save_bytes`.** -/
def saveBytes (f : File) (data : Bytes) : Fallible iface StateError Unit := do
  let result ← ExceptT.lift (writeDurably f data).run
  dropTemporary f
  Fallible.ofExcept (result.mapError .save)

/-! ## 2. Awaiting -/

/-- A step of a submission: it can be refused, or panic. -/
abbrev Submit (α : Type) : Type := Fallible iface Fault α

def timedOut : BurnError :=
  ⟨"Burn submission timed out; outcome may be uncertain, reconcile before retrying"⟩

def raised (error : String) : BurnError := ⟨"Burn write raised: " ++ error⟩

def failed (error : String) : BurnError := ⟨"Burn write failed: " ++ error⟩

/-- What an await comes back with, its error named by `error`. -/
def awaited (error : String → BurnError) : Awaited α → Submit α
  | .ready (.ok a) => pure a
  | .ready (.error e) => throw (.burn (error e))
  | .elapsed => throw (.burn timedOut)

/-- `?` on a refusal. -/
def orRefuse (r : Except BurnError α) : Submit α := Fallible.ofExcept (r.mapError .burn)

/-- The text of `TryFromIntError`. -/
def outOfRange : String := "out of range integral type conversion attempted"

end

/-! ## 3. The pending record -/

/-- What a submission says of a failed save. -/
def saveFailed : Fault := .burn (lookup "Validator state could not be saved")

/-- **`BittensorBurnWriter`**: the genesis hash of its chain and its hotkey. -/
structure Writer where
  genesis : String
  hotkey : String

/-- **`save_pending`.** -/
def savePending (pending : Option PendingSubmission) : Submit Unit :=
  Fallible.mapError (fun _ => saveFailed)
    (saveBytes .submission (PendingSubmission.codec.encode pending))

/-- Does a pending record let a submission at `block` pass? -/
def Writer.judge (writer : Writer) (netuid : U16) (block : U64) :
    Option PendingSubmission → Except BurnError Unit
  | none => .ok ()
  | some pending =>
    if pending.genesis ≠ writer.genesis ∨ pending.netuid ≠ netuid ∨
        pending.hotkey ≠ writer.hotkey then
      refuse "Pending submission belongs to a different chain, subnet, or hotkey"
    else if block < pending.expiresAt then
      refuse ("Previous submission is uncertain until finalized block " ++
        toString pending.expiresAt.val ++ "; reconcile LastUpdate before retrying")
    else .ok ()

/-- **`check_pending`.** -/
def checkPending (writer : Writer) (netuid : U16) (block : U64) : Submit Unit := do
  match ← perform (.fs (.read (.file .submission))) with
  | .ok raw =>
    match PendingSubmission.codec.decode raw with
    | some pending => orRefuse (writer.judge netuid block pending)
    | none => throw (.burn (lookup ""))
  | .error .notFound => return ()
  | .error _ => throw (.burn (lookup ""))

/-! ## 4. The submission -/

/-- The burn of a policy, priced at the pinned block. -/
def price (block : U64) (netuid : U16) : BurnPolicy → Submit BurnFraction
  | .fixed burn => return burn
  | .target minerTargetUsdCents taoPriceUsdCents => do
    let economics ← awaited lookup (← perform (.economics block netuid))
    orRefuse (economics.burnForTarget minerTargetUsdCents taoPriceUsdCents)

/-- The call that carries the weights: a commit, scheduled against the best head, where the subnet
    has commit-reveal. -/
def weightsCall (subnet : SubnetBurnState) (netuid : U16) (dests weights : List U16)
    (version : U64) : Submit WeightsCall :=
  if subnet.commitReveal then do
    match ← awaited lookup (← perform .bestHash) with
    | none => throw (.burn (lookup "best block unavailable"))
    | some hash =>
      awaited lookup (← perform (.atHash hash))
      let (commit, round) ← awaited (⟨·⟩) (← perform (.encrypt hash netuid dests weights version))
      return .commitTimelockedMechanismWeights commit round 4
  else return .setMechanismWeights dests weights version

/-- The signed extrinsic. -/
def prepare (writer : Writer) (netuid : U16) (block : U64) (miners : List MinerScore)
    (burn : BurnPolicy) (subnet : SubnetBurnState) : Submit Extrinsic := do
  let (uid, version) ← orRefuse subnet.check
  let burn ← price block netuid burn
  let (dests, weights) ← Fallible.ofExcept (weights miners uid burn)
  let nonce ← awaited raised (← perform .nextIndex)
  let call ← weightsCall subnet netuid dests weights version
  let x : Extrinsic := ⟨writer.genesis, writer.hotkey, netuid, call, block, nonce⟩
  orRefuse ((← perform (.sign x)).mapError raised)
  return x

/-- From the broadcast on. -/
def transmit (x : Extrinsic) : Submit Unit := do
  awaited failed (← perform (.broadcast x))
  awaited failed (← perform .waitFinalized)
  -- finalization alone is not success
  if ← awaited failed (← perform .waitSuccess) then savePending none
  else throw (.burn (failed "finalized without an ExtrinsicSuccess event"))

/-- The record of an extrinsic of `writer` pinned to `block`. -/
def Writer.record (writer : Writer) (netuid : U16) (expiresAt : U64) : PendingSubmission :=
  ⟨writer.genesis, netuid, writer.hotkey, expiresAt⟩

/-- **`submit_at`** for a UID of the chain. -/
def submitTo (writer : Writer) (netuid : U16) (block : U64) (miners : List MinerScore)
    (burn : BurnPolicy) : Submit String := do
  checkPending writer netuid block
  let subnet ← awaited lookup (← perform (.burnState block netuid))
  let x ← prepare writer netuid block miners burn subnet
  match checkedAdd block mortalityBlocks with
  | none => throw (.burn (lookup "block overflow"))
  | some expiresAt =>
    savePending (some (writer.record netuid expiresAt))
    transmit x
    return if subnet.commitReveal then "commit finalized; chain will reveal weights"
      else "finalized"

/-- **`submit_at`.** -/
def submitAt (writer : Writer) (netuid block : U64) (miners : List MinerScore)
    (burn : BurnPolicy) : Submit String := do
  awaited lookup (← perform (.atBlock block))
  match narrow (2 ^ 16) netuid with
  | some netuid => submitTo writer netuid block miners burn
  | none => throw (.burn (lookup outOfRange))

end Sn46Validator.Validator
