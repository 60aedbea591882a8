/-
  File:      Validator/Host.lean
  Subject:   THE HOST AND THE CHAIN under a validator.

  * `Extrinsic`, `Ledger` -- what was broadcast, what became of it on the finalized chain, and what
    the validator saw of it. No run can read the ledger;
  * `Ledger.Drift` -- what the chain does by itself: the finalized head moves on and broadcast
    extrinsics land in new blocks, each at most once and within its mortal era, or never;
  * `Op`, `machine law` -- what a run asks of the host and of the node, and what that does. Any file
    operation may fail, any await may fail or be cut short by the timeout, and the chain goes on
    after every operation;
  * `Law` -- what is assumed of the node's answers, and whether `state.json` can be lost.
-/
import Sn46Validator.Library.History
import Sn46Validator.Validator.Burn
import Sn46Validator.Validator.State

namespace Sn46Validator.Validator

open Library

/-! ## 1. Extrinsics -/

/-- The call of an extrinsic: the weights, or their encryption until a drand round. -/
inductive WeightsCall where
  | setMechanismWeights (dests weights : List U16) (versionKey : U64)
  | commitTimelockedMechanismWeights (commit : Bytes) (revealRound : U64) (version : Nat)
  deriving DecidableEq

/-- **A signed extrinsic**: mortal from the block `anchor` on. -/
structure Extrinsic where
  genesis : String
  hotkey : String
  netuid : U16
  call : WeightsCall
  anchor : U64
  nonce : U64
  deriving DecidableEq

/-- The blocks that can include an extrinsic. -/
def Extrinsic.Live (x : Extrinsic) (n : Nat) : Prop :=
  x.anchor.val ≤ n ∧ n < x.anchor.val + mortalityBlocks.val

/-- **A broadcast**, with the epoch end of the summary its run was given and the submission file as
    it was. -/
structure Broadcast where
  extrinsic : Extrinsic
  epoch : Option U64
  guard : Option Bytes

/-- Where an extrinsic landed on the finalized chain, and whether it succeeded there. -/
structure Landing where
  block : Nat
  success : Bool
  deriving DecidableEq

/-! ## 2. The ledger -/

/-- **The ledger**: every broadcast in order; by their positions, those that the validator saw
    finalized with success, and where each landed; the finalized head, and the highest block of the
    finalized chain that the validator was shown. -/
structure Ledger where
  sent : List Broadcast
  seen : List Nat
  landed : Nat → Option Landing
  finalized : Nat
  observed : Nat

namespace Ledger

/-- The head `b` is shown. -/
def shown (l : Ledger) (b : U64) : Ledger := { l with observed := max l.observed b.val }

/-- One more broadcast. -/
def broadcast (l : Ledger) (x : Broadcast) : Ledger := { l with sent := l.sent ++ [x] }

/-- The position of the last broadcast. -/
def last (l : Ledger) : Nat := l.sent.length - 1

/-- The success of the last broadcast is shown. -/
def confirmed (l : Ledger) : Ledger where
  sent := l.sent
  seen := l.last :: l.seen
  landed := l.landed
  finalized := l.finalized
  observed := max l.observed ((l.landed l.last).elim 0 (·.block))

/-- **What the chain does by itself.** -/
structure Drift (l l' : Ledger) : Prop where
  sent : l'.sent = l.sent
  seen : l'.seen = l.seen
  observed : l'.observed = l.observed
  finalized : l.finalized ≤ l'.finalized
  landed : ∀ i, l'.landed i = l.landed i ∨ l.landed i = none ∧ ∃ x n, l.sent[i]? = some x ∧
    l'.landed i = some n ∧ l.finalized < n.block ∧ n.block ≤ l'.finalized ∧
    x.extrinsic.Live n.block

theorem Drift.refl (l : Ledger) : Drift l l := ⟨rfl, rfl, rfl, Nat.le_refl _, fun _ => .inl rfl⟩

theorem Drift.trans {l l' l'' : Ledger} (h : Drift l l') (h' : Drift l' l'') : Drift l l'' := by
  refine ⟨h'.sent.trans h.sent, h'.seen.trans h.seen, h'.observed.trans h.observed,
    h.finalized.trans h'.finalized, fun i => ?_⟩
  rcases h.landed i with he | ⟨hn, x, n, hx, hl, hlt, hle, hlive⟩
  · rcases h'.landed i with he' | ⟨hn', x, n, hx, hl, hlt, hle, hlive⟩
    · exact .inl (he'.trans he)
    · exact .inr ⟨he ▸ hn', x, n, h.sent ▸ hx, hl, Nat.lt_of_le_of_lt h.finalized hlt, hle, hlive⟩
  · rcases h'.landed i with he' | ⟨hn', -⟩
    · exact .inr ⟨hn, x, n, hx, he'.trans hl, hlt, hle.trans h'.finalized, hlive⟩
    · rw [hl] at hn'
      cases hn'

end Ledger

/-! ## 3. The host -/

/-- The files that are written through a temporary one. -/
inductive File where
  | state
  | submission
  deriving DecidableEq

/-- **The validator's files.** -/
inductive Path where
  | file (f : File)
  | temporary (f : File)
  deriving DecidableEq

/-- **The host**: its files, the ledger, and the epoch end of the summary the last run was given. -/
structure Host where
  files : Files Path
  ledger : Ledger
  epoch : Option U64

/-- What an await under the timeout comes back with. -/
inductive Awaited (α : Type) where
  | ready (r : Except String α)
  | elapsed

/-- **What a run asks of the host.** `snapshot` and `submit` are a chain and a burner of which nothing
    is known; the operations after them are those of `BittensorChain` and `BittensorBurnWriter`. -/
inductive Op where
  | fs (op : FileOp Path)
  | createDirectory
  | openLock
  | tryLock
  | snapshot (netuid : U64)
  | submit (netuid finalizedBlock : U64) (miners : List MinerScore) (burn : BurnPolicy)
  | currentBlock
  | storage (block : U64) (netuid : U16)
  | atBlock (block : U64)
  | burnState (block : U64) (netuid : U16)
  | economics (block : U64) (netuid : U16)
  | nextIndex
  | bestHash
  | atHash (hash : String)
  | encrypt (hash : String) (netuid : U16) (dests weights : List U16) (version : U64)
  | sign (x : Extrinsic)
  | broadcast (x : Extrinsic)
  | waitFinalized
  | waitSuccess

/-- The type of each answer. `encrypt` gives the commit and its reveal round, `waitSuccess` whether
    the block's events hold an `ExtrinsicSuccess`. -/
abbrev Op.Ans : Op → Type
  | fs op => op.Ans
  | createDirectory | openLock => Except IoError Unit
  | tryLock => TryLock
  | snapshot _ => Except ChainError ChainSnapshot
  | submit _ _ _ _ => Except BurnError String
  | currentBlock => Except String U64
  | storage _ _ => Except String Storage
  | atBlock _ | atHash _ => Awaited Unit
  | burnState _ _ => Awaited SubnetBurnState
  | economics _ _ => Awaited EpochEconomics
  | nextIndex => Awaited U64
  | bestHash => Awaited (Option String)
  | encrypt _ _ _ _ _ => Awaited (Bytes × U64)
  | sign _ => Except String Unit
  | broadcast _ | waitFinalized => Awaited Unit
  | waitSuccess => Awaited Bool

abbrev iface : Interface := ⟨Op, Op.Ans⟩

/-- What an encryption against a block, of weights for a subnet, may give. -/
abbrev Encryption : Type := String → U16 → List U16 → List U16 → U64 → Bytes × U64 → Prop

/-- An encryption of which nothing is assumed. -/
def anyEncryption : Encryption := fun _ _ _ _ _ _ => True

/-- **What is assumed of the node's answers**: the finalized head, the storage of a subnet at a
    block, the report that the last broadcast is finalized with success, and the encryption of
    weights. `lossy`: `state.json` can be lost at any time. -/
structure Law where
  lossy : Bool
  head : Ledger → U64 → Prop
  storage : Ledger → U64 → U16 → Storage → Prop
  success : Ledger → Prop
  encrypts : Encryption

/-- What happens outside a run. -/
structure Drift (law : Law) (w w' : Host) : Prop where
  files : ∀ p, p ≠ .file .state → w'.files p = w.files p
  state : w'.files (.file .state) = w.files (.file .state) ∨
    law.lossy = true ∧ w'.files (.file .state) = none
  ledger : w.ledger.Drift w'.ledger
  epoch : w'.epoch = w.epoch

theorem Drift.refl (law : Law) (w : Host) : Drift law w w :=
  ⟨fun _ _ => rfl, .inl rfl, .refl _, rfl⟩

def Host.broadcast (w : Host) (x : Extrinsic) : Host :=
  { w with ledger := w.ledger.broadcast ⟨x, w.epoch, w.files (.file .submission)⟩ }

/-- What an operation does, before the chain goes on. -/
def Acts (law : Law) (w : Host) : (op : Op) → op.Ans → Host → Prop
  | .fs op, x, w' => ∃ fs, FileOp.act true w.files op x fs ∧ w' = { w with files := fs }
  | .currentBlock, .ok b, w' => law.head w.ledger b ∧ w' = { w with ledger := w.ledger.shown b }
  | .storage b n, .ok s, w' => law.storage w.ledger b n s ∧ w' = w
  | .encrypt hash n dests weights version, .ready (.ok r), w' =>
    law.encrypts hash n dests weights version r ∧ w' = w
  | .broadcast x, _, w' => w' = w.broadcast x
  | .waitSuccess, .ready (.ok true), w' =>
    law.success w.ledger ∧ w' = { w with ledger := w.ledger.confirmed }
  | _, _, w' => w' = w

/-- An encryption changes nothing, and gives what the law says. -/
theorem acts_encrypt {law : Law} {w w' : Host} {hash : String} {n : U16} {dests weights : List U16}
    {version : U64} {x : Awaited (Bytes × U64)}
    (h : Acts law w (.encrypt hash n dests weights version) x w') :
    w' = w ∧ ∀ r, x = .ready (.ok r) → law.encrypts hash n dests weights version r := by
  match x, h with
  | .ready (.ok r), ⟨he, hw⟩ =>
    refine ⟨hw, fun r' hr => ?_⟩
    cases hr
    exact he
  | .ready (.error _), h => exact ⟨h, fun r hr => by cases hr⟩
  | .elapsed, h => exact ⟨h, fun r hr => by cases hr⟩

/-- **What the operations do.** A broadcast that is cut short by a kill may be out. -/
@[reducible] def machine (law : Law) : Machine iface where
  World := Host
  act w op x w' := ∃ w₁, Acts law w op x w₁ ∧ Drift law w₁ w'
  cut w op w' :=
    match op with
    | .fs op => ∃ fs, FileOp.cut w.files op fs ∧ w' = { w with files := fs }
    | .broadcast x => w' = w.broadcast x
    | _ => False

end Sn46Validator.Validator
