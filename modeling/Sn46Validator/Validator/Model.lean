/-
  File:      Validator/Model.lean
  Subject:   THE VALIDATOR as a labelled transition system over what is durable.

  * `Durable` -- the state file and the submission file read as values, and the ledger;
  * `Action` -- the operations that matter;
  * `Over` -- every broadcast so far is seen, or its era is over; `Guarded` -- the same, or the
    pending record outlives it;
  * `MadeOf` -- the calls that carry the weights of a list of scores;
  * `Step s` -- what a step of a call can do, with every condition under which it does it; `Setting`
    is what the call was given, and what it knew when it submitted and when it marked an epoch.
-/
import Sn46Validator.Validator.Run

namespace Sn46Validator.Validator

open Library

/-! ## 1. What is durable -/

/-- **What is durable.** -/
structure Durable where
  saved : Except StateError ValidatorState
  pending : Stored (Option PendingSubmission)
  ledger : Ledger
  epoch : Option U64

/-- The host as values. -/
def view (w : Host) : Durable where
  saved := ValidatorState.ofFile (w.files (.file .state))
  pending := .of PendingSubmission.codec (w.files (.file .submission))
  ledger := w.ledger
  epoch := w.epoch

/-- What happens outside a run. -/
structure Drifted (law : Law) (d d' : Durable) : Prop where
  saved : d'.saved = d.saved ∨ law.lossy = true ∧ d'.saved = .ok default
  pending : d'.pending = d.pending
  ledger : d.ledger.Drift d'.ledger
  epoch : d'.epoch = d.epoch

theorem Drift.view {law : Law} {w w' : Host} (h : Drift law w w') :
    Drifted law (view w) (view w') := by
  refine ⟨?_, ?_, h.ledger, h.epoch⟩
  · rcases h.state with he | ⟨hl, hn⟩
    · exact .inl (congrArg ValidatorState.ofFile he)
    · exact .inr ⟨hl, congrArg ValidatorState.ofFile hn⟩
  · exact congrArg (Stored.of PendingSubmission.codec) (h.files _ (by simp))

/-- What the outside cannot undo. -/
def Stable (law : Law) (K : Durable → Prop) : Prop := ∀ d d', K d → Drifted law d d' → K d'

/-! ## 2. The broadcasts so far -/

/-- Some broadcast from the position `i` on was seen to succeed. -/
def Ledger.SeenFrom (l : Ledger) (i : Nat) : Prop := ∃ k, i ≤ k ∧ k ∈ l.seen

/-- **Every broadcast so far is over** at the block `b`: it or a later one was seen to succeed, or
    its era has passed. -/
def Ledger.Over (l : Ledger) (b : U64) : Prop :=
  ∀ i x, l.sent[i]? = some x → l.SeenFrom i ∨ x.extrinsic.anchor.val + mortalityBlocks.val ≤ b.val

/-- **Every broadcast so far is over or guarded** by the pending record. -/
def Guarded (d : Durable) : Prop :=
  ∀ i x, d.ledger.sent[i]? = some x → d.ledger.SeenFrom i ∨
    ∃ p, d.pending = .holds (some p) ∧
      x.extrinsic.anchor.val + mortalityBlocks.val ≤ p.expiresAt.val

/-- The broadcasts after one more. -/
theorem Ledger.broadcast_get {l : Ledger} {x y : Broadcast} {i : Nat}
    (h : (l.broadcast x).sent[i]? = some y) :
    l.sent[i]? = some y ∧ i < l.sent.length ∨ i = l.sent.length ∧ y = x := by
  obtain ⟨hi, hy⟩ := List.getElem?_eq_some_iff.mp h
  have hlen : i < l.sent.length + 1 := by simpa [Ledger.broadcast] using hi
  by_cases hlt : i < l.sent.length
  · refine .inl ⟨?_, hlt⟩
    rw [← h]
    exact (List.getElem?_append_left hlt).symm
  · obtain rfl : i = l.sent.length := by omega
    refine .inr ⟨rfl, ?_⟩
    rw [← hy]
    simp [Ledger.broadcast]

/-- The old ones are still there. -/
theorem Ledger.broadcast_old {l : Ledger} {x y : Broadcast} {i : Nat} (h : l.sent[i]? = some y) :
    (l.broadcast x).sent[i]? = some y := by
  obtain ⟨hi, -⟩ := List.getElem?_eq_some_iff.mp h
  exact (List.getElem?_append_left hi).trans h

/-- A landing stays. -/
theorem Ledger.Drift.keeps {l l' : Ledger} (h : l.Drift l') {i : Nat} {n : Landing}
    (hl : l.landed i = some n) : l'.landed i = some n := by
  rcases h.landed i with he | ⟨hn, -⟩
  · exact he.trans hl
  · rw [hl] at hn
    cases hn

theorem Ledger.SeenFrom.drift {l l' : Ledger} (h : l.Drift l') {i : Nat} :
    l'.SeenFrom i ↔ l.SeenFrom i := by
  rw [Ledger.SeenFrom, Ledger.SeenFrom, h.seen]

theorem Ledger.Over.drift {l l' : Ledger} {b : U64} (h : l.Over b) (hd : l.Drift l') :
    l'.Over b := by
  intro i x hx
  rw [hd.sent] at hx
  rw [Ledger.SeenFrom.drift hd]
  exact h i x hx

theorem Guarded.drift {law : Law} {d d' : Durable} (h : Guarded d) (hd : Drifted law d d') :
    Guarded d' := by
  intro i x hx
  rw [hd.ledger.sent] at hx
  rw [Ledger.SeenFrom.drift hd.ledger, hd.pending]
  exact h i x hx

/-- The record of an extrinsic. -/
structure Records (p : PendingSubmission) (x : Extrinsic) : Prop where
  genesis : p.genesis = x.genesis
  netuid : p.netuid = x.netuid
  hotkey : p.hotkey = x.hotkey
  expiresAt : p.expiresAt.val = x.anchor.val + mortalityBlocks.val

/-- **An extrinsic of a writer** for a subnet, pinned to a block. -/
structure Signed (writer : Writer) (netuid : Nat) (block : U64) (x : Extrinsic) : Prop where
  genesis : x.genesis = writer.genesis
  hotkey : x.hotkey = writer.hotkey
  netuid : x.netuid.val = netuid
  anchor : x.anchor = block

/-- **A burn that a policy prices**, by some numbers of the chain. -/
def BurnPolicy.Prices : BurnPolicy → BurnFraction → Prop
  | .fixed burn, b => b = burn
  | .target minerTargetUsdCents taoPriceUsdCents, b =>
    ∃ e : EpochEconomics, e.burnForTarget minerTargetUsdCents taoPriceUsdCents = .ok b

/-- **The call for a weight vector**, in the open or as a commit. -/
inductive Conveys (encrypts : Encryption) (netuid : U16) (dests weights : List U16)
    (version : U64) : Bool → WeightsCall → Prop where
  | shown : Conveys encrypts netuid dests weights version false
      (.setMechanismWeights dests weights version)
  | sealed {hash : String} {commit : Bytes} {round : U64}
      (h : encrypts hash netuid dests weights version (commit, round)) :
      Conveys encrypts netuid dests weights version true
        (.commitTimelockedMechanismWeights commit round 4)

/-- **A call made of scores**: of the weights that they get under a burn of the policy, for the
    owner and the version of some state of the subnet. -/
def MadeOf (encrypts : Encryption) (netuid : U16) (miners : List MinerScore) (policy : BurnPolicy)
    (call : WeightsCall) : Prop :=
  ∃ (subnet : SubnetBurnState) (uid : U16) (version : U64) (burn : BurnFraction)
    (dests ws : List U16), subnet.check = .ok (uid, version) ∧ policy.Prices burn ∧
      weights miners uid burn = .ok (dests, ws) ∧
      Conveys encrypts netuid dests ws version subnet.commitReveal call

/-! ## 3. Steps -/

/-- **The operations that matter**, when they succeed. A broadcast matters in any case. -/
inductive Action where
  | save
  | record
  | broadcast
  | confirm
  | reveal
  | submit
  | other
  deriving DecidableEq

def action : (op : Op) → op.Ans → Action
  | .fs (.rename (.temporary .state) (.file .state)), .ok _ => .save
  | .fs (.rename (.temporary .submission) (.file .submission)), .ok _ => .record
  | .broadcast _, _ => .broadcast
  | .waitSuccess, .ready (.ok true) => .confirm
  | .currentBlock, .ok _ => .reveal
  | .submit _ _ _ _, _ => .submit
  | _, _ => .other

/-- What the state file keeps of a summary. -/
structure Stamp where
  summaryId : String
  digest : String
  epochEnd : U64
  summaryId_ne : summaryId ≠ ""
  digest_ne : digest ≠ ""

/-- The state once the summary is processed. -/
def ValidatorState.stamped (saved : ValidatorState) (o : Stamp) : ValidatorState :=
  { saved with
    summaryId := some o.summaryId
    summaryDigest := some o.digest
    summaryEpochEndBlock := some o.epochEnd }

/-- **What a call was given**: the chain's law and the summary; and what it knew: `basis x`
    when it sent `x`, `earned` when it marked the epoch. -/
structure Setting where
  law : Law
  offered : Stamp → Prop
  basis : Extrinsic → Durable → Prop
  earned : U64 → Durable → Prop

/-- The state file holds what the run works with, unless it was lost. -/
def Kept (s : Setting) (saved : ValidatorState) (d : Durable) : Prop :=
  s.law.lossy = false → d.saved = .ok saved

/-- The weights of the processed epoch `e` are due: the run works with a state that records its
    summary and does not mark it. -/
structure Due (s : Setting) (saved : ValidatorState) (e : U64) (d : Durable) : Prop where
  kept : Kept s saved d
  wellFormed : saved.WellFormed
  processed : saved.summaryEpochEndBlock = some e
  unmarked : saved.burnEpochEndBlock ≠ some e

/-- **A broadcast**, guarded by its own record, when every earlier one is over. -/
inductive Sends (s : Setting) (d : Durable) : Durable → Prop where
  | intro {x : Extrinsic} {p : PendingSubmission} {guard : Option Bytes}
      (hp : d.pending = .holds (some p)) (hr : Records p x) (ho : d.ledger.Over x.anchor)
      (hb : s.basis x d)
      (hg : Stored.of PendingSubmission.codec guard = d.pending) :
      Sends s d { d with ledger := d.ledger.broadcast ⟨x, d.epoch, guard⟩ }

/-- **One step of a call.** -/
inductive Step (s : Setting) : Action → Durable → Durable → Prop where
  /-- Nothing durable changes. -/
  | idle {d : Durable} : Step s .other d d
  /-- The finalized head is shown. -/
  | reveal {d : Durable} {b : U64} (h : s.law.head d.ledger b) :
      Step s .reveal d { d with ledger := d.ledger.shown b }
  /-- A summary of a new epoch is processed. -/
  | process {d : Durable} {saved : ValidatorState} {o : Stamp} (ho : s.offered o)
      (hk : Kept s saved d) (hw : saved.WellFormed)
      (hn : ∀ e, saved.summaryEpochEndBlock = some e → e < o.epochEnd) :
      Step s .save d { d with saved := .ok (saved.stamped o) }
  /-- The weights of the processed epoch are marked as set. -/
  | mark {d : Durable} {saved : ValidatorState} {o : Stamp} (ho : s.offered o)
      (hd : Due s saved o.epochEnd d) (he : s.earned o.epochEnd d) :
      Step s .save d { d with saved := .ok (saved.burned o.epochEnd) }
  /-- A burner is called. -/
  | submit {d : Durable} {saved : ValidatorState} {o : Stamp} (ho : s.offered o)
      (hd : Due s saved o.epochEnd d) : Step s .submit d d
  /-- The record of an extrinsic pinned to `b` is written before its broadcast. -/
  | begin {d : Durable} {p : PendingSubmission} {b : U64} (ho : d.ledger.Over b)
      (he : p.expiresAt.val = b.val + mortalityBlocks.val) :
      Step s .record d { d with pending := .holds (some p) }
  /-- The broadcast. -/
  | broadcast {d d' : Durable} (h : Sends s d d') : Step s .broadcast d d'
  /-- The success of the last broadcast is seen. -/
  | confirm {d : Durable} (h : s.law.success d.ledger) (hne : d.ledger.sent ≠ []) :
      Step s .confirm d { d with ledger := d.ledger.confirmed }
  /-- The record is removed after a success. -/
  | clear {d : Durable} (hs : d.ledger.last ∈ d.ledger.seen) (hne : d.ledger.sent ≠ []) :
      Step s .record d { d with pending := .holds none }

/-- What a kill inside an operation leaves: nothing that anyone reads back, or a broadcast. -/
inductive Torn (s : Setting) (d : Durable) : Durable → Prop where
  | idle : Torn s d d
  | broadcast {d' : Durable} (h : Sends s d d') : Torn s d d'

end Sn46Validator.Validator
