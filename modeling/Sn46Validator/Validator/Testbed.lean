/-
  File:      Validator/Testbed.lean
  Subject:   A NODE THAT WORKS, and the validator's runs against it.

  * `storageAt` -- a subnet of one hotkey, whose last update is its last success;
  * `hostAt`, `Host.waits`, `Host.lands` -- a host, and what its chain may do;
  * `calm` -- every operation answered without a failure; a patient wait sees the last broadcast
    land in the next block, another one is cut short;
  * `act_calm` -- a machine whose law the node obeys may answer so.
-/
import Sn46Validator.Validator.Smooth

namespace Sn46Validator.Validator

open Library

/-! ## 1. The chain -/

/-- The last block up to `b` in which one of the first `n` broadcasts succeeded, or 0. -/
def Ledger.lastSuccess (l : Ledger) (b : Nat) : Nat → Nat
  | 0 => 0
  | n + 1 =>
    match l.landed n with
    | some ⟨m, true⟩ => if m ≤ b then max m (l.lastSuccess b n) else l.lastSuccess b n
    | _ => l.lastSuccess b n

theorem Ledger.lastSuccess_le (l : Ledger) (b n : Nat) : l.lastSuccess b n ≤ b := by
  induction n with
  | zero => exact Nat.zero_le b
  | succ n ih =>
    unfold Ledger.lastSuccess
    split
    · split_ifs with hm
      · exact Nat.max_le.mpr ⟨hm, ih⟩
      · exact ih
    · exact ih

theorem Ledger.le_lastSuccess {l : Ledger} {b n i m : Nat} (hi : i < n)
    (hl : l.landed i = some ⟨m, true⟩) (hm : m ≤ b) : m ≤ l.lastSuccess b n := by
  induction n with
  | zero => omega
  | succ n ih =>
    unfold Ledger.lastSuccess
    by_cases he : i = n
    · rw [← he, hl]
      dsimp only
      rw [if_pos hm]
      exact Nat.le_max_left _ _
    · have := ih (by omega)
      split
      · split_ifs
        · exact this.trans (Nat.le_max_right _ _)
        · exact this
      · exact this

/-- **The last success is one.** -/
theorem Ledger.lastSuccess_landed (l : Ledger) (b n : Nat) :
    l.lastSuccess b n = 0 ∨ ∃ i, i < n ∧ l.landed i = some ⟨l.lastSuccess b n, true⟩ := by
  induction n with
  | zero => exact .inl rfl
  | succ n ih =>
    have hold : l.lastSuccess b n = 0 ∨
        ∃ i, i < n + 1 ∧ l.landed i = some ⟨l.lastSuccess b n, true⟩ :=
      ih.imp id fun ⟨i, hi, hl⟩ => ⟨i, by omega, hl⟩
    unfold Ledger.lastSuccess
    split
    · rename_i m hl
      split_ifs
      · rcases Nat.le_total m (l.lastSuccess b n) with hle | hle
        · rw [Nat.max_eq_right hle]
          exact hold
        · rw [Nat.max_eq_left hle]
          exact .inr ⟨n, Nat.lt_succ_self n, hl⟩
      · exact hold
    · exact hold

/-- **The storage of the test subnet** at the block `b`: one hotkey, and an epoch every 360 blocks. -/
def storageAt (hotkey : String) (l : Ledger) (b : U64) : Storage where
  size := 1
  tempo := 360
  lastStep := ⟨b.val - b.val % 360, Nat.lt_of_le_of_lt (Nat.sub_le _ _) b.isLt⟩
  blocksSinceLastStep := ⟨b.val % 360, Nat.lt_of_le_of_lt (Nat.mod_le _ _) b.isLt⟩
  lastUpdates := [⟨l.lastSuccess b.val l.sent.length,
    Nat.lt_of_le_of_lt (l.lastSuccess_le _ _) b.isLt⟩]
  weightsRateLimit := 0
  keys uid := if uid = 0 then some hotkey else none

/-- The hotkey's last update is its last success. -/
theorem storageAt_update {hotkey k : String} {l : Ledger} {b u : U64} {uid : Nat}
    (hk : (storageAt hotkey l b).keys uid = some k)
    (hu : (storageAt hotkey l b).lastUpdates[uid]? = some u) :
    u.val = l.lastSuccess b.val l.sent.length := by
  have huid : uid = 0 := by
    by_contra hne
    have hnone : (storageAt hotkey l b).keys uid = none := if_neg hne
    rw [hnone] at hk
    cases hk
  subst huid
  obtain rfl : _ = u := Option.some.inj hu
  rfl

/-- The last broadcast, if it is there, live and not landed, lands in the next block. -/
def Ledger.lands (l : Ledger) (success : Bool) : Ledger :=
  match l.sent[l.last]? with
  | some x =>
    if l.landed l.last = none ∧ x.extrinsic.anchor.val ≤ l.finalized + 1 ∧
        l.finalized + 1 < x.extrinsic.anchor.val + mortalityBlocks.val then
      { l with
        landed := fun i => if i = l.last then some ⟨l.finalized + 1, success⟩ else l.landed i
        finalized := l.finalized + 1 }
    else l
  | none => l

theorem Ledger.drift_lands (l : Ledger) (success : Bool) : l.Drift (l.lands success) := by
  unfold Ledger.lands
  split
  · rename_i x hx
    split_ifs with h
    · refine ⟨rfl, rfl, rfl, Nat.le_succ _, fun i => ?_⟩
      by_cases hi : i = l.last
      · refine .inr ⟨hi ▸ h.1, x, ⟨l.finalized + 1, success⟩, hi ▸ hx, if_pos hi, ?_, ?_, h.2⟩
        · exact Nat.lt_succ_self _
        · exact Nat.le_refl _
      · exact .inl (if_neg hi)
    · exact .refl l
  · exact .refl l

/-! ## 2. Hosts -/

/-- The head is at `b`, and nothing was sent. -/
def hostAt (b : Nat) : Host := { newHost with ledger := ⟨[], [], fun _ => none, b, b⟩ }

/-- The head goes on to the block `b`, and nothing lands. -/
def Host.waits (w : Host) (b : Nat) : Host := { w with ledger := { w.ledger with finalized := b } }

/-- The last broadcast lands. -/
def Host.lands (w : Host) : Host := { w with ledger := w.ledger.lands true }

theorem drift_waits (law : Law) {w : Host} {b : Nat} (h : w.ledger.finalized ≤ b) :
    Drift law w (w.waits b) :=
  ⟨fun _ _ => rfl, .inl rfl, ⟨rfl, rfl, rfl, h, fun _ => .inl rfl⟩, rfl⟩

theorem drift_lands (law : Law) (w : Host) : Drift law w w.lands :=
  ⟨fun _ _ => rfl, .inl rfl, w.ledger.drift_lands true, rfl⟩

/-! ## 3. The node -/

/-- The subnet burns, its owner is its only hotkey, and it has no commit-reveal. -/
def testSubnet : SubnetBurnState := ⟨.burn, false, some "o", some 0, 0⟩

/-- **A node that works.** -/
def calm (hotkey : String) (patient : Bool) (w : Host) : (op : Op) → op.Ans × Host
  | .fs op => ((op.exec w.files).1, { w with files := (op.exec w.files).2 })
  | .createDirectory | .openLock => (.ok (), w)
  | .tryLock => (.acquired, w)
  | .snapshot _ => (.error (.lookup ""), w)
  | .submit _ _ _ _ => (.error ⟨""⟩, w)
  | .currentBlock =>
    if h : w.ledger.observed ≤ w.ledger.finalized ∧ w.ledger.finalized < 2 ^ 64 then
      (.ok ⟨w.ledger.finalized, h.2⟩, { w with ledger := w.ledger.shown ⟨w.ledger.finalized, h.2⟩ })
    else (.error "", w)
  | .storage b _ => (.ok (storageAt hotkey w.ledger b), w)
  | .atBlock _ | .atHash _ => (.ready (.ok ()), w)
  | .burnState _ _ => (.ready (.ok testSubnet), w)
  | .economics _ _ => (.ready (.ok ⟨1, 1, 0, 1, 1⟩), w)
  | .nextIndex => (.ready (.ok 0), w)
  | .bestHash => (.ready (.ok none), w)
  | .encrypt _ _ _ _ _ => (.elapsed, w)
  | .sign _ => (.ok (), w)
  | .broadcast x => (.ready (.ok ()), w.broadcast x)
  | .waitFinalized =>
    if patient then (.ready (.ok ()), { w with ledger := w.ledger.lands true }) else (.elapsed, w)
  | .waitSuccess =>
    match w.ledger.landed w.ledger.last with
    | some ⟨_, true⟩ => (.ready (.ok true), { w with ledger := w.ledger.confirmed })
    | _ => (.ready (.ok false), w)

/-- **A law that the node obeys.** -/
structure Obeyed (hotkey : String) (law : Law) : Prop where
  head : ∀ (l : Ledger) (b : U64), l.observed ≤ l.finalized → b.val = l.finalized → law.head l b
  storage : ∀ l b n, law.storage l b n (storageAt hotkey l b)
  success : ∀ (l : Ledger) m, l.landed l.last = some ⟨m, true⟩ → law.success l

/-- **The machine may answer as the node.** -/
theorem act_calm {hotkey : String} {law : Law} (h : Obeyed hotkey law) (patient : Bool) (w : Host)
    (op : Op) : (machine law).act w op (calm hotkey patient w op).1 (calm hotkey patient w op).2 := by
  cases op with
  | fs op => exact ⟨_, ⟨_, FileOp.act_exec true _ _, rfl⟩, .refl _ _⟩
  | currentBlock =>
    unfold calm
    dsimp only
    split_ifs with hb
    · exact ⟨_, ⟨h.head _ _ hb.1 rfl, rfl⟩, .refl _ _⟩
    · exact ⟨_, rfl, .refl _ _⟩
  | storage b n => exact ⟨_, ⟨h.storage _ _ _, rfl⟩, .refl _ _⟩
  | waitFinalized =>
    unfold calm
    dsimp only
    split_ifs
    · exact ⟨w, rfl, fun _ _ => rfl, .inl rfl, w.ledger.drift_lands true, rfl⟩
    · exact ⟨w, rfl, .refl _ _⟩
  | waitSuccess =>
    unfold calm
    dsimp only
    split
    · rename_i m hl
      exact ⟨_, ⟨h.success _ m hl, rfl⟩, .refl _ _⟩
    · exact ⟨_, rfl, .refl _ _⟩
  | _ => exact ⟨_, rfl, .refl _ _⟩

theorem obeyed_anyLaw (hotkey : String) : Obeyed hotkey anyLaw :=
  ⟨fun _ _ _ _ => trivial, fun _ _ _ => trivial, fun _ _ _ => trivial⟩

end Sn46Validator.Validator
