/-
  File:      Validator/Pending.lean
  Subject:   THE PENDING RECORD never blocks the validator for good.

  * `Desk` -- what matters of the host: the submission file, its temporary file and the highest head
    that was shown; `deskSim` -- every operation keeps the file, or leaves it with a record of the
    writer's own that expires 64 blocks after a head that was shown;
  * `Spares` -- operations that do not name the submission file;
  * `refines_owns` -- **every run is made of such steps**, whatever fails in it;
  * `submission_unblocked` -- **the record passes**: in every history of runs the file can be read, it
    is never another writer's, and it lets every head pass that is 64 blocks past those shown.
-/
import Sn46Validator.Validator.Node

namespace Sn46Validator.Validator

open Library

/-! ## 1. The desk -/

/-- **What matters of the host.** -/
structure Desk where
  record : Option Bytes
  temporary : Option Bytes
  observed : ℕ

def desk (w : Host) : Desk :=
  ⟨w.files (.file .submission), w.files (.temporary .submission), w.ledger.observed⟩

/-- **A record of the writer's own**, or none. -/
def Own (writer : Writer) (netuid : U64) (observed : ℕ) (c : Option Bytes) : Prop :=
  c = none ∨ ∃ pending, c = some (PendingSubmission.codec.encode pending) ∧
    ∀ p, pending = some p → ∃ (n : U16) (expiresAt : U64), p = writer.record n expiresAt ∧
      n.val = netuid.val ∧ expiresAt.val ≤ observed + mortalityBlocks.val

theorem Own.mono {writer : Writer} {netuid : U64} {observed observed' : ℕ} {c : Option Bytes}
    (h : Own writer netuid observed c) (hle : observed ≤ observed') :
    Own writer netuid observed' c := by
  obtain rfl | ⟨pending, rfl, hp⟩ := h
  · exact .inl rfl
  · refine .inr ⟨pending, rfl, fun p hpp => ?_⟩
    obtain ⟨n, expiresAt, hrec, hn, he⟩ := hp p hpp
    exact ⟨n, expiresAt, hrec, hn, he.trans (Nat.add_le_add_right hle _)⟩

/-- **The desk as an abstraction of the machine.** -/
@[reducible] def deskSim (law : Law) (writer : Writer) (netuid : U64) :
    Simulation (machine law) Desk where
  view := desk
  step _ _ d d' := d.observed ≤ d'.observed ∧
    (d'.record = d.record ∨ Own writer netuid d'.observed d'.record)
  torn d d' := d'.record = d.record ∧ d'.observed = d.observed

/-- What happens outside leaves the desk. -/
theorem desk_drift {law : Law} {w w' : Host} (h : Drift law w w') : desk w' = desk w := by
  rw [desk, desk, h.files _ (by simp), h.files _ (by simp), h.ledger.observed]

/-- **Operations that do not name the submission file.** -/
def Spares (op : Op) : Prop := ∀ o, op = .fs o → Path.file .submission ∉ o.targets

theorem acts_spare {law : Law} {op : Op} (h : Spares op) {w w' : Host} {x : op.Ans}
    (ha : Acts law w op x w') :
    (desk w').record = (desk w).record ∧ (desk w).observed ≤ (desk w').observed := by
  cases op with
  | fs o =>
    obtain ⟨fs, hact, rfl⟩ := ha
    exact ⟨FileOp.act_frame hact (h o rfl), Nat.le_refl _⟩
  | currentBlock =>
    match x, ha with
    | .ok b, ⟨_, hw⟩ =>
      subst hw
      exact ⟨rfl, Nat.le_max_left _ _⟩
    | .error e, ha =>
      obtain rfl : w' = w := ha
      exact ⟨rfl, Nat.le_refl _⟩
  | storage b n =>
    match x, ha with
    | .ok s, ⟨_, hw⟩ =>
      subst hw
      exact ⟨rfl, Nat.le_refl _⟩
    | .error e, ha =>
      obtain rfl : w' = w := ha
      exact ⟨rfl, Nat.le_refl _⟩
  | encrypt hash n dests weights version =>
    obtain rfl := (acts_encrypt ha).1
    exact ⟨rfl, Nat.le_refl _⟩
  | broadcast y =>
    obtain rfl : w' = w.broadcast y := ha
    exact ⟨rfl, Nat.le_refl _⟩
  | waitSuccess =>
    match x, ha with
    | .ready (.ok true), ⟨_, hw⟩ =>
      subst hw
      exact ⟨rfl, Nat.le_max_left _ _⟩
    | .ready (.ok false), ha | .ready (.error _), ha | .elapsed, ha =>
      obtain rfl : w' = w := ha
      exact ⟨rfl, Nat.le_refl _⟩
  | _ =>
    obtain rfl : w' = w := ha
    exact ⟨rfl, Nat.le_refl _⟩

theorem cut_spare {law : Law} {op : Op} (h : Spares op) {w w' : Host}
    (hc : (machine law).cut w op w') :
    (desk w').record = (desk w).record ∧ (desk w').observed = (desk w).observed := by
  cases op with
  | fs o =>
    obtain ⟨fs, hcut, rfl⟩ := hc
    exact ⟨FileOp.cut_frame hcut (h o rfl), rfl⟩
  | broadcast y =>
    obtain rfl : w' = w.broadcast y := hc
    exact ⟨rfl, rfl⟩
  | _ => exact hc.elim

section

variable {law : Law} {writer : Writer} {netuid : U64} {α ε : Type} {d : Desk} {b : ℕ}

/-- **A program that spares the file**: heads that were shown stay so. -/
theorem refines_spares {p : Prog iface α} (hp : p.Uses Spares) (hd : b ≤ d.observed) :
    Refines (deskSim law writer netuid) p (fun _ d' => b ≤ d'.observed) d := by
  refine refines_of_uses (J := fun d : Desk => b ≤ d.observed) ?_ ?_ hp hd
  · intro w op w' hop _ hc
    exact cut_spare hop hc
  · intro w op x w' hop hb ha
    obtain ⟨w₁, hacts, hdr⟩ := ha
    obtain ⟨hrec, hobs⟩ := acts_spare hop hacts
    show ((desk w).observed ≤ (desk w').observed ∧ ((desk w').record = (desk w).record ∨
      Own writer netuid (desk w').observed (desk w').record)) ∧ b ≤ (desk w').observed
    rw [desk_drift hdr]
    exact ⟨⟨hobs, .inl hrec⟩, hb.trans hobs⟩

/-- The same, where an error may leave anything. -/
theorem refines_sparesOk {p : Fallible iface ε α} (hp : p.run.Uses Spares) (hd : b ≤ d.observed) :
    Refines (deskSim law writer netuid) p.run (OnOk fun _ d' => b ≤ d'.observed) d :=
  refines_mono (refines_spares hp hd) fun r d' h => by
    cases r with
    | ok a => exact h
    | error e => exact trivial

end

/-! ## 2. What spares the file -/

section

variable {ε ε' α β : Type}

theorem spares_of_asks {op : Op} (h : op.asks) : Spares op := by
  intro o ho
  rw [ho] at h
  cases h

theorem spares_write (f : File) (data : Bytes) : Spares (.fs (.write (.temporary f) data)) := by
  intro o ho
  cases ho
  simp [FileOp.targets]

theorem uses_ofExcept {r : Except ε α} :
    (Fallible.ofExcept r : Fallible iface ε α).run.Uses Spares := trivial

theorem uses_mapError {f : ε → ε'} {p : Fallible iface ε α} (hp : p.run.Uses Spares) :
    (Fallible.mapError f p).run.Uses Spares := uses_bind hp fun _ => trivial

theorem uses_then {op : Op} {f : op.Ans → Fallible iface ε β} (hop : Spares op)
    (hf : ∀ x, (f x).run.Uses Spares) : (perform op >>= f).run.Uses Spares :=
  uses_bindE (uses_lift (uses_perform hop)) hf

/-- An operation that only asks, and what follows it. -/
theorem uses_ask {op : Op} {f : op.Ans → Fallible iface ε β} (hf : ∀ x, (f x).run.Uses Spares)
    (h : op.asks := by rfl) : (perform op >>= f).run.Uses Spares :=
  uses_then (spares_of_asks h) hf

theorem uses_awaited {error : String → BurnError} {x : Awaited α} :
    (awaited error x).run.Uses Spares :=
  match x with
  | .ready (.ok _) => trivial
  | .ready (.error _) => trivial
  | .elapsed => trivial

/-- An await, and what follows it. -/
theorem uses_await {error : String → BurnError} {x : Awaited α} {f : α → Submit β}
    (hf : ∀ a, (f a).run.Uses Spares) : (awaited error x >>= f).run.Uses Spares :=
  uses_bindE uses_awaited hf

theorem uses_dropTemporary (f : File) :
    (dropTemporary f : Fallible iface ε Unit).run.Uses Spares := by
  refine uses_then (fun o ho => ?_) fun there => ?_
  · cases ho
    simp [FileOp.targets]
  · cases there with
    | true =>
      refine uses_then (fun o ho => ?_) fun _ => trivial
      cases ho
      simp [FileOp.targets]
    | false => trivial

theorem uses_takeLock : takeLock.run.Uses Spares := by
  refine uses_ask fun _ => uses_bindE uses_ofExcept fun _ => uses_ask fun _ =>
    uses_bindE uses_ofExcept fun _ => uses_ask fun x => ?_
  cases x with
  | acquired => trivial
  | wouldBlock => trivial
  | error e => trivial

theorem uses_load : load.run.Uses Spares := by
  refine uses_then (fun o ho => ?_) fun (x : Except IoError Bytes) => ?_
  · cases ho
    simp [FileOp.targets]
  · cases x with
    | ok raw => trivial
    | error e => cases e <;> trivial

/-- Saving the other file. -/
theorem uses_save {s : ValidatorState} : (save s).run.Uses Spares := by
  have hwrite : (writeDurably .state s.encode).run.Uses Spares := by
    refine uses_ask fun _ => uses_bindE uses_ofExcept fun _ => uses_then (fun o ho => ?_) fun _ =>
      uses_bindE uses_ofExcept fun _ => uses_then (fun o ho => ?_) fun _ =>
      uses_bindE uses_ofExcept fun _ => uses_then (fun o ho => ?_) fun _ => uses_ofExcept
    · cases ho
      simp [FileOp.targets]
    · cases ho
      simp [FileOp.targets]
    · cases ho
      simp [FileOp.targets]
  exact uses_bindE (uses_lift hwrite) fun _ => uses_bindE (uses_dropTemporary _) fun _ =>
    uses_ofExcept

theorem uses_checkPending {writer : Writer} {n : U16} {block : U64} :
    (checkPending writer n block).run.Uses Spares := by
  refine uses_then (fun o ho => ?_) fun (x : Except IoError Bytes) => ?_
  · cases ho
    simp [FileOp.targets]
  · cases x with
    | ok raw =>
      dsimp only
      cases PendingSubmission.codec.decode raw with
      | none => trivial
      | some pending => trivial
    | error e => cases e <;> trivial

theorem uses_price {block : U64} {n : U16} {policy : BurnPolicy} :
    (price block n policy).run.Uses Spares := by
  cases policy with
  | fixed burn => trivial
  | target cents tao => exact uses_ask fun _ => uses_await fun _ => uses_ofExcept

theorem uses_weightsCall {subnet : SubnetBurnState} {n : U16} {dests ws : List U16}
    {version : U64} : (weightsCall subnet n dests ws version).run.Uses Spares := by
  unfold weightsCall
  split_ifs
  · refine uses_ask fun _ => uses_await fun hash => ?_
    cases hash with
    | none => trivial
    | some hash =>
      exact uses_ask fun _ => uses_await fun _ =>
        uses_then (fun _ ho => by cases ho) fun _ => uses_await fun _ => trivial
  · trivial

theorem uses_prepare {writer : Writer} {n : U16} {block : U64} {miners : List MinerScore}
    {policy : BurnPolicy} {subnet : SubnetBurnState} :
    (prepare writer n block miners policy subnet).run.Uses Spares := by
  refine uses_bindE uses_ofExcept fun _ => uses_bindE uses_price fun _ =>
    uses_bindE uses_ofExcept fun _ => uses_ask fun _ => uses_await fun _ =>
    uses_bindE uses_weightsCall fun _ => uses_ask fun _ => uses_bindE uses_ofExcept fun _ => trivial

end

/-! ## 3. A run -/

section

variable {law : Law} {writer : Writer} {netuid : U64} {d : Desk} {b : ℕ}

/-- The rename puts the temporary file in place, or does nothing. -/
theorem desk_rename {w : Host} {x : Except IoError Unit} {fs : Files Path}
    (h : FileOp.act true w.files (.rename (.temporary .submission) (.file .submission)) x fs) :
    (desk { w with files := fs }).record = (desk w).record ∨
      (desk { w with files := fs }).record = (desk w).temporary := by
  obtain ⟨c, hc, -, rfl⟩ | ⟨-, -, rfl⟩ | ⟨-, -, rfl⟩ := h
  · right
    simp [desk, hc]
  · exact .inl rfl
  · exact .inl rfl

/-- **The submission file is replaced**: by a record of the writer's own. -/
theorem refines_savesOwn {pending : Option PendingSubmission}
    (hown : ∀ observed, b ≤ observed →
      Own writer netuid observed (some (PendingSubmission.codec.encode pending)))
    (hd : b ≤ d.observed) :
    Refines (deskSim law writer netuid) (savePending pending).run (fun _ _ => True) d := by
  have hdrop : ∀ (r : Except IoError Unit) (d' : Desk), Refines (deskSim law writer netuid)
      (dropTemporary .submission >>= fun _ =>
        Fallible.ofExcept (ε := StateError) (r.mapError .save)).run (fun _ _ => True) d' :=
    fun r d' => refines_mono (refines_spares (b := 0)
      (uses_bindE (uses_dropTemporary _) fun _ => uses_ofExcept) (Nat.zero_le _)) fun _ _ _ => trivial
  refine refines_mapError (refines_bindE (refines_lift ?_))
  refine refines_mono (Q := OnOk fun _ _ => True) ?_ fun r d' _ => hdrop r d'
  refine refines_then (refines_sparesOk (b := b) (uses_lift (uses_perform (spares_of_asks rfl))) hd)
    fun r d₁ h₁ => ?_
  refine refines_then (refines_except (P := fun _ d' => b ≤ d'.observed) fun _ _ => h₁)
    fun _ d₂ h₂ => ?_
  -- the temporary file holds the bytes once they are written
  refine refines_then (P := fun x d' => b ≤ d'.observed ∧ (x = .ok () → d'.temporary =
    some (PendingSubmission.codec.encode pending))) (refines_lift (refines_op ?_ ?_)) fun x d₃ h₃ => ?_
  · intro w w' hw hc
    subst hw
    exact cut_spare (spares_write _ _) hc
  · intro w x w' hw ha
    subst hw
    obtain ⟨w₁, hacts, hdr⟩ := ha
    obtain ⟨hrec, hobs⟩ := acts_spare (spares_write _ _) hacts
    show ((desk w).observed ≤ (desk w').observed ∧ ((desk w').record = (desk w).record ∨
      Own writer netuid (desk w').observed (desk w').record)) ∧ b ≤ (desk w').observed ∧
      (x = .ok () → (desk w').temporary = some (PendingSubmission.codec.encode pending))
    rw [desk_drift hdr]
    refine ⟨⟨hobs, .inl hrec⟩, h₂.trans hobs, fun hx => ?_⟩
    subst hx
    obtain ⟨fs, hact, rfl⟩ := hacts
    obtain ⟨-, rfl⟩ | ⟨-, hx, -⟩ := hact
    · simp [desk]
    · cases hx
  refine refines_then (refines_except (P := fun _ d' => b ≤ d'.observed ∧ d'.temporary =
    some (PendingSubmission.codec.encode pending)) fun u hu => ⟨h₃.1, h₃.2 hu⟩) fun _ d₄ h₄ => ?_
  -- the rename is the step
  refine refines_then (P := fun _ d' => 0 ≤ d'.observed) (refines_lift (refines_op ?_ ?_))
    fun x d₅ h₅ => ?_
  · intro w w' _ hc
    obtain ⟨fs, hcut, -⟩ := hc
    exact hcut.elim
  · intro w x w' hw ha
    subst hw
    obtain ⟨w₁, ⟨fs, hact, rfl⟩, hdr⟩ := ha
    show ((desk w).observed ≤ (desk w').observed ∧ ((desk w').record = (desk w).record ∨
      Own writer netuid (desk w').observed (desk w').record)) ∧ 0 ≤ (desk w').observed
    rw [desk_drift hdr]
    refine ⟨⟨Nat.le_refl _, ?_⟩, Nat.zero_le _⟩
    rcases desk_rename hact with hrec | hrec
    · exact .inl hrec
    · right
      rw [hrec, show (desk w).temporary = _ from h₄.2]
      exact hown _ h₄.1
  refine refines_mono (refines_spares (b := 0) (uses_bindE uses_ofExcept fun _ =>
    uses_then (fun o ho => ?_) fun _ => uses_ofExcept) (Nat.zero_le _)) fun r d' _ => ?_
  · cases ho
    simp [FileOp.targets]
  · cases r with
    | ok u => exact trivial
    | error e => exact trivial

/-- No record is the writer's own. -/
theorem refines_savesNone : Refines (deskSim law writer netuid) (savePending none).run
    (fun _ _ => True) d :=
  refines_savesOwn (b := 0) (fun _ _ => .inr ⟨none, rfl, nofun⟩) (Nat.zero_le _)

/-- Nothing is asked of what comes back. -/
theorem refines_anyOk {α ε : Type} {p : Fallible iface ε α}
    (hp : Refines (deskSim law writer netuid) p.run (fun _ _ => True) d) :
    Refines (deskSim law writer netuid) p.run (OnOk fun _ _ => True) d := by
  refine refines_mono hp fun r _ _ => ?_
  cases r with
  | ok a => exact trivial
  | error e => exact trivial

/-- **From the broadcast on.** -/
theorem refines_transmits (x : Extrinsic) :
    Refines (deskSim law writer netuid) (transmit x).run (fun _ _ => True) d := by
  have hany : ∀ {α : Type} {p : Submit α} {d : Desk}, p.run.Uses Spares →
      Refines (deskSim law writer netuid) p.run (OnOk fun _ _ => True) d := fun hp =>
    refines_anyOk (refines_mono (refines_spares (b := 0) hp (Nat.zero_le _)) fun _ _ _ => trivial)
  refine refines_mono (Q := OnOk fun _ _ => True) ?_ fun _ _ _ => trivial
  refine refines_then (hany (uses_lift (uses_perform nofun))) fun _ d₁ _ =>
    refines_then (hany uses_awaited) fun _ d₂ _ =>
    refines_then (hany (uses_lift (uses_perform nofun))) fun _ d₃ _ =>
    refines_then (hany uses_awaited) fun _ d₄ _ =>
    refines_then (hany (uses_lift (uses_perform nofun))) fun _ d₅ _ =>
    refines_then (hany uses_awaited) fun r d₆ _ => ?_
  cases r with
  | true => exact refines_anyOk refines_savesNone
  | false => exact refines_fail

/-- **A submission** pinned to a head that was shown. -/
theorem refines_submits {block : U64} {miners : List MinerScore} {policy : BurnPolicy}
    (hd : block.val ≤ d.observed) :
    Refines (deskSim law writer netuid) (submitAt writer netuid block miners policy).run
      (fun _ _ => True) d := by
  have hJ : ∀ {α : Type} {p : Submit α} {d : Desk} (_ : p.run.Uses Spares)
      (_ : block.val ≤ d.observed), Refines (deskSim law writer netuid) p.run
        (OnOk fun _ d' => block.val ≤ d'.observed) d := refines_sparesOk
  refine refines_mono (Q := OnOk fun _ _ => True) ?_ fun _ _ _ => trivial
  refine refines_then (hJ (uses_lift (uses_perform (spares_of_asks rfl))) hd) fun _ d₁ h₁ =>
    refines_then (hJ uses_awaited h₁) fun _ d₂ h₂ => ?_
  cases hn : narrow (2 ^ 16) netuid with
  | none => exact refines_fail
  | some n =>
    refine refines_then (hJ uses_checkPending h₂) fun _ d₃ h₃ =>
      refines_then (hJ (uses_lift (uses_perform (spares_of_asks rfl))) h₃) fun _ d₄ h₄ =>
      refines_then (hJ uses_awaited h₄) fun subnet d₅ h₅ =>
      refines_then (hJ uses_prepare h₅) fun x d₆ h₆ => ?_
    cases hadd : checkedAdd block mortalityBlocks with
    | none => exact refines_fail
    | some expiresAt =>
      have hexp : expiresAt.val = block.val + mortalityBlocks.val := checkedAdd_eq hadd
      -- what is recorded expires an era after the head
      have hown : ∀ observed, block.val ≤ observed → Own writer netuid observed
          (some (PendingSubmission.codec.encode (some (writer.record n expiresAt)))) := by
        intro observed hle
        refine .inr ⟨_, rfl, fun p hp => ⟨n, expiresAt, (Option.some.inj hp).symm, ?_, ?_⟩⟩
        · exact narrow_val hn
        · rw [hexp]
          exact Nat.add_le_add_right hle _
      exact refines_then (refines_anyOk (refines_savesOwn hown h₆)) fun _ d₇ _ =>
        refines_then (refines_anyOk (refines_transmits x)) fun _ d₈ _ => refines_return trivial

/-- **`BittensorChain::snapshot`**: its head was shown. -/
theorem refines_showsChain :
    Refines (deskSim law writer netuid) (readChain netuid).run
      (OnOk fun snapshot d' => snapshot.finalizedBlock.val ≤ d'.observed) d := by
  refine refines_then (P := fun x d' => ∀ block, x = .ok block → block.val ≤ d'.observed)
    (refines_lift (refines_op (fun w w' _ hc => hc.elim) fun w x w' hw ha => ?_)) fun x d₁ h₁ => ?_
  · subst hw
    obtain ⟨w₁, hacts, hdr⟩ := ha
    have hspare : Spares .currentBlock := nofun
    obtain ⟨hrec, hobs⟩ := acts_spare hspare hacts
    show ((desk w).observed ≤ (desk w').observed ∧ ((desk w').record = (desk w).record ∨
      Own writer netuid (desk w').observed (desk w').record)) ∧
      ∀ block, x = .ok block → block.val ≤ (desk w').observed
    rw [desk_drift hdr]
    refine ⟨⟨hobs, .inl hrec⟩, fun block hx => ?_⟩
    subst hx
    obtain ⟨-, rfl⟩ := hacts
    exact Nat.le_max_right _ _
  refine refines_then (refines_exceptMap (P := fun block d' => block.val ≤ d'.observed)
    fun block hb => h₁ block hb) fun block d₂ h₂ => ?_
  cases narrow (2 ^ 16) netuid with
  | none => exact refines_fail
  | some n =>
    refine refines_then (refines_sparesOk (uses_lift (uses_perform nofun)) h₂) fun r d₃ h₃ =>
      refines_then (refines_exceptMap (P := fun _ d' => block.val ≤ d'.observed) fun _ _ => h₃)
        fun storage d₄ h₄ => ?_
    refine refines_except fun snapshot hr => ?_
    rw [(readStorage_ok hr).1]
    exact h₄

variable {shared : Shared} {run : Run shared} {snapshot : ChainSnapshot}
  {summary : EpochSummary shared.Evidence}

theorem refines_setsWeights {miners : List MinerScore} (h : run.submit = submitAt writer)
    (hn : summary.netuid.val = netuid) (hd : snapshot.finalizedBlock.val ≤ d.observed) :
    Refines (deskSim law writer netuid) (setWeights run snapshot summary miners).run
      (OnOk fun _ _ => True) d := by
  unfold setWeights
  split
  · exact refines_fail
  · split
    · exact refines_fail
    · split_ifs
      · exact refines_return trivial
      · exact refines_return trivial
      · refine refines_then (refines_exceptMap (P := fun _ d' => snapshot.finalizedBlock.val ≤
          d'.observed) fun _ _ => hd) fun policy d₁ h₁ => ?_
        rw [h, hn]
        exact refines_then (refines_convert (refines_anyOk (refines_submits h₁))) fun _ d₂ _ =>
          refines_return trivial

theorem refines_burns {saved : ValidatorState} {miners records : List MinerScore}
    (h : run.submit = submitAt writer) (hn : summary.netuid.val = netuid)
    (hd : snapshot.finalizedBlock.val ≤ d.observed) :
    Refines (deskSim law writer netuid) (burn run snapshot summary saved miners records).run
      (OnOk fun _ _ => True) d := by
  unfold burn
  split_ifs
  · refine refines_then (refines_setsWeights h hn hd) fun r d₁ _ => ?_
    have hsave : Refines (deskSim law writer netuid)
        (Fallible.mapError RunError.state (save (saved.burned summary.epochEndBlock))).run
        (OnOk fun _ _ => True) d₁ := refines_anyOk (refines_mono
      (refines_spares (b := 0) (uses_mapError uses_save) (Nat.zero_le _)) fun _ _ _ => trivial)
    cases r with
    | true => exact refines_then hsave fun _ d₂ _ => refines_return trivial
    | false => exact refines_return trivial
  · exact refines_return trivial

/-- **Every run is made of such steps.** -/
theorem refines_owns {run : Run shared} (h : Serves run writer netuid) :
    Refines (deskSim law writer netuid) (runOnce run).run (fun _ _ => True) d := by
  refine refines_mono (Q := OnOk fun _ _ => True) ?_ fun _ _ _ => trivial
  refine refines_then (refines_sparesOk (uses_mapError uses_takeLock) (Nat.zero_le _))
    fun _ d₁ _ => ?_
  rw [h.chain, h.netuid]
  refine refines_then (refines_convert refines_showsChain) fun snapshot d₂ h₂ => ?_
  refine refines_then (P := fun summary d' => run.summary = .ok summary ∧
    snapshot.finalizedBlock.val ≤ d'.observed) (refines_except fun summary hs => ⟨hs, h₂⟩)
    fun summary d₃ h₃ => ?_
  obtain ⟨hs, h₃⟩ := h₃
  refine refines_then (refines_exceptMap (P := fun _ d' => snapshot.finalizedBlock.val ≤ d'.observed)
    fun _ _ => h₃) fun _ d₄ h₄ =>
    refines_then (refines_sparesOk (uses_mapError uses_load) h₄) fun saved d₅ h₅ => ?_
  refine refines_then (refines_exceptMap (P := fun _ d' => snapshot.finalizedBlock.val ≤ d'.observed)
    fun _ _ => h₅) fun already d₆ h₆ => ?_
  have hn := h.summary summary hs
  cases already with
  | true => exact refines_burns h.submit hn h₆
  | false =>
    exact refines_then (refines_sparesOk (uses_mapError uses_save) h₆) fun _ d₇ h₇ =>
      refines_burns h.submit hn h₇

end

/-! ## 4. Histories -/

section

variable {shared : Shared} {law : Law} {writer : Writer} {netuid : U64}

/-- A record of the writer's own. -/
theorem judge_record {n : U16} {block expiresAt : U64} :
    writer.judge n block (some (writer.record n expiresAt)) =
      if block < expiresAt then
        refuse ("Previous submission is uncertain until finalized block " ++
          toString expiresAt.val ++ "; reconcile LastUpdate before retrying")
      else .ok () := by
  simp [Writer.judge, Writer.record]

/-- **Every history keeps the record the writer's own.** -/
theorem own_invariant (shared : Shared) (law : Law) (writer : Writer) (netuid : U64) :
    Invariant (nodeSystem shared law writer netuid)
      (fun _ e => (deskSim law writer netuid).step e.op e.ans (desk e.before) (desk e.after))
      (fun _ w w' => (deskSim law writer netuid).torn (desk w) (desk w'))
      (fun _ w => Own writer netuid w.ledger.observed (w.files (.file .submission))) where
  env := by
    intro _ w w' h hd
    rw [hd.files _ (by simp), hd.ledger.observed]
    exact h
  enter := by
    intro _ _ _ _ h he
    obtain ⟨rfl, -⟩ := he
    exact h
  ensures := fun _ _ _ _ _ he => ⟨_, (refines_owns he.2).ensures _ rfl⟩
  step := by
    intro _ _ e hstep h
    obtain ⟨hle, hrec | hown⟩ := hstep
    · show Own writer netuid (desk e.after).observed (desk e.after).record
      rw [hrec]
      exact h.mono hle
    · exact hown
  cut := by
    intro _ _ w w' ht h
    show Own writer netuid (desk w').observed (desk w').record
    rw [ht.1, ht.2]
    exact h

/-- **The record passes.** In every history of runs of one hotkey on one subnet, each failing at any
    step or killed at any point, with whatever the chain does and the state file lost at any time: what
    the submission file holds can be read; it refuses a submission for one reason only, that it has
    not expired; and no submission pinned 64 blocks or more past the heads that were shown. -/
theorem submission_unblocked {w₀ w : Host}
    {recs : List (Record (nodeSystem shared law writer netuid))}
    (h₀ : w₀.files (.file .submission) = none)
    (h : History (nodeSystem shared law writer netuid) w₀ recs w) {raw : Bytes}
    (hraw : w.files (.file .submission) = some raw) :
    ∃ pending, PendingSubmission.codec.decode raw = some pending ∧
      ∀ (n : U16) (block : U64), n.val = netuid.val →
        (writer.judge n block pending = .ok () ∨ ∃ p, pending = some p ∧ block < p.expiresAt ∧
          writer.judge n block pending =
            refuse ("Previous submission is uncertain until finalized block " ++
              toString p.expiresAt.val ++ "; reconcile LastUpdate before retrying")) ∧
        (w.ledger.observed + mortalityBlocks.val ≤ block.val →
          writer.judge n block pending = .ok ()) := by
  have hown : Own writer netuid w.ledger.observed (w.files (.file .submission)) :=
    History.induct (own_invariant shared law writer netuid) h (.inl h₀)
  rw [hraw] at hown
  obtain hn | ⟨pending, hp, hall⟩ := hown
  · cases hn
  obtain rfl := Option.some.inj hp
  refine ⟨pending, PendingSubmission.codec.decode_encode pending, fun n block hn => ?_⟩
  cases pending with
  | none => exact ⟨.inl rfl, fun _ => rfl⟩
  | some p =>
    obtain ⟨n', expiresAt, rfl, hn', he⟩ := hall p rfl
    obtain rfl : n' = n := Fin.ext (hn'.trans hn.symm)
    rw [judge_record]
    split_ifs with hlt
    · refine ⟨.inr ⟨_, rfl, hlt, rfl⟩, fun hle => ?_⟩
      exact absurd hlt (Fin.not_lt.mpr (he.trans hle))
    · exact ⟨.inl rfl, fun _ => rfl⟩

/-- A run whose success is never seen leaves its record. -/
theorem submission_unblocked_test : ∃ raw,
    (hostAfterRun anyLaw false (hostAt 400) false).files (.file .submission) = some raw ∧
    ∃ pending, PendingSubmission.codec.decode raw = some pending ∧
      (⟨"g", "v"⟩ : Writer).judge 46 464 pending = .ok () := by
  obtain ⟨recs, h⟩ := history_nodeRun (obeyed_anyLaw "v") .nil false false
  have hfile : ((hostAfterRun anyLaw false (hostAt 400) false).files (.file .submission)).isSome ∧
      (hostAfterRun anyLaw false (hostAt 400) false).ledger.observed = 400 := by decide +kernel
  obtain ⟨raw, hraw⟩ := Option.isSome_iff_exists.mp hfile.1
  obtain ⟨pending, hp, hall⟩ := submission_unblocked rfl h hraw
  refine ⟨raw, hraw, pending, hp, (hall 46 464 rfl).2 ?_⟩
  rw [hfile.2]
  decide

end

end Sn46Validator.Validator
