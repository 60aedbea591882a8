/-
  File:      Validator/Refine.lean
  Subject:   EVERY OPERATION OF A SUBMISSION AND OF A RUN IS A STEP OF THE MODEL.

  * `Setting.sim` -- the model as an abstraction of the machine, the chain going on after each step;
  * `Quiet` -- operations that change nothing durable;
  * `refines_saveBytes` -- **saving a file**: the rename is the step;
  * `refines_submitAt` -- **a submission**: started with every broadcast over or guarded, it sends
    nothing before all are over and its own record is saved, and it returns only after its success
    was seen;
  * `refines_runOnce` -- **a run**, whatever its chain and its burner are, from what they refine.
-/
import Sn46Validator.Library.Refinement
import Sn46Validator.Validator.Model

namespace Sn46Validator.Validator

open Library

/-! ## 1. The abstraction -/

/-- **The model as an abstraction of the machine.** -/
@[reducible] def Setting.sim (s : Setting) : Simulation (machine s.law) Durable where
  view := view
  step op x d d' := ∃ d₁, Step s (action op x) d d₁ ∧ Drifted s.law d₁ d'
  torn := Torn s

variable {s : Setting} {α ε : Type} {d : Durable} {K : Durable → Prop}

/-- One operation: what it does, and then the chain goes on. -/
theorem refines_perform {op : Op} {P : op.Ans → Durable → Prop}
    (hcut : ∀ w w', view w = d → (machine s.law).cut w op w' → Torn s d (view w'))
    (hact : ∀ w x w₁, view w = d → Acts s.law w op x w₁ →
      Step s (action op x) d (view w₁) ∧ ∀ d', Drifted s.law (view w₁) d' → P x d') :
    Refines s.sim (perform op : Fallible iface ε _).run (OnOk P) d := by
  refine refines_lift (refines_op hcut fun w x w' hw hx => ?_)
  obtain ⟨w₁, ha, hd⟩ := hx
  obtain ⟨hs, hP⟩ := hact w x w₁ hw ha
  exact ⟨⟨_, hs, hd.view⟩, hP _ hd.view⟩

/-- An operation that changes nothing durable. -/
structure Quiet (op : Op) : Prop where
  acts : ∀ (law : Law) (w : Host) (x : op.Ans) (w₁ : Host), Acts law w op x w₁ → view w₁ = view w
  cut : ∀ (law : Law) (w w' : Host), (machine law).cut w op w' → view w' = view w
  action : ∀ x, action op x = .other

/-- A file operation that changes temporary files only. -/
theorem quiet_fs {op : FileOp Path} (ht : ∀ p ∈ op.targets, ∃ f, p = .temporary f)
    (ha : ∀ x, action (.fs op) x = .other) : Quiet (.fs op) := by
  have hk : ∀ f, Path.file f ∉ op.targets := by
    intro f hf
    obtain ⟨g, hg⟩ := ht _ hf
    cases hg
  have hv : ∀ (w : Host) (fs : Files Path), (∀ f, fs (.file f) = w.files (.file f)) →
      view { w with files := fs } = view w := by
    intro w fs h
    simp only [view, h]
  refine ⟨?_, ?_, ha⟩
  · intro law w x w₁ hx
    obtain ⟨fs, hact, rfl⟩ := hx
    exact hv w fs fun f => FileOp.act_frame hact (hk f)
  · intro law w w' hx
    obtain ⟨fs, hcut, rfl⟩ := hx
    exact hv w fs fun f => FileOp.cut_frame hcut (hk f)

theorem refines_quiet {op : Op} (hq : Quiet op) (hK : Stable s.law K) (hd : K d) :
    Refines s.sim (perform op : Fallible iface ε _).run (OnOk fun _ => K) d := by
  refine refines_perform ?_ ?_
  · intro w w' he hc
    subst he
    rw [hq.cut s.law _ _ hc]
    exact .idle
  · intro w x w₁ he ha
    subst he
    rw [hq.acts s.law _ _ _ ha, hq.action]
    exact ⟨.idle, fun d' hd' => hK _ _ hd hd'⟩

/-- **The operations that only ask.** -/
def Op.asks : Op → Bool
  | .fs _ | .submit _ _ _ _ | .currentBlock | .storage _ _ | .encrypt _ _ _ _ _ | .broadcast _
  | .waitSuccess => false
  | _ => true

theorem quiet_of_asks {op : Op} (h : op.asks) : Quiet op := by
  cases op with
  | fs | submit | currentBlock | storage | encrypt | broadcast | waitSuccess => cases h
  | _ => exact ⟨fun _ _ _ _ h => congrArg view h, fun _ _ _ h => h.elim, fun _ => rfl⟩

theorem refines_ask {op : Op} (hK : Stable s.law K) (hd : K d) (h : op.asks := by rfl) :
    Refines s.sim (perform op : Fallible iface ε _).run (OnOk fun _ => K) d :=
  refines_quiet (quiet_of_asks h) hK hd

/-! ## 2. Files -/

/-- What a file holds, as the durable state sees it. -/
def Durable.Holds (d : Durable) (c : Option Bytes) : File → Prop
  | .state => d.saved = ValidatorState.ofFile c
  | .submission => d.pending = .of PendingSubmission.codec c

theorem holds_view (w : Host) (f : File) : (view w).Holds (w.files (.file f)) f := by
  cases f <;> rfl

/-- **Reading a file**: what is answered was there. -/
theorem refines_read (f : File) :
    Refines s.sim (perform (.fs (.read (.file f))) : Fallible iface ε _).run
      (OnOk fun x d' => Drifted s.law d d' ∧ (∀ raw, x = .ok raw → d.Holds (some raw) f) ∧
        ((x = .error .notFound ∨ x = .error .notADirectory) → d.Holds none f)) d := by
  refine refines_perform (fun w w' _ hc => hc.elim fun fs hc => hc.1.elim) ?_
  intro w x w₁ he hy
  subst he
  obtain ⟨fs, ⟨rfl, hx⟩, rfl⟩ := hy
  refine ⟨.idle, fun d' hd' => ⟨hd', ?_⟩⟩
  have hh := holds_view w f
  rcases hx with hx | ⟨-, rfl⟩
  · cases hc : w.files (.file f) with
    | none =>
      rw [hc] at hx hh
      subst hx
      exact ⟨(fun _ h => by cases h), fun _ => hh⟩
    | some raw =>
      rw [hc] at hx hh
      subst hx
      exact ⟨(fun _ h => by cases h; exact hh), fun h => by rcases h with h | h <;> cases h⟩
  · exact ⟨(fun _ h => by cases h), fun h => by rcases h with h | h <;> cases h⟩

/-- The bytes of a file, as the durable state sees them. -/
def Durable.put (d : Durable) (bytes : Bytes) : File → Durable
  | .state => { d with saved := ValidatorState.ofFile (some bytes) }
  | .submission => { d with pending := .of PendingSubmission.codec (some bytes) }

/-- The label of the rename that ends a save. -/
def File.action : File → Action
  | .state => .save
  | .submission => .record

theorem view_rename {w : Host} {f : File} {bytes : Bytes} {x : Except IoError Unit}
    {fs : Files Path} (h : FileOp.act true w.files (.rename (.temporary f) (.file f)) x fs)
    (ht : w.files (.temporary f) = some bytes) :
    x = .ok () ∧ view { w with files := fs } = (view w).put bytes f ∨
      x = .error .other ∧ view { w with files := fs } = view w := by
  obtain ⟨c, hc, rfl, rfl⟩ | ⟨hn, -, -⟩ | ⟨-, rfl, rfl⟩ := h
  · left
    obtain rfl := Option.some.inj (ht.symm.trans hc)
    refine ⟨rfl, ?_⟩
    cases f <;> simp [view, Durable.put]
  · rw [ht] at hn
    cases hn
  · exact .inr ⟨rfl, rfl⟩

theorem quiet_write (f : File) (data : Bytes) : Quiet (.fs (.write (.temporary f) data)) :=
  quiet_fs (by simp [FileOp.targets]) fun _ => rfl

theorem quiet_sync : Quiet (.fs .sync) := quiet_fs (by simp [FileOp.targets]) fun _ => rfl

/-- **`write_durably`**: the rename is the step. `K` holds before it, `K'` after. -/
theorem refines_writeDurably {f : File} {data : Bytes} {K' : Durable → Prop}
    (hK : Stable s.law K) (hK' : Stable s.law K') (hd : K d)
    (hstep : ∀ d, K d → Step s f.action d (d.put data f) ∧ K' (d.put data f)) :
    Refines s.sim (writeDurably f data).run (OnOk fun _ => K') d := by
  refine refines_then (refines_ask hK hd) fun r d₁ h₁ => ?_
  refine refines_then (refines_except (P := fun _ => K) fun _ _ => h₁) fun _ d₂ h₂ => ?_
  refine ⟨?_⟩
  intro w he
  subst he
  rw [perform, ensures_bindE, ensures_liftE, ensures_perform]
  refine ⟨fun w' hc => ?_, fun x w₂ hx => ?_⟩
  · show Torn s (view w) (view w')
    rw [(quiet_write f data).cut s.law _ _ hc]
    exact .idle
  · obtain ⟨w₁, ⟨fs, hact, rfl⟩, hdr⟩ := hx
    have hv : view { w with files := fs } = view w :=
      (quiet_write f data).acts s.law _ _ _ ⟨fs, hact, rfl⟩
    have hdr' : Drifted s.law (view w) (view w₂) := hv ▸ hdr.view
    refine ⟨⟨_, .idle, hdr'⟩, ?_⟩
    obtain ⟨rfl, rfl⟩ | ⟨-, rfl, -⟩ := hact
    · -- the temporary file holds the bytes when the rename comes
      have ht : w₂.files (.temporary f) = some data := by
        rw [hdr.files _ (by simp)]
        simp [FileOp.put]
      have hk : K (view w₂) := hK _ _ h₂ hdr'
      rw [after_ok, Fallible.ofExcept]
      show Ensures _ _ _ (ExceptT.run (do
        Fallible.ofExcept (← perform (.fs (.rename (.temporary f) (.file f))))
        Fallible.ofExcept (← perform (.fs .sync)))) _ w₂
      rw [perform, ensures_bindE, ensures_liftE, ensures_perform]
      refine ⟨fun w' hc => hc.elim fun fs hc => hc.1.elim, fun x w₃ hx => ?_⟩
      obtain ⟨w', ⟨fs', hact, rfl⟩, hdr₃⟩ := hx
      obtain ⟨rfl, hv'⟩ | ⟨rfl, hv'⟩ := view_rename hact ht
      · have hd₃ := hdr₃.view
        rw [hv'] at hd₃
        obtain ⟨hs, hk'⟩ := hstep _ hk
        refine ⟨⟨_, ?_, hd₃⟩, ?_⟩
        · cases f <;> exact hs
        · refine (refines_then (refines_quiet (s := s) quiet_sync hK' (hK' _ _ hk' hd₃))
            fun r d' hr => ?_).ensures w₃ rfl
          exact refines_except fun _ _ => hr
      · have hd₃ := hdr₃.view
        rw [hv'] at hd₃
        refine ⟨⟨_, ?_, hd₃⟩, ?_⟩
        · cases f <;> exact .idle
        · exact trivial
    · exact trivial

theorem refines_dropTemporary (f : File) (hK : Stable s.law K) (hd : K d) :
    Refines s.sim (dropTemporary f : Fallible iface ε Unit).run (OnOk fun _ => K) d := by
  have hprobe : Quiet (.fs (.probe (.temporary f))) :=
    quiet_fs (by simp [FileOp.targets]) fun _ => rfl
  have hremove : Quiet (.fs (.remove (.temporary f))) :=
    quiet_fs (by simp [FileOp.targets]) fun _ => rfl
  refine refines_then (refines_quiet hprobe hK hd) fun there d₁ h₁ => ?_
  cases there with
  | true => exact refines_then (refines_quiet hremove hK h₁) fun _ d₂ h₂ => refines_return h₂
  | false => exact refines_return h₁

/-- **`save_bytes`.** -/
theorem refines_saveBytes {f : File} {data : Bytes} {K' : Durable → Prop}
    (hK : Stable s.law K) (hK' : Stable s.law K') (hd : K d)
    (hstep : ∀ d, K d → Step s f.action d (d.put data f) ∧ K' (d.put data f)) :
    Refines s.sim (saveBytes f data).run (OnOk fun _ => K') d := by
  refine refines_bindE (refines_lift ?_)
  refine refines_mono (refines_writeDurably hK hK' hd hstep) fun r d₁ h₁ => ?_
  have hr : Stable s.law (OnOk (ε := IoError) (fun _ : Unit => K') r) := by
    intro d d' h hd
    cases r with
    | ok u => exact hK' d d' h hd
    | error e => exact trivial
  rw [rest_ok]
  refine refines_then (refines_dropTemporary f hr h₁) fun _ d₂ h₂ => ?_
  refine refines_exceptMap fun u hu => ?_
  rw [hu] at h₂
  exact h₂

/-! ## 3. A submission -/

theorem Stable.and {law : Law} {K K' : Durable → Prop} (h : Stable law K) (h' : Stable law K') :
    Stable law fun d => K d ∧ K' d := fun d d' hd hdr => ⟨h d d' hd.1 hdr, h' d d' hd.2 hdr⟩

theorem stable_over (law : Law) (b : U64) : Stable law fun d => d.ledger.Over b :=
  fun _ _ h hd => h.drift hd.ledger

theorem stable_guarded (law : Law) : Stable law Guarded := fun _ _ h hd => h.drift hd

theorem stable_pending (law : Law) (p : Option PendingSubmission) :
    Stable law fun d => d.pending = .holds p := fun _ _ h hd => hd.pending.trans h

/-- Knowledge that only the state file and the epoch matter for. -/
structure Aside (law : Law) (F : Durable → Prop) : Prop where
  stable : Stable law F
  ledger : ∀ d l, F d → F { d with ledger := l }
  pending : ∀ d x, F d → F { d with pending := x }

theorem refines_awaited {error : String → BurnError} {x : Awaited α} {P : α → Durable → Prop}
    (h : ∀ a, x = .ready (.ok a) → P a d) : Refines s.sim (awaited error x).run (OnOk P) d :=
  match x with
  | .ready (.ok a) => refines_return (h a rfl)
  | .ready (.error _) => refines_fail
  | .elapsed => refines_fail

/-- A record that lets a submission at `block` pass leaves no broadcast that is not over. -/
theorem over_of_judge {writer : Writer} {netuid : U16} {block : U64}
    {pending : Option PendingSubmission} (hg : Guarded d) (hp : d.pending = .holds pending)
    (hj : writer.judge netuid block pending = .ok ()) : d.ledger.Over block := by
  intro i x hx
  rcases hg i x hx with hs | ⟨p, hp', hle⟩
  · exact .inl hs
  · obtain rfl : pending = some p := Stored.holds.inj (hp.symm.trans hp')
    rw [Writer.judge] at hj
    split_ifs at hj with h₁ h₂
    · cases hj
    · cases hj
    · exact .inr (hle.trans (Fin.not_lt.mp h₂))

theorem over_of_absent {block : U64} (hg : Guarded d) (hp : d.pending = .absent) :
    d.ledger.Over block := by
  intro i x hx
  rcases hg i x hx with hs | ⟨p, hp', -⟩
  · exact .inl hs
  · rw [hp] at hp'
    cases hp'

/-- **`check_pending`.** -/
theorem refines_checkPending {writer : Writer} {netuid : U16} {block : U64}
    (hK : Stable s.law K) (hd : K d) (hg : Guarded d) :
    Refines s.sim (checkPending writer netuid block).run
      (OnOk fun _ d' => K d' ∧ d'.ledger.Over block) d := by
  refine refines_then (refines_read .submission) fun x d₁ ⟨hdr, hok, hnone⟩ => ?_
  have hd₁ : K d₁ := hK _ _ hd hdr
  match x with
  | .ok raw =>
    have hp : d.pending = .of PendingSubmission.codec (some raw) := hok raw rfl
    rw [Stored.of] at hp
    dsimp only
    cases hdec : PendingSubmission.codec.decode raw with
    | none => exact refines_fail
    | some pending =>
      rw [hdec] at hp
      exact refines_exceptMap fun u hu => ⟨hd₁, (over_of_judge hg hp hu).drift hdr.ledger⟩
  | .error .notFound =>
    exact refines_return ⟨hd₁, (over_of_absent hg (hnone (.inl rfl))).drift hdr.ledger⟩
  | .error .notADirectory => exact refines_fail
  | .error .alreadyExists => exact refines_fail
  | .error .other => exact refines_fail

/-- A priced burn is the policy's. -/
theorem refines_price {block : U64} {netuid : U16} {policy : BurnPolicy} (hK : Stable s.law K)
    (hd : K d) : Refines s.sim (price block netuid policy).run
      (OnOk fun burn d' => K d' ∧ policy.Prices burn) d := by
  cases policy with
  | fixed burn => exact refines_return ⟨hd, rfl⟩
  | target cents tao =>
    refine refines_then (refines_ask hK hd) fun x d₁ h₁ => ?_
    refine refines_then (refines_awaited (P := fun _ => K) fun _ _ => h₁) fun e d₂ h₂ => ?_
    exact refines_exceptMap fun _ hb => ⟨h₂, e, hb⟩

theorem refines_encrypt {hash : String} {netuid : U16} {dests ws : List U16} {version : U64}
    (hK : Stable s.law K) (hd : K d) :
    Refines s.sim (perform (.encrypt hash netuid dests ws version) : Submit _).run
      (OnOk fun x d' => K d' ∧
        ∀ r, x = .ready (.ok r) → s.law.encrypts hash netuid dests ws version r) d := by
  refine refines_perform (fun _ _ _ hc => hc.elim) fun w x w₁ he ha => ?_
  subst he
  obtain ⟨rfl, hr⟩ := acts_encrypt ha
  exact ⟨.idle, fun d' hd' => ⟨hK _ _ hd hd', hr⟩⟩

/-- **The call** changes nothing durable, and conveys the weights. -/
theorem refines_weightsCall {subnet : SubnetBurnState} {netuid : U16} {dests ws : List U16}
    {version : U64} (hK : Stable s.law K) (hd : K d) :
    Refines s.sim (weightsCall subnet netuid dests ws version).run (OnOk fun call d' => K d' ∧
      Conveys s.law.encrypts netuid dests ws version subnet.commitReveal call) d := by
  unfold weightsCall
  split_ifs with hc
  · refine refines_then (refines_ask hK hd) fun x d₁ h₁ => ?_
    refine refines_then (refines_awaited (P := fun _ => K) fun _ _ => h₁) fun r d₂ h₂ => ?_
    cases r with
    | none => exact refines_fail
    | some hash =>
      refine refines_then (refines_ask hK h₂) fun y d₃ h₃ => ?_
      refine refines_then (refines_awaited (P := fun _ => K) fun _ _ => h₃) fun _ d₄ h₄ => ?_
      refine refines_then (refines_encrypt hK h₄) fun z d₅ h₅ => ?_
      refine refines_then (refines_awaited
        (P := fun r d' => K d' ∧ s.law.encrypts hash netuid dests ws version r)
        fun r hr => ⟨h₅.1, h₅.2 r hr⟩) fun r d₆ h₆ => ?_
      obtain ⟨commit, round⟩ := r
      rw [hc]
      exact refines_return ⟨h₆.1, .sealed h₆.2⟩
  · rw [Bool.eq_false_of_not_eq_true hc]
    exact refines_return ⟨hd, .shown⟩

/-- **The preparation** changes nothing durable; what it signs is of the writer, pinned to `block`,
    and carries the weights of `miners`. -/
theorem refines_prepare (writer : Writer) (netuid : U16) (block : U64) {miners : List MinerScore}
    {policy : BurnPolicy} {subnet : SubnetBurnState} (hK : Stable s.law K) (hd : K d) :
    Refines s.sim (prepare writer netuid block miners policy subnet).run
      (OnOk fun x d' => K d' ∧ Signed writer netuid.val block x ∧
        MadeOf s.law.encrypts x.netuid miners policy x.call) d := by
  refine refines_then (refines_exceptMap (P := fun owner d' => K d' ∧ subnet.check = .ok owner)
    fun _ ho => ⟨hd, ho⟩) fun owner d₁ ⟨h₁, ho⟩ => ?_
  obtain ⟨uid, version⟩ := owner
  refine refines_then (refines_price hK h₁) fun burn d₂ ⟨h₂, hb⟩ => ?_
  refine refines_then (refines_except
    (P := fun vector d' => K d' ∧ weights miners uid burn = .ok vector) fun _ hv => ⟨h₂, hv⟩)
    fun vector d₃ ⟨h₃, hv⟩ => ?_
  obtain ⟨dests, ws⟩ := vector
  refine refines_then (refines_ask hK h₃) fun x d₄ h₄ => ?_
  refine refines_then (refines_awaited (P := fun _ => K) fun _ _ => h₄) fun nonce d₅ h₅ => ?_
  refine refines_then (refines_weightsCall hK h₅) fun call d₆ ⟨h₆, hcall⟩ => ?_
  refine refines_then (refines_ask hK h₆) fun r d₇ h₇ => ?_
  refine refines_then (refines_exceptMap (P := fun _ => K) fun _ _ => h₇) fun _ d₈ h₈ => ?_
  refine refines_return ⟨h₈, ⟨rfl, rfl, rfl, rfl⟩, ?_⟩
  exact ⟨subnet, uid, version, burn, dests, ws, ho, hb, hv, hcall⟩

/-- The last broadcast is of this call's epoch. -/
def SentLast (d : Durable) : Prop :=
  ∃ y, d.ledger.sent[d.ledger.last]? = some y ∧ y.epoch = d.epoch

theorem stable_sentLast (law : Law) : Stable law SentLast := by
  intro d d' h hd
  obtain ⟨y, hy, he⟩ := h
  refine ⟨y, ?_, he.trans hd.epoch.symm⟩
  rw [Ledger.last, hd.ledger.sent]
  exact hy

/-- **The last broadcast succeeded**: this was reported of the ledger `l`, and then only the chain
    went on. -/
def Achieved (law : Law) (d : Durable) : Prop :=
  ∃ l y, law.success l ∧ l.sent[l.last]? = some y ∧ y.epoch = d.epoch ∧ l.confirmed.Drift d.ledger

theorem stable_achieved (law : Law) : Stable law (Achieved law) := by
  intro d d' h hd
  obtain ⟨l, y, hs, hy, he, hl⟩ := h
  exact ⟨l, y, hs, hy, he.trans hd.epoch.symm, hl.trans hd.ledger⟩

theorem sent_ne_nil {l : Ledger} {i : Nat} {y : Broadcast} (h : l.sent[i]? = some y) :
    l.sent ≠ [] := by
  intro hn
  rw [hn] at h
  simp at h

theorem Achieved.seen {law : Law} (h : Achieved law d) :
    d.ledger.last ∈ d.ledger.seen ∧ d.ledger.sent ≠ [] := by
  obtain ⟨l, y, -, hy, -, hl⟩ := h
  have hsent : d.ledger.sent = l.sent := hl.sent
  have hseen : d.ledger.seen = l.last :: l.seen := hl.seen
  refine ⟨?_, hsent ▸ sent_ne_nil hy⟩
  have hlast : d.ledger.last = l.last := by rw [Ledger.last, Ledger.last, hsent]
  rw [hseen, hlast]
  exact List.mem_cons_self

/-- **The broadcast.** -/
theorem refines_broadcast {F : Durable → Prop} {x : Extrinsic} {p : PendingSubmission}
    (hF : Aside s.law F) (hd : F d) (hp : d.pending = .holds (some p)) (hr : Records p x)
    (ho : d.ledger.Over x.anchor) (hb : s.basis x d) :
    Refines s.sim (perform (.broadcast x) : Submit _).run
      (OnOk fun _ d' => F d' ∧ SentLast d') d := by
  have hsends : ∀ w, view w = d → Sends s d (view (w.broadcast x)) := by
    intro w he
    subst he
    exact .intro hp hr ho hb rfl
  refine refines_perform (fun w w' hw hc => ?_) (fun w _ w₁ hw ha => ?_)
  · obtain rfl : w' = w.broadcast x := hc
    exact .broadcast (hsends w hw)
  · obtain rfl : w₁ = w.broadcast x := ha
    refine ⟨.broadcast (hsends w hw), fun d' hd' => ?_⟩
    subst hw
    refine ⟨hF.stable _ _ (hF.ledger _ _ hd) hd', stable_sentLast s.law _ _ ?_ hd'⟩
    refine ⟨⟨x, w.epoch, w.files (.file .submission)⟩, ?_, rfl⟩
    simp [view, Host.broadcast, Ledger.broadcast, Ledger.last]

/-- **The wait for success.** -/
theorem refines_waitSuccess {F : Durable → Prop} (hF : Aside s.law F) (hd : F d)
    (hl : SentLast d) :
    Refines s.sim (perform .waitSuccess : Submit _).run
      (OnOk fun x d' => F d' ∧ (x = .ready (.ok true) → Achieved s.law d')) d := by
  obtain ⟨y, hy, he⟩ := hl
  refine refines_perform (fun _ _ _ hc => hc.elim) (fun w x w₁ hw ha => ?_)
  subst hw
  by_cases hx : x = .ready (.ok true)
  · subst hx
    obtain ⟨hs, rfl⟩ : s.law.success w.ledger ∧ w₁ = { w with ledger := w.ledger.confirmed } := ha
    refine ⟨.confirm hs (sent_ne_nil hy), fun d' hd' => ?_⟩
    have hF' : F d' := hF.stable _ _ (hF.ledger _ _ hd) hd'
    exact ⟨hF', fun _ => ⟨w.ledger, y, hs, hy, he.trans hd'.epoch.symm, hd'.ledger⟩⟩
  · have hw₁ : w₁ = w ∧ action .waitSuccess x = .other := by
      match x, hx, ha with
      | .ready (.ok true), hx, _ => exact absurd rfl hx
      | .ready (.ok false), _, ha => exact ⟨ha, rfl⟩
      | .ready (.error _), _, ha => exact ⟨ha, rfl⟩
      | .elapsed, _, ha => exact ⟨ha, rfl⟩
    rw [hw₁.1, hw₁.2]
    exact ⟨.idle, fun d' hd' => ⟨hF.stable _ _ hd hd', fun h => absurd h hx⟩⟩

/-- **`save_pending`.** -/
theorem refines_savePending {pending : Option PendingSubmission} {K' : Durable → Prop}
    (hK : Stable s.law K) (hK' : Stable s.law K') (hd : K d)
    (hstep : ∀ d, K d → Step s .record d { d with pending := .holds pending } ∧
      K' { d with pending := .holds pending }) :
    Refines s.sim (savePending pending).run (OnOk fun _ => K') d := by
  refine refines_convert (refines_saveBytes hK hK' hd fun d hd => ?_)
  have hput : d.put (PendingSubmission.codec.encode pending) .submission =
      { d with pending := .holds pending } := by
    simp [Durable.put]
  rw [hput]
  exact hstep d hd

/-- **From the broadcast on.** -/
theorem refines_transmit {F : Durable → Prop} {x : Extrinsic} {p : PendingSubmission}
    (hF : Aside s.law F) (hd : F d) (hp : d.pending = .holds (some p)) (hr : Records p x)
    (ho : d.ledger.Over x.anchor) (hb : s.basis x d) :
    Refines s.sim (transmit x).run (OnOk fun _ d' => F d' ∧ Achieved s.law d') d := by
  have hsent := hF.stable.and (stable_sentLast s.law)
  have hdone := hF.stable.and (stable_achieved s.law)
  refine refines_then (refines_broadcast hF hd hp hr ho hb) fun _ d₁ h₁ => ?_
  refine refines_then (refines_awaited (P := fun _ d' => F d' ∧ SentLast d') fun _ _ => h₁)
    fun _ d₂ h₂ => ?_
  refine refines_then (refines_ask hsent h₂) fun _ d₃ h₃ => ?_
  refine refines_then (refines_awaited (P := fun _ d' => F d' ∧ SentLast d') fun _ _ => h₃)
    fun _ d₄ h₄ => ?_
  refine refines_then (refines_waitSuccess hF h₄.1 h₄.2) fun r d₅ h₅ => ?_
  refine refines_then (refines_awaited
    (P := fun b d' => F d' ∧ (b = true → Achieved s.law d')) fun b hb => ?_) fun b d₆ h₆ => ?_
  · exact ⟨h₅.1, fun hb' => h₅.2 (by rw [hb, hb'])⟩
  · cases b with
    | false => exact refines_fail
    | true =>
      refine refines_savePending hdone hdone ⟨h₆.1, h₆.2 rfl⟩ fun d hd => ?_
      exact ⟨.clear hd.2.seen.1 hd.2.seen.2, hF.pending _ _ hd.1, hd.2⟩

/-- **A submission to a subnet.** The caller knows `C` of the chain, which is a basis for
    submitting at `block`, and `F` besides. -/
theorem refines_submitTo {C F : Durable → Prop} {writer : Writer} {netuid : U16} {block : U64}
    {miners : List MinerScore} {policy : BurnPolicy} (hC : Stable s.law C)
    (hCp : ∀ d x, C d → C { d with pending := x })
    (hCb : ∀ d x, Signed writer netuid.val block x →
      MadeOf s.law.encrypts x.netuid miners policy x.call → C d → s.basis x d) (hF : Aside s.law F)
    (hc : C d) (hf : F d) (hg : Guarded d) :
    Refines s.sim (submitTo writer netuid block miners policy).run
      (OnOk fun _ d' => F d' ∧ Achieved s.law d') d := by
  have hK := hC.and hF.stable
  have hO := hK.and (stable_over s.law block)
  refine refines_then (refines_checkPending hK ⟨hc, hf⟩ hg) fun _ d₁ h₁ => ?_
  refine refines_then (refines_ask hO h₁) fun r d₂ h₂ => ?_
  refine refines_then (refines_awaited (P := fun _ d' => (C d' ∧ F d') ∧ d'.ledger.Over block)
    fun _ _ => h₂) fun subnet d₃ h₃ => ?_
  refine refines_then (refines_prepare writer netuid block hO h₃) fun x d₄ ⟨h₄, hx, hmade⟩ => ?_
  cases hadd : checkedAdd block mortalityBlocks with
  | none => exact refines_fail
  | some expiresAt =>
    have hexp : expiresAt.val = block.val + mortalityBlocks.val := checkedAdd_eq hadd
    have hrec : Records (writer.record netuid expiresAt) x :=
      ⟨hx.genesis.symm, Fin.ext hx.netuid.symm, hx.hotkey.symm, by rw [hx.anchor]; exact hexp⟩
    have hP := hO.and (stable_pending s.law (some (writer.record netuid expiresAt)))
    refine refines_then (refines_savePending hO hP h₄ fun d hd => ?_) fun _ d₅ h₅ => ?_
    · exact ⟨.begin hd.2 hexp, ⟨⟨hCp _ _ hd.1.1, hF.pending _ _ hd.1.2⟩, hd.2⟩, rfl⟩
    · refine refines_then (refines_transmit hF h₅.1.1.2 h₅.2 hrec ?_ ?_) fun _ d₆ h₆ => ?_
      · rw [hx.anchor]
        exact h₅.1.2
      · exact hCb _ _ hx hmade h₅.1.1.1
      · exact refines_return h₆

/-- **A submission.** -/
theorem refines_submitAt {C F : Durable → Prop} {writer : Writer} {netuid block : U64}
    {miners : List MinerScore} {policy : BurnPolicy} (hC : Stable s.law C)
    (hCp : ∀ d x, C d → C { d with pending := x })
    (hCb : ∀ d x, Signed writer netuid.val block x →
      MadeOf s.law.encrypts x.netuid miners policy x.call → C d → s.basis x d) (hF : Aside s.law F)
    (hc : C d) (hf : F d) (hg : Guarded d) :
    Refines s.sim (submitAt writer netuid block miners policy).run
      (OnOk fun _ d' => F d' ∧ Achieved s.law d') d := by
  have hK := (hC.and hF.stable).and (stable_guarded s.law)
  refine refines_then (refines_ask hK ⟨⟨hc, hf⟩, hg⟩) fun r d₁ h₁ => ?_
  refine refines_then (refines_awaited (P := fun _ d' => (C d' ∧ F d') ∧ Guarded d') fun _ _ => h₁)
    fun _ d₂ h₂ => ?_
  cases hn : narrow (2 ^ 16) netuid with
  | none => exact refines_fail
  | some n =>
    refine refines_submitTo hC hCp (fun d x hx hmade => hCb d x ?_ hmade) hF h₂.1.1 h₂.1.2 h₂.2
    rw [← narrow_val hn]
    exact hx

/-! ## 4. A run -/

section

variable {shared : Shared} {run : Run shared} {snapshot : ChainSnapshot}
  {summary : EpochSummary shared.Evidence} {saved : ValidatorState}

/-- A stamp of the summary a run is given. -/
def Run.Offers (run : Run shared) (o : Stamp) : Prop :=
  ∃ summary, run.summary = .ok summary ∧ o.summaryId = summary.summaryId ∧
    o.digest = summary.digest ∧ o.epochEnd = summary.epochEndBlock

theorem summary_texts (h : run.summary = .ok summary) :
    summary.summaryId ≠ "" ∧ summary.digest ≠ "" := by
  unfold Run.summary at h
  cases hf : run.fetched with
  | error e =>
    rw [hf] at h
    cases h
  | ok raw =>
    rw [hf] at h
    simp only [bind, Except.bind] at h
    cases hp : parseSignedSummary shared raw run.network run.netuid run.platformSigners with
    | error e =>
      rw [hp] at h
      cases h
    | ok s =>
      rw [hp] at h
      cases h
      exact parseSignedSummary_texts hp

/-- The stamp of a summary. -/
def stampOf (h : run.summary = .ok summary) : Stamp where
  summaryId := summary.summaryId
  digest := summary.digest
  epochEnd := summary.epochEndBlock
  summaryId_ne := (summary_texts h).1
  digest_ne := (summary_texts h).2

theorem offers_stampOf (h : run.summary = .ok summary) : run.Offers (stampOf h) :=
  ⟨summary, h, rfl, rfl, rfl⟩

/-- The summary fits the snapshot. -/
structure Validated (run : Run shared) (summary : EpochSummary shared.Evidence)
    (snapshot : ChainSnapshot) : Prop where
  given : run.summary = .ok summary
  fits : validateChain summary snapshot = .ok ()

/-- The hotkey's last update in a snapshot. -/
def LastUpdate (run : Run shared) (snapshot : ChainSnapshot) (u : U64) : Prop :=
  ∃ uid, snapshot.hotkeys.findIdx? (· = run.hotkey) = some uid ∧
    snapshot.lastUpdates[uid]? = some u

/-- **What a run needs of its chain and its burner**: started where `start` holds, the chain shows a
    snapshot that the run then knows (`shown`), which earns the mark of an epoch it has an update
    for; and otherwise a submission that succeeds earns it. -/
structure Seams (s : Setting) (run : Run shared) (start : Durable → Prop)
    (shown : ChainSnapshot → Durable → Prop) : Prop where
  start_stable : Stable s.law start
  shown_stable : ∀ snapshot, Stable s.law (shown snapshot)
  shown_saved : ∀ snapshot d x, shown snapshot d → shown snapshot { d with saved := x }
  earned_stable : ∀ e, Stable s.law (s.earned e)
  chain : ∀ d, start d → Refines s.sim (run.chain run.netuid).run (OnOk shown) d
  onChain : ∀ {snapshot summary u d}, Validated run summary snapshot → shown snapshot d →
    LastUpdate run snapshot u → summary.epochEndBlock ≤ u → s.earned summary.epochEndBlock d
  submit : ∀ {snapshot summary u d saved policy}, Validated run summary snapshot →
    shown snapshot d → LastUpdate run snapshot u → u < summary.epochEndBlock →
    Due s saved summary.epochEndBlock d → targetPolicy summary = .ok policy →
    Refines s.sim (run.submit summary.netuid.val snapshot.finalizedBlock
        (shared.scoreEpochSummary summary) policy).run
      (OnOk fun _ d' => Kept s saved d' ∧ s.earned summary.epochEndBlock d') d

theorem stable_kept (saved : ValidatorState) : Stable s.law (Kept s saved) := by
  intro d d' h hd hl
  rcases hd.saved with he | ⟨hl', -⟩
  · exact he.trans (h hl)
  · exact absurd (hl.symm.trans hl') (by simp)

theorem refines_takeLock (hK : Stable s.law K) (hd : K d) :
    Refines s.sim takeLock.run (OnOk fun _ => K) d := by
  refine refines_then (refines_ask hK hd) fun r d₁ h₁ => ?_
  refine refines_then (refines_exceptMap (P := fun _ => K) fun _ _ => h₁) fun _ d₂ h₂ => ?_
  refine refines_then (refines_ask hK h₂) fun r d₃ h₃ => ?_
  refine refines_then (refines_exceptMap (P := fun _ => K) fun _ _ => h₃) fun _ d₄ h₄ => ?_
  refine refines_then (refines_ask hK h₄) fun r d₅ h₅ => ?_
  match r with
  | .acquired => exact refines_return h₅
  | .wouldBlock => exact refines_fail
  | .error e => exact refines_fail

/-- **`load`** gives what the state file holds, which is well formed. -/
theorem refines_load (hK : Stable s.law K) (hd : K d) :
    Refines s.sim load.run
      (OnOk fun saved d' => (K d' ∧ Kept s saved d') ∧ saved.WellFormed) d := by
  refine refines_then (refines_read .state) fun x d₁ ⟨hdr, hok, hnone⟩ => ?_
  have hkeep : ∀ saved, d.saved = .ok saved → K d₁ ∧ Kept s saved d₁ := fun saved h =>
    ⟨hK _ _ hd hdr, stable_kept saved _ _ (fun _ => h) hdr⟩
  match x with
  | .ok raw =>
    refine refines_except fun saved hs => ?_
    have hsaved : d.saved = .ok saved := (hok raw rfl).trans hs
    exact ⟨hkeep saved hsaved, ValidatorState.decode_wellFormed hs⟩
  | .error .notFound =>
    exact refines_return ⟨hkeep _ (hnone (.inl rfl)), ValidatorState.wellFormed_default⟩
  | .error .notADirectory =>
    exact refines_return ⟨hkeep _ (hnone (.inr rfl)), ValidatorState.wellFormed_default⟩
  | .error .alreadyExists => exact refines_fail
  | .error .other => exact refines_fail

/-- **`save`** of a well-formed state. -/
theorem refines_save {K' : Durable → Prop} (hK : Stable s.law K) (hK' : Stable s.law K')
    (hd : K d) (hw : saved.WellFormed)
    (hstep : ∀ d, K d → Step s .save d { d with saved := .ok saved } ∧
      K' { d with saved := .ok saved }) :
    Refines s.sim (save saved).run (OnOk fun _ => K') d := by
  refine refines_saveBytes hK hK' hd fun d hd => ?_
  have hput : d.put saved.encode .state = { d with saved := .ok saved } := by
    rw [Durable.put, ValidatorState.ofFile, ValidatorState.decode_encode hw]
  rw [hput]
  exact hstep d hd

theorem stamped_wellFormed {o : Stamp} (hw : saved.WellFormed)
    (hn : ∀ e, saved.summaryEpochEndBlock = some e → e < o.epochEnd) :
    (saved.stamped o).WellFormed := by
  refine ⟨.some rfl rfl rfl o.summaryId_ne o.digest_ne, ?_⟩
  refine ValidatorState.consistent_of_le fun b hb => ⟨o.epochEnd, rfl, ?_⟩
  obtain ⟨e, he, hle⟩ := hw.burn_le hb
  exact Fin.le_trans hle (Fin.le_of_lt (hn e he))

theorem burned_wellFormed {e : U64} (hw : saved.WellFormed)
    (he : saved.summaryEpochEndBlock = some e) : (saved.burned e).WellFormed := by
  refine ⟨?_, ValidatorState.consistent_of_le fun b hb => ⟨e, he, ?_⟩⟩
  · rcases hw.summary with ⟨h₁, h₂, h₃⟩ | ⟨h₁, h₂, h₃, hx, hy⟩
    · exact .none h₁ h₂ h₃
    · exact .some h₁ h₂ h₃ hx hy
  · obtain rfl : e = b := Option.some.inj hb
    exact Fin.le_refl _

/-- A summary that is processed already is the stored one. -/
theorem compare_true (h : compare saved summary = .ok true) :
    saved.summaryEpochEndBlock = some summary.epochEndBlock := by
  unfold compare at h
  split_ifs at h with h₁ h₂ h₃
  · exact h₂
  · cases h

/-- A summary that is not is newer than the stored one. -/
theorem compare_false (h : compare saved summary = .ok false) {e : U64}
    (he : saved.summaryEpochEndBlock = some e) : e < summary.epochEndBlock := by
  unfold compare at h
  rw [he] at h
  split_ifs at h with h₁ h₂ h₃
  · cases h
  · rw [Option.any_some, decide_eq_true_eq] at h₁
    have hne : e.val ≠ summary.epochEndBlock.val := fun heq => h₂ (congrArg some (Fin.ext heq))
    have hle : e.val ≤ summary.epochEndBlock.val := Fin.not_lt.mp h₁
    exact Nat.lt_of_le_of_ne hle hne

variable {start : Durable → Prop} {shown : ChainSnapshot → Durable → Prop}

/-- **The weights of a due epoch.** -/
theorem refines_setWeights (h : Seams s run start shown) (hv : Validated run summary snapshot)
    (hs : shown snapshot d) (hdue : Due s saved summary.epochEndBlock d) :
    Refines s.sim (setWeights run snapshot summary (shared.scoreEpochSummary summary)).run
      (OnOk fun set d' => Kept s saved d' ∧ (set = true → s.earned summary.epochEndBlock d')) d := by
  unfold setWeights
  split
  · exact refines_fail
  · rename_i uid huid
    split
    · exact refines_fail
    · rename_i u hu
      have hlast : LastUpdate run snapshot u := ⟨uid, huid, hu⟩
      split_ifs with hle hlim
      · exact refines_return ⟨hdue.kept, fun _ => h.onChain hv hs hlast hle⟩
      · exact refines_return ⟨hdue.kept, fun he => by cases he⟩
      · refine refines_then (refines_exceptMap
          (P := fun policy d' => (shown snapshot d' ∧ Due s saved summary.epochEndBlock d') ∧
            targetPolicy summary = .ok policy)
          fun _ hp => ⟨⟨hs, hdue⟩, hp⟩) fun policy d₁ ⟨h₁, hp⟩ => ?_
        have hlt : u < summary.epochEndBlock := Fin.not_le.mp hle
        refine refines_then (refines_convert (h.submit hv h₁.1 hlast hlt h₁.2 hp))
          fun _ d₂ h₂ => ?_
        exact refines_return ⟨h₂.1, fun _ => h₂.2⟩

/-- **The burn part of a run.** -/
theorem refines_burn (h : Seams s run start shown) (ho : s.offered = run.Offers)
    (hv : Validated run summary snapshot) (hs : shown snapshot d) (hk : Kept s saved d)
    (hw : saved.WellFormed) (he : saved.summaryEpochEndBlock = some summary.epochEndBlock)
    {records : List MinerScore} :
    Refines s.sim (burn run snapshot summary saved (shared.scoreEpochSummary summary) records).run
      (OnOk fun _ _ => True) d := by
  unfold burn
  split_ifs with hb
  · refine refines_then (refines_setWeights h hv hs ⟨hk, hw, he, hb⟩) fun set d₁ h₁ => ?_
    cases set with
    | false => exact refines_return trivial
    | true =>
      have hK := (stable_kept (s := s) saved).and (h.earned_stable summary.epochEndBlock)
      have hT : Stable s.law fun _ => True := fun _ _ _ _ => trivial
      refine refines_then (refines_convert (refines_save hK hT ⟨h₁.1, h₁.2 rfl⟩
        (burned_wellFormed hw he) fun d hd => ?_)) fun _ d₂ _ => refines_return trivial
      have hoff : s.offered (stampOf hv.given) := ho ▸ offers_stampOf hv.given
      exact ⟨.mark hoff ⟨hd.1, hw, he, hb⟩ hd.2, trivial⟩
  · exact refines_return trivial

/-- **From the loaded state on.** -/
theorem refines_process (h : Seams s run start shown) (ho : s.offered = run.Offers)
    (hv : Validated run summary snapshot) (hs : shown snapshot d) (hk : Kept s saved d)
    (hw : saved.WellFormed) :
    Refines s.sim (process run snapshot summary saved).run (OnOk fun _ _ => True) d := by
  refine refines_then (refines_exceptMap (P := fun b d' => (shown snapshot d' ∧ Kept s saved d') ∧
    compare saved summary = .ok b) fun b hb => ⟨⟨hs, hk⟩, hb⟩) fun b d₁ h₁ => ?_
  cases b with
  | true => exact refines_burn h ho hv h₁.1.1 h₁.1.2 hw (compare_true h₁.2)
  | false =>
    have hoff : s.offered (stampOf hv.given) := ho ▸ offers_stampOf hv.given
    have hnew : ∀ e, saved.summaryEpochEndBlock = some e → e < (stampOf hv.given).epochEnd :=
      fun e he => compare_false h₁.2 he
    have hw' : (saved.processed summary).WellFormed := stamped_wellFormed hw hnew
    have hK := (h.shown_stable snapshot).and (stable_kept (s := s) saved)
    have hK' := (h.shown_stable snapshot).and (stable_kept (s := s) (saved.processed summary))
    refine refines_then (refines_convert (refines_save hK hK' h₁.1 hw' fun d hd => ?_))
      fun _ d₂ h₂ => refines_burn h ho hv h₂.1 h₂.2 hw' rfl
    exact ⟨.process hoff hd.2 hw hnew, h.shown_saved _ _ _ hd.1, fun _ => rfl⟩

/-- **`run_once` refines the model**, whatever its chain and its burner are. -/
theorem refines_runOnce (h : Seams s run start shown) (ho : s.offered = run.Offers)
    (hd : start d) : Refines s.sim (runOnce run).run (OnOk fun _ _ => True) d := by
  refine refines_then (refines_convert (refines_takeLock h.start_stable hd)) fun _ d₁ h₁ => ?_
  refine refines_then (refines_convert (h.chain d₁ h₁)) fun snapshot d₂ h₂ => ?_
  refine refines_then (refines_except (P := fun summary d' => shown snapshot d' ∧
    run.summary = .ok summary) fun summary hs => ⟨h₂, hs⟩) fun summary d₃ h₃ => ?_
  refine refines_then (refines_exceptMap (P := fun _ d' => shown snapshot d' ∧
    validateChain summary snapshot = .ok ()) fun _ hf => ⟨h₃.1, hf⟩) fun _ d₄ h₄ => ?_
  refine refines_then (refines_convert (refines_load (h.shown_stable snapshot) h₄.1))
    fun saved d₅ h₅ => ?_
  exact refines_process h ho ⟨h₃.2, h₄.2⟩ h₅.1.1 h₅.1.2 h₅.2

end

end Sn46Validator.Validator
