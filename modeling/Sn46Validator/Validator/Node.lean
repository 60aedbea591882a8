/-
  File:      Validator/Node.lean
  Subject:   RUNS AGAINST A CHAIN, with the validator's own reader and writer.

  * `ReadAt` -- a snapshot was read of the chain, which then went on;
  * `nodeSystem` -- runs of one hotkey on one subnet, one after another;
  * `nodeSetting` -- what such a run knows when it broadcasts, and when it marks an epoch;
  * `nodeSeams`, `node_ensures` -- **the reader and the writer give what a run needs**, whatever the
    chain's law is;
  * `broadcast_labelled` -- **each broadcast carries the weights of the epoch it is labelled with**;
  * `nodeRun`, `hostAfterRun` -- runs against the node of the tests.
-/
import Sn46Validator.Validator.Memory
import Sn46Validator.Validator.Apart

namespace Sn46Validator.Validator

open Library

variable {law : Law} {shared : Shared}

/-! ## 1. What was read -/

/-- **A snapshot that was read**: its head was shown, its storage was read there, and then only the
    chain went on. -/
def ReadAt (law : Law) (netuid : U64) (snapshot : ChainSnapshot) (l : Ledger) : Prop :=
  ∃ (l₁ l₂ : Ledger) (n : U16) (storage : Storage), law.head l₁ snapshot.finalizedBlock ∧
    (l₁.shown snapshot.finalizedBlock).Drift l₂ ∧ n.val = netuid.val ∧
    law.storage l₂ snapshot.finalizedBlock n storage ∧
    readStorage snapshot.finalizedBlock storage = .ok snapshot ∧ l₂.Drift l

theorem ReadAt.drift {netuid : U64} {snapshot : ChainSnapshot} {l l' : Ledger}
    (h : ReadAt law netuid snapshot l) (hd : l.Drift l') : ReadAt law netuid snapshot l' := by
  obtain ⟨l₁, l₂, n, storage, hh, hs, hn, hst, hr, hl⟩ := h
  exact ⟨l₁, l₂, n, storage, hh, hs, hn, hst, hr, hl.trans hd⟩

/-! ## 2. The system -/

/-- **A run of the hotkey of `writer`** on the subnet `netuid`. -/
structure Serves (c : Run shared) (writer : Writer) (netuid : U64) : Prop where
  chain : c.chain = readChain
  submit : c.submit = submitAt writer
  hotkey : c.hotkey = writer.hotkey
  summary : ∀ summary, c.summary = .ok summary → summary.netuid.val = netuid
  netuid : c.netuid = netuid

/-- **Runs of one hotkey on one subnet**, one after another. -/
@[reducible] def nodeSystem (shared : Shared) (law : Law) (writer : Writer) (netuid : U64) :
    System iface where
  machine := machine law
  Call := Run shared
  Out := Except RunError (List MinerScore)
  prog c := (runOnce c).run
  enter c w w' := w' = { w with epoch := c.epochEnd } ∧ Serves c writer netuid
  env w w' := Drift law w w'

/-- The hotkey's last update in a snapshot. -/
def UpdatedAt (hotkey : String) (snapshot : ChainSnapshot) (u : U64) : Prop :=
  ∃ uid : Nat, snapshot.hotkeys[uid]? = some hotkey ∧ snapshot.lastUpdates[uid]? = some u

/-- **A call for the epoch `e`**: it is made of the scores of a summary that ends with `e` and that
    the run was given, under the summary's policy. -/
def Run.CallFor (c : Run shared) (encrypts : Encryption) (e : U64) (x : Extrinsic) : Prop :=
  ∃ summary policy, c.summary = .ok summary ∧ summary.epochEndBlock = e ∧
    targetPolicy summary = .ok policy ∧
    MadeOf encrypts x.netuid (shared.scoreEpochSummary summary) policy x.call

/-- **What a run knows when it broadcasts**: it signed the extrinsic for this subnet, pinned to the
    head of the snapshot it read, for the epoch that the snapshot ends with, whose weights it
    carries; and its last update is older. -/
structure Basis (law : Law) (writer : Writer) (netuid : U64) (c : Run shared) (x : Extrinsic)
    (d : Durable) : Prop where
  genesis : x.genesis = writer.genesis
  hotkey : x.hotkey = writer.hotkey
  read : ∃ snapshot u, ReadAt law netuid snapshot d.ledger ∧ x.anchor = snapshot.finalizedBlock ∧
    d.epoch = some snapshot.lastStep ∧ UpdatedAt writer.hotkey snapshot u ∧ u < snapshot.lastStep
  netuid : x.netuid.val = netuid.val
  call : ∃ e, d.epoch = some e ∧ c.CallFor law.encrypts e x

/-- **What a run knows when it marks an epoch**: it read a snapshot that ends with it and whose last
    update is no older; or its own submission succeeded. -/
def Earned (law : Law) (writer : Writer) (netuid : U64) (e : U64) (d : Durable) : Prop :=
  d.epoch = some e ∧ ((∃ snapshot u, ReadAt law netuid snapshot d.ledger ∧ snapshot.lastStep = e ∧
    UpdatedAt writer.hotkey snapshot u ∧ e ≤ u) ∨ Achieved law d)

/-- What such a run is given, and what it knows. -/
def nodeSetting (law : Law) (writer : Writer) (netuid : U64) (c : Run shared) : Setting where
  law := law
  offered := c.Offers
  basis := Basis law writer netuid c
  earned := Earned law writer netuid

/-- Where a run starts: every broadcast is over or guarded. -/
def Starts (c : Run shared) (d : Durable) : Prop := Guarded d ∧ d.epoch = c.epochEnd

/-- What a run knows once it has read its snapshot. -/
def Shown (law : Law) (netuid : U64) (c : Run shared) (snapshot : ChainSnapshot) (d : Durable) :
    Prop := Starts c d ∧ ReadAt law netuid snapshot d.ledger

theorem stable_starts (law : Law) (c : Run shared) : Stable law (Starts c) :=
  fun _ _ h hd => ⟨h.1.drift hd, hd.epoch.trans h.2⟩

theorem stable_shown (law : Law) (netuid : U64) (c : Run shared) (snapshot : ChainSnapshot) :
    Stable law (Shown law netuid c snapshot) :=
  fun _ _ h hd => ⟨stable_starts law c _ _ h.1 hd, h.2.drift hd.ledger⟩

theorem stable_earned (law : Law) (writer : Writer) (netuid e : U64) :
    Stable law (Earned law writer netuid e) := by
  intro d d' hearned hd
  obtain ⟨he, h⟩ := hearned
  refine ⟨hd.epoch.trans he, ?_⟩
  rcases h with ⟨snapshot, u, hr, hs, hu, hle⟩ | ha
  · exact .inl ⟨snapshot, u, hr.drift hd.ledger, hs, hu, hle⟩
  · exact .inr (stable_achieved law _ _ ha hd)

/-! ## 3. The reader -/

/-- What is known between the head and the storage. -/
def ShownHead (law : Law) (c : Run shared) (b : U64) (d : Durable) : Prop :=
  Starts c d ∧ ∃ l₁, law.head l₁ b ∧ (l₁.shown b).Drift d.ledger

/-- **`BittensorChain::snapshot`** gives a snapshot that was read. -/
theorem refines_readChain {s : Setting} {c : Run shared} {netuid : U64} {d : Durable}
    (hd : Starts c d) :
    Refines s.sim (readChain netuid).run (OnOk (Shown s.law netuid c)) d := by
  refine refines_then (P := fun x d' => Starts c d' ∧ ∀ b, x = .ok b → ShownHead s.law c b d')
    (refines_perform (fun _ _ _ hc => hc.elim) fun w x w₁ hw ha => ?_) fun r d₁ h₁ => ?_
  · subst hw
    match x, ha with
    | .ok b, ⟨hh, hw₁⟩ =>
      subst hw₁
      have hstart : Starts c (view { w with ledger := w.ledger.shown b }) := hd
      refine ⟨.reveal hh, fun d' hd' => ⟨stable_starts _ _ _ _ hstart hd', fun b' hb' => ?_⟩⟩
      obtain rfl : b = b' := Except.ok.inj hb'
      exact ⟨stable_starts _ _ _ _ hstart hd', w.ledger, hh, hd'.ledger⟩
    | .error e, ha =>
      obtain rfl : w₁ = w := ha
      exact ⟨.idle, fun d' hd' => ⟨stable_starts _ _ _ _ hd hd', fun b hb => by cases hb⟩⟩
  refine refines_then (refines_exceptMap (P := fun b d' => ShownHead s.law c b d')
    fun b hb => h₁.2 b hb) fun b d₂ h₂ => ?_
  cases hn : narrow (2 ^ 16) netuid with
  | none => exact refines_fail
  | some n =>
    refine refines_then (P := fun x d' => ∀ storage, x = .ok storage → Starts c d' ∧
      ∃ l₁ l₂, s.law.head l₁ b ∧ (l₁.shown b).Drift l₂ ∧ s.law.storage l₂ b n storage ∧
        l₂.Drift d'.ledger)
      (refines_perform (fun _ _ _ hc => hc.elim) fun w x w₁ hw ha => ?_) fun r d₃ h₃ => ?_
    · subst hw
      obtain ⟨hs, l₁, hh, hl⟩ := h₂
      match x, ha with
      | .ok storage, ⟨hst, hw₁⟩ =>
        subst hw₁
        refine ⟨.idle, fun d' hd' storage' hs' => ?_⟩
        obtain rfl : storage = storage' := Except.ok.inj hs'
        exact ⟨stable_starts _ _ _ _ hs hd', l₁, w₁.ledger, hh, hl, hst, hd'.ledger⟩
      | .error e, ha =>
        obtain rfl : w₁ = w := ha
        exact ⟨.idle, fun _ _ _ hb => by cases hb⟩
    refine refines_then (refines_exceptMap (P := fun storage d' => Starts c d' ∧
      ∃ l₁ l₂, s.law.head l₁ b ∧ (l₁.shown b).Drift l₂ ∧ s.law.storage l₂ b n storage ∧
        l₂.Drift d'.ledger) fun storage hst => h₃ storage hst) fun storage d₄ h₄ => ?_
    refine refines_except fun snapshot hr => ?_
    obtain ⟨hs, l₁, l₂, hh, hl, hst, hl₂⟩ := h₄
    obtain rfl : snapshot.finalizedBlock = b := (readStorage_ok hr).1
    exact ⟨hs, l₁, l₂, n, storage, hh, hl, narrow_val hn, hst, hr, hl₂⟩

/-! ## 4. The seams -/

section

variable {writer : Writer} {netuid : U64} {c : Run shared} {snapshot : ChainSnapshot}
  {summary : EpochSummary shared.Evidence}

/-- The first UID of the hotkey is one. -/
theorem updatedAt_of_lastUpdate (h : c.hotkey = writer.hotkey) {u : U64}
    (hu : LastUpdate c snapshot u) : UpdatedAt writer.hotkey snapshot u := by
  obtain ⟨uid, hfind, hget⟩ := hu
  obtain ⟨hlt, heq, -⟩ := List.findIdx?_eq_some_iff_getElem.mp hfind
  refine ⟨uid, ?_, hget⟩
  rw [List.getElem?_eq_getElem hlt]
  rw [decide_eq_true_eq] at heq
  rw [heq, h]

/-- A run that was given a summary is a run of its epoch. -/
theorem epochEnd_of_summary (h : c.summary = .ok summary) :
    c.epochEnd = some summary.epochEndBlock := by
  rw [Run.epochEnd, h]

/-- **The reader and the writer give what a run needs.** -/
theorem nodeSeams (h : Serves c writer netuid) :
    Seams (nodeSetting law writer netuid c) c (Starts c) (Shown law netuid c) where
  start_stable := stable_starts law c
  shown_stable := stable_shown law netuid c
  shown_saved := fun _ _ _ hs => hs
  earned_stable := stable_earned law writer netuid
  chain := by
    intro d hd
    rw [h.chain, h.netuid]
    exact refines_readChain hd
  onChain := by
    intro snapshot summary u d hv hs hu hle
    have he : snapshot.lastStep = summary.epochEndBlock := (validateChain_end hv.fits).symm
    refine ⟨hs.1.2.trans (epochEnd_of_summary hv.given), .inl ⟨snapshot, u, hs.2, he, ?_, hle⟩⟩
    exact updatedAt_of_lastUpdate h.hotkey hu
  submit := by
    intro snapshot summary u d saved policy hv hs hu hlt hdue hp
    have he : summary.epochEndBlock = snapshot.lastStep := validateChain_end hv.fits
    have hepoch : d.epoch = some summary.epochEndBlock :=
      hs.1.2.trans (epochEnd_of_summary hv.given)
    have hF : Aside law fun d => Kept (nodeSetting law writer netuid c) saved d ∧
        d.epoch = some summary.epochEndBlock :=
      ⟨fun d d' hd hdr => ⟨stable_kept saved d d' hd.1 hdr, hdr.epoch.trans hd.2⟩,
        fun _ _ hd => hd, fun _ _ hd => hd⟩
    have hC : Stable law fun d => d.epoch = some summary.epochEndBlock ∧
        ReadAt law netuid snapshot d.ledger :=
      fun d d' hd hdr => ⟨hdr.epoch.trans hd.1, hd.2.drift hdr.ledger⟩
    rw [h.submit]
    refine refines_mono (refines_submitAt hC (fun _ _ hd => hd) (fun d x hx hmade hd => ?_) hF
      ⟨hepoch, hs.2⟩ ⟨hdue.kept, hepoch⟩ hs.1.1) fun r d' hr => ?_
    · have hnet : x.netuid.val = netuid.val := by rw [hx.netuid, h.summary summary hv.given]
      refine ⟨hx.genesis, hx.hotkey, ⟨snapshot, u, hd.2, hx.anchor, ?_, ?_, ?_⟩, hnet,
        _, hd.1, summary, policy, hv.given, rfl, hp, hmade⟩
      · rw [hd.1, he]
      · exact updatedAt_of_lastUpdate h.hotkey hu
      · rw [← he]
        exact hlt
    · cases r with
      | ok message => exact ⟨hr.1.1, hr.1.2, .inr hr.2⟩
      | error e => exact trivial

/-- A step of some run of the system, after which the chain goes on. -/
def NodeStep (law : Law) (writer : Writer) (netuid : U64) (c : Run shared) (a : Action)
    (d d' : Durable) : Prop :=
  ∃ d₁, Step (nodeSetting law writer netuid c) a d d₁ ∧ Drifted law d₁ d'

/-- **Every run of the system is made of steps of the model**, where every broadcast is over or
    guarded at its start. -/
theorem node_ensures {w w' : Host} (he : (nodeSystem shared law writer netuid).enter c w w')
    (hg : Guarded (view w)) :
    Ensures (machine law)
      (fun e => NodeStep law writer netuid c (action e.op e.ans) (view e.before) (view e.after))
      (fun w₁ w₂ => Torn (nodeSetting law writer netuid c) (view w₁) (view w₂)) (runOnce c).run
      (fun _ _ => True) w' := by
  obtain ⟨rfl, hc⟩ := he
  have hstart : Starts c (view { w with epoch := c.epochEnd }) := ⟨hg, rfl⟩
  exact ((refines_runOnce (nodeSeams hc) rfl hstart).ensures _ rfl).post fun _ _ _ => trivial

end

/-! ## 5. What is broadcast -/

section

variable {writer : Writer} {netuid : U64} {A : Run shared → Prop} {encrypts : Encryption}

/-- **A broadcast of the epoch `e`**: labelled with it, it carries the weights of a summary that ends
    with `e` and that a run of `A` was given. -/
def Broadcast.Of (x : Broadcast) (A : Run shared → Prop) (encrypts : Encryption) (e : U64) : Prop :=
  x.epoch = some e ∧ ∃ c, A c ∧ c.CallFor encrypts e x.extrinsic

/-- **Every broadcast is of the epoch of its label.** -/
def Labelled (A : Run shared → Prop) (encrypts : Encryption) (l : Ledger) : Prop :=
  ∀ (i : Nat) (x : Broadcast), l.sent[i]? = some x → ∃ e, x.Of A encrypts e

theorem Labelled.drift {l l' : Ledger} (h : Labelled A encrypts l) (hd : l.Drift l') :
    Labelled A encrypts l' := by
  rw [Labelled, hd.sent]
  exact h

theorem Labelled.of {l : Ledger} (h : Labelled A encrypts l) {i : Nat} {x : Broadcast} {e : U64}
    (hx : l.sent[i]? = some x) (he : x.epoch = some e) : x.Of A encrypts e := by
  obtain ⟨e', he', hcall⟩ := h i x hx
  obtain rfl : e' = e := Option.some.inj (he'.symm.trans he)
  exact ⟨he', hcall⟩

variable {c : Run shared} {d d' : Durable}

theorem labelled_sends (hc : A c) (hs : Sends (nodeSetting law writer netuid c) d d')
    (h : Labelled A law.encrypts d.ledger) : Labelled A law.encrypts d'.ledger := by
  cases hs with
  | intro _ _ _ hb _ =>
    obtain ⟨e, he, hcall⟩ := hb.call
    intro i x hx
    rcases Ledger.broadcast_get hx with ⟨hold, -⟩ | ⟨-, rfl⟩
    · exact h i x hold
    · exact ⟨e, he, c, hc, hcall⟩

theorem labelled_step {a : Action} (hc : A c) (hs : Step (nodeSetting law writer netuid c) a d d')
    (h : Labelled A law.encrypts d.ledger) : Labelled A law.encrypts d'.ledger := by
  cases hs with
  | broadcast hs => exact labelled_sends hc hs h
  | _ => exact h

theorem labelled_torn (hc : A c) (ht : Torn (nodeSetting law writer netuid c) d d')
    (h : Labelled A law.encrypts d.ledger) : Labelled A law.encrypts d'.ledger := by
  cases ht with
  | idle => exact h
  | broadcast hs => exact labelled_sends hc hs h

/-- **Every history keeps it**, with the broadcasts apart. -/
theorem labelled_invariant (shared : Shared) (law : Law) (writer : Writer) (netuid : U64)
    (A : Run shared → Prop) : Invariant ((nodeSystem shared law writer netuid).among A)
      (fun c e => A c ∧
        NodeStep law writer netuid c (action e.op e.ans) (view e.before) (view e.after))
      (fun c w w' => A c ∧ Torn (nodeSetting law writer netuid c) (view w) (view w'))
      (fun _ w => Apart (view w) ∧ Labelled A law.encrypts w.ledger) where
  env := fun _ _ _ h hd => ⟨apart_drift h.1 hd.view, h.2.drift hd.ledger⟩
  enter := by
    intro _ c w _ h hstart
    obtain ⟨-, rfl, -⟩ := hstart
    exact ⟨h.1.congr rfl rfl rfl, h.2⟩
  ensures := by
    intro _ c w w' h he
    exact ⟨_, (node_ensures he.2 h.1.guarded).mono (fun _ hg => ⟨he.1, hg⟩)
      (fun _ _ ht => ⟨he.1, ht⟩) fun _ _ hq => hq⟩
  step := by
    intro _ c e ⟨hc, d₁, hs, hd⟩ h
    exact ⟨apart_drift (apart_step hs h.1) hd, (labelled_step hc hs h.2).drift hd.ledger⟩
  cut := fun _ _ _ _ ht h => ⟨apart_torn ht.2 h.1, labelled_torn ht.1 ht.2 h.2⟩

theorem labelled_nil {w : Host} (hsent : w.ledger.sent = []) (hseen : w.ledger.seen = []) :
    Apart (view w) ∧ Labelled A encrypts w.ledger := by
  refine ⟨apart_nil hsent hseen, fun i x hx => ?_⟩
  rw [hsent] at hx
  simp at hx

/-- **What was broadcast in a history** that starts with nothing sent carries, each one, the weights
    of a summary that a run of the history was given and whose epoch end is its label. -/
theorem broadcast_labelled {w₀ w : Host}
    {recs : List (Record (nodeSystem shared law writer netuid))}
    (h : History (nodeSystem shared law writer netuid) w₀ recs w)
    (hsent : w₀.ledger.sent = []) (hseen : w₀.ledger.seen = []) :
    Labelled (Called recs) law.encrypts w.ledger := by
  obtain ⟨recs', h', -⟩ := h.among fun _ hc => hc
  exact (History.induct (labelled_invariant shared law writer netuid (Called recs)) h'
    (labelled_nil hsent hseen)).2

end

/-! ## 6. Test runs -/

/-- The summary of the epoch that ends at 360, or of the next one, of the only hotkey. -/
def nodeSummary (later : Bool) : EpochSummary Unit :=
  { sampleSummary with
    summaryId := if later then "later" else "first"
    epochStartBlock := if later then 361 else 1
    epochEndBlock := if later then 720 else 360
    finalizedBlock := if later then 725 else 365
    miners := [⟨0, "v"⟩] }

/-- What is fetched is empty for the first epoch. -/
def nodeShared : Shared where
  Evidence := Unit
  parseEpochSummary raw _ _ _ := .ok (nodeSummary (raw ≠ []))
  scoreEpochSummary _ := [⟨0, 65535⟩]
  texts := by
    intro raw _ _ _ _ hok
    cases hok
    by_cases h : raw = [] <;> simp [nodeSummary, sampleSummary, h]

def nodeRun (later : Bool) : Run nodeShared where
  network := "finney"
  netuid := 46
  platformSigners := ["s"]
  fetched := .ok (if later then [0] else [])
  chain := readChain
  hotkey := "v"
  submit := submitAt ⟨"g", "v"⟩

theorem serves_nodeRun (later : Bool) : Serves (nodeRun later) ⟨"g", "v"⟩ 46 := by
  refine ⟨rfl, rfl, rfl, ?_, rfl⟩
  intro summary h
  cases h
  rfl

/-- The host that a run against the node leaves. -/
def hostAfterRun (law : Law) (patient : Bool) (w : Host) (later : Bool) : Host :=
  ((runOnce (nodeRun later)).run.eval (M := machine law) (calm "v" patient)
    { w with epoch := (nodeRun later).epochEnd }).2.2

/-- A run of a history. -/
theorem history_nodeRun (hl : Obeyed "v" law) {w₀ w : Host}
    {recs : List (Record (nodeSystem nodeShared law ⟨"g", "v"⟩ 46))}
    (h : History (nodeSystem nodeShared law ⟨"g", "v"⟩ 46) w₀ recs w) (patient later : Bool) :
    ∃ recs', History (nodeSystem nodeShared law ⟨"g", "v"⟩ 46) w₀ recs'
      (hostAfterRun law patient w later) :=
  ⟨_, .run h ⟨rfl, serves_nodeRun later⟩ (Exec.eval (M := machine law) (act_calm hl patient)
    (runOnce (nodeRun later)).run _)⟩

end Sn46Validator.Validator
