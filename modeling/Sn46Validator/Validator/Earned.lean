/-
  File:      Validator/Earned.lean
  Subject:   AN EPOCH IS MARKED BY ITS OWN WEIGHTS, unless an earlier submission landed late.

  A run marks its epoch when its submission succeeds, or when the hotkey's last update is no older
  than the epoch's end. The second is a comparison of blocks: it does not tell whose weights the
  update set.

  * `soleLaw` -- what is assumed of the chain: nobody else sets the hotkey's weights;
  * `Weighed` -- an extrinsic that carries the weights of an epoch has succeeded;
  * `Timely` -- every success from the end of an epoch on is of that epoch;
  * `marked_earned` -- **where every mark is timely, an epoch is only marked once its own weights are
    on chain**;
  * `mark_crossed` -- and where a success crossed the end of an epoch, not so.
-/
import Sn46Validator.Validator.Once

namespace Sn46Validator.Validator

open Library

variable {writer : Writer} {netuid : U64} {shared : Shared} {initial : Nat}

/-! ## 1. The chain -/

/-- **The chain of a hotkey whose weights only this validator sets**: its last update is `initial`
    until a success, and then the block of one. The state file is never lost. -/
def soleLaw (writer : Writer) (initial : Nat) (encrypts : Encryption) : Law where
  lossy := false
  head := (chainLaw writer).head
  storage l b netuid storage := (chainLaw writer).storage l b netuid storage ∧
    ∀ (uid : Nat) (u : U64), storage.keys uid = some writer.hotkey →
      storage.lastUpdates[uid]? = some u → u.val = initial ∨
        ∃ i x, l.sent[i]? = some x ∧ l.landed i = some ⟨u.val, true⟩
  success := (chainLaw writer).success
  encrypts := encrypts

/-- **Weights of the epoch `e` are on chain**: an extrinsic that carries them has succeeded. -/
def Weighed (A : Run shared → Prop) (encrypts : Encryption) (e : U64) (l : Ledger) : Prop :=
  ∃ i x m, l.sent[i]? = some x ∧ x.Of A encrypts e ∧ l.landed i = some ⟨m, true⟩

/-- **Every success from the block `e` on is of the epoch that ends there**, and the hotkey's first
    update was before it. -/
structure Timely (initial : Nat) (e : U64) (l : Ledger) : Prop where
  initial_lt : initial < e.val
  own : ∀ (i : Nat) (x : Broadcast) (m : Nat), l.sent[i]? = some x → l.landed i = some ⟨m, true⟩ →
    e.val ≤ m → x.epoch = some e

variable {A : Run shared → Prop} {encrypts : Encryption}

theorem Weighed.drift {e : U64} {l l' : Ledger} (h : Weighed A encrypts e l) (hd : l.Drift l') :
    Weighed A encrypts e l' := by
  obtain ⟨i, x, m, hx, he, hl⟩ := h
  exact ⟨i, x, m, hd.sent ▸ hx, he, hd.keeps hl⟩

theorem Weighed.broadcast {e : U64} {l : Ledger} {x : Broadcast} (h : Weighed A encrypts e l) :
    Weighed A encrypts e (l.broadcast x) := by
  obtain ⟨i, y, m, hy, he, hl⟩ := h
  exact ⟨i, y, m, Ledger.broadcast_old hy, he, hl⟩

/-- What is on chain stays there, whatever a run does. -/
theorem weighed_step {s : Setting} {e : U64} {a : Action} {d d' : Durable} (hs : Step s a d d')
    (h : Weighed A encrypts e d.ledger) : Weighed A encrypts e d'.ledger := by
  cases hs with
  | broadcast hs =>
    cases hs with
    | intro => exact h.broadcast
  | _ => exact h

theorem weighed_torn {s : Setting} {e : U64} {d d' : Durable} (ht : Torn s d d')
    (h : Weighed A encrypts e d.ledger) : Weighed A encrypts e d'.ledger := by
  cases ht with
  | idle => exact h
  | broadcast hs =>
    cases hs with
    | intro => exact h.broadcast

/-! ## 2. A mark -/

/-- An update that was read is `initial`, or the block of a success. -/
theorem ReadAt.update {snapshot : ChainSnapshot} {l : Ledger}
    (h : ReadAt (soleLaw writer initial encrypts) netuid snapshot l) {u : U64}
    (hu : UpdatedAt writer.hotkey snapshot u) :
    u.val = initial ∨ ∃ i x, l.sent[i]? = some x ∧ l.landed i = some ⟨u.val, true⟩ := by
  obtain ⟨l₁, l₂, n, storage, -, -, -, hst, hr, hd⟩ := h
  obtain ⟨uid, hkey, hget⟩ := hu
  obtain ⟨-, -, -, hlast, -, hkeys⟩ := readStorage_ok hr
  rcases hst.2 uid u (hkeys uid _ hkey) (hlast ▸ hget) with he | ⟨i, x, hx, hl⟩
  · exact .inl he
  · exact .inr ⟨i, x, hd.sent ▸ hx, hd.keeps hl⟩

/-- **What a run knows when it marks an epoch** says that the weights are on chain, if that is
    timely. -/
theorem Earned.weighed {e : U64} {d : Durable}
    (h : Earned (soleLaw writer initial encrypts) writer netuid e d)
    (hL : Labelled A encrypts d.ledger) (hT : Timely initial e d.ledger) :
    Weighed A encrypts e d.ledger := by
  obtain ⟨hepoch, ⟨snapshot, u, hr, -, hu, hle⟩ | ⟨l, y, ⟨m, hm⟩, hy, hey, hl⟩⟩ := h
  · have hle' : e.val ≤ u.val := hle
    rcases hr.update hu with he | ⟨i, x, hx, hl⟩
    · -- no update since the hotkey's first one
      have := hT.initial_lt
      omega
    · exact ⟨i, x, u.val, hx, hL.of hx (hT.own i x u.val hx hl hle'), hl⟩
  · have hy' : d.ledger.sent[l.last]? = some y := by
      rw [hl.sent]
      exact hy
    exact ⟨l.last, y, m, hy', hL.of hy' (hey.trans hepoch), hl.keeps hm⟩

section

variable {c : Run shared}

/-- **A step marks no epoch** that is not earned. -/
theorem marks_step {a : Action} {d d' : Durable}
    (hs : Step (nodeSetting (soleLaw writer initial encrypts) writer netuid c) a d d')
    {s' : ValidatorState} {e : U64} (hs' : d'.saved = .ok s')
    (he : s'.burnEpochEndBlock = some e) :
    (∃ s, d.saved = .ok s ∧ s.burnEpochEndBlock = some e) ∨
      Earned (soleLaw writer initial encrypts) writer netuid e d := by
  cases hs with
  | @process _ saved o _ hk _ _ =>
    obtain rfl : saved.stamped o = s' := Except.ok.inj hs'
    exact .inl ⟨saved, hk rfl, he⟩
  | @mark _ saved o _ _ hearned =>
    obtain rfl : saved.burned o.epochEnd = s' := Except.ok.inj hs'
    obtain rfl : o.epochEnd = e := Option.some.inj he
    exact .inr hearned
  | broadcast hs =>
    cases hs with
    | intro => exact .inl ⟨s', hs', he⟩
  | _ => exact .inl ⟨s', hs', he⟩

end

/-! ## 3. Histories -/

/-- **A timely mark**: from the end of an epoch that the operation marks, every success so far is of
    that epoch. -/
def OnTime (initial : Nat) {law : Law} (e : Event (machine law)) : Prop :=
  ∀ b, Marks e.after b → ¬Marks e.before b → Timely initial b e.before.ledger

/-- What is marked was marked at the start, or its weights are on chain. -/
def AllWeighed (A : Run shared → Prop) (encrypts : Encryption) (w₀ w : Host) : Prop :=
  ∀ b, Marks w b → Marks w₀ b ∨ Weighed A encrypts b w.ledger

/-- A run's step marks nothing that is not on chain, and the chain goes on. -/
theorem marks_event {c : Run shared} {e : Event (machine (soleLaw writer initial encrypts))}
    (h : NodeStep (soleLaw writer initial encrypts) writer netuid c (action e.op e.ans)
      (view e.before) (view e.after)) (hL : Labelled A encrypts e.before.ledger)
    (hT : OnTime initial e) {b : U64} (hb : Marks e.after b) :
    Marks e.before b ∨ Weighed A encrypts b e.before.ledger := by
  by_cases hold : Marks e.before b
  · exact .inl hold
  obtain ⟨d₁, hs, hd⟩ := h
  obtain ⟨s', hs', hb'⟩ := id hb
  have hsaved : stateOf e.after = d₁.saved := savedBy_drift rfl hd
  have hearned := (marks_step hs (hsaved.symm.trans hs') hb').resolve_left hold
  exact .inr (Earned.weighed (d := view e.before) hearned hL (hT b hb hold))

/-- **Every history of runs keeps it**, as long as its saves are timely. -/
theorem weighed_invariant (shared : Shared) (writer : Writer) (netuid : U64) (initial : Nat)
    (encrypts : Encryption) (A : Run shared → Prop) (w₀ : Host) :
    Invariant ((nodeSystem shared (soleLaw writer initial encrypts) writer netuid).among A)
      (fun c e => A c ∧ NodeStep (soleLaw writer initial encrypts) writer netuid c
        (action e.op e.ans) (view e.before) (view e.after))
      (fun c w w' => A c ∧ Torn (nodeSetting (soleLaw writer initial encrypts) writer netuid c)
        (view w) (view w'))
      (fun tr w => (Apart (view w) ∧ Labelled A encrypts w.ledger) ∧
        ((∀ e ∈ tr, OnTime initial e) → AllWeighed A encrypts w₀ w)) := by
  have hI := labelled_invariant shared (soleLaw writer initial encrypts) writer netuid A
  constructor
  case env =>
    intro tr w w' ⟨hlab, hall⟩ hd
    have hsame : stateOf w' = stateOf w := savedBy_drift rfl hd.view
    refine ⟨hI.env tr w w' hlab hd, fun hT b ⟨s, hs, hb⟩ => ?_⟩
    exact (hall hT b ⟨s, hsame.symm.trans hs, hb⟩).imp id fun hw => hw.drift hd.ledger
  case enter =>
    intro tr c w w' ⟨hlab, hall⟩ hstart
    refine ⟨hI.enter tr c w w' hlab hstart, ?_⟩
    obtain ⟨-, rfl, -⟩ := hstart
    exact hall
  case ensures => exact fun tr c w w' h he => hI.ensures tr c w w' h.1 he
  case step =>
    intro tr c e hg ⟨hlab, hall⟩
    refine ⟨hI.step tr c e hg hlab, fun hT b hb => ?_⟩
    have hbefore : Marks w₀ b ∨ Weighed A encrypts b e.before.ledger := by
      rcases marks_event hg.2 hlab.2 (hT e (by simp)) hb with hm | hw
      · exact hall (fun e' he' => hT e' (by simp [he'])) b hm
      · exact .inr hw
    obtain ⟨-, d₁, hs, hd⟩ := hg
    exact hbefore.imp id fun hw => (weighed_step hs hw).drift hd.ledger
  case cut =>
    intro tr c w w' ht ⟨hlab, hall⟩
    have hsame : stateOf w' = stateOf w := savedBy_torn ht.2
    refine ⟨hI.cut tr c w w' ht hlab, fun hT b ⟨s, hs, hb⟩ => ?_⟩
    exact (hall hT b ⟨s, hsame.symm.trans hs, hb⟩).imp id fun hw => weighed_torn ht.2 hw

/-- **An epoch is marked by its own weights**, in every history of runs that starts with nothing sent
    and whose marks are timely, with any epochs, any delays and any failures: at every operation that
    marks an epoch an extrinsic has succeeded on chain that carries the weights of a summary which
    ends with that epoch and which a run of the history was given, and so at the end for every epoch
    that the history marked. -/
theorem marked_earned {w₀ w : Host}
    {recs : List (Record (nodeSystem shared (soleLaw writer initial encrypts) writer netuid))}
    (hsent : w₀.ledger.sent = []) (hseen : w₀.ledger.seen = [])
    (h : History (nodeSystem shared (soleLaw writer initial encrypts) writer netuid) w₀ recs w)
    (hT : ∀ e ∈ trace recs, OnTime initial e) :
    AllWeighed (Called recs) encrypts w₀ w ∧
      ∀ e ∈ trace recs, ∀ b, Marks e.after b → ¬Marks e.before b →
        Weighed (Called recs) encrypts b e.before.ledger := by
  have hI := weighed_invariant shared writer netuid initial encrypts (Called recs) w₀
  obtain ⟨recs', h', htrace⟩ := h.among fun _ hc => hc
  rw [← htrace] at hT ⊢
  have h_nil : Apart (view w₀) ∧ Labelled (Called recs) encrypts w₀.ledger :=
    labelled_nil hsent hseen
  have h₀ : (Apart (view w₀) ∧ Labelled (Called recs) encrypts w₀.ledger) ∧
      ((∀ e ∈ ([] : List (Event (machine (soleLaw writer initial encrypts)))), OnTime initial e) →
        AllWeighed (Called recs) encrypts w₀ w₀) := ⟨h_nil, fun _ b hb => .inl hb⟩
  refine ⟨(History.induct hI h' h₀).2 hT, fun e he b hafter hbefore => ?_⟩
  obtain ⟨tr₁, tr₂, htr⟩ := List.append_of_mem he
  obtain ⟨⟨hlab, -⟩, c, hg⟩ := History.split hI h' h₀ htr
  exact (marks_event hg.2 hlab.2 (hT e he) hafter).resolve_left hbefore

/-! ## 4. A submission that lands late -/

/-- **A node that works is such a chain.** -/
theorem obeyed_soleLaw (writer : Writer) (encrypts : Encryption) :
    Obeyed writer.hotkey (soleLaw writer 0 encrypts) where
  head := (obeyed_chainLaw writer).head
  storage := by
    refine fun l b n => ⟨(obeyed_chainLaw writer).storage l b n, fun uid u hk hu => ?_⟩
    rw [storageAt_update hk hu]
    rcases l.lastSuccess_landed b.val l.sent.length with h₀ | ⟨i, hi, hl⟩
    · exact .inl h₀
    · exact .inr ⟨i, _, List.getElem?_eq_getElem hi, hl⟩
  success := (obeyed_chainLaw writer).success

/-- The chain of the tests. -/
@[reducible] def testLaw : Law := soleLaw ⟨"g", "v"⟩ 0 anyEncryption

/-- The mark of the state file. -/
def markOf (w : Host) : Option U64 :=
  match stateOf w with
  | .ok s => s.burnEpochEndBlock
  | .error _ => none

theorem marks_iff {w : Host} {b : U64} : Marks w b ↔ markOf w = some b := by
  unfold Marks markOf
  cases stateOf w with
  | ok s => exact ⟨fun ⟨s', hs, hb⟩ => Except.ok.inj hs ▸ hb, fun hb => ⟨s, rfl, hb⟩⟩
  | error e => exact ⟨fun ⟨_, hs, _⟩ => (nomatch hs), fun hb => (nomatch hb)⟩

/-- The broadcasts so far are of the epoch 360, and no other one is marked. -/
def firstOnly {law : Law} (e : Event (machine law)) : Bool :=
  (markOf e.after).all (· = 360) ∧ e.before.ledger.sent.all (·.epoch = some 360)

theorem firstOnly_onTime {law : Law} {e : Event (machine law)} (h : firstOnly e) :
    OnTime 0 e := by
  intro b hb _
  rw [firstOnly, decide_eq_true_eq, marks_iff.mp hb] at h
  obtain ⟨hmark, hall⟩ := h
  obtain rfl : b = 360 := by simpa using hmark
  exact ⟨by decide, fun i x m hx _ _ => by
    simpa using List.all_eq_true.mp hall x (List.mem_of_getElem? hx)⟩

/-- A run that marks the epoch 360 after its submission. -/
theorem marked_earned_test :
    Marks (hostAfterRun testLaw true (hostAt 715) false) 360 ∧
      Weighed (· = nodeRun false) anyEncryption 360
        (hostAfterRun testLaw true (hostAt 715) false).ledger := by
  have hmarks : Marks (hostAfterRun testLaw true (hostAt 715) false) 360 :=
    marks_iff.mpr (by decide +kernel)
  have hnew : ¬Marks (hostAt 715) 360 := fun hb => absurd (marks_iff.mp hb) (by decide +kernel)
  have h : History (nodeSystem nodeShared testLaw ⟨"g", "v"⟩ 46) (hostAt 715) _ _ :=
    .run .nil ⟨rfl, serves_nodeRun false⟩ (Exec.eval (M := machine testLaw)
      (act_calm (obeyed_soleLaw ⟨"g", "v"⟩ anyEncryption) true) (runOnce (nodeRun false)).run _)
  have hfirst : ((runOnce (nodeRun false)).run.eval (M := machine testLaw)
      (calm "v" true) { hostAt 715 with epoch := (nodeRun false).epochEnd }).1.all firstOnly := by
    decide +kernel
  have hall := (marked_earned rfl rfl h fun e he => firstOnly_onTime <| by
    rw [trace_append, trace_nil, List.nil_append, trace_singleton] at he
    exact List.all_eq_true.mp hfirst e he).1
  obtain ⟨i, x, m, hx, ⟨he, c, ⟨r, hr, hc⟩, hcall⟩, hl⟩ := (hall 360 hmarks).resolve_left hnew
  obtain rfl := List.mem_singleton.mp hr
  exact ⟨hmarks, i, x, m, hx, ⟨he, c, hc.symm, hcall⟩, hl⟩

/-- The submission for the epoch 360 is pinned to the block 715; the run times out, and it lands in
    the block 725. -/
def late : Host := ((hostAfterRun testLaw false (hostAt 715) false).waits 724).lands.waits 730

/-- Then comes a run of the epoch 720. -/
def crossedEpoch : Host := hostAfterRun testLaw true late true

theorem crossedEpoch_history : ∃ recs, History (nodeSystem nodeShared testLaw ⟨"g", "v"⟩ 46)
    (hostAt 715) recs crossedEpoch := by
  have hl := obeyed_soleLaw ⟨"g", "v"⟩ anyEncryption
  have h₀ : History (nodeSystem nodeShared testLaw ⟨"g", "v"⟩ 46) (hostAt 715) [] (hostAt 715) :=
    .nil
  obtain ⟨_, h₁⟩ := history_nodeRun hl h₀ false false
  have h₂ := h₁.env (drift_waits testLaw (b := 724) (by decide +kernel))
  have h₃ := h₂.env (drift_lands _ _)
  have h₄ := h₃.env (drift_waits testLaw (b := 730) (by decide +kernel))
  exact history_nodeRun hl h₄ true true

theorem crossedEpoch_mark : markOf crossedEpoch = some 720 ∧ markOf (hostAt 715) = none ∧
    crossedEpoch.ledger.sent.map (·.epoch) = [some 360] := by decide +kernel

/-- **Where a success crossed the end of an epoch**, that epoch is marked though its weights were
    not even sent. -/
theorem mark_crossed : ¬∀ (w₀ w : Host)
    (recs : List (Record (nodeSystem nodeShared testLaw ⟨"g", "v"⟩ 46))),
    w₀.ledger.sent = [] → w₀.ledger.seen = [] → (∀ i, w₀.ledger.landed i = none) →
    w₀.ledger.observed ≤ w₀.ledger.finalized →
    History (nodeSystem nodeShared testLaw ⟨"g", "v"⟩ 46) w₀ recs w →
    ∀ b, Marks w b → Marks w₀ b ∨ ∃ x ∈ w.ledger.sent, x.epoch = some b := by
  intro hall
  obtain ⟨recs, h⟩ := crossedEpoch_history
  obtain ⟨hmark, hnone, hsent⟩ := crossedEpoch_mark
  rcases hall _ _ recs rfl rfl (fun _ => rfl) (by decide) h 720 (marks_iff.mpr hmark) with
    hb | ⟨x, hx, he⟩
  · have hb' := marks_iff.mp hb
    rw [hnone] at hb'
    cases hb'
  · have hmem : x.epoch ∈ crossedEpoch.ledger.sent.map (·.epoch) := List.mem_map_of_mem hx
    rw [hsent, he] at hmem
    exact absurd hmem (by decide)

end Sn46Validator.Validator
