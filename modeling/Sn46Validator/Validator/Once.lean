/-
  File:      Validator/Once.lean
  Subject:   AT MOST ONE EFFECTIVE SUBMISSION PER EPOCH, over whole histories of runs.

  * `chainLaw` -- what is assumed of the chain: finalized heads do not go back, a success is the
    hotkey's last update from its block on, and a reported success has landed;
  * `Chronicle` -- the ledger makes sense: what landed was live, what was seen has landed, and no
    anchor is ahead of what was observed;
  * `Single` -- of two broadcasts of one epoch the earlier one is dead;
  * `submitted_once` -- **for every epoch at most one extrinsic succeeds**.
-/
import Sn46Validator.Validator.Node

namespace Sn46Validator.Validator

open Library

variable {writer : Writer} {netuid : U64} {shared : Shared}

/-! ## 1. The chain -/

/-- **The chain**, as far as a validator relies on it. The state file may be lost at any time. -/
def chainLaw (writer : Writer) : Law where
  lossy := true
  head l b := l.observed ≤ b.val ∧ b.val ≤ l.finalized
  storage l b netuid storage := ∀ (uid : Nat) (u : U64), storage.keys uid = some writer.hotkey →
    storage.lastUpdates[uid]? = some u → ∀ (i : Nat) (x : Broadcast) (m : Nat),
    l.sent[i]? = some x → x.extrinsic.genesis = writer.genesis →
    x.extrinsic.hotkey = writer.hotkey → x.extrinsic.netuid = netuid →
    l.landed i = some ⟨m, true⟩ → m ≤ b.val → m ≤ u.val
  success l := ∃ m, l.landed l.last = some ⟨m, true⟩
  encrypts := anyEncryption

/-- The head of a snapshot that was read is the highest block that was shown. -/
theorem ReadAt.head {snapshot : ChainSnapshot} {l : Ledger}
    (h : ReadAt (chainLaw writer) netuid snapshot l) :
    l.observed = snapshot.finalizedBlock.val ∧ snapshot.finalizedBlock.val ≤ l.finalized := by
  obtain ⟨l₁, l₂, n, storage, hh, hs, -, -, -, hl⟩ := h
  have hobs : l.observed = max l₁.observed snapshot.finalizedBlock.val :=
    hl.observed.trans hs.observed
  have hfin : l₁.finalized ≤ l.finalized := hs.finalized.trans hl.finalized
  refine ⟨?_, hh.2.trans hfin⟩
  rw [hobs, Nat.max_eq_right hh.1]

theorem ReadAt.lastStep_le {law : Law} {snapshot : ChainSnapshot} {l : Ledger}
    (h : ReadAt law netuid snapshot l) : snapshot.lastStep ≤ snapshot.finalizedBlock := by
  obtain ⟨-, -, -, storage, -, -, -, -, hr, -⟩ := h
  obtain ⟨-, hstep, hle, -⟩ := readStorage_ok hr
  rw [hstep]
  exact hle

/-- **The last update of a snapshot that was read** covers every success up to its head, also those
    that the chain shows only now. -/
theorem ReadAt.upto {snapshot : ChainSnapshot} {l : Ledger}
    (h : ReadAt (chainLaw writer) netuid snapshot l) {u : U64}
    (hu : UpdatedAt writer.hotkey snapshot u) {i : Nat} {x : Broadcast} {m : Nat}
    (hx : l.sent[i]? = some x) (hg : x.extrinsic.genesis = writer.genesis)
    (hk : x.extrinsic.hotkey = writer.hotkey) (hn : x.extrinsic.netuid.val = netuid.val)
    (hl : l.landed i = some ⟨m, true⟩) (hm : m ≤ snapshot.finalizedBlock.val) : m ≤ u.val := by
  obtain ⟨l₁, l₂, n, storage, hh, hs, hn', hst, hr, hd⟩ := h
  obtain ⟨uid, hkey, hget⟩ := hu
  obtain ⟨-, -, -, hlast, -, hkeys⟩ := readStorage_ok hr
  have hfin : snapshot.finalizedBlock.val ≤ l₂.finalized := hh.2.trans hs.finalized
  have hold : l₂.landed i = some ⟨m, true⟩ := by
    rcases hd.landed i with he | ⟨-, y, n, -, hl', hlt, -⟩
    · exact he ▸ hl
    · -- it landed after the storage was read, above its head
      obtain rfl : ⟨m, true⟩ = n := Option.some.inj (hl.symm.trans hl')
      exact absurd hm (by show ¬m ≤ _; have : l₂.finalized < m := hlt; omega)
  rw [hd.sent] at hx
  exact hst uid u (hkeys uid _ hkey) (hlast ▸ hget) i x m hx hg hk
    (Fin.ext (hn.trans hn'.symm)) hold hm

/-! ## 2. The ledger makes sense -/

/-- **The chronicle** of a ledger whose every extrinsic is `writer`'s, for the subnet `netuid`. -/
structure Chronicle (writer : Writer) (netuid : U64) (l : Ledger) : Prop where
  observed : l.observed ≤ l.finalized
  landed : ∀ (i : Nat) (n : Landing), l.landed i = some n → ∃ x : Broadcast, l.sent[i]? = some x ∧
    x.extrinsic.Live n.block ∧ n.block ≤ l.finalized
  seen : ∀ k ∈ l.seen, ∃ m, l.landed k = some ⟨m, true⟩ ∧ m ≤ l.observed
  anchors : ∀ (i : Nat) (x : Broadcast), l.sent[i]? = some x →
    x.extrinsic.anchor.val ≤ l.observed ∧ ∀ e, x.epoch = some e → e ≤ x.extrinsic.anchor
  own : ∀ (i : Nat) (x : Broadcast), l.sent[i]? = some x → x.extrinsic.genesis = writer.genesis ∧
    x.extrinsic.hotkey = writer.hotkey ∧ x.extrinsic.netuid.val = netuid.val
  ordered : ∀ (i j : Nat) (x y : Broadcast), l.sent[i]? = some x → l.sent[j]? = some y → i ≤ j →
    x.extrinsic.anchor ≤ y.extrinsic.anchor

/-- **A dead broadcast**: it failed, or its era passed without it. -/
def Dead (l : Ledger) (i : Nat) (x : Broadcast) : Prop :=
  (∃ m, l.landed i = some ⟨m, false⟩) ∨
    l.landed i = none ∧ x.extrinsic.anchor.val + mortalityBlocks.val ≤ l.finalized

/-- **Of two broadcasts of one epoch the earlier one is dead.** -/
def Single (l : Ledger) : Prop :=
  ∀ (i j : Nat) (x y : Broadcast) (e : U64), l.sent[i]? = some x → l.sent[j]? = some y → i < j →
    x.epoch = some e → y.epoch = some e → Dead l i x

theorem Chronicle.drift {l l' : Ledger} (h : Chronicle writer netuid l) (hd : l.Drift l') :
    Chronicle writer netuid l' where
  observed := by
    rw [hd.observed]
    exact h.observed.trans hd.finalized
  landed := by
    intro i n hl
    rw [hd.sent]
    rcases hd.landed i with he | ⟨-, x, n', hx, hl', -, hle, hlive⟩
    · obtain ⟨x, hx, hlive, hle⟩ := h.landed i n (he ▸ hl)
      exact ⟨x, hx, hlive, hle.trans hd.finalized⟩
    · obtain rfl : n = n' := Option.some.inj (hl.symm.trans hl')
      exact ⟨x, hx, hlive, hle⟩
  seen := by
    intro k hk
    rw [hd.seen] at hk
    rw [hd.observed]
    obtain ⟨m, hl, hm⟩ := h.seen k hk
    exact ⟨m, hd.keeps hl, hm⟩
  anchors := by
    rw [hd.sent, hd.observed]
    exact h.anchors
  own := by
    rw [hd.sent]
    exact h.own
  ordered := by
    rw [hd.sent]
    exact h.ordered

/-- More of the chain is observed. -/
theorem Chronicle.observes {l l' : Ledger} (h : Chronicle writer netuid l)
    (hs : l'.sent = l.sent) (hl : l'.landed = l.landed) (hf : l'.finalized = l.finalized)
    (ho : l.observed ≤ l'.observed) (hle : l'.observed ≤ l.finalized)
    (hseen : ∀ k ∈ l'.seen, k ∈ l.seen ∨ ∃ m, l.landed k = some ⟨m, true⟩ ∧ m ≤ l'.observed) :
    Chronicle writer netuid l' where
  observed := by
    rw [hf]
    exact hle
  landed := by
    rw [hs, hl, hf]
    exact h.landed
  seen := by
    intro k hk
    rw [hl]
    rcases hseen k hk with hk | hnew
    · obtain ⟨m, hm, hmo⟩ := h.seen k hk
      exact ⟨m, hm, hmo.trans ho⟩
    · exact hnew
  anchors := by
    intro i x hx
    rw [hs] at hx
    exact ⟨(h.anchors i x hx).1.trans ho, (h.anchors i x hx).2⟩
  own := by
    rw [hs]
    exact h.own
  ordered := by
    rw [hs]
    exact h.ordered

/-- One more broadcast, pinned to what was observed last. -/
theorem Chronicle.broadcast {l : Ledger} {x : Broadcast} (h : Chronicle writer netuid l)
    (ha : x.extrinsic.anchor.val = l.observed)
    (he : ∀ e, x.epoch = some e → e ≤ x.extrinsic.anchor)
    (hg : x.extrinsic.genesis = writer.genesis) (hk : x.extrinsic.hotkey = writer.hotkey)
    (hn : x.extrinsic.netuid.val = netuid.val) : Chronicle writer netuid (l.broadcast x) where
  observed := h.observed
  landed := by
    intro i n hl
    obtain ⟨y, hy, hlive, hle⟩ := h.landed i n hl
    exact ⟨y, Ledger.broadcast_old hy, hlive, hle⟩
  seen := h.seen
  anchors := by
    intro i y hy
    rcases Ledger.broadcast_get hy with ⟨hy, -⟩ | ⟨-, rfl⟩
    · exact h.anchors i y hy
    · exact ⟨ha.le, he⟩
  own := by
    intro i y hy
    rcases Ledger.broadcast_get hy with ⟨hy, -⟩ | ⟨-, rfl⟩
    · exact h.own i y hy
    · exact ⟨hg, hk, hn⟩
  ordered := by
    intro i j y z hy hz hij
    rcases Ledger.broadcast_get hz with ⟨hz, hj⟩ | ⟨hj, rfl⟩
    · rcases Ledger.broadcast_get hy with ⟨hy, -⟩ | ⟨hi, -⟩
      · exact h.ordered i j y z hy hz hij
      · omega
    · rcases Ledger.broadcast_get hy with ⟨hy, -⟩ | ⟨-, rfl⟩
      · exact Fin.le_def.mpr ((h.anchors i y hy).1.trans ha.ge)
      · exact Fin.le_def.mpr (Nat.le_refl _)

/-- The dead stay dead. -/
theorem Dead.drift {l l' : Ledger} {i : Nat} {x : Broadcast} (hx : l.sent[i]? = some x)
    (h : Dead l i x) (hd : l.Drift l') : Dead l' i x := by
  rcases h with ⟨m, hm⟩ | ⟨hn, hle⟩
  · exact .inl ⟨m, hd.keeps hm⟩
  · rcases hd.landed i with he | ⟨-, y, n, hy, -, hlt, -, hlive⟩
    · exact .inr ⟨he.trans hn, hle.trans hd.finalized⟩
    · obtain rfl : x = y := Option.some.inj (hx.symm.trans hy)
      exact absurd hlive.2 (by omega)

theorem Single.drift {l l' : Ledger} (h : Single l) (hd : l.Drift l') : Single l' := by
  intro i j x y e hx hy hij hex hey
  rw [hd.sent] at hx hy
  exact (h i j x y e hx hy hij hex hey).drift hx hd

/-- **A broadcast whose epoch is not on chain yet** finds every earlier one of that epoch dead: the
    chain was read at the anchor `b`, up to which a success of that epoch would be an update `u`. -/
theorem Chronicle.dead {l : Ledger} (h : Chronicle writer netuid l) {b u e : U64}
    (hb : b.val = l.observed) (ho : l.Over b) (hlt : u < e)
    (hupto : ∀ (k : Nat) (y : Broadcast) (m : Nat), l.sent[k]? = some y →
      l.landed k = some ⟨m, true⟩ → m ≤ b.val → m ≤ u.val)
    {i : Nat} {x : Broadcast} (hx : l.sent[i]? = some x) (he : x.epoch = some e) : Dead l i x := by
  have hea : e.val ≤ x.extrinsic.anchor.val := Fin.le_def.mp ((h.anchors i x hx).2 e he)
  have hue : u.val < e.val := Fin.lt_def.mp hlt
  -- a success from the position `i` on is above the update that was read
  have habove : ∀ (k m : Nat), i ≤ k → l.landed k = some ⟨m, true⟩ → m ≤ b.val → False := by
    intro k m hik hl hm
    obtain ⟨y, hy, hlive, -⟩ := h.landed k _ hl
    have hord : x.extrinsic.anchor.val ≤ y.extrinsic.anchor.val :=
      Fin.le_def.mp (h.ordered i k x y hx hy hik)
    have hmu := hupto k y m hy hl hm
    have hm' : y.extrinsic.anchor.val ≤ m := hlive.1
    omega
  rcases ho i x hx with ⟨k, hik, hk⟩ | hle
  · obtain ⟨m, hl, hm⟩ := h.seen k hk
    exact (habove k m hik hl (by omega)).elim
  · cases hl : l.landed i with
    | none => exact .inr ⟨hl, hle.trans (hb.trans_le h.observed)⟩
    | some n =>
      obtain ⟨m, success⟩ := n
      cases success with
      | false => exact .inl ⟨m, hl⟩
      | true =>
        obtain ⟨y, hy, hlive, -⟩ := h.landed i _ hl
        obtain rfl : x = y := Option.some.inj (hx.symm.trans hy)
        have hm : m < x.extrinsic.anchor.val + mortalityBlocks.val := hlive.2
        exact (habove i m (Nat.le_refl _) hl (by omega)).elim

/-! ## 3. The invariant -/

/-- **What every history of runs keeps.** -/
structure Sound (writer : Writer) (netuid : U64) (d : Durable) : Prop where
  apart : Apart d
  chronicle : Chronicle writer netuid d.ledger
  single : Single d.ledger

theorem Sound.drift {law : Law} {d d' : Durable} (h : Sound writer netuid d)
    (hd : Drifted law d d') : Sound writer netuid d' :=
  ⟨apart_drift h.apart hd, h.chronicle.drift hd.ledger, h.single.drift hd.ledger⟩

section

variable {c : Run shared}

/-- **A broadcast keeps it.** -/
theorem sound_sends {d d' : Durable}
    (hs : Sends (nodeSetting (chainLaw writer) writer netuid c) d d')
    (h : Sound writer netuid d) : Sound writer netuid d' := by
  have hap : Apart d' := apart_sends h.apart hs
  cases hs with
  | @intro x p guard _ _ ho hb _ =>
    obtain ⟨hgen, hkey, ⟨snapshot, u, hread, hanchor, hepoch, hu, hlt⟩, hnet⟩ := hb
    have hobs : x.anchor.val = d.ledger.observed := by rw [hanchor, hread.head.1]
    have hstep : ∀ e, d.epoch = some e → e ≤ x.anchor := by
      intro e he
      obtain rfl : e = snapshot.lastStep := Option.some.inj (he.symm.trans hepoch)
      rw [hanchor]
      exact hread.lastStep_le
    have hnew : Chronicle writer netuid (d.ledger.broadcast ⟨x, d.epoch, guard⟩) :=
      h.chronicle.broadcast hobs hstep hgen hkey hnet
    refine ⟨hap, hnew, fun i j y z e hy hz hij hey hez => ?_⟩
    rcases Ledger.broadcast_get hz with ⟨hz, hj⟩ | ⟨hj, rfl⟩
    · rcases Ledger.broadcast_get hy with ⟨hy, -⟩ | ⟨hi, -⟩
      · exact h.single i j y z e hy hz hij hey hez
      · omega
    · rcases Ledger.broadcast_get hy with ⟨hy, -⟩ | ⟨hi, -⟩
      · obtain rfl : e = snapshot.lastStep := Option.some.inj (hez.symm.trans hepoch)
        refine h.chronicle.dead hobs ho hlt (fun k y m hy' hl hm => ?_) hy hey
        obtain ⟨hg, hk, hn⟩ := h.chronicle.own k y hy'
        exact hread.upto hu hy' hg hk hn hl (hanchor ▸ hm)
      · omega

/-- **One step of a run keeps it.** -/
theorem sound_step {a : Action} {d d' : Durable}
    (hs : Step (nodeSetting (chainLaw writer) writer netuid c) a d d')
    (h : Sound writer netuid d) : Sound writer netuid d' := by
  have hap : Apart d' := apart_step hs h.apart
  cases hs with
  | broadcast hs => exact sound_sends hs h
  | @reveal _ b hb =>
    have hb' : d.ledger.observed ≤ b.val ∧ b.val ≤ d.ledger.finalized := hb
    refine ⟨hap, h.chronicle.observes rfl rfl rfl ?_ ?_ fun k hk => .inl hk, h.single⟩
    · exact Nat.le_max_left _ _
    · exact Nat.max_le.mpr ⟨h.chronicle.observed, hb'.2⟩
  | confirm hsucc hne =>
    obtain ⟨m, hm⟩ : ∃ m, d.ledger.landed d.ledger.last = some ⟨m, true⟩ := hsucc
    have hobs : d.ledger.confirmed.observed = max d.ledger.observed m := by
      rw [Ledger.confirmed, hm]
      rfl
    obtain ⟨-, -, -, hle⟩ := h.chronicle.landed _ _ hm
    refine ⟨hap, h.chronicle.observes rfl rfl rfl ?_ ?_ fun k hk => ?_, h.single⟩
    · exact hobs ▸ Nat.le_max_left _ _
    · exact hobs ▸ Nat.max_le.mpr ⟨h.chronicle.observed, hle⟩
    · rcases List.mem_cons.mp hk with rfl | hk
      · exact .inr ⟨m, hm, hobs ▸ Nat.le_max_right _ _⟩
      · exact .inl hk
  | idle => exact h
  | process => exact ⟨hap, h.chronicle, h.single⟩
  | mark => exact ⟨hap, h.chronicle, h.single⟩
  | submit => exact h
  | begin => exact ⟨hap, h.chronicle, h.single⟩
  | clear => exact ⟨hap, h.chronicle, h.single⟩

theorem sound_torn {d d' : Durable}
    (ht : Torn (nodeSetting (chainLaw writer) writer netuid c) d d')
    (h : Sound writer netuid d) : Sound writer netuid d' := by
  cases ht with
  | idle => exact h
  | broadcast hs => exact sound_sends hs h

end

/-- **Every history of runs keeps it.** -/
theorem sound_invariant (shared : Shared) (writer : Writer) (netuid : U64) :
    Invariant (nodeSystem shared (chainLaw writer) writer netuid)
      (fun c e => NodeStep (chainLaw writer) writer netuid c (action e.op e.ans) (view e.before)
        (view e.after))
      (fun c w w' => Torn (nodeSetting (chainLaw writer) writer netuid c) (view w) (view w'))
      (fun _ w => Sound writer netuid (view w)) where
  env := fun _ _ _ h hd => h.drift hd.view
  enter := by
    intro _ _ w _ h hstart
    obtain ⟨rfl, -⟩ := hstart
    exact ⟨h.apart.congr rfl rfl rfl, h.chronicle, h.single⟩
  ensures := fun _ _ _ _ h he => ⟨_, node_ensures he h.apart.guarded⟩
  step := by
    intro _ _ e hstep h
    obtain ⟨d₁, hs, hd⟩ := hstep
    exact (sound_step hs h).drift hd
  cut := fun _ _ _ _ ht h => sound_torn ht h

/-- Where nothing was sent yet. -/
theorem sound_nil {d : Durable} (hs : d.ledger.sent = []) (hseen : d.ledger.seen = [])
    (hl : ∀ i, d.ledger.landed i = none) (ho : d.ledger.observed ≤ d.ledger.finalized) :
    Sound writer netuid d where
  apart := apart_nil hs hseen
  chronicle := {
    observed := ho
    landed := fun i n h => by simp [hl] at h
    seen := fun k hk => by simp [hseen] at hk
    anchors := fun i x hx => by simp [hs] at hx
    own := fun i x hx => by simp [hs] at hx
    ordered := fun i j x y hx => by simp [hs] at hx }
  single := fun i j x y e hx => by simp [hs] at hx

/-- **At most one effective submission per epoch.** In every history of runs of one hotkey on one
    subnet that starts with nothing sent, each of them failing at any step, timing out at any await or
    killed at any point, with extrinsics that land late, fail or never land and the state file lost at
    any time: two extrinsics of the same epoch that both succeed on chain are one. -/
theorem submitted_once {w₀ w : Host}
    {recs : List (Record (nodeSystem shared (chainLaw writer) writer netuid))}
    (hsent : w₀.ledger.sent = []) (hseen : w₀.ledger.seen = [])
    (hlanded : ∀ i, w₀.ledger.landed i = none) (hobs : w₀.ledger.observed ≤ w₀.ledger.finalized)
    (h : History (nodeSystem shared (chainLaw writer) writer netuid) w₀ recs w)
    {i j : Nat} {x y : Broadcast} {e : U64} {m n : Nat}
    (hx : w.ledger.sent[i]? = some x) (hy : w.ledger.sent[j]? = some y)
    (hex : x.epoch = some e) (hey : y.epoch = some e)
    (hi : w.ledger.landed i = some ⟨m, true⟩) (hj : w.ledger.landed j = some ⟨n, true⟩) :
    i = j := by
  have hsound : Sound writer netuid (view w) :=
    History.induct (sound_invariant shared writer netuid) h (sound_nil hsent hseen hlanded hobs)
  -- the earlier one of two would be dead
  have hlate : ∀ (i j : Nat) (x y : Broadcast) (m : Nat), w.ledger.sent[i]? = some x →
      w.ledger.sent[j]? = some y → x.epoch = some e → y.epoch = some e →
      w.ledger.landed i = some ⟨m, true⟩ → ¬i < j := by
    intro i j x y m hx hy hex hey hi hij
    rcases hsound.single i j x y e hx hy hij hex hey with ⟨m', hm⟩ | ⟨hm, -⟩
    · have := hi.symm.trans hm
      simp at this
    · have := hi.symm.trans hm
      simp at this
  have h₁ := hlate i j x y m hx hy hex hey hi
  have h₂ := hlate j i y x n hy hx hey hex hj
  omega

/-! ## 4. A history of two runs -/

/-- **A node that works is such a chain.** -/
theorem obeyed_chainLaw (writer : Writer) : Obeyed writer.hotkey (chainLaw writer) where
  head := fun l b ho hb => ⟨hb ▸ ho, hb.le⟩
  storage := by
    intro l b n uid u hk hu i x m hx _ _ _ hl hm
    rw [storageAt_update hk hu]
    exact Ledger.le_lastSuccess (List.getElem?_eq_some_iff.mp hx).1 hl hm
  success := fun _ m hl => ⟨m, hl⟩

/-- The first run times out after its broadcast, which never lands; once its era is over, the second
    one submits again. -/
def resent : Host :=
  hostAfterRun (chainLaw ⟨"g", "v"⟩) true
    ((hostAfterRun (chainLaw ⟨"g", "v"⟩) false (hostAt 400) false).waits 470) false

theorem resent_landed :
    (hostAfterRun (chainLaw ⟨"g", "v"⟩) false (hostAt 400) false).ledger.finalized ≤ 470 ∧
      resent.ledger.sent.map (·.epoch) = [some 360, some 360] ∧
      resent.ledger.landed 1 = some ⟨471, true⟩ := by decide +kernel

theorem resent_history : ∃ recs, History
    (nodeSystem nodeShared (chainLaw ⟨"g", "v"⟩) ⟨"g", "v"⟩ 46) (hostAt 400) recs resent := by
  have hl := obeyed_chainLaw ⟨"g", "v"⟩
  obtain ⟨_, h₁⟩ := history_nodeRun hl .nil false false
  exact history_nodeRun hl (.env h₁ (drift_waits _ resent_landed.1)) true false

theorem submitted_once_test : resent.ledger.landed 1 = some ⟨471, true⟩ ∧
    ∀ (i : Nat) (x : Broadcast) (m : Nat), resent.ledger.sent[i]? = some x → x.epoch = some 360 →
      resent.ledger.landed i = some ⟨m, true⟩ → i = 1 := by
  obtain ⟨-, hsent, hland⟩ := resent_landed
  refine ⟨hland, fun i x m hx he hi => ?_⟩
  obtain ⟨recs, h⟩ := resent_history
  obtain ⟨y, hy, hey⟩ : ∃ y, resent.ledger.sent[1]? = some y ∧ y.epoch = some 360 := by
    apply Option.map_eq_some_iff.mp
    rw [← List.getElem?_map, hsent]
    rfl
  exact submitted_once rfl rfl (fun _ => rfl) (by decide) h hx hy he hey hi hland

end Sn46Validator.Validator
