/-
  File:      Validator/Apart.lean
  Subject:   NO TWO SUBMISSIONS ARE LIVE TOGETHER, over whole histories of submissions.

  * `Apart` -- the invariant: every broadcast is over or guarded, any two are apart, and each was
    sent with its own record on disk;
  * `apart_step`, `apart_torn`, `apart_drift` -- one step of a submission keeps it, and so does the
    chain;
  * `Foreign`, `submission_foreign` -- a record that is not of this writer, or that cannot be read,
    lets nothing through;
  * `submissions_apart` -- **between two broadcasts a success was seen, or an era has passed**.
-/
import Sn46Validator.Validator.Refine
import Sn46Validator.Validator.Testbed

namespace Sn46Validator.Validator

open Library

variable {law : Law} {s : Setting}

/-! ## 1. The invariant -/

/-- **Broadcasts that are apart.** -/
structure Apart (d : Durable) : Prop where
  guarded : Guarded d
  seen_lt : ∀ k ∈ d.ledger.seen, k < d.ledger.sent.length
  apart : ∀ i j x y, d.ledger.sent[i]? = some x → d.ledger.sent[j]? = some y → i < j →
    (∃ k, i ≤ k ∧ k < j ∧ k ∈ d.ledger.seen) ∨
      x.extrinsic.anchor.val + mortalityBlocks.val ≤ y.extrinsic.anchor.val
  recorded : ∀ x ∈ d.ledger.sent, ∃ p, Stored.of PendingSubmission.codec x.guard = .holds (some p) ∧
    Records p x.extrinsic

/-- Nothing was sent yet. -/
theorem apart_nil {d : Durable} (hs : d.ledger.sent = []) (hseen : d.ledger.seen = []) :
    Apart d where
  guarded := fun i x hx => by simp [hs] at hx
  seen_lt := fun k hk => by simp [hseen] at hk
  apart := fun i j x y hx => by simp [hs] at hx
  recorded := fun x hx => by simp [hs] at hx

/-- The chain alone changes nothing of this. -/
theorem apart_drift {d d' : Durable} (h : Apart d) (hd : Drifted law d d') : Apart d' := by
  refine ⟨h.guarded.drift hd, ?_, ?_, ?_⟩
  · rw [hd.ledger.seen, hd.ledger.sent]
    exact h.seen_lt
  · rw [hd.ledger.seen, hd.ledger.sent]
    exact h.apart
  · rw [hd.ledger.sent]
    exact h.recorded

/-- What is not about the broadcasts and their record. -/
theorem Apart.congr {d d' : Durable} (h : Apart d) (hs : d'.ledger.sent = d.ledger.sent)
    (hseen : d'.ledger.seen = d.ledger.seen) (hp : d'.pending = d.pending) : Apart d' := by
  refine ⟨fun i x hx => ?_, ?_, ?_, ?_⟩
  · rw [hs] at hx
    rw [Ledger.SeenFrom, hseen, hp]
    exact h.guarded i x hx
  · rw [hseen, hs]
    exact h.seen_lt
  · rw [hseen, hs]
    exact h.apart
  · rw [hs]
    exact h.recorded

/-- **A broadcast** that finds every earlier one over. -/
theorem apart_sends {d d' : Durable} (h : Apart d) (hs : Sends s d d') : Apart d' := by
  cases hs with
  | @intro x p guard hp hr ho hb hg =>
    refine ⟨fun i y hy => ?_, fun k hk => ?_, fun i j y z hy hz hij => ?_, fun y hy => ?_⟩
    · rcases Ledger.broadcast_get hy with ⟨hy', -⟩ | ⟨-, rfl⟩
      · exact h.guarded i y hy'
      · exact .inr ⟨p, hp, by rw [hr.expiresAt]⟩
    · exact Nat.lt_of_lt_of_le (h.seen_lt k hk) (by simp [Ledger.broadcast])
    · rcases Ledger.broadcast_get hz with ⟨hz', hj⟩ | ⟨rfl, rfl⟩
      · rcases Ledger.broadcast_get hy with ⟨hy', -⟩ | ⟨rfl, -⟩
        · exact h.apart i j y z hy' hz' hij
        · omega
      · rcases Ledger.broadcast_get hy with ⟨hy', hi⟩ | ⟨rfl, -⟩
        · rcases ho i y hy' with ⟨k, hik, hk⟩ | hle
          · exact .inl ⟨k, hik, h.seen_lt k hk, hk⟩
          · exact .inr hle
        · omega
    · rcases List.mem_append.mp hy with hy | hy
      · exact h.recorded y hy
      · rw [List.mem_singleton.mp hy]
        exact ⟨p, hg.trans hp, hr⟩

/-- **One step of a submission keeps the broadcasts apart.** -/
theorem apart_step {a : Action} {d d' : Durable} (hs : Step s a d d') (h : Apart d) : Apart d' := by
  cases hs with
  | idle => exact h
  | reveal => exact h.congr rfl rfl rfl
  | process => exact h.congr rfl rfl rfl
  | mark => exact h.congr rfl rfl rfl
  | submit => exact h
  | @begin _ p b ho he =>
    refine ⟨fun i x hx => ?_, h.seen_lt, h.apart, h.recorded⟩
    rcases ho i x hx with hseen | hle
    · exact .inl hseen
    · exact .inr ⟨p, rfl, by omega⟩
  | broadcast hs => exact apart_sends h hs
  | confirm hsucc hne =>
    have hlast : d.ledger.last < d.ledger.sent.length := by
      have := List.length_pos_iff.mpr hne
      rw [Ledger.last]
      omega
    refine ⟨fun i x hx => ?_, fun k hk => ?_, fun i j x y hx hy hij => ?_, h.recorded⟩
    · rcases h.guarded i x hx with ⟨k, hik, hk⟩ | hp
      · exact .inl ⟨k, hik, List.mem_cons_of_mem _ hk⟩
      · exact .inr hp
    · rcases List.mem_cons.mp hk with rfl | hk
      · exact hlast
      · exact h.seen_lt k hk
    · rcases h.apart i j x y hx hy hij with ⟨k, hik, hkj, hk⟩ | hle
      · exact .inl ⟨k, hik, hkj, List.mem_cons_of_mem _ hk⟩
      · exact .inr hle
  | clear hseen hne =>
    refine ⟨fun i x hx => .inl ⟨d.ledger.last, ?_, hseen⟩, h.seen_lt, h.apart, h.recorded⟩
    have hi : i < d.ledger.sent.length := (List.getElem?_eq_some_iff.mp hx).1
    rw [Ledger.last]
    omega

theorem apart_torn {d d' : Durable} (ht : Torn s d d') (h : Apart d) : Apart d' := by
  cases ht with
  | idle => exact h
  | broadcast hs => exact apart_sends h hs

/-! ## 2. Records of others -/

/-- **A record that is not of this writer and subnet**, or that cannot be read. -/
def Foreign (writer : Writer) (netuid : Nat) : Stored (Option PendingSubmission) → Prop
  | .holds (some p) => p.genesis ≠ writer.genesis ∨ p.netuid.val ≠ netuid ∨
      p.hotkey ≠ writer.hotkey
  | .malformed => True
  | _ => False

theorem stable_foreign (law : Law) (writer : Writer) (netuid : Nat) :
    Stable law fun d => Foreign writer netuid d.pending := by
  intro d d' h hd
  rw [← hd.pending] at h
  exact h

theorem refines_checkPending_foreign {d : Durable} {writer : Writer} {netuid : U16} {block : U64}
    (hf : Foreign writer netuid.val d.pending) :
    Refines s.sim (checkPending writer netuid block).run (OnOk fun _ _ => False) d := by
  refine refines_then (refines_read .submission) fun x d₁ ⟨_, hok, hnone⟩ => ?_
  match x with
  | .ok raw =>
    have hp : d.pending = .of PendingSubmission.codec (some raw) := hok raw rfl
    rw [hp, Stored.of] at hf
    dsimp only
    cases hdec : PendingSubmission.codec.decode raw with
    | none => exact refines_fail
    | some pending =>
      rw [hdec] at hf
      refine refines_exceptMap fun u hu => ?_
      cases pending with
      | none => exact hf
      | some p =>
        rw [Writer.judge] at hu
        split_ifs at hu with h₁ h₂
        · cases hu
        · cases hu
        · rcases hf with hg | hn | hh
          · exact h₁ (.inl hg)
          · exact h₁ (.inr (.inl fun he => hn (congrArg Fin.val he)))
          · exact h₁ (.inr (.inr hh))
  | .error .notFound =>
    have hp : d.pending = .absent := hnone (.inl rfl)
    rw [hp] at hf
    exact hf.elim
  | .error .notADirectory => exact refines_fail
  | .error .alreadyExists => exact refines_fail
  | .error .other => exact refines_fail

/-- **Such a record stops a submission** before anything is sent. -/
theorem refines_submitAt_foreign (s : Setting) {d : Durable} {writer : Writer}
    {netuid : U64} (block : U64) (miners : List MinerScore) (policy : BurnPolicy)
    (hf : Foreign writer netuid.val d.pending) :
    Refines s.sim (submitAt writer netuid block miners policy).run (OnOk fun _ _ => False) d := by
  have hK := stable_foreign s.law writer netuid.val
  refine refines_then (refines_ask hK hf) fun r d₁ h₁ => ?_
  refine refines_then (refines_awaited (P := fun _ d' => Foreign writer netuid.val d'.pending)
    fun _ _ => h₁) fun _ d₂ h₂ => ?_
  cases hn : narrow (2 ^ 16) netuid with
  | none => exact refines_fail
  | some n =>
    rw [← narrow_val hn] at h₂
    exact refines_then (refines_checkPending_foreign h₂) fun _ _ h => h.elim

/-- What a call may do that never gets to its broadcast. -/
def silent (law : Law) : Setting := ⟨law, fun _ => False, fun _ _ => False, fun _ _ => False⟩

theorem silent_step {a : Action} {d d' : Durable} (h : Step (silent law) a d d') :
    a ≠ .broadcast ∧ d'.ledger.sent = d.ledger.sent := by
  cases h with
  | broadcast hs =>
    cases hs with
    | intro _ _ _ hb => exact hb.elim
  | _ => exact ⟨(fun h => by cases h), rfl⟩

theorem silent_torn {d d' : Durable} (h : Torn (silent law) d d') :
    d'.ledger.sent = d.ledger.sent := by
  cases h with
  | idle => rfl
  | broadcast hs =>
    cases hs with
    | intro _ _ _ hb => exact hb.elim

/-- **A record that is not the writer's lets no broadcast through.** -/
theorem submission_foreign {writer : Writer} {netuid block : U64} {miners : List MinerScore}
    {policy : BurnPolicy} {w w' : Host} {tr : List (Event (machine law))}
    {o : Option (Except Fault String)}
    (hf : Foreign writer netuid.val (.of PendingSubmission.codec (w.files (.file .submission))))
    (hx : Exec (machine law) w (submitAt writer netuid block miners policy).run tr o w') :
    w'.ledger.sent = w.ledger.sent ∧ ∀ e ∈ tr, action e.op e.ans ≠ .broadcast := by
  have hd : Foreign writer netuid.val (view w).pending := hf
  have hE := (refines_submitAt_foreign (silent law) block miners policy hd).ensures w rfl
  refine Exec.induct (P := fun (tr : List (Event (machine law))) (w₁ : Host) =>
    w₁.ledger.sent = w.ledger.sent ∧ ∀ e ∈ tr, action e.op e.ans ≠ .broadcast) (t := [])
    ?_ ?_ hx hE ⟨rfl, by simp⟩
  · intro tr e hstep hinv
    obtain ⟨d₁, hs, hd⟩ := hstep
    obtain ⟨hsent, hall⟩ := hinv
    obtain ⟨hne, hsame⟩ := silent_step hs
    refine ⟨(hd.ledger.sent.trans hsame).trans hsent, fun e' he' => ?_⟩
    rcases List.mem_append.mp he' with h | h
    · exact hall e' h
    · rw [List.mem_singleton.mp h]
      exact hne
  · intro tr w₁ w₂ ht hinv
    obtain ⟨hsent, hall⟩ := hinv
    exact ⟨(silent_torn ht).trans hsent, hall⟩

/-! ## 3. Histories -/

/-- **A submission.** -/
structure Submission where
  writer : Writer
  netuid : U64
  finalizedBlock : U64
  miners : List MinerScore
  policy : BurnPolicy

/-- **Submissions**, one after another. -/
@[reducible] def submissions (law : Law) : System iface where
  machine := machine law
  Call := Submission
  Out := Except Fault String
  prog c := (submitAt c.writer c.netuid c.finalizedBlock c.miners c.policy).run
  enter _ w w' := w' = w
  env w w' := Drift law w w'

/-- What a submission may do of which nothing else is known. -/
def openSetting (law : Law) : Setting :=
  ⟨law, fun _ => False, fun _ _ => True, fun _ _ => True⟩

theorem submission_ensures (c : Submission) {w : Host} (h : Apart (view w)) :
    Ensures (machine law) (fun e => ∃ d₁, Step (openSetting law) (action e.op e.ans)
        (view e.before) d₁ ∧ Drifted law d₁ (view e.after))
      (fun w w' => Torn (openSetting law) (view w) (view w'))
      (submitAt c.writer c.netuid c.finalizedBlock c.miners c.policy).run (fun _ _ => True) w := by
  have hF : Aside (openSetting law).law fun _ => True :=
    ⟨fun _ _ _ _ => trivial, fun _ _ _ => trivial, fun _ _ _ => trivial⟩
  have hr : Refines (openSetting law).sim
      (submitAt c.writer c.netuid c.finalizedBlock c.miners c.policy).run
      (OnOk fun _ d' => True ∧ Achieved law d') (view w) :=
    refines_submitAt (C := fun _ => True) (F := fun _ => True) (fun _ _ _ _ => trivial)
      (fun _ _ _ => trivial) (fun _ _ _ _ _ => trivial) hF trivial trivial h.guarded
  exact (hr.ensures w rfl).post fun _ _ _ => trivial

/-- **Every history of submissions keeps its broadcasts apart.** -/
theorem apart_invariant (law : Law) : Invariant (submissions law)
    (fun _ e => ∃ d₁, Step (openSetting law) (action e.op e.ans) (view e.before) d₁ ∧
      Drifted law d₁ (view e.after))
    (fun _ w w' => Torn (openSetting law) (view w) (view w'))
    (fun _ w => Apart (view w)) where
  env := fun _ _ _ h hd => apart_drift h hd.view
  enter := by
    intro _ _ _ _ h he
    subst he
    exact h
  ensures := by
    intro _ c _ _ h he
    subst he
    exact ⟨_, submission_ensures c h⟩
  step := by
    intro _ _ e hstep h
    obtain ⟨d₁, hs, hd⟩ := hstep
    exact apart_drift (apart_step hs h) hd
  cut := fun _ _ _ _ ht h => apart_torn ht h

/-- Where the anchors never go back, the success that lies between two broadcasts is the first one's
    own, or an era has passed. -/
theorem Apart.ordered {d : Durable} (h : Apart d)
    (hm : ∀ (i j : Nat) (x y : Broadcast), d.ledger.sent[i]? = some x →
      d.ledger.sent[j]? = some y → i < j → x.extrinsic.anchor ≤ y.extrinsic.anchor)
    {i j : Nat} {x y : Broadcast} (hx : d.ledger.sent[i]? = some x)
    (hy : d.ledger.sent[j]? = some y) (hij : i < j) :
    i ∈ d.ledger.seen ∨
      x.extrinsic.anchor.val + mortalityBlocks.val ≤ y.extrinsic.anchor.val := by
  induction j using Nat.strong_induction_on generalizing y with
  | _ j ih =>
    rcases h.apart i j x y hx hy hij with ⟨k, hik, hkj, hk⟩ | hle
    · by_cases he : k = i
      · exact .inl (he ▸ hk)
      · -- the era passed before the broadcast that succeeded
        obtain ⟨z, hz⟩ : ∃ z, d.ledger.sent[k]? = some z :=
          ⟨_, List.getElem?_eq_getElem (h.seen_lt k hk)⟩
        rcases ih k hkj hz (by omega) with hs | hle
        · exact .inl hs
        · exact .inr (hle.trans (hm k j z y hz hy hkj))
    · exact .inr hle

/-- **No two submissions are live together.** In every history of submissions that starts with nothing
    sent, each of them failing at any step, timing out at any await or killed at any point:

    * between two broadcasts, some broadcast from the first on was seen finalized with success, or
      the second is anchored a whole era after the first;
    * where the anchors never go back, that success is the first one's own;
    * each broadcast was sent with its own record on disk.

    And a submission that finds a record of another genesis, subnet or hotkey, or one that it cannot
    read, sends nothing. -/
theorem submissions_apart {w₀ w : Host} {recs : List (Record (submissions law))}
    (hsent : w₀.ledger.sent = []) (hseen : w₀.ledger.seen = [])
    (h : History (submissions law) w₀ recs w) :
    (∀ (i j : Nat) (x y : Broadcast), w.ledger.sent[i]? = some x → w.ledger.sent[j]? = some y →
      i < j → (∃ k, i ≤ k ∧ k < j ∧ k ∈ w.ledger.seen) ∨
        x.extrinsic.anchor.val + mortalityBlocks.val ≤ y.extrinsic.anchor.val) ∧
    ((∀ (i j : Nat) (x y : Broadcast), w.ledger.sent[i]? = some x → w.ledger.sent[j]? = some y →
        i < j → x.extrinsic.anchor ≤ y.extrinsic.anchor) →
      ∀ (i j : Nat) (x y : Broadcast), w.ledger.sent[i]? = some x → w.ledger.sent[j]? = some y →
        i < j → i ∈ w.ledger.seen ∨
          x.extrinsic.anchor.val + mortalityBlocks.val ≤ y.extrinsic.anchor.val) ∧
    (∀ x ∈ w.ledger.sent, ∃ p, Stored.of PendingSubmission.codec x.guard = .holds (some p) ∧
      Records p x.extrinsic) ∧
    ∀ c : Submission, Foreign c.writer c.netuid.val (.of PendingSubmission.codec
        (w.files (.file .submission))) →
      ∀ tr o w', Exec (machine law) w ((submissions law).prog c) tr o w' →
        w'.ledger.sent = w.ledger.sent ∧ ∀ e ∈ tr, action e.op e.ans ≠ .broadcast := by
  have hap : Apart (view w) := History.induct (apart_invariant law) h (apart_nil hsent hseen)
  exact ⟨hap.apart, fun hm i j x y hx hy hij => hap.ordered hm hx hy hij, hap.recorded,
    fun c hf tr o w' hx => submission_foreign hf hx⟩

/-- A submission of the tests. -/
def testSubmission (block : U64) : Submission :=
  ⟨⟨"g", "v"⟩, 46, block, [⟨0, 65535⟩], .fixed .none⟩

/-- The host that a submission leaves. -/
def hostAfter (patient : Bool) (w : Host) (c : Submission) : Host :=
  (((submissions anyLaw).prog c).eval (M := machine anyLaw) (calm "v" patient) w).2.2

/-- A submission of a history. -/
theorem history_submitted {w₀ w : Host} {recs : List (Record (submissions anyLaw))}
    (h : History (submissions anyLaw) w₀ recs w) (patient : Bool) (c : Submission) :
    ∃ recs', History (submissions anyLaw) w₀ recs' (hostAfter patient w c) :=
  ⟨_, .run h rfl (Exec.eval (M := machine anyLaw) (act_calm (obeyed_anyLaw "v") patient)
    ((submissions anyLaw).prog c) w)⟩

/-- **Two eras that overlap.** A submission is anchored at 100 and times out; one at 164 succeeds, and
    its record is removed; then one is anchored at 110. -/
def crossed : Host :=
  hostAfter false (hostAfter true (hostAfter false (hostAt 163) (testSubmission 100))
    (testSubmission 164)) (testSubmission 110)

theorem crossed_history : ∃ recs, History (submissions anyLaw) (hostAt 163) recs crossed := by
  have h₀ : History (submissions anyLaw) (hostAt 163) [] (hostAt 163) := .nil
  obtain ⟨_, h₁⟩ := history_submitted h₀ false (testSubmission 100)
  obtain ⟨_, h₂⟩ := history_submitted h₁ true (testSubmission 164)
  exact history_submitted h₂ false (testSubmission 110)

theorem crossed_sent : crossed.ledger.sent[0]?.map (·.extrinsic.anchor.val) = some 100 ∧
    crossed.ledger.sent[2]?.map (·.extrinsic.anchor.val) = some 110 ∧
    crossed.ledger.seen = [1] := by decide +kernel

theorem submissions_apart_test : ∃ x y, crossed.ledger.sent[0]? = some x ∧
    crossed.ledger.sent[2]? = some y ∧ ((∃ k, 0 ≤ k ∧ k < 2 ∧ k ∈ crossed.ledger.seen) ∨
      x.extrinsic.anchor.val + mortalityBlocks.val ≤ y.extrinsic.anchor.val) := by
  obtain ⟨recs, h⟩ := crossed_history
  obtain ⟨hfirst, hthird, -⟩ := crossed_sent
  obtain ⟨x, hx, -⟩ := Option.map_eq_some_iff.mp hfirst
  obtain ⟨y, hy, -⟩ := Option.map_eq_some_iff.mp hthird
  exact ⟨x, y, hx, hy, (submissions_apart rfl rfl h).1 0 2 x y hx hy (by decide)⟩

/-- **Where an anchor goes back**, two submissions can be live together though the first did not
    succeed. -/
theorem submissions_cross : ¬∀ (w₀ w : Host) (recs : List (Record (submissions anyLaw))),
    w₀.ledger.sent = [] → w₀.ledger.seen = [] → History (submissions anyLaw) w₀ recs w →
    ∀ (i j : Nat) (x y : Broadcast), w.ledger.sent[i]? = some x → w.ledger.sent[j]? = some y →
      i < j → i ∈ w.ledger.seen ∨
        x.extrinsic.anchor.val + mortalityBlocks.val ≤ y.extrinsic.anchor.val := by
  intro hall
  obtain ⟨recs, h⟩ := crossed_history
  obtain ⟨hfirst, hthird, hseen⟩ := crossed_sent
  obtain ⟨x, hx, hax⟩ := Option.map_eq_some_iff.mp hfirst
  obtain ⟨y, hy, hay⟩ := Option.map_eq_some_iff.mp hthird
  rcases hall (hostAt 163) crossed recs rfl rfl h 0 2 x y hx hy (by decide) with hs | hle
  · rw [hseen] at hs
    exact absurd hs (by decide)
  · rw [hax, hay] at hle
    exact absurd hle (by decide)

end Sn46Validator.Validator
