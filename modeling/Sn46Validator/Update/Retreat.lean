/-
  File:      Update/Retreat.lean
  Subject:   ONE RUN ON A DISK THAT CAN LOSE POWER: wherever it stops, there is a way back.

  * `Solid` -- what a name holds is synced; `Elsewhere` -- the directory of `install_path` was not
    touched; `Moved` -- a synced file was renamed;
  * `Stands` -- what a run knows once `pending.json` is there to stay, and while it rolls back;
    `Idle` -- before a swap; `Rests` -- at its start;
  * `leaves_*` -- one rule for each function of the run;
  * `leaves_run` -- the whole run, from its start.
-/
import Sn46Validator.Update.Power

namespace Sn46Validator.Update

open Library Disk

variable {crypto : Crypto} {reports : Bytes → Option String} {key : crypto.Key}

/-! ## 1. What a name holds -/

section

variable {w w' w'' : Powered} {p t : Path} {x : Bytes}

/-- The name holds `x`, and its file is synced. -/
def Solid (p : Path) (x : Bytes) (w : Powered) : Prop := w.files p = some x ∧ Firm p w.disk

theorem Solid.now (h : Solid p x w) : ∃ i, w.disk.names p = some i ∧ w.disk.synced i ∧
    w.disk.data i = x := by
  obtain ⟨i, hi, hx⟩ := Option.map_eq_some_iff.mp h.1
  exact ⟨i, hi, h.2 i hi, hx⟩

/-- **The directory of `install_path` was not touched.** -/
structure Elsewhere (w w' : Powered) : Prop where
  files : ∀ p, p.dir = .install → w'.files p = w.files p
  firm : ∀ p, p.dir = .install → Firm p w.disk → Firm p w'.disk
  proven : ∀ b, w.proven b → w'.proven b
  healthy : w'.healthy = w.healthy

theorem Elsewhere.solid (h : Elsewhere w w') (hp : p.dir = .install) (hs : Solid p x w) :
    Solid p x w' := ⟨(h.files p hp).trans hs.1, h.firm p hp hs.2⟩

theorem Elsewhere.trans (h : Elsewhere w w') (h' : Elsewhere w' w'') : Elsewhere w w'' :=
  ⟨fun p hp => (h'.files p hp).trans (h.files p hp), fun p hp hf => h'.firm p hp (h.firm p hp hf),
    fun b hb => h'.proven b (h.proven b hb), h'.healthy.trans h.healthy⟩

/-- A file of the state directory is touched. -/
theorem Touched.elsewhere (h : Touched t w w') (ht : t.dir = .state)
    (hp : ∀ b, w.proven b → w'.proven b) (hh : w'.healthy = w.healthy) : Elsewhere w w' := by
  have hne : ∀ q : Path, q.dir = .install → q ≠ t := by
    intro q hq he
    rw [he, ht] at hq
    cases hq
  obtain ⟨c, hc⟩ := h.files
  refine ⟨fun q hq => ?_, fun q hq hf => h.firm q (hne q hq) hf, hp, hh⟩
  show w'.disk.files q = w.disk.files q
  rw [hc, Function.update_of_ne (hne q hq)]

/-- **A synced file was renamed**: the rename is done, or a power loss undoes it. -/
structure Moved (p q : Path) (x : Bytes) (w w' : Powered) : Prop where
  tidy : Tidy Path.dir Path.Written w'.disk
  lost : ∀ f, Lost w'.disk f → ∃ g, Lost w.disk g ∧ (∀ r, r ≠ p → r ≠ q → f r = g r) ∧
    (f p = g p ∧ f q = g q ∨ f p = none ∧ f q = some x)
  files : ∀ r, r ≠ p → r ≠ q → w'.files r = w.files r
  gone : w'.files p = none
  put : Solid q x w'
  firm : ∀ r, r ≠ q → Firm r w.disk → Firm r w'.disk
  proven : w'.proven = w.proven
  healthy : w'.healthy = w.healthy

/-- The rename of a file to another name of its directory. -/
theorem moved {q : Path} (op : FileOp Path) (ht : Tidy Path.dir Path.Written w.disk)
    (hx : Solid p x w) (hp : p.Written) (hq : ¬q.Written) (hdir : p.dir = q.dir) :
    Moved p q x w (w.filed op (w.disk.move p q)) := by
  obtain ⟨i, hi, hsync, rfl⟩ := hx.now
  have hne : q ≠ p := fun he => hq (he ▸ hp)
  have hfiles : (w.disk.move p q).files = _ := files_move hi hne
  refine ⟨tidy_move ht hp hq hdir, fun f hf => ?_, fun r hrp hrq => ?_, ?_, ⟨?_, ?_⟩, ?_, rfl, rfl⟩
  · rcases lost_move hi hsync hf with hf | ⟨g, hg, rfl⟩
    · exact ⟨f, hf, fun _ _ _ => rfl, .inl ⟨rfl, rfl⟩⟩
    · refine ⟨g, hg, fun r hrp hrq => ?_, .inr ⟨Function.update_self _ _ _, ?_⟩⟩
      · rw [Function.update_of_ne hrp, Function.update_of_ne hrq]
      · rw [Function.update_of_ne hne, Function.update_self]
  · show (w.disk.move p q).files r = w.disk.files r
    rw [hfiles, Function.update_of_ne hrp, Function.update_of_ne hrq]
  · show (w.disk.move p q).files p = none
    rw [hfiles, Function.update_self]
  · show (w.disk.move p q).files q = some _
    rw [hfiles, Function.update_of_ne hne, Function.update_self]
  · exact firm_move hx.2 fun h => absurd rfl h
  · exact fun r hr hf => firm_move hx.2 fun _ => hf

theorem Moved.elsewhere {q : Path} (h : Moved p q x w w') (hp : p.dir = .state)
    (hq : q.dir = .state) : Elsewhere w w' := by
  have hne : ∀ r : Path, r.dir = .install → r ≠ p ∧ r ≠ q := by
    intro r hr
    refine ⟨?_, ?_⟩ <;> intro he <;> subst he
    · exact absurd (hr.symm.trans hp) nofun
    · exact absurd (hr.symm.trans hq) nofun
  refine ⟨fun r hr => h.files r (hne r hr).1 (hne r hr).2, fun r hr hf => h.firm r (hne r hr).2 hf,
    fun b hb => h.proven ▸ hb, h.healthy⟩

variable {F : Option Bytes → Option Bytes → Prop} {G : Option Bytes → Prop}

/-- **The directory of `install_path` is synced.** -/
theorem Knows.settled (hk : Knows F G w) (hp : Firm .previous w.disk)
    (hw : w' = w.filed .sync (w.disk.settleIn fun p => p.dir = .install)) :
    Knows (fun i q => i = w.files .install ∧ q = w.files .previous) G w' := by
  subst hw
  have hk' := (aside_settleIn hk.tidy .sync .install).knows hk
  refine ⟨hk'.tidy, hk'.installed, hk'.pending, hk'.readable, fun f hf => ?_, hk'.record⟩
  exact ⟨(lost_settleIn hf).2.2 _ rfl hk.installed, (lost_settleIn hf).2.2 _ rfl hp⟩

/-- The state directory is synced. -/
theorem Knows.noted (hk : Knows F G w)
    (hw : w' = w.filed .sync (w.disk.settleIn fun p => p.dir = .state)) :
    Knows F (· = w.files (.state .pending)) w' := by
  subst hw
  have hk' := (aside_settleIn hk.tidy .sync .state).knows hk
  refine ⟨hk'.tidy, hk'.installed, hk'.pending, hk'.readable, hk'.binaries, fun f hf => ?_⟩
  exact (lost_settleIn hf).2.2 _ rfl hk.pending

/-- `pending.json` is put in place. -/
theorem Knows.renamed (hk : Knows F G w)
    (h : Moved (.temporary .pending) (.state .pending) x w w') :
    Knows F (fun g => G g ∨ g = some x) w' := by
  refine ⟨h.tidy, h.firm _ nofun hk.installed, h.put.2, fun f hf => ?_, fun f hf => ?_,
    fun f hf => ?_⟩
  · obtain ⟨g, hg, he, -⟩ := h.lost f hf
    rw [he (.state .failed) nofun (by simp)]
    exact hk.readable g hg
  · obtain ⟨g, hg, he, -⟩ := h.lost f hf
    rw [he .install nofun nofun, he .previous nofun nofun]
    exact hk.binaries g hg
  · obtain ⟨g, hg, -, ⟨-, he⟩ | ⟨-, he⟩⟩ := h.lost f hf
    · exact .inl (he ▸ hk.record g hg)
    · exact .inr he

/-- A binary is renamed over the installed one. -/
theorem Knows.swapped {F' : Option Bytes → Option Bytes → Prop} (hk : Knows F G w)
    (hm : Moved t .install x w w') (ht : ∀ s, .state s ≠ t)
    (hF : ∀ f g : Files Path, F (g .install) (g .previous) →
      (∀ r, r ≠ t → r ≠ .install → f r = g r) →
      (f t = g t ∧ f .install = g .install ∨ f t = none ∧ f .install = some x) →
      F' (f .install) (f .previous)) : Knows F' G w' := by
  refine ⟨hm.tidy, hm.put.2, hm.firm _ nofun hk.pending, fun f hl => ?_, fun f hl => ?_,
    fun f hl => ?_⟩
  · obtain ⟨g, hg, he, -⟩ := hm.lost f hl
    rw [he _ (ht .failed) nofun]
    exact hk.readable g hg
  · obtain ⟨g, hg, he, hpair⟩ := hm.lost f hl
    exact hF f g (hk.binaries g hg) he hpair
  · obtain ⟨g, hg, he, -⟩ := hm.lost f hl
    rw [he _ (ht .pending) nofun]
    exact hk.record g hg

/-- A sync of a directory leaves what names hold now. -/
theorem Solid.settled {a : Dir} (h : Solid p x w)
    (hw : w' = w.filed .sync (w.disk.settleIn fun p => p.dir = a)) : Solid p x w' := hw ▸ h

end

/-! ## 2. Staging -/

section Rules

variable {w : Powered} {α β : Type}

theorem leaves_orThrow {x : Except UpdateError α} {f : α → Run β}
    {Q : Except UpdateError β → Powered → Prop}
    (hok : ∀ a, x = .ok a → Leaves reports key (f a).run Q w)
    (herr : ∀ e, x = .error e → Q (.error e) w) : Leaves reports key (orThrow x >>= f).run Q w := by
  cases x with
  | ok a => exact hok a rfl
  | error e => exact herr e rfl

theorem leaves_io {x : Except IoError α} {f : α → Run β} {Q : Except UpdateError β → Powered → Prop}
    (hok : ∀ a, x = .ok a → Leaves reports key (f a).run Q w)
    (herr : ∀ e, x = .error e → Q (.error (.io e)) w) :
    Leaves reports key (io x >>= f).run Q w := by
  cases x with
  | ok a => exact hok a rfl
  | error e => exact herr e rfl

/-- **`check_disk`.** -/
theorem leaves_checkDisk {c : Call crypto} {m : Manifest}
    {Q : Except UpdateError Unit → Powered → Prop} (hs : Secure reports key w)
    (h : ∀ r w', Aside w w' → Q r w') : Leaves reports key (checkDisk c m).run Q w := by
  have hsame : Aside w w := aside_idle hs.tidy rfl (fun _ hb => hb) rfl
  refine leaves_orThrow (fun available _ => ?_) fun e _ => h _ _ hsame
  split_ifs
  · exact leaves_bind (leaves_writeJson hs nofun nofun fun r w' hw =>
      ⟨fun _ _ => h _ _ hw, fun _ _ => h _ _ hw⟩)
  · refine leaves_lift (leaves_remove hs id nofun fun x w' hside => ?_)
    cases x with
    | ok u => exact h _ _ hside
    | error e => cases e <;> exact h _ _ hside

/-- **`stage`** leaves the binary of the manifest, synced, or fails. -/
theorem leaves_stage {c : Call crypto} {m : Manifest}
    {Q : Except UpdateError Unit → Powered → Prop} (hs : Secure reports key w)
    (hok : ∀ x w', Aside w w' → Matches crypto reports m x → Solid .staged x w' → Q (.ok ()) w')
    (herr : ∀ e w', Aside w w' → Q (.error e) w') : Leaves reports key (stage c m).run Q w := by
  have hsame : Aside w w := aside_idle hs.tidy rfl (fun _ hb => hb) rfl
  refine leaves_orThrow (fun binary hd => ?_) fun e _ => herr _ _ hsame
  obtain ⟨hsize, hsha⟩ := download_ok hd
  refine leaves_removeStaged hs fun w₁ h₁ => ?_
  have hs₁ := h₁.secure hs
  have hside : ∀ {d}, Touches Path.dir Path.Written .staged w₁.disk d →
      Aside w₁ (w₁.filed (.create .staged binary) d) := fun h => aside_touches h id nofun
  refine leaves_lift (leaves_perform (fun w' hc => ?_) fun x w₂ ha _ => ?_)
  · obtain ⟨d, hc, rfl⟩ := hc
    exact (hside (touches_spoilt hs₁.tidy trivial hc.2)).secure hs₁
  · obtain ⟨d, ⟨-, rfl, i, d₁, ho, rfl⟩ | ⟨-, rfl, rfl⟩ | ⟨-, rfl, hc⟩, rfl⟩ := ha
    · obtain ⟨ht, hfiles, hfirm⟩ := touches_synced (t := Path.staged) hs₁.tidy trivial ho
      have h₂ := h₁.trans (hside ht)
      have hsolid : Solid .staged binary (w₁.filed (.create .staged binary) (d₁.flush i)) := by
        refine ⟨?_, hfirm⟩
        show (d₁.flush i).files .staged = some binary
        rw [hfiles, Function.update_self]
      refine ⟨(hside ht).secure hs₁,
        leaves_lift (leaves_perform (fun _ hc => hc.elim) fun x w₃ ha _ => ?_)⟩
      cases x with
      | error e =>
        obtain ⟨rfl, -⟩ := ha
        exact ⟨(hside ht).secure hs₁, herr _ _ h₂⟩
      | ok out =>
        obtain ⟨rfl, b, hb, hout⟩ := ha
        obtain rfl : binary = b := Option.some.inj (hsolid.1.symm.trans hb)
        refine ⟨(hside ht).secure hs₁, ?_⟩
        dsimp only
        split_ifs with hv
        · exact herr _ _ h₂
        · exact hok binary _ h₂ ⟨hsize, hsha, by rw [hout, not_not.mp hv]⟩ hsolid
    · have h₂ : Aside w₁ (w₁.filed (.create .staged binary) w₁.disk) :=
        aside_idle hs₁.tidy rfl (fun _ hb => hb) rfl
      exact ⟨h₂.secure hs₁, herr _ _ (h₁.trans h₂)⟩
    · have h₂ := hside (touches_spoilt (t := Path.staged) hs₁.tidy trivial hc)
      exact ⟨h₂.secure hs₁, herr _ _ (h₁.trans h₂)⟩

/-! ## 3. Renames, and `pending.json` -/

/-- **A synced file is renamed**, or not. -/
theorem leaves_rename {p q : Path} {x : Bytes} {Q : Except IoError Unit → Powered → Prop}
    (hs : Secure reports key w) (hx : Solid p x w) (hp : p.Written) (hq : ¬q.Written)
    (hdir : p.dir = q.dir) (hmoved : ∀ w', Moved p q x w w' → Secure reports key w')
    (hok : ∀ w', Moved p q x w w' → w'.due = .directory q.dir → Q (.ok ()) w')
    (herr : ∀ w' e, Aside w w' → Elsewhere w w' → Q (.error e) w') :
    Leaves reports key (Prog.perform (I := iface) (.fs (.rename p q))) Q w := by
  refine leaves_perform (fun w' hc => hc.elim fun _ hc => hc.1.elim) fun y w' ha _ => ?_
  have hside : Aside w (w.filed (.rename p q) w.disk) :=
    aside_idle hs.tidy rfl (fun _ hb => hb) rfl
  have helse : Elsewhere w (w.filed (.rename p q) w.disk) :=
    ⟨fun _ _ => rfl, fun _ _ h => h, fun _ hb => hb, rfl⟩
  obtain ⟨d, ⟨-, rfl, rfl⟩ | ⟨-, rfl, rfl⟩ | ⟨rfl, rfl⟩, rfl⟩ := ha
  · have hm : Moved p q x w _ := moved (.rename p q) hs.tidy hx hp hq hdir
    exact ⟨hmoved _ hm, hok _ hm rfl⟩
  · exact ⟨hside.secure hs, herr _ _ hside helse⟩
  · exact ⟨hside.secure hs, herr _ _ hside helse⟩

section

variable {F : Option Bytes → Option Bytes → Prop} {G : Option Bytes → Prop}

/-- **`pending.json` is written**: until the directory is synced it may come back as it was. -/
theorem leaves_writePending {bytes : Bytes} {Q : Except UpdateError Unit → Powered → Prop}
    (hk : Knows F G w) (hold : ∀ i q g, F i q → G g → WayBack reports key w.proven i q g)
    (hnew : ∀ i q, F i q → WayBack reports key w.proven i q (some bytes))
    (hok : ∀ w', Knows F (· = some bytes) w' → Elsewhere w w' → Q (.ok ()) w')
    (herr : ∀ e w', Knows F G w' → Elsewhere w w' → Q (.error e) w') :
    Leaves reports key (writeJson .pending bytes).run Q w := by
  have hs := hk.secure hold
  refine leaves_lift (leaves_write hs (fun w₁ i h₁ ht hi hsync hx => ?_) fun w₁ e h₁ ht =>
    herr _ _ (h₁.knows hk) (ht.elsewhere rfl h₁.proven h₁.healthy))
  have hk₁ := h₁.knows hk
  have he₁ : Elsewhere w w₁ := ht.elsewhere rfl h₁.proven h₁.healthy
  have hsolid : Solid (.temporary .pending) bytes w₁ := by
    refine ⟨?_, fun j hj => Option.some.inj (hi.symm.trans hj) ▸ hsync⟩
    show (w₁.disk.names _).map _ = _
    rw [hi, Option.map_some, hx]
  have hsecure : ∀ w₂, Moved (.temporary .pending) (.state .pending) bytes w₁ w₂ →
      Secure reports key w₂ := fun w₂ hm => (hk₁.renamed hm).secure fun i q g hF hG => by
    refine WayBack.mono (hm.proven ▸ h₁.proven) ?_
    rcases hG with hG | rfl
    · exact hold i q g hF hG
    · exact hnew i q hF
  refine leaves_lift (leaves_rename (h₁.secure hs) hsolid trivial id rfl hsecure
    (fun w₂ hm hdue => ?_) fun w₂ e h₂ he₂ => herr _ _ (h₂.knows hk₁) (he₁.trans he₂))
  refine leaves_lift (leaves_sync (hsecure w₂ hm) hdue fun w₃ hw₃ h₃ => ?_)
  have hk₃ := (hk₁.renamed hm).noted hw₃
  rw [hm.put.1] at hk₃
  refine hok w₃ hk₃ ((he₁.trans (hm.elsewhere rfl rfl)).trans ?_)
  exact ⟨fun p _ => hw₃ ▸ rfl, fun p _ hf => hw₃ ▸ hf, h₃.proven, h₃.healthy⟩

/-- **`pending.json` is removed**, or not. -/
theorem leaves_removePending {Q : Except IoError Unit → Powered → Prop} (hk : Knows F G w)
    (hold : ∀ i q g, F i q → G g → WayBack reports key w.proven i q g)
    (hnew : ∀ i q, F i q → WayBack reports key w.proven i q none)
    (h : ∀ x w', Knows F (fun g => G g ∨ g = none) w' → Elsewhere w w' → Q x w') :
    Leaves reports key (Prog.perform (I := iface) (.fs (.remove (.state .pending)))) Q w := by
  refine leaves_perform (fun w' hc => hc.elim fun _ hc => hc.1.elim) fun x w' ha _ => ?_
  have hboth : Knows F (fun g => G g ∨ g = none) w' ∧ Elsewhere w w' := by
    have hstay : ∀ w', w' = w.filed (.remove (.state .pending)) w.disk →
        Knows F (fun g => G g ∨ g = none) w' ∧ Elsewhere w w' := by
      intro w' hw'
      subst hw'
      refine ⟨?_, fun _ _ => rfl, fun _ _ h => h, fun _ hb => hb, rfl⟩
      exact ((aside_idle hk.tidy rfl (fun _ hb => hb) rfl).knows hk).mono (fun _ _ h => h)
        fun _ h => .inl h
    obtain ⟨d, ⟨-, -, rfl⟩ | ⟨-, -, rfl⟩ | ⟨-, rfl⟩, rfl⟩ := ha
    · have ht := touches_unlink hk.tidy (.state .pending)
      refine ⟨⟨ht.tidy, ht.firm _ nofun hk.installed, firm_unlink hk.pending, fun f hf => ?_,
        fun f hf => ?_, fun f hf => ?_⟩, Touched.elsewhere ht rfl (fun _ hb => hb) rfl⟩
      · obtain ⟨g, hg, he⟩ := ht.lost f hf
        rw [he _ (by simp)]
        exact hk.readable g hg
      · obtain ⟨g, hg, he⟩ := ht.lost f hf
        rw [he .install nofun, he .previous nofun]
        exact hk.binaries g hg
      · rcases lost_unlink hf with hf | ⟨g, -, rfl⟩
        · exact .inl (hk.record f hf)
        · exact .inr (Function.update_self _ _ _)
    · exact hstay _ rfl
    · exact hstay _ rfl
  refine ⟨hboth.1.secure fun i q g hF hG => ?_, h x w' hboth.1 hboth.2⟩
  refine WayBack.mono hboth.2.proven ?_
  rcases hG with hG | rfl
  · exact hold i q g hF hG
  · exact hnew i q hF

end

/-! ## 4. Rolling back and confirming -/

/-- `pending.json` names `p`, marked or not. -/
def Pends (p : Pending) (g : Option Bytes) : Prop :=
  ∃ r, g = some (Pending.codec.encode { p with rollingBack := r })

/-- The mark changes nothing of what a rollback can start from. -/
theorem Reversible.named {proven : Bytes → Prop} {p : Pending} {i q g : Option Bytes}
    (h : Reversible reports key proven p i q) (hg : Pends p g) :
    WayBack reports key proven i q g := by
  obtain ⟨r, rfl⟩ := hg
  refine .reversible ?_
  cases h with
  | back hb hv hq => exact .back hb hv hq
  | ahead hl hb hv => exact .ahead hl hb hv

/-- **The two binaries are `i` and `q`, whatever comes back**, and `pending.json` names `p`. -/
abbrev Stands (p : Pending) (i q : Option Bytes) : Powered → Prop :=
  Knows (fun i' q' => i' = i ∧ q' = q) (Pends p)

variable {p : Pending} {i q : Option Bytes}

theorem Stands.install (h : Stands p i q w) : w.files .install = i :=
  (h.binaries _ (lost_files _)).1

theorem Stands.previous (h : Stands p i q w) : w.files .previous = q :=
  (h.binaries _ (lost_files _)).2

theorem Stands.secure (h : Stands p i q w) (hr : Reversible reports key w.proven p i q) :
    Secure reports key w := Knows.secure h fun i' q' g hF hG => by
  obtain ⟨rfl, rfl⟩ := hF
  exact hr.named hG

/-- **`restore`** leaves a proven binary installed that is not the one of `p`, and nothing to put
    back; or it fails. -/
theorem leaves_restore {Q : Except IoError Unit → Powered → Prop} (h : Stands p i q w)
    (hr : Reversible reports key w.proven p i q) (hf : Firm .previous w.disk)
    (hok : ∀ b w', Stands p (some b) none w' → w'.proven b → reports b ≠ some (banner p.version) →
      Q (.ok ()) w')
    (herr : ∀ e w', Q (.error e) w') : Leaves reports key restore Q w := by
  have hs := h.secure hr
  refine leaves_seq (leaves_look hs ⟨rfl, nofun⟩ fun x _ hx => ?_)
  obtain rfl := hx
  rw [h.previous]
  cases hq : q with
  | none =>
    subst hq
    cases hr with
    | back hb hv => exact hok _ w h hb hv
  | some b =>
    subst hq
    obtain ⟨hb, hv⟩ : w.proven b ∧ reports b ≠ some (banner p.version) := by
      cases hr with
      | back _ _ hq => exact hq b rfl
      | ahead _ hb hv => exact ⟨hb, hv⟩
    have hback : Reversible reports key w.proven p (some b) none := .back hb hv nofun
    have hmoved : ∀ w', Moved .previous .install b w w' →
        Knows (fun i' q' => i' = i ∧ q' = some b ∨ i' = some b ∧ q' = none) (Pends p) w' := by
      refine fun w' hm => h.swapped hm nofun fun f g hg _ hpair => ?_
      rcases hpair with ⟨hq, hi⟩ | ⟨hq, hi⟩
      · rw [hq, hi]
        exact .inl hg
      · exact .inr ⟨hi, hq⟩
    have hsecure : ∀ w', Moved .previous .install b w w' → Secure reports key w' := by
      intro w' hm
      refine (hmoved w' hm).secure fun i' q' g hF hG => ?_
      rw [hm.proven]
      obtain ⟨rfl, rfl⟩ | ⟨rfl, rfl⟩ := hF
      · exact hr.named hG
      · exact hback.named hG
    refine leaves_seq (leaves_rename hs ⟨h.previous, hf⟩ trivial id rfl hsecure
      (fun w₁ hm hdue => ?_) fun w' e _ _ => herr e w')
    refine leaves_seq (leaves_sync (hsecure w₁ hm) hdue fun w₂ hw₂ h₂ => ?_)
    have hk := (hmoved w₁ hm).settled (firm_none (FileOp.files_none.mp hm.gone)) hw₂
    rw [hm.put.1, hm.gone] at hk
    exact hok b w₂ hk (h₂.proven _ (hm.proven ▸ hb)) hv

/-- The end of a rollback: a proven binary is installed. -/
theorem leaves_settle {b : Bytes} {reason : String} {recorded : Except UpdateError Unit}
    (h : Stands p (some b) none w) (hb : w.proven b) (hv : reports b ≠ some (banner p.version)) :
    Leaves reports key (settle p reason recorded) (fun _ _ => True) w := by
  have hr : ∀ {w' : Powered}, w'.proven b → Reversible reports key w'.proven p (some b) none :=
    fun hb => .back hb hv nofun
  refine leaves_seq (leaves_restart (h.secure (hr hb)) (fun w₁ h₁ _ _ => ?_) fun _ => trivial)
  have hb₁ := h₁.proven b hb
  cases recorded with
  | error e => trivial
  | ok u =>
    refine leaves_seq (leaves_removePending (h₁.knows h) (fun i' q' g hF hG => ?_)
      (fun i' q' hF => ?_) fun _ _ _ _ => trivial)
    · obtain ⟨rfl, rfl⟩ := hF
      exact (hr hb₁).named hG
    · obtain ⟨rfl, rfl⟩ := hF
      exact .settled hb₁

/-- **`roll_back`.** -/
theorem leaves_rollBack {nowMs : U64} {reason : String} (h : Stands p i q w)
    (hr : Reversible reports key w.proven p i q) (hf : Firm .previous w.disk) :
    Leaves reports key (rollBack p nowMs reason) (fun _ _ => True) w := by
  -- marked or not, it names `p`
  have hput : ∀ w₁, Stands p i q w₁ → Elsewhere w w₁ →
      Leaves reports key (putBack p nowMs reason) (fun _ _ => True) w₁ := by
    intro w₁ h₁ he₁
    have hr₁ := hr.mono he₁.proven
    refine leaves_seq (leaves_recordFailure (h₁.secure hr₁) fun recorded w₂ h₂ => ?_)
    refine leaves_seq (leaves_restore (h₂.knows h₁) (hr₁.mono h₂.proven)
      (h₂.firm _ trivial (he₁.firm _ rfl hf)) (fun b w₃ h₃ hb hv => ?_) fun _ _ => trivial)
    exact leaves_settle h₃ hb hv
  have hnamed : ∀ i' q' g, i' = i ∧ q' = q → Pends p g → WayBack reports key w.proven i' q' g := by
    intro i' q' g hF hG
    obtain ⟨rfl, rfl⟩ := hF
    exact hr.named hG
  refine leaves_seq (leaves_writePending h hnamed (fun i' q' hF => hnamed i' q' _ hF ⟨true, rfl⟩)
    (fun w₁ h₁ he₁ => hput w₁ (h₁.mono (fun _ _ h => h) ?_) he₁) fun e w₁ h₁ he₁ => hput w₁ h₁ he₁)
  intro g hg
  exact ⟨true, hg⟩

/-- **`confirm`** of a release that is installed, with a proven binary to put back. -/
theorem leaves_confirm {c : Call crypto} {x b : Bytes} (h : Stands p (some x) (some b) w)
    (hl : Lands reports key p x) (hb : w.proven b) (hv : reports b ≠ some (banner p.version))
    (hf : Firm .previous w.disk) (hc : c.polls.check = .ok () → w.healthy) :
    Leaves reports key (confirm c p).run (fun _ _ => True) w := by
  have hr : Reversible reports key w.proven p (some x) (some b) := .ahead hl hb hv
  have hs := h.secure hr
  refine leaves_lift (leaves_seq (leaves_restart hs (fun w₁ h₁ _ hproven => ?_) fun e => ?_))
  · have hr₁ := hr.mono h₁.proven
    have hk₁ := h₁.knows h
    cases hcheck : c.polls.check with
    | error e =>
      exact leaves_lift ((leaves_rollBack hk₁ hr₁ (h₁.firm _ trivial hf)).post fun _ _ _ => trivial)
    | ok u =>
      have hx : w₁.proven x := hproven x (hc hcheck) h.install
      refine leaves_bind (leaves_writeJson (Stands.secure hk₁ hr₁) nofun nofun fun r w₂ h₂ =>
        ⟨fun _ _ => ?_, fun _ _ => trivial⟩)
      refine leaves_lift (leaves_removePending (h₂.knows hk₁) (fun i' q' g hF hG => ?_)
        (fun i' q' hF => ?_) fun y _ _ _ => ?_)
      · obtain ⟨rfl, rfl⟩ := hF
        exact (hr₁.mono h₂.proven).named hG
      · obtain ⟨rfl, rfl⟩ := hF
        exact .settled (h₂.proven x hx)
      · cases y <;> trivial
  · exact leaves_lift ((leaves_rollBack h hr hf).post fun _ _ _ => trivial)

/-! ## 5. Swapping -/

/-- `pending.json` names nothing, or a release that did not land. -/
def Unlanded (reports : Bytes → Option String) (b : Bytes) (g : Option Bytes) : Prop :=
  g = none ∨ ∃ p : Pending, g = some (Pending.codec.encode p) ∧ p.rollingBack = false ∧
    reports b ≠ some (banner p.version)

/-- **Before a swap**: `b` is installed, and nothing is known of `.previous`. -/
abbrev Idle (reports : Bytes → Option String) (b : Bytes) : Powered → Prop :=
  Knows (fun i _ => i = some b) (Unlanded reports b)

theorem Unlanded.wayBack {proven : Bytes → Prop} {b : Bytes} {q g : Option Bytes}
    (h : Unlanded reports b g) (hb : proven b) : WayBack reports key proven (some b) q g := by
  obtain rfl | ⟨p, rfl, hr, hv⟩ := h
  · exact .settled hb
  · cases q with
    | none => exact .reversible (.back hb hv nofun)
    | some x => exact .unlanded hb hv hr

theorem Idle.secure {b : Bytes} (h : Idle reports b w) (hb : w.proven b) :
    Secure reports key w := Knows.secure h fun i' q' g hF hG => by
  subst hF
  exact hG.wayBack hb

/-- `.previous` is written to. -/
theorem Idle.touched {b : Bytes} {w' : Powered} (h : Idle reports b w)
    (ht : Touched .previous w w') : Idle reports b w' := by
  refine ⟨ht.tidy, ht.firm _ nofun h.installed, ht.firm _ nofun h.pending, fun f hf => ?_,
    fun f hf => ?_, fun f hf => ?_⟩
  · obtain ⟨g, hg, he⟩ := ht.lost f hf
    rw [he (.state .failed) nofun]
    exact h.readable g hg
  · obtain ⟨g, hg, he⟩ := ht.lost f hf
    rw [he .install nofun]
    exact h.binaries g hg
  · obtain ⟨g, hg, he⟩ := ht.lost f hf
    rw [he (.state .pending) nofun]
    exact h.record g hg

/-- **`backUp`** leaves the installed binary, synced, at `.previous`, or fails. -/
theorem leaves_backUp {b : Bytes} {Q : Except IoError Unit → Powered → Prop}
    (h : Idle reports b w) (hb : w.proven b)
    (hok : ∀ w', Touched .previous w w' → Solid .previous b w' → w'.due = .directory .install →
      w'.proven = w.proven → w'.healthy = w.healthy → Q (.ok ()) w')
    (herr : ∀ e w', Secure reports key w' → Q (.error e) w') :
    Leaves reports key backUp Q w := by
  have hside : ∀ {w' : Powered}, Touched .previous w w' → w'.proven = w.proven →
      Secure reports key w' := fun ht hp => (h.touched ht).secure (hp ▸ hb)
  have hinst : w.disk.files .install = some b := h.binaries _ (lost_files _)
  refine leaves_seq (leaves_perform (fun w' hc => ?_) fun x w₁ ha _ => ?_)
  · obtain ⟨d, hc, rfl⟩ := hc
    exact hside (touches_spoilt h.tidy trivial hc) rfl
  · obtain ⟨d, ⟨b', i, hb', rfl, ho⟩ | ⟨hn, -, -⟩ | ⟨rfl, hc⟩, rfl⟩ := ha
    · obtain rfl : b = b' := Option.some.inj (hinst.symm.trans hb')
      have ht : Touched .previous w (w.filed (.copy .install .previous) d) :=
        touches_opened h.tidy trivial ho
      refine ⟨hside ht rfl,
        leaves_perform (fun w' hc => hc.elim fun _ hc => hc.1.elim) fun x w₂ ha _ => ?_⟩
      obtain ⟨d', ⟨rfl, j, hj, rfl⟩ | ⟨rfl, rfl⟩, rfl⟩ := ha
      · have ht' : Touches Path.dir Path.Written .previous w.disk (d.flush j) := ht.flush j
        have hs' : Secure reports key
            ((w.filed (.copy .install .previous) d).filed .sync (d.flush j)) := hside ht' rfl
        refine ⟨hs', hok _ ht' ⟨?_, firm_flushed hj⟩ rfl rfl rfl⟩
        show d.files .previous = some b
        rw [(files_opened (h.tidy.alone (show Path.Written .previous from trivial)) ho).1,
          Function.update_self]
      · exact ⟨hside ht rfl, herr _ _ (hside ht rfl)⟩
    · exact absurd (FileOp.files_none.mpr hn) (by rw [hinst]; exact nofun)
    · have ht := touches_spoilt (t := Path.previous) h.tidy trivial hc
      exact ⟨hside ht rfl, herr _ _ (hside ht rfl)⟩

/-- **The release is renamed over the installed binary**: either of them may come back. -/
theorem leaves_land {p : Pending} {b x : Bytes} {Q : Except IoError Unit → Powered → Prop}
    (h : Stands p (some b) (some b) w) (hb : w.proven b) (hv : reports b ≠ some (banner p.version))
    (hl : Lands reports key p x) (hx : Solid .staged x w)
    (hok : ∀ w', Moved .staged .install x w w' → Secure reports key w' →
      w'.due = .directory .install →
      Knows (fun i q => (i = some b ∨ i = some x) ∧ q = some b) (Pends p) w' → Q (.ok ()) w')
    (herr : ∀ e w', Aside w w' → Q (.error e) w') :
    Leaves reports key (Prog.perform (I := iface) (.fs (.rename .staged .install))) Q w := by
  have hback : Reversible reports key w.proven p (some b) (some b) :=
    .back hb hv fun b' hb' => Option.some.inj hb' ▸ ⟨hb, hv⟩
  have hahead : Reversible reports key w.proven p (some x) (some b) := .ahead hl hb hv
  have hmoved : ∀ w', Moved .staged .install x w w' →
      Knows (fun i q => (i = some b ∨ i = some x) ∧ q = some b) (Pends p) w' :=
    fun w' hm => h.swapped hm nofun fun f g hg he hpair =>
      ⟨hpair.imp (fun h => h.2.trans hg.1) And.right, (he .previous nofun nofun).trans hg.2⟩
  have hsecure : ∀ w', Moved .staged .install x w w' → Secure reports key w' := by
    intro w' hm
    refine (hmoved w' hm).secure fun i' q' g hF hG => ?_
    rw [hm.proven]
    obtain ⟨rfl | rfl, rfl⟩ := hF
    · exact hback.named hG
    · exact hahead.named hG
  exact leaves_rename (h.secure hback) hx trivial id rfl hsecure
    (fun w' hm hdue => hok w' hm (hsecure w' hm) hdue (hmoved w' hm)) fun w' e ha _ => herr e w' ha

/-- **The swap** of a release for a proven binary. -/
theorem leaves_swapIn {c : Call crypto} {m : Manifest} {b x : Bytes} (h : Idle reports b w)
    (hb : w.proven b) (hv : reports b ≠ some (banner m.version)) (hx : Solid .staged x w)
    (hm : ∃ raw sig, verifyManifest crypto raw sig key = .ok m)
    (hfit : Matches crypto reports m x) (hc : c.polls.check = .ok () → w.healthy) :
    Leaves reports key (swapIn c m).run (fun _ _ => True) w := by
  obtain ⟨raw, sig, hm⟩ := hm
  let p : Pending := ⟨m.version, m.sequence, false⟩
  have hstaged : ∀ {w' : Powered}, Secure reports key w' →
      ∀ {e : UpdateError}, Leaves reports key (removeStaged >>= fun _ => (throw e : Run Outcome)).run
        (fun _ _ => True) w' := fun hs => leaves_removeStaged hs fun _ _ => trivial
  refine leaves_lift (leaves_backUp h hb (fun w₁ ht hprev hdue hp hh => ?_) fun e w₁ h₁ =>
    hstaged h₁)
  have h₁ := h.touched ht
  have hb₁ : w₁.proven b := hp ▸ hb
  have hinst : w₁.files .install = some b := h₁.binaries _ (lost_files _)
  refine leaves_lift (leaves_sync (h₁.secure hb₁) hdue fun w₂ hw₂ h₂ => ?_)
  have hk₂ := h₁.settled hprev.2 hw₂
  rw [hinst, hprev.1] at hk₂
  have hb₂ := h₂.proven b hb₁
  have hback : Reversible reports key w₂.proven p (some b) (some b) :=
    .back hb₂ hv fun b' hb' => Option.some.inj hb' ▸ ⟨hb₂, hv⟩
  have hx₂ : Solid .staged x w₂ := by
    obtain ⟨c, hc⟩ := ht.files
    refine Solid.settled ⟨?_, ht.firm _ nofun hx.2⟩ hw₂
    show w₁.disk.files .staged = some x
    rw [hc, Function.update_of_ne (by simp)]
    exact hx.1
  refine leaves_lift (leaves_writePending hk₂ (fun i' q' g hF hG => ?_) (fun i' q' hF => ?_)
    (fun w₃ h₃ he₃ => ?_) fun e w₃ h₃ he₃ => ?_)
  · obtain ⟨rfl, rfl⟩ := hF
    exact hG.wayBack hb₂
  · obtain ⟨rfl, rfl⟩ := hF
    exact .reversible hback
  · -- `pending.json` is there to stay: the release may be installed
    have hst : Stands p (some b) (some b) w₃ := h₃.mono (fun _ _ h => h) fun g hg => ⟨false, hg⟩
    have hb₃ := he₃.proven b hb₂
    have hback₃ := hback.mono he₃.proven
    have hl : Lands reports key p x := ⟨raw, sig, m, hm, hfit, rfl, rfl⟩
    refine leaves_lift (leaves_land hst hb₃ hv hl (he₃.solid rfl hx₂)
      (fun w₄ hmv hs₄ hdue hk₄ => ?_) fun e w₄ h₄ => ?_)
    · refine leaves_lift (leaves_sync hs₄ hdue fun w₅ hw₅ h₅ => ?_)
      have hprev₄ : Firm .previous w₄.disk :=
        hmv.firm _ nofun (he₃.firm _ rfl (Solid.settled hprev hw₂).2)
      have hk₅ := hk₄.settled hprev₄ hw₅
      rw [hmv.put.1, show w₄.files .previous = some b from (hk₄.binaries _ (lost_files _)).2] at hk₅
      refine leaves_confirm hk₅ hl (h₅.proven b (hmv.proven ▸ hb₃)) hv (h₅.firm _ trivial hprev₄)
        fun hcheck => ?_
      rw [h₅.healthy, hmv.healthy, he₃.healthy, h₂.healthy, hh]
      exact hc hcheck
    · refine leaves_removeStaged (h₄.secure (hst.secure hback₃)) fun w₅ h₅ => ?_
      have h' := h₄.trans h₅
      refine leaves_lift (leaves_removePending (h'.knows hst) (fun i' q' g hF hG => ?_)
        (fun i' q' hF => ?_) fun _ _ _ _ => trivial)
      · obtain ⟨rfl, rfl⟩ := hF
        exact (hback₃.mono h'.proven).named hG
      · obtain ⟨rfl, rfl⟩ := hF
        exact .settled (h'.proven b hb₃)
  · refine hstaged (h₃.secure fun i' q' g hF hG => ?_)
    obtain ⟨rfl, rfl⟩ := hF
    exact hG.wayBack (he₃.proven b hb₂)

/-! ## 6. Recovery -/

/-- **The start of a run**: what the files are is what comes back. -/
abbrev Rests (i q g : Option Bytes) : Powered → Prop :=
  Knows (fun i' q' => i' = i ∧ q' = q) (· = g)

variable {c : Call crypto} {g : Option Bytes}

/-- An interrupted rollback shows in that the old version runs without a `.previous`. -/
theorem leaves_restored {p : Pending} (hs : Secure reports key w) :
    Leaves reports key (restored c p).run (fun r w' => w' = w ∧ r = .ok
      (decide (p.version ≠ c.config.runningVersion) && !(w.files .previous).isSome)) w := by
  unfold restored
  split_ifs with hv
  · refine leaves_lift (leaves_look hs ⟨rfl, nofun⟩ fun x _ hx => ⟨rfl, ?_⟩)
    obtain rfl := hx
    rw [decide_eq_true hv, Bool.true_and]
  · refine ⟨rfl, ?_⟩
    rw [decide_eq_false hv, Bool.false_and]

/-- The release that `pending.json` names did not land, or it can be rolled back. -/
theorem WayBack.named {proven : Bytes → Prop} {i q : Option Bytes} {raw : Bytes} {p : Pending}
    (h : WayBack reports key proven i q (some raw)) (hp : Pending.codec.decode raw = some p) :
    raw = Pending.codec.encode p ∧ (p.rollingBack = false ∧ q.isSome = true ∧
        (∃ b, i = some b ∧ proven b ∧ reports b ≠ some (banner p.version)) ∨
      Reversible reports key proven p i q) := by
  cases h with
  | unlanded hb hv hr =>
    obtain rfl := Option.some.inj ((Codec.decode_encode _ _).symm.trans hp)
    exact ⟨rfl, .inl ⟨hr, rfl, _, rfl, hb, hv⟩⟩
  | reversible hr =>
    obtain rfl := Option.some.inj ((Codec.decode_encode _ _).symm.trans hp)
    exact ⟨rfl, .inr hr⟩

/-- `pending.json` is dropped, and the run goes on. -/
theorem leaves_drop {b : Bytes} {Q : Except UpdateError (Option Outcome) → Powered → Prop}
    (h : Idle reports b w) (hb : w.proven b)
    (hok : ∀ w', Idle reports b w' → Elsewhere w w' → Q (.ok none) w')
    (herr : ∀ e w', Q (.error e) w') :
    Leaves reports key (do
      io (← perform (.fs (.remove (.state .pending))))
      return none : Run (Option Outcome)).run Q w := by
  refine leaves_lift (leaves_removePending h (fun i' q' g' hF hG => ?_) (fun i' q' hF => ?_)
    fun x w' hk he => ?_)
  · subst hF
    exact hG.wayBack hb
  · subst hF
    exact .settled hb
  · cases x with
    | ok u => exact hok w' (hk.mono (fun _ _ h => h) fun g' hg' => hg'.elim id .inl) he
    | error e => exact herr _ _

/-- **`recover`** leaves nothing to come back to, or it ends the run. -/
theorem leaves_recover {Q : Except UpdateError (Option Outcome) → Powered → Prop}
    (h : Rests i q g w) (hw : WayBack reports key w.proven i q g) (hf : Firm .previous w.disk)
    (hrun : ∀ b, i = some b → reports b = some (banner c.config.runningVersion))
    (hc : c.polls.check = .ok () → w.healthy)
    (hidle : ∀ b w', i = some b → Idle reports b w' → Elsewhere w w' → w'.proven b →
      Q (.ok none) w')
    (hend : ∀ r w', r ≠ .ok none → Q r w') : Leaves reports key (recover c).run Q w := by
  have hs : Secure reports key w := Knows.secure h fun i' q' g' hF hG => by
    obtain ⟨rfl, rfl⟩ := hF
    exact hG ▸ hw
  have hsame : Elsewhere w w := ⟨fun _ _ => rfl, fun _ _ h => h, fun _ h => h, rfl⟩
  have hg : w.files (.state .pending) = g := h.record _ (lost_files _)
  have hq : w.files .previous = q := (h.binaries _ (lost_files _)).2
  refine leaves_bind (leaves_readJson hs (fun hn => ⟨fun o ho => ?_, nofun⟩)
    (fun p raw hraw hdec => ⟨fun o ho => ?_, nofun⟩) fun e => ⟨nofun, fun e' _ => hend _ _ nofun⟩)
  · -- nothing is pending
    obtain rfl := Except.ok.inj ho
    obtain rfl : g = none := hg.symm.trans hn
    cases hw with
    | @settled b q hb =>
      exact hidle b w rfl (h.mono (fun _ _ h => h.1) fun _ h => .inl h) hsame hb
  · obtain rfl := Except.ok.inj ho
    obtain rfl : g = some raw := hg.symm.trans hraw
    have hroll : Reversible reports key w.proven p i q → raw = Pending.codec.encode p →
        Leaves reports key (rollBack p c.nowMs "an earlier rollback was interrupted")
          (fun e w' => Q (.error e) w') w := fun hr hraw =>
      (leaves_rollBack (h.mono (fun _ _ h => h) fun g' hg' =>
        ⟨p.rollingBack, hg'.trans (hraw ▸ rfl)⟩) hr hf).post fun _ _ _ => hend _ _ nofun
    -- the installed binary is not the release that is pending: it did not land
    have hdrop : ∀ b, i = some b → w.proven b → reports b ≠ some (banner p.version) →
        p.rollingBack = false → raw = Pending.codec.encode p →
        Leaves reports key (do
          io (← perform (.fs (.remove (.state .pending))))
          return none : Run (Option Outcome)).run Q w := by
      intro b hi hb hv hr hraw
      subst hi
      have hun : ∀ g', g' = some raw → Unlanded reports b g' := fun g' hg' =>
        .inr ⟨p, by rw [hg', hraw], hr, hv⟩
      exact leaves_drop (h.mono (fun _ _ h => h.1) hun) hb
        (fun w' hk he => hidle b w' rfl hk he (he.proven b hb)) fun e w' => hend _ _ nofun
    obtain ⟨henc, hcase⟩ := hw.named hdec
    refine leaves_bind ((leaves_restored hs).post fun r w' hr => ?_)
    obtain ⟨rfl, rfl⟩ := hr
    refine ⟨fun _ he => ?_, nofun⟩
    obtain rfl := Except.ok.inj he
    rw [hq]
    split_ifs with h₁ h₂
    · obtain ⟨hr, hq', -⟩ | hr := hcase
      · rw [hr, hq'] at h₁
        simp at h₁
      · exact leaves_lift (hroll hr henc)
    · obtain ⟨-, -, b, rfl, -, hv⟩ | hr := hcase
      · exact absurd (hrun b rfl) (h₂ ▸ hv)
      · have hk : Stands p i q w' := h.mono (fun _ _ h => h) fun g' hg' =>
          ⟨p.rollingBack, hg'.trans (congrArg some henc)⟩
        cases hr with
        | back _ hv _ => exact absurd (hrun _ rfl) (h₂ ▸ hv)
        | ahead hl hb hv =>
          refine leaves_bind ((leaves_confirm hk hl hb hv hf hc).post fun r w' _ =>
            ⟨fun a _ => hend _ _ nofun, fun e _ => hend _ _ nofun⟩)
    · have hunmarked : p.rollingBack = false := by
        cases hr : p.rollingBack with
        | false => rfl
        | true => exact absurd (by rw [hr]; rfl) h₁
      obtain ⟨hr, -, b, hi, hb, hv⟩ | hr := hcase
      · exact hdrop b hi hb hv hr henc
      · cases hr with
        | back hb hv _ => exact hdrop _ rfl hb hv hunmarked henc
        | ahead hl =>
          obtain ⟨x, hx, hv⟩ := hl.runs
          obtain rfl := Option.some.inj hx
          exact absurd (banner_inj (Option.some.inj (hv.symm.trans (hrun _ rfl)))) h₂

/-! ## 7. The run -/

/-- A binary that was not staged. -/
theorem leaves_refuse {m : Manifest} {error : UpdateError} (hs : Secure reports key w) :
    Leaves reports key (refuse c m error).run (fun _ _ => True) w := by
  refine leaves_removeStaged hs fun w' h' => ?_
  cases error with
  | badRelease why =>
    refine leaves_bind (leaves_recordFailure (h'.secure hs) fun r w'' _ => ⟨fun _ _ => ?_, ?_⟩)
    · trivial
    · exact fun _ _ => trivial
  | _ => trivial

/-- **`install`.** -/
theorem leaves_install {m : Manifest} {b : Bytes} (h : Idle reports b w) (hb : w.proven b)
    (hv : reports b ≠ some (banner m.version))
    (hm : ∃ raw sig, verifyManifest crypto raw sig key = .ok m)
    (hc : c.polls.check = .ok () → w.healthy) :
    Leaves reports key (install c m).run (fun _ _ => True) w := by
  have hs : Secure reports key w := h.secure hb
  refine leaves_lift (leaves_look hs ⟨rfl, nofun⟩ fun x _ _ => ?_)
  split_ifs
  · refine leaves_bind (leaves_checkDisk hs fun r w₁ h₁ => ⟨fun _ _ => ?_, fun _ _ => trivial⟩)
    have hs₁ := h₁.secure hs
    refine leaves_lift ?_
    have hok : ∀ x w₂, Aside w₁ w₂ → Matches crypto reports m x → Solid .staged x w₂ →
        Leaves reports key (swapIn c m).run (fun _ _ => True) w₂ := by
      intro x w₂ h₂ hfit hx
      have h' := h₁.trans h₂
      exact leaves_swapIn (h'.knows h) (h'.proven b hb) hv hx hm hfit fun hcheck =>
        h'.healthy ▸ hc hcheck
    have herr : ∀ e w₂, Aside w₁ w₂ → Leaves reports key (refuse c m e).run (fun _ _ => True) w₂ :=
      fun e w₂ h₂ => leaves_refuse (h₂.secure hs₁)
    exact leaves_stage hs₁ hok herr
  · trivial

/-- **An ordinary run.** -/
theorem leaves_offer {b : Bytes} (h : Idle reports b w) (hb : w.proven b)
    (hrun : reports b = some (banner c.config.runningVersion)) (hkey : c.config.publicKey = key)
    (hc : c.polls.check = .ok () → w.healthy) :
    Leaves reports key (offer c).run (fun _ _ => True) w := by
  have hs : Secure reports key w := h.secure hb
  -- whatever was read of `update-failed.json`
  have hschedule : ∀ m f, (∃ raw sig, verifyManifest crypto raw sig key = .ok m) →
      m.version ≠ c.config.runningVersion →
      Leaves reports key (schedule c m f).run (fun _ _ => True) w := by
    intro m f hm hne
    have hv : reports b ≠ some (banner m.version) := fun he =>
      hne (banner_inj (Option.some.inj (he.symm.trans hrun)))
    unfold schedule
    split_ifs
    · trivial
    · cases notYet c m with
      | some outcome => trivial
      | none => exact leaves_install h hb hv hm hc
  have hconsider : ∀ m installed, (∃ raw sig, verifyManifest crypto raw sig key = .ok m) →
      Leaves reports key (consider c m installed).run (fun _ _ => True) w := by
    intro m installed hm
    unfold consider
    split_ifs with _ hne
    · trivial
    · exact leaves_bind (leaves_writeJson hs nofun nofun fun r w' _ =>
        ⟨fun _ _ => trivial, fun _ _ => trivial⟩)
    · exact leaves_bind (leaves_readJson hs (fun _ => ⟨fun _ _ => hschedule m _ hm hne, nofun⟩)
        (fun f _ _ _ => ⟨fun _ _ => hschedule m _ hm hne, nofun⟩) fun e =>
          ⟨nofun, fun _ _ => trivial⟩)
  have hoffered : ∀ {f : Option Manifest → Run Outcome},
      Leaves reports key (f none).run (fun _ _ => True) w →
      (∀ m, (∃ raw sig, verifyManifest crypto raw sig key = .ok m) →
        Leaves reports key (f (some m)).run (fun _ _ => True) w) →
      Leaves reports key (orThrow (offered c) >>= f).run (fun _ _ => True) w := by
    intro f hnone hsome
    refine leaves_orThrow (fun m hm => ?_) fun _ _ => trivial
    cases m with
    | none => exact hnone
    | some m =>
      obtain ⟨raw, sig, -, -, hver⟩ := offered_verified hm
      exact hsome m ⟨raw, sig, hkey ▸ hver⟩
  refine leaves_bind (leaves_readJson hs (fun _ => ⟨fun r _ => ?_, nofun⟩)
    (fun i _ _ _ => ⟨fun r _ => ?_, nofun⟩) fun e => ⟨nofun, fun _ _ => trivial⟩)
  · exact hoffered trivial fun m hm => hconsider m _ hm
  · exact hoffered trivial fun m hm => hconsider m _ hm

/-- An operation that leaves the disk alone. -/
theorem leaves_ask {op : Op} {Q : Op.Ans op → Powered → Prop} (hs : Secure reports key w)
    (hcut : ∀ w', ¬(powered reports).cut w op w')
    (hact : ∀ x w', (powered reports).act w op x w' → w' = w) (h : ∀ x, Q x w) :
    Leaves reports key (Prog.perform (I := iface) op) Q w := by
  refine leaves_perform (fun w' hc => absurd hc (hcut w')) fun x w' ha _ => ?_
  obtain rfl := hact x w' ha
  exact ⟨hs, h x⟩

/-- **A whole run.** -/
theorem leaves_run (h : Rests i q g w) (hw : WayBack reports key w.proven i q g)
    (hf : Firm .previous w.disk) (hrun : Runs reports i c.config.runningVersion)
    (hkey : c.config.publicKey = key) (hc : c.polls.check = .ok () → w.healthy) :
    Leaves reports key (run c).run (fun _ _ => True) w := by
  have hs : Secure reports key w := Knows.secure h fun i' q' g' hF hG => by
    obtain ⟨rfl, rfl⟩ := hF
    exact hG ▸ hw
  have hquiet : ∀ {op : Op}, (op = .createStateDir ∨ op = .stateDirMeta ∨ op = .openLock ∨
      op = .tryLock) → ∀ {Q : Op.Ans op → Powered → Prop}, (∀ x, Q x w) →
      Leaves reports key (Prog.perform (I := iface) op) Q w := by
    intro op hop Q hQ
    rcases hop with rfl | rfl | rfl | rfl <;>
      exact leaves_ask hs (fun _ hc => hc) (fun _ _ ha => ha) hQ
  have hlocked : Leaves reports key (locked c).run (fun _ _ => True) w := by
    obtain ⟨b₀, hb₀, hrep⟩ := hrun
    refine leaves_bind (leaves_recover h hw hf (fun b hb => ?_) hc (fun b w' hi hk he hb => ?_)
      fun r w' hr => ⟨fun o ho => ?_, fun _ _ => trivial⟩)
    · obtain rfl := Option.some.inj (hb₀.symm.trans hb)
      exact hrep
    · refine ⟨fun o ho => ?_, nofun⟩
      obtain rfl := Except.ok.inj ho
      obtain rfl := Option.some.inj (hb₀.symm.trans hi)
      exact leaves_offer hk hb hrep hkey fun hcheck => he.healthy ▸ hc hcheck
    · cases o with
      | none => exact absurd ho hr
      | some out => trivial
  have hdir : Leaves reports key (checkStateDir c).run (fun _ w' => w' = w) w := by
    refine leaves_lift (hquiet (.inr (.inl rfl)) fun x => ?_)
    refine leaves_io (fun info _ => ?_) fun _ _ => rfl
    split_ifs
    · rfl
    · rfl
  unfold run
  split_ifs
  · refine leaves_lift (hquiet (.inl rfl) fun x => leaves_io (fun _ _ => ?_) fun _ _ => trivial)
    refine leaves_bind (hdir.post fun r w' hw' => ⟨fun _ _ => ?_, fun _ _ => trivial⟩)
    subst hw'
    refine leaves_lift (hquiet (.inr (.inr (.inl rfl))) fun x =>
      leaves_io (fun _ _ => ?_) fun _ _ => trivial)
    refine leaves_lift (hquiet (.inr (.inr (.inr rfl))) fun x => ?_)
    cases x with
    | acquired => exact hlocked
    | wouldBlock | error => trivial
  · trivial

end Rules

end Sn46Validator.Update
