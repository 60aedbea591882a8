/-
  File:      Validator/Coarse.lean
  Subject:   A SAVE ON BOTH LEVELS: what the system calls of `save_bytes` do, one operation a file may.

  `Save.lean` has every system call of a save, on a disk; `Submit.lean` has one operation for writing
  the temporary file, and the runs of the validator are made of those.

  * `Spoils` -- what is done of the disk before the temporary file is whole: it holds anything;
  * `writeDurably_implements`, `saveBytes_implements` -- **each run of the fine save is a run of the
    coarse one**, killed or not, with the same files, and `Ok` where that one returns `Ok`.
-/
import Sn46Validator.Library.Levels
import Sn46Validator.Library.Storage
import Sn46Validator.Validator.Save
import Sn46Validator.Validator.Testbed

namespace Sn46Validator.Validator

open Library Disk

/-! ## 1. The temporary file -/

section

variable {t q : Path} {d d' d'' : Disk Path} {i : Nat} {c data : Bytes}

/-- **What is done before the temporary file is whole**: it holds anything. -/
def Spoils (t : Path) (d d' : Disk Path) : Prop :=
  (∃ c, d'.files = FileOp.put d.files t c) ∧ Alone t d'

theorem Spoils.refl (h : Alone t d) : Spoils t d d :=
  ⟨⟨d.files t, (Function.update_eq_self t d.files).symm⟩, h⟩

theorem Spoils.trans (h : Spoils t d d') (h' : Spoils t d' d'') : Spoils t d d'' := by
  obtain ⟨⟨c, hc⟩, -⟩ := h
  obtain ⟨⟨c', hc'⟩, ha⟩ := h'
  exact ⟨⟨c', by rw [hc', hc, FileOp.put, FileOp.put, Function.update_idem]⟩, ha⟩

theorem Spoils.flush (h : Spoils t d d') (i : ℕ) : Spoils t d (d'.flush i) := h

theorem spoils_opened (h : Alone t d) (ho : d.Opened t c i d') : Spoils t d d' :=
  ⟨⟨_, (files_opened h ho).1⟩, (files_opened h ho).2⟩

theorem spoils_fill (h : Alone t d) (hi : d.names t = some i) : Spoils t d (d.fill i c) :=
  ⟨⟨_, files_fill h hi⟩, h⟩

end

/-! ## 2. The two saves -/

/-- The files of the host are those of the disk. -/
def SameFiles (w₀ : Host) (t : Path) (d : Disk Path) (w : Host) : Prop :=
  w = { w₀ with files := d.files } ∧ Alone t d

/-- The fine program `p` implements the coarse one `p'`. -/
abbrev OnDisk (law : Law) (w₀ : Host) (f : File) {α α' : Type} (Q : α → α' → Prop)
    (p : Prog (DiskOp.iface Path) α) (p' : Prog iface α') (d : Disk Path) (w : Host) : Prop :=
  @Implements _ _ (DiskOp.machine Path) (machine law) _ _ (SameFiles w₀ (.temporary f)) Q p p' d w

/-- `Ok` on both sides, or an error. -/
abbrev BothOk : Except IoError Unit → Except IoError Unit → Prop :=
  BothOr (fun _ _ => True) fun _ _ => True

section

variable {law : Law} {w₀ w : Host} {f : File} {data : Bytes} {d d₁ : Disk Path} {α : Type}
  {k : Except IoError Unit → Fallible iface IoError α}

/-- What was done of the disk so far is a write of the temporary file that was cut. -/
theorem catches_spoiled (h : SameFiles w₀ (.temporary f) d w) (hs : Spoils (.temporary f) d d₁) :
    @Catches _ _ (DiskOp.machine Path) (machine law) _ (SameFiles w₀ (.temporary f)) d₁
      (perform (.fs (.write (.temporary f) data)) >>= k).run w := by
  obtain ⟨rfl, -⟩ := h
  obtain ⟨⟨c, hc⟩, ha⟩ := hs
  exact ⟨[], { w₀ with files := FileOp.put d.files (.temporary f) c },
    .cut _ ⟨_, ⟨c, rfl⟩, rfl⟩, by rw [hc], ha⟩

/-- The same, as a write that failed. -/
theorem implements_spoiled (h : SameFiles w₀ (.temporary f) d w)
    (hs : Spoils (.temporary f) d d₁) {p : Fallible (DiskOp.iface Path) IoError Unit}
    {Q : Except IoError Unit → Except IoError α → Prop}
    (hk : OnDisk law w₀ f Q p.run (k (.error .other)).run d₁ { w₀ with files := d₁.files }) :
    OnDisk law w₀ f Q p.run (perform (.fs (.write (.temporary f) data)) >>= k).run d₁ w := by
  obtain ⟨rfl, -⟩ := h
  obtain ⟨⟨c, hc⟩, ha⟩ := hs
  refine implements_coarseE (x := .error .other) ⟨_, ⟨_, .inr ⟨rfl, rfl, c, rfl⟩, rfl⟩, .refl _ _⟩ ?_
  rw [hc] at hk
  exact hk

/-- A system call before the temporary file is whole. -/
theorem implements_before {op : DiskOp Path} {g : op.Ans → Fallible (DiskOp.iface Path) IoError Unit}
    {Q : Except IoError Unit → Except IoError α → Prop} (h : SameFiles w₀ (.temporary f) d w)
    (hs : Spoils (.temporary f) d d₁)
    (hcut : ∀ d₂, DiskOp.cut d₁ op d₂ → Spoils (.temporary f) d₁ d₂)
    (hact : ∀ x d₂, DiskOp.act d₁ op x d₂ → OnDisk law w₀ f Q (g x).run
      (perform (.fs (.write (.temporary f) data)) >>= k).run d₂ w) :
    OnDisk law w₀ f Q
      (StateStore.call op >>= g).run (perform (.fs (.write (.temporary f) data)) >>= k).run d₁ w :=
  implements_fineE (catches_spoiled h hs) (fun d₂ hc => catches_spoiled h (hs.trans (hcut d₂ hc)))
    hact

/-- The coarse rename, where the file was renamed. -/
theorem implements_renamed {i : ℕ} (hi : d₁.names (.temporary f) = some i)
    {p : Fallible (DiskOp.iface Path) IoError Unit} {Q : Except IoError Unit → Except IoError α → Prop}
    (hk : OnDisk law w₀ f Q p.run (k (.ok ())).run (d₁.move (.temporary f) (.file f))
      { w₀ with files := (d₁.move (.temporary f) (.file f)).files }) :
    OnDisk law w₀ f Q p.run (perform (.fs (.rename (.temporary f) (.file f))) >>= k).run
      (d₁.move (.temporary f) (.file f)) { w₀ with files := d₁.files } := by
  have hfile : d₁.files (.temporary f) = some (d₁.data i) := by simp [Disk.files, hi]
  refine implements_coarseE (x := .ok ()) ⟨_, ⟨_, .inl ⟨d₁.data i, hfile, rfl, rfl⟩, rfl⟩,
    .refl _ _⟩ ?_
  rw [files_move hi (StateStore.file_ne_temporary f)] at hk
  exact hk

/-- A failed sync of the directory. -/
theorem implements_unsynced {e : IoError} (h : SameFiles w₀ (.temporary f) d w) :
    OnDisk law w₀ f BothOk
      (Fallible.ofExcept (.error e) : Fallible (DiskOp.iface Path) IoError Unit).run
      (do Fallible.ofExcept (← perform (.fs .sync)) : Fallible iface IoError Unit).run d w :=
  implements_coarseE (x := .error .other) ⟨_, ⟨w.files, ⟨rfl, .inr ⟨rfl, rfl⟩⟩, rfl⟩, .refl _ _⟩
    (implements_ret h trivial)

/-- From the temporary file written on. -/
theorem rename_implements {i : ℕ} (ha : Alone (.temporary f) d₁)
    (hi : d₁.names (.temporary f) = some i) :
    OnDisk law w₀ f BothOk (do
        Fallible.ofExcept (← StateStore.call (.rename (.temporary f) (.file f)))
        Fallible.ofExcept (← StateStore.call .syncDirectory) :
          Fallible (DiskOp.iface Path) IoError Unit).run
      (do
        Fallible.ofExcept (← perform (.fs (.rename (.temporary f) (.file f))))
        Fallible.ofExcept (← perform (.fs .sync)) : Fallible iface IoError Unit).run
      d₁ { w₀ with files := d₁.files } := by
  have hgone : Alone (.temporary f) (d₁.move (.temporary f) (.file f)) :=
    alone_none (Function.update_self _ _ _)
  refine implements_fineE (catches_now ⟨rfl, ha⟩) (fun _ hc => hc.elim) fun x d₂ hact => ?_
  cases x with
  | ok u =>
    obtain ⟨-, rfl⟩ := hact
    refine implements_renamed hi ?_
    refine implements_fineE (catches_now ⟨rfl, hgone⟩) (fun _ hc => hc.elim) fun x d₃ hact => ?_
    cases x with
    | ok u =>
      obtain rfl : d₃ = _ := hact
      exact implements_coarseE (x := .ok ()) ⟨_, ⟨_, ⟨rfl, .inl rfl⟩, rfl⟩, .refl _ _⟩
        (implements_ret ⟨rfl, hgone⟩ trivial)
    | error e =>
      obtain rfl | rfl := hact
      · exact implements_unsynced ⟨rfl, hgone⟩
      · exact implements_unsynced ⟨rfl, hgone⟩
  | error e =>
    obtain rfl | ⟨-, rfl⟩ := hact
    · exact implements_coarseE (x := .error .other) ⟨_, ⟨_, .inr (.inr ⟨rfl, rfl, rfl⟩), rfl⟩,
        .refl _ _⟩ (implements_ret ⟨rfl, ha⟩ trivial)
    · -- it was renamed all the same: the coarse save fails one operation later
      exact implements_renamed hi (implements_unsynced ⟨rfl, hgone⟩)

/-- **`write_durably`** on both levels. -/
theorem writeDurably_implements (h : SameFiles w₀ (.temporary f) d w) :
    OnDisk law w₀ f BothOk
      (StateStore.writeDurably (.temporary f) (.file f) data).run (writeDurably f data).run d w := by
  refine implements_fineE (catches_now h) (fun _ hc => hc.elim) fun x d₁ ha => ?_
  obtain rfl : d₁ = d := ha
  refine implements_coarseE (x := x) ⟨w, rfl, .refl _ _⟩ ?_
  cases x with
  | error e => exact implements_ret h trivial
  | ok u =>
    have halone := h.2
    refine implements_before h (.refl halone) (fun d₂ hc => ?_) fun x d₂ ha => ?_
    · obtain ⟨c, i, ho⟩ := hc
      exact spoils_opened halone ho
    cases x with
    | error e =>
      obtain rfl | ⟨c, i, ho⟩ := ha
      · exact implements_spoiled h (.refl halone) (implements_ret ⟨rfl, halone⟩ trivial)
      · have hs := spoils_opened halone ho
        exact implements_spoiled h hs (implements_ret ⟨rfl, hs.2⟩ trivial)
    | ok i =>
      obtain ⟨hfiles, ha₂⟩ := files_opened halone ha
      have hi : d₂.names (.temporary f) = some i := ha.names_eq
      have hempty : d₂.data i = [] := ha.data_eq
      have hs₂ : Spoils (.temporary f) d₁ d₂ := ⟨⟨_, hfiles⟩, ha₂⟩
      refine implements_before h hs₂ (fun _ hc => hc.elim) fun x d₃ ha => ?_
      obtain rfl : d₃ = d₂ := ha
      cases x with
      | error e => exact implements_spoiled h hs₂ (implements_ret ⟨rfl, ha₂⟩ trivial)
      | ok u =>
        refine implements_before h hs₂ (fun d₄ hc => ?_) fun x d₄ ha => ?_
        · obtain ⟨c, rfl⟩ := hc
          exact spoils_fill ha₂ hi
        cases x with
        | error e =>
          obtain ⟨c, rfl⟩ := ha
          have hs := hs₂.trans (spoils_fill (c := c) ha₂ hi)
          exact implements_spoiled h hs (implements_ret ⟨rfl, hs.2⟩ trivial)
        | ok u =>
          obtain rfl : d₄ = _ := ha
          have hs₄ := hs₂.trans (spoils_fill (c := d₃.data i ++ data) ha₂ hi)
          refine implements_before h hs₄ (fun _ hc => hc.elim) fun x d₅ ha => ?_
          cases x with
          | error e =>
            obtain rfl | ⟨c, rfl⟩ := ha
            · have hs := hs₄.flush i
              exact implements_spoiled h hs (implements_ret ⟨rfl, hs.2⟩ trivial)
            · have hs := hs₄.trans (spoils_fill (c := c) hs₄.2 hi)
              exact implements_spoiled h hs (implements_ret ⟨rfl, hs.2⟩ trivial)
          | ok u =>
            obtain rfl : d₅ = _ := ha
            -- the temporary file is whole: the coarse write is done
            have hwhole : (d₃.fill i (d₃.data i ++ data)).files =
                FileOp.put d₁.files (.temporary f) (some data) := by
              rw [files_fill ha₂ hi, hfiles, hempty, List.nil_append, Function.update_idem]
            obtain ⟨rfl, -⟩ := h
            refine implements_coarseE (x := .ok ()) ⟨_, ⟨_, .inl ⟨rfl, rfl⟩, rfl⟩, .refl _ _⟩ ?_
            have hren := @rename_implements law w₀ f ((d₃.fill i (d₃.data i ++ data)).flush i) i
              (hs₄.flush i).2 hi
            rw [show ((d₃.fill i (d₃.data i ++ data)).flush i).files = _ from hwhole] at hren
            exact hren

/-! ## 3. The whole save -/

/-- Removing what is left of the temporary file. -/
theorem dropTemporary_implements {ε : Type} (h : SameFiles w₀ (.temporary f) d w) :
    OnDisk law w₀ f (BothOr (fun _ _ => True) fun _ _ => True)
      (StateStore.dropTemporary (.temporary f) : Fallible (DiskOp.iface Path) ε Unit).run
      (dropTemporary f : Fallible iface ε Unit).run d w := by
  obtain ⟨rfl, ha⟩ := h
  have hgone : Alone (.temporary f) (d.unlink (.temporary f)) := alone_none (Function.update_self _ _ _)
  refine implements_fineE (catches_now ⟨rfl, ha⟩) (fun _ hc => hc.elim) fun there d₁ hact => ?_
  obtain ⟨rfl, hthere⟩ := hact
  cases there with
  | false =>
    exact implements_coarseE (x := false) ⟨_, ⟨_, ⟨rfl, .inr ⟨rfl, rfl⟩⟩, rfl⟩, .refl _ _⟩
      (implements_ret ⟨rfl, ha⟩ trivial)
  | true =>
    have hsome : d₁.files (.temporary f) ≠ none := by
      intro hn
      exact hthere rfl (Option.map_eq_none_iff.mp hn)
    refine implements_coarseE (x := true) ⟨_, ⟨_, ⟨rfl, .inl ?_⟩, rfl⟩, .refl _ _⟩ ?_
    · exact (Option.isSome_iff_ne_none.mpr hsome).symm
    refine implements_fineE (catches_now ⟨rfl, ha⟩) (fun _ hc => hc.elim) fun x d₂ hact => ?_
    -- the answer is not looked at
    have hkept : OnDisk law w₀ f (BothOr (fun _ _ => True) fun _ _ => True)
        (pure () : Fallible (DiskOp.iface Path) ε Unit).run
        (do let _ ← perform (.fs (.remove (.temporary f))) : Fallible iface ε Unit).run d₁
        { w₀ with files := d₁.files } :=
      implements_coarseE (x := .error .other) ⟨_, ⟨_, .inr (.inr ⟨rfl, rfl, rfl⟩), rfl⟩, .refl _ _⟩
        (implements_ret ⟨rfl, ha⟩ trivial)
    have hdone : OnDisk law w₀ f (BothOr (fun _ _ => True) fun _ _ => True)
        (pure () : Fallible (DiskOp.iface Path) ε Unit).run
        (do let _ ← perform (.fs (.remove (.temporary f))) : Fallible iface ε Unit).run
        (d₁.unlink (.temporary f)) { w₀ with files := d₁.files } := by
      refine implements_coarseE (x := .ok ()) ⟨_, ⟨_, .inl ⟨hsome, rfl, rfl⟩, rfl⟩, .refl _ _⟩ ?_
      exact implements_ret ⟨by rw [files_unlink], hgone⟩ trivial
    cases x with
    | ok u =>
      obtain ⟨-, rfl⟩ := hact
      exact hdone
    | error e =>
      obtain rfl | rfl := hact
      · exact hkept
      · exact hdone

/-- **`save_bytes` on both levels**: each run of the fine save from a disk whose temporary file has no
    second name, finished, failed or killed anywhere, is a run of the coarse one that leaves the host
    the files of the disk, and returns `Ok` exactly where that one does. -/
theorem saveBytes_implements (h : Alone (.temporary f) d) :
    OnDisk law w₀ f (BothOr (fun _ _ => True) fun _ _ => True) (StateStore.saveBytes f data).run
      (saveBytes f data).run d { w₀ with files := d.files } := by
  refine implements_bindE (implements_lift (writeDurably_implements ⟨rfl, h⟩))
    fun r r' d₁ w₁ hr h₁ => ?_
  refine implements_bindE (dropTemporary_implements h₁) fun _ _ d₂ w₂ _ h₂ => ?_
  cases r with
  | ok u =>
    cases r' with
    | ok u' => exact implements_ret h₂ trivial
    | error e => exact hr.elim
  | error e =>
    cases r' with
    | ok u' => exact hr.elim
    | error e' => exact implements_ret h₂ trivial

end

/-- A save over what an interrupted one left. -/
theorem saveBytes_implements_test : ∃ (tr : List (Event (machine anyLaw))) (w : Host),
    Exec (machine anyLaw) { hostAt 400 with files := (StateStore.interrupted default).disk.files }
      (save StateStore.sample).run tr (some (.ok ())) w := by
  have halone : Alone (.temporary .state) (StateStore.interrupted default).disk := by
    intro p i hp hi hpi
    obtain ⟨f, rfl⟩ | ⟨f, rfl⟩ : (∃ f, p = .file f) ∨ ∃ f, p = .temporary f := by
      cases p <;> simp
    · cases f <;> cases hi <;> cases hpi
    · cases f <;> cases hi <;> cases hpi
      exact hp rfl
  obtain ⟨tr, d', h⟩ := StateStore.interrupted_saved default StateStore.sample
  obtain ⟨tr', o, w, hx, -, ho⟩ :=
    (@saveBytes_implements anyLaw (hostAt 400) .state _ _ halone).runs _ _ _ h
  cases o with
  | none => exact ho.elim
  | some r =>
    cases r with
    | ok u => exact ⟨tr', w, hx⟩
    | error e => exact ho.elim

end Sn46Validator.Validator
