/-
  File:      Library/Storage.lean
  Subject:   FILE OPERATIONS ON A DISK THAT CAN LOSE POWER: what each does to the files, and to the
             files that may come back.

  A disk has several directories here: `κ` says in which one a name is. Syncing one leaves the changes
  of the others at the mercy of a power loss.

  * `Lost d f` -- a power loss may leave the files `f`; `Firm p d` -- the file of `p` is synced;
    `settleIn` -- the names of one directory are synced;
  * `Alone`, `Tidy` -- a file that is written to has one name only, whatever a power loss makes of the
    directories;
  * `files_*`, `tidy_*`, `lost_*`, `firm_*` -- one rule for each change of the disk;
  * `Touches t` -- at most the file of `t` was written to;
  * `FileOp.actOn`, `FileOp.cutOn` -- the operations of Library/Files on a disk; `Due` -- what the
    next `sync` is of;
  * `act_of_actOn`, `cut_of_cutOn` -- **on the files they are the operations of Library/Files**.
-/
import Sn46Validator.Library.Disk

namespace Library.Disk

variable {P D : Type} {p q r t : P} {i : Nat} {c : Bytes} {d d' d'' : Disk P} {f g : Files P}
  {κ : P → D} {W S : P → Prop}

/-! ## 1. What may come back -/

/-- **The files that a power loss may leave.** -/
def Lost (d : Disk P) (f : Files P) : Prop := ∃ d', PowerLoss d d' ∧ d'.files = f

theorem lost_iff : Lost d f ↔
    ∃ m c, d.kept m ∧ (∀ i, d.synced i → c i = d.data i) ∧ f = fun p => (m p).map c := by
  constructor
  · intro h
    obtain ⟨_, @⟨m, c, hm, hc⟩, rfl⟩ := h
    exact ⟨m, c, hm, hc, rfl⟩
  · intro h
    obtain ⟨m, c, hm, hc, rfl⟩ := h
    exact ⟨_, .back hm hc, rfl⟩

/-- A power loss may lose nothing. -/
theorem lost_files (d : Disk P) : Lost d d.files :=
  lost_iff.mpr ⟨d.names, d.data, d.names_kept, fun _ _ => rfl, rfl⟩

/-- What came back is not lost again. -/
theorem PowerLoss.lost_eq (hl : PowerLoss d d') (h : Lost d' f) : f = d'.files := by
  obtain ⟨hm, hc⟩ := hl
  obtain ⟨m, c, hkept, hcc, rfl⟩ := lost_iff.mp h
  cases hkept
  rw [funext fun i => hcc i trivial]
  rfl

/-- **The file of `p`, if there is one, is synced.** -/
def Firm (p : P) (d : Disk P) : Prop := ∀ i, d.names p = some i → d.synced i

/-- **The names of `S` are synced**, and no others. -/
def settleIn (d : Disk P) (S : P → Prop) : Disk P where
  names := d.names
  data := d.data
  synced := d.synced
  kept m := ∃ m₀, d.kept m₀ ∧ (∀ p, S p → m p = d.names p) ∧ ∀ p, ¬S p → m p = m₀ p
  next := d.next
  names_kept := ⟨d.names, d.names_kept, fun _ _ => rfl, fun _ _ => rfl⟩
  numbered := by
    intro m hm p i hp
    obtain ⟨m₀, hm₀, hin, hout⟩ := hm
    by_cases hS : S p
    · exact d.numbered _ d.names_kept p i ((hin p hS).symm.trans hp)
    · exact d.numbered m₀ hm₀ p i ((hout p hS).symm.trans hp)

/-- A name of one of these directories is as it is now, or as it may be without the sync. -/
theorem kept_settleIn {m : Names P} (hm : (d.settleIn S).kept m) (p : P) :
    ∃ m₀, d.kept m₀ ∧ m p = m₀ p ∧ (S p → m₀ = d.names) := by
  obtain ⟨m₀, hm₀, hin, hout⟩ := hm
  by_cases hS : S p
  · exact ⟨d.names, d.names_kept, hin p hS, fun _ => rfl⟩
  · exact ⟨m₀, hm₀, hout p hS, fun h => absurd h hS⟩

/-! ## 2. One name a file -/

/-- **No other name stands for the file of `t`.** -/
def Alone (t : P) (d : Disk P) : Prop :=
  ∀ p i, p ≠ t → d.names t = some i → d.names p ≠ some i

theorem alone_none (h : d.names t = none) : Alone t d := by
  intro p i _ hi
  rw [h] at hi
  cases hi

/-- **A tidy disk**: whatever a power loss makes of it, no file has two names, none is found in two
    directories, and the file that a name of `W` stands for now has no other name. -/
structure Tidy (κ : P → D) (W : P → Prop) (d : Disk P) : Prop where
  inj : ∀ m, d.kept m → ∀ p q i, m p = some i → m q = some i → p = q
  dir : ∀ m m', d.kept m → d.kept m' → ∀ p q i, m p = some i → m' q = some i → κ p = κ q
  single : ∀ t, W t → ∀ i, d.names t = some i → ∀ m, d.kept m → ∀ p, m p = some i → p = t

theorem Tidy.alone (h : Tidy κ W d) (ht : W t) : Alone t d := fun p _ hp hi hpi =>
  hp (h.single t ht _ hi _ d.names_kept p hpi)

/-- What comes back from a power loss is tidy, and every file in it is synced. -/
theorem Tidy.powerLoss (h : Tidy κ W d) (hl : PowerLoss d d') :
    Tidy κ W d' ∧ ∀ p, Firm p d' := by
  obtain ⟨hm, hc⟩ := hl
  refine ⟨⟨?_, ?_, ?_⟩, fun _ _ _ => trivial⟩
  · intro m' hm'
    cases hm'
    exact h.inj _ hm
  · intro m' m'' hm' hm''
    cases hm'
    cases hm''
    exact h.dir _ _ hm hm
  · intro t _ i hi m' hm' p hp
    cases hm'
    exact h.inj _ hm p t i hp hi

theorem tidy_fill (h : Tidy κ W d) (i : Nat) (c : Bytes) : Tidy κ W (d.fill i c) :=
  ⟨h.inj, h.dir, h.single⟩

theorem tidy_flush (h : Tidy κ W d) (i : Nat) : Tidy κ W (d.flush i) :=
  ⟨h.inj, h.dir, h.single⟩

/-- A directory is synced. -/
theorem tidy_settleIn (h : Tidy κ W d) (a : D) : Tidy κ W (d.settleIn fun p => κ p = a) := by
  refine ⟨fun m hm p q i hp hq => ?_, fun m m' hm hm' p q i hp hq => ?_,
    fun t ht i hi m hm p hp => ?_⟩
  · have hpq : κ p = κ q := by
      obtain ⟨m₁, hm₁, he₁, -⟩ := kept_settleIn hm p
      obtain ⟨m₂, hm₂, he₂, -⟩ := kept_settleIn hm q
      exact h.dir m₁ m₂ hm₁ hm₂ p q i (he₁ ▸ hp) (he₂ ▸ hq)
    -- both names are of the synced directory, or neither is
    obtain ⟨m₀, hm₀, hin, hout⟩ := hm
    by_cases hpa : κ p = a
    · rw [hin p hpa] at hp
      rw [hin q (hpq.symm.trans hpa)] at hq
      exact h.inj _ d.names_kept p q i hp hq
    · rw [hout p hpa] at hp
      rw [hout q fun hqa => hpa (hpq.trans hqa)] at hq
      exact h.inj m₀ hm₀ p q i hp hq
  · obtain ⟨m₁, hm₁, he₁, -⟩ := kept_settleIn hm p
    obtain ⟨m₂, hm₂, he₂, -⟩ := kept_settleIn hm' q
    exact h.dir m₁ m₂ hm₁ hm₂ p q i (he₁ ▸ hp) (he₂ ▸ hq)
  · obtain ⟨m₁, hm₁, he₁, -⟩ := kept_settleIn hm p
    exact h.single t ht i hi m₁ hm₁ p (he₁ ▸ hp)

/-- No name stands for a file that is to be created. -/
theorem names_fresh {m : Names P} (hm : d.kept m) (p : P) : m p ≠ some d.next := fun h =>
  Nat.lt_irrefl _ (d.numbered _ hm p _ h)

/-- **A change of a tidy directory** that gives one name, `q`, the file `o`, or none a file. -/
theorem tidy_relink {F : Names P → Names P} {n : Nat} {hle : d.next ≤ n}
    {hn : ∀ m, d.kept m → ∀ p i, F m p = some i → i < n} {o : Option Nat} (h : Tidy κ W d)
    (hF : ∀ m, d.kept m → ∀ p i, F m p = some i → m p = some i ∧ o ≠ some i ∨ p = q ∧ o = some i)
    (hq : W q → ∀ m, d.kept m → ∀ p i, m p = some i → o ≠ some i)
    (hdir : ∀ m, d.kept m → ∀ p i, m p = some i → o = some i → κ p = κ q) :
    Tidy κ W (d.relink F n hle hn) := by
  -- where a name is in a changed directory: it was there before, or it was given the file
  have hold : ∀ m, (d.relink F n hle hn).kept m → ∀ p i, m p = some i →
      (∃ m₀, d.kept m₀ ∧ m₀ p = some i) ∨ p = q ∧ o = some i := by
    intro m hm p i hp
    rcases hm with hm | ⟨m₀, hm₀, rfl⟩
    · exact .inl ⟨m, hm, hp⟩
    · exact (hF m₀ hm₀ p i hp).imp (fun hp => ⟨m₀, hm₀, hp.1⟩) id
  refine ⟨fun m hm p r i hp hr => ?_, fun m m' hm hm' p r i hp hr => ?_,
    fun t ht i hi m hm p hp => ?_⟩
  · rcases hm with hm | ⟨m₀, hm₀, rfl⟩
    · exact h.inj m hm p r i hp hr
    · rcases hF m₀ hm₀ p i hp with ⟨hp', hno⟩ | ⟨hpq, ho⟩
      · rcases hF m₀ hm₀ r i hr with ⟨hr', -⟩ | ⟨-, ho⟩
        · exact h.inj m₀ hm₀ p r i hp' hr'
        · exact absurd ho hno
      · rcases hF m₀ hm₀ r i hr with ⟨-, hno⟩ | ⟨hrq, -⟩
        · exact absurd ho hno
        · rw [hpq, hrq]
  · rcases hold m hm p i hp with ⟨m₁, hm₁, hp⟩ | ⟨rfl, ho⟩
    · rcases hold m' hm' r i hr with ⟨m₂, hm₂, hr⟩ | ⟨rfl, ho⟩
      · exact h.dir m₁ m₂ hm₁ hm₂ p r i hp hr
      · exact hdir m₁ hm₁ p i hp ho
    · rcases hold m' hm' r i hr with ⟨m₂, hm₂, hr⟩ | ⟨rfl, -⟩
      · exact (hdir m₂ hm₂ r i hr ho).symm
      · rfl
  · rcases hF _ d.names_kept t i hi with ⟨hold, hno⟩ | ⟨htq, ho⟩
    · rcases hm with hm | ⟨m₀, hm₀, rfl⟩
      · exact h.single t ht i hold m hm p hp
      · rcases hF m₀ hm₀ p i hp with ⟨hp', -⟩ | ⟨-, ho⟩
        · exact h.single t ht i hold m₀ hm₀ p hp'
        · exact absurd ho hno
    · -- the name that was given a file: no directory from before the change has that file
      rcases hm with hm | ⟨m₀, hm₀, rfl⟩
      · exact absurd ho (hq (htq ▸ ht) m hm p i hp)
      · rcases hF m₀ hm₀ p i hp with ⟨-, hno⟩ | ⟨hpq, -⟩
        · exact absurd ho hno
        · rw [hpq, htq]

section

variable [DecidableEq P]

theorem tidy_create (h : Tidy κ W d) (p : P) : Tidy κ W (d.create p) := by
  have hno : ∀ m, d.kept m → ∀ p i, m p = some i → some d.next ≠ some i := fun m hm p i hp he =>
    names_fresh hm p (hp.trans he.symm)
  refine tidy_relink (q := p) (o := some d.next) h (fun m hm r i hr => ?_) (fun _ => hno)
    fun m hm r i hr ho => absurd ho (hno m hm r i hr)
  by_cases hrp : r = p
  · rw [hrp, Function.update_self] at hr
    exact .inr ⟨hrp, hr⟩
  · rw [Function.update_of_ne hrp] at hr
    exact .inl ⟨hr, hno m hm r i hr⟩

theorem tidy_unlink (h : Tidy κ W d) (p : P) : Tidy κ W (d.unlink p) := by
  refine tidy_relink (q := p) (o := none) h (fun m hm r i hr => .inl ?_)
    (fun _ _ _ _ i _ => (Option.some_ne_none i).symm)
    fun _ _ _ i _ ho => absurd ho.symm (Option.some_ne_none i)
  by_cases hrp : r = p
  · rw [hrp, Function.update_self] at hr
    cases hr
  · rw [Function.update_of_ne hrp] at hr
    exact ⟨hr, (Option.some_ne_none i).symm⟩

theorem tidy_move (h : Tidy κ W d) (hp : W p) (hq : ¬W q) (hpq : κ p = κ q) :
    Tidy κ W (d.move p q) := by
  refine tidy_relink (q := q) (o := d.names p) h (fun m hm r i hr => ?_) (fun hw => absurd hw hq)
    fun m hm r i hr ho => h.single p hp i ho m hm r hr ▸ hpq
  by_cases hrp : r = p
  · rw [hrp, Function.update_self] at hr
    cases hr
  · rw [Function.update_of_ne hrp] at hr
    by_cases hrq : r = q
    · rw [hrq, Function.update_self] at hr
      exact .inr ⟨hrq, hr⟩
    · rw [Function.update_of_ne hrq] at hr
      exact .inl ⟨hr, fun ho => hrp (h.single p hp i ho m hm r hr)⟩

theorem tidy_opened (h : Tidy κ W d) (ho : d.Opened t c i d') : Tidy κ W d' := by
  cases ho with
  | old hi => exact tidy_fill h _ _
  | new hn => exact tidy_fill (tidy_create h _) _ _

/-! ## 3. The files now -/

theorem files_fill (h : Alone t d) (hi : d.names t = some i) :
    (d.fill i c).files = Function.update d.files t (some c) := by
  funext p
  show (d.names p).map (Function.update d.data i c) = _
  by_cases hp : p = t
  · subst hp
    rw [hi, Function.update_self]
    simp
  · rw [Function.update_of_ne hp]
    cases hn : d.names p with
    | none => simp [Disk.files, hn]
    | some j =>
      have hne : j ≠ i := fun he => h p i hp hi (he ▸ hn)
      simp [Disk.files, hn, Function.update_of_ne hne]

theorem create_names : (d.create t).names = Function.update d.names t (some d.next) := rfl

/-- Opening the file for writing. -/
theorem files_opened (h : Alone t d) (ho : d.Opened t c i d') :
    d'.files = Function.update d.files t (some c) ∧ Alone t d' := by
  cases ho with
  | old hi => exact ⟨files_fill h hi, h⟩
  | new hn =>
    have halone : Alone t (d.create t) := by
      intro p j hp hj
      rw [create_names, Function.update_self] at hj
      obtain rfl := Option.some.inj hj
      rw [create_names, Function.update_of_ne hp]
      exact names_fresh d.names_kept p
    refine ⟨?_, halone⟩
    rw [files_fill halone (by rw [create_names, Function.update_self])]
    funext p
    by_cases hp : p = t
    · rw [hp, Function.update_self, Function.update_self]
    · rw [Function.update_of_ne hp, Function.update_of_ne hp]
      show (Function.update d.names t _ p).map d.data = _
      rw [Function.update_of_ne hp]
      rfl

/-- The rename, on files. -/
theorem files_move (hi : d.names t = some i) (hne : q ≠ t) :
    (d.move t q).files = Function.update (Function.update d.files q (some (d.data i))) t none := by
  funext p
  show (Function.update (Function.update d.names q (d.names t)) t none p).map d.data = _
  by_cases hp : p = t
  · subst hp
    simp
  · by_cases hq : p = q
    · subst hq
      simp [Function.update_of_ne hne, hi]
    · simp [Function.update_of_ne hp, Function.update_of_ne hq, Disk.files]

theorem files_unlink : (d.unlink t).files = Function.update d.files t none := by
  funext p
  show (Function.update d.names t none p).map d.data = _
  by_cases hp : p = t
  · rw [hp, Function.update_self, Function.update_self]
    rfl
  · rw [Function.update_of_ne hp, Function.update_of_ne hp]
    rfl

/-! ## 4. The files that may come back -/

omit [DecidableEq P] in
theorem lost_fill (h : Tidy κ W d) (ht : W t) (hi : d.names t = some i) (hf : Lost (d.fill i c) f) :
    ∃ g, Lost d g ∧ ∀ p, p ≠ t → f p = g p := by
  obtain ⟨m, c', hm, hc, rfl⟩ := lost_iff.mp hf
  refine ⟨_, lost_iff.mpr ⟨m, Function.update c' i (d.data i), hm, fun j hj => ?_, rfl⟩,
    fun p hp => ?_⟩
  · by_cases hji : j = i
    · rw [hji, Function.update_self]
    · rw [Function.update_of_ne hji, hc j ⟨hji, hj⟩]
      exact Function.update_of_ne hji _ _
  · refine Option.map_congr fun j hj => (Function.update_of_ne ?_ _ _).symm
    intro hji
    exact hp (h.single t ht i hi m hm p (hji ▸ hj))

omit [DecidableEq P] in
theorem lost_flush (hf : Lost (d.flush i) f) : Lost d f := by
  obtain ⟨m, c', hm, hc, rfl⟩ := lost_iff.mp hf
  exact lost_iff.mpr ⟨m, c', hm, fun j hj => hc j (.inr hj), rfl⟩

omit [DecidableEq P] in
/-- **What is synced stays**: in a directory that is synced, a synced file comes back as it is. -/
theorem lost_settleIn (hf : Lost (d.settleIn S) f) :
    (∃ g, Lost d g ∧ ∀ p, ¬S p → f p = g p) ∧ (∃ g, Lost d g ∧ ∀ p, S p → f p = g p) ∧
      ∀ p, S p → Firm p d → f p = d.files p := by
  obtain ⟨m, c', ⟨m₀, hm₀, hin, hout⟩, hc, rfl⟩ := lost_iff.mp hf
  refine ⟨⟨_, lost_iff.mpr ⟨m₀, c', hm₀, hc, rfl⟩, fun p hp => ?_⟩,
    ⟨_, lost_iff.mpr ⟨_, c', d.names_kept, hc, rfl⟩, fun p hp => ?_⟩, fun p hS hp => ?_⟩
  · exact congrArg _ (hout p hp)
  · exact congrArg _ (hin p hp)
  · show (m p).map c' = (d.names p).map d.data
    rw [hin p hS]
    exact Option.map_congr fun j hj => hc j (hp j hj)

omit [DecidableEq P] in
theorem lost_relink {F : Names P → Names P} {n : Nat} {hle : d.next ≤ n}
    {hn : ∀ m, d.kept m → ∀ p i, F m p = some i → i < n} (hf : Lost (d.relink F n hle hn) f) :
    Lost d f ∨ ∃ m c, d.kept m ∧ (∀ i, d.synced i → c i = d.data i) ∧
      f = fun p => (F m p).map c := by
  obtain ⟨m, c', hm, hc, rfl⟩ := lost_iff.mp hf
  rcases hm with hm | ⟨m₀, hm₀, rfl⟩
  · exact .inl (lost_iff.mpr ⟨m, c', hm, hc, rfl⟩)
  · exact .inr ⟨m₀, c', hm₀, hc, rfl⟩

theorem lost_create (hf : Lost (d.create t) f) : ∃ g, Lost d g ∧ ∀ p, p ≠ t → f p = g p := by
  rcases lost_relink hf with hf | ⟨m, c', hm, hc, rfl⟩
  · exact ⟨f, hf, fun _ _ => rfl⟩
  · refine ⟨_, lost_iff.mpr ⟨m, c', hm, hc, rfl⟩, fun p hp => ?_⟩
    exact congrArg _ (Function.update_of_ne hp _ _)

theorem lost_opened (h : Tidy κ W d) (ht : W t) (ho : d.Opened t c i d') (hf : Lost d' f) :
    ∃ g, Lost d g ∧ ∀ p, p ≠ t → f p = g p := by
  cases ho with
  | old hi => exact lost_fill h ht hi hf
  | new hn =>
    obtain ⟨g, hg, hfg⟩ := lost_fill (tidy_create h t) ht (Function.update_self _ _ _) hf
    obtain ⟨g', hg', hgg⟩ := lost_create hg
    exact ⟨g', hg', fun p hp => (hfg p hp).trans (hgg p hp)⟩

theorem lost_unlink (hf : Lost (d.unlink t) f) :
    Lost d f ∨ ∃ g, Lost d g ∧ f = Function.update g t none := by
  refine (lost_relink hf).imp id fun hf => ?_
  obtain ⟨m, c', hm, hc, rfl⟩ := hf
  refine ⟨_, lost_iff.mpr ⟨m, c', hm, hc, rfl⟩, ?_⟩
  funext p
  by_cases hp : p = t
  · rw [hp, Function.update_self, Function.update_self]
    rfl
  · rw [Function.update_of_ne hp, Function.update_of_ne hp]

/-- **The rename of a synced file is done or not.** -/
theorem lost_move (hi : d.names t = some i) (hs : d.synced i) (hf : Lost (d.move t q) f) :
    Lost d f ∨ ∃ g, Lost d g ∧
      f = Function.update (Function.update g q (some (d.data i))) t none := by
  refine (lost_relink hf).imp id fun hf => ?_
  obtain ⟨m, c', hm, hc, rfl⟩ := hf
  refine ⟨_, lost_iff.mpr ⟨m, c', hm, hc, rfl⟩, ?_⟩
  funext p
  by_cases hp : p = t
  · rw [hp, Function.update_self, Function.update_self]
    rfl
  · rw [Function.update_of_ne hp, Function.update_of_ne hp]
    by_cases hq : p = q
    · rw [hq, Function.update_self, Function.update_self, hi, Option.map_some, hc i hs]
    · rw [Function.update_of_ne hq, Function.update_of_ne hq]

/-! ## 5. What is synced -/

omit [DecidableEq P] in
theorem firm_fill (h : Tidy κ W d) (ht : W t) (hi : d.names t = some i) (hp : p ≠ t)
    (hf : Firm p d) : Firm p (d.fill i c) := fun j hj =>
  ⟨fun hji => hp (h.single t ht i hi _ d.names_kept p (hji ▸ hj)), hf j hj⟩

omit [DecidableEq P] in
theorem firm_flush (hf : Firm p d) : Firm p (d.flush i) := fun j hj => .inr (hf j hj)

omit [DecidableEq P] in
theorem firm_flushed (hi : d.names p = some i) : Firm p (d.flush i) := fun _ hj =>
  .inl (Option.some.inj (hj.symm.trans hi))

theorem firm_create (hp : p ≠ t) (hf : Firm p d) : Firm p (d.create t) := fun j hj =>
  hf j ((Function.update_of_ne hp _ _).symm.trans hj)

theorem firm_opened (h : Tidy κ W d) (ht : W t) (ho : d.Opened t c i d') (hp : p ≠ t)
    (hf : Firm p d) : Firm p d' := by
  cases ho with
  | old hi => exact firm_fill h ht hi hp hf
  | new hn =>
    exact firm_fill (tidy_create h t) ht (Function.update_self _ _ _) hp (firm_create hp hf)

omit [DecidableEq P] in
theorem firm_none (hn : d.names p = none) : Firm p d := by
  intro i hi
  rw [hn] at hi
  cases hi

theorem firm_unlink (hf : Firm p d) : Firm p (d.unlink t) := by
  intro j hj
  by_cases hp : p = t
  · rw [show (d.unlink t).names p = none from hp ▸ Function.update_self _ _ _] at hj
    cases hj
  · exact hf j ((Function.update_of_ne hp _ _).symm.trans hj)

theorem firm_move (ht : Firm t d) (hf : p ≠ q → Firm p d) : Firm p (d.move t q) := by
  intro j hj
  replace hj : Function.update (Function.update d.names q (d.names t)) t none p = some j := hj
  by_cases hp : p = t
  · rw [hp, Function.update_self] at hj
    cases hj
  · rw [Function.update_of_ne hp] at hj
    by_cases hq : p = q
    · rw [hq, Function.update_self] at hj
      exact ht j hj
    · rw [Function.update_of_ne hq] at hj
      exact hf hq j hj

/-! ## 6. A file that is written to -/

/-- **At most the file of `t` was touched.** -/
structure Touches (κ : P → D) (W : P → Prop) (t : P) (d d' : Disk P) : Prop where
  tidy : Tidy κ W d'
  files : ∃ c, d'.files = Function.update d.files t c
  lost : ∀ f, Lost d' f → ∃ g, Lost d g ∧ ∀ p, p ≠ t → f p = g p
  firm : ∀ p, p ≠ t → Firm p d → Firm p d'

theorem Touches.refl (h : Tidy κ W d) (t : P) : Touches κ W t d d :=
  ⟨h, ⟨_, (Function.update_eq_self t d.files).symm⟩, fun f hf => ⟨f, hf, fun _ _ => rfl⟩,
    fun _ _ hf => hf⟩

theorem touches_opened (h : Tidy κ W d) (ht : W t) (ho : d.Opened t c i d') :
    Touches κ W t d d' :=
  ⟨tidy_opened h ho, ⟨_, (files_opened (h.alone ht) ho).1⟩,
    fun _ hf => lost_opened h ht ho hf, fun _ hp hf => firm_opened h ht ho hp hf⟩

omit [DecidableEq P] in
theorem Touches.flush [DecidableEq P] (h : Touches κ W t d d') (i : Nat) :
    Touches κ W t d (d'.flush i) :=
  ⟨tidy_flush h.tidy i, h.files, fun f hf => h.lost f (lost_flush hf),
    fun p hp hf => firm_flush (h.firm p hp hf)⟩

theorem touches_unlink (h : Tidy κ W d) (t : P) : Touches κ W t d (d.unlink t) := by
  refine ⟨tidy_unlink h t, ⟨_, files_unlink⟩, fun f hf => ?_, fun p _ hf => firm_unlink hf⟩
  rcases lost_unlink hf with hf | ⟨g, hg, rfl⟩
  · exact ⟨f, hf, fun _ _ => rfl⟩
  · exact ⟨g, hg, fun p hp => Function.update_of_ne hp _ _⟩

/-- What a write that was cut, or that failed, leaves: the file holds anything, synced or not. -/
def Spoilt (t : P) (d d' : Disk P) : Prop :=
  d' = d ∨ ∃ c i d₁, d.Opened t c i d₁ ∧ (d' = d₁ ∨ d' = d₁.flush i)

theorem touches_spoilt (h : Tidy κ W d) (ht : W t) (hs : Spoilt t d d') : Touches κ W t d d' := by
  obtain rfl | ⟨c, i, d₁, ho, rfl | rfl⟩ := hs
  · exact .refl h t
  · exact touches_opened h ht ho
  · exact (touches_opened h ht ho).flush i

/-- **A file that was written and synced.** -/
theorem touches_synced (h : Tidy κ W d) (ht : W t) (ho : d.Opened t c i d') :
    Touches κ W t d (d'.flush i) ∧ (d'.flush i).files = Function.update d.files t (some c) ∧
      Firm t (d'.flush i) :=
  ⟨(touches_opened h ht ho).flush i, (files_opened (h.alone ht) ho).1, firm_flushed ho.names_eq⟩

end

end Library.Disk

namespace Library

open Disk

/-- **What a `sync` is of**: the file that was just copied, and then its directory; else the
    directory of the last rename. -/
inductive Due (P D : Type) where
  | file (p : P)
  | directory (a : D)

namespace FileOp

variable {P D : Type} {κ : P → D} {W : P → Prop} {d d' : Disk P} {due : Due P D}

/-! ## 7. The operations -/

/-- What the `sync` after an operation is of. -/
def dueAfter (κ : P → D) : FileOp P → Due P D → Due P D
  | copy _ q, _ => .file q
  | rename _ q, _ => .directory (κ q)
  | sync, .file p => .directory (κ p)
  | _, due => due

variable [DecidableEq P]

/-- **A completed operation on a disk**, one for each group of system calls. A failed one may have
    written part of the file; the sync of a directory may fail, and a probe may miss what is there. -/
def actOn (κ : P → D) (due : Due P D) (d : Disk P) : (op : FileOp P) → op.Ans → Disk P → Prop
  | read p, x, d' => d' = d ∧
      (x = (match d.files p with | some b => .ok b | none => .error .notFound) ∨
        x = .error .other)
  | probe p, x, d' | isFile p, x, d' => d' = d ∧ (x = (d.files p).isSome ∨ x = false)
  | write p data, x, d' =>
      x = .ok () ∧ (∃ i d₁, d.Opened p data i d₁ ∧ d' = d₁.flush i) ∨
      x = .error .other ∧ Spoilt p d d'
  | create p data, x, d' =>
      d.names p = none ∧ x = .ok () ∧ (∃ i d₁, d.Opened p data i d₁ ∧ d' = d₁.flush i) ∨
      d.names p ≠ none ∧ x = .error .alreadyExists ∧ d' = d ∨
      d.names p = none ∧ x = .error .other ∧ Spoilt p d d'
  | rename p q, x, d' =>
      d.names p ≠ none ∧ x = .ok () ∧ d' = d.move p q ∨
      d.names p = none ∧ x = .error .notFound ∧ d' = d ∨
      x = .error .other ∧ d' = d
  | remove p, x, d' =>
      d.names p ≠ none ∧ x = .ok () ∧ d' = d.unlink p ∨
      d.names p = none ∧ x = .error .notFound ∧ d' = d ∨
      x = .error .other ∧ d' = d
  | copy p q, x, d' =>
      (∃ b i, d.files p = some b ∧ x = .ok () ∧ d.Opened q b i d') ∨
      d.names p = none ∧ x = .error .notFound ∧ d' = d ∨
      x = .error .other ∧ Spoilt q d d'
  | sync, x, d' =>
    match due with
    | .file p => x = .ok () ∧ (∃ i, d.names p = some i ∧ d' = d.flush i) ∨
        x = .error .other ∧ d' = d
    | .directory a => x = .ok () ∧ d' = (d.settleIn fun p => κ p = a) ∨ x = .error .other ∧ d' = d

/-- **What a kill inside an operation leaves behind.** -/
def cutOn (d : Disk P) : FileOp P → Disk P → Prop
  | write p _, d' | copy _ p, d' => Spoilt p d d'
  | create p _, d' => d.names p = none ∧ Spoilt p d d'
  | _, _ => False

/-- The names an operation writes to are those of `W`, and it renames them to others in the same
    directory. -/
def Fits (κ : P → D) (W : P → Prop) : FileOp P → Prop
  | write p _ | create p _ | copy _ p => W p
  | rename p q => W p ∧ ¬W q ∧ κ p = κ q
  | _ => True

omit [DecidableEq P] in
theorem files_none {p : P} : d.files p = none ↔ d.names p = none := Option.map_eq_none_iff

/-- The file that opening `p` for writing gives, and the disk with the content `c` in it. -/
def opens (d : Disk P) (p : P) (c : Bytes) : Nat × Disk P :=
  match d.names p with
  | some i => (i, d.fill i c)
  | none => (d.next, (d.create p).fill d.next c)

theorem opened_opens (d : Disk P) (p : P) (c : Bytes) :
    d.Opened p c (opens d p c).1 (opens d p c).2 := by
  unfold opens
  cases h : d.names p with
  | none => exact .new h
  | some i => exact .old h

/-- What an operation does when nothing fails. -/
def execOn (κ : P → D) (due : Due P D) (d : Disk P) : (op : FileOp P) → op.Ans × Disk P
  | read p => (match d.files p with | some b => .ok b | none => .error .notFound, d)
  | probe p | isFile p => ((d.files p).isSome, d)
  | write p data => (.ok (), (opens d p data).2.flush (opens d p data).1)
  | create p data =>
    match d.names p with
    | some _ => (.error .alreadyExists, d)
    | none => (.ok (), (opens d p data).2.flush (opens d p data).1)
  | rename p q =>
    match d.names p with
    | some _ => (.ok (), d.move p q)
    | none => (.error .notFound, d)
  | remove p =>
    match d.names p with
    | some _ => (.ok (), d.unlink p)
    | none => (.error .notFound, d)
  | copy p q =>
    match d.files p with
    | some b => (.ok (), (opens d q b).2)
    | none => (.error .notFound, d)
  | sync =>
    match due with
    | .file p =>
      match d.names p with
      | some i => (.ok (), d.flush i)
      | none => (.error .other, d)
    | .directory a => (.ok (), d.settleIn fun p => κ p = a)

/-- The fault-free operation is a completed one. -/
theorem actOn_execOn (κ : P → D) (due : Due P D) (d : Disk P) (op : FileOp P) :
    op.actOn κ due d (execOn κ due d op).1 (execOn κ due d op).2 := by
  cases op with
  | read p => exact ⟨rfl, .inl rfl⟩
  | probe p | isFile p => exact ⟨rfl, .inl rfl⟩
  | write p data => exact .inl ⟨rfl, _, _, opened_opens d p data, rfl⟩
  | create p data =>
    cases h : d.names p with
    | some i => simp only [execOn, h]; exact .inr (.inl ⟨by rw [h]; exact nofun, rfl, rfl⟩)
    | none => simp only [execOn, h]; exact .inl ⟨h, rfl, _, _, opened_opens d p data, rfl⟩
  | rename p q =>
    cases h : d.names p with
    | some i => simp only [execOn, h]; exact .inl ⟨by rw [h]; exact nofun, rfl, rfl⟩
    | none => simp only [execOn, h]; exact .inr (.inl ⟨h, rfl, rfl⟩)
  | remove p =>
    cases h : d.names p with
    | some i => simp only [execOn, h]; exact .inl ⟨by rw [h]; exact nofun, rfl, rfl⟩
    | none => simp only [execOn, h]; exact .inr (.inl ⟨h, rfl, rfl⟩)
  | copy p q =>
    cases h : d.files p with
    | some b => simp only [execOn, h]; exact .inl ⟨b, _, h, rfl, opened_opens d q b⟩
    | none => simp only [execOn, h]; exact .inr (.inl ⟨Option.map_eq_none_iff.mp h, rfl, rfl⟩)
  | sync =>
    cases due with
    | file p =>
      cases h : d.names p with
      | some i => simp only [execOn, h]; exact .inl ⟨rfl, i, h, rfl⟩
      | none => simp only [execOn, h]; exact .inr ⟨rfl, rfl⟩
    | directory a => exact .inl ⟨rfl, rfl⟩

/-- **On the files it is the operation of a file system.** -/
theorem act_of_actOn {op : FileOp P} {x : op.Ans} (h : Tidy κ W d) (hfit : op.Fits κ W)
    (ha : op.actOn κ due d x d') : act true d.files op x d'.files ∧ Tidy κ W d' := by
  have hput : ∀ {p}, W p → Spoilt p d d' →
      (∃ c, d'.files = put d.files p c) ∧ Tidy κ W d' := fun hp hs =>
    ⟨(touches_spoilt h hp hs).files, (touches_spoilt h hp hs).tidy⟩
  cases op with
  | read p =>
    obtain ⟨rfl, hx⟩ := ha
    exact ⟨⟨rfl, hx.imp id fun hx => ⟨rfl, hx⟩⟩, h⟩
  | probe p | isFile p =>
    obtain ⟨rfl, hx⟩ := ha
    exact ⟨⟨rfl, hx.imp id fun hx => ⟨rfl, hx⟩⟩, h⟩
  | write p data =>
    rcases ha with ⟨rfl, i, d₁, ho, rfl⟩ | ⟨rfl, hs⟩
    · obtain ⟨htouch, hfiles, -⟩ := touches_synced h hfit ho
      exact ⟨.inl ⟨rfl, hfiles⟩, htouch.tidy⟩
    · exact ⟨.inr ⟨rfl, rfl, (hput hfit hs).1⟩, (hput hfit hs).2⟩
  | create p data =>
    rcases ha with ⟨hn, rfl, i, d₁, ho, rfl⟩ | ⟨hn, rfl, rfl⟩ | ⟨hn, rfl, hs⟩
    · obtain ⟨htouch, hfiles, -⟩ := touches_synced h hfit ho
      exact ⟨.inl ⟨files_none.mpr hn, rfl, hfiles⟩, htouch.tidy⟩
    · exact ⟨.inr (.inl ⟨fun he => hn (files_none.mp he), rfl, rfl⟩), h⟩
    · exact ⟨.inr (.inr ⟨rfl, rfl, (hput hfit hs).1⟩), (hput hfit hs).2⟩
  | rename p q =>
    rcases ha with ⟨hn, rfl, rfl⟩ | ⟨hn, rfl, rfl⟩ | ⟨rfl, rfl⟩
    · obtain ⟨i, hi⟩ := Option.ne_none_iff_exists'.mp hn
      have hne : q ≠ p := fun he => hfit.2.1 (he ▸ hfit.1)
      have hp : d.files p = some (d.data i) := by rw [Disk.files, hi, Option.map_some]
      exact ⟨.inl ⟨d.data i, hp, rfl, files_move hi hne⟩,
        tidy_move h hfit.1 hfit.2.1 hfit.2.2⟩
    · exact ⟨.inr (.inl ⟨files_none.mpr hn, rfl, rfl⟩), h⟩
    · exact ⟨.inr (.inr ⟨rfl, rfl, rfl⟩), h⟩
  | remove p =>
    rcases ha with ⟨hn, rfl, rfl⟩ | ⟨hn, rfl, rfl⟩ | ⟨rfl, rfl⟩
    · exact ⟨.inl ⟨fun he => hn (files_none.mp he), rfl, files_unlink⟩, tidy_unlink h p⟩
    · exact ⟨.inr (.inl ⟨files_none.mpr hn, rfl, rfl⟩), h⟩
    · exact ⟨.inr (.inr ⟨rfl, rfl, rfl⟩), h⟩
  | copy p q =>
    rcases ha with ⟨b, i, hb, rfl, ho⟩ | ⟨hn, rfl, rfl⟩ | ⟨rfl, hs⟩
    · exact ⟨.inl ⟨b, hb, rfl, (files_opened (h.alone hfit) ho).1⟩, tidy_opened h ho⟩
    · exact ⟨.inr (.inl ⟨files_none.mpr hn, rfl, rfl⟩), h⟩
    · exact ⟨.inr (.inr ⟨rfl, rfl, (hput hfit hs).1⟩), (hput hfit hs).2⟩
  | sync =>
    cases due with
    | file p =>
      rcases ha with ⟨rfl, i, -, rfl⟩ | ⟨rfl, rfl⟩
      · exact ⟨⟨rfl, .inl rfl⟩, tidy_flush h i⟩
      · exact ⟨⟨rfl, .inr ⟨rfl, rfl⟩⟩, h⟩
    | directory a =>
      rcases ha with ⟨rfl, rfl⟩ | ⟨rfl, rfl⟩
      · exact ⟨⟨rfl, .inl rfl⟩, tidy_settleIn h a⟩
      · exact ⟨⟨rfl, .inr ⟨rfl, rfl⟩⟩, h⟩

/-- **So is a kill inside it.** -/
theorem cut_of_cutOn {op : FileOp P} (h : Tidy κ W d) (hfit : op.Fits κ W)
    (hc : op.cutOn d d') : cut d.files op d'.files ∧ Tidy κ W d' := by
  cases op with
  | write p data | copy q p =>
    exact ⟨(touches_spoilt h hfit hc).files, (touches_spoilt h hfit hc).tidy⟩
  | create p data => exact ⟨(touches_spoilt h hfit hc.2).files, (touches_spoilt h hfit hc.2).tidy⟩
  | _ => exact hc.elim

end FileOp

end Library
