/-
  File:      Library/Disk.lean
  Subject:   A DIRECTORY ON A DISK THAT CAN LOSE POWER: what its names stand for now, and what they
             may stand for afterwards.

  A file is a number; a directory gives some names a file. What is not synced is at the mercy of a
  power loss: a file written since its last sync comes back with any content, and a change of the
  directory may be undone until the directory is synced. A rename is one change.

  * `Disk P` -- the names of `P`, the contents, and what a power loss keeps of both;
  * `PowerLoss` -- the disk that comes back;
  * `DiskOp` -- the operations. Each may fail, and a failed one may have had part of its effect;
  * `Replaces t q x d d'` -- from `d` to `d'` the file `q` was at most replaced by one that holds
    `x`, now and after a power loss, and the name `t` is free to be written. One lemma for each
    change that goes with it;
  * `Held q x` -- `q` holds `x`, and a power loss changes nothing of it.
-/
import Sn46Validator.Library.Files

namespace Library

/-- A directory: the file each name stands for. -/
abbrev Names (P : Type) : Type := P → Option Nat

/-- **A disk.** `synced i`: the content of the file `i` outlives a power loss; `kept m`: the power
    loss may leave the directory `m`; `next`: no file has this number or a higher one. -/
structure Disk (P : Type) where
  names : Names P
  data : Nat → Bytes
  synced : Nat → Prop
  kept : Names P → Prop
  next : Nat
  names_kept : kept names
  numbered : ∀ m, kept m → ∀ p i, m p = some i → i < next

namespace Disk

variable {P : Type}

/-- The files as a process reads them. -/
def files (d : Disk P) : Files P := fun p => (d.names p).map d.data

/-! ## 1. Power loss -/

/-- The disk that comes back with the directory `m` and the contents `c`. -/
def back (d : Disk P) (m : Names P) (c : Nat → Bytes) (hm : d.kept m) : Disk P where
  names := m
  data := c
  synced _ := True
  kept m' := m' = m
  next := d.next
  names_kept := rfl
  numbered := by
    intro m' hm' p i hp
    cases hm'
    exact d.numbered m hm p i hp

/-- **A power loss.** -/
inductive PowerLoss (d : Disk P) : Disk P → Prop where
  | back {m : Names P} {c : Nat → Bytes} (hm : d.kept m) (hc : ∀ i, d.synced i → c i = d.data i) :
      PowerLoss d (d.back m c hm)

/-- The content of `p` after some power loss. -/
def Survives (p : P) (d : Disk P) (f : Option Bytes) : Prop :=
  ∃ d', PowerLoss d d' ∧ d'.files p = f

theorem survives_iff {p : P} {d : Disk P} {f : Option Bytes} :
    Survives p d f ↔
      ∃ m c, d.kept m ∧ (∀ i, d.synced i → c i = d.data i) ∧ f = (m p).map c := by
  constructor
  · intro h
    obtain ⟨_, @⟨m, c, hm, hc⟩, rfl⟩ := h
    exact ⟨m, c, hm, hc, rfl⟩
  · intro h
    obtain ⟨m, c, hm, hc, rfl⟩ := h
    exact ⟨_, .back hm hc, rfl⟩

/-- A second power loss changes nothing of what the first left. -/
theorem Survives.of_powerLoss {p : P} {d d' : Disk P} {f : Option Bytes} (hl : PowerLoss d d')
    (h : Survives p d' f) : Survives p d f := by
  obtain ⟨hm, hc⟩ := hl
  obtain ⟨m', c', hm', hc', rfl⟩ := survives_iff.mp h
  cases hm'
  exact survives_iff.mpr ⟨_, _, hm, hc, by rw [funext fun i => hc' i trivial]; rfl⟩

/-! ## 2. Changes -/

/-- The file `i` is given the content `c`. -/
def fill (d : Disk P) (i : Nat) (c : Bytes) : Disk P where
  names := d.names
  data := Function.update d.data i c
  synced j := j ≠ i ∧ d.synced j
  kept := d.kept
  next := d.next
  names_kept := d.names_kept
  numbered := d.numbered

/-- The file `i` is synced. -/
def flush (d : Disk P) (i : Nat) : Disk P where
  names := d.names
  data := d.data
  synced j := j = i ∨ d.synced j
  kept := d.kept
  next := d.next
  names_kept := d.names_kept
  numbered := d.numbered

/-- A change `f` of the directory, one that a power loss may undo. -/
def relink (d : Disk P) (f : Names P → Names P) (next : Nat) (hle : d.next ≤ next)
    (hf : ∀ m, d.kept m → ∀ p i, f m p = some i → i < next) : Disk P where
  names := f d.names
  data := d.data
  synced := d.synced
  kept m := d.kept m ∨ ∃ m₀, d.kept m₀ ∧ m = f m₀
  next := next
  names_kept := .inr ⟨d.names, d.names_kept, rfl⟩
  numbered := by
    intro m hm p i hp
    rcases hm with hm | ⟨m₀, hm₀, rfl⟩
    · exact Nat.lt_of_lt_of_le (d.numbered m hm p i hp) hle
    · exact hf m₀ hm₀ p i hp

/-- The directory is synced. -/
def settle (d : Disk P) : Disk P where
  names := d.names
  data := d.data
  synced := d.synced
  kept m := m = d.names
  next := d.next
  names_kept := rfl
  numbered := by
    intro m hm p i hp
    cases hm
    exact d.numbered _ d.names_kept p i hp

variable [DecidableEq P]

/-- An update of a directory gives no other file a name. -/
theorem update_numbered {m : Names P} {n : Nat} {v : Option Nat} {q : P}
    (hm : ∀ p i, m p = some i → i < n) (hv : ∀ i, v = some i → i < n) (p : P) (i : Nat)
    (hp : Function.update m q v p = some i) : i < n := by
  by_cases hq : p = q
  · subst hq
    rw [Function.update_self] at hp
    exact hv i hp
  · rw [Function.update_of_ne hq] at hp
    exact hm p i hp

/-- The name `p` is given a new file. -/
def create (d : Disk P) (p : P) : Disk P :=
  d.relink (fun m => Function.update m p (some d.next)) (d.next + 1) (Nat.le_succ _)
    fun m hm => update_numbered (fun p i hp => Nat.lt_succ_of_lt (d.numbered m hm p i hp))
      fun _ hi => Option.some.inj hi ▸ Nat.lt_succ_self _

/-- The name `p` is removed. -/
def unlink (d : Disk P) (p : P) : Disk P :=
  d.relink (fun m => Function.update m p none) d.next (Nat.le_refl _)
    fun m hm => update_numbered (d.numbered m hm) fun _ hi => nomatch hi

/-- The file of `p` is renamed to `q`. -/
def move (d : Disk P) (p q : P) : Disk P :=
  d.relink (fun m => Function.update (Function.update m q (d.names p)) p none) d.next
    (Nat.le_refl _) fun m hm =>
      update_numbered (update_numbered (d.numbered m hm) (d.numbered _ d.names_kept p))
        fun _ hi => nomatch hi

/-- The file that opening `p` for writing gives, with the content `c`. -/
inductive Opened (d : Disk P) (p : P) (c : Bytes) : Nat → Disk P → Prop where
  | old {i : Nat} (hi : d.names p = some i) : Opened d p c i (d.fill i c)
  | new (hn : d.names p = none) : Opened d p c d.next ((d.create p).fill d.next c)

end Disk

/-! ## 3. Operations -/

/-- **Operations on a directory and its open files.** `openTruncated` creates the file if it must,
    `writeAll` writes behind what is there, `probe` asks whether there is such a name. -/
inductive DiskOp (P : Type) where
  | createDirectory
  | openTruncated (p : P)
  | setPermissions (i : Nat)
  | writeAll (i : Nat) (data : Bytes)
  | syncFile (i : Nat)
  | rename (src dst : P)
  | syncDirectory
  | probe (p : P)
  | remove (p : P)

namespace DiskOp

variable {P : Type}

/-- The type of each answer. -/
abbrev Ans : DiskOp P → Type
  | openTruncated _ => Except IoError Nat
  | probe _ => Bool
  | _ => Except IoError Unit

/-- The interface of a disk. -/
abbrev iface (P : Type) : Interface := ⟨DiskOp P, Ans⟩

variable [DecidableEq P]

/-- **A completed operation.** A failed one may have opened the file and truncated or spoilt it,
    written anything, lost what it was to sync, or done all it was asked for. -/
def act (d : Disk P) : (op : DiskOp P) → op.Ans → Disk P → Prop
  | createDirectory, _, d' | setPermissions _, _, d' => d' = d
  | openTruncated p, .ok i, d' => d.Opened p [] i d'
  | openTruncated p, .error _, d' => d' = d ∨ ∃ c i, d.Opened p c i d'
  | writeAll i data, .ok _, d' => d' = d.fill i (d.data i ++ data)
  | writeAll i _, .error _, d' => ∃ c, d' = d.fill i c
  | syncFile i, .ok _, d' => d' = d.flush i
  | syncFile i, .error _, d' => d' = d.flush i ∨ ∃ c, d' = d.fill i c
  | rename p q, .ok _, d' => d.names p ≠ none ∧ d' = d.move p q
  | rename p q, .error _, d' => d' = d ∨ d.names p ≠ none ∧ d' = d.move p q
  | syncDirectory, .ok _, d' => d' = d.settle
  | syncDirectory, .error _, d' => d' = d ∨ d' = d.settle
  | probe p, x, d' => d' = d ∧ (x = true → d.names p ≠ none)
  | remove p, .ok _, d' => d.names p ≠ none ∧ d' = d.unlink p
  | remove p, .error _, d' => d' = d ∨ d' = d.unlink p

/-- **What a kill inside an operation leaves behind**: a file half opened, or half written. -/
def cut (d : Disk P) : DiskOp P → Disk P → Prop
  | openTruncated p, d' => ∃ c i, d.Opened p c i d'
  | writeAll i _, d' => ∃ c, d' = d.fill i c
  | _, _ => False

/-- What an operation does when nothing fails. -/
def exec (d : Disk P) : (op : DiskOp P) → op.Ans × Disk P
  | createDirectory | setPermissions _ => (.ok (), d)
  | openTruncated p =>
    match d.names p with
    | some i => (.ok i, d.fill i [])
    | none => (.ok d.next, (d.create p).fill d.next [])
  | writeAll i data => (.ok (), d.fill i (d.data i ++ data))
  | syncFile i => (.ok (), d.flush i)
  | rename p q =>
    match d.names p with
    | some _ => (.ok (), d.move p q)
    | none => (.error .notFound, d)
  | syncDirectory => (.ok (), d.settle)
  | probe p => ((d.names p).isSome, d)
  | remove p =>
    match d.names p with
    | some _ => (.ok (), d.unlink p)
    | none => (.error .notFound, d)

/-- The fault-free operation is a completed one. -/
theorem act_exec (d : Disk P) (op : DiskOp P) : act d op (exec d op).1 (exec d op).2 := by
  cases op with
  | createDirectory | setPermissions => rfl
  | writeAll | syncFile | syncDirectory => rfl
  | openTruncated p =>
    cases h : d.names p with
    | none => simp only [exec, h]; exact .new h
    | some i => simp only [exec, h]; exact .old h
  | rename p q =>
    cases h : d.names p with
    | none => simp only [exec, h]; exact .inl rfl
    | some i => simp only [exec, h]; exact ⟨by rw [h]; exact nofun, rfl⟩
  | probe p => exact ⟨rfl, fun h => by simpa [exec, Option.isSome_iff_ne_none] using h⟩
  | remove p =>
    cases h : d.names p with
    | none => simp only [exec, h]; exact .inl rfl
    | some i => simp only [exec, h]; exact ⟨by rw [h]; exact nofun, rfl⟩

/-- **A disk as a machine.** -/
@[reducible] def machine (P : Type) [DecidableEq P] : Machine (iface P) where
  World := Disk P
  act := act
  cut := cut

end DiskOp

namespace Disk

variable {P : Type} {t q p : P} {x c : Bytes} {d d' d'' : Disk P} {i : Nat}

/-! ## 4. A file replaced through another name -/

/-- No file of `q` is one of `t`, whatever a power loss makes of the directory: what is written
    under `t` is not written to `q`. -/
def Apart (t q : P) (d : Disk P) : Prop :=
  ∀ m, d.kept m → ∀ i, m q = some i → d.names t ≠ some i ∧ m t ≠ some i

/-- **At most replaced**: `q` is as it was or holds `x`, now and after a power loss. -/
structure Replaces (t q : P) (x : Bytes) (d d' : Disk P) : Prop where
  apart : Apart t q d'
  now : d'.files q = d.files q ∨ d'.files q = some x
  lost : ∀ f, Survives q d' f → Survives q d f ∨ f = some x

theorem Replaces.refl (h : Apart t q d) : Replaces t q x d d :=
  ⟨h, .inl rfl, fun _ hf => .inl hf⟩

theorem Replaces.trans (h : Replaces t q x d d') (h' : Replaces t q x d' d'') :
    Replaces t q x d d'' where
  apart := h'.apart
  now := by
    rcases h'.now with he | he
    · exact he ▸ h.now
    · exact .inr he
  lost f hf := (h'.lost f hf).elim (h.lost f) .inr

/-- What comes back from a power loss has the two names apart. -/
theorem Apart.powerLoss (h : Apart t q d) (hl : PowerLoss d d') : Apart t q d' := by
  obtain ⟨hm, hc⟩ := hl
  intro m' hm' i hi
  cases hm'
  exact ⟨(h _ hm i hi).2, (h _ hm i hi).2⟩

/-- A file under the name `t` is written to. -/
theorem replaces_fill (h : Apart t q d) (hi : d.names t = some i) :
    Replaces t q x d (d.fill i c) := by
  have hne : ∀ m, d.kept m → m q ≠ some i := fun m hm hq => (h m hm i hq).1 hi
  refine ⟨h, .inl ?_, fun f hf => .inl ?_⟩
  · show (d.names q).map (Function.update d.data i c) = (d.names q).map d.data
    refine Option.map_congr fun j hj => Function.update_of_ne ?_ _ _
    rintro rfl
    exact hne _ d.names_kept hj
  · obtain ⟨m, c', hm, hc, rfl⟩ := survives_iff.mp hf
    refine survives_iff.mpr ⟨m, Function.update c' i (d.data i), hm, fun j hj => ?_, ?_⟩
    · by_cases hji : j = i
      · rw [hji, Function.update_self]
      · rw [Function.update_of_ne hji, hc j ⟨hji, hj⟩]
        exact Function.update_of_ne hji _ _
    · refine Option.map_congr fun j hj => (Function.update_of_ne ?_ _ _).symm
      rintro rfl
      exact hne m hm hj

/-- A file is synced. -/
theorem replaces_flush (h : Apart t q d) : Replaces t q x d (d.flush i) := by
  refine ⟨h, .inl rfl, fun f hf => .inl ?_⟩
  obtain ⟨m, c, hm, hc, rfl⟩ := survives_iff.mp hf
  exact survives_iff.mpr ⟨m, c, hm, fun j hj => hc j (.inr hj), rfl⟩

/-- The directory is synced. -/
theorem replaces_settle (h : Apart t q d) : Replaces t q x d d.settle := by
  refine ⟨fun m hm => ?_, .inl rfl, fun f hf => .inl ?_⟩
  · cases hm
    exact h _ d.names_kept
  · obtain ⟨m, c, hm, hc, rfl⟩ := survives_iff.mp hf
    cases hm
    exact survives_iff.mpr ⟨_, c, d.names_kept, hc, rfl⟩

section Relink

variable {f : Names P → Names P} {n : Nat} {hle : d.next ≤ n}
  {hf : ∀ m, d.kept m → ∀ p i, f m p = some i → i < n}

/-- A change of the directory that gives `t` the file `v`, or none, and `q` another. -/
theorem apart_relink {v : Option Nat} (h : Apart t q d) (ht : ∀ m, f m t = v)
    (hv : ∀ m, d.kept m → ∀ i, v = some i → m q ≠ some i ∧ f m q ≠ some i) :
    Apart t q (d.relink f n hle hf) := by
  intro m hm i hi
  have hnow : (d.relink f n hle hf).names t = v := ht _
  rw [hnow]
  rcases hm with hm | ⟨m₀, hm₀, rfl⟩
  · exact ⟨fun he => (hv m hm i he).1 hi, (h m hm i hi).2⟩
  · rw [ht]
    exact ⟨fun he => (hv m₀ hm₀ i he).2 hi, fun he => (hv m₀ hm₀ i he).2 hi⟩

/-- **A change of the directory** that gives `q` no other file than a synced one that holds `x`. -/
theorem replaces_relink (hap : Apart t q (d.relink f n hle hf))
    (hq : ∀ m, d.kept m → f m q = m q ∨ ∃ i, f m q = some i ∧ d.synced i ∧ d.data i = x) :
    Replaces t q x d (d.relink f n hle hf) := by
  refine ⟨hap, ?_, fun g hg => ?_⟩
  · show (f d.names q).map d.data = (d.names q).map d.data ∨ (f d.names q).map d.data = some x
    rcases hq _ d.names_kept with he | ⟨i, he, -, hx⟩
    · exact .inl (by rw [he])
    · exact .inr (by rw [he, Option.map_some, hx])
  · obtain ⟨m, c, hm, hc, rfl⟩ := survives_iff.mp hg
    rcases hm with hm | ⟨m₀, hm₀, rfl⟩
    · exact .inl (survives_iff.mpr ⟨m, c, hm, hc, rfl⟩)
    · rcases hq m₀ hm₀ with he | ⟨i, he, hs, hx⟩
      · exact .inl (survives_iff.mpr ⟨m₀, c, hm₀, hc, by rw [he]⟩)
      · exact .inr (by rw [he, Option.map_some, hc i hs]; exact congrArg some hx)

end Relink

variable [DecidableEq P]

/-- The name `t` is removed. -/
theorem replaces_unlink (h : Apart t q d) (hne : q ≠ t) : Replaces t q x d (d.unlink t) := by
  refine replaces_relink (apart_relink (v := none) h (fun m => Function.update_self _ _ _) ?_) ?_
  · exact fun _ _ _ hv => nomatch hv
  · exact fun m _ => .inl (Function.update_of_ne hne _ _)

/-- The name `t` is given a new file, which no name stands for. -/
theorem replaces_create (h : Apart t q d) (hne : q ≠ t) : Replaces t q x d (d.create t) := by
  have hq : ∀ m : Names P, Function.update m t (some d.next) q = m q := fun m =>
    Function.update_of_ne hne _ _
  have hap : Apart t q (d.create t) := by
    refine apart_relink (v := some d.next) h (fun m => Function.update_self _ _ _) ?_
    intro m hm i hi
    cases hi
    have hnew : m q ≠ some d.next := fun he => Nat.lt_irrefl _ (d.numbered m hm q _ he)
    exact ⟨hnew, by rw [hq]; exact hnew⟩
  exact replaces_relink hap fun m _ => .inl (hq m)

/-- The file of `t` is opened and written to. -/
theorem replaces_opened (h : Apart t q d) (hne : q ≠ t) (ho : d.Opened t c i d') :
    Replaces t q x d d' := by
  cases ho with
  | old hi => exact replaces_fill h hi
  | new hn =>
    have hr : Replaces t q x d (d.create t) := replaces_create h hne
    exact hr.trans (replaces_fill hr.apart (Function.update_self _ _ _))

/-- **The file of `t` is renamed to `q`**, synced, and holds `x`. -/
theorem replaces_move (h : Apart t q d) (hne : q ≠ t) (hi : d.names t = some i)
    (hs : d.synced i) (hx : d.data i = x) : Replaces t q x d (d.move t q) := by
  have hap : Apart t q (d.move t q) :=
    apart_relink (v := none) h (fun m => Function.update_self _ _ _) fun _ _ _ hv => nomatch hv
  refine replaces_relink hap fun m _ => .inr ⟨i, ?_, hs, hx⟩
  rw [Function.update_of_ne hne, Function.update_self, hi]

/-- What an opened file is: the one of its name, with the content it was given. -/
theorem Opened.names_eq (ho : d.Opened p c i d') : d'.names p = some i := by
  cases ho with
  | old hi => exact hi
  | new hn => exact Function.update_self _ _ _

theorem Opened.data_eq (ho : d.Opened p c i d') : d'.data i = c := by
  cases ho with
  | old hi => exact Function.update_self _ _ _
  | new hn => exact Function.update_self _ _ _

/-! ## 5. A file that is held -/

omit [DecidableEq P] in
/-- **`q` holds `x`**, whatever a power loss does. -/
def Held (q : P) (x : Bytes) (d : Disk P) : Prop :=
  ∃ i, d.synced i ∧ d.data i = x ∧ ∀ m, d.kept m → m q = some i

omit [DecidableEq P] in
theorem Held.files (h : Held q x d) : d.files q = some x := by
  obtain ⟨i, -, hx, hm⟩ := h
  rw [Disk.files, hm _ d.names_kept, Option.map_some, hx]

omit [DecidableEq P] in
theorem Held.survives (h : Held q x d) {f : Option Bytes} (hf : Survives q d f) : f = some x := by
  obtain ⟨i, hs, hx, hm⟩ := h
  obtain ⟨m, c, hkept, hc, rfl⟩ := survives_iff.mp hf
  rw [hm m hkept, Option.map_some, hc i hs, hx]

/-- Renaming a synced file and syncing the directory. -/
theorem held_settle (hne : q ≠ t) (hi : d.names t = some i) (hs : d.synced i) (hx : d.data i = x) :
    Held q x (d.move t q).settle := by
  refine ⟨i, hs, hx, fun m hm => ?_⟩
  cases hm
  show Function.update (Function.update d.names q (d.names t)) t none q = some i
  rw [Function.update_of_ne hne, Function.update_self, hi]

/-- Removing another name. -/
theorem Held.unlink (h : Held q x d) (hne : q ≠ t) : Held q x (d.unlink t) := by
  obtain ⟨i, hs, hx, hm⟩ := h
  refine ⟨i, hs, hx, fun m hkept => ?_⟩
  rcases hkept with hkept | ⟨m₀, hkept, rfl⟩
  · exact hm m hkept
  · exact (Function.update_of_ne hne _ _).trans (hm m₀ hkept)

end Disk

end Library
