/-
  File:      Library/Files.lean
  Subject:   A FILE SYSTEM WITH FAILURES: named files, operations that may fail, and kills that
             leave a write or a copy half done.

  * `Files P` -- the content of each path of `P` (`none`: no such file);
  * `FileOp P` -- the operations, one for each group of system calls that a program makes on one
    file in a row: writing a file creates, truncates, fills and syncs it;
  * `FileOp.act faults` -- a completed operation. With `faults` any operation may fail; a failed
    write or copy leaves anything behind, a failed rename or removal nothing;
  * `FileOp.cut` -- a kill inside a write or a copy leaves anything behind; every other operation
    is atomic;
  * `FileOp.act_frame`, `FileOp.cut_frame` -- a file an operation does not name keeps its content.
-/
import Sn46Validator.Library.Program
import Mathlib.Logic.Function.Basic

namespace Library

abbrev Bytes : Type := List UInt8

/-- The kinds of failure a caller tells apart. -/
inductive IoError where
  | notFound
  | notADirectory
  | alreadyExists
  | other
  deriving DecidableEq, Repr

/-- What an attempt to take a file lock ends with. -/
inductive TryLock where
  | acquired
  | wouldBlock
  | error (e : IoError)

/-- The files of a set of paths. -/
abbrev Files (P : Type) : Type := P → Option Bytes

/-- **Operations on files.** `probe` asks whether a path exists and answers `false` when it cannot
    tell; `create` writes a file that must not exist yet; `sync` flushes a directory. -/
inductive FileOp (P : Type) where
  | read (p : P)
  | probe (p : P)
  | isFile (p : P)
  | write (p : P) (data : Bytes)
  | create (p : P) (data : Bytes)
  | rename (src dst : P)
  | remove (p : P)
  | copy (src dst : P)
  | sync
  deriving DecidableEq

namespace FileOp

variable {P : Type}

/-- The type of each answer. -/
abbrev Ans : FileOp P → Type
  | read _ => Except IoError Bytes
  | probe _ | isFile _ => Bool
  | write _ _ | create _ _ | rename _ _ | remove _ | copy _ _ | sync => Except IoError Unit

/-- The files an operation may change. -/
def targets : FileOp P → List P
  | read _ | probe _ | isFile _ | sync => []
  | write p _ | create p _ | remove p => [p]
  | rename src dst => [src, dst]
  | copy _ dst => [dst]

variable [DecidableEq P]

/-- The files with `p` replaced. -/
abbrev put (fs : Files P) (p : P) (c : Option Bytes) : Files P := Function.update fs p c

/-- **A completed operation.** -/
def act (faults : Bool) (fs : Files P) : (op : FileOp P) → op.Ans → Files P → Prop
  | read p, x, fs' => fs' = fs ∧
      (x = (match fs p with | some d => .ok d | none => .error .notFound) ∨
        faults = true ∧ x = .error .other)
  | probe p, x, fs' | isFile p, x, fs' => fs' = fs ∧
      (x = (fs p).isSome ∨ faults = true ∧ x = false)
  | write p data, x, fs' =>
      x = .ok () ∧ fs' = put fs p (some data) ∨
      faults = true ∧ x = .error .other ∧ ∃ c, fs' = put fs p c
  | create p data, x, fs' =>
      fs p = none ∧ x = .ok () ∧ fs' = put fs p (some data) ∨
      fs p ≠ none ∧ x = .error .alreadyExists ∧ fs' = fs ∨
      faults = true ∧ x = .error .other ∧ ∃ c, fs' = put fs p c
  | rename src dst, x, fs' =>
      (∃ d, fs src = some d ∧ x = .ok () ∧ fs' = put (put fs dst (some d)) src none) ∨
      fs src = none ∧ x = .error .notFound ∧ fs' = fs ∨
      faults = true ∧ x = .error .other ∧ fs' = fs
  | remove p, x, fs' =>
      fs p ≠ none ∧ x = .ok () ∧ fs' = put fs p none ∨
      fs p = none ∧ x = .error .notFound ∧ fs' = fs ∨
      faults = true ∧ x = .error .other ∧ fs' = fs
  | copy src dst, x, fs' =>
      (∃ d, fs src = some d ∧ x = .ok () ∧ fs' = put fs dst (some d)) ∨
      fs src = none ∧ x = .error .notFound ∧ fs' = fs ∨
      faults = true ∧ x = .error .other ∧ ∃ c, fs' = put fs dst c
  | sync, x, fs' => fs' = fs ∧ (x = .ok () ∨ faults = true ∧ x = .error .other)

/-- **What a kill inside an operation leaves behind.** -/
def cut (fs : Files P) : FileOp P → Files P → Prop
  | write p _, fs' | create p _, fs' | copy _ p, fs' => ∃ c, fs' = put fs p c
  | _, _ => False

/-- **Frame**: a completed operation keeps every file it does not name. -/
theorem act_frame {faults : Bool} {fs fs' : Files P} {op : FileOp P} {x : op.Ans} {p : P}
    (h : act faults fs op x fs') (hp : p ∉ op.targets) : fs' p = fs p := by
  cases op with
  | read | probe | isFile | sync => rw [h.1]
  | write q data =>
    have hne : p ≠ q := by simpa [targets] using hp
    obtain ⟨-, rfl⟩ | ⟨-, -, c, rfl⟩ := h <;> simp [Function.update_of_ne hne]
  | create q data =>
    have hne : p ≠ q := by simpa [targets] using hp
    obtain ⟨-, -, rfl⟩ | ⟨-, -, rfl⟩ | ⟨-, -, c, rfl⟩ := h <;> simp [Function.update_of_ne hne]
  | rename src dst =>
    have hne : p ≠ src ∧ p ≠ dst := by simpa [targets, not_or] using hp
    obtain ⟨d, -, -, rfl⟩ | ⟨-, -, rfl⟩ | ⟨-, -, rfl⟩ := h
    · simp [Function.update_of_ne hne.1, Function.update_of_ne hne.2]
    · rfl
    · rfl
  | remove q =>
    have hne : p ≠ q := by simpa [targets] using hp
    obtain ⟨-, -, rfl⟩ | ⟨-, -, rfl⟩ | ⟨-, -, rfl⟩ := h <;> simp [Function.update_of_ne hne]
  | copy src dst =>
    have hne : p ≠ dst := by simpa [targets] using hp
    obtain ⟨d, -, -, rfl⟩ | ⟨-, -, rfl⟩ | ⟨-, -, c, rfl⟩ := h <;>
      simp [Function.update_of_ne hne]

/-- **Frame, for a kill inside an operation.** -/
theorem cut_frame {fs fs' : Files P} {op : FileOp P} {p : P} (h : cut fs op fs')
    (hp : p ∉ op.targets) : fs' p = fs p := by
  cases op with
  | write q | create q =>
    have hne : p ≠ q := by simpa [targets] using hp
    obtain ⟨c, rfl⟩ := h
    simp [Function.update_of_ne hne]
  | copy src dst =>
    have hne : p ≠ dst := by simpa [targets] using hp
    obtain ⟨c, rfl⟩ := h
    simp [Function.update_of_ne hne]
  | _ => exact h.elim

/-- What an operation does when nothing fails. -/
def exec (fs : Files P) : (op : FileOp P) → op.Ans × Files P
  | read p => (match fs p with | some d => .ok d | none => .error .notFound, fs)
  | probe p | isFile p => ((fs p).isSome, fs)
  | write p data => (.ok (), put fs p (some data))
  | create p data =>
    match fs p with
    | none => (.ok (), put fs p (some data))
    | some _ => (.error .alreadyExists, fs)
  | rename src dst =>
    match fs src with
    | some d => (.ok (), put (put fs dst (some d)) src none)
    | none => (.error .notFound, fs)
  | remove p =>
    match fs p with
    | some _ => (.ok (), put fs p none)
    | none => (.error .notFound, fs)
  | copy src dst =>
    match fs src with
    | some d => (.ok (), put fs dst (some d))
    | none => (.error .notFound, fs)
  | sync => (.ok (), fs)

/-- The fault-free operation is a completed operation of either file system. -/
theorem act_exec (faults : Bool) (fs : Files P) (op : FileOp P) :
    act faults fs op (exec fs op).1 (exec fs op).2 := by
  cases op with
  | read p => exact ⟨rfl, .inl rfl⟩
  | probe p | isFile p => exact ⟨rfl, .inl rfl⟩
  | write p data => exact .inl ⟨rfl, rfl⟩
  | create p data =>
    cases h : fs p with
    | none => simp [act, exec, h]
    | some d => simp [act, exec, h]
  | rename src dst =>
    cases h : fs src with
    | none => simp [act, exec, h]
    | some d => simp [act, exec, h]
  | remove p =>
    cases h : fs p with
    | none => simp [act, exec, h]
    | some d => simp [act, exec, h]
  | copy src dst =>
    cases h : fs src with
    | none => simp [act, exec, h]
    | some d => simp [act, exec, h]
  | sync => exact ⟨rfl, .inl rfl⟩

end FileOp

end Library
