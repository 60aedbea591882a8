/-
  File:      Library/Record.lean
  Subject:   RECORDS IN FILES: one value a file, written as JSON and read back.

  * `Codec α` -- how values of `α` are written and read; the round trip is a field;
  * `Codec.decode_encode` -- reading the bytes written gives the value back;
  * `Stored α` -- what a file holds: nothing, something unreadable, or a value.
-/
import Sn46Validator.Library.JsonText

namespace Library

/-- **A codec**: the tree written for a value, how its strings are spelled, the white space after
    it, and the reader. -/
structure Codec (α : Type) where
  tree : α → Json
  enc : Char → List Char := Json.escapeChar
  tail : List Char
  read : Json → Option α
  spells : Json.Spells enc := by exact Json.escapeChar_spells
  nest_le : ∀ a, (tree a).nest ≤ 127
  tail_ws : Json.skipWs tail = []
  tail_stops : Json.Stops tail
  read_tree : ∀ a, read (tree a) = some a

namespace Codec

variable {α : Type} (c : Codec α)

/-- The bytes written for a value. -/
def encode (a : α) : Bytes := Json.encodeUtf8 (Json.print c.enc (c.tree a) ++ c.tail)

/-- The value some bytes hold. -/
def decode (bs : Bytes) : Option α := (Json.ofBytes bs).bind c.read

@[simp] theorem decode_encode (a : α) : c.decode (c.encode a) = some a := by
  rw [decode, encode, Json.ofBytes_print c.spells _ (c.nest_le a) _ c.tail_ws
    c.tail_stops, Option.bind_some, c.read_tree]

end Codec

/-- **What a file holds.** -/
inductive Stored (α : Type) where
  | absent
  | malformed
  | holds (a : α)
  deriving DecidableEq

namespace Stored

variable {α : Type}

/-- What the bytes of a file hold. -/
def of (c : Codec α) : Option Bytes → Stored α
  | none => .absent
  | some bs =>
    match c.decode bs with
    | some a => .holds a
    | none => .malformed

@[simp] theorem of_none (c : Codec α) : of c none = .absent := rfl

@[simp] theorem of_encode (c : Codec α) (a : α) : of c (some (c.encode a)) = .holds a := by
  simp [of]

theorem of_eq_absent {c : Codec α} {x : Option Bytes} : of c x = .absent ↔ x = none := by
  cases x with
  | none => simp
  | some bs =>
    simp only [of, reduceCtorEq, iff_false]
    split <;> simp

theorem of_eq_holds {c : Codec α} {x : Option Bytes} {a : α} (h : of c x = .holds a) :
    ∃ bs, x = some bs ∧ c.decode bs = some a := by
  cases x with
  | none => cases h
  | some bs =>
    refine ⟨bs, rfl, ?_⟩
    rw [of] at h
    split at h
    · rwa [← Stored.holds.inj h]
    · cases h

/-- The value, or a default where there is no file. -/
def getD (d : α) : Stored α → Option α
  | absent => some d
  | malformed => none
  | holds a => some a

end Stored

end Library
