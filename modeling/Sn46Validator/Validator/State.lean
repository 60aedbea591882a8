/-
  File:      Validator/State.lean
  Subject:   THE STATE FILE of the validator.

  * `ValidatorState` -- the last summary processed and the last epoch burned;
  * `encode`, `decode` -- the bytes of the file, and what `load` accepts;
  * `WellFormed` -- the summary's fields are all there or all missing, its texts are not empty, and
    no epoch is burned that was not processed;
  * `decode_wellFormed`, `decode_encode` -- **`load` accepts well-formed states only, and all of
    them as they were saved**;
  * `encode_line`, `state_round_trip` -- the bytes are a line of ASCII, and the round trip both ways.

  The reasons that `serde_json` gives are left out. A block is written in digits: the spelling `-0`,
  and the object that stands for a number inside `serde_json`, are refused here; no run writes them.
-/
import Sn46Validator.Library.JsonAscii
import Sn46Validator.Library.Text

namespace Sn46Validator.Validator

open Library

/-- The errors of the state file and of its lock. -/
inductive StateError where
  | openLock (e : IoError)
  | lockContended
  | acquireLock (e : IoError)
  | read (e : IoError)
  | malformed
  | invalidFields
  | incompleteEpochSummary
  | invalidEpochSummaryId
  | invalidEpochSummaryDigest
  | invalidEpochSummaryEpoch
  | invalidBurnEpoch
  | inconsistentBurnEpoch
  | olderEpochSummary
  | changedEpochSummary
  | save (e : IoError)
  deriving DecidableEq

/-- **The state.** -/
structure ValidatorState where
  burnEpochEndBlock : Option U64
  summaryDigest : Option String
  summaryEpochEndBlock : Option U64
  summaryId : Option String
  deriving DecidableEq

instance : Inhabited ValidatorState := ⟨⟨none, none, none, none⟩⟩

namespace ValidatorState

/-! ## 1. Writing and reading -/

def optional {α : Type} (f : α → Json) : Option α → Json
  | some a => f a
  | none => .null

def toJson (s : ValidatorState) : Json :=
  .object [("burn_epoch_end_block", optional .u64 s.burnEpochEndBlock),
    ("summary_digest", optional .string s.summaryDigest),
    ("summary_epoch_end_block", optional .u64 s.summaryEpochEndBlock),
    ("summary_id", optional .string s.summaryId)]

/-- **The bytes of a state** (`StateStore::encode`). -/
def encode (s : ValidatorState) : Bytes := Json.encodeUtf8 (Json.ascii s.toJson ++ ['\n'])

/-- The fields of the file, each a value. -/
structure StateFile where
  burnEpochEndBlock : Json
  summaryDigest : Json
  summaryEpochEndBlock : Json
  summaryId : Json

def StateFile.read (j : Json) : Option StateFile := do
  let field ← Json.record true
    ["burn_epoch_end_block", "summary_digest", "summary_epoch_end_block", "summary_id"] j
  return {
    burnEpochEndBlock := ← field "burn_epoch_end_block"
    summaryDigest := ← field "summary_digest"
    summaryEpochEndBlock := ← field "summary_epoch_end_block"
    summaryId := ← field "summary_id" }

/-- A text that is not empty, or `null`. -/
def text (value : Json) (invalid : StateError) : Except StateError (Option String) :=
  match Json.asOption Json.asString value with
  | some (some t) => if t = "" then .error invalid else .ok (some t)
  | some none => .ok none
  | none => .error invalid

/-- A block or `null`. -/
def block (value : Json) (invalid : StateError) : Except StateError (Option U64) :=
  match Json.asOption Json.asU64 value with
  | some b => .ok b
  | none => .error invalid

/-- Was an epoch burned that was not processed? -/
def Inconsistent (s : ValidatorState) : Prop :=
  ∃ b, s.burnEpochEndBlock = some b ∧ ∀ e, s.summaryEpochEndBlock = some e → b > e

instance (s : ValidatorState) : Decidable s.Inconsistent :=
  match hb : s.burnEpochEndBlock, he : s.summaryEpochEndBlock with
  | none, _ => isFalse fun ⟨_, h, _⟩ => by rw [hb] at h; cases h
  | some b, none => isTrue ⟨b, hb, fun e h => by rw [he] at h; cases h⟩
  | some b, some e =>
    if h : b > e then isTrue ⟨b, hb, fun e' h' => by rw [he] at h'; cases h'; exact h⟩
    else isFalse fun ⟨_, h', hall⟩ => by rw [hb] at h'; cases h'; exact h (hall e he)

/-- The checks of `load`, field by field. -/
def check (file : StateFile) : Except StateError ValidatorState := do
  if file.summaryId.isNull ≠ file.summaryDigest.isNull ∨
      file.summaryId.isNull ≠ file.summaryEpochEndBlock.isNull then
    throw .incompleteEpochSummary
  let summaryId ← text file.summaryId .invalidEpochSummaryId
  let summaryDigest ← text file.summaryDigest .invalidEpochSummaryDigest
  let summaryEpochEndBlock ← block file.summaryEpochEndBlock .invalidEpochSummaryEpoch
  let burnEpochEndBlock ← block file.burnEpochEndBlock .invalidBurnEpoch
  let state : ValidatorState :=
    ⟨burnEpochEndBlock, summaryDigest, summaryEpochEndBlock, summaryId⟩
  if state.Inconsistent then throw .inconsistentBurnEpoch
  return state

/-- **What `load` makes of the bytes of the file.** -/
def decode (raw : Bytes) : Except StateError ValidatorState :=
  match Json.ofBytes raw with
  | none => .error .malformed
  | some tree =>
    match StateFile.read tree.toValue with
    | none => .error .invalidFields
    | some file => check file

/-- What `load` makes of the file: no file is the empty state. -/
def ofFile : Option Bytes → Except StateError ValidatorState
  | none => .ok default
  | some raw => decode raw

/-! ## 2. Well-formed states -/

/-- A processed summary with its texts, or none. -/
inductive Summary (s : ValidatorState) : Prop where
  | none (hid : s.summaryId = none) (hdigest : s.summaryDigest = none)
      (hend : s.summaryEpochEndBlock = none) : Summary s
  | some {id digest : String} {e : U64} (hid : s.summaryId = some id)
      (hdigest : s.summaryDigest = some digest) (hend : s.summaryEpochEndBlock = some e)
      (hid_ne : id ≠ "") (hdigest_ne : digest ≠ "") : Summary s

/-- **A well-formed state.** -/
structure WellFormed (s : ValidatorState) : Prop where
  summary : Summary s
  burned : ¬s.Inconsistent

theorem wellFormed_default : WellFormed default :=
  ⟨.none rfl rfl rfl, fun ⟨_, h, _⟩ => by cases h⟩

/-- A state is consistent when what is burned was processed. -/
theorem consistent_of_le {s : ValidatorState}
    (h : ∀ b, s.burnEpochEndBlock = some b → ∃ e, s.summaryEpochEndBlock = some e ∧ b ≤ e) :
    ¬s.Inconsistent := by
  intro hx
  obtain ⟨b, hb, hall⟩ := hx
  obtain ⟨e, he, hle⟩ := h b hb
  exact absurd (hall e he) (Fin.not_lt.mpr hle)

/-- What is burned was processed. -/
theorem WellFormed.burn_le {s : ValidatorState} (h : WellFormed s) {b : U64}
    (hb : s.burnEpochEndBlock = some b) : ∃ e, s.summaryEpochEndBlock = some e ∧ b ≤ e := by
  cases he : s.summaryEpochEndBlock with
  | none =>
    refine absurd ⟨b, hb, fun e h' => ?_⟩ h.burned
    rw [he] at h'
    cases h'
  | some e =>
    refine ⟨e, rfl, ?_⟩
    by_contra hlt
    refine h.burned ⟨b, hb, fun e' h' => ?_⟩
    rw [he] at h'
    cases h'
    exact Fin.not_le.mp hlt

theorem asOption_null {α : Type} {f : Json → Option α} {j : Json} (h : j.isNull = true) :
    Json.asOption f j = some none := by
  cases j with
  | null => rfl
  | _ => cases h

theorem asOption_of_not_null {α : Type} {f : Json → Option α} {j : Json}
    (h : j.isNull = false) : Json.asOption f j = (f j).map some := by
  cases j with
  | null => cases h
  | _ => rfl

/-- A text that was read. -/
theorem text_ok {value : Json} {invalid : StateError} {t : Option String}
    (h : text value invalid = .ok t) :
    (value.isNull = true ∧ t = none) ∨ (value.isNull = false ∧ ∃ x, t = some x ∧ x ≠ "") := by
  cases hn : value.isNull with
  | true =>
    rw [text, asOption_null hn] at h
    cases h
    exact .inl ⟨rfl, rfl⟩
  | false =>
    rw [text, asOption_of_not_null hn] at h
    cases hs : value.asString with
    | none =>
      rw [hs] at h
      cases h
    | some x =>
      rw [hs] at h
      simp only [Option.map_some] at h
      split_ifs at h with he
      cases h
      exact .inr ⟨rfl, x, rfl, he⟩

/-- A block that was read. -/
theorem block_ok {value : Json} {invalid : StateError} {b : Option U64}
    (h : block value invalid = .ok b) :
    (value.isNull = true ∧ b = none) ∨ (value.isNull = false ∧ ∃ x, b = some x) := by
  cases hn : value.isNull with
  | true =>
    rw [block, asOption_null hn] at h
    cases h
    exact .inl ⟨rfl, rfl⟩
  | false =>
    rw [block, asOption_of_not_null hn] at h
    cases hs : value.asU64 with
    | none =>
      rw [hs] at h
      cases h
    | some x =>
      rw [hs] at h
      cases h
      exact .inr ⟨rfl, x, rfl⟩

/-- Fields that are `null` together, once read. -/
theorem summary_of_reads {file : StateFile} {b e : Option U64} {id digest : Option String}
    (hd : file.summaryId.isNull = file.summaryDigest.isNull)
    (he : file.summaryId.isNull = file.summaryEpochEndBlock.isNull)
    (hid : text file.summaryId .invalidEpochSummaryId = .ok id)
    (hdigest : text file.summaryDigest .invalidEpochSummaryDigest = .ok digest)
    (hend : block file.summaryEpochEndBlock .invalidEpochSummaryEpoch = .ok e) :
    Summary ⟨b, digest, e, id⟩ := by
  have hid := text_ok hid
  have hdigest := text_ok hdigest
  have hend := block_ok hend
  rw [← hd] at hdigest
  rw [← he] at hend
  cases hn : file.summaryId.isNull with
  | true =>
    simp only [hn, true_and, reduceCtorEq, false_and, or_false] at hid hdigest hend
    exact .none hid hdigest hend
  | false =>
    simp only [hn, true_and, reduceCtorEq, false_and, false_or] at hid hdigest hend
    obtain ⟨x, hx, hx'⟩ := hid
    obtain ⟨y, hy, hy'⟩ := hdigest
    obtain ⟨z, hz⟩ := hend
    exact .some hx hy hz hx' hy'

theorem check_wellFormed {file : StateFile} {s : ValidatorState} (h : check file = .ok s) :
    WellFormed s := by
  unfold check at h
  by_cases hn : file.summaryId.isNull ≠ file.summaryDigest.isNull ∨
      file.summaryId.isNull ≠ file.summaryEpochEndBlock.isNull
  · rw [if_pos hn] at h
    cases h
  · rw [if_neg hn] at h
    rw [not_or, not_not, not_not] at hn
    simp only [bind, Except.bind, pure, Except.pure] at h
    split at h
    · cases h
    · rename_i hid
      split at h
      · cases h
      · rename_i hdigest
        split at h
        · cases h
        · rename_i hend
          split at h
          · cases h
          · split_ifs at h with hb
            cases h
            exact ⟨summary_of_reads hn.1 hn.2 hid hdigest hend, hb⟩

/-- **`load` accepts well-formed states only.** -/
theorem decode_wellFormed {raw : Bytes} {s : ValidatorState} (h : decode raw = .ok s) :
    WellFormed s := by
  unfold decode at h
  split at h
  · cases h
  · split at h
    · cases h
    · exact check_wellFormed h

theorem ofFile_wellFormed {file : Option Bytes} {s : ValidatorState} (h : ofFile file = .ok s) :
    WellFormed s := by
  cases file with
  | none =>
    cases h
    exact wellFormed_default
  | some raw => exact decode_wellFormed h

/-! ## 3. The round trip -/

theorem toValue_toJson (s : ValidatorState) : s.toJson.toValue = s.toJson := by
  rcases s with ⟨_ | b, _ | d, _ | e, _ | i⟩ <;> rfl

theorem nest_toJson (s : ValidatorState) : s.toJson.nest ≤ 127 := by
  rcases s with ⟨_ | b, _ | d, _ | e, _ | i⟩ <;>
    simp only [toJson, optional, Json.nest, Json.nestMembers, Json.u64, Json.nat] <;> decide

/-- The fields of a state's tree. -/
def file (s : ValidatorState) : StateFile where
  burnEpochEndBlock := optional .u64 s.burnEpochEndBlock
  summaryDigest := optional .string s.summaryDigest
  summaryEpochEndBlock := optional .u64 s.summaryEpochEndBlock
  summaryId := optional .string s.summaryId

theorem read_toJson (s : ValidatorState) : StateFile.read s.toJson = some s.file := by
  rw [StateFile.read, toJson, Json.record_object]
  · rfl
  · rfl
  · decide

theorem text_optional {t : Option String} (h : t ≠ some "") (invalid : StateError) :
    text (optional .string t) invalid = .ok t := by
  cases t with
  | none => rfl
  | some t =>
    have ht : t ≠ "" := fun he => h (by rw [he])
    show (if t = "" then Except.error invalid else Except.ok (some t)) = Except.ok (some t)
    rw [if_neg ht]

theorem block_optional (b : Option U64) (invalid : StateError) :
    block (optional .u64 b) invalid = .ok b := by
  cases b with
  | none => rfl
  | some b =>
    have hn : (Json.u64 b).isNull = false := rfl
    rw [optional, block, asOption_of_not_null hn, Json.asU64_u64]
    rfl

theorem isNull_optional_string (t : Option String) :
    (optional Json.string t).isNull = t.isNone := by
  cases t <;> rfl

theorem isNull_optional_u64 (b : Option U64) : (optional Json.u64 b).isNull = b.isNone := by
  cases b <;> rfl

theorem check_file {s : ValidatorState} (h : WellFormed s) : check s.file = .ok s := by
  have hnull : ¬((optional Json.string s.summaryId).isNull ≠
        (optional Json.string s.summaryDigest).isNull ∨
      (optional Json.string s.summaryId).isNull ≠
        (optional Json.u64 s.summaryEpochEndBlock).isNull) := by
    rw [isNull_optional_string, isNull_optional_string, isNull_optional_u64]
    rcases h.summary with ⟨h₁, h₂, h₃⟩ | ⟨h₁, h₂, h₃, -, -⟩ <;> simp [h₁, h₂, h₃]
  have hid : s.summaryId ≠ some "" := by
    rcases h.summary with ⟨h₁, -, -⟩ | ⟨h₁, -, -, hx, -⟩ <;> simp_all
  have hdigest : s.summaryDigest ≠ some "" := by
    rcases h.summary with ⟨-, h₂, -⟩ | ⟨-, h₂, -, -, hy⟩ <;> simp_all
  unfold check file
  rw [if_neg hnull]
  simp only [bind, Except.bind, pure, Except.pure, text_optional hid, text_optional hdigest,
    block_optional]
  rw [if_neg h.burned]

/-- **What was saved is loaded.** -/
theorem decode_encode {s : ValidatorState} (h : WellFormed s) : decode s.encode = .ok s := by
  have hb : Json.ofBytes s.encode = some s.toJson := by
    rw [encode, Json.ascii_eq, toValue_toJson]
    exact Json.ofBytes_print Json.asciiEscape_spells _ (nest_toJson s) _ (by decide)
      (Json.stops_cons (by decide))
  unfold decode
  rw [hb]
  show (match StateFile.read s.toJson.toValue with
    | none => Except.error StateError.invalidFields
    | some file => check file) = Except.ok s
  rw [toValue_toJson, read_toJson]
  exact check_file h

/-- **The bytes of a state are one line of ASCII.** -/
theorem encode_line (s : ValidatorState) :
    ∃ line, s.encode = line ++ [10] ∧ ∀ b ∈ line, 32 ≤ b.toNat ∧ b.toNat < 128 := by
  refine ⟨Json.encodeUtf8 (Json.ascii s.toJson), List.flatMap_append, fun b hb => ?_⟩
  rw [Json.ascii_eq] at hb
  exact Json.encodeUtf8_printable (Json.print_printable _) hb

/-- **The state file round-trips.** A state whose summary is whole or missing and that burned nothing
    ahead of it is loaded from the bytes it is written as, which are ASCII with one newline, at the
    end. Every state that is loaded from any bytes is of that kind, and is loaded again from its own
    bytes; no two such states share them. -/
theorem state_round_trip :
    (∀ s : ValidatorState, Summary s →
      (∀ b, s.burnEpochEndBlock = some b → ∃ e, s.summaryEpochEndBlock = some e ∧ b ≤ e) →
      ofFile (some s.encode) = .ok s) ∧
    (∀ s : ValidatorState, ∃ line, s.encode = line ++ [10] ∧ ∀ b ∈ line, b < 128 ∧ b ≠ 10) ∧
    (∀ raw s, ofFile (some raw) = .ok s → Summary s ∧
      (∀ b, s.burnEpochEndBlock = some b → ∃ e, s.summaryEpochEndBlock = some e ∧ b ≤ e) ∧
      ofFile (some s.encode) = .ok s) ∧
    (∀ raw raw' s s', ofFile (some raw) = .ok s → ofFile (some raw') = .ok s' →
      s.encode = s'.encode → s = s') := by
  refine ⟨fun s hs hb => decode_encode ⟨hs, consistent_of_le hb⟩, fun s => ?_, fun raw s h => ?_,
    fun raw raw' s s' h h' he => ?_⟩
  · obtain ⟨line, hl, hp⟩ := s.encode_line
    refine ⟨line, hl, fun b hb => ?_⟩
    obtain ⟨hlow, hhigh⟩ := hp b hb
    refine ⟨UInt8.lt_iff_toNat_lt.mpr hhigh, fun hten => ?_⟩
    rw [hten] at hlow
    exact absurd hlow (by decide)
  · have hw : WellFormed s := decode_wellFormed h
    exact ⟨hw.summary, fun b hb => hw.burn_le hb, decode_encode hw⟩
  · have hs : decode s.encode = .ok s := decode_encode (decode_wellFormed h)
    have hs' : decode s'.encode = .ok s' := decode_encode (decode_wellFormed h')
    rw [he, hs'] at hs
    exact (Except.ok.inj hs).symm

end ValidatorState

end Sn46Validator.Validator
