/-
  File:      Update/Records.lean
  Subject:   THE UPDATER'S STATE FILES: `release.json`, `pending.json` and `update-failed.json`.

  * `Installed`, `Pending`, `FailedReleases` -- their contents, with a codec each. Fields that are
    not known are ignored, and `rolling_back` may be missing;
  * `FailedReleases.has`, `FailedReleases.push` -- asking for a sequence, and one more failure;
  * `FailedReleases.push_distinct` -- a new sequence keeps the sequences distinct.
-/
import Sn46Validator.Library.Text
import Sn46Validator.Library.Record

namespace Sn46Validator.Update

open Library

/-- What `release.json` records: the release the updater (or installer) put in place. -/
structure Installed where
  version : String
  sequence : U64
  deriving DecidableEq

instance : Inhabited Installed := ⟨⟨"", 0⟩⟩

/-- What `pending.json` records from just before the swap until the release is recorded or the
    previous binary is back and running. -/
structure Pending where
  version : String
  sequence : U64
  rollingBack : Bool
  deriving DecidableEq

structure FailedRelease where
  sequence : U64
  version : String
  failedMs : U64
  deriving DecidableEq

structure FailedReleases where
  failed : List FailedRelease
  deriving DecidableEq

instance : Inhabited FailedReleases := ⟨⟨[]⟩⟩

/-! ## 1. Trees -/

namespace Installed

def toJson (r : Installed) : Json :=
  .object [("version", .string r.version), ("sequence", .u64 r.sequence)]

def read (j : Json) : Option Installed := do
  let field ← Json.record false ["version", "sequence"] j
  return {
    version := ← (← field "version").asString
    sequence := ← (← field "sequence").asU64 }

end Installed

namespace Pending

def toJson (p : Pending) : Json :=
  .object [("version", .string p.version), ("sequence", .u64 p.sequence),
    ("rolling_back", .bool p.rollingBack)]

def read (j : Json) : Option Pending := do
  let field ← Json.record false ["version", "sequence", "rolling_back"] j
  return {
    version := ← (← field "version").asString
    sequence := ← (← field "sequence").asU64
    rollingBack := ← match field "rolling_back" with
      | none => some false
      | some j => j.asBool }

end Pending

namespace FailedRelease

def toJson (f : FailedRelease) : Json :=
  .object [("sequence", .u64 f.sequence), ("version", .string f.version),
    ("failed_ms", .u64 f.failedMs)]

def read (j : Json) : Option FailedRelease := do
  let field ← Json.record false ["sequence", "version", "failed_ms"] j
  return {
    sequence := ← (← field "sequence").asU64
    version := ← (← field "version").asString
    failedMs := ← (← field "failed_ms").asU64 }

end FailedRelease

namespace FailedReleases

def toJson (f : FailedReleases) : Json :=
  .object [("failed", .array (f.failed.map FailedRelease.toJson))]

def read (j : Json) : Option FailedReleases := do
  let field ← Json.record false ["failed"] j
  return { failed := ← (← (← field "failed").asArray).mapM FailedRelease.read }

end FailedReleases

/-! ## 2. Codecs -/

namespace Installed

theorem toValue_eq (r : Installed) :
    r.toJson.toValue = .object [("sequence", .u64 r.sequence), ("version", .string r.version)] := by
  rfl

/-- `release.json`. -/
def codec : Codec Installed where
  tree r := r.toJson.toValue
  tail := ['\n']
  read := read
  nest_le r := by
    rw [toValue_eq]
    simp [Json.nest, Json.nestMembers, Json.u64, Json.nat]
  tail_ws := by decide
  tail_stops := Json.stops_cons (by decide)
  read_tree r := by
    rw [toValue_eq]
    simp [read, Json.record, Json.asString, List.lookup_cons]

end Installed

namespace Pending

theorem toValue_eq (p : Pending) :
    p.toJson.toValue = .object [("rolling_back", .bool p.rollingBack),
      ("sequence", .u64 p.sequence), ("version", .string p.version)] := by
  rfl

/-- `pending.json`. -/
def codec : Codec Pending where
  tree p := p.toJson.toValue
  tail := ['\n']
  read := read
  nest_le p := by
    rw [toValue_eq]
    simp [Json.nest, Json.nestMembers, Json.u64, Json.nat]
  tail_ws := by decide
  tail_stops := Json.stops_cons (by decide)
  read_tree p := by
    rw [toValue_eq]
    simp [read, Json.record, Json.asString, Json.asBool, List.lookup_cons]

end Pending

namespace FailedRelease

theorem toValue_eq (f : FailedRelease) :
    f.toJson.toValue = .object [("failed_ms", .u64 f.failedMs), ("sequence", .u64 f.sequence),
      ("version", .string f.version)] := by
  rfl

theorem read_toValue (f : FailedRelease) : read f.toJson.toValue = some f := by
  rw [toValue_eq]
  simp [read, Json.record, Json.asString, List.lookup_cons]

end FailedRelease

namespace FailedReleases

theorem itemsToValue_map (l : List FailedRelease) :
    Json.itemsToValue (l.map FailedRelease.toJson) = l.map fun f => f.toJson.toValue := by
  induction l with
  | nil => rfl
  | cons f l ih => rw [List.map_cons, Json.itemsToValue, ih, List.map_cons]

theorem toValue_eq (f : FailedReleases) :
    f.toJson.toValue = .object [("failed", .array (f.failed.map fun x => x.toJson.toValue))] := by
  rw [← itemsToValue_map]
  rfl

theorem nestItems_le (l : List FailedRelease) :
    Json.nestItems (l.map fun x => x.toJson.toValue) ≤ 1 := by
  induction l with
  | nil => exact Nat.zero_le _
  | cons f l ih =>
    rw [List.map_cons, FailedRelease.toValue_eq]
    simp [Json.nestItems, Json.nest, Json.nestMembers, Json.u64, Json.nat, ih]

theorem mapM_read (l : List FailedRelease) :
    (l.map fun x => x.toJson.toValue).mapM FailedRelease.read = some l := by
  induction l with
  | nil => rfl
  | cons f l ih => simp [List.mapM_cons, FailedRelease.read_toValue, ih]

/-- `update-failed.json`. -/
def codec : Codec FailedReleases where
  tree f := f.toJson.toValue
  tail := ['\n']
  read := read
  nest_le f := by
    have h := nestItems_le f.failed
    rw [toValue_eq]
    simp only [Json.nest, Json.nestMembers]
    omega
  tail_ws := by decide
  tail_stops := Json.stops_cons (by decide)
  read_tree f := by
    have h := mapM_read f.failed
    rw [List.mapM_map] at h
    rw [toValue_eq]
    simp [read, Json.record, Json.asArray, List.lookup_cons, h]

/-! ## 3. Failures -/

/-- Is a sequence recorded as failed? -/
def has (f : FailedReleases) (sequence : U64) : Bool := f.failed.any (·.sequence = sequence)

/-- One more failure. -/
def push (f : FailedReleases) (x : FailedRelease) : FailedReleases := ⟨f.failed ++ [x]⟩

/-- No sequence is recorded twice. -/
def Distinct (f : FailedReleases) : Prop := (f.failed.map (·.sequence)).Nodup

theorem has_push (f : FailedReleases) (x : FailedRelease) (s : U64) :
    (f.push x).has s = (f.has s || x.sequence = s) := by
  simp [has, push]

theorem push_distinct {f : FailedReleases} {x : FailedRelease} (h : f.Distinct)
    (hx : f.has x.sequence = false) : (f.push x).Distinct := by
  have hn : x.sequence ∉ f.failed.map (·.sequence) := by
    intro hm
    obtain ⟨y, hy, he⟩ := List.mem_map.mp hm
    have : f.has x.sequence = true := List.any_eq_true.mpr ⟨y, hy, by simpa using he⟩
    rw [hx] at this
    cases this
  unfold Distinct push
  rw [List.map_append, List.nodup_append]
  refine ⟨h, by simp, ?_⟩
  intro a ha b hb hab
  obtain rfl : b = x.sequence := by simpa using hb
  exact hn (hab ▸ ha)

end FailedReleases

end Sn46Validator.Update
