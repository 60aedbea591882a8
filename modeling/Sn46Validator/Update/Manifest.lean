/-
  File:      Update/Manifest.lean
  Subject:   THE SIGNED RELEASE MANIFEST, its verification, and where it is fetched from.

  * `UpdateError` -- why a run of the updater fails. The texts of the system's and the libraries'
    own errors are not kept, nor what follows them in a message;
  * `Crypto` -- the hash and the signature scheme the updater relies on;
  * `verifyManifest` -- the signature over the exact bytes, their spelling, and every field;
  * `spreadSeconds` -- the host's own delay;
  * `fetch` -- a `file://` or `https://` resource of at most `max` bytes.
-/
import Sn46Validator.Library.Text
import Sn46Validator.Library.Record

namespace Sn46Validator.Update

open Library

def manifestSchema : String := "sn46.validator.release.v1"

def binaryName : String := "sn46-validator-linux-x86_64"

def service : String := "sn46-validator"

def maxManifestBytes : Nat := 16 * 1024

def maxBinaryBytes : Nat := 512 * 1024 * 1024

/-- **Why a run fails.** -/
inductive UpdateError where
  | config (why : String)
  | fetch (why : String)
  | manifest (why : String)
  | binary (why : String)
  | badRelease (why : String)
  | disk (neededBytes availableBytes : U64)
  | rolledBack (version reason : String)
  | rollbackIncomplete (version reason : String)
  | io (error : IoError)
  deriving DecidableEq

/-- **SHA-256 and strict Ed25519 verification**, as parameters; and which characters outside ASCII
    `{:?}` prints as they are. -/
structure Crypto where
  Key : Type
  sha256 : Bytes → Bytes
  sha256_length : ∀ b, (sha256 b).length = 32
  verifyStrict : Key → Bytes → Bytes → Bool
  prints : Char → Bool

structure BinaryEntry where
  name : String
  sha256 : String
  size : U64
  deriving DecidableEq

structure Manifest where
  applyAfterMs : U64
  binary : BinaryEntry
  schema : String
  sequence : U64
  version : String
  deriving DecidableEq

/-- The tree of a manifest. -/
def Manifest.toJson (m : Manifest) : Json :=
  .object [("apply_after_ms", .u64 m.applyAfterMs),
    ("binary", .object [("name", .string m.binary.name), ("sha256", .string m.binary.sha256),
      ("size", .u64 m.binary.size)]),
    ("schema", .string m.schema), ("sequence", .u64 m.sequence), ("version", .string m.version)]

/-! ## 1. Reading -/

/-- `BinaryEntry` with `deny_unknown_fields`. -/
def BinaryEntry.read (j : Json) : Option BinaryEntry := do
  let field ← Json.record true ["name", "sha256", "size"] j
  return {
    name := ← (← field "name").asString
    sha256 := ← (← field "sha256").asString
    size := ← (← field "size").asU64 }

/-- `Manifest` with `deny_unknown_fields`. -/
def Manifest.read (j : Json) : Option Manifest := do
  let field ← Json.record true ["apply_after_ms", "binary", "schema", "sequence", "version"] j
  return {
    applyAfterMs := ← (← field "apply_after_ms").asU64
    binary := ← BinaryEntry.read (← field "binary")
    schema := ← (← field "schema").asString
    sequence := ← (← field "sequence").asU64
    version := ← (← field "version").asString }

/-- Three groups of one to nine digits, joined by dots. -/
def versionShape (version : String) : Bool :=
  let parts := version.toList.splitOn '.'
  parts.length = 3 && parts.all fun p => p ≠ [] && p.length ≤ 9 && p.all Char.isDigit

/-- Sixty-four lowercase hexadecimal digits. -/
def sha256Shape (sha256 : String) : Bool :=
  sha256.toList.length = 64 &&
    sha256.toList.all fun c => ('0' ≤ c && c ≤ '9') || ('a' ≤ c && c ≤ 'f')

/-- One trailing newline is not part of a signature. -/
def stripNewline (text : List Char) : List Char :=
  if text.getLast? = some '\n' then text.dropLast else text

/-- **`verify_manifest`.** -/
def verifyManifest (crypto : Crypto) (raw signatureHex : Bytes) (key : crypto.Key) :
    Except UpdateError Manifest := do
  let some text := Json.decodeUtf8 signatureHex | throw (.manifest "bad signature")
  let text := stripNewline text
  if (Json.encodeUtf8 text).length ≠ 128 then
    throw (.manifest "signature must be 128 hex characters")
  let some signature := (hexDecode text).filter (·.length = 64)
    | throw (.manifest "signature is not hex")
  if ¬crypto.verifyStrict key raw signature then
    throw (.manifest "Ed25519 signature does not verify with the release key")
  let some tree := Json.ofBytes raw | throw (.manifest "manifest is not JSON")
  let value := tree.toValue
  if Json.encodeUtf8 (value.print Json.escapeChar ++ ['\n']) ≠ raw then
    throw (.manifest "manifest is not canonical compact sorted JSON with one trailing newline")
  let some manifest := Manifest.read value | throw (.manifest "fields: ")
  if manifest.schema ≠ manifestSchema then
    throw (.manifest "unsupported manifest schema")
  if ¬versionShape manifest.version then
    throw (.manifest "version must be X.Y.Z")
  if manifest.binary.name ≠ binaryName then
    throw (.manifest "unexpected binary name")
  if ¬sha256Shape manifest.binary.sha256 then
    throw (.manifest "binary sha256 must be 64 lowercase hex characters")
  if manifest.binary.size = 0 ∨ maxBinaryBytes < manifest.binary.size.val then
    throw (.manifest "binary size is out of range")
  return manifest

/-- The fields of a manifest are those of a release of this program. -/
structure Manifest.Formed (m : Manifest) : Prop where
  schema : m.schema = manifestSchema
  version : versionShape m.version = true
  name : m.binary.name = binaryName
  sha256 : sha256Shape m.binary.sha256 = true
  size_pos : 0 < m.binary.size.val
  size_le : m.binary.size.val ≤ maxBinaryBytes

/-- **An accepted manifest is well formed.** -/
theorem verifyManifest_formed {crypto : Crypto} {raw sig : Bytes} {key : crypto.Key}
    {m : Manifest} (h : verifyManifest crypto raw sig key = .ok m) : m.Formed := by
  unfold verifyManifest at h
  simp only [ne_eq, ite_not, bind, Except.bind, throw, throwThe, MonadExceptOf.throw, pure,
    Except.pure] at h
  repeat' split at h
  all_goals cases h
  rename_i hs hv hn hd hz
  have hz' : m.binary.size.val ≠ 0 := fun h₀ => hz (.inl (Fin.ext h₀))
  exact ⟨hs, hv, hn, hd, Nat.pos_of_ne_zero hz', by omega⟩

/-- **An accepted manifest is what its signed bytes spell.** -/
theorem verifyManifest_read {crypto : Crypto} {raw sig : Bytes} {key : crypto.Key} {m : Manifest}
    (h : verifyManifest crypto raw sig key = .ok m) :
    ((Json.ofBytes raw).bind fun tree => Manifest.read tree.toValue) = some m ∧
      ∃ signature, crypto.verifyStrict key raw signature = true := by
  unfold verifyManifest at h
  simp only [ne_eq, ite_not, bind, Except.bind, throw, throwThe, MonadExceptOf.throw, pure,
    Except.pure] at h
  repeat' split at h
  all_goals cases h
  rename_i hv _ _ ht _ _ hm _ _ _ _ _
  exact ⟨by rw [ht]; exact hm, _, hv⟩

/-! ## 2. The host's delay -/

/-- The big-endian number of some bytes. -/
def beNat (bs : Bytes) : Nat := bs.foldl (fun n b => n * 256 + b.toNat) 0

/-- **`spread_seconds`**: a number below `spreadS` that depends on the host alone. -/
def spreadSeconds (crypto : Crypto) (hostId : String) (spreadS : U64) : U64 :=
  if h : spreadS = 0 then 0
  else
    let head := beNat ((crypto.sha256 (Json.encodeUtf8 hostId.toList)).take 8)
    ⟨head % spreadS.val, by
      have : spreadS.val ≠ 0 := fun h' => h (Fin.ext h')
      have := Nat.mod_lt head (Nat.pos_of_ne_zero this)
      omega⟩

theorem spreadSeconds_lt (crypto : Crypto) (hostId : String) (spreadS : U64) :
    (spreadSeconds crypto hostId spreadS).val < max spreadS.val 1 := by
  unfold spreadSeconds
  split_ifs with h
  · simp
  · have h₀ : spreadS.val ≠ 0 := fun h' => h (Fin.ext h')
    exact lt_of_lt_of_le (Nat.mod_lt _ (Nat.pos_of_ne_zero h₀)) (le_max_left _ _)

/-! ## 3. Fetching -/

/-- What a web server answers. -/
inductive HttpAnswer where
  | body (raw : Bytes)
  | notFound
  | failed (why : String)

/-- **What the servers and the local files of a `file://` URL answer during one run.** -/
structure Net where
  openFile : String → Except IoError Bytes
  get : String → HttpAnswer

/-- **`fetch`**: `none` when the resource does not exist. One byte more than `max` is read, to tell
    a resource that is too large. -/
def fetch (net : Net) (url : String) (max : Nat) : Except UpdateError (Option Bytes) := do
  let capped (raw : Bytes) : Except UpdateError (Option Bytes) :=
    if max < (raw.take (max + 1)).length then
      throw (.fetch (url ++ " is larger than " ++ toString max ++ " bytes"))
    else return some (raw.take (max + 1))
  match stripPrefix "file://".toList url.toList with
  | some path =>
    match net.openFile (String.ofList path) with
    | .ok raw => capped raw
    | .error .notFound => return none
    | .error e => throw (.io e)
  | none =>
    if (stripPrefix "https://".toList url.toList).isNone then
      throw (.config (url ++ " must be an https:// or file:// URL"))
    match net.get url with
    | .body raw => capped raw
    | .notFound => return none
    | .failed why => throw (.fetch (url ++ ": " ++ why))

end Sn46Validator.Update
