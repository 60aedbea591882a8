/-
  File:      Update/Run.lean
  Subject:   ONE UPDATER RUN as a program over the host's operations.

  * `Path`, `Host`, `Op` -- the updater's files (which are distinct), the host, and what a run asks
    of it. Beside the files the host keeps three marks of the past that no run can read;
  * `machine reports faults` -- what the operations do; with `faults` any of them may fail.
    `reports` is what a binary prints for `--version`;
  * `Config`, `Call` -- the configuration, and what else a run is given: the clock, what the servers
    answer, and the reports of `systemctl show` until the health period is over;
  * `run` -- the run; `recover`, `offer`, `install`, `stage`, `confirm`, `rollBack` are its parts.

  The journal (`tracing`) is left out; its times are in Update/Utc.lean.
-/
import Sn46Validator.Library.History
import Sn46Validator.Update.Manifest
import Sn46Validator.Update.Records

namespace Sn46Validator.Update

open Library

/-! ## 1. The host -/

/-- The files in the state directory, each written through a temporary one. -/
inductive StateFile where
  | pending
  | release
  | failed
  | status
  deriving DecidableEq

def StateFile.name : StateFile → String
  | pending => "pending.json"
  | release => "release.json"
  | failed => "update-failed.json"
  | status => "update-status.json"

/-- **The updater's files**: the binary at `install_path`, its `.previous`, the staged download,
    and the state files with their temporary ones. -/
inductive Path where
  | install
  | previous
  | staged
  | state (f : StateFile)
  | temporary (f : StateFile)
  deriving DecidableEq

/-- **The host**: its files, what was installed when `pending.json` came to be, whether the service
    was restarted since the last rename onto `install_path`, and whether a probe of `.previous`
    ever missed it. -/
structure Host where
  files : Files Path
  atPending : Option Bytes
  restarted : Bool
  misled : Bool

/-- What `symlink_metadata` tells about the state directory, and the user the updater runs as. -/
structure DirMeta where
  isDir : Bool
  uid : Nat
  mode : Nat
  euid : Nat

/-- A directory of this user that no other user may write. -/
def DirMeta.proper (info : DirMeta) : Bool :=
  info.isDir && info.uid = info.euid && info.mode &&& 0o022 = 0

/-- **What a run asks of the host.** `tryLock` is the whole loop that waits for the lock, `version`
    runs the staged binary, `restart` is `systemctl restart`. -/
inductive Op where
  | fs (op : FileOp Path)
  | createStateDir
  | stateDirMeta
  | openLock
  | tryLock
  | version
  | restart

abbrev Op.Ans : Op → Type
  | fs op => op.Ans
  | createStateDir | openLock => Except IoError Unit
  | stateDirMeta => Except IoError DirMeta
  | tryLock => TryLock
  | version => Except UpdateError String
  | restart => Except String Unit

abbrev iface : Interface := ⟨Op, Op.Ans⟩

/-- The host after an operation on its files. -/
def Host.filed (w : Host) (op : FileOp Path) (fs : Files Path) : Host where
  files := fs
  atPending :=
    if w.files (.state .pending) = none ∧ fs (.state .pending) ≠ none then w.files .install
    else w.atPending
  restarted := w.restarted && decide (.install ∉ op.targets)
  misled := w.misled

/-- The host after it answered. -/
def Host.heard (w : Host) : (op : FileOp Path) → op.Ans → Host
  | .probe .previous, false => { w with misled := w.misled || (w.files .previous).isSome }
  | _, _ => w

/-- **What the operations do.** -/
@[reducible] def machine (reports : Bytes → Option String) (faults : Bool) : Machine iface where
  World := Host
  act w op x w' :=
    match op, x with
    | .fs op, x => ∃ fs, FileOp.act faults w.files op x fs ∧ w' = (w.filed op fs).heard op x
    | .createStateDir, x | .openLock, x => w' = w ∧ (faults = false → x = .ok ())
    | .stateDirMeta, x => w' = w ∧ (faults = false → ∃ m, x = .ok m ∧ m.proper = true)
    | .tryLock, x => w' = w ∧ (faults = false → x = .acquired)
    | .version, .ok out => w' = w ∧ ∃ b, w.files .staged = some b ∧ reports b = some out
    | .version, .error e => w' = w ∧ ((∃ why, e = .binary why) ∨ faults = true ∧ ∃ i, e = .io i)
    | .restart, .ok _ => w' = { w with restarted := true }
    | .restart, .error _ => w' = w ∧ faults = true
  cut w op w' :=
    match op with
    | .fs op => ∃ fs, FileOp.cut w.files op fs ∧ w' = w.filed op fs
    | _ => False

/-! ## 2. What a run is given -/

/-- A UTC maintenance window in minutes of the day; `stop < start` wraps midnight. -/
structure Window where
  start : Nat
  stop : Nat

def Window.contains (window : Window) (nowMs : U64) : Bool :=
  let minute := nowMs.val / 60000 % 1440
  if window.start < window.stop then window.start ≤ minute && minute < window.stop
  else window.start ≤ minute || minute < window.stop

/-- **The configuration.** `availableBytes` is what the seam for the free space answers. -/
structure Config (crypto : Crypto) where
  enabled : Bool
  now : Bool
  window : Option Window
  spreadS : U64
  manifestUrl : String
  binaryUrlBase : String
  installPath : String
  stateDir : String
  hostId : String
  publicKey : crypto.Key
  runningVersion : String
  availableBytes : Except UpdateError U64

/-- What `systemctl show` prints: before the health period, at its start, and until it is over. -/
structure Polls where
  baseline : Except String String
  first : Except String String
  later : List (Except String String)

/-- **One call of `run`.** -/
structure Call (crypto : Crypto) where
  config : Config crypto
  nowMs : U64
  net : Net
  polls : Polls

/-- Why a run ended without an error. -/
inductive Outcome where
  | disabled
  | busy
  | noManifest
  | notNewer
  | alreadyRunning
  | previouslyFailed
  | waiting (untilMs : U64)
  | outsideWindow
  | updated (version : String)
  deriving DecidableEq

/-! ## 3. Operations -/

abbrev Run (α : Type) : Type := Fallible iface UpdateError α

/-- One operation. -/
def perform (op : Op) : Run (Op.Ans op) := ExceptT.lift (Prog.perform (I := iface) op)

/-- `?` on an I/O result. -/
def io {α : Type} : Except IoError α → Run α
  | .ok a => pure a
  | .error e => throw (.io e)

/-- `?` on a result. -/
def orThrow {α : Type} : Except UpdateError α → Run α
  | .ok a => pure a
  | .error e => throw e

/-- **`read_json`**: `none` when there is no file. -/
def readJson {α : Type} (c : Codec α) (f : StateFile) : Run (Option α) := do
  match ← perform (.fs (.read (.state f))) with
  | .ok raw =>
    match c.decode raw with
    | some a => return some a
    | none => throw (.config (f.name ++ " is malformed: "))
  | .error .notFound => return none
  | .error e => throw (.io e)

/-- **`write_json`** of the bytes of a record: a temporary file, then a rename. -/
def writeJson (f : StateFile) (bytes : Bytes) : Run Unit := do
  io (← perform (.fs (.write (.temporary f) bytes)))
  io (← perform (.fs (.rename (.temporary f) (.state f))))
  let _ ← perform (.fs .sync)

/-- Remove the staged binary, whatever comes of it. -/
def removeStaged : Run Unit := do
  let _ ← perform (.fs (.remove .staged))

/-! ## 4. The service -/

/-- The value of `key` in the report of `systemctl show`. -/
def showField (text : List Char) (key : String) : Except String (List Char) :=
  let found := (lines text).findSome? fun line =>
    (stripPrefix key.toList line).bind (stripPrefix ['='])
  match found with
  | some value => .ok (trim value)
  | none => .error ("systemctl show did not report " ++ key)

/-- `unit_state`: `(ActiveState, NRestarts)` of the service. -/
def unitState (shown : Except String String) : Except String (String × U64) := do
  let text := (← shown).toList
  let some restarts := parseU64 (← showField text "NRestarts")
    | throw "NRestarts is not a number"
  return (String.ofList (← showField text "ActiveState"), restarts)

/-- One poll: the service is active and was not restarted since `baseline`. -/
def steady (baseline : U64) (shown : Except String String) : Except String Unit := do
  let (state, restarts) ← unitState shown
  if state ≠ "active" then throw (service ++ " is " ++ state)
  if restarts ≠ baseline then
    throw (service ++ " restarted (" ++ toString baseline.val ++ " -> " ++
      toString restarts.val ++ ")")

/-- The health period: polls until it is over. -/
def watch (baseline : U64) : List (Except String String) → Except String Unit
  | [] => return ()
  | shown :: later => do
    steady baseline shown
    watch baseline later

/-- The health check proper: at least one poll after the baseline. -/
def Polls.check (polls : Polls) : Except String Unit := do
  let (_, baseline) ← unitState polls.baseline
  watch baseline (polls.first :: polls.later)

/-- **`restart_and_check`.** -/
def restartAndCheck (polls : Polls) : Prog iface (Except String Unit) := do
  match ← Prog.perform (I := iface) .restart with
  | .error why => return .error why
  | .ok _ => return polls.check

/-! ## 5. Rolling back and confirming -/

/-- **`record_failure`**: recording a sequence twice is a no-op. -/
def recordFailure (version : String) (sequence nowMs : U64) : Run Unit := do
  let failed := (← readJson FailedReleases.codec .failed).getD default
  if failed.has sequence then return ()
  writeJson .failed (FailedReleases.codec.encode (failed.push ⟨sequence, version, nowMs⟩))

/-- The restore of `roll_back`: the previous binary is renamed over the installed one, unless an
    earlier rollback did so already. -/
def restore : Prog iface (Except IoError Unit) := do
  if ← Prog.perform (I := iface) (.fs (.probe .previous)) then
    match ← Prog.perform (I := iface) (.fs (.rename .previous .install)) with
    | .error e => return .error e
    | .ok () =>
      let _ ← Prog.perform (I := iface) (.fs .sync)
      return .ok ()
  else return .ok ()

/-- The end of `roll_back`: restart the service, and remove `pending.json` when the failure is
    recorded. -/
def settle (pending : Pending) (reason : String) (recorded : Except UpdateError Unit) :
    Prog iface UpdateError := do
  match ← Prog.perform (I := iface) .restart with
  | .error _ => return .rollbackIncomplete pending.version reason
  | .ok () =>
    match recorded with
    | .error _ => return .rollbackIncomplete pending.version reason
    | .ok () =>
      let _ ← Prog.perform (I := iface) (.fs (.remove (.state .pending)))
      return .rolledBack pending.version reason

/-- `roll_back` after it marked `pending.json`. -/
def putBack (pending : Pending) (nowMs : U64) (reason : String) : Prog iface UpdateError := do
  let recorded ← (recordFailure pending.version pending.sequence nowMs).run
  match ← restore with
  | .error _ => return .rollbackIncomplete pending.version reason
  | .ok () => settle pending reason recorded

/-- **`roll_back`**: mark, record, restore, restart, and only then remove `pending.json`. Failures
    to mark and to record do not stop the restore. -/
def rollBack (pending : Pending) (nowMs : U64) (reason : String) : Prog iface UpdateError := do
  let marker := { pending with rollingBack := true }
  let _ ← (writeJson .pending (Pending.codec.encode marker)).run
  putBack pending nowMs reason

section

variable {crypto : Crypto} (c : Call crypto)

/-- **`confirm`**: restart the service, then record the release, or roll it back. -/
def confirm (pending : Pending) : Run Outcome := do
  match ← ExceptT.lift (restartAndCheck c.polls) with
  | .ok () =>
    writeJson .release (Installed.codec.encode ⟨pending.version, pending.sequence⟩)
    io (← perform (.fs (.remove (.state .pending))))
    return .updated pending.version
  | .error reason => throw (← ExceptT.lift (rollBack pending c.nowMs reason))

/-! ## 6. Recovery -/

/-- Does an earlier rollback explain that the old version runs without a `.previous`? -/
def restored (pending : Pending) : Run Bool :=
  if pending.version ≠ c.config.runningVersion then do
    return !(← perform (.fs (.probe .previous)))
  else return false

/-- **Recovery of an interrupted run**: `none` when the run goes on as an ordinary one. -/
def recover : Run (Option Outcome) := do
  match ← readJson Pending.codec .pending with
  | none => return none
  | some pending =>
    let restored ← restored c pending
    if pending.rollingBack || restored then
      throw (← ExceptT.lift (rollBack pending c.nowMs "an earlier rollback was interrupted"))
    else if pending.version = c.config.runningVersion then
      return some (← confirm c pending)
    else
      io (← perform (.fs (.remove (.state .pending))))
      return none

/-! ## 7. Installing a release -/

/-- The free space an update needs. -/
def neededBytes (m : Manifest) : U64 := U64.saturatingMul m.binary.size 3

def diskStatus (m : Manifest) (available : U64) : Json :=
  .object [("blocked", .string "disk"), ("needed_bytes", .u64 (neededBytes m)),
    ("available_bytes", .u64 available), ("version", .string m.version),
    ("sequence", .u64 m.sequence)]

/-- **`check_disk`.** -/
def checkDisk (m : Manifest) : Run Unit := do
  let available ← orThrow c.config.availableBytes
  if available < neededBytes m then
    writeJson .status (Json.encodeUtf8 (Json.canonical (diskStatus m available) ++ ['\n']))
    throw (.disk (neededBytes m) available)
  match ← perform (.fs (.remove (.state .status))) with
  | .error .notFound => return ()
  | .error e => throw (.io e)
  | .ok () => return ()

/-- The URL of the binary of a release. -/
def binaryUrl (m : Manifest) : String :=
  let base := c.config.binaryUrlBase.toList
  String.ofList (replaceAll "{version}".toList m.version.toList base.length base) ++ m.binary.name

/-- What the installed binary must print. -/
def banner (version : String) : String := "sn46-validator " ++ version

/-- The failure of a binary that was downloaded intact. -/
def unusable : UpdateError → UpdateError
  | .binary why => .badRelease why
  | e => e

/-- The first half of `stage`: the bytes the manifest describes. -/
def download (m : Manifest) : Except UpdateError Bytes := do
  match ← fetch c.net (binaryUrl c m) m.binary.size.val with
  | none => throw (.fetch (binaryUrl c m ++ " is missing"))
  | some binary =>
    if binary.length ≠ m.binary.size.val then
      throw (.binary ("size " ++ toString binary.length ++ " does not match the manifest's " ++
        toString m.binary.size.val))
    else if hexEncode (crypto.sha256 binary) ≠ m.binary.sha256.toList then
      throw (.binary "sha256 does not match the manifest")
    else return binary

/-- **`stage`**: download, verify and test-run the new binary. -/
def stage (m : Manifest) : Run Unit := do
  let binary ← orThrow (download c m)
  removeStaged
  io (← perform (.fs (.create .staged binary)))
  match ← perform .version with
  | .error e => throw (unusable e)
  | .ok reported =>
    if reported ≠ banner m.version then
      throw (.badRelease ("--version printed " ++ debugText crypto.prints reported ++
        ", expected " ++ debugText crypto.prints (banner m.version)))

/-- The copy of the installed binary to `.previous`, made durable. -/
def backUp : Prog iface (Except IoError Unit) := do
  match ← Prog.perform (I := iface) (.fs (.copy .install .previous)) with
  | .error e => return .error e
  | .ok () => Prog.perform (I := iface) (.fs .sync)

/-- The swap: back up, write `pending.json`, rename, and check the release. -/
def swapIn (m : Manifest) : Run Outcome := do
  match ← ExceptT.lift backUp with
  | .error e =>
    removeStaged
    throw (.io e)
  | .ok () =>
    let _ ← perform (.fs .sync)
    let pending : Pending := ⟨m.version, m.sequence, false⟩
    match ← ExceptT.lift (writeJson .pending (Pending.codec.encode pending)).run with
    | .error e =>
      removeStaged
      throw e
    | .ok () =>
      match ← perform (.fs (.rename .staged .install)) with
      | .error e =>
        removeStaged
        let _ ← perform (.fs (.remove (.state .pending)))
        throw (.io e)
      | .ok () =>
        let _ ← perform (.fs .sync)
        confirm c pending

/-- A binary that was not staged: one that does not run here is never tried again. -/
def refuse (m : Manifest) (error : UpdateError) : Run Outcome := do
  removeStaged
  match error with
  | .badRelease why =>
    recordFailure m.version m.sequence c.nowMs
    throw (.badRelease why)
  | e => throw e

/-- From a due release to the swap. -/
def install (m : Manifest) : Run Outcome := do
  if ← perform (.fs (.isFile .install)) then
    checkDisk c m
    match ← ExceptT.lift (stage c m).run with
    | .ok () => swapIn c m
    | .error e => refuse c m e
  else throw (.config (c.config.installPath ++ " is not installed; nothing to update"))

/-! ## 8. The offered release -/

/-- When a release is due on this host. -/
def dueMs (m : Manifest) : U64 :=
  let spread := spreadSeconds crypto c.config.hostId c.config.spreadS
  U64.saturatingAdd m.applyAfterMs (U64.saturatingMul spread 1000)

/-- The apply-after time and the maintenance window, which `--now` ignores. -/
def notYet (m : Manifest) : Option Outcome :=
  if c.config.now then none
  else if c.nowMs < dueMs c m then some (.waiting (dueMs c m))
  else if c.config.window.any fun window => !window.contains c.nowMs then some .outsideWindow
  else none

def signatureUrl : String :=
  let url := c.config.manifestUrl.toList
  String.ofList (trimEndMatches ".json".toList url.length url) ++ ".sig"

/-- Fetch the offered manifest and verify it; `none` when none is published. -/
def offered : Except UpdateError (Option Manifest) := do
  match ← fetch c.net c.config.manifestUrl maxManifestBytes with
  | none => return none
  | some raw =>
    match ← fetch c.net (signatureUrl c) 1024 with
    | none => throw (.fetch (signatureUrl c ++ " is missing"))
    | some signature => return some (← verifyManifest crypto raw signature c.config.publicKey)

/-- A newer release than the installed one: has it failed here, and is it due? -/
def schedule (m : Manifest) (failed : FailedReleases) : Run Outcome :=
  if failed.has m.sequence then return .previouslyFailed
  else
    match notYet c m with
    | some outcome => return outcome
    | none => install c m

/-- What becomes of an offered release. -/
def consider (m : Manifest) (installed : Installed) : Run Outcome :=
  if m.sequence ≤ installed.sequence then return .notNewer
  else if m.version = c.config.runningVersion then do
    writeJson .release (Installed.codec.encode ⟨m.version, m.sequence⟩)
    return .alreadyRunning
  else do
    schedule c m ((← readJson FailedReleases.codec .failed).getD default)

/-- **An ordinary run**: what is offered, and whether it is installed now. -/
def offer : Run Outcome := do
  let installed := (← readJson Installed.codec .release).getD default
  match ← orThrow (offered c) with
  | none => return .noManifest
  | some m => consider c m installed

/-! ## 9. The run -/

/-- `check_state_dir`: only the updater's own user may be able to write the state directory. -/
def checkStateDir : Run Unit := do
  let info ← io (← perform .stateDirMeta)
  if info.proper then return ()
  else throw (.config (c.config.stateDir ++ " must be a directory owned by uid " ++
    toString info.euid ++ " and writable only by it"))

/-- A run that holds the lock. -/
def locked : Run Outcome := do
  match ← recover c with
  | some outcome => return outcome
  | none => offer c

/-- **`run`.** -/
def run : Run Outcome := do
  if c.config.enabled then
    io (← perform .createStateDir)
    checkStateDir c
    io (← perform .openLock)
    match ← perform .tryLock with
    | .acquired => locked c
    | .wouldBlock => return .busy
    | .error e => throw (.io e)
  else return .disabled

end

end Sn46Validator.Update
