/-
  File:      Update/Model.lean
  Subject:   THE UPDATE PROCEDURE as a labelled transition system over what is durable.

  * `Durable` -- the binaries and the state files that a run reads, as values, with the marks of the
    past;
  * `Action` -- the operations that matter;
  * `Matches`, `Admitted` -- when a binary is the one of a manifest, and when a call may install it;
  * `Step c start` -- what a step of the call `c` can do, with every condition under which it does
    it; `start` is the binary that was installed when the call began.
-/
import Sn46Validator.Update.Run

namespace Sn46Validator.Update

open Library

/-- **What is durable**, but for `update-status.json`, which says how much space is missing and which no
    run reads, and for temporary files. -/
structure Durable where
  install : Option Bytes
  previous : Option Bytes
  staged : Option Bytes
  pending : Stored Pending
  release : Stored Installed
  failed : Stored FailedReleases
  atPending : Option Bytes
  restarted : Bool
  misled : Bool

/-- The host as values. -/
def view (w : Host) : Durable where
  install := w.files .install
  previous := w.files .previous
  staged := w.files .staged
  pending := .of Pending.codec (w.files (.state .pending))
  release := .of Installed.codec (w.files (.state .release))
  failed := .of FailedReleases.codec (w.files (.state .failed))
  atPending := w.atPending
  restarted := w.restarted
  misled := w.misled

/-- **The operations that matter**, when they succeed. A copy to `.previous` matters in any case. -/
inductive Action where
  | swap
  | restore
  | backup
  | write (f : StateFile)
  | clear
  | restart
  | other
  deriving DecidableEq

def action : (op : Op) → Op.Ans op → Action
  | .fs (.rename .staged .install), .ok _ => .swap
  | .fs (.rename .previous .install), .ok _ => .restore
  | .fs (.copy .install .previous), _ => .backup
  | .fs (.rename (.temporary .pending) (.state .pending)), .ok _ => .write .pending
  | .fs (.rename (.temporary .release) (.state .release)), .ok _ => .write .release
  | .fs (.rename (.temporary .failed) (.state .failed)), .ok _ => .write .failed
  | .fs (.remove (.state .pending)), .ok _ => .clear
  | .restart, .ok _ => .restart
  | _, _ => .other

section

variable {crypto : Crypto} (reports : Bytes → Option String)

/-- A binary is the one a manifest describes: its size, its hash, and what it prints. -/
structure Matches (crypto : Crypto) (reports : Bytes → Option String) (m : Manifest) (b : Bytes) :
    Prop where
  size : b.length = m.binary.size.val
  sha256 : hexEncode (crypto.sha256 b) = m.binary.sha256.toList
  version : reports b = some (banner m.version)

/-- The installed bytes are a binary of a version. -/
def Runs (installed : Option Bytes) (version : String) : Prop :=
  ∃ b, installed = some b ∧ reports b = some (banner version)

/-- **A call may install a binary for a manifest.** -/
structure Admitted (c : Call crypto) (m : Manifest) (b : Bytes) : Prop where
  enabled : c.config.enabled = true
  offered : offered c = .ok (some m)
  fits : Matches crypto reports m b
  version_ne : m.version ≠ c.config.runningVersion
  space : ∃ available, c.config.availableBytes = .ok available ∧ neededBytes m ≤ available
  due : notYet c m = none

/-- The sequence `release.json` records; none is the lowest. -/
def Durable.recorded (d : Durable) : U64 :=
  match d.release with
  | .holds r => r.sequence
  | _ => 0

/-- The sequence is newer than the recorded one. -/
def Durable.Newer (d : Durable) (sequence : U64) : Prop :=
  d.release ≠ .malformed ∧ d.recorded < sequence

/-- The sequence is not recorded as failed. -/
def Durable.Unfailed (d : Durable) (sequence : U64) : Prop :=
  d.failed ≠ .malformed ∧ ∀ f, d.failed = .holds f → f.has sequence = false

/-- The pending release is the installed one: by its version when the call began, or since this
    call swapped it in. -/
def Landed (c : Call crypto) (start : Option Bytes) (p : Pending) (d : Durable) : Prop :=
  p.version = c.config.runningVersion ∧ d.install = start ∨
    ∃ m b, d.install = some b ∧ Matches crypto reports m b ∧ m.version = p.version

/-- **One step of a call.** -/
inductive Step (c : Call crypto) (start : Option Bytes) : Action → Durable → Durable → Prop where
  /-- Nothing durable changes. -/
  | idle {d : Durable} : Step c start .other d d
  /-- A rename onto `install_path` failed. -/
  | stale {d : Durable} : Step c start .other d { d with restarted := false }
  /-- A probe missed `.previous`. -/
  | mislead {d : Durable} : Step c start .other d { d with misled := true }
  /-- The staged binary changes. -/
  | stage {d : Durable} (b : Option Bytes) : Step c start .other d { d with staged := b }
  /-- The service is restarted. -/
  | restart {d : Durable} : Step c start .restart d { d with restarted := true }
  /-- The copy to `.previous`, complete or not. -/
  | backup {d : Durable} (b : Option Bytes) (hp : d.pending = .absent) (hi : d.install = start) :
      Step c start .backup d { d with previous := b }
  /-- `pending.json` is written before the swap. -/
  | begin {d : Durable} {m : Manifest} {b : Bytes} (hp : d.pending = .absent)
      (hi : d.install = start) (hb : d.install ≠ none) (hprev : d.previous = d.install)
      (hs : d.staged = some b) (ha : Admitted reports c m b) (hn : d.Newer m.sequence)
      (hf : d.Unfailed m.sequence) :
      Step c start (.write .pending) d
        { d with pending := .holds ⟨m.version, m.sequence, false⟩, atPending := d.install }
  /-- `pending.json` is marked as a rollback. -/
  | mark {d : Durable} {p : Pending} (hp : d.pending = .holds p) :
      Step c start (.write .pending) d { d with pending := .holds { p with rollingBack := true } }
  /-- The swap. -/
  | swap {d : Durable} {m : Manifest} {b : Bytes}
      (hp : d.pending = .holds ⟨m.version, m.sequence, false⟩) (hi : d.install = start)
      (hat : d.atPending = d.install) (hb : d.install ≠ none) (hprev : d.previous = d.install)
      (hs : d.staged = some b) (ha : Admitted reports c m b) (hn : d.Newer m.sequence)
      (hf : d.Unfailed m.sequence) :
      Step c start .swap d { d with install := some b, staged := none, restarted := false }
  /-- The previous binary is put back. -/
  | restore {d : Durable} {p : Pending} {b : Bytes} (hp : d.pending = .holds p)
      (hb : d.previous = some b) :
      Step c start .restore d
        { d with install := some b, previous := none, restarted := false }
  /-- `pending.json` is removed since the swap never landed. -/
  | abandon {d : Durable} {p : Pending} (hp : d.pending = .holds p) (hr : p.rollingBack = false)
      (hv : p.version ≠ c.config.runningVersion) (hi : d.install = start)
      (hprev : d.previous ≠ none) : Step c start .clear d { d with pending := .absent }
  /-- `pending.json` is removed after a recorded rollback. -/
  | rolledBack {d : Durable} {p : Pending} {f : FailedReleases} (hp : d.pending = .holds p)
      (hf : d.failed = .holds f) (hs : f.has p.sequence = true)
      (hprev : d.previous = none ∨ d.misled = true) :
      Step c start .clear d { d with pending := .absent }
  /-- `pending.json` is removed after the release was recorded. -/
  | confirmed {d : Durable} {p : Pending} (hp : d.pending = .holds p)
      (hl : Landed reports c start p d) (hr : d.release = .holds ⟨p.version, p.sequence⟩) :
      Step c start .clear d { d with pending := .absent }
  /-- A healthy release is recorded. -/
  | confirm {d : Durable} {p : Pending} (hp : d.pending = .holds p)
      (hl : Landed reports c start p d) (hr : p.rollingBack = false) :
      Step c start (.write .release) d { d with release := .holds ⟨p.version, p.sequence⟩ }
  /-- The running release is recorded under an offered sequence. -/
  | adopt {d : Durable} {m : Manifest} (hp : d.pending = .absent) (hi : d.install = start)
      (ho : offered c = .ok (some m)) (hv : m.version = c.config.runningVersion)
      (hn : d.Newer m.sequence) :
      Step c start (.write .release) d { d with release := .holds ⟨m.version, m.sequence⟩ }
  /-- The failure of the pending release is recorded. -/
  | blame {d : Durable} {p : Pending} {f : FailedReleases} (nowMs : U64)
      (hp : d.pending = .holds p) (hf : d.failed.getD default = some f)
      (hs : f.has p.sequence = false) :
      Step c start (.write .failed) d
        { d with failed := .holds (f.push ⟨p.sequence, p.version, nowMs⟩) }
  /-- The failure of an offered release that does not run here is recorded. -/
  | reject {d : Durable} {m : Manifest} {f : FailedReleases} (nowMs : U64)
      (hp : d.pending = .absent) (ho : offered c = .ok (some m)) (hn : d.Newer m.sequence)
      (hf : d.failed.getD default = some f) (hs : f.has m.sequence = false) :
      Step c start (.write .failed) d
        { d with failed := .holds (f.push ⟨m.sequence, m.version, nowMs⟩) }

/-- What a kill inside an operation leaves: a half-written file that no one reads, or a broken
    copy at `.previous`. -/
inductive Torn (start : Option Bytes) (d : Durable) : Durable → Prop where
  | idle : Torn start d d
  | stage (b : Option Bytes) : Torn start d { d with staged := b }
  | backup (b : Option Bytes) (hp : d.pending = .absent) (hi : d.install = start) :
      Torn start d { d with previous := b }

end

end Sn46Validator.Update
