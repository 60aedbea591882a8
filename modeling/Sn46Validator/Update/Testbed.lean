/-
  File:      Update/Testbed.lean
  Subject:   A HOST THAT WORKS, and the host of the repository's own updater tests.

  * `calm` -- every operation answered without a failure; `act_calm`, `act_total` -- a machine of
    either kind may answer so, hence every run can finish;
  * `testCall`, `testHost` -- `fake_binary("0.1.3")` installed, and a release published and signed
    with the tests' key.
-/
import Sn46Validator.Update.Model

namespace Sn46Validator.Update

open Library

/-! ## 1. A host that works -/

/-- Every operation answered without a failure. -/
def calm (reports : Bytes → Option String) (w : Host) : (op : Op) → Op.Ans op × Host
  | .fs op =>
    let r := FileOp.exec w.files op
    (r.1, (w.filed op r.2).heard op r.1)
  | .createStateDir | .openLock => (.ok (), w)
  | .stateDirMeta => (.ok ⟨true, 0, 0o755, 0⟩, w)
  | .tryLock => (.acquired, w)
  | .version =>
    match (w.files .staged).bind reports with
    | some out => (.ok out, w)
    | none => (.error (.binary "cannot run: "), w)
  | .restart => (.ok (), { w with restarted := true })

/-- **A machine of either kind may answer as a host that works.** -/
theorem act_calm (reports : Bytes → Option String) (faults : Bool) (w : Host) (op : Op) :
    (machine reports faults).act w op (calm reports w op).1 (calm reports w op).2 := by
  cases op with
  | fs op => exact ⟨_, FileOp.act_exec faults w.files op, rfl⟩
  | createStateDir | openLock | tryLock => exact ⟨rfl, fun _ => rfl⟩
  | stateDirMeta => exact ⟨rfl, fun _ => ⟨_, rfl, by decide⟩⟩
  | version =>
    unfold calm
    cases h : (w.files .staged).bind reports with
    | none => exact ⟨rfl, .inl ⟨_, rfl⟩⟩
    | some out =>
      obtain ⟨b, hb, hr⟩ := Option.bind_eq_some_iff.mp h
      exact ⟨rfl, b, hb, hr⟩
  | restart => rfl

/-- **Every operation has an answer.** -/
theorem act_total (reports : Bytes → Option String) (faults : Bool) (w : Host) (op : Op) :
    ∃ x w', (machine reports faults).act w op x w' :=
  ⟨_, _, act_calm reports faults w op⟩

/-- A call played on a host that works, killed after `n` operations. -/
def played {crypto : Crypto} (reports : Bytes → Option String) (faults : Bool) (n : Nat)
    (w : Host) (c : Call crypto) :
    List (Event (machine reports faults)) × Option (Except UpdateError Outcome) × Host :=
  (run c).run.play (M := machine reports faults) (calm reports) n w

/-- The host that such a call leaves. -/
def playedTo {crypto : Crypto} (reports : Bytes → Option String) (n : Nat) (w : Host)
    (c : Call crypto) : Host :=
  (played reports true n w c).2.2

theorem exec_played {crypto : Crypto} (reports : Bytes → Option String) (faults : Bool) (n : Nat)
    (w : Host) (c : Call crypto) :
    Exec (machine reports faults) w (run c).run (played reports faults n w c).1
      (played reports faults n w c).2.1 (played reports faults n w c).2.2 :=
  Exec.play (M := machine reports faults) (act_calm reports faults) n w (run c).run

/-- An action of a trace, found. -/
theorem exists_action {reports : Bytes → Option String} {faults : Bool}
    {tr : List (Event (machine reports faults))} {a : Action}
    (h : tr.any (fun e => decide (action e.op e.ans = a)) = true) :
    ∃ e ∈ tr, action e.op e.ans = a := by
  obtain ⟨e, he, ha⟩ := List.any_eq_true.mp h
  exact ⟨e, he, of_decide_eq_true ha⟩

/-- Is there a first action, and then a second one? -/
def follows {reports : Bytes → Option String} {faults : Bool} (a b : Action) :
    List (Event (machine reports faults)) → Bool
  | [] => false
  | e :: tr => action e.op e.ans = a && tr.any (fun e => action e.op e.ans = b) || follows a b tr

/-- Two actions of a trace, found. -/
theorem exists_actions {reports : Bytes → Option String} {faults : Bool} {a b : Action}
    {tr : List (Event (machine reports faults))} (h : follows a b tr = true) :
    ∃ tr₁ e₁ tr₂ e₂ tr₃, tr = tr₁ ++ e₁ :: (tr₂ ++ e₂ :: tr₃) ∧ action e₁.op e₁.ans = a ∧
      action e₂.op e₂.ans = b := by
  induction tr with
  | nil => cases h
  | cons e tr ih =>
    rw [follows, Bool.or_eq_true, Bool.and_eq_true, decide_eq_true_eq] at h
    rcases h with ⟨ha, hb⟩ | h
    · obtain ⟨e₂, he₂, hb₂⟩ := exists_action hb
      obtain ⟨tr₂, tr₃, rfl⟩ := List.append_of_mem he₂
      exact ⟨[], e, tr₂, e₂, tr₃, rfl, ha, hb₂⟩
    · obtain ⟨tr₁, e₁, tr₂, e₂, tr₃, rfl, hab⟩ := ih h
      exact ⟨e :: tr₁, e₁, tr₂, e₂, tr₃, rfl, hab⟩

/-! ## 2. The test host -/

/-- The bytes of a text. -/
def bytes (s : String) : Bytes := s.toUTF8.data.toList

/-- The tests' stand-in for a binary: a script that prints its version. -/
def fakeBinary (version : String) : Bytes :=
  bytes ("#!/usr/bin/env bash\necho \"sn46-validator " ++ version ++ "\"\n")

/-- The `n` bytes of a number, from the highest. -/
def bigEndian (n x : Nat) : Bytes :=
  (List.range n).map fun i => UInt8.ofNat (x / 256 ^ (n - 1 - i) % 256)

/-- A release of the tests, by the number its digest spells. -/
def testManifest (version : String) (sequence : U64) (digest : Nat) : Manifest where
  applyAfterMs := 0
  binary := ⟨binaryName, String.ofList (hexEncode (bigEndian 32 digest)), 48⟩
  schema := manifestSchema
  sequence := sequence
  version := version

def digest4 : Nat := 0xfd1646e3c20ac554d75f0e240bdadd8183e06e961421d325191aa1a78ee50bb9

def digest5 : Nat := 0xf13ceba037d270f5b99b3337df08ac8384aa935c7e74baf9894e8ddc0e816db0

def release4 : Manifest := testManifest "0.1.4" 2 digest4

def release5 : Manifest := testManifest "0.1.5" 3 digest5

/-- The bytes that are published and signed, for a digest and the fields that follow it. -/
def releaseBytes (digest : Nat) (rest : String) : Bytes :=
  bytes "\x7b\"apply_after_ms\":0,\"binary\":\x7b\"name\":" ++
    bytes "\"sn46-validator-linux-x86_64\",\"sha256\":\"" ++
    Json.encodeUtf8 (hexEncode (bigEndian 32 digest)) ++
    bytes "\",\"size\":48\x7d,\"schema\":\"sn46.validator.release.v1\"," ++ bytes rest

def published (m : Manifest) : Bytes :=
  if m.sequence = 2 then releaseBytes digest4 "\"sequence\":2,\"version\":\"0.1.4\"\x7d\n"
  else releaseBytes digest5 "\"sequence\":3,\"version\":\"0.1.5\"\x7d\n"

/-- The key of the tests. -/
def testKey : Bytes :=
  bigEndian 32 0xea4a6c63e29c520abef5507b132ec5f9954776aebebe7b92421eea691446d22c

/-- The signature of a release. -/
def signature (m : Manifest) : Bytes :=
  if m.sequence = 2 then
    bigEndian 64 (0x14e3e0cbee3efa1bd70704fd7ddb4daec7b8a1b3a71d5082f921a5937f5c1053 * 2 ^ 256 +
      0x9f82e7f47a7182a4b309a39ee0c87946b69f5173afb4dbbd1242b8bf7133c704)
  else
    bigEndian 64 (0x1da1eab5d4960119b2388e86b2e029f1512f30640bcef31cc20d9102c862131b * 2 ^ 256 +
      0xd6a589cba5d70b0fa0a6562e1b12fd1b438b851676f122d8317796be79dc0709)

/-- A digest of the tests. -/
def testDigest (b : Bytes) : Bytes :=
  if b = fakeBinary "0.1.4" then bigEndian 32 digest4
  else if b = fakeBinary "0.1.5" then bigEndian 32 digest5
  else if b = bytes "5Ftesthost" then
    bigEndian 32 0x1c988a6cb292f920e505ad812e5f72b025edf1504514129c423b5121d846009d
  else List.replicate 32 0

/-- The hash and the signatures on what the tests feed them. -/
def testCrypto : Crypto where
  Key := Bytes
  sha256 := testDigest
  sha256_length b := by
    unfold testDigest
    split_ifs
    · simp [bigEndian]
    · simp [bigEndian]
    · simp [bigEndian]
    · exact List.length_replicate
  verifyStrict key raw sig :=
    key = testKey && (raw = published release4 && sig = signature release4 ||
      raw = published release5 && sig = signature release5)
  prints _ := true

/-- What the tests' binaries print. -/
def testReports (b : Bytes) : Option String :=
  if b = fakeBinary "0.1.3" then some "sn46-validator 0.1.3"
  else if b = fakeBinary "0.1.4" then some "sn46-validator 0.1.4"
  else if b = fakeBinary "0.1.5" then some "sn46-validator 0.1.5"
  else none

/-- The tests' configuration, run by a binary of the given version. -/
def testConfig (running : String) : Config testCrypto where
  enabled := true
  now := false
  window := none
  spreadS := 7200
  manifestUrl := "file:///release/manifest.json"
  binaryUrlBase := "file:///release/"
  installPath := "/bin/sn46-validator"
  stateDir := "/state"
  hostId := "5Ftesthost"
  publicKey := testKey
  runningVersion := running
  availableBytes := .ok 1000000000

/-- A release directory. -/
def publish (m : Manifest) : Net where
  openFile path :=
    if path = "/release/manifest.json" then .ok (published m)
    else if path = "/release/manifest.sig" then .ok (Json.encodeUtf8 (hexEncode (signature m)))
    else if path = "/release/sn46-validator-linux-x86_64" then .ok (fakeBinary m.version)
    else .error .notFound
  get _ := .notFound

/-- What the fake `systemctl show` prints. -/
def shown (restarts : String) : Except String String :=
  .ok ("ActiveState=active\nNRestarts=" ++ restarts ++ "\n")

/-- **A run of the tests**: the service restarts once during the health period, or not at all. -/
def testCall (running : String) (m : Manifest) (healthy : Bool) : Call testCrypto where
  config := testConfig running
  nowMs := 1790000000000
  net := publish m
  polls := ⟨shown "0", shown (if healthy then "0" else "1"), []⟩

/-- **The host of the tests**: 0.1.3 is installed and the state directory is empty. -/
def testHost : Host where
  files
    | .install => some (fakeBinary "0.1.3")
    | _ => none
  atPending := none
  restarted := true
  misled := false

theorem testHost_runs : Runs testReports (testHost.files .install) "0.1.3" :=
  ⟨fakeBinary "0.1.3", rfl, if_pos rfl⟩

/-- The test host after an update that was killed between the swap and the restart. -/
def swapped : Host := playedTo testReports 20 testHost (testCall "0.1.3" release4 true)

theorem swapped_files : swapped.files (.state .pending) ≠ none ∧
    swapped.files .install = some (fakeBinary "0.1.4") := by decide +kernel

theorem swapped_runs : Runs testReports (swapped.files .install) "0.1.4" :=
  ⟨fakeBinary "0.1.4", swapped_files.2, by decide +kernel⟩

/-- The update of the tests swaps the release in. -/
theorem played_swaps :
    ∃ e ∈ (played testReports true 25 testHost (testCall "0.1.3" release4 true)).1,
      action e.op e.ans = .swap :=
  exists_action (by decide +kernel)

/-- The releases of the tests are the only signed ones, and their sequences differ. -/
theorem testManifests_distinct {raw raw' sig sig' : Bytes} {m m' : Manifest}
    (h : verifyManifest testCrypto raw sig testKey = .ok m)
    (h' : verifyManifest testCrypto raw' sig' testKey = .ok m') (hs : m.sequence = m'.sequence) :
    m = m' := by
  have hread : ∀ {raw sig m}, verifyManifest testCrypto raw sig testKey = .ok m →
      m = release4 ∨ m = release5 := by
    intro raw sig m h
    obtain ⟨hr, s, hv⟩ := verifyManifest_read h
    have h4 : ((Json.ofBytes (published release4)).bind fun tree => Manifest.read tree.toValue) =
        some release4 := by decide +kernel
    have h5 : ((Json.ofBytes (published release5)).bind fun tree => Manifest.read tree.toValue) =
        some release5 := by decide +kernel
    simp only [testCrypto, decide_true, Bool.true_and, Bool.or_eq_true, Bool.and_eq_true,
      decide_eq_true_eq] at hv
    rcases hv with ⟨rfl, -⟩ | ⟨rfl, -⟩
    · exact .inl (Option.some.inj (hr.symm.trans h4))
    · exact .inr (Option.some.inj (hr.symm.trans h5))
  rcases hread h with rfl | rfl <;> rcases hread h' with rfl | rfl
  · rfl
  · exact absurd hs (by decide)
  · exact absurd hs (by decide)
  · rfl

/-- The test host after an update that was not disturbed. -/
def updated : Host := playedTo testReports 25 testHost (testCall "0.1.3" release4 true)

/-- The test host after an update that was killed when `release.json` was written. -/
def confirmed : Host := playedTo testReports 23 testHost (testCall "0.1.3" release4 true)

/-- The same after the next run, whose health check fails. -/
def undone : Host := playedTo testReports 40 confirmed (testCall "0.1.4" release4 false)

/-- A host that runs 0.1.4, and on which sequence 2 has failed. -/
def relapsed : Host where
  files
    | .install => some (fakeBinary "0.1.4")
    | .state .failed => some (FailedReleases.codec.encode ⟨[⟨2, "0.1.4", 1790000000000⟩]⟩)
    | _ => none
  atPending := none
  restarted := true
  misled := false

/-- That host after it was offered 0.1.4 under sequence 2. -/
def adopted : Host := playedTo testReports 25 relapsed (testCall "0.1.4" release4 true)

end Sn46Validator.Update
