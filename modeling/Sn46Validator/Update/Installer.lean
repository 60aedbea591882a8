/-
  File:      Update/Installer.lean
  Subject:   THE INSTALLER, and the updater that runs after it.

  * `Page`, `Site` -- what `install.sh` finds around it; its programs are not modelled;
  * `fetchRelease` -- the script up to the binary it puts in place;
  * `releaseState` -- **what it records**: the sequence of the manifest that was published with the
    binary, if `grep` finds this binary in it, else 0;
  * `installer` -- the script, as far as the updater can see it;
  * `install_recorded` -- **the record it leaves**;
  * `installed_stays` -- what it installed is not installed again by the updater;
  * `signed_installed` -- from the signing script to the updater: nothing changes after the install.
-/
import Sn46Validator.Update.Ordinary
import Sn46Validator.Update.Signing

namespace Sn46Validator.Update

open Library Shell

/-! ## 1. The script -/

/-- **What is published with a version**, if it can be downloaded; whether `sha256sum` accepts
    `SHA256SUMS`, and what the binary prints here as its version. -/
structure Page where
  asset : Option Bytes
  sums : Option (List Char)
  check : Bool
  manifest : Option (List Char)
  reported : Option String

/-- **What the script finds**: the system, where `releases/latest` leads, the releases, and how the
    stages end that it leaves to other programs. -/
structure Site where
  system : String × String
  latest : Option (List Char)
  page : String → Page
  prepared : Except String Unit
  staged : Except String Unit
  units : Except String Unit
  restarted : Except String Unit
  active : Except String Unit

/-- What is asked for; no version is the empty text. -/
structure Choice where
  version : String
  withService : Bool

/-- **The arguments.** -/
def choices : List String → Choice → Except String Choice
  | [], o => .ok o
  | arg :: rest, o =>
    if arg = "--no-service" then choices rest { o with withService := false }
    else if arg.toList.head? = some 'v' then
      if o.version = "" then choices rest { o with version := arg }
      else .error "Specify only one version."
    else .error "Usage: install.sh [vX.Y.Z] [--no-service]"

/-- A binary that was downloaded and checked. -/
structure Fetched where
  version : String
  digest : List Char
  binary : Bytes
  manifest : Option (List Char)
  withService : Bool
  deriving DecidableEq

/-- The version of the binary, without the `v`. -/
def Fetched.number (f : Fetched) : String := String.ofList (tagVersion f.version)

/-- The version to install: the one that is asked for, or the latest. -/
def Site.version (s : Site) (o : Choice) : Except String String :=
  if o.version = "" then
    match s.latest with
    | some url => .ok (String.ofList (url.rtakeWhile (· ≠ '/')))
    | none => .error ""
  else .ok o.version

/-- **The script up to the binary it installs**, or what it dies with. -/
def fetchRelease (s : Site) (args : List String) : Except String Fetched := do
  let o ← choices args ⟨"", true⟩
  if s.system ≠ ("Linux", "x86_64") then
    throw "This release supports Linux x86_64 (Ubuntu 22.04 or newer)."
  let version ← s.version o
  if ¬tagShape version then throw "Expected a release version such as v0.1.0."
  let page := s.page version
  let some binary := page.asset | throw ""
  let some sums := page.sums | throw ""
  let some (digest, checksumFile) := readTwo sums | throw ""
  if ¬(sha256Shape (String.ofList digest) = true ∧ checksumFile = binaryName.toList) then
    throw "Missing binary checksum."
  if ¬page.check then throw "Checksum verification failed."
  let some reported := page.reported | throw "The binary cannot run on this machine."
  if reported ≠ banner (String.ofList (tagVersion version)) then
    throw "Binary version does not match the release."
  return ⟨version, digest, binary, page.manifest, o.withService⟩

/-- A member of a manifest whose value is a text. -/
def member (key value : List Char) : List Char :=
  '"' :: (key ++ ("\":\"".toList ++ (value ++ ['"'])))

/-- What stands in a manifest of this binary. -/
def Fetched.versionMember (f : Fetched) : List Char :=
  member "version".toList (tagVersion f.version)

def Fetched.digestMember (f : Fetched) : List Char := member "sha256".toList f.digest

/-- **The sequence that is recorded.** A manifest of this binary in which `grep` finds no sequence
    ends the script. -/
def releaseSequence (f : Fetched) : Except String (List Char) :=
  match f.manifest with
  | none => .ok ['0']
  | some text =>
    if text ≠ [] && occurs f.versionMember text && occurs f.digestMember text then
      let found := numbersAfter sequenceKey text
      if found = [] then .error ""
      else if digits (captured found) then .ok (captured found)
      else .ok ['0']
    else .ok ['0']

/-- **`write_release_state`**: the text of `release.json`. -/
def releaseState (f : Fetched) : Except String (List Char) := do
  let sequence ← releaseSequence f
  return "\x7b\"sequence\":".toList ++ (sequence ++
    (",\"version\":\"".toList ++ (tagVersion f.version ++ "\"\x7d\n".toList)))

/-- The binary is moved into place. -/
def Host.place (w : Host) (b : Bytes) : Host :=
  { w with files := Function.update w.files .install (some b), restarted := false }

/-- The record is put in place. -/
def Host.record (w : Host) (text : List Char) : Host :=
  { w with files := Function.update w.files (.state .release) (some (Json.encodeUtf8 text)) }

/-- **The script up to the binary in its place.** -/
def stageRelease (s : Site) (args : List String) : Except String Fetched := do
  let f ← fetchRelease s args
  if f.withService then s.prepared
  s.staged
  return f

/-- **`start_service`.** -/
def startService (s : Site) (f : Fetched) (w : Host) : Except String Unit × Host :=
  match s.units.bind fun _ => releaseState f with
  | .error e => (.error e, w)
  | .ok text =>
    match s.restarted with
    | .error e => (.error e, w.record text)
    | .ok () => (s.active, { w.record text with restarted := true })

/-- **The script**: how it ends, and the host it leaves. -/
def installer (s : Site) (args : List String) (w : Host) : Except String Unit × Host :=
  match stageRelease s args with
  | .error e => (.error e, w)
  | .ok f =>
    if f.withService then startService s f (w.place f.binary) else (.ok (), w.place f.binary)

/-! ## 2. What is found in a manifest -/

/-- A well-formed manifest is one of a release. -/
theorem Manifest.Formed.release {m : Manifest} (h : m.Formed) : m.Release := by
  have hv := h.version
  have hd := h.sha256
  rw [versionShape, Bool.and_eq_true, decide_eq_true_eq, List.all_eq_true] at hv
  rw [sha256Shape, Bool.and_eq_true, decide_eq_true_eq, List.all_eq_true] at hd
  obtain ⟨x, y, z, hsplit⟩ := List.length_eq_three.mp hv.1
  have hgroup : ∀ l ∈ [x, y, z], Group l := fun l hl => by
    have hp := hv.2 l (hsplit ▸ hl)
    rw [Bool.and_eq_true, Bool.and_eq_true, decide_eq_true_eq, decide_eq_true_eq,
      List.all_eq_true] at hp
    exact ⟨hp.1.1, hp.1.2, hp.2⟩
  have hwhole : ['.'].intercalate (m.version.toList.splitOn '.') = m.version.toList :=
    List.intercalate_splitOn '.'
  refine ⟨h.schema, ⟨x, y, z, hgroup x (by simp), hgroup y (by simp), hgroup z (by simp), ?_⟩,
    h.name, hd.1, fun c hc => ?_, h.size_pos, h.size_le⟩
  · rw [← hwhole, hsplit]
    simp [List.intercalate]
  · simpa using hd.2 c hc

theorem token_ne {c k : Char} (h : token c = true) (hk : token k = false) : k ≠ c := fun he =>
  absurd (he ▸ h) (by rw [hk]; decide)

/-- A text of tokens between quotes. -/
theorem occurs_quote {k : Char} {q l s : List Char} (hk : token k = false) (hl : Tokens l)
    (hne : l ≠ []) : occurs ('"' :: k :: q) ('"' :: (l ++ s)) = occurs ('"' :: k :: q) s := by
  obtain ⟨c, t, rfl⟩ := List.exists_cons_of_ne_nil hne
  refine (occurs_second (token_ne (hl c List.mem_cons_self) hk)).trans ?_
  exact occurs_append (l := c :: t) rfl hl.no_quote

/-- A value in front of its closing quote. -/
theorem prefix_quote {l l' s : List Char} (hl : '"' ∉ l) (hl' : '"' ∉ l') :
    (l ++ ['"']).isPrefixOf (l' ++ '"' :: s) = true ↔ l' = l := by
  rw [List.isPrefixOf_iff_prefix]
  constructor
  · intro ⟨t, ht⟩
    rw [List.append_assoc] at ht
    exact (append_cons_inj hl hl' ht).1.symm
  · intro h
    exact ⟨s, by simp [h]⟩

/-- **What stands between the values of a manifest.** -/
structure Frame where
  head : List Char
  digest : List Char
  size : List Char
  sequence : List Char
  version : List Char
  tail : List Char

/-- The text, with its values. -/
def Frame.fill (F : Frame) (m : Manifest) : List Char :=
  F.head ++ (Nat.toDigits 10 m.applyAfterMs.val ++ (F.digest ++ (m.binary.sha256.toList ++
    (F.size ++ (Nat.toDigits 10 m.binary.size.val ++ (F.sequence ++
      (Nat.toDigits 10 m.sequence.val ++ (F.version ++ (m.version.toList ++ F.tail)))))))))

/-- The frame of a spelling. -/
def frame : Shape → Shape → Frame
  | .named, .named => {
      head := "\x7b\"apply_after_ms\":".toList
      digest := ",\"binary\":\x7b\"name\":\"sn46-validator-linux-x86_64\",\"sha256\":\"".toList
      size := "\",\"size\":".toList
      sequence := "\x7d,\"schema\":\"sn46.validator.release.v1\",\"sequence\":".toList
      version := ",\"version\":\"".toList
      tail := "\"\x7d\n".toList }
  | .ordered, .named => {
      head := "\x7b\"apply_after_ms\":".toList
      digest := ",\"binary\":[\"sn46-validator-linux-x86_64\",\"".toList
      size := "\",".toList
      sequence := "],\"schema\":\"sn46.validator.release.v1\",\"sequence\":".toList
      version := ",\"version\":\"".toList
      tail := "\"\x7d\n".toList }
  | .named, .ordered => {
      head := "[".toList
      digest := ",\x7b\"name\":\"sn46-validator-linux-x86_64\",\"sha256\":\"".toList
      size := "\",\"size\":".toList
      sequence := "\x7d,\"sn46.validator.release.v1\",".toList
      version := ",\"".toList
      tail := "\"]\n".toList }
  | .ordered, .ordered => {
      head := "[".toList
      digest := ",[\"sn46-validator-linux-x86_64\",\"".toList
      size := "\",".toList
      sequence := "],\"sn46.validator.release.v1\",".toList
      version := ",\"".toList
      tail := "\"]\n".toList }

/-- **A member stands in a frame** at the digest or at the version, if at all. -/
structure Frame.Shows (F : Frame) (p : List Char) (digest version : List Char → Bool) : Prop where
  at_head : ∀ s, occurs p (F.head ++ s) = occurs p s
  at_digest : ∀ s, occurs p (F.digest ++ s) = (digest s || occurs p ('"' :: s))
  at_size : ∀ s, occurs p (F.size ++ s) = occurs p s
  at_sequence : ∀ s, occurs p (F.sequence ++ s) = occurs p s
  at_version : ∀ s, occurs p (F.version ++ s) = (version s || occurs p ('"' :: s))
  at_tail : occurs p F.tail = false

section

variable {m : Manifest} {inner outer : Shape}

/-- **The text of a spelling.** -/
theorem print_spelled (hm : m.Release) :
    (m.spelled inner outer).print Json.escapeChar ++ ['\n'] = (frame inner outer).fill m := by
  have hq : ∀ s : String, Tokens s.toList →
      Json.printString Json.escapeChar s = '"' :: (s.toList ++ ['"']) := fun s h => by
    rw [Json.printString, h.flatMap]
  cases inner <;> cases outer
  all_goals
    simp only [Manifest.spelled, BinaryEntry.spelled, hm.name, hm.schema, Json.print,
      Json.printMembers, Json.printItems, hq _ hm.sha256_tokens.1, hq _ hm.version_tokens.1,
      Json.u64, Json.nat, List.cons_append, List.append_assoc]
    rfl

theorem Frame.Shows.fill {F : Frame} {k : Char} {q : List Char} {x y : List Char → Bool}
    (h : F.Shows ('"' :: k :: q) x y) (hk : token k = false) (hm : m.Release) :
    ∃ s, occurs ('"' :: k :: q) (F.fill m) =
      (x (m.binary.sha256.toList ++ (F.size ++ s)) || y (m.version.toList ++ F.tail)) := by
  have hskip : ∀ (n : Nat) s, occurs ('"' :: k :: q) (Nat.toDigits 10 n ++ s) =
      occurs ('"' :: k :: q) s := fun n s => occurs_append rfl (Tokens.toDigits n).no_quote
  rw [Frame.fill, h.at_head, hskip, h.at_digest, occurs_quote hk hm.sha256_tokens.1
    hm.sha256_tokens.2, h.at_size, hskip, h.at_sequence, hskip, h.at_version,
    occurs_quote hk hm.version_tokens.1 hm.version_tokens.2, h.at_tail, Bool.or_false]
  exact ⟨_, rfl⟩

theorem frame_version (V : List Char) : (frame inner outer).Shows (member "version".toList V)
    (fun _ => false) (fun s => (decide (outer = .named) && (V ++ ['"']).isPrefixOf s)) := by
  cases inner <;> cases outer <;>
    exact ⟨fun _ => rfl, fun _ => rfl, fun _ => rfl, fun _ => rfl, fun _ => rfl, rfl⟩

theorem frame_digest (D : List Char) : (frame inner outer).Shows (member "sha256".toList D)
    (fun s => (decide (inner = .named) && (D ++ ['"']).isPrefixOf s)) (fun _ => false) := by
  cases inner <;> cases outer <;>
    exact ⟨fun _ => rfl, fun _ => rfl, fun _ => rfl, fun _ => rfl, fun _ => rfl, rfl⟩

/-- **`grep` finds the version** of an object. -/
theorem occurs_version (hm : m.Release) {V : List Char} (hV : Tokens V) :
    occurs (member "version".toList V) ((m.spelled inner outer).print Json.escapeChar ++ ['\n']) =
      true ↔ outer = .named ∧ m.version.toList = V := by
  obtain ⟨s, hs⟩ := (frame_version V).fill (by decide) hm
  rw [print_spelled hm]
  refine (congrArg (· = true) hs).to_iff.trans ?_
  rw [Bool.false_or, Bool.and_eq_true, decide_eq_true_eq]
  refine and_congr_right fun houter => ?_
  subst houter
  cases inner <;> exact prefix_quote hV.no_quote hm.version_tokens.1.no_quote

/-- **`grep` finds the digest** of an entry that is an object. -/
theorem occurs_digest (hm : m.Release) {D : List Char} (hD : Tokens D) :
    occurs (member "sha256".toList D) ((m.spelled inner outer).print Json.escapeChar ++ ['\n']) =
      true ↔ inner = .named ∧ m.binary.sha256.toList = D := by
  obtain ⟨s, hs⟩ := (frame_digest D).fill (by decide) hm
  rw [print_spelled hm]
  refine (congrArg (· = true) hs).to_iff.trans ?_
  rw [Bool.or_false, Bool.and_eq_true, decide_eq_true_eq]
  refine and_congr_right fun hinner => ?_
  subst hinner
  cases outer <;> exact prefix_quote hD.no_quote hm.sha256_tokens.1.no_quote

end

/-! ## 3. What is recorded -/

/-- A manifest that the updater accepts under some key, and its text. -/
def Accepted (text : List Char) (m : Manifest) : Prop :=
  ∃ (crypto : Crypto) (key : crypto.Key) (sig : Bytes),
    verifyManifest crypto (Json.encodeUtf8 text) sig key = .ok m

theorem Accepted.spelled {text : List Char} {m : Manifest} (h : Accepted text m) :
    m.Release ∧ ∃ inner outer, text = (m.spelled inner outer).print Json.escapeChar ++ ['\n'] := by
  obtain ⟨crypto, key, sig, h⟩ := h
  obtain ⟨inner, outer, he⟩ := verifyManifest_spelled h
  refine ⟨(verifyManifest_formed h).release, inner, outer, Option.some.inj ?_⟩
  rw [← Json.decodeUtf8_encodeUtf8, he, Manifest.spelledBytes, Json.decodeUtf8_encodeUtf8]

/-- **The manifest is of the binary**: an object with its version and its digest. -/
structure Vouches (f : Fetched) (text : List Char) (m : Manifest) : Prop where
  named : Named (Json.encodeUtf8 text)
  version : m.version = f.number
  digest : m.binary.sha256.toList = f.digest

/-- **What the script has checked** of a binary. -/
structure Checked (s : Site) (f : Fetched) : Prop where
  shape : tagShape f.version = true
  digest : sha256Shape (String.ofList f.digest) = true
  asset : (s.page f.version).asset = some f.binary
  manifest : (s.page f.version).manifest = f.manifest
  reported : (s.page f.version).reported = some (banner f.number)
  sums : ∃ sums, (s.page f.version).sums = some sums ∧
    readTwo sums = some (f.digest, binaryName.toList)
  check : (s.page f.version).check = true

theorem fetchRelease_inv {s : Site} {args : List String} {f : Fetched}
    (h : fetchRelease s args = .ok f) : Checked s f := by
  unfold fetchRelease at h
  simp only [bind, Except.bind, throw, throwThe, MonadExceptOf.throw, pure, Except.pure] at h
  repeat' split at h
  all_goals cases h
  rename_i htag _ _ hb _ _ hsums _ _ _ hread hsum hcheck _ _ hrep hv
  obtain ⟨hshape, rfl⟩ := not_not.mp hsum
  obtain rfl := not_not.mp hv
  exact ⟨not_not.mp htag, hshape, hb, rfl, hrep, ⟨_, hsums, hread⟩, not_not.mp hcheck⟩

section

variable {s : Site} {f : Fetched}

theorem Checked.number_tokens (h : Checked s f) : Tokens (tagVersion f.version) :=
  (tagVersion_tokens h.shape).1

theorem Checked.digest_tokens (h : Checked s f) : Tokens f.digest := by
  have hd := h.digest
  rw [sha256Shape, String.toList_ofList, Bool.and_eq_true, List.all_eq_true] at hd
  intro c hc
  have hc' := hd.2 c hc
  simp only [Bool.or_eq_true, Bool.and_eq_true, decide_eq_true_eq] at hc'
  rw [token, Bool.or_eq_true, Bool.or_eq_true, Bool.and_eq_true, decide_eq_true_eq,
    decide_eq_true_eq, decide_eq_true_eq]
  refine hc'.imp (fun hdigit => .inl ?_) id
  rw [Char.isDigit, Bool.and_eq_true, decide_eq_true_eq, decide_eq_true_eq]
  exact hdigit

/-- **`grep` finds the binary** in a manifest of it, and in no other. -/
theorem Checked.vouches (h : Checked s f) {text : List Char} {m : Manifest} (hs : Accepted text m) :
    (occurs f.versionMember text = true ∧ occurs f.digestMember text = true) ↔
      Vouches f text m := by
  obtain ⟨hm, inner, outer, rfl⟩ := hs.spelled
  rw [Fetched.versionMember, Fetched.digestMember, occurs_version hm h.number_tokens,
    occurs_digest hm h.digest_tokens]
  have hnumber : m.version.toList = tagVersion f.version ↔ m.version = f.number := by
    rw [Fetched.number]
    exact ⟨fun he => by rw [← he, String.ofList_toList], fun he => by rw [he, String.toList_ofList]⟩
  rw [hnumber]
  constructor
  · intro ⟨⟨houter, hv⟩, hinner, hd⟩
    exact ⟨(named_spelled m inner outer).mpr ⟨hinner, houter⟩, hv, hd⟩
  · intro ⟨hn, hv, hd⟩
    obtain ⟨hinner, houter⟩ := (named_spelled m inner outer).mp hn
    exact ⟨⟨houter, hv⟩, hinner, hd⟩

/-- **The sequence of a manifest of the binary is recorded**, and of any other 0. -/
theorem Checked.sequence (h : Checked s f) {text : List Char} {m : Manifest}
    (hf : f.manifest = some text) (hs : Accepted text m) :
    (Vouches f text m → releaseSequence f = .ok (Nat.toDigits 10 m.sequence.val)) ∧
      (¬Vouches f text m → releaseSequence f = .ok ['0']) := by
  have hg := h.vouches hs
  constructor
  · intro hv
    obtain ⟨hfound, hfound'⟩ := hg.mpr hv
    obtain ⟨hm, inner, outer, htext⟩ := hs.spelled
    have hne : text ≠ [] := by
      rw [htext]
      simp
    have hn := hv.named
    rw [htext] at hn
    obtain ⟨rfl, rfl⟩ := (named_spelled m inner outer).mp hn
    have hnumbers : numbersAfter sequenceKey text = [Nat.toDigits 10 m.sequence.val] := by
      rw [htext, manifestText_eq hm.name hm.schema hm.sha256_tokens.1 hm.version_tokens.1]
      exact numbersAfter_manifest (.toDigits m.applyAfterMs.val) hm.sha256_tokens.1
        hm.sha256_tokens.2 (.toDigits m.binary.size.val)
        (fun c hc => isDigit_of_toDigits (n := m.sequence.val) hc) hm.version_tokens.1
        hm.version_tokens.2
    have hdigits : digits (Nat.toDigits 10 m.sequence.val) = true :=
      digits_iff.mpr ⟨Nat.toDigits_ne_nil, fun c hc => isDigit_of_toDigits hc⟩
    have hline : '\n' ∉ Nat.toDigits 10 m.sequence.val := fun hmem =>
      absurd (isDigit_of_toDigits hmem) (by decide)
    have hall : (decide (text ≠ []) && occurs f.versionMember text && occurs f.digestMember text) =
        true := by
      rw [decide_eq_true hne, hfound, hfound']
      rfl
    rw [releaseSequence, hf]
    dsimp only
    rw [if_pos hall, hnumbers, if_neg (List.cons_ne_nil _ _), captured_singleton hline,
      if_pos hdigits]
  · intro hv
    have hno : ¬(occurs f.versionMember text = true ∧ occurs f.digestMember text = true) :=
      fun hb => hv (hg.mp hb)
    rw [releaseSequence, hf]
    dsimp only
    rw [if_neg]
    rw [Bool.and_assoc, Bool.and_eq_true, Bool.and_eq_true]
    exact fun hb => hno hb.2

/-- **The record is one the updater reads.** -/
theorem Checked.record (h : Checked s f) {n : U64}
    (hn : releaseSequence f = .ok (Nat.toDigits 10 n.val)) :
    ∃ text, releaseState f = .ok text ∧
      Json.encodeUtf8 text = Installed.codec.encode ⟨f.number, n⟩ := by
  refine ⟨_, by rw [releaseState, hn]; rfl, congrArg Json.encodeUtf8 ?_⟩
  have hq : Json.printString Json.escapeChar f.number = '"' :: (tagVersion f.version ++ ['"']) := by
    rw [Json.printString, Fetched.number, String.toList_ofList, h.number_tokens.flatMap]
  simp only [Installed.codec, Installed.toValue_eq, Json.print, Json.printMembers, hq, Json.u64,
    Json.nat, List.cons_append, List.append_assoc]
  rfl

end

/-! ## 4. The host after the script -/

section

variable {s : Site} {args : List String} {f : Fetched} {w w' : Host}

/-- **What a run of the script leaves that finishes.** -/
theorem installer_inv (hf : fetchRelease s args = .ok f)
    (h : installer s args w = (.ok (), w')) :
    if f.withService then ∃ text, releaseState f = .ok text ∧
      w' = { (w.place f.binary).record text with restarted := true }
    else w' = w.place f.binary := by
  have hstage : ∀ f', stageRelease s args = .ok f' → f' = f := by
    intro f' h'
    simp only [stageRelease, hf, bind, Except.bind, pure, Except.pure] at h'
    repeat' split at h'
    all_goals cases h'
    all_goals rfl
  unfold installer at h
  split at h
  · cases h
  · rename_i f' hf'
    obtain rfl := hstage f' hf'
    split_ifs at h ⊢ with hs
    · unfold startService at h
      cases hu : s.units.bind fun _ => releaseState f' with
      | error e =>
        rw [hu] at h
        cases h
      | ok text =>
        rw [hu] at h
        have htext : releaseState f' = .ok text := by
          cases hunits : s.units with
          | error e =>
            rw [hunits] at hu
            cases hu
          | ok u =>
            rw [hunits] at hu
            exact hu
        refine ⟨text, htext, ?_⟩
        dsimp only at h
        split at h
        · cases h
        · exact (Prod.mk.inj h).2.symm
    · exact (Prod.mk.inj h).2.symm

/-- The binary is in its place, and no other file changed but the record. -/
theorem installer_files (hf : fetchRelease s args = .ok f) (hs : f.withService = true)
    (h : installer s args w = (.ok (), w')) :
    w'.files .install = some f.binary ∧ w'.restarted = true ∧
      ∀ p, p ≠ .install → p ≠ .state .release → w'.files p = w.files p := by
  have hi := installer_inv hf h
  rw [if_pos hs] at hi
  obtain ⟨text, -, rfl⟩ := hi
  refine ⟨?_, rfl, fun p hp hp' => ?_⟩
  · simp [Host.place, Host.record]
  · simp [Host.place, Host.record, hp, hp']

/-- **The record of the installed binary.** -/
theorem Checked.view_release (hc : Checked s f) (hf : fetchRelease s args = .ok f)
    (hs : f.withService = true) (h : installer s args w = (.ok (), w')) {n : U64}
    (hn : releaseSequence f = .ok (Nat.toDigits 10 n.val)) :
    (view w').release = .holds ⟨f.number, n⟩ := by
  have hi := installer_inv hf h
  rw [if_pos hs] at hi
  obtain ⟨text, htext, rfl⟩ := hi
  obtain ⟨text', htext', hcodec⟩ := hc.record hn
  obtain rfl : text = text' := Except.ok.inj (htext.symm.trans htext')
  simp [view, Host.record, hcodec]

/-- **What the installer leaves to the updater.** A script that finishes with the service has put
    its checked binary in place and touched no other file of the updater but the record. Beside a
    manifest that the updater accepts, the record names the version with the manifest's sequence when
    the manifest is an object with this version and this digest, and with 0 when it is not; without
    a manifest, with 0. -/
theorem install_recorded (hf : fetchRelease s args = .ok f) (hs : f.withService = true)
    (h : installer s args w = (.ok (), w')) :
    w'.files .install = some f.binary ∧ w'.restarted = true ∧
      (∀ p, p ≠ .install → p ≠ .state .release → w'.files p = w.files p) ∧
      (f.manifest = none → (view w').release = .holds ⟨f.number, 0⟩) ∧
      ∀ text m, f.manifest = some text → Accepted text m →
        (Vouches f text m → (view w').release = .holds ⟨f.number, m.sequence⟩) ∧
        (¬Vouches f text m → (view w').release = .holds ⟨f.number, 0⟩) := by
  have hc := fetchRelease_inv hf
  obtain ⟨hinst, hrestarted, hrest⟩ := installer_files hf hs h
  refine ⟨hinst, hrestarted, hrest, fun hnone => ?_, fun text m hm hsigned =>
    ⟨fun hv => ?_, fun hv => ?_⟩⟩
  · exact hc.view_release hf hs h (n := 0) (by rw [releaseSequence, hnone]; rfl)
  · exact hc.view_release hf hs h ((hc.sequence hm hsigned).1 hv)
  · exact hc.view_release hf hs h (n := 0) ((hc.sequence hm hsigned).2 hv)

end

/-- The text of the release of the tests. -/
def manifest4 : List Char :=
  manifestText ['0'] (hexEncode (bigEndian 32 digest4)) ['4', '8'] ['2'] "0.1.4".toList

/-- The binary of the tests, published with its manifest. -/
def fetched4 : Fetched where
  version := "v0.1.4"
  digest := hexEncode (bigEndian 32 digest4)
  binary := fakeBinary "0.1.4"
  manifest := some manifest4
  withService := true

/-- A machine on which everything works. -/
def testSite : Site where
  system := ("Linux", "x86_64")
  latest := some "https://github.com/Subnet46/sn46-validator/releases/tag/v0.1.4".toList
  page _ := {
    asset := some fetched4.binary
    sums := some (fetched4.digest ++ "  sn46-validator-linux-x86_64\n".toList)
    check := true
    manifest := fetched4.manifest
    reported := some "sn46-validator 0.1.4" }
  prepared := .ok ()
  staged := .ok ()
  units := .ok ()
  restarted := .ok ()
  active := .ok ()

theorem testSite_fetches : fetchRelease testSite [] = .ok fetched4 := by decide +kernel

/-- The host after the script. -/
def testInstalled : Host := (installer testSite [] testHost).2

theorem testSite_installs : installer testSite [] testHost = (.ok (), testInstalled) := by
  have hok : (installer testSite [] testHost).1 = .ok () := by decide +kernel
  rw [testInstalled, ← hok]

theorem manifest4_signed : verifyManifest testCrypto (Json.encodeUtf8 manifest4)
    (Json.encodeUtf8 (hexEncode (signature release4))) testKey = .ok release4 := by
  decide +kernel

theorem manifest4_vouches : Vouches fetched4 manifest4 release4 where
  named := by
    have hspelled : Json.encodeUtf8 manifest4 = release4.spelledBytes .named .named := by
      decide +kernel
    rw [hspelled]
    exact (named_spelled _ _ _).mpr ⟨rfl, rfl⟩
  version := by decide +kernel
  digest := by decide +kernel

theorem install_recorded_test : (view testInstalled).release = .holds ⟨"0.1.4", 2⟩ :=
  ((install_recorded testSite_fetches rfl testSite_installs).2.2.2.2 manifest4 release4 rfl
    ⟨_, _, _, manifest4_signed⟩).1 manifest4_vouches

/-! ## 5. The updater after the script -/

/-- The record of a running release for which `m` is offered: the higher sequence. -/
def Installed.raised (r : Installed) (m : Manifest) : Installed :=
  if m.sequence ≤ r.sequence then r else { r with sequence := m.sequence }

theorem Installed.raised_raised (r : Installed) (m : Manifest) :
    (r.raised m).raised m = r.raised m := by
  have hle : m.sequence ≤ (r.raised m).sequence := by
    unfold Installed.raised
    split_ifs with h
    · exact h
    · exact Fin.le_refl _
  exact if_pos hle

theorem Installed.raised_version (r : Installed) (m : Manifest) :
    (r.raised m).version = r.version := by
  unfold Installed.raised
  split_ifs <;> rfl

section

variable {crypto : Crypto} {reports : Bytes → Option String} {m : Manifest} {w w' w'' : Host}
  {r : Installed}

/-- **An offered release that runs already.** -/
theorem works_running {c : Call crypto} {d : Durable} (ho : offered c = .ok (some m))
    (hp : d.pending = .absent) (hr : d.release = .holds r)
    (hv : m.version = c.config.runningVersion) (hvr : r.version = m.version) :
    Refines (working reports) (locked c).run
      (fun _ d' => d' = { d with release := .holds (r.raised m) }) d := by
  have hconsider : Refines (working reports) (consider c m r).run
      (fun _ d' => d' = { d with release := .holds (r.raised m) }) d := by
    unfold consider Installed.raised
    split_ifs with hle
    · refine refines_pureE ?_
      rw [← hr]
    · refine refines_bindE (works_writeJson ?_)
      rw [rest_ok]
      refine refines_pureE ?_
      simp [Durable.put, ← hvr]
  have hoffer : Refines (working reports) (offer c).run
      (fun _ d' => d' = { d with release := .holds (r.raised m) }) d := by
    refine refines_bindE (works_readJson (·.release) (fun _ => rfl) ?_ ?_ ?_)
    · intro ha
      rw [hr] at ha
      cases ha
    · intro r' hr'
      obtain rfl := Stored.holds.inj (hr.symm.trans hr')
      rw [rest_ok]
      refine refines_bindE (works_orThrow ?_)
      rw [ho]
      exact hconsider
    · intro e he
      rw [hr] at he
      cases he
  refine refines_bindE (refines_bindE (works_readJson (·.pending) (fun _ => rfl) ?_ ?_ ?_))
  · intro _
    exact refines_pureE hoffer
  · intro p hp'
    rw [hp] at hp'
    cases hp'
  · intro e he
    rw [hp] at he
    cases he

/-- **A visit while the running release is offered** raises the recorded sequence, and nothing
    else. -/
theorem Visit.running (h : Visit crypto reports m w w') (hp : w.files (.state .pending) = none)
    (hrun : Runs reports (w.files .install) m.version) (hr : (view w).release = .holds r)
    (hvr : r.version = m.version) :
    view w' = { view w with release := .holds (r.raised m) } := by
  obtain ⟨c, tr, x, he, ho, hv, hx⟩ := h
  obtain ⟨tr₁, tr₂, rfl, hlock⟩ := run_locked he hx
  have hw : Refines (working reports) (locked c).run
      (fun _ d' => d' = { view w with release := .holds (r.raised m) }) (view w) :=
    works_running ho (Stored.of_eq_absent.mpr hp) hr (Runs.unique hrun hv) hvr
  exact hlock.result (hw.ensures w rfl)

/-- So does a visit after another one. -/
theorem Visit.raised {w₁ : Host} (h : Visit crypto reports m w₁ w')
    (hp : w₁.files (.state .pending) = none) (hrun : Runs reports (w.files .install) m.version)
    (hr : (view w).release = .holds r) (hvr : r.version = m.version)
    (he : view w₁ = view w ∨ view w₁ = { view w with release := .holds (r.raised m) }) :
    view w' = { view w with release := .holds (r.raised m) } := by
  rcases he with he | he
  · have hinst : w₁.files .install = w.files .install := congrArg Durable.install he
    rw [h.running hp (hinst ▸ hrun) (he ▸ hr) hvr, he]
  · have hinst : w₁.files .install = w.files .install := congrArg Durable.install he
    have hr₁ : (view w₁).release = .holds (r.raised m) := by rw [he]
    rw [h.running hp (hinst ▸ hrun) hr₁ ((r.raised_version m).trans hvr),
      Installed.raised_raised, he]

/-- **So do any number of visits.** -/
theorem Visits.running (h : Visits crypto reports m w w') (hp : w.files (.state .pending) = none)
    (hrun : Runs reports (w.files .install) m.version) (hr : (view w).release = .holds r)
    (hvr : r.version = m.version) :
    view w' = view w ∨ view w' = { view w with release := .holds (r.raised m) } := by
  induction h with
  | refl => exact .inl rfl
  | tail h hx ih => exact .inr (hx.raised (Visits.pending h hp) hrun hr hvr ih)

variable {s : Site} {args : List String} {f : Fetched}

theorem Checked.runs (h : Checked s f) (hrep : (s.page f.version).reported = reports f.binary) :
    Runs reports (some f.binary) f.number :=
  ⟨f.binary, rfl, hrep.symm.trans h.reported⟩

/-- Some sequence is recorded beside a manifest that the updater accepts. -/
theorem Checked.recorded (h : Checked s f)
    (hm : ∀ text, f.manifest = some text → ∃ m, Accepted text m) :
    ∃ n : U64, releaseSequence f = .ok (Nat.toDigits 10 n.val) := by
  cases hf : f.manifest with
  | none => exact ⟨0, by rw [releaseSequence, hf]; rfl⟩
  | some text =>
    obtain ⟨m, hs⟩ := hm text hf
    by_cases hv : Vouches f text m
    · exact ⟨m.sequence, (h.sequence hf hs).1 hv⟩
    · exact ⟨0, (h.sequence hf hs).2 hv⟩

/-- **An installed release is not installed again.** Nothing was pending before the install, and the
    manifest that lay beside the binary, if any, is one that the updater accepts: while one manifest of
    the installed version is offered, the visits of the updater raise the recorded sequence to the
    offered one, where that is higher, and change nothing else in the view (which is without
    `update-status.json`). A visit is a finished run of the installed binary in which nothing fails but
    the staged one. -/
theorem installed_stays (hf : fetchRelease s args = .ok f) (hs : f.withService = true)
    (hi : installer s args w = (.ok (), w')) (hp : w.files (.state .pending) = none)
    (hrep : (s.page f.version).reported = reports f.binary)
    (hman : ∀ text, f.manifest = some text → ∃ m', Accepted text m') (hv : m.version = f.number)
    {w₁ : Host} (h : Visits crypto reports m w' w₁) (hx : Visit crypto reports m w₁ w'') :
    w''.files .install = some f.binary ∧ w''.restarted = true ∧
      ∃ n, (view w').release = .holds ⟨f.number, n⟩ ∧
        view w'' = { view w' with release := .holds (Installed.raised ⟨f.number, n⟩ m) } := by
  have hc := fetchRelease_inv hf
  obtain ⟨hinst, hrestarted, hrest⟩ := installer_files hf hs hi
  obtain ⟨n, hn⟩ := hc.recorded hman
  have hr : (view w').release = .holds ⟨f.number, n⟩ := hc.view_release hf hs hi hn
  have hp' : w'.files (.state .pending) = none := (hrest _ (by simp) (by simp)).trans hp
  have hrun : Runs reports (w'.files .install) m.version := by
    rw [hinst, hv]
    exact hc.runs hrep
  have hend : view w'' = { view w' with release := .holds (Installed.raised ⟨f.number, n⟩ m) } :=
    hx.raised (Visits.pending h hp') hrun hr hv.symm (Visits.running h hp' hrun hr hv.symm)
  exact ⟨(congrArg Durable.install hend).trans hinst,
    (congrArg Durable.restarted hend).trans hrestarted, n, hr, hend⟩

end

theorem fetched4_reports :
    (testSite.page fetched4.version).reported = testReports fetched4.binary := by
  decide +kernel

theorem testInstalled_runs : Runs testReports (testInstalled.files .install) "0.1.4" := by
  rw [(installer_files testSite_fetches rfl testSite_installs).1]
  exact ⟨_, rfl, fetched4_reports⟩

theorem installed_stays_test : ∃ w'', Visit testCrypto testReports release4 testInstalled w'' ∧
    w''.files .install = some (fakeBinary "0.1.4") := by
  obtain ⟨w'', hv, -⟩ := visit_test testInstalled_runs
  refine ⟨w'', hv, ?_⟩
  have hman : ∀ text, fetched4.manifest = some text → ∃ m, Accepted text m := fun text he =>
    ⟨release4, Option.some.inj he ▸ ⟨_, _, _, manifest4_signed⟩⟩
  exact (installed_stays testSite_fetches rfl testSite_installs rfl fetched4_reports hman
    manifest4_vouches.version .refl hv).1

section

variable {crypto : Crypto} {reports : Bytes → Option String} {m : Manifest} {w w' : Host} {s : Site}
  {args : List String} {f : Fetched}

/-- **What the script signs vouches for the binary**, where the updater accepts it. -/
theorem signRelease_vouches {shop : Workshop} {tag : String} {rest : List String} {text : List Char}
    (hsign : signRelease crypto shop (tag :: rest) = .ok (Json.encodeUtf8 text)) (hc : Checked s f)
    (htag : f.version = tag) (hshop : shop.download = some f.binary)
    (hsum : f.digest = hexEncode (crypto.sha256 f.binary)) (hs : Accepted text m) :
    Vouches f text m := by
  obtain ⟨-, o, b, published, ho, hb, -, -, he⟩ := signRelease_inv hsign
  obtain rfl : f.binary = b := Option.some.inj (hshop.symm.trans hb)
  obtain rfl := htag
  have htext : text = manifestText o.applyAfterMs f.digest (Nat.toDigits 10 f.binary.length)
      (nextSequence o.sequence published) (tagVersion f.version) := by
    refine Option.some.inj ?_
    rw [← Json.decodeUtf8_encodeUtf8, he, Json.decodeUtf8_encodeUtf8, hsum]
  have hpre : ∀ l t : List Char, (l ++ ['"']).isPrefixOf (l ++ '"' :: t) = true := fun l t =>
    List.isPrefixOf_iff_prefix.mpr ⟨t, by simp⟩
  have hversion : occurs f.versionMember ((frame .named .named).version ++
      (tagVersion f.version ++ '"' :: ['\x7d', '\n'])) = true := by
    refine ((@frame_version .named .named _).at_version _).trans ?_
    rw [hpre]
    rfl
  have hdigest : ∀ t, occurs f.digestMember ((frame .named .named).digest ++
      (f.digest ++ '"' :: t)) = true := fun t => by
    refine ((@frame_digest .named .named _).at_digest _).trans ?_
    rw [hpre]
    rfl
  refine (hc.vouches hs).mp ⟨?_, ?_⟩
  · rw [htext]
    unfold manifestText
    iterate 8 refine occurs_mono _ ?_
    exact hversion
  · rw [htext]
    unfold manifestText
    iterate 2 refine occurs_mono _ ?_
    exact hdigest _

end

end Sn46Validator.Update
