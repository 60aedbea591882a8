/-
  File:      Update/Signing.lean
  Subject:   THE SIGNING SCRIPT and the updater that reads what it signs.

  * `Workshop` -- what `scripts/sign-release.sh` finds around it; its programs are not modelled;
  * `signRelease` -- **the script**, up to the bytes of `manifest.json` that are signed;
  * `signRelease_inv` -- what it has checked by then;
  * `Workshop.asked`, `Agrees` -- what its arguments ask for, and a manifest that says the same;
  * `Readable` -- **the arguments on which the two agree**;
  * `signRelease_agrees` -- they do on these, and on no others.
-/
import Sn46Validator.Library.Shell
import Sn46Validator.Update.Spelling

namespace Sn46Validator.Update

open Library Shell

/-! ## 1. The script -/

/-- **What the script finds**: the clock, to the millisecond; what `date` makes of a text; the key,
    the signer and two programs; the binary that is downloaded, whether `SHA256SUMS` is of it, and
    what it reports on a machine that runs it; and the published manifest, by its HTTP status. -/
structure Workshop where
  seconds : Int
  millis : Fin 1000
  date : String → Option Int
  secretKeyPath : String
  secretKey : Bool
  signerPath : String
  signer : Bool
  gh : Bool
  bwrap : Bool
  download : Option Bytes
  sums : Bool
  reported : Option (Option String)
  published : Option (Nat × List Char)

def usage : String :=
  "Usage: scripts/sign-release.sh vX.Y.Z [--apply-after RFC3339|epoch-ms] [--sequence N]"

/-- `^v[0-9]+\.[0-9]+\.[0-9]+$` -/
def tagShape (tag : String) : Bool :=
  match tag.toList with
  | 'v' :: version =>
    let parts := version.splitOn '.'
    parts.length = 3 && parts.all digits
  | _ => false

/-- `${tag#v}` of a tag. -/
def tagVersion (tag : String) : List Char := tag.toList.drop 1

/-- `date -u +%s%3N` -/
def Workshop.now (w : Workshop) : List Char :=
  text w.seconds ++ [Nat.digitChar (w.millis / 100), Nat.digitChar (w.millis / 10 % 10),
    Nat.digitChar (w.millis % 10)]

/-- What `--apply-after` makes of its argument: milliseconds, or a date. -/
def Workshop.applyAfter (w : Workshop) (value : String) : Option (List Char) :=
  if digits value.toList then some value.toList
  else (w.date value).map fun seconds => text (wrap (seconds * 1000))

/-- The options; no sequence is the empty text. -/
structure Options where
  applyAfterMs : List Char
  sequence : List Char

/-- **The options behind the tag.** -/
def options (w : Workshop) : List String → Options → Except String Options
  | [], o => .ok o
  | name :: value :: rest, o =>
    if name = "--apply-after" then
      match w.applyAfter value with
      | some ms => options w rest { o with applyAfterMs := ms }
      | none => .error ("cannot parse --apply-after " ++ value)
    else if name = "--sequence" then
      if digits value.toList then options w rest { o with sequence := value.toList }
      else .error usage
    else .error usage
  | [_], _ => .error usage

/-- What stands in front of the sequence. -/
def sequenceKey : List Char := "\"sequence\":".toList

/-- The published sequence. A manifest in which `grep` finds none ends the script. -/
def publishedSequence (w : Workshop) : Except String (List Char) :=
  match w.published with
  | none => .error "cannot fetch the published manifest"
  | some (status, body) =>
    if status = 200 then
      let found := numbersAfter sequenceKey body
      if found = [] then .error ""
      else if digits (captured found) then .ok (captured found)
      else .error "the published manifest has no sequence"
    else if status = 404 then .ok ['0']
    else .error ("fetching the published manifest returned HTTP " ++ toString status)

/-- `${sequence:-$((published + 1))}`; a number that arithmetic cannot read leaves it empty. -/
def nextSequence (sequence published : List Char) : List Char :=
  if sequence = [] then (number published).elim [] fun p => text (wrap (p + 1)) else sequence

/-- `((sequence > published))` -/
def above (sequence published : List Char) : Bool :=
  match number sequence, number published with
  | some s, some p => p < s
  | _, _ => false

/-- The text of `manifest.json`. -/
def manifestText (applyAfterMs sha256 size sequence version : List Char) : List Char :=
  "\x7b\"apply_after_ms\":".toList ++ (applyAfterMs ++
    (",\"binary\":\x7b\"name\":\"sn46-validator-linux-x86_64\",\"sha256\":\"".toList ++ (sha256 ++
      ("\",\"size\":".toList ++ (size ++
        ("\x7d,\"schema\":\"sn46.validator.release.v1\",\"sequence\":".toList ++ (sequence ++
          (",\"version\":\"".toList ++ (version ++ "\"\x7d\n".toList)))))))))

/-- **The script**: the bytes of `manifest.json`, or what it dies with. -/
def signRelease (crypto : Crypto) (w : Workshop) : List String → Except String Bytes
  | [] => .error usage
  | tag :: rest => do
    if ¬tagShape tag then throw ("expected a tag such as v0.1.4, got " ++ tag)
    let version := tagVersion tag
    let o ← options w rest ⟨w.now, []⟩
    if ¬w.secretKey then throw ("missing " ++ w.secretKeyPath)
    if ¬w.signer then
      throw ("missing " ++ w.signerPath ++
        " (build sn46-release-sign from sn46-workers or set SN46_RELEASE_SIGN)")
    if ¬w.gh then throw "gh is required"
    if ¬w.bwrap then throw "bwrap (bubblewrap) is required to run the unsigned binary"
    let some binary := w.download | throw ""
    if ¬w.sums then throw "SHA256SUMS does not match the binary"
    match w.reported with
    | none => pure ()
    | some none => throw "the binary does not run"
    | some (some reported) =>
      if reported ≠ "sn46-validator " ++ String.ofList version then
        throw ("binary reports '" ++ reported ++ "', expected sn46-validator " ++
          String.ofList version)
    let sha256 := hexEncode (crypto.sha256 binary)
    let size := Nat.toDigits 10 binary.length
    let published ← publishedSequence w
    let sequence := nextSequence o.sequence published
    if ¬above sequence published then
      throw ("sequence " ++ String.ofList sequence ++ " is not above the published sequence " ++
        String.ofList published)
    return Json.encodeUtf8 (manifestText o.applyAfterMs sha256 size sequence version)

/-- **What the script has checked** when it signs. -/
theorem signRelease_inv {crypto : Crypto} {w : Workshop} {tag : String} {rest : List String}
    {raw : Bytes} (h : signRelease crypto w (tag :: rest) = .ok raw) :
    tagShape tag = true ∧ ∃ o binary published, options w rest ⟨w.now, []⟩ = .ok o ∧
      w.download = some binary ∧ publishedSequence w = .ok published ∧
      above (nextSequence o.sequence published) published = true ∧
      raw = Json.encodeUtf8 (manifestText o.applyAfterMs (hexEncode (crypto.sha256 binary))
        (Nat.toDigits 10 binary.length) (nextSequence o.sequence published) (tagVersion tag)) := by
  unfold signRelease at h
  simp only [bind, Except.bind, throw, throwThe, MonadExceptOf.throw, pure, Except.pure] at h
  repeat' split at h
  all_goals cases h
  · rename_i htag _ o ho _ _ _ _ _ binary hb _ _ _ _ published hp ha
    exact ⟨not_not.mp htag, o, binary, published, ho, hb, hp, not_not.mp ha, rfl⟩
  · rename_i htag _ o ho _ _ _ _ _ binary hb _ _ _ _ _ _ published hp ha
    exact ⟨not_not.mp htag, o, binary, published, ho, hb, hp, not_not.mp ha, rfl⟩

/-! ## 2. The arguments -/

/-- The last value that is given for an option. -/
def given (name : String) : List String → Option String
  | key :: value :: rest => (given name rest).or (if key = name then some value else none)
  | _ => none

theorem given_same (name value : String) (rest : List String) :
    given name (name :: value :: rest) = (given name rest).or (some value) := by
  rw [given, if_pos rfl]

theorem given_other {name key : String} (h : key ≠ name) (value : String) (rest : List String) :
    given name (key :: value :: rest) = given name rest := by
  rw [given, if_neg h, Option.or_none]

/-- The options are the last of each kind, or what they were. -/
theorem options_given {w : Workshop} {rest : List String} {o o' : Options}
    (h : options w rest o = .ok o') :
    (given "--apply-after" rest).elim (some o.applyAfterMs) w.applyAfter = some o'.applyAfterMs ∧
    (given "--sequence" rest).elim o.sequence String.toList = o'.sequence ∧
    ∀ v, given "--sequence" rest = some v → digits v.toList = true := by
  fun_induction options w rest o with
  | case1 o =>
    cases h
    exact ⟨rfl, rfl, nofun⟩
  | case2 value rest o ms hms ih =>
    obtain ⟨hafter, hsequence, hdigits⟩ := ih h
    have hne : "--apply-after" ≠ "--sequence" := by decide
    rw [given_same, given_other hne]
    refine ⟨?_, hsequence, hdigits⟩
    cases hg : given "--apply-after" rest with
    | none =>
      rw [hg] at hafter
      exact hms.trans hafter
    | some v =>
      rw [hg] at hafter
      exact hafter
  | case4 value rest o hd hne ih =>
    obtain ⟨hafter, hsequence, hdigits⟩ := ih h
    rw [given_same, given_other hne]
    cases hg : given "--sequence" rest with
    | none =>
      rw [hg] at hsequence
      refine ⟨hafter, hsequence, fun v hv => ?_⟩
      cases hv
      exact hd
    | some v =>
      rw [hg] at hsequence
      exact ⟨hafter, hsequence, fun v' hv' => hdigits v' (hg.trans hv')⟩
  | _ => cases h

/-! ## 3. The text of a manifest -/

/-- A character of a version or of a digest. -/
def token (c : Char) : Bool := c.isDigit || c = '.' || 'a' ≤ c && c ≤ 'f'

/-- A text of such characters. -/
def Tokens (l : List Char) : Prop := ∀ c ∈ l, token c = true

theorem token_lt {c : Char} (h : token c = true) : c.toNat < 128 := by
  rw [token, Bool.or_eq_true, Bool.or_eq_true, decide_eq_true_eq, Bool.and_eq_true,
    decide_eq_true_eq, decide_eq_true_eq] at h
  rcases h with (h | rfl) | ⟨-, h⟩
  · exact (Json.isDigit_printable h).2
  · decide
  · exact Nat.lt_of_le_of_lt (UInt32.le_iff_toNat_le.mp h) (by decide)

/-- It is spelled as it is, and neither a quote nor the start of the pattern. -/
theorem token_clear {c : Char} (h : token c = true) :
    Json.escapeChar c = [c] ∧ c ≠ '"' ∧ c ≠ 's' := by
  have hall : ∀ n, n < 128 → token (Char.ofNat n) = true → Json.escapeChar (Char.ofNat n) =
      [Char.ofNat n] ∧ Char.ofNat n ≠ '"' ∧ Char.ofNat n ≠ 's' := by
    decide +kernel
  have hc := hall c.toNat (token_lt h)
  rw [Char.ofNat_toNat] at hc
  exact hc h

theorem Tokens.of_digits {l : List Char} (h : ∀ c ∈ l, c.isDigit = true) : Tokens l := by
  intro c hc
  rw [token, h c hc]
  rfl

theorem Tokens.append {l l' : List Char} (h : Tokens l) (h' : Tokens l') : Tokens (l ++ l') :=
  fun c hc => (List.mem_append.mp hc).elim (h c) (h' c)

theorem Tokens.toDigits (n : Nat) : Tokens (Nat.toDigits 10 n) :=
  Tokens.of_digits fun _ hc => isDigit_of_toDigits hc

theorem Tokens.no_quote {l : List Char} (h : Tokens l) : '"' ∉ l := fun hm =>
  (token_clear (h _ hm)).2.1 rfl

theorem Tokens.flatMap {l : List Char} (h : Tokens l) : l.flatMap Json.escapeChar = l := by
  induction l with
  | nil => rfl
  | cons c l ih =>
    rw [List.flatMap_cons, (token_clear (h c List.mem_cons_self)).1,
      ih fun x hx => h x (List.mem_cons_of_mem _ hx)]
    rfl

/-- **What the script prints** is what the updater prints of the manifest. -/
theorem manifestText_eq {m : Manifest} (hname : m.binary.name = binaryName)
    (hschema : m.schema = manifestSchema) (hsha : Tokens m.binary.sha256.toList)
    (hversion : Tokens m.version.toList) :
    (m.spelled .named .named).print Json.escapeChar ++ ['\n'] =
      manifestText (Nat.toDigits 10 m.applyAfterMs.val) m.binary.sha256.toList
        (Nat.toDigits 10 m.binary.size.val) (Nat.toDigits 10 m.sequence.val) m.version.toList := by
  have hq : ∀ s : String, Tokens s.toList →
      Json.printString Json.escapeChar s = '"' :: (s.toList ++ ['"']) := fun s h => by
    rw [Json.printString, h.flatMap]
  simp only [Manifest.spelled, BinaryEntry.spelled, hname, hschema, Json.print, Json.printMembers,
    hq _ hsha, hq _ hversion, Json.u64, Json.nat, List.cons_append, List.append_assoc]
  rfl

theorem head_sequenceKey : sequenceKey.head? = some '"' := rfl

/-- A string of such characters is no key. -/
theorem numbersAfter_quote {l s : List Char} (hl : Tokens l) (hne : l ≠ []) :
    numbersAfter sequenceKey ('"' :: (l ++ s)) = numbersAfter sequenceKey s := by
  obtain ⟨c, t, rfl⟩ := List.exists_cons_of_ne_nil hne
  have hno : stripPrefix sequenceKey ('"' :: (c :: t ++ s)) = none :=
    stripPrefix_second (token_clear (hl c List.mem_cons_self)).2.2.symm
  rw [numbersAfter_cons hno, numbersAfter_append head_sequenceKey hl.no_quote]

/-- **`grep` finds the sequence**, and nothing else. -/
theorem numbersAfter_manifest {applyAfterMs sha256 size sequence version : List Char}
    (happly : Tokens applyAfterMs) (hsha : Tokens sha256) (hsha' : sha256 ≠ [])
    (hsize : Tokens size) (hsequence : ∀ c ∈ sequence, c.isDigit = true)
    (hversion : Tokens version) (hversion' : version ≠ []) :
    numbersAfter sequenceKey (manifestText applyAfterMs sha256 size sequence version) =
      [sequence] := by
  have h₁ : ∀ s, numbersAfter sequenceKey ("\x7b\"apply_after_ms\":".toList ++ s) =
      numbersAfter sequenceKey s := fun _ => rfl
  have h₂ : ∀ s, numbersAfter sequenceKey
      (",\"binary\":\x7b\"name\":\"sn46-validator-linux-x86_64\",\"sha256\":\"".toList ++ s) =
      numbersAfter sequenceKey ('"' :: s) := fun _ => rfl
  have h₃ : ∀ s, numbersAfter sequenceKey ("\",\"size\":".toList ++ s) =
      numbersAfter sequenceKey s := fun _ => rfl
  have h₄ : ∀ s, numbersAfter sequenceKey
      ("\x7d,\"schema\":\"sn46.validator.release.v1\",\"sequence\":".toList ++ s) =
      s.takeWhile Char.isDigit :: numbersAfter sequenceKey s := fun _ => rfl
  have h₅ : ∀ s, numbersAfter sequenceKey (",\"version\":\"".toList ++ s) =
      numbersAfter sequenceKey ('"' :: s) := fun _ => rfl
  have hdigits : ∀ s, (sequence ++ (",\"version\":\"".toList ++ s)).takeWhile Char.isDigit =
      sequence := fun s => takeWhile_digits hsequence (c := ',') (by decide)
  have hrest : ∀ s, s = "\"\x7d\n".toList → numbersAfter sequenceKey
      (sequence ++ (",\"version\":\"".toList ++ (version ++ s))) = [] := by
    intro s hs
    refine (numbersAfter_append head_sequenceKey (Tokens.of_digits hsequence).no_quote).trans ?_
    refine (h₅ _).trans ((numbersAfter_quote hversion hversion').trans ?_)
    rw [hs]
    rfl
  unfold manifestText
  refine (h₁ _).trans ((numbersAfter_append head_sequenceKey happly.no_quote).trans ?_)
  refine (h₂ _).trans ((numbersAfter_quote hsha hsha').trans ?_)
  refine (h₃ _).trans ((numbersAfter_append head_sequenceKey hsize.no_quote).trans ?_)
  exact (h₄ _).trans (congrArg₂ List.cons (hdigits _) (hrest _ rfl))

/-! ## 4. What is published -/

/-- Hexadecimal text is of lowercase digits. -/
theorem mem_hexEncode {bs : Bytes} {c : Char} (h : c ∈ hexEncode bs) :
    ∃ n, n < 16 ∧ c = Json.hexDigit n := by
  obtain ⟨b, -, hb⟩ := List.mem_flatMap.mp h
  have hlt : b.toNat < 256 := b.toNat_lt
  rcases List.mem_pair.mp hb with rfl | rfl
  · exact ⟨_, by omega, rfl⟩
  · exact ⟨_, by omega, rfl⟩

theorem hexEncode_tokens (bs : Bytes) : Tokens (hexEncode bs) := by
  intro c hc
  have hall : ∀ n, n < 16 → token (Json.hexDigit n) = true := by decide
  obtain ⟨n, hn, rfl⟩ := mem_hexEncode hc
  exact hall n hn

theorem hexVal_hexEncode (bs : Bytes) : ∀ c ∈ hexEncode bs, Json.hexVal c ≠ none := by
  intro c hc
  have hall : ∀ n, n < 16 → Json.hexVal (Json.hexDigit n) ≠ none := by decide
  obtain ⟨n, hn, rfl⟩ := mem_hexEncode hc
  exact hall n hn

theorem hexEncode_length (bs : Bytes) : (hexEncode bs).length = 2 * bs.length := by
  induction bs with
  | nil => rfl
  | cons b bs ih =>
    rw [hexEncode, List.flatMap_cons, List.length_append, ← hexEncode, ih, List.length_cons]
    simp only [List.length_cons, List.length_nil]
    omega

/-- The characters of a release's version. -/
theorem Manifest.Release.version_tokens {m : Manifest} (h : m.Release) :
    Tokens m.version.toList ∧ m.version.toList ≠ [] := by
  obtain ⟨x, y, z, hx, hy, hz, he⟩ := h.version
  have hgroup : ∀ {l : List Char}, Group l → Tokens l := fun hl => Tokens.of_digits hl.2.2
  have hdot : token '.' = true := by decide
  rw [he]
  refine ⟨fun c hc => ?_, by simp⟩
  simp only [List.mem_append, List.mem_cons] at hc
  rcases hc with hc | rfl | hc | rfl | hc
  · exact hgroup hx c hc
  · exact hdot
  · exact hgroup hy c hc
  · exact hdot
  · exact hgroup hz c hc

theorem Manifest.Release.sha256_tokens {m : Manifest} (h : m.Release) :
    Tokens m.binary.sha256.toList ∧ m.binary.sha256.toList ≠ [] := by
  refine ⟨fun c hc => ?_, fun he => ?_⟩
  · rw [token, Bool.or_eq_true, Bool.or_eq_true, Bool.and_eq_true, decide_eq_true_eq,
      decide_eq_true_eq, decide_eq_true_eq]
    rcases h.sha256_hex c hc with ⟨hlow, hhigh⟩ | hc
    · refine .inl (.inl ?_)
      rw [Char.isDigit, Bool.and_eq_true, decide_eq_true_eq, decide_eq_true_eq]
      exact ⟨hlow, hhigh⟩
    · exact .inr hc
  · have hlen := h.sha256_length
    rw [he] at hlen
    cases hlen

/-- **The published manifest** is one of a release, or there is none yet. -/
def Published (w : Workshop) (n : U64) : Prop :=
  ((∃ body, w.published = some (404, body)) ∧ n = 0) ∨
  ∃ m : Manifest, m.Release ∧ w.published = some (200, Json.canonical m.toJson ++ ['\n']) ∧
    m.sequence = n

/-- The script reads its sequence. -/
theorem publishedSequence_eq {w : Workshop} {n : U64} (h : Published w n) :
    publishedSequence w = .ok (Nat.toDigits 10 n.val) := by
  rcases h with ⟨⟨body, hbody⟩, rfl⟩ | ⟨m, hm, hbody, rfl⟩
  · rw [publishedSequence, hbody]
    rfl
  · have htext : Json.canonical m.toJson ++ ['\n'] =
        manifestText (Nat.toDigits 10 m.applyAfterMs.val) m.binary.sha256.toList
          (Nat.toDigits 10 m.binary.size.val) (Nat.toDigits 10 m.sequence.val)
          m.version.toList :=
      manifestText_eq hm.name hm.schema hm.sha256_tokens.1 hm.version_tokens.1
    have hfound := numbersAfter_manifest (.toDigits m.applyAfterMs.val) hm.sha256_tokens.1
      hm.sha256_tokens.2 (.toDigits m.binary.size.val)
      (fun c hc => isDigit_of_toDigits (n := m.sequence.val) hc) hm.version_tokens.1
      hm.version_tokens.2
    have hdigits : digits (Nat.toDigits 10 m.sequence.val) = true :=
      digits_iff.mpr ⟨Nat.toDigits_ne_nil, fun c hc => isDigit_of_toDigits hc⟩
    have hline : '\n' ∉ Nat.toDigits 10 m.sequence.val := fun hmem =>
      absurd (isDigit_of_toDigits hmem) (by decide)
    have hfound' : numbersAfter sequenceKey (Json.canonical m.toJson ++ ['\n']) =
        [Nat.toDigits 10 m.sequence.val] := htext ▸ hfound
    simp only [publishedSequence, hbody, hfound', captured_singleton hline, hdigits, if_true]
    rfl

/-! ## 5. Times -/

/-- The milliseconds that are asked for: those of the clock, a number of them, or a date. -/
def Workshop.asked (w : Workshop) : Option String → Int
  | none => w.seconds * 1000 + w.millis.val
  | some v => if digits v.toList then value v.toList else (w.date v).getD 0 * 1000

/-- A time that is written as a word: a clock past the first second of 1970, a number without a zero
    in front, or a date from 1970 on whose milliseconds are a word with a sign. -/
def Workshop.Timely (w : Workshop) : Option String → Prop
  | none => 1 ≤ w.seconds ∧ w.seconds * 1000 + w.millis.val < 2 ^ 64
  | some v =>
    if digits v.toList then Plain v.toList ∧ value v.toList < 2 ^ 64
    else ∀ s, w.date v = some s → 0 ≤ s ∧ s * 1000 < 2 ^ 63

/-- Three more digits. -/
theorem toDigits_millis {s : Nat} (hs : 0 < s) {ms : Nat} (hms : ms < 1000) :
    Nat.toDigits 10 s ++ [Nat.digitChar (ms / 100), Nat.digitChar (ms / 10 % 10),
      Nat.digitChar (ms % 10)] = Nat.toDigits 10 (s * 1000 + ms) := by
  have hstep : ∀ n d, 0 < n → d < 10 →
      Nat.toDigits 10 n ++ [Nat.digitChar d] = Nat.toDigits 10 (10 * n + d) := by
    intro n d hn hd
    rw [← Nat.toDigits_append_toDigits (by decide) hn hd, Nat.toDigits_of_lt_base hd]
  have h₁ := hstep s (ms / 100) hs (by omega)
  have h₂ := hstep (10 * s + ms / 100) (ms / 10 % 10) (by omega) (by omega)
  have h₃ := hstep (10 * (10 * s + ms / 100) + ms / 10 % 10) (ms % 10) (by omega) (by omega)
  have he : 10 * (10 * (10 * s + ms / 100) + ms / 10 % 10) + ms % 10 = s * 1000 + ms := by omega
  rw [← he, ← h₃, ← h₂, ← h₁, List.append_assoc, List.append_assoc]
  rfl

/-- **The clock is written as a word** from the first second of 1970 on. -/
theorem now_iff {w : Workshop} {k : U64} (hk : (k.val : Int) = w.asked none) :
    w.now = Nat.toDigits 10 k.val ↔ 1 ≤ w.seconds := by
  have hms := w.millis.isLt
  constructor
  · intro h
    by_contra hlt
    cases hs : w.seconds with
    | ofNat s =>
      -- a zero in front of three digits
      rw [hs] at hlt
      obtain rfl : s = 0 := Nat.eq_zero_of_not_pos fun hpos => hlt (Int.ofNat_le.mpr hpos)
      rw [Workshop.now, hs] at h
      have hplain := toDigits_plain k.val
      rw [← h] at hplain
      exact absurd (List.cons.inj (hplain rfl)).2 (List.cons_ne_nil _ _)
    | negSucc s =>
      rw [Workshop.now, hs] at h
      have hd : ('-' : Char).isDigit = true :=
        isDigit_of_toDigits (n := k.val) (h ▸ List.mem_append_left _ List.mem_cons_self)
      exact absurd hd (by decide)
  · intro h
    obtain ⟨s, hs⟩ := Int.eq_ofNat_of_zero_le (by omega : 0 ≤ w.seconds)
    have hval : k.val = s * 1000 + w.millis.val := by
      have hk' : (k.val : Int) = w.seconds * 1000 + w.millis.val := hk
      omega
    rw [Workshop.now, hs, hval]
    exact toDigits_millis (by omega) hms

/-- **A time is written as the word it is** exactly when it is timely. -/
theorem time_iff {w : Workshop} {g : Option String} {ms : List Char}
    (h : g.elim (some w.now) w.applyAfter = some ms) :
    (∃ k : U64, ms = Nat.toDigits 10 k.val ∧ (k.val : Int) = w.asked g) ↔ w.Timely g := by
  cases g with
  | none =>
    obtain rfl : w.now = ms := Option.some.inj h
    constructor
    · intro hk
      obtain ⟨k, hms, hk⟩ := hk
      have hle := (now_iff hk).mp hms
      have hlt := k.isLt
      have hk' : (k.val : Int) = w.seconds * 1000 + w.millis.val := hk
      exact ⟨hle, by omega⟩
    · intro ht
      obtain ⟨hle, hlt⟩ := ht
      have hk : (((⟨(w.seconds * 1000 + w.millis.val).toNat, by omega⟩ : U64).val : Nat) : Int) =
          w.asked none := Int.toNat_of_nonneg (by omega)
      exact ⟨_, (now_iff hk).mpr hle, hk⟩
  | some v =>
    rw [Option.elim_some, Workshop.applyAfter] at h
    rw [Workshop.asked, Workshop.Timely]
    split_ifs at h ⊢ with hd
    · obtain rfl := Option.some.inj h
      constructor
      · intro hk
        obtain ⟨k, hms, hk⟩ := hk
        refine ⟨hms ▸ toDigits_plain k.val, ?_⟩
        rw [← Int.ofNat.inj hk]
        exact k.isLt
      · intro ht
        exact ⟨⟨_, ht.2⟩, (toDigits_value hd ht.1).symm, rfl⟩
    · obtain ⟨s, hs, rfl⟩ := Option.map_eq_some_iff.mp h
      rw [hs, Option.getD_some]
      constructor
      · intro hk s' hs'
        obtain rfl := Option.some.inj hs'
        obtain ⟨k, hms, hk⟩ := hk
        have hw := text_eq hms
        have hb := (wrap_bounds (s * 1000)).2
        exact ⟨by omega, by omega⟩
      · intro ht
        obtain ⟨hpos, hlt⟩ := ht s rfl
        refine ⟨⟨(s * 1000).toNat, by omega⟩, ?_, Int.toNat_of_nonneg (by omega)⟩
        rw [wrap_of_lt (by omega) hlt]
        exact congrArg text (Int.toNat_of_nonneg (by omega)).symm

/-! ## 6. Sequences -/

/-- A sequence that is written as a word, above the published one where that is a word without a
    sign only: what is given has no zero in front and is below `2 ^ 64`, and is of the upper half
    where the published one is. -/
structure Numbered (g : Option String) (n : U64) : Prop where
  word : ∀ v, g = some v → Plain v.toList ∧ value v.toList < 2 ^ 64
  half : n.val < 2 ^ 63 ∨ ∃ v, g = some v ∧ 2 ^ 63 ≤ value v.toList

/-- The next sequence that is asked for. -/
def askedSequence (n : U64) (g : Option String) : Nat :=
  g.elim (n.val + 1) fun v => value v.toList

/-- What `above` compares. -/
theorem above_iff {T : List Char} {s : Int} {n : Nat} (hs : number T = some s) :
    above T (Nat.toDigits 10 n) = true ↔ wrap n < s := by
  rw [above, hs, number_toDigits]
  exact decide_eq_true_iff

/-- **A sequence that the script accepts is written as the word it is**, above the published one,
    exactly when it is numbered so. -/
theorem sequence_iff {g : Option String} {n : U64} (hd : ∀ v, g = some v → digits v.toList = true)
    (ha : above (nextSequence (g.elim [] String.toList) (Nat.toDigits 10 n.val))
      (Nat.toDigits 10 n.val) = true) :
    (∃ k : U64, nextSequence (g.elim [] String.toList) (Nat.toDigits 10 n.val) =
      Nat.toDigits 10 k.val ∧ k.val = askedSequence n g ∧ n < k) ↔ Numbered g n := by
  have hn := n.isLt
  cases g with
  | none =>
    have hnext : nextSequence [] (Nat.toDigits 10 n.val) = text (wrap (wrap n.val + 1)) := by
      rw [nextSequence, if_pos rfl, number_toDigits, Option.elim_some]
    have hb := wrap_bounds (wrap n.val + 1)
    rw [Option.elim_none, hnext] at ha ⊢
    rw [above_iff (number_text hb.1 hb.2)] at ha
    constructor
    · intro hk
      obtain ⟨k, hms, hk, -⟩ := hk
      have hw := text_eq hms
      have hk' : k.val = n.val + 1 := hk
      exact ⟨nofun, .inl (by omega)⟩
    · intro hnum
      have hlt : n.val < 2 ^ 63 := hnum.half.resolve_right fun ⟨v, hv, _⟩ => nomatch hv
      have hself : wrap n.val = n.val := wrap_of_lt (by omega) (by omega)
      -- the word above the highest one is the lowest
      have hne : n.val + 1 ≠ 2 ^ 63 := by
        intro he
        have hlow : wrap (wrap n.val + 1) = 2 ^ 63 - 2 ^ 64 := by
          rw [hself, show (n.val : Int) + 1 = 2 ^ 63 by omega]
          exact wrap_of_le (by decide) (by decide)
        omega
      have hnext' : wrap (wrap n.val + 1) = (n.val + 1 : Nat) := by
        rw [hself]
        exact wrap_of_lt (by omega) (by omega)
      refine ⟨⟨n.val + 1, by omega⟩, by rw [hnext']; rfl, rfl, Nat.lt_succ_self _⟩
  | some v =>
    have hdv := hd v rfl
    have hnext : nextSequence v.toList (Nat.toDigits 10 n.val) = v.toList :=
      if_neg (digits_iff.mp hdv).1
    rw [Option.elim_some, hnext] at ha ⊢
    constructor
    · intro hk
      obtain ⟨k, hms, hk, hlt⟩ := hk
      have hk' : k.val = value v.toList := hk
      have hklt := k.isLt
      refine ⟨fun v' hv' => ?_, ?_⟩
      · cases hv'
        exact ⟨hms ▸ toDigits_plain k.val, by omega⟩
      · rcases Nat.lt_or_ge n.val (2 ^ 63) with hhalf | hhalf
        · exact .inl hhalf
        · exact .inr ⟨v, rfl, by have : n.val < k.val := hlt; omega⟩
    · intro hnum
      obtain ⟨hplain, hword⟩ := hnum.word v rfl
      have htext := toDigits_value hdv hplain
      rw [above_iff (s := wrap (value v.toList)) (by rw [← htext, number_toDigits, htext])] at ha
      refine ⟨⟨value v.toList, hword⟩, htext.symm, rfl, ?_⟩
      show n.val < value v.toList
      rcases Nat.lt_or_ge n.val (2 ^ 63) with hlow | hhigh
      · rw [wrap_of_lt (by omega) (by omega)] at ha
        rcases Nat.lt_or_ge (value v.toList) (2 ^ 63) with hv | hv
        · rw [wrap_of_lt (by omega) (by omega)] at ha
          omega
        · exact Nat.lt_of_lt_of_le hlow hv
      · have hv : 2 ^ 63 ≤ value v.toList := by
          rcases hnum.half with hlow | ⟨v', hv', hle⟩
          · exact absurd hlow (Nat.not_lt.mpr hhigh)
          · cases hv'
            exact hle
        rw [wrap_of_le (by omega) (by omega), wrap_of_le (by omega) (by omega)] at ha
        omega

/-! ## 7. What the updater reads -/

/-- The characters of a tag's version, and its shape. -/
theorem tagVersion_tokens {tag : String} (h : tagShape tag = true) : Tokens (tagVersion tag) ∧
    ((tagVersion tag).splitOn '.').length = 3 ∧
    ∀ part ∈ (tagVersion tag).splitOn '.', digits part = true := by
  unfold tagShape at h
  split at h
  · rename_i version htag
    have hversion : tagVersion tag = version := by
      rw [tagVersion, htag, List.drop_one, List.tail_cons]
    rw [Bool.and_eq_true, decide_eq_true_eq, List.all_eq_true] at h
    rw [hversion]
    have hpart : ∀ part ∈ version.splitOn '.', Tokens part := fun part hp =>
      Tokens.of_digits (digits_iff.mp (h.2 part hp)).2
    have hdot : Tokens ['.'] := List.forall_mem_singleton.mpr (by decide)
    refine ⟨?_, h⟩
    have hwhole : ['.'].intercalate (version.splitOn '.') = version := List.intercalate_splitOn '.'
    rw [← hwhole]
    obtain ⟨x, y, z, hsplit⟩ := List.length_eq_three.mp h.1
    rw [hsplit] at hpart ⊢
    have hjoin : List.intercalate ['.'] [x, y, z] = x ++ (['.'] ++ (y ++ (['.'] ++ z))) := by
      simp [List.intercalate]
    rw [hjoin]
    refine (hpart x (by simp)).append (hdot.append ((hpart y (by simp)).append
      (hdot.append (hpart z (by simp)))))
  · cases h

/-- **A version of three groups of digits** is read when each has at most nine. -/
theorem versionShape_iff {tag : String} (h : tagShape tag = true) :
    versionShape (String.ofList (tagVersion tag)) = true ↔
      ∀ part ∈ (tagVersion tag).splitOn '.', part.length ≤ 9 := by
  obtain ⟨-, hlen, hall⟩ := tagVersion_tokens h
  rw [versionShape, String.toList_ofList, Bool.and_eq_true, decide_eq_true_eq, List.all_eq_true]
  constructor
  · intro hs part hpart
    have hp := hs.2 part hpart
    rw [Bool.and_eq_true, Bool.and_eq_true, decide_eq_true_eq, decide_eq_true_eq] at hp
    exact hp.1.2
  · intro hs
    refine ⟨hlen, fun part hpart => ?_⟩
    obtain ⟨hne, hd⟩ := digits_iff.mp (hall part hpart)
    rw [Bool.and_eq_true, Bool.and_eq_true, decide_eq_true_eq, decide_eq_true_eq]
    exact ⟨⟨hne, hs part hpart⟩, List.all_eq_true.mpr hd⟩

/-- The two numbers of a text are its own. -/
theorem manifestText_inj {a a' s s' sha256 size version : List Char} (ha : ',' ∉ a) (ha' : ',' ∉ a')
    (h : manifestText a sha256 size s version = manifestText a' sha256 size s' version) :
    a = a' ∧ s = s' := by
  obtain ⟨rfl, hrest⟩ := append_cons_inj ha ha' (List.append_cancel_left h)
  refine ⟨rfl, ?_⟩
  unfold manifestText at h
  simpa only [List.append_cancel_left_eq, List.append_cancel_right_eq] using h

/-- **A text of the script that is accepted** is spelled with names, so it is the text of what is
    read. -/
theorem manifestText_spelled {m : Manifest} {inner outer : Shape}
    {a sha256 size s version : List Char} (ha : ',' ∉ a)
    (h : manifestText a sha256 size s version =
      (m.spelled inner outer).print Json.escapeChar ++ ['\n']) :
    inner = .named ∧ outer = .named := by
  cases outer with
  | ordered => cases h
  | named =>
    cases inner with
    | named => exact ⟨rfl, rfl⟩
    | ordered =>
      have hprint : ∃ y, (m.spelled .ordered .named).print Json.escapeChar ++ ['\n'] =
          "\x7b\"apply_after_ms\":".toList ++ (Nat.toDigits 10 m.applyAfterMs.val ++
            ',' :: ("\"binary\":".toList ++ '[' :: y)) := by
        simp only [Manifest.spelled, BinaryEntry.spelled, Json.print, Json.printMembers, Json.u64,
          Json.nat, List.cons_append, List.append_assoc]
        exact ⟨_, rfl⟩
      obtain ⟨y, hy⟩ := hprint
      rw [hy] at h
      have hcomma : ',' ∉ Nat.toDigits 10 m.applyAfterMs.val := fun hm =>
        absurd (isDigit_of_toDigits hm) (by decide)
      obtain ⟨-, hrest⟩ := append_cons_inj ha hcomma (List.append_cancel_left h)
      have htail := @List.append_cancel_left _ "\"binary\":".toList _ _ hrest
      exact absurd (List.cons.inj htail).1 (by decide)

/-! ## 8. The script and the updater -/

/-- **A signature file** that verifies over `raw`: in hexadecimal, with one newline or none. -/
def SignatureOf (crypto : Crypto) (key : crypto.Key) (raw sig : Bytes) : Prop :=
  ∃ t nl signature, t.length = 128 ∧ (∀ c ∈ t, Json.hexVal c ≠ none) ∧ (nl = [] ∨ nl = ['\n']) ∧
    sig = Json.encodeUtf8 (t ++ nl) ∧ hexDecode t = some signature ∧
    crypto.verifyStrict key raw signature = true

/-- **A manifest that says what was asked for**: the tag's version, the time and the sequence of the
    options, the size and the digest of the binary; its sequence is above the published `n`. -/
structure Agrees (crypto : Crypto) (w : Workshop) (tag : String) (rest : List String)
    (binary : Bytes) (n : U64) (m : Manifest) : Prop where
  version : m.version.toList = tagVersion tag
  applyAfterMs : (m.applyAfterMs.val : Int) = w.asked (given "--apply-after" rest)
  sequence : m.sequence.val = askedSequence n (given "--sequence" rest)
  above : n < m.sequence
  size : m.binary.size.val = binary.length
  sha256 : m.binary.sha256.toList = hexEncode (crypto.sha256 binary)

/-- **The arguments on which the script and the updater agree.** -/
structure Readable (w : Workshop) (tag : String) (rest : List String) (n : U64) : Prop where
  version : ∀ part ∈ (tagVersion tag).splitOn '.', part.length ≤ 9
  applyAfter : w.Timely (given "--apply-after" rest)
  sequence : Numbered (given "--sequence" rest) n

/-- The time the script writes holds no comma. -/
theorem applyAfter_no_comma {w : Workshop} {g : Option String} {ms : List Char}
    (h : g.elim (some w.now) w.applyAfter = some ms) : ',' ∉ ms := by
  have htext : ∀ x : Int, ',' ∉ text x := fun x hm => by
    rcases mem_text hm with h | h <;> exact absurd h (by decide)
  cases g with
  | none =>
    obtain rfl := Option.some.inj h
    have hdigit : ∀ n, n < 10 → Nat.digitChar n ≠ ',' := by decide
    have hms := w.millis.isLt
    intro hm
    rcases List.mem_append.mp hm with hm | hm
    · exact htext _ hm
    · simp only [List.mem_cons, List.not_mem_nil, or_false] at hm
      rcases hm with hm | hm | hm
      · exact hdigit _ (by omega) hm.symm
      · exact hdigit _ (by omega) hm.symm
      · exact hdigit _ (by omega) hm.symm
  | some v =>
    rw [Option.elim_some, Workshop.applyAfter] at h
    split_ifs at h with hd
    · obtain rfl := Option.some.inj h
      exact fun hm => absurd ((digits_iff.mp hd).2 _ hm) (by decide)
    · obtain ⟨s, -, rfl⟩ := Option.map_eq_some_iff.mp h
      exact htext _

section

variable {crypto : Crypto} {key : crypto.Key} {raw sig : Bytes} {m : Manifest}
  {a sha256 size s version : List Char}

/-- What is read of the script's text, where it names the rest. -/
theorem verifyManifest_texts (ha : ',' ∉ a)
    (hraw : raw = Json.encodeUtf8 (manifestText a sha256 size s version))
    (h : verifyManifest crypto raw sig key = .ok m) (hversion : m.version.toList = version)
    (hsha : m.binary.sha256.toList = sha256) (hsize : Nat.toDigits 10 m.binary.size.val = size)
    (hv : Tokens version) (hs : Tokens sha256) :
    a = Nat.toDigits 10 m.applyAfterMs.val ∧ s = Nat.toDigits 10 m.sequence.val := by
  obtain ⟨inner, outer, he⟩ := verifyManifest_spelled h
  have hf := verifyManifest_formed h
  have htext : manifestText a sha256 size s version =
      (m.spelled inner outer).print Json.escapeChar ++ ['\n'] := by
    refine Option.some.inj ?_
    rw [← Json.decodeUtf8_encodeUtf8, ← hraw, he, Manifest.spelledBytes, Json.decodeUtf8_encodeUtf8]
  obtain ⟨rfl, rfl⟩ := manifestText_spelled ha htext
  rw [manifestText_eq hf.name hf.schema (hsha ▸ hs) (hversion ▸ hv), hversion, hsha, hsize] at htext
  exact manifestText_inj ha (fun hm => absurd (isDigit_of_toDigits hm) (by decide)) htext

/-- The text of a well-formed manifest is accepted, signed. -/
theorem verifyManifest_signed (hf : m.Formed) (hv : Tokens m.version.toList)
    (hs : Tokens m.binary.sha256.toList)
    (hraw : raw = Json.encodeUtf8 (manifestText (Nat.toDigits 10 m.applyAfterMs.val)
      m.binary.sha256.toList (Nat.toDigits 10 m.binary.size.val) (Nat.toDigits 10 m.sequence.val)
      m.version.toList))
    (hsig : SignatureOf crypto key raw sig) : verifyManifest crypto raw sig key = .ok m := by
  obtain ⟨t, nl, signature, hlen, ht, hnl, rfl, hhex, hverify⟩ := hsig
  obtain ⟨htext, hstrip, hbytes, signature', hhex', h64⟩ := read_signature hlen ht hnl
  obtain rfl : signature' = signature := Option.some.inj (hhex'.symm.trans hhex)
  have hspelled : raw = m.spelledBytes .named .named := by
    rw [hraw, ← manifestText_eq hf.name hf.schema hs hv]
    rfl
  rw [hspelled] at hverify ⊢
  refine verifyManifest_accepts hf .named .named htext ?_ ?_ h64 hverify
  · rw [hstrip, hbytes]
  · rw [hstrip, hhex]

end

theorem sha256Shape_hexEncode (crypto : Crypto) (binary : Bytes) :
    sha256Shape (String.ofList (hexEncode (crypto.sha256 binary))) = true := by
  have hall : ∀ n, n < 16 → ('0' ≤ Json.hexDigit n ∧ Json.hexDigit n ≤ '9' ∨
      'a' ≤ Json.hexDigit n ∧ Json.hexDigit n ≤ 'f') := by
    decide
  have hlen : (hexEncode (crypto.sha256 binary)).length = 64 := by
    rw [hexEncode_length, crypto.sha256_length]
  rw [sha256Shape, String.toList_ofList, Bool.and_eq_true]
  refine ⟨decide_eq_true hlen, List.all_eq_true.mpr fun c hc => ?_⟩
  obtain ⟨n, hn, rfl⟩ := mem_hexEncode hc
  simpa only [Bool.or_eq_true, Bool.and_eq_true, decide_eq_true_eq] using hall n hn

/-- **The script and the updater agree** on what the script signs exactly when its arguments are
    readable: a tag of groups of at most nine digits, a time and a sequence that are written as
    words. -/
theorem signRelease_agrees (crypto : Crypto) (key : crypto.Key) (w : Workshop) (tag : String)
    (rest : List String) {raw sig binary : Bytes} {n : U64} (hn : Published w n)
    (h : signRelease crypto w (tag :: rest) = .ok raw) (hb : w.download = some binary)
    (hpos : 1 ≤ binary.length) (hle : binary.length ≤ 512 * 1024 * 1024)
    (hsig : SignatureOf crypto key raw sig) :
    (∃ m, verifyManifest crypto raw sig key = .ok m ∧ Agrees crypto w tag rest binary n m) ↔
      Readable w tag rest n := by
  obtain ⟨htag, o, binary', published, ho, hb', hpublished, habove, hraw⟩ := signRelease_inv h
  obtain rfl : binary = binary' := Option.some.inj (hb.symm.trans hb')
  obtain rfl : Nat.toDigits 10 n.val = published :=
    Except.ok.inj ((publishedSequence_eq hn).symm.trans hpublished)
  obtain ⟨hafter, hsequence, hdigits⟩ := options_given ho
  rw [← hsequence] at habove hraw
  have htime := time_iff hafter
  have hseq := sequence_iff hdigits habove
  have hshape := versionShape_iff htag
  have hv := (tagVersion_tokens htag).1
  have hs := hexEncode_tokens (crypto.sha256 binary)
  constructor
  · intro hm
    obtain ⟨m, hok, hm⟩ := hm
    have hf := verifyManifest_formed hok
    obtain ⟨ha, hT⟩ := verifyManifest_texts (applyAfter_no_comma hafter) hraw hok hm.version
      hm.sha256 (by rw [hm.size]) hv hs
    refine ⟨hshape.mp ?_, htime.mp ⟨m.applyAfterMs, ha, hm.applyAfterMs⟩,
      hseq.mp ⟨m.sequence, hT, hm.sequence, hm.above⟩⟩
    rw [← hm.version, String.ofList_toList]
    exact hf.version
  · intro hr
    obtain ⟨k, ha, hk⟩ := htime.mpr hr.applyAfter
    obtain ⟨k', hT, hk', habove'⟩ := hseq.mpr hr.sequence
    let m : Manifest :=
      { applyAfterMs := k
        binary := ⟨binaryName, String.ofList (hexEncode (crypto.sha256 binary)),
          ⟨binary.length, by omega⟩⟩
        schema := manifestSchema
        sequence := k'
        version := String.ofList (tagVersion tag) }
    have hf : m.Formed :=
      ⟨rfl, hshape.mpr hr.version, rfl, sha256Shape_hexEncode crypto binary, hpos, hle⟩
    have hversion : m.version.toList = tagVersion tag := String.toList_ofList
    have hsha : m.binary.sha256.toList = hexEncode (crypto.sha256 binary) := String.toList_ofList
    refine ⟨m, ?_, hversion, hk, hk', habove', rfl, hsha⟩
    refine verifyManifest_signed hf (hversion ▸ hv) (hsha ▸ hs) ?_ hsig
    rw [hversion, hsha, hraw, ha, hT]

/-! ## 9. Two runs of the script -/

/-- A workshop with everything in place, before the first release. -/
def firstRelease : Workshop where
  seconds := 1790000000
  millis := 0
  date _ := none
  secretKeyPath := "/keys/validator.secret"
  secretKey := true
  signerPath := "/keys/sn46-release-sign"
  signer := true
  gh := true
  bwrap := true
  download := some (fakeBinary "0.1.4")
  sums := true
  reported := some (some "sn46-validator 0.1.4")
  published := some (404, "Not Found".toList)

theorem firstRelease_published : Published firstRelease 0 := .inl ⟨⟨_, rfl⟩, rfl⟩

/-- The arguments that sign `release4`. -/
def plainArguments : List String := ["--apply-after", "0", "--sequence", "2"]

theorem plainArguments_readable : Readable firstRelease "v0.1.4" plainArguments 0 where
  version := by decide
  applyAfter := by
    have hg : given "--apply-after" plainArguments = some "0" := by decide
    rw [hg, Workshop.Timely, if_pos (by decide)]
    exact ⟨fun _ => rfl, by decide⟩
  sequence := by
    refine ⟨fun v hv => ?_, .inl (by decide)⟩
    obtain rfl : "2" = v := Option.some.inj hv
    exact ⟨fun h => absurd h (by decide), by decide⟩

theorem signRelease_agrees_release4 :
    ∃ m, verifyManifest testCrypto (published release4)
      (Json.encodeUtf8 (hexEncode (signature release4))) testKey = .ok m ∧
      Agrees testCrypto firstRelease "v0.1.4" plainArguments (fakeBinary "0.1.4") 0 m := by
  have hrun : signRelease testCrypto firstRelease ("v0.1.4" :: plainArguments) =
      .ok (published release4) := by
    decide +kernel
  have hsig : SignatureOf testCrypto testKey (published release4)
      (Json.encodeUtf8 (hexEncode (signature release4))) :=
    ⟨hexEncode (signature release4), [], signature release4, by decide +kernel,
      hexVal_hexEncode _, .inl rfl, by rw [List.append_nil], by decide +kernel,
      by decide +kernel⟩
  exact (signRelease_agrees testCrypto testKey firstRelease "v0.1.4" plainArguments
    firstRelease_published hrun rfl (by decide +kernel) (by decide +kernel) hsig).mpr
    plainArguments_readable

/-- What the script signs for a sequence with a zero in front. -/
def octalBytes : Bytes :=
  bytes "\x7b\"apply_after_ms\":1790000000000,\"binary\":\x7b\"name\":" ++
    bytes "\"sn46-validator-linux-x86_64\",\"sha256\":\"" ++
    Json.encodeUtf8 (hexEncode (bigEndian 32 digest4)) ++
    bytes "\",\"size\":48\x7d,\"schema\":\"sn46.validator.release.v1\",\"sequence\":010," ++
    bytes "\"version\":\"0.1.4\"\x7d\n"

/-- Its signature under the key of the tests. -/
def octalSignature : Bytes :=
  bigEndian 64 (0x8fc4674d2cd1643daf824382d20234af525025e0991ba33a97cfd59833df5c0c * 2 ^ 256 +
    0x33aa116d16cc01416b032945d07458c04259a35f83c8e33419aa1e482ee9c208)

/-- The signatures of the tests, and this one. -/
def octalCrypto : Crypto where
  Key := Bytes
  sha256 := testDigest
  sha256_length := testCrypto.sha256_length
  verifyStrict key raw sig :=
    testCrypto.verifyStrict key raw sig ||
      (key = testKey && raw = octalBytes && sig = octalSignature)
  prints := testCrypto.prints

/-- **A sequence that only the script can read**: `--sequence 010` is 8 in its arithmetic, and no
    number in the manifest it signs. -/
theorem signRelease_octal : Published firstRelease 0 ∧
    signRelease octalCrypto firstRelease ["v0.1.4", "--sequence", "010"] = .ok octalBytes ∧
    octalCrypto.verifyStrict testKey octalBytes octalSignature = true ∧
    verifyManifest octalCrypto octalBytes (Json.encodeUtf8 (hexEncode octalSignature)) testKey =
      .error (.manifest "manifest is not JSON") := by
  refine ⟨firstRelease_published, ?_, ?_, ?_⟩
  · decide +kernel
  · decide +kernel
  · decide +kernel

end Sn46Validator.Update
