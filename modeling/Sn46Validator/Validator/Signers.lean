/-
  File:      Validator/Signers.lean
  Subject:   THE TRUSTED SIGNERS, from the text of the option to the runs that use them.

  * `parseSigners` -- the list of `PLATFORM_SIGNER`; whether a text is an SS58 address is not
    modelled;
  * `parseSigners_ok` -- what it gives: each address of the text once;
  * `Separates` -- what is assumed of the parser of summaries: a signer that is not refused as
    another one does not change what it says;
  * `signers_rotate` -- **the order, the blanks and the repetitions of the text change no run**, and
    one more signer changes only runs whose summary no old one signed.
-/
import Sn46Validator.Validator.Node

namespace Sn46Validator.Validator

open Library

/-! ## 1. The list -/

/-- The addresses of a text: between its commas, without blanks. -/
def addresses (list : List Char) : List String :=
  (((list.splitOn ',').map trim).filter (· ≠ [])).map String.ofList

/-- The loop of `parse_signers`. -/
def collectSigners (registered : String → Bool) : List String → List String →
    Except String (List String)
  | [], signers => .ok signers
  | signer :: rest, signers =>
    if ¬registered signer then
      .error ("PLATFORM_SIGNER: " ++ signer ++ " is not an SS58 address")
    else if signer ∈ signers then collectSigners registered rest signers
    else collectSigners registered rest (signers ++ [signer])

/-- **`parse_signers`.** -/
def parseSigners (registered : String → Bool) (list : List Char) : Except String (List String) := do
  let signers ← collectSigners registered (addresses list) []
  if signers = [] then throw "PLATFORM_SIGNER is required (or pass --platform-signer)"
  return signers

section

variable {registered : String → Bool}

/-- What the loop adds. -/
theorem collectSigners_ok {rest signers out : List String} (hn : signers.Nodup)
    (h : collectSigners registered rest signers = .ok out) :
    out.Nodup ∧ (∀ s, s ∈ out ↔ s ∈ signers ∨ s ∈ rest) ∧ ∀ s ∈ rest, registered s = true := by
  induction rest generalizing signers with
  | nil =>
    obtain rfl := Except.ok.inj h
    exact ⟨hn, fun s => by simp, nofun⟩
  | cons signer rest ih =>
    unfold collectSigners at h
    split_ifs at h with hr hm
    · obtain ⟨hnodup, hmem, hall⟩ := ih hn h
      refine ⟨hnodup, fun s => ?_, List.forall_mem_cons.mpr ⟨hr, hall⟩⟩
      rw [hmem, List.mem_cons]
      constructor
      · exact fun hs => hs.imp_right .inr
      · intro hs
        rcases hs with hs | rfl | hs
        · exact .inl hs
        · exact .inl hm
        · exact .inr hs
    · have hn' : (signers ++ [signer]).Nodup :=
        List.nodup_append.mpr ⟨hn, List.nodup_singleton _, fun a ha b hb => by
          obtain rfl := List.mem_singleton.mp hb
          exact fun he => hm (he ▸ ha)⟩
      obtain ⟨hnodup, hmem, hall⟩ := ih hn' h
      refine ⟨hnodup, fun s => ?_, List.forall_mem_cons.mpr ⟨hr, hall⟩⟩
      rw [hmem, List.mem_append, List.mem_singleton, List.mem_cons, or_assoc]

/-- **The list is of the addresses of the text, each once.** -/
theorem parseSigners_ok {list : List Char} {signers : List String}
    (h : parseSigners registered list = .ok signers) :
    signers.Nodup ∧ (∀ s, s ∈ signers ↔ s ∈ addresses list) ∧ signers ≠ [] ∧
      ∀ s ∈ signers, registered s = true := by
  unfold parseSigners at h
  simp only [bind, Except.bind, throw, throwThe, MonadExceptOf.throw, pure, Except.pure] at h
  repeat' split at h
  all_goals cases h
  rename_i hc hne
  obtain ⟨hnodup, hmem, hall⟩ := collectSigners_ok List.nodup_nil hc
  have hset : ∀ s, s ∈ signers ↔ s ∈ addresses list := fun s => by rw [hmem]; simp
  exact ⟨hnodup, hset, hne, fun s hs => hall s ((hset s).mp hs)⟩

end

/-! ## 2. The runs -/

section

variable {shared : Shared} {registered : String → Bool}

/-- **What the signer decides**: whether a summary is refused as another signer's, and nothing
    else. -/
def Separates (shared : Shared) : Prop :=
  ∀ raw network netuid s s', shared.parseEpochSummary raw network netuid s ≠ .error .signer →
    shared.parseEpochSummary raw network netuid s' ≠ .error .signer →
    shared.parseEpochSummary raw network netuid s = shared.parseEpochSummary raw network netuid s'

/-- A run with these signers. -/
def Run.trusting (run : Run shared) (signers : List String) : Run shared :=
  { run with platformSigners := signers }

variable {raw : Bytes} {network : String} {netuid : U64} {signers signers' : List String}

/-- What the list answers, one of its signers answers. -/
theorem parseSignedSummary_mem
    (h : parseSignedSummary shared raw network netuid signers ≠ .error .signer) :
    ∃ s ∈ signers, parseSignedSummary shared raw network netuid signers =
      shared.parseEpochSummary raw network netuid s := by
  induction signers with
  | nil => exact absurd rfl h
  | cons s signers ih =>
    unfold parseSignedSummary at h ⊢
    split at h
    · obtain ⟨s', hs', he⟩ := ih h
      exact ⟨s', List.mem_cons_of_mem _ hs', he⟩
    · exact ⟨s, List.mem_cons_self, rfl⟩

/-- A signer that is not refused is heard. -/
theorem parseSignedSummary_ne {s : String} (hs : s ∈ signers)
    (h : shared.parseEpochSummary raw network netuid s ≠ .error .signer) :
    parseSignedSummary shared raw network netuid signers ≠ .error .signer := by
  induction signers with
  | nil => cases hs
  | cons s' signers ih =>
    unfold parseSignedSummary
    split
    · rename_i hs'
      rcases List.mem_cons.mp hs with rfl | hs
      · exact absurd hs' h
      · exact ih hs
    · assumption

/-- **More signers say no less.** -/
theorem parseSignedSummary_mono (hsep : Separates shared) (hsub : ∀ s ∈ signers, s ∈ signers')
    (h : parseSignedSummary shared raw network netuid signers ≠ .error .signer) :
    parseSignedSummary shared raw network netuid signers' =
      parseSignedSummary shared raw network netuid signers := by
  obtain ⟨s, hs, he⟩ := parseSignedSummary_mem h
  have hne : shared.parseEpochSummary raw network netuid s ≠ .error .signer := he ▸ h
  obtain ⟨s', -, he'⟩ := parseSignedSummary_mem (parseSignedSummary_ne (hsub s hs) hne)
  have hne' : shared.parseEpochSummary raw network netuid s' ≠ .error .signer :=
    he' ▸ parseSignedSummary_ne (hsub s hs) hne
  rw [he, he', hsep raw network netuid s' s hne' hne]

/-- A run reads its signers for the summary only. -/
theorem runOnce_trusting {run : Run shared}
    (h : (run.trusting signers').summary = (run.trusting signers).summary) :
    runOnce (run.trusting signers') = runOnce (run.trusting signers) := by
  unfold runOnce
  rw [h]
  rfl

/-- A summary that is not refused as another signer's stays as it is. -/
theorem summary_trusting {run : Run shared} (hsep : Separates shared)
    (hsub : ∀ s ∈ signers, s ∈ signers')
    (h : (run.trusting signers).summary ≠ .error (.epochSummary .signer)) :
    (run.trusting signers').summary = (run.trusting signers).summary := by
  unfold Run.summary at h ⊢
  cases hraw : run.fetched with
  | error e => simp only [Run.trusting, hraw, bind, Except.bind]
  | ok raw =>
    simp only [Run.trusting, hraw, bind, Except.bind] at h ⊢
    rw [parseSignedSummary_mono hsep hsub fun he => h (by rw [he]; rfl)]

/-- **Signers can be listed anew and added.** Take two texts that are accepted as lists of signers,
    the second with every address of the first. A run whose summary is not refused as another
    signer's under the first list is the same run under the second; and when the texts have the same
    addresses, whatever their order, blanks and repetitions, every run is. -/
theorem signers_rotate {list list' : List Char} (hsep : Separates shared)
    (h : parseSigners registered list = .ok signers)
    (h' : parseSigners registered list' = .ok signers')
    (hsub : ∀ s ∈ addresses list, s ∈ addresses list') (run : Run shared) :
    ((run.trusting signers).summary ≠ .error (.epochSummary .signer) →
        runOnce (run.trusting signers') = runOnce (run.trusting signers)) ∧
      ((∀ s ∈ addresses list', s ∈ addresses list) →
        runOnce (run.trusting signers') = runOnce (run.trusting signers)) := by
  obtain ⟨-, hmem, -, -⟩ := parseSigners_ok h
  obtain ⟨-, hmem', -, -⟩ := parseSigners_ok h'
  have hsub' : ∀ s ∈ signers, s ∈ signers' := fun s hs =>
    (hmem' s).mpr (hsub s ((hmem s).mp hs))
  refine ⟨fun hne => runOnce_trusting (summary_trusting hsep hsub' hne), fun hback => ?_⟩
  have hback' : ∀ s ∈ signers', s ∈ signers := fun s hs =>
    (hmem s).mpr (hback s ((hmem' s).mp hs))
  refine runOnce_trusting ?_
  by_cases hne : (run.trusting signers).summary = .error (.epochSummary .signer)
  · by_contra hdiff
    have hne' : (run.trusting signers').summary ≠ .error (.epochSummary .signer) :=
      fun he => hdiff (he.trans hne.symm)
    exact hdiff (summary_trusting hsep hback' hne').symm
  · exact summary_trusting hsep hsub' hne

end

/-- Two signers, as the tests list them. -/
def oldSigner : String := "5FutpWD5tJHoqaX3DaDwiqn2isxmZ19VeRECRd6vgSif4moZ"

def newSigner : String := "5DAAnrj7VHTznn2AWBemMuyBwZWs6FNFjdyVXUeYum3PTXFy"

/-- A library for which the old signer signed everything. -/
def signedShared : Shared where
  Evidence := Unit
  parseEpochSummary _ _ _ signer :=
    if signer = oldSigner then .ok (nodeSummary true) else .error .signer
  scoreEpochSummary _ := [⟨0, 65535⟩]
  texts := by
    intro _ _ _ signer s hok
    by_cases hs : signer = oldSigner
    · rw [if_pos hs] at hok
      obtain rfl := Except.ok.inj hok
      simp [nodeSummary, sampleSummary]
    · rw [if_neg hs] at hok
      cases hok

theorem signedShared_separates : Separates signedShared := by
  have hold : ∀ raw network netuid s,
      signedShared.parseEpochSummary raw network netuid s ≠ .error .signer → s = oldSigner := by
    intro raw network netuid s h
    by_contra hs
    exact h (if_neg hs)
  intro raw network netuid s s' h h'
  rw [hold _ _ _ s h, hold _ _ _ s' h']

def signedRun : Run signedShared where
  network := "finney"
  netuid := 46
  platformSigners := []
  fetched := .ok [0]
  chain := readChain
  hotkey := "v"
  submit := submitAt ⟨"g", "v"⟩

/-- A new signer is listed, in front of the old one. -/
theorem signers_rotate_test : runOnce (signedRun.trusting [newSigner, oldSigner]) =
    runOnce (signedRun.trusting [oldSigner]) := by
  have hold : parseSigners (fun s => s = oldSigner ∨ s = newSigner) oldSigner.toList =
      .ok [oldSigner] := by
    decide +kernel
  have hnew : parseSigners (fun s => s = oldSigner ∨ s = newSigner)
      (" ".toList ++ newSigner.toList ++ " , ".toList ++ oldSigner.toList ++ ",,".toList ++
        oldSigner.toList) = .ok [newSigner, oldSigner] := by
    decide +kernel
  have hsub : ∀ s ∈ addresses oldSigner.toList, s ∈ addresses (" ".toList ++ newSigner.toList ++
      " , ".toList ++ oldSigner.toList ++ ",,".toList ++ oldSigner.toList) := by
    decide +kernel
  refine (signers_rotate signedShared_separates hold hnew hsub signedRun).1 fun h => ?_
  cases h

end Sn46Validator.Validator
