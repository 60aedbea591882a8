/-
  File:      Validator/Hotkey.lean
  Subject:   THE HOTKEY FILE, which the validator signs with and the updater takes its name from.

  * `Sr25519` -- the keys, whose arithmetic is not modelled;
  * `fromJson` -- **the signer of a file**, in either layout;
  * `hotkeyAddress`, `hostId` -- what the updater reads of the same file;
  * `layouts_agree` -- both layouts of one key load to it, whatever else the file holds;
  * `hotkey_identity` -- **the name of the host is the address it signs for**, unless the file names
    its address twice.
-/
import Sn46Validator.Library.JsonText
import Sn46Validator.Library.JsonValue
import Sn46Validator.Validator.Burn

namespace Sn46Validator.Update

open Library

/-- `hotkey_address`, of a file that can be read. -/
def hotkeyAddress (raw : Bytes) : Option String := do
  let tree ← Json.ofBytes raw
  let field ← Json.record false ["ss58Address"] tree
  (← field "ss58Address").asString

/-- `read_trimmed`, of a text that can be read. -/
def readTrimmed (text : Option (List Char)) : Option (List Char) :=
  (text.map trim).filter (· ≠ [])

/-- **What the updater calls its host**: by the hotkey file, by `/etc/machine-id`, by the name of
    the machine. -/
def hostId (hotkeyFile : Option Bytes) (machineId hostname : Option (List Char)) : String :=
  ((hotkeyFile.bind hotkeyAddress).or
    (((readTrimmed machineId).or (readTrimmed hostname)).map String.ofList)).getD ""

end Sn46Validator.Update

namespace Sn46Validator.Validator

open Library

/-! ## 1. The signer of a file -/

/-- **The keys**: a mini secret is expanded, an expanded secret is read; the address of a key. -/
structure Sr25519 where
  Keypair : Type
  expand : Bytes → Except String Keypair
  ofSecret : Bytes → Except String Keypair
  address : Keypair → String

/-- `trim_start_matches("0x")` -/
def trimHex : List Char → List Char
  | '0' :: 'x' :: r => trimHex r
  | l => l

/-- A field in hexadecimal, if the file has it. -/
def hexField (file : Json) (name : String) : Except BurnError (Option Bytes) :=
  match file.get name with
  | none => .ok none
  | some .null => .ok none
  | some (.string text) =>
    match hexDecode (trimHex text.toList) with
    | some bs => .ok (some bs)
    | none => .error ⟨"Validator hotkey file " ++ name ++ " is not hex"⟩
  | some _ => .error ⟨"Validator hotkey file " ++ name ++ " is not a string"⟩

/-- The key of a file's secret; the seed comes first. -/
def secretKey (sr : Sr25519) : Option Bytes → Option Bytes → Except BurnError sr.Keypair
  | some seed, _ =>
    if seed.length ≠ 32 then .error ⟨"Validator hotkey secretSeed must hold 32 bytes"⟩
    else (sr.expand seed).mapError fun e => ⟨"Validator hotkey seed is invalid: " ++ e⟩
  | none, some secret =>
    if secret.length ≠ 64 then .error ⟨"Validator hotkey privateKey must hold 64 bytes"⟩
    else (sr.ofSecret secret).mapError fun e => ⟨"Validator hotkey privateKey is invalid: " ++ e⟩
  | none, none => .error ⟨"Validator hotkey file has neither secretSeed nor privateKey"⟩

/-- What an encrypted file starts with. -/
def encryptedMark : Bytes := Json.encodeUtf8 "$NACL".toList

/-- **`HotkeySigner::from_json`.** -/
def fromJson (sr : Sr25519) (raw : Bytes) : Except BurnError sr.Keypair := do
  if encryptedMark.isPrefixOf raw then
    throw ⟨"Validator hotkey file is encrypted; the validator needs an unencrypted hotkey"⟩
  let some tree := Json.ofBytes raw | throw ⟨"Validator hotkey file is not JSON"⟩
  let file := tree.toValue
  let seed ← hexField file "secretSeed"
  let secret ← hexField file "privateKey"
  let keypair ← secretKey sr seed secret
  if (file.get "ss58Address").bind Json.asString ≠ some (sr.address keypair) then
    throw ⟨"Validator hotkey file ss58Address does not match its secret"⟩
  return keypair

section

variable {sr : Sr25519} {raw : Bytes} {tree : Json} {k : sr.Keypair}

/-- An encrypted file is no JSON. -/
theorem ofBytes_encrypted (h : encryptedMark.isPrefixOf raw = true) : Json.ofBytes raw = none := by
  obtain ⟨t, rfl⟩ := List.isPrefixOf_iff_prefix.mp h
  have hmark : encryptedMark ++ t = String.utf8EncodeChar '$' ++
      (Json.encodeUtf8 "NACL".toList ++ t) := rfl
  have hparse : ∀ cs, Json.parse ('$' :: cs) = none := fun cs => rfl
  have hstep : ∀ (n : ℕ) (b : UInt8) (bs : Bytes), Json.decodeChars (n + 1) (b :: bs) =
      (ByteArray.utf8DecodeChar? ((b :: bs).take 4).toByteArray 0).bind fun c =>
        (Json.decodeChars n ((b :: bs).drop c.utf8Size)).bind fun cs => some (c :: cs) :=
    fun _ _ _ => rfl
  have hfirst := Json.decode_first '$' (Json.encodeUtf8 "NACL".toList ++ t)
  rw [Json.ofBytes, Json.decodeUtf8]
  rw [hmark] at *
  obtain ⟨b, bs, hb⟩ : ∃ b bs, String.utf8EncodeChar '$' ++ (Json.encodeUtf8 "NACL".toList ++ t) =
      b :: bs := ⟨_, _, rfl⟩
  rw [hb] at hfirst ⊢
  rw [List.length_cons, hstep, hfirst, Option.bind_some]
  cases Json.decodeChars bs.length ((b :: bs).drop '$'.utf8Size) with
  | none => rfl
  | some cs => exact hparse cs

/-- **A file that loads**: its secrets are hexadecimal, and the key of the first of them has the
    address that the file names. -/
theorem fromJson_inv (h : fromJson sr raw = .ok k) : ∃ tree seed secret,
    Json.ofBytes raw = some tree ∧ hexField tree.toValue "secretSeed" = .ok seed ∧
      hexField tree.toValue "privateKey" = .ok secret ∧ secretKey sr seed secret = .ok k ∧
      tree.toValue.get "ss58Address" = some (.string (sr.address k)) := by
  unfold fromJson at h
  simp only [bind, Except.bind, throw, throwThe, MonadExceptOf.throw, pure, Except.pure] at h
  repeat' split at h
  all_goals cases h
  rename_i tree htree _ seed hseed _ secret hsecret _ hk haddr
  obtain ⟨j, hj, hs⟩ := Option.bind_eq_some_iff.mp (not_not.mp haddr)
  obtain rfl := Json.asString_inv hs
  exact ⟨tree, seed, secret, htree, hseed, hsecret, hk, hj⟩

/-- **Such a file loads.** -/
theorem fromJson_of {seed secret : Option Bytes} (htree : Json.ofBytes raw = some tree)
    (hseed : hexField tree.toValue "secretSeed" = .ok seed)
    (hsecret : hexField tree.toValue "privateKey" = .ok secret)
    (hk : secretKey sr seed secret = .ok k)
    (haddr : tree.toValue.get "ss58Address" = some (.string (sr.address k))) :
    fromJson sr raw = .ok k := by
  have hplain : encryptedMark.isPrefixOf raw = false := by
    cases hp : encryptedMark.isPrefixOf raw with
    | false => rfl
    | true =>
      rw [ofBytes_encrypted hp] at htree
      cases htree
  simp only [fromJson, hplain, htree, hseed, hsecret, hk, haddr, bind, Except.bind, pure,
    Except.pure, Option.bind_some, Json.asString, ne_eq, not_true_eq_false, if_false]
  rfl

/-! ## 2. The two layouts -/

/-- A text that is read as some bytes: pairs of digits in either case, after any number of `0x`. -/
def HexOf (text : String) (bs : Bytes) : Prop := hexDecode (trimHex text.toList) = some bs

/-- How the wallet spells bytes. -/
def hexText (bs : Bytes) : String := String.ofList ("0x".toList ++ hexEncode bs)

theorem trimHex_hexEncode (bs : Bytes) : trimHex (hexEncode bs) = hexEncode bs := by
  cases bs with
  | nil => rfl
  | cons b bs =>
    have hne : ∀ n, n < 16 → Json.hexDigit n ≠ 'x' := by decide
    have hx : Json.hexDigit (b.toNat % 16) ≠ 'x' := hne _ (by omega)
    show trimHex (Json.hexDigit (b.toNat / 16) :: Json.hexDigit (b.toNat % 16) :: hexEncode bs) = _
    unfold trimHex
    split
    · rename_i h
      exact absurd (List.cons.inj (List.cons.inj h).2).1 hx
    · rfl

theorem hexOf_hexText (bs : Bytes) : HexOf (hexText bs) bs := by
  have htrim : trimHex (hexText bs).toList = hexEncode bs := by
    rw [hexText, String.toList_ofList]
    exact trimHex_hexEncode bs
  rw [HexOf, htrim, hexDecode_hexEncode]

/-- Such a field is read. -/
theorem hexField_hexOf {file : Json} {name text : String} {bs : Bytes}
    (h : file.get name = some (.string text)) (ht : HexOf text bs) :
    hexField file name = .ok (some bs) := by
  rw [HexOf] at ht
  simp only [hexField, h, ht]

/-- A field that is not there. -/
def Missing (file : Json) (name : String) : Prop :=
  file.get name = none ∨ file.get name = some .null

theorem Missing.hexField {file : Json} {name : String} (h : Missing file name) :
    hexField file name = .ok none := by
  unfold Validator.hexField
  rcases h with h | h <;> rw [h]

/-- **Both layouts load to one signer.** A file with the seed of a key, in any spelling, loads to the
    key, whatever stands beside it, as long as an expanded secret there is one in hexadecimal; a file
    without a seed and with the expanded secret loads to it, too. Either names the address of the
    key. -/
theorem layouts_agree {seed secret : Bytes} (hseed : seed.length = 32) (hsecret : secret.length = 64)
    (hexpand : sr.expand seed = .ok k) (hof : sr.ofSecret secret = .ok k)
    (htree : Json.ofBytes raw = some tree)
    (haddr : tree.toValue.get "ss58Address" = some (.string (sr.address k))) {text : String} :
    (tree.toValue.get "secretSeed" = some (.string text) → HexOf text seed →
        (Missing tree.toValue "privateKey" ∨
          ∃ other bs, tree.toValue.get "privateKey" = some (.string other) ∧ HexOf other bs) →
        fromJson sr raw = .ok k) ∧
      (Missing tree.toValue "secretSeed" →
        tree.toValue.get "privateKey" = some (.string text) → HexOf text secret →
        fromJson sr raw = .ok k) := by
  refine ⟨fun hs ht hother => ?_, fun hs hp ht => ?_⟩
  · have hprivate : ∃ o, hexField tree.toValue "privateKey" = .ok o := by
      rcases hother with h | ⟨other, bs, h, hbs⟩
      · exact ⟨none, h.hexField⟩
      · exact ⟨some bs, hexField_hexOf h hbs⟩
    obtain ⟨o, ho⟩ := hprivate
    refine fromJson_of htree (hexField_hexOf hs ht) ho ?_ haddr
    rw [secretKey, if_neg (by simp [hseed]), hexpand]
    rfl
  · refine fromJson_of htree hs.hexField (hexField_hexOf hp ht) ?_ haddr
    rw [secretKey, if_neg (by simp [hsecret]), hof]
    rfl

end

/-- The development key `//Alice`: its mini secret, its expanded secret, its public key. -/
def aliceSeed : Bytes :=
  (hexDecode "e5be9a5092b81bca64be81d212e7f2f9eba183bb7a90954f7b76361f6edb5c0a".toList).getD []

def aliceSecret : Bytes :=
  (hexDecode ("33a6f3093f158a7109f679410bef1a0c54168145e0cecb4df006c1c2fffb1f09" ++
    "925a225d97aa00682d6a59b95b18780c10d7032336e88f3442b42361f4a66011").toList).getD []

def aliceKey : Bytes :=
  (hexDecode "d43593c715fdd31c61141abd04a99fd6822c8558854ccde39a5684e7a56da27d".toList).getD []

def aliceAddress : String := "5GrwvaEF5zXb26Fz9rcQpDWS57CtERHpNehXCPcNoHGKutQY"

/-- The keys, as far as the tests need them. -/
def testSr25519 : Sr25519 where
  Keypair := Bytes
  expand seed := if seed = aliceSeed then .ok aliceKey else .error "not in the tests"
  ofSecret secret := if secret = aliceSecret then .ok aliceKey else .error "not in the tests"
  address key := if key = aliceKey then aliceAddress else "not in the tests"

/-- The two layouts of the key, as the wallet writes them. -/
def legacyMembers : List (String × Json) :=
  [("secretPhrase", .null), ("secretSeed", .string (hexText aliceSeed)),
    ("ss58Address", .string aliceAddress)]

def v9Members : List (String × Json) :=
  [("privateKey", .string (hexText aliceSecret)), ("ss58Address", .string aliceAddress)]

/-- The file of some members. -/
def hotkeyFile (ms : List (String × Json)) : Bytes :=
  Json.encodeUtf8 (Json.print Json.escapeChar (.object ms) ++ ['\n'])

theorem ofBytes_hotkeyFile {ms : List (String × Json)} (h : (Json.object ms).nest ≤ 127) :
    Json.ofBytes (hotkeyFile ms) = some (.object ms) :=
  Json.ofBytes_print Json.escapeChar_spells _ h _ (by decide) (Json.stops_cons (by decide))

theorem get_hotkeyFile (ms : List (String × Json)) (name : String) :
    (Json.object ms).toValue.get name = (ms.reverse.lookup name).map Json.toValue := by
  have hl := Json.lookup_membersToValue name [] ms
  rw [List.lookup_nil, Option.or_none] at hl
  exact hl

theorem alice_expand : testSr25519.expand aliceSeed = .ok aliceKey := by simp [testSr25519]

theorem alice_ofSecret : testSr25519.ofSecret aliceSecret = .ok aliceKey := by simp [testSr25519]

theorem alice_address : testSr25519.address aliceKey = aliceAddress := by simp [testSr25519]

theorem ofBytes_legacy : Json.ofBytes (hotkeyFile legacyMembers) = some (.object legacyMembers) :=
  ofBytes_hotkeyFile (by simp [legacyMembers, Json.nest, Json.nestMembers])

theorem layouts_agree_test : fromJson testSr25519 (hotkeyFile legacyMembers) = .ok aliceKey ∧
    fromJson testSr25519 (hotkeyFile v9Members) = .ok aliceKey := by
  have hseed : aliceSeed.length = 32 := by decide +kernel
  have hsecret : aliceSecret.length = 64 := by decide +kernel
  have hv9 : Json.ofBytes (hotkeyFile v9Members) = some (.object v9Members) :=
    ofBytes_hotkeyFile (by simp [v9Members, Json.nest, Json.nestMembers])
  constructor
  · refine (layouts_agree hseed hsecret alice_expand alice_ofSecret ofBytes_legacy ?_).1 ?_
      (hexOf_hexText _) (.inl (.inl ?_))
    · rw [get_hotkeyFile, alice_address]
      rfl
    · rw [get_hotkeyFile]
      rfl
    · rw [get_hotkeyFile]
      rfl
  · refine (layouts_agree hseed hsecret alice_expand alice_ofSecret hv9 ?_).2 (.inl ?_) ?_
      (hexOf_hexText _)
    · rw [get_hotkeyFile, alice_address]
      rfl
    · rw [get_hotkeyFile]
      rfl
    · rw [get_hotkeyFile]
      rfl

/-! ## 3. The name of the host -/

section

variable {sr : Sr25519} {raw : Bytes} {k : sr.Keypair}

/-- The file names its address more than once. -/
def Repeated (raw : Bytes) : Prop :=
  ∃ ms, Json.ofBytes raw = some (.object ms) ∧
    ¬((ms.map (·.1)).filter (· ∈ ["ss58Address"])).Nodup

/-- **The host is named by the address that the validator signs for.** Where a hotkey file loads, the
    updater takes the address of the loaded key for the name of the host; only where the file names
    its address more than once, it finds none in it and looks elsewhere. -/
theorem hotkey_identity (h : fromJson sr raw = .ok k) (machineId hostname : Option (List Char)) :
    (¬Repeated raw → Update.hostId (some raw) machineId hostname = sr.address k) ∧
      (Repeated raw → Update.hostId (some raw) machineId hostname =
        Update.hostId none machineId hostname) := by
  obtain ⟨tree, seed, secret, htree, -, -, -, haddr⟩ := fromJson_inv h
  obtain ⟨ms, rfl⟩ : ∃ ms, tree = .object ms := by
    cases tree with
    | object ms => exact ⟨ms, rfl⟩
    | _ => cases haddr
  -- the signer reads the last address of the file
  have hlast : (ms.reverse.lookup "ss58Address").map Json.toValue =
      some (.string (sr.address k)) := by
    have hl := Json.lookup_membersToValue "ss58Address" [] ms
    rw [List.lookup_nil, Option.or_none] at hl
    exact hl.symm.trans haddr
  have hread : Update.hotkeyAddress raw =
      ((Json.record false ["ss58Address"] (.object ms)).bind fun field =>
        (field "ss58Address").bind Json.asString) := by
    unfold Update.hotkeyAddress
    rw [htree]
    rfl
  refine ⟨fun hr => ?_, fun hr => ?_⟩
  · have hnodup : ((ms.map (·.1)).filter (· ∈ ["ss58Address"])).Nodup := by
      by_contra hno
      exact hr ⟨ms, htree, hno⟩
    rw [Json.lookup_reverse hnodup] at hlast
    obtain ⟨j, hj, hv⟩ := Option.map_eq_some_iff.mp hlast
    have hstring : j = .string (sr.address k) := by
      cases j with
      | string s => exact hv
      | _ => cases hv
    have haddress : Update.hotkeyAddress raw = some (sr.address k) := by
      rw [hread, Json.record, if_pos ⟨hnodup, nofun⟩, Option.bind_some]
      show (ms.lookup "ss58Address").bind Json.asString = _
      rw [hj, hstring]
      rfl
    rw [Update.hostId, Option.bind_some, haddress]
    rfl
  · obtain ⟨ms', hms', hrep⟩ := hr
    obtain rfl := Json.object.inj (Option.some.inj (htree.symm.trans hms'))
    have hnone : Update.hotkeyAddress raw = none := by
      rw [hread, Json.record, if_neg fun hok => hrep hok.1]
      rfl
    rw [Update.hostId, Option.bind_some, hnone]
    rfl

end

theorem legacy_loads : fromJson testSr25519 (hotkeyFile legacyMembers) = .ok aliceKey := by
  have hlen : aliceSeed.length = 32 := by decide +kernel
  have hseed : hexField (Json.object legacyMembers).toValue "secretSeed" = .ok (some aliceSeed) :=
    hexField_hexOf (by rw [get_hotkeyFile]; rfl) (hexOf_hexText _)
  have hsecret : hexField (Json.object legacyMembers).toValue "privateKey" = .ok none :=
    Missing.hexField (.inl (by rw [get_hotkeyFile]; rfl))
  refine fromJson_of ofBytes_legacy hseed hsecret ?_ (by rw [get_hotkeyFile, alice_address]; rfl)
  rw [secretKey, if_neg (by simp [hlen]), alice_expand]
  rfl

theorem hotkey_identity_test : Update.hostId (some (hotkeyFile legacyMembers)) none none =
    aliceAddress := by
  have hone : ¬Repeated (hotkeyFile legacyMembers) := by
    intro ⟨ms, hms, hrep⟩
    obtain rfl := Json.object.inj (Option.some.inj (ofBytes_legacy.symm.trans hms))
    exact hrep (by decide)
  rw [(hotkey_identity legacy_loads none none).1 hone, alice_address]

end Sn46Validator.Validator
