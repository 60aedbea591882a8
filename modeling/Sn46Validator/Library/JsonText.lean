/-
  File:      Library/JsonText.lean
  Subject:   PARSING WHAT WAS PRINTED: the parser inverts the printer.

  * `Spells enc` -- `enc` spells every character so that a string reads it back;
    `escapeChar_spells` -- the usual escapes do;
  * `scanNumber_append` -- a number is read back in front of anything that does not continue it;
  * `parse_print` -- the whole text of a tree nested at most 127 deep is read back as that tree;
  * `decodeUtf8_encodeUtf8` -- and the same through the bytes of the text.
-/
import Sn46Validator.Library.Json
import Sn46Validator.Library.Files
import Mathlib.Data.List.TakeDrop
import Mathlib.Data.List.TakeWhile

namespace Library

namespace Json

/-! ## 1. Strings -/

/-- A spelling of characters that the parser inverts. -/
def Spells (enc : Char → List Char) : Prop :=
  ∀ c r, stringBody (enc c ++ r) = push c (stringBody r)

theorem hexVal_hexDigit : ∀ k, k < 16 → hexVal (hexDigit k) = some k := by
  decide

theorem hexUnit_digits {n : Nat} (h : n < 65536) :
    hexUnit (hexDigit (n / 4096 % 16)) (hexDigit (n / 256 % 16)) (hexDigit (n / 16 % 16))
      (hexDigit (n % 16)) = some n := by
  simp only [hexUnit, hexVal_hexDigit _ (Nat.mod_lt _ (by decide : 16 > 0)), Option.bind_eq_bind,
    Option.bind_some, Option.pure_def]
  congr 1
  omega

/-- An escaped unit outside the surrogates is the character with that number. -/
theorem stringBody_unit {n : Nat} (h : n < 0xD800 ∨ 0xE000 ≤ n ∧ n < 65536) (r : List Char) :
    stringBody (unitEscape n ++ r) = push (Char.ofNat n) (stringBody r) := by
  have hn : n < 65536 := by omega
  have hs : n < 0xD800 ∨ 0xE000 ≤ n := by omega
  simp only [unitEscape, List.cons_append, List.nil_append]
  rw [stringBody, hexUnit_digits hn]
  simp only [if_pos hs]

/-- Two escaped surrogates are the character of the pair. -/
theorem stringBody_pair {hi lo : Nat} (hh : 0xD800 ≤ hi ∧ hi < 0xDC00)
    (hl : 0xDC00 ≤ lo ∧ lo < 0xE000) (r : List Char) :
    stringBody (unitEscape hi ++ (unitEscape lo ++ r)) = push (pairChar hi lo) (stringBody r) := by
  have h₁ : ¬(hi < 0xD800 ∨ 0xE000 ≤ hi) := by omega
  have h₂ : ¬0xDC00 ≤ hi := by omega
  simp only [unitEscape, List.cons_append, List.nil_append]
  rw [stringBody, hexUnit_digits (by omega)]
  simp only [if_neg h₁, if_neg h₂]
  rw [hexUnit_digits (by omega)]
  simp only [if_pos hl]

/-- A character that needs no escape spells itself. -/
theorem stringBody_plain {c : Char} (hq : c ≠ '"') (hb : c ≠ '\\') (hc : 32 ≤ c.toNat)
    (r : List Char) : stringBody (c :: r) = push c (stringBody r) := by
  rw [stringBody.eq_def]
  split
  · simp_all
  · simp_all
  · simp_all
  · simp_all
  · rename_i heq
    obtain ⟨rfl, rfl⟩ := List.cons.inj heq
    rw [if_neg (by simp [hb, hc])]

theorem stringBody_simple {e c : Char} (h : simpleEscape e = some c) (r : List Char) :
    stringBody ('\\' :: e :: r) = push c (stringBody r) := by
  have hu : e ≠ 'u' := by
    intro he
    subst he
    simp [simpleEscape] at h
  rw [stringBody.eq_def]
  split
  · simp_all
  · simp_all
  · simp_all
  · simp_all
  · rename_i hne heq
    obtain ⟨rfl, rfl⟩ := List.cons.inj heq
    exact absurd rfl (hne e r rfl)

/-- **The usual escapes are read back.** -/
theorem escapeChar_spells : Spells escapeChar := by
  intro c r
  unfold escapeChar
  split_ifs with h₁ h₂ h₃ h₄ h₅ h₆ h₇ h₈
  · subst h₁
    exact stringBody_simple (by decide) r
  · subst h₂
    exact stringBody_simple (by decide) r
  · subst h₃
    exact stringBody_simple (by decide) r
  · subst h₄
    exact stringBody_simple (by decide) r
  · subst h₅
    exact stringBody_simple (by decide) r
  · obtain rfl : c = Char.ofNat 8 := by rw [← h₆, Char.ofNat_toNat]
    exact stringBody_simple (by decide) r
  · obtain rfl : c = Char.ofNat 12 := by rw [← h₇, Char.ofNat_toNat]
    exact stringBody_simple (by decide) r
  · rw [stringBody_unit (.inl (by omega)), Char.ofNat_toNat]
  · exact stringBody_plain h₁ h₂ (by omega) r

/-- A spelled string is read back up to its quote. -/
theorem stringBody_printString {enc : Char → List Char} (h : Spells enc) (s : List Char)
    (r : List Char) : stringBody (s.flatMap enc ++ '"' :: r) = some (s, r) := by
  induction s with
  | nil => rw [List.flatMap_nil, List.nil_append, stringBody]
  | cons c s ih => rw [List.flatMap_cons, List.append_assoc, h, ih, push, Option.map_some]

/-! ## 2. Numbers -/

/-- What may follow a number: nothing that continues it. -/
def Stops (r : List Char) : Prop :=
  ∀ c ∈ r.head?, c.isDigit = false ∧ c ≠ '.' ∧ c ≠ 'e' ∧ c ≠ 'E'

theorem stops_nil : Stops [] := by
  intro c hc
  cases hc

theorem stops_cons {c : Char} {r : List Char}
    (h : c.isDigit = false ∧ c ≠ '.' ∧ c ≠ 'e' ∧ c ≠ 'E') : Stops (c :: r) := by
  intro c' hc'
  obtain rfl : c = c' := by simpa using hc'
  exact h

/-- A run of digits ends where what follows stops it. -/
theorem span_append {cs r : List Char} (hr : Stops r) :
    (cs ++ r).span Char.isDigit = ((cs.span Char.isDigit).1, (cs.span Char.isDigit).2 ++ r) := by
  simp only [List.span_eq_takeWhile_dropWhile]
  induction cs with
  | nil =>
    cases r with
    | nil => rfl
    | cons c r =>
      have hc := (hr c rfl).1
      simp [hc]
  | cons c cs ih =>
    obtain ⟨h₁, h₂⟩ := Prod.mk.inj ih
    by_cases hc : c.isDigit = true
    · simp only [List.cons_append, List.takeWhile_cons, hc, if_true, List.dropWhile_cons, h₁, h₂]
    · simp [hc]

theorem scanDigits_append {cs d rest r : List Char} (h : scanDigits cs = some (d, rest))
    (hr : Stops r) : scanDigits (cs ++ r) = some (d, rest ++ r) := by
  unfold scanDigits at h ⊢
  rw [span_append hr]
  rcases hs : cs.span Char.isDigit with ⟨d', rest'⟩
  rw [hs] at h
  cases d' with
  | nil => cases h
  | cons c d' =>
    obtain ⟨rfl, rfl⟩ := Prod.mk.inj (Option.some.inj h)
    rfl

theorem scanInt_append {cs d rest r : List Char} (h : scanInt cs = some (d, rest))
    (hr : Stops r) : scanInt (cs ++ r) = some (d, rest ++ r) := by
  cases cs with
  | nil => cases h
  | cons c cs =>
    simp only [scanInt, List.cons_append] at h ⊢
    split_ifs at h ⊢ with h₀ h₁
    · obtain ⟨rfl, rfl⟩ := Prod.mk.inj (Option.some.inj h)
      rfl
    · obtain ⟨rfl, rfl⟩ := Prod.mk.inj (Option.some.inj h)
      rw [span_append hr]

theorem scanFrac_append {cs d rest r : List Char} (h : scanFrac cs = some (d, rest))
    (hr : Stops r) : scanFrac (cs ++ r) = some (d, rest ++ r) := by
  unfold scanFrac at h
  split at h
  · rename_i cs
    obtain ⟨⟨d', rest'⟩, hd, he⟩ := Option.map_eq_some_iff.mp h
    obtain ⟨rfl, rfl⟩ := Prod.mk.inj he
    rw [List.cons_append, scanFrac, scanDigits_append hd hr, Option.map_some]
  · rename_i hne
    obtain ⟨rfl, rfl⟩ := Prod.mk.inj (Option.some.inj h)
    unfold scanFrac
    split
    · rename_i r' heq
      cases cs with
      | nil => exact absurd rfl (hr '.' (by rw [List.nil_append] at heq; rw [heq]; rfl)).2.1
      | cons c cs =>
        obtain ⟨rfl, -⟩ := List.cons.inj heq
        exact absurd rfl (hne cs)
    · rfl

theorem scanExp_append {cs d rest r : List Char} (h : scanExp cs = some (d, rest))
    (hr : Stops r) : scanExp (cs ++ r) = some (d, rest ++ r) := by
  cases cs with
  | nil =>
    obtain ⟨rfl, rfl⟩ := Prod.mk.inj (Option.some.inj h)
    cases r with
    | nil => rfl
    | cons c r =>
      have hc := (hr c rfl).2.2
      simp [scanExp, hc.1, hc.2]
  | cons c cs =>
    simp only [scanExp, List.cons_append] at h ⊢
    split_ifs at h ⊢ with hc
    · obtain ⟨⟨d', rest'⟩, hd, he⟩ := Option.map_eq_some_iff.mp h
      obtain ⟨rfl, rfl⟩ := Prod.mk.inj he
      -- the sign belongs to the exponent, since a digit follows it
      have hsign : scanExpSign (cs ++ r) = ((scanExpSign cs).1, (scanExpSign cs).2 ++ r) := by
        cases cs with
        | nil => cases hd
        | cons x cs => unfold scanExpSign; split <;> simp_all
      rw [hsign, scanDigits_append hd hr, Option.map_some]
    · obtain ⟨rfl, rfl⟩ := Prod.mk.inj (Option.some.inj h)
      rfl

/-- The parts of a scanned number. -/
theorem scanNumber_eq {cs t rest : List Char} (h : scanNumber cs = some (t, rest)) :
    ∃ i r₁ f r₂ e, scanInt (scanSign cs).2 = some (i, r₁) ∧ scanFrac r₁ = some (f, r₂) ∧
      scanExp r₂ = some (e, rest) ∧ t = (scanSign cs).1 ++ i ++ f ++ e := by
  unfold scanNumber at h
  obtain ⟨⟨i, r₁⟩, hi, h⟩ := Option.bind_eq_some_iff.mp h
  obtain ⟨⟨f, r₂⟩, hf, h⟩ := Option.bind_eq_some_iff.mp h
  obtain ⟨⟨e, r₃⟩, he, h⟩ := Option.bind_eq_some_iff.mp h
  obtain ⟨rfl, rfl⟩ := Prod.mk.inj (Option.some.inj h)
  exact ⟨i, r₁, f, r₂, e, hi, hf, he, rfl⟩

theorem scanSign_append {cs r : List Char} (h : cs ≠ []) :
    scanSign (cs ++ r) = ((scanSign cs).1, (scanSign cs).2 ++ r) := by
  cases cs with
  | nil => exact absurd rfl h
  | cons c cs => unfold scanSign; split <;> simp_all

/-- **A number is read back in front of anything that does not continue it.** -/
theorem scanNumber_append {cs t rest r : List Char} (h : scanNumber cs = some (t, rest))
    (hr : Stops r) : scanNumber (cs ++ r) = some (t, rest ++ r) := by
  obtain ⟨i, r₁, f, r₂, e, hi, hf, he, rfl⟩ := scanNumber_eq h
  have hne : cs ≠ [] := by
    intro heq
    subst heq
    cases hi
  rw [scanNumber, scanSign_append hne]
  simp only [scanInt_append hi hr, scanFrac_append hf hr, scanExp_append he hr,
    Option.bind_eq_bind, Option.bind_some, Option.pure_def]

/-- A number starts with a sign or a digit. -/
theorem number_head (n : JsonNumber) : ∃ c t, n.1 = c :: t ∧ (c = '-' ∨ c.isDigit = true) := by
  obtain ⟨i, r₁, f, r₂, e, hi, -, -, -⟩ := scanNumber_eq n.2
  cases hn : n.1 with
  | nil =>
    rw [hn] at hi
    cases hi
  | cons c t =>
    refine ⟨c, t, rfl, ?_⟩
    by_cases hc : c = '-'
    · exact .inl hc
    · rw [hn] at hi
      have hs : scanSign (c :: t) = ([], c :: t) := by
        unfold scanSign
        split <;> simp_all
      simp only [hs, scanInt] at hi
      split_ifs at hi with h₀ h₁
      · exact .inr (by rw [h₀]; rfl)
      · exact .inr h₁

/-! ## 3. Trees -/

mutual

/-- How deep a tree nests arrays and objects. -/
def nest : Json → Nat
  | .array xs => 1 + nestItems xs
  | .object ms => 1 + nestMembers ms
  | _ => 0

def nestItems : List Json → Nat
  | [] => 0
  | x :: xs => max (nest x) (nestItems xs)

def nestMembers : List (String × Json) → Nat
  | [] => 0
  | (_, v) :: ms => max (nest v) (nestMembers ms)

end

theorem skipWs_cons {c : Char} {r : List Char} (h : isWhitespace c = false) :
    skipWs (c :: r) = c :: r := by
  simp [skipWs, h]

theorem printItems_stops (enc : Char → List Char) (xs : List Json) (r : List Char) :
    Stops (printItems enc xs ++ r) := by
  cases xs with
  | nil => exact stops_cons (by decide)
  | cons x xs => exact stops_cons (by decide)

theorem printMembers_stops (enc : Char → List Char) (ms : List (String × Json))
    (r : List Char) : Stops (printMembers enc ms ++ r) := by
  cases ms with
  | nil => exact stops_cons (by decide)
  | cons m ms => exact stops_cons (by decide)

/-- A value that starts like a number is a number. -/
theorem value_number (n depth : Nat) (x : JsonNumber) {r : List Char} (hr : Stops r) :
    value (n + 1) depth (x.1 ++ r) = some (.number x, r) := by
  obtain ⟨c, t, hx, hc⟩ := number_head x
  have hs := scanNumber_append x.2 hr
  rw [List.nil_append] at hs
  have hne : ∀ d : Char, d ≠ '-' → d.isDigit = false → c ≠ d := by
    intro d h₁ h₂ he
    subst he
    rcases hc with hc | hc
    · exact h₁ hc
    · rw [h₂] at hc
      cases hc
  have hw : isWhitespace c = false := by
    simp [isWhitespace, hne]
  rw [value, show skipWs (x.1 ++ r) = x.1 ++ r by rw [hx]; exact skipWs_cons hw]
  split
  · rename_i heq
    rw [hx] at heq
    exact absurd (List.cons.inj heq).1 (hne _ (by decide) (by decide))
  · rename_i heq
    rw [hx] at heq
    exact absurd (List.cons.inj heq).1 (hne _ (by decide) (by decide))
  · rename_i heq
    rw [hx] at heq
    exact absurd (List.cons.inj heq).1 (hne _ (by decide) (by decide))
  · rename_i heq
    rw [hx] at heq
    exact absurd (List.cons.inj heq).1 (hne _ (by decide) (by decide))
  · rename_i heq
    rw [hx] at heq
    exact absurd (List.cons.inj heq).1 (hne _ (by decide) (by decide))
  · rename_i heq
    rw [hx] at heq
    exact absurd (List.cons.inj heq).1 (hne _ (by decide) (by decide))
  · simp only [hs, dif_pos x.2]

/-- A text that does not start with white space, as every printed value. -/
theorem print_head (enc : Char → List Char) (j : Json) (r : List Char) :
    ∃ c t, print enc j ++ r = c :: t ∧ isWhitespace c = false ∧ c ≠ ']' ∧ c ≠ '}' := by
  have hd : ∀ c : Char, c = '-' ∨ c.isDigit = true →
      isWhitespace c = false ∧ c ≠ ']' ∧ c ≠ '}' := by
    intro c hor
    rcases hor with rfl | hc
    · decide
    · have hne : ∀ d : Char, d.isDigit = false → c ≠ d := by
        intro d h he
        subst he
        rw [h] at hc
        cases hc
      simp [isWhitespace, hne]
  cases j with
  | null => exact ⟨_, _, rfl, by decide⟩
  | bool b => cases b <;> exact ⟨_, _, rfl, by decide⟩
  | number n =>
    obtain ⟨c, t, hn, hc⟩ := number_head n
    exact ⟨c, t ++ r, by rw [print, hn]; rfl, hd c hc⟩
  | string s => exact ⟨_, _, rfl, by decide⟩
  | array xs => cases xs <;> exact ⟨_, _, rfl, by decide⟩
  | object ms => rcases ms with _ | ⟨⟨k, v⟩, ms⟩ <;> exact ⟨_, _, rfl, by decide⟩

section

variable {enc : Char → List Char}

theorem stringBody_printed (h : Spells enc) (s : String) (r : List Char) :
    stringBody (s.toList.flatMap enc ++ ['"'] ++ r) = some (s.toList, r) := by
  rw [List.append_assoc]
  exact stringBody_printString h s.toList r

mutual

/-- **A printed value is read back.** -/
theorem value_print (h : Spells enc) : ∀ (j : Json) (n depth : Nat) (r : List Char),
    (print enc j).length ≤ n → nest j < depth → Stops r →
    value n depth (print enc j ++ r) = some (j, r)
  | .null, n + 1, depth, r, _, _, _ => rfl
  | .bool true, n + 1, depth, r, _, _, _ => rfl
  | .bool false, n + 1, depth, r, _, _, _ => rfl
  | .number x, 0, depth, r, hl, _, _ => by
    obtain ⟨c, t, hx, -⟩ := number_head x
    simp [print, hx] at hl
  | .number x, n + 1, depth, r, _, _, hr => value_number n depth x hr
  | .string s, n + 1, depth, r, _, _, _ => by
    have hb := stringBody_printed h s r
    simp only [print, printString, List.cons_append, value, skipWs_cons (show isWhitespace '"' =
      false by decide), hb, Option.map_some, String.ofList_toList]
  | .array [], n + 1, depth, r, _, hd, _ => by
    have h₁ : ¬depth ≤ 1 := by simp only [nest, nestItems] at hd; omega
    simp only [print, List.cons_append, List.nil_append, value,
      skipWs_cons (show isWhitespace '[' = false by decide),
      skipWs_cons (show isWhitespace ']' = false by decide), if_neg h₁]
  | .array (x :: xs), n + 1, depth, r, hl, hd, _ => by
    have h₁ : ¬depth ≤ 1 := by simp only [nest] at hd; omega
    have hi := items_print h x xs n (depth - 1) r
      (by simpa only [print, List.length_cons, Nat.add_le_add_iff_right] using hl)
      (by simp only [nest] at hd; omega)
    obtain ⟨c, t, hc, hw, hb, -⟩ := print_head enc x (printItems enc xs ++ r)
    rw [List.append_assoc, hc] at hi
    simp only [print, List.cons_append, List.append_assoc, value,
      skipWs_cons (show isWhitespace '[' = false by decide), hc, skipWs_cons hw, if_neg h₁]
    split
    · rename_i heq
      exact absurd (List.cons.inj heq).1 hb
    · rw [hi, Option.map_some]
  | .object [], n + 1, depth, r, _, hd, _ => by
    have h₁ : ¬depth ≤ 1 := by simp only [nest, nestMembers] at hd; omega
    simp only [print, List.cons_append, List.nil_append, value,
      skipWs_cons (show isWhitespace '{' = false by decide),
      skipWs_cons (show isWhitespace '}' = false by decide), if_neg h₁]
  | .object ((k, v) :: ms), n + 1, depth, r, hl, hd, _ => by
    have h₁ : ¬depth ≤ 1 := by simp only [nest] at hd; omega
    have hi := members_print h k v ms n (depth - 1) r
      (by simpa only [print, List.length_cons, Nat.add_le_add_iff_right] using hl)
      (by simp only [nest] at hd; omega)
    simp only [printString, List.cons_append, List.append_assoc] at hi
    simp only [print, printString, List.cons_append, List.append_assoc, value,
      skipWs_cons (show isWhitespace '{' = false by decide),
      skipWs_cons (show isWhitespace '"' = false by decide), if_neg h₁]
    split
    · rename_i heq
      exact absurd (List.cons.inj heq).1 (by decide)
    · rw [hi, Option.map_some]

/-- Printed items are read back. -/
theorem items_print (h : Spells enc) : ∀ (x : Json) (xs : List Json) (n depth : Nat) (r : List Char),
    (print enc x ++ printItems enc xs).length ≤ n → nestItems (x :: xs) < depth →
    items n depth (print enc x ++ printItems enc xs ++ r) = some (x :: xs, r)
  | x, [], 0, depth, r, hl, _ => by simp [printItems] at hl
  | x, _ :: _, 0, depth, r, hl, _ => by simp [printItems] at hl
  | x, [], n + 1, depth, r, hl, hd => by
    have hx := value_print h x n depth (printItems enc [] ++ r)
      (by simp only [printItems, List.length_append, List.length_cons, List.length_nil] at hl; omega)
      (by simp only [nestItems] at hd; omega) (printItems_stops enc [] r)
    rw [List.append_assoc, items, hx]
    simp only [printItems, List.cons_append, List.nil_append,
      skipWs_cons (show isWhitespace ']' = false by decide)]
  | x, y :: ys, n + 1, depth, r, hl, hd => by
    have hx := value_print h x n depth (printItems enc (y :: ys) ++ r)
      (by simp only [printItems, List.length_append, List.length_cons] at hl; omega)
      (by simp only [nestItems] at hd; omega) (printItems_stops enc (y :: ys) r)
    have hys := items_print h y ys n depth r
      (by simp only [printItems, List.length_append, List.length_cons] at hl ⊢; omega)
      (by simp only [nestItems] at hd ⊢; omega)
    rw [List.append_assoc, items, hx]
    simp only [printItems, List.cons_append, skipWs_cons (show isWhitespace ',' = false by decide),
      hys, Option.map_some]

/-- Printed members are read back. -/
theorem members_print (h : Spells enc) : ∀ (k : String) (v : Json)
    (ms : List (String × Json)) (n depth : Nat) (r : List Char),
    (printString enc k ++ ':' :: (print enc v ++ printMembers enc ms)).length ≤ n →
    nestMembers ((k, v) :: ms) < depth →
    members n depth (printString enc k ++ ':' :: (print enc v ++ printMembers enc ms) ++ r) =
      some ((k, v) :: ms, r)
  | k, v, [], 0, depth, r, hl, _ => by simp [printString] at hl
  | k, v, _ :: _, 0, depth, r, hl, _ => by simp [printString] at hl
  | k, v, [], n + 1, depth, r, hl, hd => by
    have hk := stringBody_printed h k (':' :: (print enc v ++ (printMembers enc [] ++ r)))
    have hv := value_print h v n depth (printMembers enc [] ++ r)
      (by simp only [printMembers, printString, List.length_append, List.length_cons] at hl; omega)
      (by simp only [nestMembers] at hd; omega) (printMembers_stops enc [] r)
    simp only [List.append_assoc, List.cons_append, printString, members,
      skipWs_cons (show isWhitespace '"' = false by decide)] at hk ⊢
    simp only [hk, skipWs_cons (show isWhitespace ':' = false by decide), hv]
    simp only [printMembers, List.cons_append, List.nil_append,
      skipWs_cons (show isWhitespace '}' = false by decide), String.ofList_toList]
  | k, v, (k', v') :: ms, n + 1, depth, r, hl, hd => by
    have hk := stringBody_printed h k
      (':' :: (print enc v ++ (printMembers enc ((k', v') :: ms) ++ r)))
    have hv := value_print h v n depth (printMembers enc ((k', v') :: ms) ++ r)
      (by simp only [printMembers, printString, List.length_append, List.length_cons] at hl; omega)
      (by simp only [nestMembers] at hd; omega) (printMembers_stops enc ((k', v') :: ms) r)
    have hms := members_print h k' v' ms n depth r
      (by
        simp only [printMembers, printString, List.length_append, List.length_cons] at hl ⊢
        omega)
      (by simp only [nestMembers] at hd ⊢; omega)
    simp only [List.append_assoc, List.cons_append, printString, members,
      skipWs_cons (show isWhitespace '"' = false by decide)] at hk hms ⊢
    simp only [hk, skipWs_cons (show isWhitespace ':' = false by decide), hv]
    simp only [printMembers, printString, List.cons_append, List.append_assoc,
      skipWs_cons (show isWhitespace ',' = false by decide), hms, Option.map_some,
      String.ofList_toList]

end

/-- **A printed text is read back**, also with white space after it. -/
theorem parse_print (h : Spells enc) (j : Json) (hj : nest j ≤ 127) (ws : List Char)
    (hws : skipWs ws = []) (hst : Stops ws) : parse (print enc j ++ ws) = some j := by
  rw [parse, value_print h j _ 128 ws (by rw [List.length_append]; omega) (by omega) hst]
  simp only [hws, if_true]

end

/-! ## 4. Bytes -/

/-- The bytes of a text. -/
def encodeUtf8 (cs : List Char) : Bytes := cs.flatMap String.utf8EncodeChar

/-- The text of some bytes, character by character; `n` bounds the characters. -/
def decodeChars : Nat → Bytes → Option (List Char)
  | _, [] => some []
  | 0, _ :: _ => none
  | n + 1, bs => do
    let c ← ByteArray.utf8DecodeChar? (bs.take 4).toByteArray 0
    return c :: (← decodeChars n (bs.drop c.utf8Size))

/-- The text of some bytes, when they are well-formed. -/
def decodeUtf8 (bs : Bytes) : Option (List Char) := decodeChars bs.length bs

/-- The first character of some bytes. -/
theorem decode_first (c : Char) (bs : Bytes) :
    ByteArray.utf8DecodeChar? ((String.utf8EncodeChar c ++ bs).take 4).toByteArray 0 = some c := by
  have hle : (String.utf8EncodeChar c).length ≤ 4 := by
    rw [String.length_utf8EncodeChar]
    exact c.utf8Size_le_four
  rw [List.take_append, List.take_of_length_le hle, List.toByteArray_append]
  exact ByteArray.utf8DecodeChar?_utf8EncodeChar_append

theorem decodeChars_encodeUtf8 (cs : List Char) (n : Nat) (hn : (encodeUtf8 cs).length ≤ n) :
    decodeChars n (encodeUtf8 cs) = some cs := by
  induction cs generalizing n with
  | nil => cases n <;> rfl
  | cons c cs ih =>
    have he : encodeUtf8 (c :: cs) = String.utf8EncodeChar c ++ encodeUtf8 cs := rfl
    have hlen := String.length_utf8EncodeChar c
    have hpos := c.utf8Size_pos
    rw [he, List.length_append] at hn
    obtain ⟨b, bs, hb⟩ := List.exists_cons_of_length_pos (l := String.utf8EncodeChar c ++
      encodeUtf8 cs) (by rw [List.length_append]; omega)
    cases n with
    | zero => omega
    | succ n =>
      have hstep : decodeChars (n + 1) (b :: bs) =
          (ByteArray.utf8DecodeChar? ((b :: bs).take 4).toByteArray 0).bind fun c =>
            (decodeChars n ((b :: bs).drop c.utf8Size)).bind fun cs => some (c :: cs) := rfl
      rw [he, hb, hstep, ← hb, decode_first, Option.bind_some,
        List.drop_append_of_le_length (by omega), ← hlen, List.drop_length, List.nil_append,
        ih n (by omega)]
      rfl

theorem decodeUtf8_encodeUtf8 (cs : List Char) : decodeUtf8 (encodeUtf8 cs) = some cs :=
  decodeChars_encodeUtf8 cs _ le_rfl

/-- A tree from the bytes of a file. -/
def ofBytes (bs : Bytes) : Option Json := (decodeUtf8 bs).bind parse

/-- **The bytes of a printed text give the tree back.** -/
theorem ofBytes_print {enc : Char → List Char} (h : Spells enc) (j : Json) (hj : nest j ≤ 127)
    (ws : List Char) (hws : skipWs ws = []) (hst : Stops ws) :
    ofBytes (encodeUtf8 (print enc j ++ ws)) = some j := by
  rw [ofBytes, decodeUtf8_encodeUtf8, Option.bind_some, parse_print h j hj ws hws hst]

/-! ## 5. Natural numbers -/

/-- A decimal text of a positive number does not start with a zero. -/
theorem toDigits_head {n : Nat} (hn : 0 < n) :
    ∃ c t, Nat.toDigits 10 n = c :: t ∧ c ≠ '0' ∧ c.isDigit = true := by
  induction n using Nat.strongRecOn with
  | ind n ih =>
    by_cases h : n < 10
    · have hd : ∀ k, k < 10 → 0 < k → k.digitChar ≠ '0' ∧ k.digitChar.isDigit = true := by
        decide
      exact ⟨_, _, Nat.toDigits_of_lt_base h, hd n h hn⟩
    · obtain ⟨c, t, ht, hc⟩ := ih (n / 10) (by omega) (by omega)
      refine ⟨c, t ++ [(n % 10).digitChar], ?_, hc⟩
      rw [Nat.toDigits_of_base_le (by decide) (by omega), ht, List.cons_append]

theorem span_digits {l : List Char} (h : ∀ c ∈ l, c.isDigit = true) :
    l.span Char.isDigit = (l, []) := by
  have hd : l.dropWhile Char.isDigit = [] := List.dropWhile_eq_nil_iff.mpr h
  have ht := List.takeWhile_append_dropWhile (p := Char.isDigit) (l := l)
  rw [hd, List.append_nil] at ht
  rw [List.span_eq_takeWhile_dropWhile, hd, ht]

/-- A decimal text is a number. -/
theorem scanNumber_toDigits (n : Nat) :
    scanNumber (Nat.toDigits 10 n) = some (Nat.toDigits 10 n, []) := by
  rcases Nat.eq_zero_or_pos n with rfl | hn
  · decide
  · obtain ⟨c, t, ht, h₀, hd⟩ := toDigits_head hn
    have hm : c ≠ '-' := by
      intro he
      subst he
      exact absurd hd (by decide)
    have hs : scanSign (c :: t) = ([], c :: t) := by
      unfold scanSign
      split <;> simp_all
    have htd : ∀ x ∈ t, x.isDigit = true := fun x hx =>
      Nat.isDigit_of_mem_toDigits (b := 10) (n := n) (by decide) (by decide)
        (by rw [ht]; exact List.mem_cons_of_mem _ hx)
    simp only [ht, scanNumber, hs, scanInt, h₀, hd, if_true, if_false, span_digits htd,
      Option.bind_eq_bind, Option.bind_some, scanFrac, scanExp, Option.pure_def, List.nil_append,
      List.append_nil]

/-- A natural number in decimal. -/
def nat (n : Nat) : Json := .number ⟨Nat.toDigits 10 n, scanNumber_toDigits n⟩

theorem asNat_nat {bound n : Nat} (h : n < bound) : asNat bound (nat n) = some n := by
  have hall : (Nat.toDigits 10 n).all Char.isDigit = true := List.all_eq_true.mpr fun c hc =>
    Nat.isDigit_of_mem_toDigits (by decide) (by decide) hc
  simp only [asNat, nat, hall, if_true, Nat.ofDigitChars_ten_toDigits, h]

theorem asNat_lt {bound n : Nat} {j : Json} (h : asNat bound j = some n) : n < bound := by
  cases j with
  | number x =>
    simp only [asNat] at h
    split_ifs at h with h₁ h₂
    obtain rfl := Option.some.inj h
    exact h₂
  | _ => cases h

end Json

end Library
