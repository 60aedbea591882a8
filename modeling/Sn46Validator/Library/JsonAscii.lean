/-
  File:      Library/JsonAscii.lean
  Subject:   JSON TEXTS IN ASCII: every character beyond it is spelled by its UTF-16 units.

  * `Json.ascii` -- the canonical text, each character of it spelled in ASCII;
  * `ascii_eq` -- this is the tree printed with another spelling of the characters of its strings,
    since all the rest of the text is ASCII;
  * `asciiEscape_spells` -- the parser inverts that spelling too;
  * `print_printable`, `encodeUtf8_printable` -- no control character is left in the text, and in
    bytes it is pure ASCII.
-/
import Sn46Validator.Library.JsonText

namespace Library

namespace Json

/-! ## 1. Spelling a character -/

/-- A character as escapes of its UTF-16 units. -/
def utf16Escape (c : Char) : List Char :=
  if c.toNat < 0x10000 then unitEscape c.toNat
  else
    unitEscape (0xD800 + (c.toNat - 0x10000) / 1024) ++
      unitEscape (0xDC00 + (c.toNat - 0x10000) % 1024)

theorem toNat_valid (c : Char) : c.toNat < 0xD800 ∨ 0xE000 ≤ c.toNat ∧ c.toNat < 0x110000 := by
  have h := c.valid
  simp only [UInt32.isValidChar, Nat.isValidChar] at h
  simp only [Char.toNat]
  omega

theorem stringBody_utf16Escape (c : Char) (r : List Char) :
    stringBody (utf16Escape c ++ r) = push c (stringBody r) := by
  have hv := toNat_valid c
  unfold utf16Escape
  split_ifs with h
  · rw [stringBody_unit (by omega), Char.ofNat_toNat]
  · have hp : pairChar (0xD800 + (c.toNat - 0x10000) / 1024)
        (0xDC00 + (c.toNat - 0x10000) % 1024) = c := by
      rw [pairChar, show 0x10000 + (0xD800 + (c.toNat - 0x10000) / 1024 - 0xD800) * 1024 +
        (0xDC00 + (c.toNat - 0x10000) % 1024 - 0xDC00) = c.toNat by omega, Char.ofNat_toNat]
    rw [List.append_assoc, stringBody_pair (by omega) (by omega), hp]

/-- A character in ASCII. -/
def asciiUnit (c : Char) : List Char := if c.toNat < 128 then [c] else utf16Escape c

/-- The usual escapes, then units for everything beyond ASCII. -/
def asciiEscape (c : Char) : List Char := (escapeChar c).flatMap asciiUnit

/-- A text in ASCII. -/
def Ascii (l : List Char) : Prop := ∀ c ∈ l, c.toNat < 128

/-- A text in ASCII without control characters. -/
def Printable (l : List Char) : Prop := ∀ c ∈ l, 32 ≤ c.toNat ∧ c.toNat < 128

theorem Printable.ascii {l : List Char} (h : Printable l) : Ascii l := fun c hc => (h c hc).2

theorem Printable.append {l l' : List Char} (h : Printable l) (h' : Printable l') :
    Printable (l ++ l') := by
  intro c hc
  rcases List.mem_append.mp hc with hc | hc
  · exact h c hc
  · exact h' c hc

theorem Printable.cons {c : Char} {l : List Char} (hc : 32 ≤ c.toNat ∧ c.toNat < 128)
    (h : Printable l) : Printable (c :: l) := by
  intro x hx
  rcases List.mem_cons.mp hx with rfl | hx
  · exact hc
  · exact h x hx

theorem printable_nil : Printable [] := fun _ hc => absurd hc List.not_mem_nil

theorem printable_of_all {l : List Char} (h : l.all (fun c => 32 ≤ c.toNat && c.toNat < 128) = true) :
    Printable l := by
  intro c hc
  have hall := List.all_eq_true.mp h c hc
  rwa [Bool.and_eq_true, decide_eq_true_eq, decide_eq_true_eq] at hall

theorem unitEscape_printable (n : Nat) : Printable (unitEscape n) := by
  have hd : ∀ k, k < 16 → 32 ≤ (hexDigit k).toNat ∧ (hexDigit k).toNat < 128 := by decide
  have hmod : ∀ k, k % 16 < 16 := fun k => Nat.mod_lt k (by decide)
  exact .cons (by decide) (.cons (by decide) (.cons (hd _ (hmod _)) (.cons (hd _ (hmod _))
    (.cons (hd _ (hmod _)) (.cons (hd _ (hmod _)) printable_nil)))))

theorem escapeChar_printable {c : Char} (hc : c.toNat < 128) : Printable (escapeChar c) := by
  unfold escapeChar
  split_ifs
  iterate 7 exact .cons (by decide) (.cons (by decide) printable_nil)
  · exact unitEscape_printable _
  · exact .cons ⟨by omega, hc⟩ printable_nil

/-- ASCII is spelled by itself. -/
theorem flatMap_ascii {l : List Char} (h : Ascii l) : l.flatMap asciiUnit = l := by
  induction l with
  | nil => rfl
  | cons c l ih =>
    have hl : Ascii l := fun x hx => h x (List.mem_cons_of_mem _ hx)
    rw [List.flatMap_cons, ih hl, asciiUnit, if_pos (h c List.mem_cons_self),
      List.singleton_append]

/-- Beyond ASCII nothing is escaped. -/
theorem escapeChar_beyond {c : Char} (hc : ¬c.toNat < 128) : escapeChar c = [c] := by
  have hne : ∀ x : Char, x.toNat < 128 → c ≠ x := by
    intro x hx heq
    subst heq
    exact hc hx
  rw [escapeChar, if_neg (hne _ (by decide)), if_neg (hne _ (by decide)), if_neg (hne _ (by decide)),
    if_neg (hne _ (by decide)), if_neg (hne _ (by decide)), if_neg (by omega),
    if_neg (by omega), if_neg (by omega)]

/-- **Escapes with ASCII only are read back.** -/
theorem asciiEscape_spells : Spells asciiEscape := by
  intro c r
  unfold asciiEscape
  by_cases hc : c.toNat < 128
  · rw [flatMap_ascii (escapeChar_printable hc).ascii]
    exact escapeChar_spells c r
  · rw [escapeChar_beyond hc, List.flatMap_singleton, asciiUnit, if_neg hc]
    exact stringBody_utf16Escape c r

/-- What that spelling writes is printable. -/
theorem asciiEscape_printable (c : Char) : Printable (asciiEscape c) := by
  unfold asciiEscape
  by_cases hc : c.toNat < 128
  · have hp := escapeChar_printable hc
    rw [flatMap_ascii hp.ascii]
    exact hp
  · rw [escapeChar_beyond hc, List.flatMap_singleton, asciiUnit, if_neg hc, utf16Escape]
    split_ifs with h
    · exact unitEscape_printable _
    · exact (unitEscape_printable _).append (unitEscape_printable _)

/-! ## 2. Numbers are printable -/

theorem isDigit_printable {c : Char} (h : c.isDigit = true) : 32 ≤ c.toNat ∧ c.toNat < 128 := by
  simp only [Char.isDigit, Bool.and_eq_true, decide_eq_true_eq, UInt32.le_iff_toNat_le] at h
  have h0 : 48 ≤ c.val.toNat := h.1
  have h9 : c.val.toNat ≤ 57 := h.2
  show 32 ≤ c.val.toNat ∧ c.val.toNat < 128
  omega

theorem span_printable (cs : List Char) : Printable (cs.span Char.isDigit).1 := by
  intro c hc
  rw [List.span_eq_takeWhile_dropWhile] at hc
  exact isDigit_printable (List.mem_takeWhile_imp hc)

theorem scanSign_printable (cs : List Char) : Printable (scanSign cs).1 := by
  unfold scanSign
  split
  · exact .cons (by decide) printable_nil
  · exact printable_nil

theorem scanDigits_printable {cs d rest : List Char} (h : scanDigits cs = some (d, rest)) :
    Printable d := by
  have hs := span_printable cs
  unfold scanDigits at h
  rcases hc : cs.span Char.isDigit with ⟨d', rest'⟩
  rw [hc] at h hs
  cases d' with
  | nil => cases h
  | cons c d' =>
    obtain ⟨rfl, rfl⟩ := Prod.mk.inj (Option.some.inj h)
    exact hs

theorem scanInt_printable {cs d rest : List Char} (h : scanInt cs = some (d, rest)) : Printable d := by
  cases cs with
  | nil => cases h
  | cons c cs =>
    simp only [scanInt] at h
    split_ifs at h with h₀ h₁
    · obtain ⟨rfl, rfl⟩ := Prod.mk.inj (Option.some.inj h)
      exact .cons (by decide) printable_nil
    · obtain ⟨rfl, rfl⟩ := Prod.mk.inj (Option.some.inj h)
      exact .cons (isDigit_printable h₁) (span_printable cs)

theorem scanFrac_printable {cs d rest : List Char} (h : scanFrac cs = some (d, rest)) : Printable d := by
  unfold scanFrac at h
  split at h
  · obtain ⟨⟨d', rest'⟩, hd, he⟩ := Option.map_eq_some_iff.mp h
    obtain ⟨rfl, rfl⟩ := Prod.mk.inj he
    exact .cons (by decide) (scanDigits_printable hd)
  · obtain ⟨rfl, rfl⟩ := Prod.mk.inj (Option.some.inj h)
    exact printable_nil

theorem scanExpSign_printable (cs : List Char) : Printable (scanExpSign cs).1 := by
  unfold scanExpSign
  split
  · exact .cons (by decide) printable_nil
  · exact .cons (by decide) printable_nil
  · exact printable_nil

theorem scanExp_printable {cs d rest : List Char} (h : scanExp cs = some (d, rest)) : Printable d := by
  cases cs with
  | nil =>
    obtain ⟨rfl, rfl⟩ := Prod.mk.inj (Option.some.inj h)
    exact printable_nil
  | cons c cs =>
    simp only [scanExp] at h
    split_ifs at h with hc
    · obtain ⟨⟨d', rest'⟩, hd, he⟩ := Option.map_eq_some_iff.mp h
      obtain ⟨rfl, rfl⟩ := Prod.mk.inj he
      have hc' : 32 ≤ c.toNat ∧ c.toNat < 128 := by
        rcases hc with rfl | rfl <;> decide
      exact .cons hc' ((scanExpSign_printable cs).append (scanDigits_printable hd))
    · obtain ⟨rfl, rfl⟩ := Prod.mk.inj (Option.some.inj h)
      exact printable_nil

theorem number_printable (n : JsonNumber) : Printable n.1 := by
  obtain ⟨i, r₁, f, r₂, e, hi, hf, he, hn⟩ := scanNumber_eq n.2
  rw [hn]
  exact (((scanSign_printable _).append (scanInt_printable hi)).append (scanFrac_printable hf)).append
    (scanExp_printable he)

/-! ## 3. The text -/

theorem flatMap_printString (s : String) :
    (printString escapeChar s).flatMap asciiUnit = printString asciiEscape s := by
  have hq : asciiUnit '"' = ['"'] := rfl
  simp only [printString, List.flatMap_cons, List.flatMap_append, List.flatMap_nil, hq,
    List.flatMap_assoc]
  rfl

mutual

theorem flatMap_print : ∀ j : Json,
    (print escapeChar j).flatMap asciiUnit = print asciiEscape j
  | .null => rfl
  | .bool true => rfl
  | .bool false => rfl
  | .number n => by
    rw [print, print]
    exact flatMap_ascii (number_printable n).ascii
  | .string s => by
    rw [print, print]
    exact flatMap_printString s
  | .array [] => rfl
  | .array (x :: xs) => by
    rw [print, print, List.flatMap_cons, List.flatMap_append, flatMap_print x, flatMap_printItems xs]
    rfl
  | .object [] => rfl
  | .object ((k, v) :: ms) => by
    rw [print, print, List.flatMap_cons, List.flatMap_append, flatMap_printString,
      List.flatMap_cons, List.flatMap_append, flatMap_print v, flatMap_printMembers ms]
    rfl

theorem flatMap_printItems : ∀ xs : List Json,
    (printItems escapeChar xs).flatMap asciiUnit = printItems asciiEscape xs
  | [] => rfl
  | x :: xs => by
    rw [printItems, printItems, List.flatMap_cons, List.flatMap_append, flatMap_print x,
      flatMap_printItems xs]
    rfl

theorem flatMap_printMembers : ∀ ms : List (String × Json),
    (printMembers escapeChar ms).flatMap asciiUnit = printMembers asciiEscape ms
  | [] => rfl
  | (k, v) :: ms => by
    rw [printMembers, printMembers, List.flatMap_cons, List.flatMap_append, flatMap_printString,
      List.flatMap_cons, List.flatMap_append, flatMap_print v, flatMap_printMembers ms]
    rfl

end

/-- The canonical text in ASCII. -/
def ascii (j : Json) : List Char := (canonical j).flatMap asciiUnit

/-- **The canonical text in ASCII is a printed text.** -/
theorem ascii_eq (j : Json) : ascii j = print asciiEscape j.toValue := flatMap_print j.toValue

/-! ## 4. The text is printable -/

theorem printString_printable (s : String) : Printable (printString asciiEscape s) := by
  refine .cons (by decide) (.append (fun c hc => ?_) (.cons (by decide) printable_nil))
  obtain ⟨x, -, hx⟩ := List.mem_flatMap.mp hc
  exact asciiEscape_printable x c hx

mutual

/-- **A tree printed in ASCII** has no control characters, so it is one line. -/
theorem print_printable : ∀ j : Json, Printable (print asciiEscape j)
  | .null => printable_of_all (by decide)
  | .bool true => printable_of_all (by decide)
  | .bool false => printable_of_all (by decide)
  | .number n => number_printable n
  | .string s => printString_printable s
  | .array [] => printable_of_all (by decide)
  | .array (x :: xs) => .cons (by decide) ((print_printable x).append (printItems_printable xs))
  | .object [] => printable_of_all (by decide)
  | .object ((k, v) :: ms) => .cons (by decide) ((printString_printable k).append
      (.cons (by decide) ((print_printable v).append (printMembers_printable ms))))

theorem printItems_printable : ∀ xs : List Json, Printable (printItems asciiEscape xs)
  | [] => .cons (by decide) printable_nil
  | x :: xs => .cons (by decide) ((print_printable x).append (printItems_printable xs))

theorem printMembers_printable :
    ∀ ms : List (String × Json), Printable (printMembers asciiEscape ms)
  | [] => .cons (by decide) printable_nil
  | (k, v) :: ms => .cons (by decide) ((printString_printable k).append
      (.cons (by decide) ((print_printable v).append (printMembers_printable ms))))

end

/-- In UTF-8 a character of ASCII is one byte. -/
theorem utf8EncodeChar_ascii {c : Char} (h : c.toNat < 128) :
    String.utf8EncodeChar c = [c.toNat.toUInt8] := by
  have hle : c.val.toNat ≤ 127 := Nat.le_of_lt_succ h
  rw [String.utf8EncodeChar, if_pos hle]
  rfl

theorem length_encodeUtf8_ascii {l : List Char} (h : Ascii l) :
    (encodeUtf8 l).length = l.length := by
  induction l with
  | nil => rfl
  | cons c l ih =>
    have hc : encodeUtf8 (c :: l) = c.toNat.toUInt8 :: encodeUtf8 l := by
      rw [encodeUtf8, List.flatMap_cons, utf8EncodeChar_ascii (h c List.mem_cons_self)]
      rfl
    rw [hc, List.length_cons, ih fun x hx => h x (List.mem_cons_of_mem _ hx), List.length_cons]

/-- A printable text in bytes. -/
theorem encodeUtf8_printable {l : List Char} (h : Printable l) {b : UInt8}
    (hb : b ∈ encodeUtf8 l) : 32 ≤ b.toNat ∧ b.toNat < 128 := by
  obtain ⟨c, hc, hb⟩ := List.mem_flatMap.mp hb
  have hp := h c hc
  rw [utf8EncodeChar_ascii hp.2, List.mem_singleton] at hb
  have hval : b.toNat = c.toNat := by
    rw [hb, UInt8.toNat_ofNat']
    exact Nat.mod_eq_of_lt (by omega)
  rw [hval]
  exact hp

end Json

end Library
