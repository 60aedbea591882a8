/-
  File:      Library/Shell.lean
  Subject:   NUMBERS IN A SHELL SCRIPT: texts that are numbers only where arithmetic reads them.

  * `digits`, `value`, `Plain` -- a text of digits, the number it spells, and whether it spells it
    without a zero in front;
  * `wrap` -- arithmetic in words of 64 bits with a sign;
  * `number` -- what arithmetic makes of the text of a variable: a zero in front makes it octal;
  * `text` -- the text arithmetic makes of a number; `number_text` -- and back;
  * `numbersAfter`, `captured` -- `grep -o` for the digits behind a pattern, and what `$(..)` keeps;
  * `occurs` -- `grep -F`; `readTwo` -- `read` of two variables.
-/
import Mathlib.Algebra.Group.Int.Defs
import Mathlib.Data.List.DropRight
import Sn46Validator.Library.JsonValue

namespace Library.Shell

/-! ## 1. Texts of digits -/

/-- `^[0-9]+$` -/
def digits (l : List Char) : Bool := l ≠ [] && l.all Char.isDigit

/-- The number that digits spell. -/
def value (l : List Char) : Nat := Nat.ofDigitChars 10 l 0

/-- No zero in front of other digits. -/
def Plain (l : List Char) : Prop := l.head? = some '0' → l = ['0']

theorem digits_iff {l : List Char} : digits l = true ↔ l ≠ [] ∧ ∀ c ∈ l, c.isDigit = true := by
  rw [digits, Bool.and_eq_true, decide_eq_true_eq, List.all_eq_true]

theorem isDigit_of_toDigits {n : Nat} {c : Char} (h : c ∈ Nat.toDigits 10 n) :
    c.isDigit = true :=
  Nat.isDigit_of_mem_toDigits (by decide) (by decide) h

theorem toDigits_plain (n : Nat) : Plain (Nat.toDigits 10 n) := by
  intro h
  rcases Nat.eq_zero_or_pos n with rfl | hn
  · rfl
  · obtain ⟨c, t, ht, h₀, -⟩ := Json.toDigits_head hn
    rw [ht] at h
    exact absurd (Option.some.inj h) h₀

theorem value_toDigits (n : Nat) : value (Nat.toDigits 10 n) = n := Nat.ofDigitChars_ten_toDigits

/-- **Plain digits are the decimal text of their number.** -/
theorem toDigits_value {l : List Char} (hd : digits l = true) (hp : Plain l) :
    Nat.toDigits 10 (value l) = l := by
  obtain ⟨hne, hall⟩ := digits_iff.mp hd
  by_cases h₀ : l.head? = some '0'
  · rw [hp h₀]
    rfl
  · exact Json.toDigits_ofDigitChars hall hne h₀

/-! ## 2. Words -/

/-- A word of 64 bits with a sign. -/
def wrap (x : Int) : Int := x.bmod (2 ^ 64)

theorem wrap_of_lt {x : Int} (hlow : -2 ^ 63 ≤ x) (hhigh : x < 2 ^ 63) : wrap x = x := by
  rw [wrap, Int.bmod_def]
  split_ifs <;> omega

theorem wrap_of_le {x : Int} (hlow : 2 ^ 63 ≤ x) (hhigh : x < 2 ^ 64) : wrap x = x - 2 ^ 64 := by
  rw [wrap, Int.bmod_def]
  split_ifs <;> omega

theorem wrap_bounds (x : Int) : -2 ^ 63 ≤ wrap x ∧ wrap x < 2 ^ 63 := by
  rw [wrap, Int.bmod_def]
  split_ifs <;> omega

/-! ## 3. Arithmetic -/

/-- A constant: octal behind a zero. -/
def constant : List Char → Option Int
  | '0' :: r =>
    if r.all fun c => c.isDigit && c < '8' then some (wrap (Nat.ofDigitChars 8 r 0)) else none
  | l => some (wrap (value l))

/-- **What arithmetic makes of a text** of digits, behind a minus sign or not. -/
def number : List Char → Option Int
  | [] => some 0
  | '-' :: r => (constant r).map fun x => wrap (-x)
  | l => constant l

/-- The text of a number. -/
def text : Int → List Char
  | .ofNat n => Nat.toDigits 10 n
  | .negSucc n => '-' :: Nat.toDigits 10 (n + 1)

theorem constant_toDigits (n : Nat) : constant (Nat.toDigits 10 n) = some (wrap n) := by
  rcases Nat.eq_zero_or_pos n with rfl | hn
  · decide
  · obtain ⟨c, t, ht, h₀, -⟩ := Json.toDigits_head hn
    have hv := value_toDigits n
    rw [ht] at hv ⊢
    unfold constant
    split
    · rename_i heq
      exact absurd (List.cons.inj heq).1 h₀
    · rw [hv]

theorem number_toDigits (n : Nat) : number (Nat.toDigits 10 n) = some (wrap n) := by
  have hc := constant_toDigits n
  obtain ⟨c, t, ht⟩ := List.exists_cons_of_ne_nil (Nat.toDigits_ne_nil (b := 10) (n := n))
  have hd : c.isDigit = true := isDigit_of_toDigits (ht ▸ List.mem_cons_self)
  rw [ht] at hc ⊢
  unfold number
  split
  · rename_i heq
    cases heq
  · rename_i heq
    rw [(List.cons.inj heq).1] at hd
    exact absurd hd (by decide)
  · exact hc

/-- **The text of a word is read as the word.** -/
theorem number_text {x : Int} (hlow : -2 ^ 63 ≤ x) (hhigh : x < 2 ^ 63) :
    number (text x) = some x := by
  cases x with
  | ofNat n =>
    rw [text, number_toDigits]
    exact congrArg some (wrap_of_lt hlow hhigh)
  | negSucc n =>
    have hx : (-((n + 1 : Nat) : Int)) = Int.negSucc n := rfl
    show (constant (Nat.toDigits 10 (n + 1))).map (fun x => wrap (-x)) = some (Int.negSucc n)
    rw [constant_toDigits, Option.map_some, ← hx, wrap, wrap, Int.bmod_neg_bmod]
    exact congrArg some (wrap_of_lt (hx ▸ hlow) (hx ▸ hhigh))

/-- A text of digits only is the text of the number it spells. -/
theorem text_eq {x : Int} {n : Nat} (h : text x = Nat.toDigits 10 n) : x = n := by
  cases x with
  | ofNat m =>
    have hv := congrArg value h
    rw [text, value_toDigits, value_toDigits] at hv
    rw [hv]
    rfl
  | negSucc m =>
    have hd : ('-' : Char).isDigit = true := isDigit_of_toDigits (n := n) (h ▸ List.mem_cons_self)
    exact absurd hd (by decide)

/-- The text of a number is digits behind a minus sign or not. -/
theorem mem_text {x : Int} {c : Char} (h : c ∈ text x) : c = '-' ∨ c.isDigit = true := by
  cases x with
  | ofNat n => exact .inr (isDigit_of_toDigits h)
  | negSucc n =>
    rcases List.mem_cons.mp h with rfl | h
    · exact .inl rfl
    · exact .inr (isDigit_of_toDigits h)

/-! ## 4. What commands print -/

/-- **`grep -o`** for a pattern and the digits behind it: the digits, at every place. -/
def numbersAfter (pat : List Char) : List Char → List (List Char)
  | [] => []
  | c :: s =>
    match stripPrefix pat (c :: s) with
    | some r => r.takeWhile Char.isDigit :: numbersAfter pat s
    | none => numbersAfter pat s

/-- What `$(..)` makes of the lines that are printed. -/
def captured (ls : List (List Char)) : List Char :=
  (List.intercalate ['\n'] ls).rdropWhile (· = '\n')

/-- One line. -/
theorem captured_singleton {l : List Char} (h : '\n' ∉ l) : captured [l] = l := by
  have hl : List.intercalate ['\n'] [l] = l := by simp [List.intercalate]
  rw [captured, hl]
  refine List.rdropWhile_eq_self_iff.mpr fun hne he => h ?_
  rw [← of_decide_eq_true he]
  exact List.getLast_mem hne

theorem numbersAfter_cons {pat s : List Char} {c : Char} (h : stripPrefix pat (c :: s) = none) :
    numbersAfter pat (c :: s) = numbersAfter pat s := by
  rw [numbersAfter, h]

/-- A text that differs from the pattern in the second character. -/
theorem stripPrefix_second {a b a' b' : Char} {pat s : List Char} (h : b ≠ b') :
    stripPrefix (a :: b :: pat) (a' :: b' :: s) = none := by
  rw [stripPrefix, List.isPrefixOf, List.isPrefixOf, beq_eq_false_iff_ne.mpr h, Bool.false_and,
    Bool.and_false]
  rfl

/-- A text without the pattern's first character. -/
theorem numbersAfter_append {q : Char} {pat l s : List Char} (hq : pat.head? = some q)
    (hl : q ∉ l) : numbersAfter pat (l ++ s) = numbersAfter pat s := by
  obtain ⟨pat, rfl⟩ := List.head?_eq_some_iff.mp hq
  induction l with
  | nil => rfl
  | cons c l ih =>
    have hne : q ≠ c := fun h => hl (h ▸ List.mem_cons_self)
    have hno : stripPrefix (q :: pat) (c :: (l ++ s)) = none := by
      rw [stripPrefix, List.isPrefixOf, beq_eq_false_iff_ne.mpr hne]
      rfl
    rw [List.cons_append, numbersAfter_cons hno, ih (List.not_mem_of_not_mem_cons hl)]

/-- **`grep -F`** for a text without a line end. -/
def occurs (pat : List Char) : List Char → Bool
  | [] => pat.isEmpty
  | c :: s => pat.isPrefixOf (c :: s) || occurs pat s

theorem occurs_iff {pat s : List Char} : occurs pat s = true ↔ pat <:+: s := by
  induction s with
  | nil => rw [occurs, List.isEmpty_iff, List.infix_nil]
  | cons c s ih => rw [occurs, Bool.or_eq_true, List.isPrefixOf_iff_prefix, ih, List.infix_cons_iff]

theorem occurs_mono {pat s : List Char} (l : List Char) (h : occurs pat s = true) :
    occurs pat (l ++ s) = true :=
  occurs_iff.mpr ((occurs_iff.mp h).trans (List.suffix_append l s).isInfix)

/-- A text without the pattern's first character. -/
theorem occurs_append {q : Char} {pat l s : List Char} (hq : pat.head? = some q) (hl : q ∉ l) :
    occurs pat (l ++ s) = occurs pat s := by
  obtain ⟨pat, rfl⟩ := List.head?_eq_some_iff.mp hq
  induction l with
  | nil => rfl
  | cons c l ih =>
    have hne : q ≠ c := fun h => hl (h ▸ List.mem_cons_self)
    rw [List.cons_append, occurs, List.isPrefixOf, beq_eq_false_iff_ne.mpr hne, Bool.false_and,
      Bool.false_or, ih (List.not_mem_of_not_mem_cons hl)]

/-- A text that differs from the pattern in the second character. -/
theorem occurs_second {a b a' b' : Char} {pat s : List Char} (h : b ≠ b') :
    occurs (a :: b :: pat) (a' :: b' :: s) = occurs (a :: b :: pat) (b' :: s) := by
  rw [occurs, List.isPrefixOf, List.isPrefixOf, beq_eq_false_iff_ne.mpr h, Bool.false_and,
    Bool.and_false, Bool.false_or]

/-- Digits in front of something else. -/
theorem takeWhile_digits {l s : List Char} {c : Char} (hl : ∀ c ∈ l, c.isDigit = true)
    (hc : c.isDigit = false) : (l ++ c :: s).takeWhile Char.isDigit = l := by
  rw [List.takeWhile_append_of_pos hl, List.takeWhile_cons_of_neg (by rw [hc]; decide),
    List.append_nil]

/-! ## 5. What is read -/

/-- What separates words. -/
def blank (c : Char) : Bool := c = ' ' || c = '\t'

/-- **`read -r a b`**: the first word of the first line, and what is behind it. A text without a line
    end is read, but the command fails. -/
def readTwo (s : List Char) : Option (List Char × List Char) :=
  let (line, rest) := s.span (· ≠ '\n')
  let (word, behind) := (line.dropWhile blank).span fun c => !blank c
  if rest = [] then none else some (word, (behind.dropWhile blank).rdropWhile blank)

end Library.Shell
