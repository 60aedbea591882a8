/-
  File:      Library/Text.lean
  Subject:   STRINGS AND WORDS as the standard library of the source has them.

  * `U16`, `U64`, `U128` -- unsigned words. Their `+`, `-` and `*` wrap, as in a build without
    overflow checks; saturating and checked arithmetic beside them (a build with overflow checks
    stops where the checked operation has no value);
  * `stripPrefix`, `trim`, `splitOnce`, `lines`, `replaceAll`, `trimEndMatches` -- strings as lists
    of characters;
  * `parseU64`, `parseU32` -- a decimal word; `debugText` -- a text as `{:?}` shows it;
  * `hexEncode`, `hexDecode` -- bytes in hexadecimal.
-/
import Sn46Validator.Library.JsonText
import Mathlib.Algebra.GroupWithZero.Nat
import Mathlib.Data.Fin.Basic

namespace Library

/-! ## 1. Words -/

/-- Unsigned 16-bit words. -/
abbrev U16 : Type := Fin (2 ^ 16)

/-- Unsigned 64-bit words. -/
abbrev U64 : Type := Fin (2 ^ 64)

/-- Unsigned 128-bit words. -/
abbrev U128 : Type := Fin (2 ^ 128)

instance instNeZeroU16 : NeZero (2 ^ 16) := ⟨by decide⟩

instance instNeZeroU64 : NeZero (2 ^ 64) := ⟨by decide⟩

instance instNeZeroU128 : NeZero (2 ^ 128) := ⟨by decide⟩

/-- The sum, unless it overflows. -/
def checkedAdd {b : Nat} (x y : Fin b) : Option (Fin b) :=
  if h : x.val + y.val < b then some ⟨x.val + y.val, h⟩ else none

/-- The product, unless it overflows. -/
def checkedMul {b : Nat} (x y : Fin b) : Option (Fin b) :=
  if h : x.val * y.val < b then some ⟨x.val * y.val, h⟩ else none

/-- The difference, unless it overflows. -/
def checkedSub {b : Nat} (x y : Fin b) : Option (Fin b) :=
  if y ≤ x then some ⟨x.val - y.val, Nat.lt_of_le_of_lt (Nat.sub_le _ _) x.isLt⟩ else none

/-- The quotient, unless the divisor is zero. -/
def checkedDiv {b : Nat} (x y : Fin b) : Option (Fin b) :=
  if y.val = 0 then none else some ⟨x.val / y.val, Nat.lt_of_le_of_lt (Nat.div_le_self _ _) x.isLt⟩

/-- The remainder, unless the divisor is zero. -/
def checkedRem {b : Nat} (x y : Fin b) : Option (Fin b) :=
  if y.val = 0 then none else some ⟨x.val % y.val, Nat.lt_of_le_of_lt (Nat.mod_le _ _) x.isLt⟩

section

variable {b : Nat} {x y z : Fin b}

theorem checkedAdd_eq (h : checkedAdd x y = some z) : z.val = x.val + y.val := by
  unfold checkedAdd at h
  split_ifs at h
  rw [← Option.some.inj h]

theorem checkedAdd_of (h : z.val = x.val + y.val) : checkedAdd x y = some z := by
  have hlt : x.val + y.val < b := h ▸ z.isLt
  rw [checkedAdd, dif_pos hlt]
  exact congrArg some (Fin.ext h.symm)

theorem checkedMul_of (h : z.val = x.val * y.val) : checkedMul x y = some z := by
  have hlt : x.val * y.val < b := h ▸ z.isLt
  rw [checkedMul, dif_pos hlt]
  exact congrArg some (Fin.ext h.symm)

theorem checkedMul_eq (h : checkedMul x y = some z) : z.val = x.val * y.val := by
  unfold checkedMul at h
  split_ifs at h
  rw [← Option.some.inj h]

theorem checkedMul_none (h : b ≤ x.val * y.val) : checkedMul x y = none := dif_neg (by omega)

theorem checkedSub_of (hle : y ≤ x) (h : z.val = x.val - y.val) : checkedSub x y = some z := by
  rw [checkedSub, if_pos hle]
  exact congrArg some (Fin.ext h.symm)

theorem checkedDiv_of (hne : y.val ≠ 0) (h : z.val = x.val / y.val) : checkedDiv x y = some z := by
  rw [checkedDiv, if_neg hne]
  exact congrArg some (Fin.ext h.symm)

theorem checkedRem_of (hne : y.val ≠ 0) (h : z.val = x.val % y.val) : checkedRem x y = some z := by
  rw [checkedRem, if_neg hne]
  exact congrArg some (Fin.ext h.symm)

/-- Without an overflow the wrapped sum is the sum. -/
theorem add_val_of_lt (h : x.val + y.val < b) : (x + y).val = x.val + y.val := by
  rw [Fin.val_add, Nat.mod_eq_of_lt h]

/-- Without an overflow the wrapped product is the product. -/
theorem mul_val_of_lt (h : x.val * y.val < b) : (x * y).val = x.val * y.val := by
  rw [Fin.val_mul, Nat.mod_eq_of_lt h]

end

/-- A word as a narrower one, unless it does not fit (`try_from`). -/
def narrow {b : Nat} (b' : Nat) (x : Fin b) : Option (Fin b') :=
  if h : x.val < b' then some ⟨x.val, h⟩ else none

theorem narrow_val {b b' : Nat} {x : Fin b} {y : Fin b'} (h : narrow b' x = some y) :
    y.val = x.val := by
  unfold narrow at h
  split_ifs at h
  cases h
  rfl

/-- A word as a wider one. -/
def U16.toU128 (x : U16) : U128 := ⟨x.val, by have := x.isLt; omega⟩

/-- A word as a wider one. -/
def U64.toU128 (x : U64) : U128 := ⟨x.val, by have := x.isLt; omega⟩

/-- A word as a wider one. -/
def U16.toU64 (x : U16) : U64 := ⟨x.val, by have := x.isLt; omega⟩

/-- A word cut to 16 bits (`as u16`). -/
def U128.toU16 (x : U128) : U16 := ⟨x.val % 2 ^ 16, Nat.mod_lt _ (by decide)⟩

/-- The quotient rounded up; the divisor is not zero. -/
def U128.divCeil (x y : U128) : U128 := if x % y = 0 then x / y else x / y + 1

/-- The same, unless the divisor is zero. -/
def U128.checkedDivCeil (x y : U128) : Option U128 := do
  let d ← checkedDiv x y
  let r ← checkedRem x y
  if r > 0 then checkedAdd d 1 else return d

namespace U64

/-- The word closest to `n`. -/
def saturate (n : Nat) : U64 := ⟨min n (2 ^ 64 - 1), by omega⟩

theorem saturate_val (n : Nat) : (saturate n).val = min n (2 ^ 64 - 1) := rfl

def saturatingAdd (a b : U64) : U64 := saturate (a.val + b.val)

def saturatingMul (a b : U64) : U64 := saturate (a.val * b.val)

def saturatingSub (a b : U64) : U64 := ⟨a.val - b.val, by have := a.isLt; omega⟩

/-- A truth value as a word. -/
def ofBool (b : Bool) : U64 := if b then 1 else 0

end U64

namespace Json

/-- A word below `b`, written as digits only. -/
def asWord (b : Nat) (j : Json) : Option (Fin b) :=
  match h : asNat b j with
  | some n => some ⟨n, asNat_lt h⟩
  | none => none

theorem asWord_nat {b : Nat} (n : Fin b) : asWord b (nat n.val) = some n := by
  have h := asNat_nat n.isLt
  unfold asWord
  split
  · rename_i k hk
    rw [h] at hk
    obtain rfl := Option.some.inj hk
    rfl
  · rename_i hk
    rw [h] at hk
    cases hk

def u16 (n : U16) : Json := nat n.val

def u64 (n : U64) : Json := nat n.val

def asU16 (j : Json) : Option U16 := asWord (2 ^ 16) j

def asU64 (j : Json) : Option U64 := asWord (2 ^ 64) j

@[simp] theorem asU16_u16 (n : U16) : asU16 (u16 n) = some n := asWord_nat n

@[simp] theorem asU64_u64 (n : U64) : asU64 (u64 n) = some n := asWord_nat n

end Json

/-! ## 2. Strings -/

/-- What follows the prefix `p`. -/
def stripPrefix (p s : List Char) : Option (List Char) :=
  if p.isPrefixOf s then some (s.drop p.length) else none

/-- The characters with the Unicode property `White_Space`. -/
def isSpace (c : Char) : Bool :=
  let n := c.toNat
  9 ≤ n && n ≤ 13 || n = 0x20 || n = 0x85 || n = 0xA0 || n = 0x1680 ||
    0x2000 ≤ n && n ≤ 0x200A || n = 0x2028 || n = 0x2029 || n = 0x202F || n = 0x205F || n = 0x3000

def trim (s : List Char) : List Char :=
  ((s.dropWhile isSpace).reverse.dropWhile isSpace).reverse

theorem mem_dropWhile {p : Char → Bool} {c : Char} (hc : p c = false) {s : List Char} :
    c ∈ s.dropWhile p ↔ c ∈ s := by
  induction s with
  | nil => exact Iff.rfl
  | cons a s ih =>
    by_cases ha : p a = true
    · have hne : c ≠ a := fun h => by rw [h, ha] at hc; cases hc
      rw [List.dropWhile_cons_of_pos ha, ih, List.mem_cons, or_iff_right hne]
    · rw [List.dropWhile_cons_of_neg ha]

/-- Only spaces are trimmed. -/
theorem mem_trim {c : Char} (hc : isSpace c = false) {s : List Char} : c ∈ trim s ↔ c ∈ s := by
  rw [trim, List.mem_reverse, mem_dropWhile hc, List.mem_reverse, mem_dropWhile hc]

/-- What stands before the first `c` and what after it (`split_once`). -/
def splitOnce (c : Char) : List Char → Option (List Char × List Char)
  | [] => none
  | a :: s => if a = c then some ([], s) else (splitOnce c s).map fun p => (a :: p.1, p.2)

theorem splitOnce_append {c : Char} {l r : List Char} (hl : c ∉ l) :
    splitOnce c (l ++ c :: r) = some (l, r) := by
  induction l with
  | nil => rw [List.nil_append, splitOnce, if_pos rfl]
  | cons a l ih =>
    have hne : a ≠ c := fun h => hl (h ▸ List.mem_cons_self)
    rw [List.cons_append, splitOnce, if_neg hne, ih (List.not_mem_of_not_mem_cons hl)]
    rfl

theorem splitOnce_inv {c : Char} {s l r : List Char} (h : splitOnce c s = some (l, r)) :
    s = l ++ c :: r := by
  induction s generalizing l with
  | nil => cases h
  | cons a s ih =>
    rw [splitOnce] at h
    split_ifs at h with ha
    · cases h
      rw [ha]
      rfl
    · obtain ⟨⟨l', r'⟩, hs, he⟩ := Option.map_eq_some_iff.mp h
      cases he
      rw [ih hs]
      rfl

/-- The first separator divides a text in one way. -/
theorem append_cons_inj {c : Char} {l l' r r' : List Char} (hl : c ∉ l) (hl' : c ∉ l')
    (h : l ++ c :: r = l' ++ c :: r') : l = l' ∧ r = r' := by
  have hs := splitOnce_append (r := r) hl
  rw [h, splitOnce_append hl'] at hs
  exact Prod.mk.inj (Option.some.inj hs.symm)

/-- The lines of a text, without their line ends. -/
def lines (s : List Char) : List (List Char) :=
  let ls := s.splitOn '\n'
  let ls := if ls.getLast? = some [] then ls.dropLast else ls
  ls.map fun l => if l.getLast? = some '\r' then l.dropLast else l

/-- `s` with each occurrence of `pat` replaced, from the left; `n` bounds the replacements. -/
def replaceAll (pat sub : List Char) : Nat → List Char → List Char
  | 0, s => s
  | _, [] => []
  | n + 1, c :: s =>
    match stripPrefix pat (c :: s) with
    | some r => sub ++ replaceAll pat sub n r
    | none => c :: replaceAll pat sub n s

/-- `s` without trailing copies of `pat`; `n` bounds the copies removed. -/
def trimEndMatches (pat : List Char) : Nat → List Char → List Char
  | 0, s => s
  | n + 1, s =>
    if pat.isSuffixOf s ∧ pat ≠ [] then trimEndMatches pat n (s.take (s.length - pat.length))
    else s

/-- A decimal word, with an optional plus sign. -/
def parseU64 (s : List Char) : Option U64 :=
  let d := match s with
    | '+' :: r => r
    | _ => s
  if d ≠ [] ∧ d.all Char.isDigit then
    if h : Nat.ofDigitChars 10 d 0 < 2 ^ 64 then some ⟨Nat.ofDigitChars 10 d 0, h⟩ else none
  else none

/-- **What is read as a word**: digits, with or without the sign. -/
theorem parseU64_iff {s : List Char} {n : U64} : parseU64 s = some n ↔
    ∃ d, (s = d ∨ s = '+' :: d) ∧ d ≠ [] ∧ d.all Char.isDigit = true ∧
      n.val = Nat.ofDigitChars 10 d 0 := by
  have hread : ∀ d : List Char, (if d ≠ [] ∧ d.all Char.isDigit = true then
      if h : Nat.ofDigitChars 10 d 0 < 2 ^ 64 then some (⟨Nat.ofDigitChars 10 d 0, h⟩ : U64)
      else none else none) = some n ↔
      d ≠ [] ∧ d.all Char.isDigit = true ∧ n.val = Nat.ofDigitChars 10 d 0 := by
    intro d
    constructor
    · intro h
      split_ifs at h with hd hlt
      exact ⟨hd.1, hd.2, congrArg Fin.val (Option.some.inj h).symm⟩
    · intro h
      have hlt : Nat.ofDigitChars 10 d 0 < 2 ^ 64 := h.2.2 ▸ n.isLt
      rw [if_pos ⟨h.1, h.2.1⟩, dif_pos hlt]
      exact congrArg some (Fin.ext h.2.2.symm)
  unfold parseU64
  constructor
  · intro h
    refine ⟨_, ?_, (hread _).mp h⟩
    split
    · exact .inr rfl
    · exact .inl rfl
  · intro h
    obtain ⟨d, rfl | rfl, hd⟩ := h
    · refine (hread _).mpr ?_
      split
      · -- a sign is no digit
        exact absurd hd.2.1 (by simp)
      · exact hd
    · exact (hread d).mpr hd

/-- A decimal word of 32 bits: one of 64 bits that fits. -/
def parseU32 (s : List Char) : Option (Fin (2 ^ 32)) := (parseU64 s).bind (narrow (2 ^ 32))

/-- A character as `{:?}` shows it in a text. `prints`: which ones outside ASCII stand for
    themselves, by the tables of the standard library. -/
def debugChar (prints : Char → Bool) (c : Char) : List Char :=
  if c = '\x00' then ['\\', '0']
  else if c = '\t' then ['\\', 't']
  else if c = '\n' then ['\\', 'n']
  else if c = '\r' then ['\\', 'r']
  else if c = '"' ∨ c = '\\' then ['\\', c]
  else if (if c.val < 128 then decide (32 ≤ c.val ∧ c.val ≠ 127) else prints c) then [c]
  else ['\\', 'u', '\x7b'] ++ Nat.toDigits 16 c.toNat ++ ['\x7d']

/-- **A text as `{:?}` shows it.** -/
def debugText (prints : Char → Bool) (s : String) : String :=
  String.ofList ('"' :: (s.toList.flatMap (debugChar prints) ++ ['"']))

example : debugText (fun _ => false) "v\x1b\t\"é" =
    "\"v\\u\x7b1b\x7d\\t\\\"\\u\x7be9\x7d\"" := by decide

/-! ## 3. Hexadecimal -/

/-- Bytes as lowercase hexadecimal digits. -/
def hexEncode (bs : Bytes) : List Char :=
  bs.flatMap fun b => [Json.hexDigit (b.toNat / 16), Json.hexDigit (b.toNat % 16)]

/-- The bytes of hexadecimal digits of either case. -/
def hexDecode : List Char → Option Bytes
  | [] => some []
  | a :: b :: r => do
    return UInt8.ofNat ((← Json.hexVal a) * 16 + (← Json.hexVal b)) :: (← hexDecode r)
  | [_] => none

/-- A hexadecimal digit is in ASCII. -/
theorem Json.hexVal_lt {c : Char} (h : Json.hexVal c ≠ none) : c.toNat < 128 := by
  have hle : ∀ x : Char, x.toNat < 128 → c ≤ x → c.toNat < 128 := by
    intro x hx hcx
    exact Nat.lt_of_le_of_lt (UInt32.le_iff_toNat_le.mp hcx) hx
  unfold Json.hexVal at h
  split_ifs at h with h₁ h₂ h₃
  · exact hle _ (by decide) h₁.2
  · exact hle _ (by decide) h₂.2
  · exact hle _ (by decide) h₃.2
  · exact absurd rfl h

/-- **Hexadecimal digits in pairs are bytes.** -/
theorem hexDecode_pairs {n : Nat} {t : List Char} (hlen : t.length = 2 * n)
    (h : ∀ c ∈ t, Json.hexVal c ≠ none) : ∃ bs, hexDecode t = some bs ∧ bs.length = n := by
  induction n generalizing t with
  | zero =>
    obtain rfl := List.length_eq_zero_iff.mp hlen
    exact ⟨[], rfl, rfl⟩
  | succ n ih =>
    obtain ⟨a, t, rfl⟩ := List.exists_cons_of_length_eq_add_one (show t.length = 2 * n + 1 + 1 by omega)
    obtain ⟨b, t, rfl⟩ := List.exists_cons_of_length_eq_add_one (Nat.succ.inj hlen)
    obtain ⟨x, hx⟩ := Option.ne_none_iff_exists'.mp (h a List.mem_cons_self)
    obtain ⟨y, hy⟩ := Option.ne_none_iff_exists'.mp (h b (List.mem_cons_of_mem _ List.mem_cons_self))
    obtain ⟨bs, hbs, hl⟩ := ih (Nat.succ.inj (Nat.succ.inj hlen)) fun c hc =>
      h c (List.mem_cons_of_mem _ (List.mem_cons_of_mem _ hc))
    refine ⟨UInt8.ofNat (x * 16 + y) :: bs, ?_, congrArg Nat.succ hl⟩
    rw [hexDecode, hx, hy, hbs]
    rfl

/-- **Bytes are read back from their digits.** -/
theorem hexDecode_hexEncode (bs : Bytes) : hexDecode (hexEncode bs) = some bs := by
  have hdigit : ∀ n, n < 16 → Json.hexVal (Json.hexDigit n) = some n := by decide
  induction bs with
  | nil => rfl
  | cons b bs ih =>
    have hlt : b.toNat < 256 := b.toNat_lt
    have hb : UInt8.ofNat (b.toNat / 16 * 16 + b.toNat % 16) = b := by
      rw [Nat.div_add_mod', UInt8.ofNat_toNat]
    rw [hexEncode, List.flatMap_cons, ← hexEncode]
    show hexDecode (Json.hexDigit (b.toNat / 16) :: Json.hexDigit (b.toNat % 16) :: hexEncode bs) = _
    rw [hexDecode, hdigit _ (by omega), hdigit _ (by omega), ih]
    exact congrArg some (congrArg (· :: bs) hb)

end Library
