/-
  File:      Library/Json.lean
  Subject:   JSON TEXTS: the syntax tree, a compact printer and a strict parser.

  * `Json` -- syntax trees. Numbers are kept as their text; an object keeps its members in the
    order of the text, duplicates included;
  * `Json.print enc` -- the compact text; `enc` spells one character of a string;
  * `Json.parse` -- the whole text: JSON whitespace around tokens, escapes with paired surrogates,
    no control characters in strings, at most 127 levels of nesting, nothing after the value;
  * `Json.toValue` -- objects as ordered maps: keys in order, the last of equal keys wins;
  * `Json.record` -- the fields of a structure, read from an object or from an array.
-/
import Mathlib.Algebra.Group.Nat.Defs
import Mathlib.Tactic.Common

namespace Library

/-! ## 1. Numbers -/

/-- An optional minus sign. -/
def scanSign : List Char → List Char × List Char
  | '-' :: r => (['-'], r)
  | r => ([], r)

/-- The integer part: a zero alone, or digits that do not start with one. -/
def scanInt : List Char → Option (List Char × List Char)
  | [] => none
  | c :: r =>
    if c = '0' then some (['0'], r)
    else if c.isDigit then some (c :: (r.span Char.isDigit).1, (r.span Char.isDigit).2)
    else none

/-- One or more digits. -/
def scanDigits (cs : List Char) : Option (List Char × List Char) :=
  match cs.span Char.isDigit with
  | ([], _) => none
  | (d, r) => some (d, r)

/-- An optional fraction. -/
def scanFrac : List Char → Option (List Char × List Char)
  | '.' :: r => (scanDigits r).map fun (d, r') => ('.' :: d, r')
  | r => some ([], r)

/-- The optional sign of an exponent. -/
def scanExpSign : List Char → List Char × List Char
  | '+' :: r => (['+'], r)
  | '-' :: r => (['-'], r)
  | r => ([], r)

/-- An optional exponent. -/
def scanExp : List Char → Option (List Char × List Char)
  | [] => some ([], [])
  | c :: r =>
    if c = 'e' ∨ c = 'E' then
      (scanDigits (scanExpSign r).2).map fun (d, r') => (c :: ((scanExpSign r).1 ++ d), r')
    else some ([], c :: r)

/-- The longest number at the start of a text, and what follows it. -/
def scanNumber (cs : List Char) : Option (List Char × List Char) := do
  let (i, r) ← scanInt (scanSign cs).2
  let (f, r) ← scanFrac r
  let (e, r) ← scanExp r
  return ((scanSign cs).1 ++ i ++ f ++ e, r)

/-- **A number**: a text the grammar accepts whole. -/
abbrev JsonNumber : Type := { t : List Char // scanNumber t = some (t, []) }

/-! ## 2. Syntax trees and their text -/

/-- **JSON syntax trees.** -/
inductive Json where
  | null
  | bool (b : Bool)
  | number (n : JsonNumber)
  | string (s : String)
  | array (xs : List Json)
  | object (ms : List (String × Json))

namespace Json

/-- A lowercase hexadecimal digit. -/
def hexDigit (n : Nat) : Char := Nat.digitChar n

/-- One UTF-16 unit as an escape. -/
def unitEscape (n : Nat) : List Char :=
  ['\\', 'u', hexDigit (n / 4096 % 16), hexDigit (n / 256 % 16), hexDigit (n / 16 % 16),
    hexDigit (n % 16)]

/-- A character inside a string: only quotes, backslashes and control characters are escaped. -/
def escapeChar (c : Char) : List Char :=
  if c = '"' then ['\\', '"']
  else if c = '\\' then ['\\', '\\']
  else if c = '\n' then ['\\', 'n']
  else if c = '\r' then ['\\', 'r']
  else if c = '\t' then ['\\', 't']
  else if c.toNat = 8 then ['\\', 'b']
  else if c.toNat = 12 then ['\\', 'f']
  else if c.toNat < 32 then unitEscape c.toNat
  else [c]

/-- A string with its quotes. -/
def printString (enc : Char → List Char) (s : String) : List Char :=
  '"' :: (s.toList.flatMap enc ++ ['"'])

mutual

/-- **The compact text.** -/
def print (enc : Char → List Char) : Json → List Char
  | .null => ['n', 'u', 'l', 'l']
  | .bool true => ['t', 'r', 'u', 'e']
  | .bool false => ['f', 'a', 'l', 's', 'e']
  | .number n => n.1
  | .string s => printString enc s
  | .array [] => ['[', ']']
  | .array (x :: xs) => '[' :: (print enc x ++ printItems enc xs)
  | .object [] => ['{', '}']
  | .object ((k, v) :: ms) =>
    '{' :: (printString enc k ++ ':' :: (print enc v ++ printMembers enc ms))

/-- The items after the first, and the closing bracket. -/
def printItems (enc : Char → List Char) : List Json → List Char
  | [] => [']']
  | x :: xs => ',' :: (print enc x ++ printItems enc xs)

/-- The members after the first, and the closing brace. -/
def printMembers (enc : Char → List Char) : List (String × Json) → List Char
  | [] => ['}']
  | (k, v) :: ms => ',' :: (printString enc k ++ ':' :: (print enc v ++ printMembers enc ms))

end

/-! ## 3. The parser -/

def isWhitespace (c : Char) : Bool := c = ' ' || c = '\n' || c = '\t' || c = '\r'

def skipWs (cs : List Char) : List Char := cs.dropWhile isWhitespace

/-- The value of a hexadecimal digit. -/
def hexVal (c : Char) : Option Nat :=
  if '0' ≤ c ∧ c ≤ '9' then some (c.toNat - '0'.toNat)
  else if 'a' ≤ c ∧ c ≤ 'f' then some (c.toNat - 'a'.toNat + 10)
  else if 'A' ≤ c ∧ c ≤ 'F' then some (c.toNat - 'A'.toNat + 10)
  else none

/-- Four hexadecimal digits. -/
def hexUnit (a b c d : Char) : Option Nat := do
  return (← hexVal a) * 4096 + (← hexVal b) * 256 + (← hexVal c) * 16 + (← hexVal d)

/-- The character a one-letter escape stands for. -/
def simpleEscape : Char → Option Char
  | '"' => some '"'
  | '\\' => some '\\'
  | '/' => some '/'
  | 'b' => some (Char.ofNat 8)
  | 'f' => some (Char.ofNat 12)
  | 'n' => some '\n'
  | 'r' => some '\r'
  | 't' => some '\t'
  | _ => none

/-- Put a character in front of a parsed rest. -/
def push (c : Char) (r : Option (List Char × List Char)) : Option (List Char × List Char) :=
  r.map fun (s, r) => (c :: s, r)

/-- The character of a surrogate pair. -/
def pairChar (hi lo : Nat) : Char := Char.ofNat (0x10000 + (hi - 0xD800) * 1024 + (lo - 0xDC00))

/-- **A string up to its closing quote.** -/
def stringBody : List Char → Option (List Char × List Char)
  | [] => none
  | '"' :: r => some ([], r)
  | '\\' :: 'u' :: a :: b :: c :: d :: r =>
    match hexUnit a b c d with
    | none => none
    | some n =>
      if n < 0xD800 ∨ 0xE000 ≤ n then push (Char.ofNat n) (stringBody r)
      else if 0xDC00 ≤ n then none
      else
        match r with
        | '\\' :: 'u' :: a' :: b' :: c' :: d' :: r' =>
          match hexUnit a' b' c' d' with
          | none => none
          | some m =>
            if 0xDC00 ≤ m ∧ m < 0xE000 then push (pairChar n m) (stringBody r') else none
        | _ => none
  | '\\' :: e :: r =>
    match simpleEscape e with
    | none => none
    | some c => push c (stringBody r)
  | c :: r => if c.toNat < 32 ∨ c = '\\' then none else push c (stringBody r)

mutual

/-- **A value** at the start of a text; `depth` is the nesting still allowed. -/
def value : Nat → Nat → List Char → Option (Json × List Char)
  | 0, _, _ => none
  | n + 1, depth, cs =>
    match skipWs cs with
    | 'n' :: 'u' :: 'l' :: 'l' :: r => some (.null, r)
    | 't' :: 'r' :: 'u' :: 'e' :: r => some (.bool true, r)
    | 'f' :: 'a' :: 'l' :: 's' :: 'e' :: r => some (.bool false, r)
    | '"' :: r => (stringBody r).map fun (s, r) => (.string (String.ofList s), r)
    | '[' :: r =>
      if depth ≤ 1 then none
      else
        match skipWs r with
        | ']' :: r => some (.array [], r)
        | r => (items n (depth - 1) r).map fun (xs, r) => (.array xs, r)
    | '{' :: r =>
      if depth ≤ 1 then none
      else
        match skipWs r with
        | '}' :: r => some (.object [], r)
        | r => (members n (depth - 1) r).map fun (ms, r) => (.object ms, r)
    | r =>
      match scanNumber r with
      | none => none
      | some (t, r) => if h : scanNumber t = some (t, []) then some (.number ⟨t, h⟩, r) else none

/-- One or more items and the closing bracket. -/
def items : Nat → Nat → List Char → Option (List Json × List Char)
  | 0, _, _ => none
  | n + 1, depth, cs =>
    match value n depth cs with
    | none => none
    | some (x, r) =>
      match skipWs r with
      | ']' :: r => some ([x], r)
      | ',' :: r => (items n depth r).map fun (xs, r) => (x :: xs, r)
      | _ => none

/-- One or more members and the closing brace. -/
def members : Nat → Nat → List Char → Option (List (String × Json) × List Char)
  | 0, _, _ => none
  | n + 1, depth, cs =>
    match skipWs cs with
    | '"' :: r =>
      match stringBody r with
      | none => none
      | some (k, r) =>
        match skipWs r with
        | ':' :: r =>
          match value n depth r with
          | none => none
          | some (v, r) =>
            match skipWs r with
            | '}' :: r => some ([(String.ofList k, v)], r)
            | ',' :: r => (members n depth r).map fun (ms, r) => ((String.ofList k, v) :: ms, r)
            | _ => none
        | _ => none
    | _ => none

end

/-- **A whole text.** -/
def parse (cs : List Char) : Option Json :=
  match value (2 * cs.length + 2) 128 cs with
  | some (v, r) => if skipWs r = [] then some v else none
  | none => none

/-! ## 4. Values -/

/-- Put a member into an ordered map. -/
def insertMember (k : String) (v : Json) : List (String × Json) → List (String × Json)
  | [] => [(k, v)]
  | (k', v') :: ms =>
    if k < k' then (k, v) :: (k', v') :: ms
    else if k = k' then (k, v) :: ms
    else (k', v') :: insertMember k v ms

mutual

/-- **The tree as a value**: every object an ordered map. -/
def toValue : Json → Json
  | .array xs => .array (itemsToValue xs)
  | .object ms => .object (membersToValue [] ms)
  | j => j

def itemsToValue : List Json → List Json
  | [] => []
  | x :: xs => toValue x :: itemsToValue xs

def membersToValue (acc : List (String × Json)) : List (String × Json) → List (String × Json)
  | [] => acc
  | (k, v) :: ms => membersToValue (insertMember k (toValue v) acc) ms

end

/-- The text of a value with its keys in order and the usual escapes. -/
def canonical (j : Json) : List Char := print escapeChar (toValue j)

/-! ## 5. Reading a value -/

def isNull : Json → Bool
  | .null => true
  | _ => false

def asString : Json → Option String
  | .string s => some s
  | _ => none

def asBool : Json → Option Bool
  | .bool b => some b
  | _ => none

def asArray : Json → Option (List Json)
  | .array xs => some xs
  | _ => none

/-- A non-negative number below `bound`, written as digits only. -/
def asNat (bound : Nat) : Json → Option Nat
  | .number n =>
    if n.1.all Char.isDigit then
      let k := Nat.ofDigitChars 10 n.1 0
      if k < bound then some k else none
    else none
  | _ => none

/-- `null`, or a value `f` reads. -/
def asOption {α : Type} (f : Json → Option α) : Json → Option (Option α)
  | .null => some none
  | j => (f j).map some

/-- **The fields of a structure** as a partial function of their names. An object must not repeat a
    known name and, with `strict`, must hold no other; an array holds the fields in order. -/
def record (strict : Bool) (names : List String) : Json → Option (String → Option Json)
  | .object ms =>
    let known := (ms.map (·.1)).filter (· ∈ names)
    if known.Nodup ∧ (strict → known.length = ms.length) then some (ms.lookup ·) else none
  | .array xs => if xs.length ≤ names.length then some ((names.zip xs).lookup ·) else none
  | _ => none

/-- An object that has just these fields, in order. -/
theorem record_object (strict : Bool) {names : List String} {ms : List (String × Json)}
    (h : ms.map (·.1) = names) (hn : names.Nodup) :
    record strict names (.object ms) = some (ms.lookup ·) := by
  have hknown : (ms.map (·.1)).filter (· ∈ names) = names := by
    rw [h]
    exact List.filter_eq_self.mpr fun _ ha => decide_eq_true ha
  have hlen : names.length = ms.length := by rw [← h, List.length_map]
  simp only [record, hknown]
  exact if_pos ⟨hn, fun _ => hlen⟩

end Json

end Library
