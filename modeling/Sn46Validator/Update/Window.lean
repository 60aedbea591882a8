/-
  File:      Update/Window.lean
  Subject:   THE MAINTENANCE WINDOW: how it is read, and when it is open.

  * `minutes`, `Window.parse` -- the source;
  * `TwoDigits`, `PlusDigit`, `IsTime`, `IsWindow` -- the form of a window, where a number is two
    digits, or a plus sign and one digit;
  * `minutes_iff`, `parse_iff` -- **what is accepted**: both forms of a number;
  * `contains_iff`, `contains_swap` -- a window is a part of a circle, and the rest is the window
    the other way;
  * `window_strict` -- the windows of the form `HH:MM-HH:MM` are the ones accepted, unless a plus
    sign stands for a digit; `window_signed` is such a text.
-/
import Mathlib.Data.List.Basic
import Sn46Validator.Library.JsonAscii
import Sn46Validator.Library.JsonValue
import Sn46Validator.Update.Run

namespace Sn46Validator.Update

open Library

/-! ## 1. The source -/

/-- `ok_or_else`. -/
def okOr {ε α : Type} (e : ε) : Option α → Except ε α
  | some a => .ok a
  | none => .error e

/-- The minute of the day that `HH:MM` names. Lengths are in bytes. -/
def minutes (part : List Char) : Option Nat := do
  let (hours, minutes) ← splitOnce ':' (trim part)
  if (Json.encodeUtf8 hours).length ≠ 2 ∨ (Json.encodeUtf8 minutes).length ≠ 2 then none
  else
    let hours ← parseU32 hours
    let minutes ← parseU32 minutes
    if hours.val < 24 ∧ minutes.val < 60 then some (hours.val * 60 + minutes.val) else none

/-- **`Window::parse`.** -/
def Window.parse (prints : Char → Bool) (text : String) : Except UpdateError Window := do
  let invalid : UpdateError :=
    .config ("UPDATE_WINDOW " ++ debugText prints text ++ " is not HH:MM-HH:MM")
  let (start, stop) ← okOr invalid (splitOnce '-' text.toList)
  let start ← okOr invalid (minutes start)
  let stop ← okOr invalid (minutes stop)
  if start = stop then .error invalid else .ok ⟨start, stop⟩

/-! ## 2. The form of a window -/

/-- Two digits. -/
def TwoDigits (s : List Char) (n : Nat) : Prop :=
  s.length = 2 ∧ s.all Char.isDigit = true ∧ n = Nat.ofDigitChars 10 s 0

/-- A plus sign and one digit. -/
def PlusDigit (s : List Char) (n : Nat) : Prop :=
  ∃ d, s = '+' :: d ∧ d.length = 1 ∧ d.all Char.isDigit = true ∧ n = Nat.ofDigitChars 10 d 0

/-- What the source accepts as a number. -/
def Number (s : List Char) (n : Nat) : Prop := TwoDigits s n ∨ PlusDigit s n

section

variable (number : List Char → Nat → Prop)

/-- **A time of the day**: two numbers and a colon between them. -/
def IsTime (t : List Char) (minute : Nat) : Prop :=
  ∃ h m hours mins, t = h ++ ':' :: m ∧ number h hours ∧ number m mins ∧ hours < 24 ∧ mins < 60 ∧
    minute = hours * 60 + mins

/-- **A window**: two times, which differ, a dash between them, and spaces around each. -/
def IsWindow (text : List Char) (window : Window) : Prop :=
  ∃ a b, text = a ++ '-' :: b ∧ IsTime number (trim a) window.start ∧
    IsTime number (trim b) window.stop ∧ window.start ≠ window.stop

end

/-- **A window that is written with a plus sign.** -/
def Signed (text : List Char) : Prop := '+' ∈ text ∧ ∃ window, IsWindow Number text window

theorem not_mem_of_digits {c : Char} (hc : c.isDigit = false) {d : List Char}
    (hd : d.all Char.isDigit = true) : c ∉ d := by
  intro h
  rw [List.all_eq_true.mp hd c h] at hc
  cases hc

/-- A number holds digits, and perhaps a sign. -/
theorem Number.not_mem {s : List Char} {n : Nat} (h : Number s n) {c : Char}
    (hc : c.isDigit = false) (hne : c ≠ '+') : c ∉ s := by
  rcases h with ⟨-, hd, -⟩ | ⟨d, rfl, -, hd, -⟩
  · exact not_mem_of_digits hc hd
  · exact List.not_mem_cons_of_ne_of_not_mem hne (not_mem_of_digits hc hd)

/-- Digits, with or without a sign, are in ASCII. -/
theorem signed_ascii {s d : List Char} (hs : s = d ∨ s = '+' :: d)
    (hd : d.all Char.isDigit = true) : Json.Ascii s := by
  have hall : Json.Ascii d := by
    intro c hc
    have hlt := (Json.digit_of_isDigit (List.all_eq_true.mp hd c hc)).1
    omega
  rcases hs with rfl | rfl
  · exact hall
  · exact List.forall_mem_cons.mpr ⟨by decide, hall⟩

/-- **Two bytes that are read as a word** are one of the two forms. -/
theorem number_iff {s : List Char} {n : Nat} : Number s n ↔
    (Json.encodeUtf8 s).length = 2 ∧ ∃ w, parseU32 s = some w ∧ w.val = n := by
  constructor
  · intro h
    obtain ⟨d, hs, hne, hd, hlen, rfl⟩ : ∃ d, (s = d ∨ s = '+' :: d) ∧ d ≠ [] ∧
        d.all Char.isDigit = true ∧ s.length = 2 ∧ n = Nat.ofDigitChars 10 d 0 := by
      rcases h with ⟨hlen, hd, hn⟩ | ⟨d, rfl, hlen, hd, hn⟩
      · exact ⟨s, .inl rfl, List.ne_nil_of_length_pos (by omega), hd, hlen, hn⟩
      · exact ⟨d, .inr rfl, List.ne_nil_of_length_pos (by omega), hd, congrArg Nat.succ hlen, hn⟩
    have hd2 : d.length ≤ 2 := by
      rcases hs with rfl | rfl
      · exact Nat.le_of_eq hlen
      · exact Nat.le_trans (Nat.le_succ _) (Nat.le_of_eq hlen)
    have hlt : Nat.ofDigitChars 10 d 0 < 100 :=
      Nat.lt_of_lt_of_le (Json.ofDigitChars_lt (List.all_eq_true.mp hd))
        (Nat.pow_le_pow_right (by decide) hd2)
    refine ⟨(Json.length_encodeUtf8_ascii (signed_ascii hs hd)).trans hlen, ?_⟩
    have hread : parseU64 s = some ⟨Nat.ofDigitChars 10 d 0, by omega⟩ :=
      parseU64_iff.mpr ⟨d, hs, hne, hd, rfl⟩
    refine ⟨⟨Nat.ofDigitChars 10 d 0, by omega⟩, ?_, rfl⟩
    rw [parseU32, hread, Option.bind_some, narrow, dif_pos (by dsimp only; omega)]
  · intro h
    obtain ⟨hlen, w, hw, rfl⟩ := h
    obtain ⟨x, hx, hnarrow⟩ := Option.bind_eq_some_iff.mp hw
    obtain ⟨d, hs, hne, hd, hval⟩ := parseU64_iff.mp hx
    rw [Json.length_encodeUtf8_ascii (signed_ascii hs hd)] at hlen
    have hn : w.val = Nat.ofDigitChars 10 d 0 := (narrow_val hnarrow).trans hval
    rcases hs with rfl | rfl
    · exact .inl ⟨hlen, hd, hn⟩
    · exact .inr ⟨d, rfl, Nat.succ.inj hlen, hd, hn⟩

/-! ## 3. What is accepted -/

/-- **A time that the source reads.** -/
theorem minutes_iff {part : List Char} {minute : Nat} :
    minutes part = some minute ↔ IsTime Number (trim part) minute := by
  constructor
  · intro h
    obtain ⟨⟨hours, mins⟩, hsplit, h⟩ := Option.bind_eq_some_iff.mp h
    dsimp only at h
    split_ifs at h with hlen
    rw [not_or, not_not, not_not] at hlen
    obtain ⟨x, hx, h⟩ := Option.bind_eq_some_iff.mp h
    obtain ⟨y, hy, h⟩ := Option.bind_eq_some_iff.mp h
    split_ifs at h with hrange
    exact ⟨hours, mins, x.val, y.val, splitOnce_inv hsplit, number_iff.mpr ⟨hlen.1, x, hx, rfl⟩,
      number_iff.mpr ⟨hlen.2, y, hy, rfl⟩, hrange.1, hrange.2, (Option.some.inj h).symm⟩
  · intro h
    obtain ⟨hours, mins, x, y, htrim, hx, hy, hx24, hy60, rfl⟩ := h
    have hcolon : ':' ∉ hours := hx.not_mem (by decide) (by decide)
    obtain ⟨hlen, v, hv, rfl⟩ := number_iff.mp hx
    obtain ⟨hlen', w, hw, rfl⟩ := number_iff.mp hy
    rw [minutes, htrim, splitOnce_append hcolon, Option.bind_eq_bind, Option.bind_some]
    dsimp only
    rw [if_neg (by rw [not_or, not_not, not_not]; exact ⟨hlen, hlen'⟩), hv, hw,
      Option.bind_eq_bind, Option.bind_some, Option.bind_some, if_pos ⟨hx24, hy60⟩]

theorem bind_okOr {ε α β : Type} {e : ε} {o : Option α} {f : α → Except ε β} {b : β} :
    (okOr e o >>= f) = .ok b ↔ ∃ a, o = some a ∧ f a = .ok b := by
  cases o with
  | none => exact ⟨nofun, nofun⟩
  | some a =>
    constructor
    · exact fun h => ⟨a, rfl, h⟩
    · intro h
      obtain ⟨_, ha, h⟩ := h
      rwa [Option.some.inj ha]

/-- A time holds no dash. -/
theorem IsTime.not_mem {part : List Char} {minute : Nat} (h : IsTime Number (trim part) minute) :
    '-' ∉ part := by
  obtain ⟨hours, mins, x, y, htrim, hx, hy, -⟩ := h
  rw [← mem_trim (by decide), htrim, List.mem_append, List.mem_cons]
  intro hmem
  rcases hmem with hmem | hmem | hmem
  · exact hx.not_mem (by decide) (by decide) hmem
  · exact absurd hmem (by decide)
  · exact hy.not_mem (by decide) (by decide) hmem

/-- **What the source accepts**: every window whose numbers are of one of the two forms. -/
theorem parse_iff {prints : Char → Bool} {text : String} {window : Window} :
    Window.parse prints text = .ok window ↔ IsWindow Number text.toList window := by
  unfold Window.parse IsWindow
  constructor
  · intro h
    obtain ⟨⟨a, b⟩, hsplit, h⟩ := bind_okOr.mp h
    obtain ⟨start, ha, h⟩ := bind_okOr.mp h
    obtain ⟨stop, hb, h⟩ := bind_okOr.mp h
    split_ifs at h with hne
    obtain rfl := Except.ok.inj h
    exact ⟨a, b, splitOnce_inv hsplit, minutes_iff.mp ha, minutes_iff.mp hb, hne⟩
  · intro h
    obtain ⟨a, b, htext, ha, hb, hne⟩ := h
    have hsplit : splitOnce '-' text.toList = some (a, b) := by
      rw [htext]
      exact splitOnce_append ha.not_mem
    exact bind_okOr.mpr ⟨(a, b), hsplit, bind_okOr.mpr ⟨window.start, minutes_iff.mpr ha,
      bind_okOr.mpr ⟨window.stop, minutes_iff.mpr hb, if_neg hne⟩⟩⟩

/-- **The windows `A-B` and `B-A` are accepted together.** -/
theorem parse_swap {prints : Char → Bool} {a b : String} {window : Window}
    (h : Window.parse prints (a ++ "-" ++ b) = .ok window) :
    Window.parse prints (b ++ "-" ++ a) = .ok ⟨window.stop, window.start⟩ := by
  obtain ⟨a', b', htext, ha, hb, hne⟩ := parse_iff.mp h
  have hdash : ("-" : String).toList = ['-'] := rfl
  rw [String.toList_append, String.toList_append, hdash, List.append_assoc,
    List.singleton_append] at htext
  -- the dash of the text is the only one
  obtain ⟨rfl, -, rfl⟩ := (List.append_cons_inj_of_notMem ha.not_mem hb.not_mem).mp htext.symm
  refine parse_iff.mpr ⟨b.toList, a.toList, ?_, hb, ha, hne.symm⟩
  rw [String.toList_append, String.toList_append, hdash, List.append_assoc, List.singleton_append]

/-! ## 4. When it is open -/

/-- The bounds of an accepted window. -/
theorem IsWindow.bounds {text : List Char} {window : Window} (h : IsWindow Number text window) :
    window.start < 1440 ∧ window.stop < 1440 ∧ window.start ≠ window.stop := by
  obtain ⟨a, b, -, ⟨_, _, x, y, -, -, -, hx, hy, hs⟩, ⟨_, _, x', y', -, -, -, hx', hy', he⟩, hne⟩ := h
  omega

/-- **A window is a part of a circle**: what lies less far after its start than its end does. -/
theorem contains_iff {window : Window} (h : window.start < 1440 ∧ window.stop < 1440 ∧
    window.start ≠ window.stop) (nowMs : U64) : window.contains nowMs = true ↔
      (((nowMs.val / 60000 % 1440 : ℕ) : ℤ) - window.start) % 1440 <
        ((window.stop : ℤ) - window.start) % 1440 := by
  obtain ⟨hs, he, hne⟩ := h
  have hm : nowMs.val / 60000 % 1440 < 1440 := Nat.mod_lt _ (by decide)
  unfold Window.contains
  dsimp only
  generalize nowMs.val / 60000 % 1440 = m at hm ⊢
  by_cases hlt : window.start < window.stop
  · rw [if_pos hlt, Bool.and_eq_true, decide_eq_true_eq, decide_eq_true_eq]
    omega
  · rw [if_neg hlt, Bool.or_eq_true, decide_eq_true_eq, decide_eq_true_eq]
    omega

/-- **The rest of the day** is the window the other way. -/
theorem contains_swap {window : Window} (hne : window.start ≠ window.stop) (nowMs : U64) :
    Window.contains ⟨window.stop, window.start⟩ nowMs = !window.contains nowMs := by
  unfold Window.contains
  dsimp only
  generalize nowMs.val / 60000 % 1440 = m
  by_cases hlt : window.start < window.stop
  · rw [if_pos hlt, if_neg (by omega), Bool.not_and, ← decide_not, ← decide_not, Bool.or_comm]
    simp only [Nat.not_le, Nat.not_lt]
  · rw [if_neg hlt, if_pos (by omega), Bool.not_or, ← decide_not, ← decide_not, Bool.and_comm]
    simp only [Nat.not_le, Nat.not_lt]

/-! ## 5. The form and the source -/

theorem TwoDigits.number {s : List Char} {n : Nat} (h : TwoDigits s n) : Number s n := .inl h

theorem IsTime.mono {p q : List Char → Nat → Prop} (hpq : ∀ s n, p s n → q s n) {t : List Char}
    {minute : Nat} (h : IsTime p t minute) : IsTime q t minute := by
  obtain ⟨hours, mins, x, y, ht, hx, hy, hrest⟩ := h
  exact ⟨hours, mins, x, y, ht, hpq _ _ hx, hpq _ _ hy, hrest⟩

theorem IsWindow.mono {p q : List Char → Nat → Prop} (hpq : ∀ s n, p s n → q s n)
    {text : List Char} {window : Window} (h : IsWindow p text window) :
    IsWindow q text window := by
  obtain ⟨a, b, ht, ha, hb, hne⟩ := h
  exact ⟨a, b, ht, ha.mono hpq, hb.mono hpq, hne⟩

/-- Without a plus sign, a number is two digits. -/
theorem Number.twoDigits {s : List Char} {n : Nat} (h : Number s n) (hplus : '+' ∉ s) :
    TwoDigits s n := by
  rcases h with h | ⟨d, rfl, -⟩
  · exact h
  · exact absurd List.mem_cons_self hplus

theorem IsTime.twoDigits {part : List Char} {minute : Nat}
    (h : IsTime Number (trim part) minute) (hplus : '+' ∉ part) :
    IsTime TwoDigits (trim part) minute := by
  obtain ⟨hours, mins, x, y, htrim, hx, hy, hrest⟩ := h
  rw [← mem_trim (by decide), htrim, List.mem_append, List.mem_cons, not_or, not_or] at hplus
  exact ⟨hours, mins, x, y, htrim, hx.twoDigits hplus.1, hy.twoDigits hplus.2.2, hrest⟩

theorem IsWindow.twoDigits {text : List Char} {window : Window} (h : IsWindow Number text window)
    (hplus : '+' ∉ text) : IsWindow TwoDigits text window := by
  obtain ⟨a, b, rfl, ha, hb, hne⟩ := h
  rw [List.mem_append, List.mem_cons, not_or, not_or] at hplus
  exact ⟨a, b, rfl, ha.twoDigits hplus.1, hb.twoDigits hplus.2.2, hne⟩

/-- A time of two digits each holds no plus sign. -/
theorem IsTime.no_plus {part : List Char} {minute : Nat} (h : IsTime TwoDigits (trim part) minute) :
    '+' ∉ part := by
  obtain ⟨hours, mins, x, y, htrim, hx, hy, -⟩ := h
  rw [← mem_trim (by decide), htrim, List.mem_append, List.mem_cons]
  intro hmem
  rcases hmem with hmem | hmem | hmem
  · exact not_mem_of_digits (by decide) hx.2.1 hmem
  · exact absurd hmem (by decide)
  · exact not_mem_of_digits (by decide) hy.2.1 hmem

theorem IsWindow.no_plus {text : List Char} {window : Window}
    (h : IsWindow TwoDigits text window) : '+' ∉ text := by
  obtain ⟨a, b, rfl, ha, hb, -⟩ := h
  rw [List.mem_append, List.mem_cons]
  intro hmem
  rcases hmem with hmem | hmem | hmem
  · exact ha.no_plus hmem
  · exact absurd hmem (by decide)
  · exact hb.no_plus hmem

/-- **The maintenance window.** A text is accepted if and only if it is of the form `HH:MM-HH:MM`,
    unless a plus sign stands in an hour or a minute of a text that is a window otherwise; what the
    form says is read; an accepted window is the part of the circle of 1440 minutes from its start
    to its end; and the window the other way is the rest of it. -/
theorem window_strict (prints : Char → Bool) (text : String) :
    (((∃ window, Window.parse prints text = .ok window) ↔
      ∃ window, IsWindow TwoDigits text.toList window) ↔ ¬Signed text.toList) ∧
    (∀ window, IsWindow TwoDigits text.toList window → Window.parse prints text = .ok window) ∧
    (∀ window, Window.parse prints text = .ok window → ∀ nowMs : U64,
      (window.contains nowMs = true ↔
        (((nowMs.val / 60000 % 1440 : ℕ) : ℤ) - window.start) % 1440 <
          ((window.stop : ℤ) - window.start) % 1440)) ∧
    ∀ (a b : String) (window : Window), text = a ++ "-" ++ b →
      Window.parse prints text = .ok window →
      ∃ other, Window.parse prints (b ++ "-" ++ a) = .ok other ∧
        ∀ nowMs : U64, other.contains nowMs = !window.contains nowMs := by
  refine ⟨?_, ?_, ?_, ?_⟩
  · constructor
    · intro h hsigned
      obtain ⟨hplus, window, hw⟩ := hsigned
      obtain ⟨_, hform⟩ := h.mp ⟨window, parse_iff.mpr hw⟩
      exact hform.no_plus hplus
    · intro hsigned
      constructor
      · intro h
        obtain ⟨window, hw⟩ := h
        have hform := parse_iff.mp hw
        exact ⟨window, hform.twoDigits fun hplus => hsigned ⟨hplus, window, hform⟩⟩
      · intro h
        obtain ⟨window, hw⟩ := h
        exact ⟨window, parse_iff.mpr (hw.mono fun _ _ => TwoDigits.number)⟩
  · exact fun _ h => parse_iff.mpr (h.mono fun _ _ => TwoDigits.number)
  · exact fun _ h nowMs => contains_iff (parse_iff.mp h).bounds nowMs
  · intro a b window htext h
    rw [htext] at h
    exact ⟨_, parse_swap h, contains_swap (parse_iff.mp h).bounds.2.2⟩

/-- **A sign is read as a digit**: this text is accepted, and it is not of the form. -/
theorem window_signed : Window.parse (fun _ => true) "+2:00-05:00" = .ok ⟨120, 300⟩ ∧
    ¬∃ window, IsWindow TwoDigits "+2:00-05:00".toList window := by
  constructor
  · refine parse_iff.mpr ⟨"+2:00".toList, "05:00".toList, by decide, ?_, ?_, by decide⟩
    · exact ⟨"+2".toList, "00".toList, 2, 0, by decide, .inr ⟨['2'], by decide⟩,
        .inl ⟨by decide, by decide, by decide⟩, by decide⟩
    · exact ⟨"05".toList, "00".toList, 5, 0, by decide, .inl ⟨by decide, by decide, by decide⟩,
        .inl ⟨by decide, by decide, by decide⟩, by decide⟩
  · intro h
    obtain ⟨_, hform⟩ := h
    exact hform.no_plus (by decide)

end Sn46Validator.Update
