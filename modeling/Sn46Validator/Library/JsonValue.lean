/-
  File:      Library/JsonValue.lean
  Subject:   ONE SPELLING A VALUE: what a reader that succeeds says about the tree it read.

  * `Sorted`, `membersToValue_sorted` -- the members of an object of a value are in the order of
    their keys, each key once;
  * `asString_inv`, `asNat_inv` -- a string or a number that is read is spelled in one way;
  * `record_inv` -- a structure without other fields is an object of just its fields or an array
    of them in order;
  * `lookup_membersToValue` -- a name that is repeated has its last value.
-/
import Mathlib.Data.List.Induction
import Mathlib.Data.List.Perm.Subperm
import Sn46Validator.Library.Text

namespace Library

namespace Json

/-! ## 1. Values are sorted -/

/-- **Every key once, in order.** -/
def Sorted (ms : List (String × Json)) : Prop := ms.Pairwise fun x y => x.1 < y.1

theorem mem_insertMember {k : String} {v : Json} {ms : List (String × Json)}
    {m : String × Json} (h : m ∈ insertMember k v ms) : m = (k, v) ∨ m ∈ ms := by
  induction ms with
  | nil => exact .inl (List.mem_singleton.mp h)
  | cons m' ms ih =>
    obtain ⟨k', v'⟩ := m'
    unfold insertMember at h
    split_ifs at h with hlt heq
    · exact List.mem_cons.mp h
    · rcases List.mem_cons.mp h with rfl | h
      · exact .inl rfl
      · exact .inr (List.mem_cons_of_mem _ h)
    · rcases List.mem_cons.mp h with rfl | h
      · exact .inr List.mem_cons_self
      · rcases ih h with he | hm
        · exact .inl he
        · exact .inr (List.mem_cons_of_mem _ hm)

theorem insertMember_sorted {k : String} {v : Json} {ms : List (String × Json)} (h : Sorted ms) :
    Sorted (insertMember k v ms) := by
  induction ms with
  | nil => exact List.pairwise_singleton _ _
  | cons m ms ih =>
    obtain ⟨k', v'⟩ := m
    obtain ⟨hhead, htail⟩ := List.pairwise_cons.mp h
    unfold insertMember
    split_ifs with hlt heq
    · refine List.pairwise_cons.mpr ⟨fun x hx => ?_, h⟩
      rcases List.mem_cons.mp hx with rfl | hx
      · exact hlt
      · exact String.lt_trans hlt (hhead x hx)
    · rw [heq]
      exact List.pairwise_cons.mpr ⟨hhead, htail⟩
    · refine List.pairwise_cons.mpr ⟨fun x hx => ?_, ih htail⟩
      rcases mem_insertMember hx with rfl | hx
      · -- the order is total
        show k' < k
        by_contra hno
        exact heq (String.le_antisymm (String.not_lt.mp hno) (String.not_lt.mp hlt))
      · exact hhead x hx

theorem membersToValue_sorted (ms : List (String × Json)) {acc : List (String × Json)}
    (h : Sorted acc) : Sorted (membersToValue acc ms) := by
  induction ms generalizing acc with
  | nil => exact h
  | cons m ms ih => exact ih (insertMember_sorted h)

/-- The members of a value are values. -/
theorem mem_membersToValue {ms acc : List (String × Json)} {m : String × Json}
    (h : m ∈ membersToValue acc ms) : m ∈ acc ∨ ∃ j, m.2 = toValue j := by
  induction ms generalizing acc with
  | nil => exact .inl h
  | cons m' ms ih =>
    rcases ih h with hm | hj
    · rcases mem_insertMember hm with rfl | hm
      · exact .inr ⟨m'.2, rfl⟩
      · exact .inl hm
    · exact .inr hj

theorem mem_itemsToValue {xs : List Json} {v : Json} (h : v ∈ itemsToValue xs) :
    ∃ j, v = toValue j := by
  induction xs with
  | nil => cases h
  | cons x xs ih =>
    rcases List.mem_cons.mp h with rfl | h
    · exact ⟨x, rfl⟩
    · exact ih h

/-- An object that is a value. -/
theorem toValue_object {j : Json} {ms : List (String × Json)} (h : toValue j = .object ms) :
    Sorted ms ∧ ∀ m ∈ ms, ∃ j', m.2 = toValue j' := by
  cases j with
  | object ms' =>
    obtain rfl := Json.object.inj h
    refine ⟨membersToValue_sorted ms' List.Pairwise.nil, fun m hm => ?_⟩
    rcases mem_membersToValue hm with hm | hj
    · cases hm
    · exact hj
  | _ => cases h

/-- An array that is a value. -/
theorem toValue_array {j : Json} {xs : List Json} (h : toValue j = .array xs) :
    ∀ x ∈ xs, ∃ j', x = toValue j' := by
  cases j with
  | array xs' =>
    obtain rfl := Json.array.inj h
    exact fun x hx => mem_itemsToValue hx
  | _ => cases h

/-! ## 2. Strings and numbers -/

theorem asString_inv {j : Json} {s : String} (h : asString j = some s) : j = .string s := by
  cases j with
  | string t =>
    obtain rfl := Option.some.inj h
    rfl
  | _ => cases h

theorem digit_of_isDigit {c : Char} (h : c.isDigit = true) :
    c.toNat - 48 < 10 ∧ (c.toNat - 48).digitChar = c := by
  simp only [Char.isDigit, Bool.and_eq_true, decide_eq_true_eq, UInt32.le_iff_toNat_le] at h
  have h0 : 48 ≤ c.toNat := h.1
  have h9 : c.toNat ≤ 57 := h.2
  have hall : ∀ k, k < 10 → k.digitChar = Char.ofNat (k + 48) := by decide
  refine ⟨by omega, ?_⟩
  rw [hall _ (by omega), Nat.sub_add_cancel h0, Char.ofNat_toNat]

/-- A number has no more digits than are written. -/
theorem ofDigitChars_lt {l : List Char} (hd : ∀ c ∈ l, c.isDigit = true) :
    Nat.ofDigitChars 10 l 0 < 10 ^ l.length := by
  induction l using List.reverseRecOn with
  | nil => decide
  | append_singleton l c ih =>
    have hlt := (digit_of_isDigit (hd c (List.mem_append_right _ List.mem_cons_self))).1
    have hl := ih fun x hx => hd x (List.mem_append_left _ hx)
    rw [Nat.ofDigitChars_append, Nat.ofDigitChars_cons, Nat.ofDigitChars_nil, List.length_append,
      List.length_singleton, Nat.pow_succ]
    rw [show ('0' : Char).toNat = 48 from rfl]
    omega

/-- **Digits without a leading zero** are the decimal text of their number. -/
theorem toDigits_ofDigitChars {l : List Char} (hd : ∀ c ∈ l, c.isDigit = true) (hne : l ≠ [])
    (h0 : l.head? ≠ some '0') : Nat.toDigits 10 (Nat.ofDigitChars 10 l 0) = l := by
  induction l using List.reverseRecOn with
  | nil => exact absurd rfl hne
  | append_singleton l c ih =>
    obtain ⟨hlt, hc⟩ := digit_of_isDigit (hd c (List.mem_append_right _ List.mem_cons_self))
    rw [Nat.ofDigitChars_append, Nat.ofDigitChars_cons, Nat.ofDigitChars_nil]
    cases l with
    | nil =>
      rw [Nat.ofDigitChars_nil, Nat.mul_zero, Nat.zero_add]
      rw [show ('0' : Char).toNat = 48 from rfl, Nat.toDigits_of_lt_base hlt, hc]
      rfl
    | cons a l =>
      have hl := ih (fun x hx => hd x (List.mem_append_left _ hx)) (List.cons_ne_nil _ _) h0
      have hpos : 0 < Nat.ofDigitChars 10 (a :: l) 0 := by
        by_contra hz
        rw [show Nat.ofDigitChars 10 (a :: l) 0 = 0 by omega] at hl
        obtain rfl : '0' = a := (List.cons.inj hl).1
        exact h0 rfl
      rw [show ('0' : Char).toNat = 48 from rfl,
        ← Nat.toDigits_append_toDigits (by decide) hpos hlt, hl, Nat.toDigits_of_lt_base hlt, hc]

/-- After a leading zero a number of digits only is over. -/
theorem number_zero {t : List Char} (hd : ∀ c ∈ t, c.isDigit = true)
    (h : scanNumber ('0' :: t) = some ('0' :: t, [])) : t = [] := by
  obtain ⟨i, r₁, f, r₂, e, hi, hf, he, -⟩ := scanNumber_eq h
  have hi' : scanInt ('0' :: t) = some (['0'], t) := rfl
  obtain ⟨rfl, rfl⟩ := Prod.mk.inj (Option.some.inj (hi'.symm.trans hi))
  cases t with
  | nil => rfl
  | cons c t =>
    have hc := hd c List.mem_cons_self
    have hfrac : scanFrac (c :: t) = some ([], c :: t) := by
      unfold scanFrac
      split
      · rename_i heq
        rw [(List.cons.inj heq).1] at hc
        exact absurd hc (by decide)
      · rfl
    have hexp : scanExp (c :: t) = some ([], c :: t) := by
      rw [scanExp, if_neg]
      intro hor
      rcases hor with rfl | rfl <;> exact absurd hc (by decide)
    obtain ⟨rfl, rfl⟩ := Prod.mk.inj (Option.some.inj (hfrac.symm.trans hf))
    rw [hexp] at he
    cases he

theorem asNat_inv {bound n : Nat} {j : Json} (h : asNat bound j = some n) : j = nat n := by
  cases j with
  | number x =>
    simp only [asNat] at h
    split_ifs at h with hall hlt
    obtain rfl := Option.some.inj h
    have hd : ∀ c ∈ x.1, c.isDigit = true := List.all_eq_true.mp hall
    obtain ⟨c, t, hx, -⟩ := number_head x
    have hdigits : Nat.toDigits 10 (Nat.ofDigitChars 10 x.1 0) = x.1 := by
      by_cases hc : c = '0'
      · subst hc
        have hscan := x.2
        rw [hx] at hscan hd ⊢
        rw [number_zero (fun c hc => hd c (List.mem_cons_of_mem _ hc)) hscan]
        rfl
      · refine toDigits_ofDigitChars hd (by rw [hx]; exact List.cons_ne_nil _ _) ?_
        rw [hx]
        exact fun he => hc (Option.some.inj he)
    exact congrArg Json.number (Subtype.ext hdigits.symm)
  | _ => cases h

theorem asU64_inv {j : Json} {n : U64} (h : asU64 j = some n) : j = u64 n := by
  unfold asU64 asWord at h
  split at h
  · rename_i k hk
    obtain rfl := Option.some.inj h
    exact asNat_inv hk
  · cases h

/-! ## 3. Structures -/

theorem mem_of_lookup {α : Type} {k : String} {v : α} {l : List (String × α)}
    (h : l.lookup k = some v) : (k, v) ∈ l := by
  obtain ⟨l₁, l₂, rfl, -⟩ := List.lookup_eq_some_iff.mp h
  exact List.mem_append_right _ List.mem_cons_self

/-- **The tree of a structure without other fields**, all of which are found: an object of just
    these fields in their order, or an array of their values. -/
theorem record_inv {names : List String} {j : Json} {field : String → Option Json}
    (hn : names.Pairwise (· < ·)) (hs : ∀ ms, j = .object ms → Sorted ms)
    (h : record true names j = some field) (hall : ∀ k ∈ names, ∃ x, field k = some x) :
    ∃ vs, vs.length = names.length ∧ field = ((names.zip vs).lookup ·) ∧
      (j = .object (names.zip vs) ∨ j = .array vs) := by
  have hnodup : names.Nodup := hn.imp fun hlt => String.ne_of_lt hlt
  cases j with
  | object ms =>
    simp only [record] at h
    split_ifs at h with hok
    obtain rfl := Option.some.inj h
    have hkeys : ∀ k ∈ ms.map (·.1), k ∈ names := by
      intro k hk
      have hlen : ((ms.map (·.1)).filter (· ∈ names)).length = (ms.map (·.1)).length := by
        rw [List.length_map]
        exact hok.2 trivial
      exact of_decide_eq_true (List.length_filter_eq_length_iff.mp hlen k hk)
    have hsorted : (ms.map (·.1)).Pairwise (· < ·) := List.pairwise_map.mpr (hs ms rfl)
    have hperm : (ms.map (·.1)).Perm names := by
      refine (List.perm_ext_iff_of_nodup (hsorted.imp fun hlt => String.ne_of_lt hlt) hnodup).mpr
        fun k => ⟨hkeys k, fun hk => ?_⟩
      obtain ⟨x, hx⟩ := hall k hk
      exact List.mem_map_of_mem (mem_of_lookup hx)
    have hk : ms.map (·.1) = names := hperm.eq_of_pairwise
      (fun a b _ _ hab hba => absurd hab (String.lt_asymm hba)) hsorted hn
    have hzip : names.zip (ms.map (·.2)) = ms := (List.zip_of_prod hk rfl).symm
    refine ⟨ms.map (·.2), ?_, ?_, .inl ?_⟩
    · rw [← hk, List.length_map, List.length_map]
    · rw [hzip]
    · rw [hzip]
  | array xs =>
    simp only [record] at h
    split_ifs at h with hle
    obtain rfl := Option.some.inj h
    refine ⟨xs, le_antisymm hle ?_, rfl, .inr rfl⟩
    have hsub : names ⊆ (names.zip xs).map Prod.fst := by
      intro k hk
      obtain ⟨x, hx⟩ := hall k hk
      exact List.mem_map_of_mem (mem_of_lookup hx)
    have hlen := (List.subperm_of_subset hnodup hsub).length_le
    rw [List.length_map, List.length_zip] at hlen
    omega
  | _ => cases h

/-! ## 4. Members by name -/

/-- A member of an object, by its name. -/
def get (j : Json) (name : String) : Option Json :=
  match j with
  | .object ms => ms.lookup name
  | _ => none

theorem lookup_member (k k' : String) (v : Json) (ms : List (String × Json)) :
    ((k, v) :: ms).lookup k' = if k' = k then some v else ms.lookup k' := by
  rw [List.lookup_cons]
  by_cases h : k' = k
  · rw [if_pos h, beq_iff_eq.mpr h]
  · rw [if_neg h, beq_eq_false_iff_ne.mpr h]

theorem lookup_insertMember (k k' : String) (v : Json) (ms : List (String × Json)) :
    (insertMember k v ms).lookup k' = if k' = k then some v else ms.lookup k' := by
  induction ms with
  | nil => exact lookup_member k k' v []
  | cons m ms ih =>
    obtain ⟨k₀, v₀⟩ := m
    by_cases hlt : k < k₀
    · rw [insertMember, if_pos hlt, lookup_member]
    · by_cases hk : k = k₀
      · rw [insertMember, if_neg hlt, if_pos hk, lookup_member, lookup_member, hk]
        split_ifs <;> rfl
      · rw [insertMember, if_neg hlt, if_neg hk, lookup_member, lookup_member, ih]
        by_cases h₀ : k' = k₀
        · rw [if_pos h₀, if_pos h₀, if_neg fun h => hk (h.symm.trans h₀)]
        · rw [if_neg h₀, if_neg h₀]

/-- **The last member of a name is the one of the value.** -/
theorem lookup_membersToValue (k : String) (acc ms : List (String × Json)) :
    (membersToValue acc ms).lookup k = ((ms.reverse.lookup k).map toValue).or (acc.lookup k) := by
  induction ms generalizing acc with
  | nil => rfl
  | cons m ms ih =>
    obtain ⟨k₀, v₀⟩ := m
    rw [membersToValue, ih, lookup_insertMember, List.reverse_cons, List.lookup_append,
      lookup_member]
    cases ms.reverse.lookup k with
    | some v => rfl
    | none => split_ifs <;> rfl

/-- A name that is not repeated. -/
theorem lookup_reverse {k : String} {ms : List (String × Json)}
    (h : ((ms.map (·.1)).filter (· ∈ [k])).Nodup) : ms.reverse.lookup k = ms.lookup k := by
  induction ms with
  | nil => rfl
  | cons m ms ih =>
    obtain ⟨k₀, v₀⟩ := m
    rw [List.reverse_cons, List.lookup_append, lookup_member, lookup_member]
    by_cases hk : k = k₀
    · rw [List.map_cons, List.filter_cons_of_pos (by simp [hk])] at h
      have hnone : ms.reverse.lookup k = none := by
        refine List.lookup_eq_none_iff.mpr fun p hp => ?_
        rw [bne_iff_ne]
        intro he
        refine (List.nodup_cons.mp h).1 (List.mem_filter.mpr ⟨?_, by simp [hk]⟩)
        exact List.mem_map.mpr ⟨p, List.mem_reverse.mp hp, (he.symm.trans hk)⟩
      rw [hnone, if_pos hk, if_pos hk, Option.none_or]
    · rw [List.map_cons, List.filter_cons_of_neg (by simp [Ne.symm hk])] at h
      rw [ih h, if_neg hk, if_neg hk, List.lookup_nil, Option.or_none]

end Json

end Library
