/-
  File:      Library/Table.lean
  Subject:   ORDERED TABLES: words by key, as lists in the order of their keys.

  * `Ascending` -- every key once, in order; `valueAt` -- the word of a key, 0 where it has none;
  * `Ascending.ext` -- ordered tables without zeros that agree at every key are equal;
  * `Ascending.valueAt_filter`, `valueAt_map` -- what dropping zeros and scaling do;
  * `accumulate` -- one more word on top of what its key has: `accumulate_comm`, `accumulate_add`,
    and from them that neither the order nor the portions of what is added matter.
-/
import Mathlib.Algebra.BigOperators.Group.List.Basic
import Mathlib.Algebra.GroupWithZero.Nat
import Mathlib.Data.Fin.Basic

namespace Library

variable {κ : Type} [LinearOrder κ] {b b' : ℕ}

/-- **Every key once, in order.** -/
def Ascending (l : List (κ × Fin b)) : Prop := l.Pairwise fun x y => x.1 < y.1

/-- The word of a key, 0 where it has none. -/
def valueAt (k : κ) : List (κ × Fin b) → ℕ
  | [] => 0
  | (k', x) :: l => if k = k' then x.val else valueAt k l

@[simp] theorem valueAt_nil (k : κ) : valueAt k ([] : List (κ × Fin b)) = 0 := rfl

@[simp] theorem valueAt_cons (k : κ) (e : κ × Fin b) (l : List (κ × Fin b)) :
    valueAt k (e :: l) = if k = e.1 then e.2.val else valueAt k l := rfl

theorem valueAt_of_not_mem {k : κ} {l : List (κ × Fin b)} (h : ∀ e ∈ l, e.1 ≠ k) :
    valueAt k l = 0 := by
  induction l with
  | nil => rfl
  | cons e l ih =>
    rw [valueAt_cons, if_neg fun hk => h e List.mem_cons_self hk.symm]
    exact ih fun e' he' => h e' (List.mem_cons_of_mem _ he')

theorem valueAt_lt [NeZero b] (k : κ) (l : List (κ × Fin b)) : valueAt k l < b := by
  induction l with
  | nil => exact Nat.pos_of_neZero b
  | cons e l ih =>
    rw [valueAt_cons]
    split_ifs with hk
    · exact e.2.isLt
    · exact ih

/-- A key with a word that is not zero is one of the table. -/
theorem exists_of_valueAt {k : κ} {l : List (κ × Fin b)} (h : 0 < valueAt k l) :
    ∃ e ∈ l, e.1 = k ∧ e.2.val = valueAt k l := by
  induction l with
  | nil => exact absurd h (Nat.lt_irrefl 0)
  | cons e l ih =>
    by_cases hk : k = e.1
    · refine ⟨e, List.mem_cons_self, hk.symm, ?_⟩
      rw [valueAt_cons, if_pos hk]
    · rw [valueAt_cons, if_neg hk] at h ⊢
      obtain ⟨e', he', hkv⟩ := ih h
      exact ⟨e', List.mem_cons_of_mem _ he', hkv⟩

namespace Ascending

variable {l l' : List (κ × Fin b)}

theorem head_lt {e : κ × Fin b} (h : Ascending (e :: l)) {e' : κ × Fin b} (he : e' ∈ l) :
    e.1 < e'.1 := (List.pairwise_cons.mp h).1 e' he

theorem tail {e : κ × Fin b} (h : Ascending (e :: l)) : Ascending l := (List.pairwise_cons.mp h).2

theorem valueAt_of_mem (h : Ascending l) {e : κ × Fin b} (he : e ∈ l) :
    valueAt e.1 l = e.2.val := by
  induction l with
  | nil => cases he
  | cons e' l ih =>
    rcases List.mem_cons.mp he with rfl | he
    · rw [valueAt_cons, if_pos rfl]
    · rw [valueAt_cons, if_neg (ne_of_gt (h.head_lt he))]
      exact ih h.tail he

theorem filter (h : Ascending l) (p : κ × Fin b → Bool) : Ascending (l.filter p) :=
  List.Pairwise.filter p h

theorem map (h : Ascending l) (f : Fin b → Fin b') :
    Ascending (l.map fun e => (e.1, f e.2)) := List.pairwise_map.mpr h

/-- Dropping the zeros changes no value. -/
theorem valueAt_filter (h : Ascending l) (k : κ) :
    valueAt k (l.filter fun e => 0 < e.2.val) = valueAt k l := by
  induction l with
  | nil => rfl
  | cons e l ih =>
    by_cases hz : 0 < e.2.val
    · rw [List.filter_cons_of_pos (by simpa using hz), valueAt_cons, valueAt_cons, ih h.tail]
    · rw [List.filter_cons_of_neg (by simpa using hz), ih h.tail, valueAt_cons]
      split_ifs with hk
      · -- the key is not in the rest
        subst hk
        rw [valueAt_of_not_mem fun e' he' => ne_of_gt (h.head_lt he')]
        omega
      · rfl

/-- **Ordered tables without zeros are equal when their values are.** -/
theorem ext (h : Ascending l) (h' : Ascending l') (hp : ∀ e ∈ l, 0 < e.2.val)
    (hp' : ∀ e ∈ l', 0 < e.2.val) (hv : ∀ k, valueAt k l = valueAt k l') : l = l' := by
  induction l generalizing l' with
  | nil =>
    cases l' with
    | nil => rfl
    | cons e' l' =>
      have hpos := hp' e' List.mem_cons_self
      have := hv e'.1
      rw [h'.valueAt_of_mem List.mem_cons_self, valueAt_nil] at this
      omega
  | cons e l ih =>
    have hpos := hp e List.mem_cons_self
    have he := hv e.1
    rw [h.valueAt_of_mem List.mem_cons_self] at he
    obtain ⟨x, hx, hxk, hxv⟩ := exists_of_valueAt (he ▸ hpos)
    cases l' with
    | nil => cases hx
    | cons e' l' =>
      have hpos' := hp' e' List.mem_cons_self
      have he' := hv e'.1
      rw [h'.valueAt_of_mem List.mem_cons_self] at he'
      obtain ⟨y, hy, hyk, hyv⟩ := exists_of_valueAt (he'.symm ▸ hpos')
      -- the first keys agree: each is among the keys of the other table
      have hkey : e.1 = e'.1 := by
        refine le_antisymm ?_ ?_
        · rcases List.mem_cons.mp hy with rfl | hy
          · exact le_of_eq hyk
          · exact hyk ▸ le_of_lt (h.head_lt hy)
        · rcases List.mem_cons.mp hx with rfl | hx
          · exact le_of_eq hxk
          · exact hxk ▸ le_of_lt (h'.head_lt hx)
      have hval : e.2 = e'.2 := by
        refine Fin.ext (he.trans ?_)
        rw [hkey, valueAt_cons, if_pos rfl]
      obtain rfl : e = e' := Prod.ext hkey hval
      congr 1
      refine ih h.tail h'.tail (fun x hx => hp x (List.mem_cons_of_mem _ hx))
        (fun x hx => hp' x (List.mem_cons_of_mem _ hx)) fun k => ?_
      by_cases hk : k = e.1
      · subst hk
        rw [valueAt_of_not_mem fun x hx => ne_of_gt (h.head_lt hx),
          valueAt_of_not_mem fun x hx => ne_of_gt (h'.head_lt hx)]
      · have := hv k
        rwa [valueAt_cons, valueAt_cons, if_neg hk, if_neg hk] at this

end Ascending

/-- Scaling a table scales its values. -/
theorem valueAt_map {f : Fin b → Fin b'} {g : ℕ → ℕ} {l : List (κ × Fin b)} (h0 : g 0 = 0)
    (hf : ∀ e ∈ l, (f e.2).val = g e.2.val) (k : κ) :
    valueAt k (l.map fun e => (e.1, f e.2)) = g (valueAt k l) := by
  induction l with
  | nil => exact h0.symm
  | cons e l ih =>
    rw [List.map_cons, valueAt_cons, valueAt_cons,
      ih fun e' he' => hf e' (List.mem_cons_of_mem _ he')]
    split_ifs with hk
    · exact hf e List.mem_cons_self
    · rfl

/-! ## Accumulation -/

section

variable {α : Type}

/-- **`x` on top of what the key has**; a new key takes its place in the order. -/
def accumulate [Add α] (k : κ) (x : α) : List (κ × α) → List (κ × α)
  | [] => [(k, x)]
  | (k', x') :: l =>
    if k < k' then (k, x) :: (k', x') :: l
    else if k = k' then (k', x' + x) :: l
    else (k', x') :: accumulate k x l

theorem accumulate_of_lt [Add α] {k k' : κ} (x x' : α) (l : List (κ × α)) (h : k < k') :
    accumulate k x ((k', x') :: l) = (k, x) :: (k', x') :: l := if_pos h

theorem accumulate_self [Add α] (k : κ) (x x' : α) (l : List (κ × α)) :
    accumulate k x ((k, x') :: l) = (k, x' + x) :: l := by
  rw [accumulate, if_neg (lt_irrefl k), if_pos rfl]

theorem accumulate_of_gt [Add α] {k k' : κ} (x x' : α) (l : List (κ × α)) (h : k' < k) :
    accumulate k x ((k', x') :: l) = (k', x') :: accumulate k x l := by
  rw [accumulate, if_neg (not_lt_of_gt h), if_neg (ne_of_gt h)]

/-- **Two portions of one key** are their sum. -/
theorem accumulate_add [AddSemigroup α] (k : κ) (x y : α) (l : List (κ × α)) :
    accumulate k y (accumulate k x l) = accumulate k (x + y) l := by
  induction l with
  | nil => exact accumulate_self k y x []
  | cons e l ih =>
    obtain ⟨k', x'⟩ := e
    rcases lt_trichotomy k k' with h | rfl | h
    · rw [accumulate_of_lt x x' l h, accumulate_self, accumulate_of_lt _ x' l h]
    · rw [accumulate_self, accumulate_self, accumulate_self, add_assoc]
    · rw [accumulate_of_gt x x' l h, accumulate_of_gt y x' _ h, accumulate_of_gt _ x' l h, ih]

theorem accumulate_comm_of_lt [Add α] {j k : κ} (h : j < k) (x y : α) (l : List (κ × α)) :
    accumulate k y (accumulate j x l) = accumulate j x (accumulate k y l) := by
  induction l with
  | nil => rw [accumulate, accumulate, accumulate_of_gt _ _ _ h, accumulate_of_lt _ _ _ h, accumulate]
  | cons e l ih =>
    obtain ⟨i, z⟩ := e
    rcases lt_trichotomy j i with hj | rfl | hj
    · rw [accumulate_of_lt x z l hj, accumulate_of_gt y x _ h]
      rcases lt_trichotomy k i with hk | rfl | hk
      · rw [accumulate_of_lt y z l hk, accumulate_of_lt x y _ h]
      · rw [accumulate_self, accumulate_of_lt x _ l hj]
      · rw [accumulate_of_gt y z l hk, accumulate_of_lt x z _ hj]
    · rw [accumulate_self, accumulate_of_gt y _ l h, accumulate_of_gt y z l h, accumulate_self]
    · have hk : i < k := lt_trans hj h
      rw [accumulate_of_gt x z l hj, accumulate_of_gt y z _ hk, accumulate_of_gt y z l hk,
        accumulate_of_gt x z _ hj, ih]

/-- **The order of two portions does not matter.** -/
theorem accumulate_comm [AddCommSemigroup α] (j k : κ) (x y : α) (l : List (κ × α)) :
    accumulate k y (accumulate j x l) = accumulate j x (accumulate k y l) := by
  rcases lt_trichotomy j k with h | rfl | h
  · exact accumulate_comm_of_lt h x y l
  · rw [accumulate_add, accumulate_add, add_comm]
  · exact (accumulate_comm_of_lt h y x l).symm

/-- All portions, one after the other. -/
def accumulateAll [Add α] (l : List (κ × α)) (acc : List (κ × α)) : List (κ × α) :=
  l.foldl (fun acc e => accumulate e.1 e.2 acc) acc

theorem accumulateAll_append [Add α] (l l' acc : List (κ × α)) :
    accumulateAll (l ++ l') acc = accumulateAll l' (accumulateAll l acc) :=
  List.foldl_append

theorem accumulateAll_perm [AddCommSemigroup α] {l l' : List (κ × α)} (h : l.Perm l')
    (acc : List (κ × α)) : accumulateAll l acc = accumulateAll l' acc :=
  h.foldl_eq' (fun x _ y _ acc => accumulate_comm x.1 y.1 x.2 y.2 acc) acc

/-- **The portions of one key** are their sum. -/
theorem accumulateAll_same [AddMonoid α] {k : κ} {l : List (κ × α)} (hl : l ≠ [])
    (h : ∀ e ∈ l, e.1 = k) (acc : List (κ × α)) :
    accumulateAll l acc = accumulate k (l.map Prod.snd).sum acc := by
  induction l generalizing acc with
  | nil => exact absurd rfl hl
  | cons e l ih =>
    have he : e.1 = k := h e List.mem_cons_self
    show accumulateAll l (accumulate e.1 e.2 acc) = _
    rw [he, List.map_cons, List.sum_cons]
    cases l with
    | nil => rw [List.map_nil, List.sum_nil, add_zero]; rfl
    | cons e' l =>
      rw [ih (List.cons_ne_nil _ _) fun x hx => h x (List.mem_cons_of_mem _ hx), accumulate_add]

end

end Library
