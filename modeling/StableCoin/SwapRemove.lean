import Mathlib.Data.List.Nodup
import Mathlib.Data.List.Range

/-!
# Swap-with-last removal

Removing an element from an array in constant space: take the last
element off and write it over the one to be removed. The loop that looks
for that one runs over every index and does not stop at the first hit, so
it is `replace` on the whole list (`foldl_set_eq_replace`); only on a list
without duplicates does the removal take out exactly one element
(`mem_swapRemove`, `swapRemove_nodup`).
-/

namespace SwapRemove

variable {α : Type} [DecidableEq α]

/-- Every `a` becomes `b`. -/
def replace (a b : α) (xs : List α) : List α :=
  xs.map fun x => if x = a then b else x

theorem replace_append (a b : α) (xs ys : List α) :
    replace a b (xs ++ ys) = replace a b xs ++ replace a b ys :=
  List.map_append

theorem replace_singleton (a b x : α) :
    replace a b [x] = [if x = a then b else x] := rfl

/-- The last element leaves and takes the place of `a`. -/
def swapRemove (a : α) (xs : List α) : List α :=
  match xs.getLast? with
  | none => []
  | some top =>
      if top = a then xs.dropLast else replace a top xs.dropLast

/-! ## The loops -/

/-- Looking for an element index by index. -/
theorem any_range_eq (xs : List α) (a : α) :
    ((List.range xs.length).any fun i => xs[i]? == some a) = decide (a ∈ xs) := by
  rw [Bool.eq_iff_iff, List.any_eq_true, decide_eq_true_eq, List.mem_iff_getElem?]
  constructor
  · rintro ⟨i, -, hi⟩
    exact ⟨i, by simpa using hi⟩
  · rintro ⟨i, hi⟩
    have hlt : i < xs.length := (List.getElem?_eq_some_iff.mp hi).1
    exact ⟨i, List.mem_range.mpr hlt, by simpa using hi⟩

/-- After `n` rounds the loop has dealt with the first `n` elements. -/
theorem foldl_set_prefix (a b : α) (xs : List α) {n : Nat} (hn : n ≤ xs.length) :
    (List.range n).foldl
        (fun ys i => if ys[i]? = some a then ys.set i b else ys) xs
      = replace a b (xs.take n) ++ xs.drop n := by
  induction n with
  | zero => simp [replace]
  | succ n ih =>
      have hlt : n < xs.length := hn
      have hlen : (replace a b (xs.take n)).length = n := by
        simp [replace, hlt.le]
      rw [List.range_succ, List.foldl_append, ih hlt.le, List.foldl_cons,
        List.foldl_nil, List.getElem?_append_right (by omega), hlen,
        Nat.sub_self, List.drop_eq_getElem_cons hlt, List.getElem?_cons_zero,
        List.take_succ_eq_append_getElem hlt, replace_append, List.append_assoc]
      by_cases hx : xs[n] = a
      · rw [if_pos (by rw [hx]), List.set_append_right _ _ (by omega), hlen,
          Nat.sub_self, List.set_cons_zero, hx, replace_singleton, if_pos rfl]
        rfl
      · rw [if_neg (by simpa using hx), replace_singleton, if_neg hx]
        rfl

theorem foldl_set_eq_replace (a b : α) (xs : List α) :
    (List.range xs.length).foldl
        (fun ys i => if ys[i]? = some a then ys.set i b else ys) xs
      = replace a b xs := by
  simpa using foldl_set_prefix a b xs (Nat.le_refl _)

/-! ## Removal -/

theorem swapRemove_concat (a top : α) (xs : List α) :
    swapRemove a (xs ++ [top]) = if top = a then xs else replace a top xs := by
  simp [swapRemove]

theorem mem_replace {a b x : α} {xs : List α} :
    x ∈ replace a b xs ↔ (x ∈ xs ∧ x ≠ a) ∨ (x = b ∧ a ∈ xs) := by
  simp only [replace, List.mem_map]
  constructor
  · rintro ⟨y, hy, rfl⟩
    by_cases hya : y = a
    · subst hya
      exact Or.inr ⟨if_pos rfl, hy⟩
    · rw [if_neg hya]
      exact Or.inl ⟨hy, hya⟩
  · rintro (⟨hx, hxa⟩ | ⟨rfl, ha⟩)
    · exact ⟨x, hx, if_neg hxa⟩
    · exact ⟨a, ha, if_pos rfl⟩

theorem replace_nodup {a b : α} {xs : List α} (h : xs.Nodup) (hb : b ∉ xs) :
    (replace a b xs).Nodup := by
  refine List.Nodup.map_on ?_ h
  intro x hx y hy hxy
  by_cases hxa : x = a <;> by_cases hya : y = a
  · rw [hxa, hya]
  · rw [if_pos hxa, if_neg hya] at hxy
    exact absurd (hxy ▸ hy) hb
  · rw [if_neg hxa, if_pos hya] at hxy
    exact absurd (hxy ▸ hx) hb
  · rwa [if_neg hxa, if_neg hya] at hxy

/-- A duplicate-free list loses exactly the removed element. -/
theorem mem_swapRemove {a x : α} {xs : List α} (h : xs.Nodup) (ha : a ∈ xs) :
    x ∈ swapRemove a xs ↔ x ∈ xs ∧ x ≠ a := by
  rcases List.eq_nil_or_concat xs with rfl | ⟨ys, top, rfl⟩
  · cases ha
  · rw [List.concat_eq_append] at h ha ⊢
    rw [swapRemove_concat]
    have hnd := List.nodup_append.mp h
    have htop : top ∉ ys := fun hin => hnd.2.2 top hin top (by simp) rfl
    by_cases hta : top = a
    · subst hta
      rw [if_pos rfl]
      constructor
      · intro hx
        exact ⟨by simp [hx], fun hxt => htop (hxt ▸ hx)⟩
      · rintro ⟨hx, hne⟩
        simpa [hne] using hx
    · rw [if_neg hta, mem_replace]
      have hays : a ∈ ys := by simpa [Ne.symm hta] using ha
      constructor
      · rintro (⟨hx, hne⟩ | ⟨rfl, -⟩)
        · exact ⟨by simp [hx], hne⟩
        · exact ⟨by simp, hta⟩
      · rintro ⟨hx, hne⟩
        rcases List.mem_append.mp hx with hx | hx
        · exact Or.inl ⟨hx, hne⟩
        · exact Or.inr ⟨List.mem_singleton.mp hx, hays⟩

theorem swapRemove_nodup {a : α} {xs : List α} (h : xs.Nodup) :
    (swapRemove a xs).Nodup := by
  rcases List.eq_nil_or_concat xs with rfl | ⟨ys, top, rfl⟩
  · exact .nil
  · rw [List.concat_eq_append] at h ⊢
    rw [swapRemove_concat]
    have hnd := List.nodup_append.mp h
    have htop : top ∉ ys := fun hin => hnd.2.2 top hin top (by simp) rfl
    split
    · exact hnd.1
    · exact replace_nodup hnd.1 htop

theorem swapRemove_length (a : α) (xs : List α) :
    (swapRemove a xs).length = xs.length - 1 := by
  rcases List.eq_nil_or_concat xs with rfl | ⟨ys, top, rfl⟩
  · rfl
  · rw [List.concat_eq_append, swapRemove_concat]
    split <;> simp [replace]

/-! ## Where the elements end up -/

theorem getElem?_replace (a b : α) (xs : List α) (i : Nat) :
    (replace a b xs)[i]? = xs[i]?.map fun x => if x = a then b else x :=
  List.getElem?_map

/-- Every other element keeps its place, except the last. -/
theorem getElem?_swapRemove_of_ne {a : α} {xs : List α} (h : xs.Nodup) {i j : Nat}
    (hi : xs[i]? = some a) (hji : j ≠ i) (hj : j + 1 < xs.length) :
    (swapRemove a xs)[j]? = xs[j]? := by
  rcases List.eq_nil_or_concat xs with rfl | ⟨ys, top, rfl⟩
  · simp at hi
  · rw [List.concat_eq_append] at h hi hj ⊢
    have hlt : j < ys.length := by simpa using hj
    rw [swapRemove_concat, List.getElem?_append_left hlt]
    split
    · rfl
    · have hne : ys[j] ≠ a := by
        intro hja
        have hsame : (ys ++ [top])[j]? = (ys ++ [top])[i]? := by
          rw [hi, List.getElem?_append_left hlt, List.getElem?_eq_getElem hlt, hja]
        exact hji ((List.getElem?_inj (by simp; omega) h).mp hsame)
      rw [getElem?_replace, List.getElem?_eq_getElem hlt, Option.map_some, if_neg hne]

/-- The last element takes the place of the removed one. -/
theorem getElem?_swapRemove_self {a : α} {xs : List α} (h : xs.Nodup) {i : Nat}
    (hi : xs[i]? = some a) (hlt : i + 1 < xs.length) :
    (swapRemove a xs)[i]? = xs.getLast? := by
  rcases List.eq_nil_or_concat xs with rfl | ⟨ys, top, rfl⟩
  · simp at hi
  · rw [List.concat_eq_append] at h hi hlt ⊢
    have hlt' : i < ys.length := by simpa using hlt
    rw [List.getElem?_append_left hlt'] at hi
    have hta : top ≠ a := by
      rintro rfl
      exact (List.nodup_append.mp h).2.2 top (List.mem_of_getElem? hi) top (by simp) rfl
    rw [swapRemove_concat, if_neg hta, getElem?_replace, hi, Option.map_some, if_pos rfl,
      List.getLast?_concat]

/-- `ys` is `xs` without `a`, with the last element in its place. -/
structure SwappedOut (a : α) (xs ys : List α) : Prop where
  length : ys.length = xs.length - 1
  gone : a ∉ ys
  once : ∀ x ∈ xs, x ≠ a → ys.count x = 1
  place : ∃ i, xs[i]? = some a ∧ (∀ j, j ≠ i → j + 1 < xs.length → ys[j]? = xs[j]?)
    ∧ (i + 1 < xs.length → ys[i]? = xs.getLast?)

theorem swappedOut_swapRemove {a : α} {xs : List α} (h : xs.Nodup) (ha : a ∈ xs) :
    SwappedOut a xs (swapRemove a xs) where
  length := swapRemove_length a xs
  gone hin := ((mem_swapRemove h ha).mp hin).2 rfl
  once x hx hne :=
    List.count_eq_one_of_mem (swapRemove_nodup h) ((mem_swapRemove h ha).mpr ⟨hx, hne⟩)
  place := by
    obtain ⟨i, hi⟩ := List.mem_iff_getElem?.mp ha
    exact ⟨i, hi, fun j hji hj => getElem?_swapRemove_of_ne h hi hji hj,
      fun hlt => getElem?_swapRemove_self h hi hlt⟩

end SwapRemove
