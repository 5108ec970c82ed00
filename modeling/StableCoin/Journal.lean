import Mathlib.Algebra.BigOperators.Group.List.Basic
import Mathlib.Algebra.Order.BigOperators.Group.List
import StableCoin.Ledger

/-!
# Journals

A journal lists moves between accounts. One of the accounts, `z`, stands
for the outside: a move out of it creates the amount, a move into it
destroys it, and nothing is ever booked on it.

Replaying a journal books its moves one after the other. For every account
inside, the result is the start plus what the journal moves to it less what
it moves from it (`foldl_post`), so the order of the moves does not matter
to where a replay ends (`foldl_post_perm`) - only to what it passes through.
-/

namespace Journal

/-- One move of an amount from an account to another. -/
structure Move (α M : Type) where
  src : α
  dst : α
  amount : M
deriving DecidableEq, Repr

section

variable {α M : Type} [DecidableEq α] [AddCommGroup M]

/-- What the journal moves to `a`. -/
def inflow (a : α) (l : List (Move α M)) : M :=
  (l.map fun m => if m.dst = a then m.amount else 0).sum

/-- What the journal moves from `a`. -/
def outflow (a : α) (l : List (Move α M)) : M :=
  (l.map fun m => if m.src = a then m.amount else 0).sum

@[simp] theorem inflow_nil (a : α) : inflow a ([] : List (Move α M)) = 0 := rfl

@[simp] theorem outflow_nil (a : α) : outflow a ([] : List (Move α M)) = 0 := rfl

@[simp] theorem inflow_cons (a : α) (m : Move α M) (l : List (Move α M)) :
    inflow a (m :: l) = (if m.dst = a then m.amount else 0) + inflow a l := by
  simp [inflow]

@[simp] theorem outflow_cons (a : α) (m : Move α M) (l : List (Move α M)) :
    outflow a (m :: l) = (if m.src = a then m.amount else 0) + outflow a l := by
  simp [outflow]

@[simp] theorem inflow_append (a : α) (l l' : List (Move α M)) :
    inflow a (l ++ l') = inflow a l + inflow a l' := by
  simp [inflow]

@[simp] theorem outflow_append (a : α) (l l' : List (Move α M)) :
    outflow a (l ++ l') = outflow a l + outflow a l' := by
  simp [outflow]

theorem inflow_perm {l l' : List (Move α M)} (h : l.Perm l') (a : α) :
    inflow a l = inflow a l' := (h.map _).sum_eq

theorem outflow_perm {l l' : List (Move α M)} (h : l.Perm l') (a : α) :
    outflow a l = outflow a l' := (h.map _).sum_eq

/-- Nothing moves to an account that is no destination. -/
theorem inflow_eq_zero {a : α} {l : List (Move α M)} (h : ∀ m ∈ l, m.dst ≠ a) :
    inflow a l = 0 := by
  induction l with
  | nil => rfl
  | cons m l ih =>
      rw [inflow_cons, if_neg (h m (List.mem_cons_self ..)), zero_add]
      exact ih fun m' hm' => h m' (List.mem_cons_of_mem _ hm')

theorem outflow_eq_zero {a : α} {l : List (Move α M)} (h : ∀ m ∈ l, m.src ≠ a) :
    outflow a l = 0 := by
  induction l with
  | nil => rfl
  | cons m l ih =>
      rw [outflow_cons, if_neg (h m (List.mem_cons_self ..)), zero_add]
      exact ih fun m' hm' => h m' (List.mem_cons_of_mem _ hm')

/-! ## Replaying -/

/-- Book one move. The destination's amount is read after the source's was
written. -/
def post (z : α) (f : α → M) (m : Move α M) : α → M :=
  let g := if m.src = z then f else Ledger.debit f m.src m.amount
  if m.dst = z then g else Ledger.credit g m.dst m.amount

/-- Book a journal on empty accounts. -/
def replay (z : α) (l : List (Move α M)) : α → M := l.foldl (post z) fun _ => 0

theorem post_apply {z a : α} (ha : a ≠ z) (f : α → M) (m : Move α M) :
    post z f m a = f a + (if m.dst = a then m.amount else 0)
      - if m.src = a then m.amount else 0 := by
  have hdebit : (if m.src = z then f else Ledger.debit f m.src m.amount) a
      = f a - if m.src = a then m.amount else 0 := by
    by_cases hs : m.src = a
    · subst hs
      simp [ha]
    · rw [if_neg hs, sub_zero]
      split
      · rfl
      · exact Ledger.debit_of_ne f (Ne.symm hs) _
  by_cases hd : m.dst = a
  · subst hd
    simp only [post, if_neg ha, Ledger.credit_self, hdebit, if_pos]
    abel
  · rw [if_neg hd, add_zero, ← hdebit, post]
    split
    · rfl
    · exact Ledger.credit_of_ne _ (Ne.symm hd) _

/-- Nothing is booked on the outside. -/
theorem post_outside (z : α) (f : α → M) (m : Move α M) : post z f m z = f z := by
  have hdebit : (if m.src = z then f else Ledger.debit f m.src m.amount) z = f z := by
    split
    · rfl
    · exact Ledger.debit_of_ne f (Ne.symm ‹_›) _
  rw [← hdebit, post]
  split
  · rfl
  · exact Ledger.credit_of_ne _ (Ne.symm ‹_›) _

theorem foldl_post_outside (z : α) (l : List (Move α M)) (f : α → M) :
    l.foldl (post z) f z = f z := by
  induction l generalizing f with
  | nil => rfl
  | cons m l ih => rw [List.foldl_cons, ih, post_outside]

/-- **A replay adds up.** -/
theorem foldl_post {z a : α} (ha : a ≠ z) (l : List (Move α M)) (f : α → M) :
    l.foldl (post z) f a = f a + inflow a l - outflow a l := by
  induction l generalizing f with
  | nil => simp
  | cons m l ih =>
      rw [List.foldl_cons, ih, post_apply ha, inflow_cons, outflow_cons]
      abel

theorem replay_outside (z : α) (l : List (Move α M)) : replay z l z = 0 :=
  foldl_post_outside z l _

theorem replay_apply {z a : α} (ha : a ≠ z) (l : List (Move α M)) :
    replay z l a = inflow a l - outflow a l := by
  rw [replay, foldl_post ha, zero_add]

/-- **The order of the moves does not matter to where a replay ends.** -/
theorem foldl_post_perm (z : α) {l l' : List (Move α M)} (h : l.Perm l')
    (f : α → M) : l.foldl (post z) f = l'.foldl (post z) f := by
  funext a
  by_cases ha : a = z
  · subst ha
    rw [foldl_post_outside, foldl_post_outside]
  · rw [foldl_post ha, foldl_post ha, inflow_perm h, outflow_perm h]

end

/-! ## Bounds -/

section

variable {α M : Type} [DecidableEq α] [AddCommGroup M] [PartialOrder M]
  [IsOrderedAddMonoid M]

theorem inflow_nonneg {l : List (Move α M)} (h : ∀ m ∈ l, 0 ≤ m.amount) (a : α) :
    0 ≤ inflow a l := by
  refine List.sum_nonneg ?_
  intro x hx
  obtain ⟨m, hm, rfl⟩ := List.mem_map.mp hx
  split
  · exact h m hm
  · exact le_refl 0

theorem outflow_nonneg {l : List (Move α M)} (h : ∀ m ∈ l, 0 ≤ m.amount) (a : α) :
    0 ≤ outflow a l := by
  refine List.sum_nonneg ?_
  intro x hx
  obtain ⟨m, hm, rfl⟩ := List.mem_map.mp hx
  split
  · exact h m hm
  · exact le_refl 0

end

end Journal
