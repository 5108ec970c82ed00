import Mathlib.Algebra.BigOperators.Group.Finset.Piecewise
import Mathlib.Algebra.BigOperators.Group.Finset.Basic
import Mathlib.Algebra.Order.Group.Defs
import Mathlib.Algebra.Order.Sub.Defs
import Mathlib.Algebra.Order.Group.Int
import Mathlib.Tactic.Abel
import Mathlib.Tactic.Linarith

/-!
# Ledgers

A ledger gives every account an amount in an ordered group. Its
operations are crediting an account, debiting one, and moving an amount
from one account to another; source and destination of a move may be the
same account. The sum over all accounts changes by exactly what is
credited or debited, a move keeps it, and no operation makes a
non-negative ledger negative unless it debits more than is there.

`Books` adds the total the amounts should come to, and `Posting` the
changes that one account holder may make to them. Postings keep the books
balanced and take from nobody else.
-/

namespace Ledger

variable {α M : Type} [DecidableEq α]

section

variable [AddCommGroup M]

def credit (f : α → M) (a : α) (v : M) : α → M := Function.update f a (f a + v)

def debit (f : α → M) (a : α) (v : M) : α → M := Function.update f a (f a - v)

/-- The destination's amount is read after the source's was written. -/
def move (f : α → M) (src dst : α) (v : M) : α → M :=
  credit (debit f src v) dst v

@[simp] theorem credit_self (f : α → M) (a : α) (v : M) :
    credit f a v a = f a + v := Function.update_self ..

@[simp] theorem debit_self (f : α → M) (a : α) (v : M) :
    debit f a v a = f a - v := Function.update_self ..

theorem credit_of_ne (f : α → M) {a b : α} (h : b ≠ a) (v : M) :
    credit f a v b = f b := Function.update_of_ne h ..

theorem debit_of_ne (f : α → M) {a b : α} (h : b ≠ a) (v : M) :
    debit f a v b = f b := Function.update_of_ne h ..

theorem move_src (f : α → M) {src dst : α} (h : src ≠ dst) (v : M) :
    move f src dst v src = f src - v := by
  rw [move, credit_of_ne _ h, debit_self]

theorem move_dst (f : α → M) {src dst : α} (h : src ≠ dst) (v : M) :
    move f src dst v dst = f dst + v := by
  rw [move, credit_self, debit_of_ne _ h.symm]

theorem move_of_ne (f : α → M) {src dst a : α} (hs : a ≠ src) (hd : a ≠ dst) (v : M) :
    move f src dst v a = f a := by
  rw [move, credit_of_ne _ hd, debit_of_ne _ hs]

/-- Moving to oneself changes nothing. -/
theorem move_self (f : α → M) (a : α) (v : M) : move f a a v = f := by
  funext x
  by_cases hx : x = a
  · subst hx
    rw [move, credit_self, debit_self, sub_add_cancel]
  · exact move_of_ne f hx hx v

/-! ## Totals -/

section

variable [Fintype α]

theorem sum_update (f : α → M) (a : α) (v : M) :
    ∑ x, Function.update f a v x = ∑ x, f x - f a + v := by
  rw [Finset.sum_update_of_mem (Finset.mem_univ a), Finset.sdiff_singleton_eq_erase,
    ← Finset.add_sum_erase _ f (Finset.mem_univ a)]
  abel

theorem sum_credit (f : α → M) (a : α) (v : M) :
    ∑ x, credit f a v x = ∑ x, f x + v := by
  rw [credit, sum_update]
  abel

theorem sum_debit (f : α → M) (a : α) (v : M) :
    ∑ x, debit f a v x = ∑ x, f x - v := by
  rw [debit, sum_update]
  abel

theorem sum_move (f : α → M) (src dst : α) (v : M) :
    ∑ x, move f src dst v x = ∑ x, f x := by
  rw [move, sum_credit, sum_debit, sub_add_cancel]

end

end

/-! ## Bounds -/

section

variable [AddCommGroup M] [PartialOrder M] [IsOrderedAddMonoid M]

theorem le_credit (f : α → M) (a : α) {v : M} (hv : 0 ≤ v) (x : α) :
    f x ≤ credit f a v x := by
  by_cases hx : x = a
  · subst hx
    rw [credit_self]
    exact le_add_of_nonneg_right hv
  · exact (credit_of_ne f hx v).ge

theorem debit_nonneg {f : α → M} (hf : ∀ x, 0 ≤ f x) {a : α} {v : M}
    (hv : v ≤ f a) (x : α) : 0 ≤ debit f a v x := by
  by_cases hx : x = a
  · subst hx
    rw [debit_self]
    exact sub_nonneg_of_le hv
  · rw [debit_of_ne f hx]
    exact hf x

theorem move_nonneg {f : α → M} (hf : ∀ x, 0 ≤ f x) {src : α} (dst : α)
    {v : M} (h₀ : 0 ≤ v) (hv : v ≤ f src) (x : α) : 0 ≤ move f src dst v x :=
  (debit_nonneg hf hv x).trans (le_credit _ dst h₀ x)

/-- A move takes from its source only. -/
theorem le_move_of_ne (f : α → M) {src x : α} (dst : α) {v : M} (h₀ : 0 ≤ v)
    (hx : x ≠ src) : f x ≤ move f src dst v x :=
  (debit_of_ne f hx v).ge.trans (le_credit _ dst h₀ x)

end

/-! ## Books -/

/-- The accounts, and the total they should come to. -/
structure Books (α M : Type) where
  amount : α → M
  supply : M

/-- One change of the books by the account holder `c`. Only accounts that
are `live` may receive. -/
inductive Posting [AddCommGroup M] [PartialOrder M] (live : α → Prop) (c : α)
    (b : Books α M) : Books α M → Prop
  | keep : Posting live c b b
  | move {dst v} (hd : live dst) (h₀ : 0 < v) (hv : v ≤ b.amount c) :
      Posting live c b ⟨Ledger.move b.amount c dst v, b.supply⟩
  | issue {dst v} (hd : live dst) (h₀ : 0 < v) :
      Posting live c b ⟨credit b.amount dst v, b.supply + v⟩
  | retire {v} (h₀ : 0 < v) (hv : v ≤ b.amount c) :
      Posting live c b ⟨debit b.amount c v, b.supply - v⟩

structure Books.Balanced [Fintype α] [AddCommMonoid M] [LE M] (b : Books α M) :
    Prop where
  total : ∑ a, b.amount a = b.supply
  nonneg : ∀ a, 0 ≤ b.amount a

section

variable [AddCommGroup M] [PartialOrder M] [IsOrderedAddMonoid M]
  {live : α → Prop} {c : α} {b b' : Books α M}

/-- Postings keep the books balanced. -/
theorem Posting.balanced [Fintype α] (h : Posting live c b b')
    (hb : b.Balanced) : b'.Balanced := by
  cases h with
  | keep => exact hb
  | move _ h₀ hv =>
      exact ⟨(sum_move ..).trans hb.total, move_nonneg hb.nonneg _ h₀.le hv⟩
  | issue _ h₀ =>
      exact ⟨by rw [sum_credit, hb.total],
        fun a => (hb.nonneg a).trans (le_credit _ _ h₀.le a)⟩
  | retire _ hv =>
      exact ⟨by rw [sum_debit, hb.total], debit_nonneg hb.nonneg hv⟩

/-- Nobody can take from an account but its holder. -/
theorem Posting.le_of_ne (h : Posting live c b b') {a : α} (ha : a ≠ c) :
    b.amount a ≤ b'.amount a := by
  cases h with
  | keep => exact le_refl _
  | move _ h₀ _ => exact le_move_of_ne _ _ h₀.le ha
  | issue _ h₀ => exact le_credit _ _ h₀.le a
  | retire _ _ => exact (debit_of_ne _ ha _).ge

omit [IsOrderedAddMonoid M] in
/-- A closed account that holds nothing never holds anything. -/
theorem Posting.closed (h : Posting live c b b') {a : α} (ha : ¬ live a)
    (h₀ : b.amount a = 0) : b'.amount a = 0 := by
  have hne : ∀ {dst}, live dst → a ≠ dst := fun hd hdst => ha (hdst ▸ hd)
  have hc : ∀ {v}, 0 < v → v ≤ b.amount c → a ≠ c := by
    rintro v hv hvc rfl
    exact absurd (h₀ ▸ hvc) hv.not_ge
  cases h with
  | keep => exact h₀
  | move hd hv hvc =>
      show credit (debit b.amount c _) _ _ a = 0
      rw [credit_of_ne _ (hne hd), debit_of_ne _ (hc hv hvc), h₀]
  | issue hd _ =>
      show credit b.amount _ _ a = 0
      rw [credit_of_ne _ (hne hd), h₀]
  | retire hv hvc =>
      show debit b.amount c _ a = 0
      rw [debit_of_ne _ (hc hv hvc), h₀]

end

end Ledger
