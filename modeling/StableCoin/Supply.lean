import StableCoin.Run

/-!
# Balances and supply

The contract keeps the books of `Ledger`: every call posts at most once,
on behalf of its caller, and the zero address is closed.
-/

namespace StableCoin

open Reentrancy Ledger

/-- The books as the contract's views show them. -/
def books (s : Storage) : Books Address Int := ⟨balanceOf s, totalSupply s⟩

/-- **The contract keeps books.** Every effect is a posting by the caller. -/
theorem Effect.posting {now : Int} {s s' : Storage} {c : Address} {m : Method}
    {evs : List Event} {fee : Int} (h : Effect now s c m s' evs fee) :
    Posting (· ≠ EOA_ZERO) c (books s) (books s') := by
  cases h with
  | @transfer dst value data limit hl hv hb hd hp =>
      show Posting _ c _ ⟨fun x =>
        ((s.balances.debit c value).credit dst value).getOrDefault x 0, totalSupply s⟩
      rw [DictDB.getOrDefault_move]
      exact .move hd hv hb
  | @mint m dst value hm hd hv hi hp ha =>
      show Posting _ c _ ⟨fun x => (s.balances.credit dst value).getOrDefault x 0,
        totalSupply s + value⟩
      rw [DictDB.getOrDefault_credit]
      exact .issue hd hv
  | @burn value hc hv hb hp =>
      show Posting _ c _ ⟨fun x => (s.balances.debit c value).getOrDefault x 0,
        totalSupply s - value⟩
      rw [DictDB.getOrDefault_debit]
      exact .retire hv hb
  | _ => exact .keep

/-- What the books of the contract look like at any time. -/
structure Solvent (s : Storage) : Prop where
  balanced : (books s).Balanced
  zero : balanceOf s EOA_ZERO = 0

theorem Fresh.solvent {s : Storage} (h : Fresh s) : Solvent s := by
  have htot : totalSupply s = 0 := by simp [totalSupply, h.supply]
  refine ⟨⟨?_, fun a => (h.balanceOf_eq a).ge⟩, h.balanceOf_eq EOA_ZERO⟩
  simp [books, h.balanceOf_eq, htot]

theorem Solvent.effect {now : Int} {s s' : Storage} {c : Address} {m : Method}
    {evs : List Event} {fee : Int} (h : Solvent s)
    (he : Effect now s c m s' evs fee) : Solvent s' :=
  ⟨he.posting.balanced h.balanced, he.posting.closed (by simp) h.zero⟩

/-- Whoever can pay is not the zero address. -/
theorem Solvent.ne_zero {s : Storage} (h : Solvent s) {c : Address} {value : Int}
    (hv : 0 < value) (hb : value ≤ balanceOf s c) : c ≠ EOA_ZERO := by
  rintro rfl
  have := h.zero
  omega

/-- **The sum of the balances is the supply**, in every reachable
configuration and, whatever is in flight, at the moment `tokenFallback` is
called; no balance is negative and the zero address holds nothing. -/
theorem sum_balanceOf_eq_totalSupply {c : Network} (h : Reachable c) :
    (∑ a, balanceOf c.cur.state.storage a = totalSupply c.cur.state.storage
      ∧ (∀ a, 0 ≤ balanceOf c.cur.state.storage a)
      ∧ balanceOf c.cur.state.storage EOA_ZERO = 0)
    ∧ ∀ k r w g, body c.now k c.cur.state = .call r w g →
      ∑ a, balanceOf w.storage a = totalSupply w.storage
      ∧ (∀ a, 0 ≤ balanceOf w.storage a) ∧ balanceOf w.storage EOA_ZERO = 0 := by
  have hsolv : Solvent c.cur.state.storage := h.invariant Fresh.solvent Solvent.effect
  refine ⟨⟨hsolv.balanced.total, hsolv.balanced.nonneg, hsolv.zero⟩, ?_⟩
  intro k r w g hcall
  obtain ⟨evs, he, -⟩ := h.effect (Outcome.first_of_call hcall)
  have hnew := hsolv.effect he
  exact ⟨hnew.balanced.total, hnew.balanced.nonneg, hnew.zero⟩

theorem sum_balanceOf_eq_totalSupply_funded :
    ∑ a, balanceOf Sample.funded.cur.state.storage a = 1000
    ∧ ∀ r w g, body 100 ⟨Sample.holder, .transfer Sample.shop 10 none⟩
        Sample.funded.cur.state = .call r w g →
      ∑ a, balanceOf w.storage a = totalSupply w.storage := by
  obtain ⟨⟨hsum, -, -⟩, hcall⟩ := sum_balanceOf_eq_totalSupply Sample.funded_reachable
  exact ⟨hsum.trans rfl, fun r w g h => (hcall _ r w g h).1⟩

end StableCoin
