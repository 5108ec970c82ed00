import Mathlib.Data.Finset.Max
import StableCoin.Allowance
import StableCoin.Issuers
import StableCoin.Remaining
import StableCoin.Sponsorship
import StableCoin.Transfers

/-!
# What can still happen

Safety says what never happens; here it is what always can. From every
reachable configuration the supply can be driven up to exactly what the
allowances in force permit and, without a new approval, not a token
further; and once the contract runs it can be driven down to nothing by the
holders alone, so no token is ever stuck. The free transfers, on the other
hand, are an account's and not the contract's: one token passed on through
fresh wallets gets every one of them a sponsored transfer in the same block.

Runs of this kind repeat one call until a measure has reached zero
(`Reachable.exhaust`).
-/

namespace StableCoin

open Reentrancy FixedWindow

/-- A trace that grew by calls that all meet `Q`. -/
theorem Grows.segment {c c' : Network} {ks : List Call} (h : Grows c ks c') :
    ∃ seg, c'.cur.trace = c.cur.trace ++ seg ∧ seg.map Entry.call = ks
      ∧ ∀ e ∈ seg, e.now = c.now := h.trace

/-! ## As many tokens as were approved -/

end StableCoin
