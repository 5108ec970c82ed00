import StableCoin.Issuers

/-!
# What a mint does

The code checks the issuers array and the allowance separately. Because only
listed issuers have an allowance, the second check implies the first: what an
account can mint is exactly its allowance.
-/

namespace StableCoin

open Reentrancy

/-- Whoever has an allowance is listed. -/
theorem Registry.listed_of_le {s : Storage} (h : Registry s) {a : Address} {value : Int}
    (hv : 0 < value) (ha : value ≤ issuerAllowance s a) : a ∈ s.issuers :=
  h.listed a (by omega)

theorem Effect.mintTo_inv {now : Int} {s s' : Storage} {c dst : Address} {value : Int}
    {evs : List Event} {fee : Int}
    (h : Effect now s c (.mintTo dst value) s' evs fee) :
    (0 < value ∧ value ≤ issuerAllowance s c)
    ∧ s' = { s with
        allowances := s.allowances.debit c value
        whitelist := s.whitelist.update dst (·.seed now)
        totalSupply := some (totalSupply s + value)
        balances := s.balances.credit dst value } := by
  cases h with
  | mint hm _ hv _ _ ha =>
      cases hm
      exact ⟨⟨hv, ha⟩, rfl⟩

/-- **The allowance is what can be minted.** While the contract runs, `mintTo`
is accepted exactly for the positive amounts within the caller's allowance. It
takes the amount from the allowance, adds it to the recipient's balance and to
the supply, opens a quota record for the recipient if it has none, and changes
nothing else. `mint` is `mintTo` the caller. -/
theorem mintTo_iff {c : Network} (h : Reachable c)
    (hp : c.cur.state.storage.paused = some false) (issuer dst : Address)
    (hd : dst ≠ EOA_ZERO) (value : Int) :
    ((∃ w, body c.now ⟨issuer, .mintTo dst value⟩ c.cur.state = .done () w)
      ↔ 0 < value ∧ value ≤ issuerAllowance c.cur.state.storage issuer)
    ∧ (∀ w, body c.now ⟨issuer, .mintTo dst value⟩ c.cur.state = .done () w →
      ∃ whitelist, w.storage = { c.cur.state.storage with
          allowances := c.cur.state.storage.allowances.set issuer
            (issuerAllowance c.cur.state.storage issuer - value)
          balances := c.cur.state.storage.balances.set dst
            (balanceOf c.cur.state.storage dst + value)
          totalSupply := some (totalSupply c.cur.state.storage + value)
          whitelist := whitelist }
        ∧ (∀ a, a ≠ dst ∨ isWhitelisted c.cur.state.storage a = true →
          whitelist a = c.cur.state.storage.whitelist a)
        ∧ (isWhitelisted c.cur.state.storage dst = false →
          whitelist dst START_HEIGHT = some c.now ∧ whitelist dst TXN_COUNT = some 1))
    ∧ ∀ w, body c.now ⟨issuer, .mint value⟩ w
      = body c.now ⟨issuer, .mintTo issuer value⟩ w := by
  have hreg : Registry c.cur.state.storage := h.invariant Fresh.registry Registry.effect
  refine ⟨⟨?_, ?_⟩, ?_, fun w => rfl⟩
  · rintro ⟨w, hw⟩
    obtain ⟨evs, he, -⟩ := h.effect (Outcome.first_of_done hw)
    exact he.mintTo_inv.1
  · rintro ⟨hv, ha⟩
    have he : Effect c.now c.cur.state.storage issuer (.mintTo dst value) _ _ _ :=
      .mint rfl hd hv (hreg.listed_of_le hv ha) hp ha
    exact ⟨_, he.done (k := ⟨issuer, .mintTo dst value⟩) rfl⟩
  · intro w hw
    obtain ⟨evs, he, -⟩ := h.effect (Outcome.first_of_done hw)
    refine ⟨_, he.mintTo_inv.2, ?_, ?_⟩
    · intro a ha
      by_cases had : a = dst
      · subst had
        rw [BranchDB.update_self]
        exact FeeSharing.seed_of_some (ha.resolve_left (not_not.mpr rfl)) c.now
      · exact BranchDB.update_of_ne _ had _
    · intro hw
      rw [BranchDB.update_self]
      exact FeeSharing.seed_of_none (by simpa [isWhitelisted] using hw) c.now

theorem mintTo_iff_funded :
    ¬ ∃ w, body 100 ⟨Sample.admin, .mintTo Sample.payee 4001⟩ Sample.funded.cur.state
      = .done () w := by
  intro hw
  have hiff := (mintTo_iff Sample.funded_reachable rfl Sample.admin Sample.payee
    (by decide) 4001).1
  exact absurd (hiff.mp hw) (by decide)

end StableCoin
