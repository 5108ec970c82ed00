import Mathlib.Algebra.Order.BigOperators.Group.Finset
import StableCoin.Supply

/-!
# Minting allowances

What an issuer may still mint, as a function of the history: the latest
approval that no removal followed, less what was minted since. Summed over
all accounts and approvals, everything ever minted was approved; the
invariant behind it is that the supply, what was burned, and what can still
be minted never exceed what was approved.
-/

namespace StableCoin

open Reentrancy

/-! ## The allowance of one account -/

/-- The approval in force and what was minted under it. -/
structure Grant where
  approved : Int
  minted : Int
deriving DecidableEq, Repr

namespace Grant

/-- An accepted call, as it concerns the account `a`. -/
def step (a : Address) (g : Grant) (k : Call) : Grant :=
  match k.method with
  | .approve issuer value => if issuer = a then ⟨value, 0⟩ else g
  | .removeIssuer issuer => if issuer = a then ⟨0, 0⟩ else g
  | .mint value => if k.caller = a then { g with minted := g.minted + value } else g
  | .mintTo _ value =>
      if k.caller = a then { g with minted := g.minted + value } else g
  | _ => g

theorem step_of_minting {a : Address} {k : Call} {dst : Address} {value : Int}
    (hm : k.method.minting k.caller = some (dst, value)) (g : Grant) :
    g.step a k
      = if k.caller = a then { g with minted := g.minted + value } else g := by
  obtain ⟨c, m⟩ := k
  cases m <;> simp_all [Method.minting, step]

end Grant

/-- The latest approval for `a` that no removal of `a` followed, and what
`a` has minted since. -/
def grant (a : Address) (ks : List Call) : Grant := ks.foldl (Grant.step a) ⟨0, 0⟩

/-- The books on one issuer agree with the grant `g`. -/
structure Covers (g : Grant) (allowance : Int) : Prop where
  left : allowance = g.approved - g.minted
  within : g.minted ≤ max g.approved 0

theorem Covers.effect {now : Int} {s s' : Storage} {k : Call} {evs : List Event}
    {fee : Int} {a : Address} {g : Grant} (h : Covers g (issuerAllowance s a))
    (he : Effect now s k.caller k.method s' evs fee) :
    Covers (g.step a k) (issuerAllowance s' a) := by
  obtain ⟨c, m⟩ := k
  have hset : ∀ {issuer v}, issuer ≠ a →
      (s.allowances.set issuer v).getOrDefault a 0 = issuerAllowance s a :=
    fun hne => DictDB.getOrDefault_set_of_ne _ (Ne.symm hne) _ _
  simp only at he
  cases he with
  | @approve issuer value ha hi =>
      by_cases hia : issuer = a
      · subst hia
        simp only [Grant.step, if_pos, issuerAllowance, DictDB.getOrDefault_set_self]
        exact ⟨by simp, by simp⟩
      · simp only [Grant.step, if_neg hia, issuerAllowance, hset hia]
        exact h
  | @removeIssuer issuer ha hi =>
      by_cases hia : issuer = a
      · subst hia
        simp only [Grant.step, if_pos, issuerAllowance, DictDB.getOrDefault_set_self]
        exact ⟨by simp, by simp⟩
      · simp only [Grant.step, if_neg hia, issuerAllowance, hset hia]
        exact h
  | @mint _ dst value hm hd hv hi hp hal =>
      rw [Grant.step_of_minting hm]
      by_cases hca : c = a
      · subst hca
        obtain ⟨hleft, hwithin⟩ := h
        simp only [if_pos, issuerAllowance, DictDB.debit, DictDB.getOrDefault_set_self]
        simp only [issuerAllowance] at hleft hal
        exact ⟨by simp only; omega, by simp only; omega⟩
      · simp only [if_neg hca, issuerAllowance, DictDB.debit, hset hca]
        exact h
  | _ => exact h

theorem History.covers {s₀ s : Storage} {tr : List Receipt} (h : History s₀ tr s)
    (hf : Fresh s₀) (a : Address) :
    Covers (grant a (tr.map Entry.call)) (issuerAllowance s a) := by
  induction h using History.receipts with
  | nil =>
      rw [hf.issuerAllowance_eq]
      exact ⟨rfl, le_refl _⟩
  | next h he _ _ ih =>
      rw [List.map_append, grant, List.foldl_append]
      exact ih.effect he

/-! ## All approvals together -/

/-- What an accepted call approves. -/
def Call.approved (k : Call) : Int :=
  match k.method with
  | .approve _ value => max value 0
  | _ => 0

/-- What an accepted call burns. -/
def Call.burned (k : Call) : Int :=
  match k.method with
  | .burn value => value
  | _ => 0

/-- What can still be minted, by all issuers together. -/
noncomputable def headroom (s : Storage) : Int := ∑ a, max (issuerAllowance s a) 0

theorem headroom_set {s s' : Storage} {issuer : Address} {v : Int}
    (h : s'.allowances = s.allowances.set issuer v) :
    headroom s' = headroom s - max (issuerAllowance s issuer) 0 + max v 0 := by
  have hupdate : (fun a => max (issuerAllowance s' a) 0)
      = Function.update (fun a => max (issuerAllowance s a) 0) issuer (max v 0) := by
    funext a
    by_cases ha : a = issuer
    · subst ha
      simp [issuerAllowance, h]
    · rw [Function.update_of_ne ha, issuerAllowance, h,
        DictDB.getOrDefault_set_of_ne _ ha, issuerAllowance]
  rw [headroom, hupdate, Ledger.sum_update, headroom]

theorem headroom_nonneg (s : Storage) : 0 ≤ headroom s :=
  Finset.sum_nonneg fun _ _ => le_max_right _ _

/-- A call adds to supply, burned tokens and headroom no more than it
approves. -/
theorem Effect.headroom_le {now : Int} {s s' : Storage} {k : Call}
    {evs : List Event} {fee : Int} (he : Effect now s k.caller k.method s' evs fee) :
    totalSupply s' + k.burned + headroom s'
      ≤ totalSupply s + headroom s + k.approved := by
  obtain ⟨c, m⟩ := k
  simp only at he
  cases he with
  | @approve issuer value ha hi =>
      rw [headroom_set (s := s) (v := value) rfl]
      show totalSupply s + 0 + _ ≤ totalSupply s + headroom s + max value 0
      omega
  | @removeIssuer issuer ha hi =>
      rw [headroom_set (s := s) (v := 0) rfl]
      show totalSupply s + 0 + _ ≤ totalSupply s + headroom s + 0
      omega
  | @mint m dst value hm hd hv hi hp hal =>
      rw [headroom_set (s := s) (v := issuerAllowance s c - value) rfl]
      have hburned : Call.burned ⟨c, m⟩ = 0 := by
        cases m <;> simp_all [Method.minting, Call.burned]
      have happroved : Call.approved ⟨c, m⟩ = 0 := by
        cases m <;> simp_all [Method.minting, Call.approved]
      rw [hburned, happroved]
      show totalSupply s + value + 0 + _ ≤ totalSupply s + headroom s + 0
      omega
  | @burn value =>
      show totalSupply s - value + value + headroom s ≤ totalSupply s + headroom s + 0
      omega
  | _ =>
      show totalSupply s + 0 + headroom s ≤ totalSupply s + headroom s + 0
      omega

theorem History.headroom_le {s₀ s : Storage} {tr : List Receipt}
    (h : History s₀ tr s) (hf : Fresh s₀) :
    totalSupply s + (tr.map fun e => e.call.burned).sum + headroom s
      ≤ (tr.map fun e => e.call.approved).sum := by
  induction h using History.receipts with
  | nil =>
      have hzero : headroom s₀ = 0 := by simp [headroom, hf.issuerAllowance_eq]
      simp [totalSupply, hf.supply, hzero]
  | next h he _ _ ih =>
      have hstep := he.headroom_le
      simp only [List.map_append, List.sum_append, List.map_singleton,
        List.sum_singleton]
      omega

/-- **Every token was authorised.** In every reachable configuration an
account's allowance is its approval in force less what it minted under it,
and it never minted more than that; and the supply and everything burned
come to no more than all approvals together. -/
theorem minted_within_approvals {c : Network} (h : Reachable c) :
    (∀ a, issuerAllowance c.cur.state.storage a
        = (grant a (c.cur.trace.map Entry.call)).approved
          - (grant a (c.cur.trace.map Entry.call)).minted
      ∧ (grant a (c.cur.trace.map Entry.call)).minted
        ≤ max (grant a (c.cur.trace.map Entry.call)).approved 0)
    ∧ totalSupply c.cur.state.storage
        + (c.cur.trace.map fun e => e.call.burned).sum
      ≤ (c.cur.trace.map fun e => e.call.approved).sum := by
  obtain ⟨s₀, hf, hist, -⟩ := h.history
  refine ⟨?_, ?_⟩
  · intro a
    obtain ⟨hleft, hwithin⟩ := hist.covers hf a
    exact ⟨hleft, hwithin⟩
  · have hle := hist.headroom_le hf
    have hpos := headroom_nonneg c.cur.state.storage
    exact (le_add_of_nonneg_right hpos).trans hle

theorem minted_within_approvals_funded :
    issuerAllowance Sample.funded.cur.state.storage Sample.admin = 5000 - 1000
    ∧ totalSupply Sample.funded.cur.state.storage + 0 ≤ 5000 := by
  obtain ⟨hgrant, htotal⟩ := minted_within_approvals Sample.funded_reachable
  exact ⟨(hgrant Sample.admin).1, htotal⟩

end StableCoin
