import StableCoin.EventLog

/-!
# Batches

What a transfer, a mint or a burn does to balances, supply and allowances
is to add and subtract fixed amounts, whatever the state it meets. A batch
of such calls that are all accepted therefore ends in the same ledger in
whatever order it was made.
-/

namespace StableCoin

open Reentrancy Journal

/-- A call that works on the ledger only. -/
def Method.isLedger : Method → Bool
  | .transfer .. => true
  | .mint _ => true
  | .mintTo .. => true
  | .burn _ => true
  | _ => false

def Call.moves (k : Call) : List (Move Address Int) := k.method.moves k.caller

/-- What the call takes from the allowance of `a`. -/
def Call.spends (a : Address) (k : Call) : Int :=
  match k.method.minting k.caller with
  | some (_, value) => if k.caller = a then value else 0
  | none => 0

theorem Effect.issuerAllowance_eq {now : Int} {s s' : Storage} {k : Call}
    {evs : List Event} {fee : Int} (h : Effect now s k.caller k.method s' evs fee)
    (hk : k.method.isLedger = true) (a : Address) :
    issuerAllowance s' a = issuerAllowance s a - k.spends a := by
  obtain ⟨c, m⟩ := k
  simp only at h hk
  cases h with
  | transfer => simp [Call.spends, Method.minting, issuerAllowance]
  | burn => simp [Call.spends, Method.minting, issuerAllowance]
  | @mint _ dst value hm =>
      by_cases hca : c = a
      · subst hca
        simp [Call.spends, hm, issuerAllowance, DictDB.debit]
      · simp [Call.spends, hm, issuerAllowance, DictDB.debit, hca,
          DictDB.getOrDefault_set_of_ne _ (Ne.symm hca)]
  | _ => cases hk

/-- **Histories of ledger calls add up.** -/
theorem History.ledger_eq {s₀ s : Storage} {tr : List Receipt} (h : History s₀ tr s)
    (hs : Solvent s₀) (htr : ∀ e ∈ tr, e.call.method.isLedger = true) :
    balanceOf s
        = ((tr.map Entry.call).flatMap Call.moves).foldl (post EOA_ZERO) (balanceOf s₀)
    ∧ totalSupply s = totalSupply s₀
        + outflow EOA_ZERO ((tr.map Entry.call).flatMap Call.moves)
        - inflow EOA_ZERO ((tr.map Entry.call).flatMap Call.moves)
    ∧ ∀ a, issuerAllowance s a
        = issuerAllowance s₀ a - ((tr.map Entry.call).map (Call.spends a)).sum := by
  induction h using History.receipts with
  | nil => simp
  | @next tr e evs h he _ _ ih =>
      obtain ⟨hbal, htot, hall⟩ := ih fun d hd => htr d (List.mem_append_left _ hd)
      have hsolv : Solvent e.before.storage := (h.invariant Solvent.effect hs).1
      have hk := htr e (by simp)
      simp only [List.map_append, List.flatMap_append, List.map_singleton,
        List.flatMap_singleton, List.foldl_append, List.sum_append, List.sum_singleton,
        inflow_append, outflow_append]
      refine ⟨?_, ?_, ?_⟩
      · rw [he.balanceOf_eq hsolv, hbal]
        rfl
      · rw [he.totalSupply_eq hsolv, htot, Call.moves]
        omega
      · intro a
        rw [he.issuerAllowance_eq hk a, hall a]
        omega

/-- **The order of a batch does not matter.** Of two runs from the same state
that accept the same calls, in whatever order, heights and nesting, both end
with the same balances, supply and allowances, provided the calls are
transfers, mints and burns. -/
theorem batch_order {c c₁ c₂ : Network} (h : Reachable c) {seg₁ seg₂ : List Receipt}
    (hs₁ : Steps body c c₁) (htr₁ : c₁.cur.trace = c.cur.trace ++ seg₁)
    (hs₂ : Steps body c c₂) (htr₂ : c₂.cur.trace = c.cur.trace ++ seg₂)
    (hperm : (seg₁.map Entry.call).Perm (seg₂.map Entry.call))
    (hbatch : ∀ e ∈ seg₁, e.call.method.isLedger = true) :
    (∀ a, balanceOf c₁.cur.state.storage a = balanceOf c₂.cur.state.storage a)
    ∧ totalSupply c₁.cur.state.storage = totalSupply c₂.cur.state.storage
    ∧ ∀ a, issuerAllowance c₁.cur.state.storage a
      = issuerAllowance c₂.cur.state.storage a := by
  have hsolv : Solvent c.cur.state.storage := h.invariant Fresh.solvent Solvent.effect
  have hbatch' : ∀ e ∈ seg₂, e.call.method.isLedger = true := by
    intro e he
    obtain ⟨d, hd, hde⟩ := List.mem_map.mp (hperm.mem_iff.mpr (List.mem_map_of_mem he))
    rw [← hde]
    exact hbatch d hd
  obtain ⟨hbal₁, htot₁, hall₁⟩ := (h.segment hs₁ htr₁).ledger_eq hsolv hbatch
  obtain ⟨hbal₂, htot₂, hall₂⟩ := (h.segment hs₂ htr₂).ledger_eq hsolv hbatch'
  have hmoves := hperm.flatMap_right Call.moves
  refine ⟨?_, ?_, ?_⟩
  · intro a
    rw [hbal₁, hbal₂, foldl_post_perm _ hmoves]
  · rw [htot₁, htot₂, inflow_perm hmoves, outflow_perm hmoves]
  · intro a
    rw [hall₁, hall₂, (hperm.map _).sum_eq]

namespace Sample

def pay : Call := ⟨holder, .transfer payee 10 none⟩
def topUp : Call := ⟨admin, .mintTo payee 5⟩

/-- The payee is paid and minted to, in either order. -/
def payFirst : Network := funded.run (calls [pay, topUp])
def payLast : Network := funded.run (calls [topUp, pay])

theorem payFirst_trace : payFirst.cur.trace = funded.cur.trace
    ++ [⟨100, pay, funded.cur.state, after pay⟩,
      ⟨100, topUp, after pay, payFirst.cur.state⟩] := rfl

theorem payLast_trace : payLast.cur.trace = funded.cur.trace
    ++ [⟨100, topUp, funded.cur.state, after topUp⟩,
      ⟨100, pay, after topUp, payLast.cur.state⟩] := rfl

end Sample

theorem batch_order_funded :
    balanceOf (Sample.funded.run (calls [⟨Sample.holder, .transfer Sample.payee 10 none⟩,
        ⟨Sample.admin, .mintTo Sample.payee 5⟩])).cur.state.storage Sample.payee
      = balanceOf (Sample.funded.run (calls [⟨Sample.admin, .mintTo Sample.payee 5⟩,
        ⟨Sample.holder, .transfer Sample.payee 10 none⟩])).cur.state.storage Sample.payee := by
  have hsame := batch_order Sample.funded_reachable (Network.run_steps _ _)
    Sample.payFirst_trace (Network.run_steps _ _) Sample.payLast_trace
    (List.Perm.swap Sample.topUp Sample.pay [])
    (by simp [Sample.pay, Sample.topUp, Method.isLedger])
  exact hsame.1 Sample.payee

end StableCoin
