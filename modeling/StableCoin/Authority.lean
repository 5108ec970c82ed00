import StableCoin.Supply

/-!
# Who may change what

A call changes the rules of the coin - its admin, issuers, pause flag,
limit and constants - only when the admin makes it, and takes from nobody
but its caller. Both are read off `Effect` and hold of every stretch of a
run in which the contract's own code runs.
-/

namespace StableCoin

open Reentrancy

/-! ## One call -/

/-- What only the admin may change. -/
structure SameRules (s s' : Storage) : Prop where
  admin : s'.admin = s.admin
  issuers : s'.issuers = s.issuers
  paused : s'.paused = s.paused
  freeDailyTxLimit : s'.freeDailyTxLimit = s.freeDailyTxLimit
  nIssuers : s'.nIssuers = s.nIssuers
  name : s'.name = s.name
  symbol : s'.symbol = s.symbol
  decimals : s'.decimals = s.decimals

/-- The only allowance that changed is that of `c`, an issuer: it fell. -/
def OnlySpends (c : Address) (s s' : Storage) : Prop :=
  ∀ a, s'.allowances a ≠ s.allowances a →
    a = c ∧ issuerAllowance s' a < issuerAllowance s a ∧ isIssuer s c = true

section

variable {now : Int} {s s' : Storage} {c : Address} {m : Method}
  {evs : List Event} {fee : Int}

theorem Effect.sameRules (h : Effect now s c m s' evs fee)
    (hc : s.admin ≠ some c) : SameRules s s' := by
  cases h with
  | transfer => constructor <;> rfl
  | mint => constructor <;> rfl
  | burn => constructor <;> rfl
  | update => constructor <;> rfl
  | changeFreeDailyTxLimit ha => exact absurd ha hc
  | addIssuer ha => exact absurd ha hc
  | removeIssuer ha => exact absurd ha hc
  | approve ha => exact absurd ha hc
  | transferAdminRight ha => exact absurd ha hc
  | togglePause ha => exact absurd ha hc

theorem Effect.admin_of_transferAdminRight {b : Address}
    (h : Effect now s c (.transferAdminRight b) s' evs fee) : s'.admin = some b := by
  cases h with
  | transferAdminRight => rfl
  | mint hm => cases hm

theorem Effect.onlySpends (h : Effect now s c m s' evs fee)
    (hc : s.admin ≠ some c) : OnlySpends c s s' := by
  cases h with
  | transfer => exact fun a ha => absurd rfl ha
  | burn => exact fun a ha => absurd rfl ha
  | update => exact fun a ha => absurd rfl ha
  | @mint _ dst value hm hd hv hi hp ha =>
      intro a hne
      obtain rfl := DictDB.eq_of_set_ne hne
      refine ⟨rfl, ?_, isIssuer_iff.mpr hi⟩
      simp only [issuerAllowance, DictDB.debit, DictDB.getOrDefault_set_self]
      omega
  | changeFreeDailyTxLimit ha => exact absurd ha hc
  | addIssuer ha => exact absurd ha hc
  | removeIssuer ha => exact absurd ha hc
  | approve ha => exact absurd ha hc
  | transferAdminRight ha => exact absurd ha hc
  | togglePause ha => exact absurd ha hc

/-- A call touches the quota record of its caller, and the records of
accounts that have none. -/
theorem Effect.whitelist_of_ne (h : Effect now s c m s' evs fee) {a : Address}
    (ha : a ≠ c) (hw : isWhitelisted s a = true) : s'.whitelist a = s.whitelist a := by
  cases h with
  | @transfer _ _ _ limit =>
      exact BranchDB.update_of_ne s.whitelist ha fun r => (r.charge now limit).1
  | @mint _ dst value hm hd hv hi hp hal =>
      by_cases had : a = dst
      · subst had
        show (s.whitelist.update a (·.seed now)) a = s.whitelist a
        rw [BranchDB.update_self, FeeSharing.seed_of_some hw]
      · exact BranchDB.update_of_ne s.whitelist had _
  | _ => rfl

/-- Only a call to that effect makes an account the admin. -/
theorem Effect.admin_ne (h : Effect now s c m s' evs fee) {a : Address}
    (ha : s.admin ≠ some a) (hm : m ≠ .transferAdminRight a) :
    s'.admin ≠ some a := by
  cases h with
  | transferAdminRight _ _ =>
      intro heq
      obtain rfl := Option.some.inj heq
      exact hm rfl
  | _ => exact ha

end

/-! ## Runs -/

/-- **Nobody takes what belongs to another.** A call never lowers the
balance of an account other than its caller and never touches its quota
record once there is one, whoever the caller is; when a call in flight goes
on after its callback it changes no storage at all. -/
theorem others_keep {c : Network} (h : Reachable c) :
    (∀ k w, (body c.now k c.cur.state).first = some w → ∀ a, a ≠ k.caller →
      balanceOf c.cur.state.storage a ≤ balanceOf w.storage a
      ∧ (isWhitelisted c.cur.state.storage a = true →
        ∀ field, w.storage.whitelist a field = c.cur.state.storage.whitelist a field))
    ∧ ∀ f ∈ c.stack, ∀ g, f.resume = some g → ∀ w,
      (g c.cur.state).first = some w → w.storage = c.cur.state.storage := by
  refine ⟨?_, ?_⟩
  · intro k w hk a ha
    obtain ⟨evs, he, -⟩ := h.effect hk
    refine ⟨he.posting.le_of_ne ha, ?_⟩
    intro hw field
    rw [he.whitelist_of_ne ha hw]
  · intro f hf g hg w hw
    exact h.rest hf hg hw

theorem others_keep_mint :
    1000 ≤ balanceOf (Sample.after ⟨Sample.admin, .mintTo Sample.holder 5⟩).storage
      Sample.holder
    ∧ (Sample.after ⟨Sample.admin, .mintTo Sample.holder 5⟩).storage.whitelist
      Sample.holder TXN_COUNT = some 1 := by
  obtain ⟨hbalance, hrecord⟩ := (others_keep Sample.funded_reachable).1
    ⟨Sample.admin, .mintTo Sample.holder 5⟩ _ rfl Sample.holder (by decide)
  exact ⟨hbalance, hrecord rfl TXN_COUNT⟩

/-- An account that is not the admin does not become it as long as nobody
makes it the admin. -/
theorem History.admin_ne {s s' : Storage} {tr : List Receipt} {a : Address}
    (h : History s tr s') (ha : s.admin ≠ some a)
    (htr : ∀ e ∈ tr, e.call.method ≠ .transferAdminRight a) : s'.admin ≠ some a :=
  (h.invariant_of_calls (P := fun s => s.admin ≠ some a)
    (Q := fun k => k.method ≠ .transferAdminRight a)
    (fun hm hs he => he.admin_ne hs hm) ha htr).1

/-- **Only the current admin holds power.** A call by anybody else leaves
the rules as they are and at most spends the caller's own allowance; what is
left of a call after its callback changes no storage at all. So an admin who
has handed the right over holds none until it is made the admin again. -/
theorem only_admin_rules {c : Network} (h : Reachable c) :
    (∀ k w, (body c.now k c.cur.state).first = some w →
      c.cur.state.storage.admin ≠ some k.caller →
      SameRules c.cur.state.storage w.storage
      ∧ OnlySpends k.caller c.cur.state.storage w.storage)
    ∧ (∀ f ∈ c.stack, ∀ g, f.resume = some g → ∀ w,
      (g c.cur.state).first = some w → w.storage = c.cur.state.storage)
    ∧ ∀ pre e mid d post b, c.cur.trace = pre ++ e :: (mid ++ d :: post) →
      e.call.method = .transferAdminRight b → b ≠ e.call.caller →
      (∀ i ∈ mid, i.call.method ≠ .transferAdminRight e.call.caller) →
      d.call.caller = e.call.caller →
      SameRules d.before.storage d.after.storage
      ∧ OnlySpends d.call.caller d.before.storage d.after.storage := by
  refine ⟨?_, ?_, ?_⟩
  · intro k w hk hc
    obtain ⟨evs, he, -⟩ := h.effect hk
    exact ⟨he.sameRules hc, he.onlySpends hc⟩
  · intro f hf g hg w hw
    exact h.rest hf hg hw
  · intro pre e mid d post b htr hm hb hmid hd
    obtain ⟨s₀, -, hist, -⟩ := h.history
    obtain ⟨_, he, -⟩ := hist.effect e (by simp [htr])
    obtain ⟨_, hde, -⟩ := hist.effect d (by simp [htr])
    rw [htr] at hist
    obtain ⟨hmid', -, -⟩ := hist.split_call.2.2.split_call
    have hafter : e.after.storage.admin ≠ some e.call.caller := by
      rw [hm] at he
      rw [he.admin_of_transferAdminRight]
      simpa using hb
    have hadmin := hmid'.admin_ne hafter hmid
    rw [← hd] at hadmin
    exact ⟨hde.sameRules hadmin, hde.onlySpends hadmin⟩

theorem only_admin_rules_burn :
    SameRules Sample.funded.cur.state.storage
      (Sample.after ⟨Sample.holder, .burn 5⟩).storage :=
  ((only_admin_rules Sample.funded_reachable).1 ⟨Sample.holder, .burn 5⟩ _ rfl
    (by decide)).1

end StableCoin
