import StableCoin.Run

/-!
# What a transfer does

The quota bookkeeping runs before any check of a transfer, but it always
succeeds: whether a payment goes through is decided by the amount, the
balance, the recipient and the pause alone. It then moves exactly the amount,
also when an account pays itself, and a payment that does not go through has
charged nobody's quota.
-/

namespace StableCoin

open Reentrancy

/-- `s'` is `s` after `src` has paid `value` to `dst`; of the quota records only
the payer's may differ. -/
structure Paid (src dst : Address) (value : Int) (s s' : Storage) : Prop where
  payer : src ≠ dst → balanceOf s' src = balanceOf s src - value
  payee : src ≠ dst → balanceOf s' dst = balanceOf s dst + value
  self : src = dst → balanceOf s' = balanceOf s
  others : ∀ a, a ≠ src → a ≠ dst → balanceOf s' a = balanceOf s a
  totalSupply : totalSupply s' = totalSupply s
  allowances : s'.allowances = s.allowances
  issuers : s'.issuers = s.issuers
  admin : s'.admin = s.admin
  limit : s'.freeDailyTxLimit = s.freeDailyTxLimit
  paused : s'.paused = s.paused
  records : ∀ u, u ≠ src → s'.whitelist u = s.whitelist u

section

variable {now : Int} {s s' : Storage} {c dst : Address} {value : Int}
  {data : Option Bytes} {evs : List Event} {fee : Int}

theorem Effect.transfer_inv (h : Effect now s c (.transfer dst value data) s' evs fee) :
    (0 < value ∧ value ≤ balanceOf s c ∧ dst ≠ EOA_ZERO ∧ s.paused = some false)
    ∧ ∃ limit, s.freeDailyTxLimit = some limit ∧ s' = { s with
        whitelist := s.whitelist.update c fun r => (r.charge now limit).1
        balances := (s.balances.debit c value).credit dst value } := by
  cases h with
  | transfer hl hv hb hd hp => exact ⟨⟨hv, hb, hd, hp⟩, _, hl, rfl⟩
  | mint hm => cases hm

theorem Effect.paid (h : Effect now s c (.transfer dst value data) s' evs fee) :
    Paid c dst value s s' := by
  obtain ⟨-, limit, -, rfl⟩ := h.transfer_inv
  have hmove : balanceOf { s with
        whitelist := s.whitelist.update c fun r => (r.charge now limit).1
        balances := (s.balances.debit c value).credit dst value }
      = Ledger.move (balanceOf s) c dst value := DictDB.getOrDefault_move ..
  exact {
    payer := fun hne => by rw [hmove, Ledger.move_src _ hne]
    payee := fun hne => by rw [hmove, Ledger.move_dst _ hne]
    self := by
      rintro rfl
      rw [hmove, Ledger.move_self]
    others := fun a hac had => by rw [hmove, Ledger.move_of_ne _ hac had]
    totalSupply := rfl
    allowances := rfl
    issuers := rfl
    admin := rfl
    limit := rfl
    paused := rfl
    records := fun u hu =>
      BranchDB.update_of_ne s.whitelist hu fun r => (r.charge now limit).1 }

end

/-- **A transfer moves the amount or nothing.** In every reachable
configuration and at any height, a transfer to an account that is not a
contract goes through exactly when the amount is positive and covered, the
recipient is not the zero address and the contract runs. It then pays exactly
that; otherwise the call aborts, and whoever makes it finds everything as it
was, quota records and fee share included. -/
theorem transfer_exact {c : Network} (h : Reachable c) (now : Int)
    (caller dst : Address) (hdst : dst.isContract = false) (value : Int)
    (data : Option Bytes) :
    ((∃ w, body now ⟨caller, .transfer dst value data⟩ c.cur.state = .done () w)
      ↔ 0 < value ∧ value ≤ balanceOf c.cur.state.storage caller ∧ dst ≠ EOA_ZERO
        ∧ c.cur.state.storage.paused = some false)
    ∧ (∀ w, body now ⟨caller, .transfer dst value data⟩ c.cur.state = .done () w →
      Paid caller dst value c.cur.state.storage w.storage)
    ∧ ((¬ ∃ w, body now ⟨caller, .transfer dst value data⟩ c.cur.state = .done () w) →
      (∃ e, body now ⟨caller, .transfer dst value data⟩ c.cur.state = .abort e)
      ∧ ∀ callback, exec body now (.call ⟨caller, .transfer dst value data⟩ callback .ret)
        c.cur = some c.cur) := by
  have hd := h.deployed
  have hdone : ∀ {s evs fee}, Effect now c.cur.state.storage caller
      (.transfer dst value data) s evs fee →
      ∃ w, body now ⟨caller, .transfer dst value data⟩ c.cur.state = .done () w :=
    fun he => ⟨_, Effect.done (k := ⟨caller, .transfer dst value data⟩) he hdst⟩
  refine ⟨⟨?_, ?_⟩, ?_, ?_⟩
  · rintro ⟨w, hw⟩
    obtain ⟨s, evs, fee, he, -⟩ := Effect.of_first hd (Outcome.first_of_done hw)
    exact he.transfer_inv.1
  · rintro ⟨hv, hb, hz, hp⟩
    obtain ⟨limit, hl⟩ := Option.isSome_iff_exists.mp hd.freeDailyTxLimit
    exact hdone (.transfer hl hv hb hz hp)
  · intro w hw
    obtain ⟨s, evs, fee, he, rfl⟩ := Effect.of_first hd (Outcome.first_of_done hw)
    exact he.paid
  · intro hno
    obtain ⟨e, habort⟩ := body_abort (k := ⟨caller, .transfer dst value data⟩) hd
      fun s evs fee he => hno (hdone he)
    refine ⟨⟨e, habort⟩, fun callback => ?_⟩
    simp [exec, invoke, habort, Outcome.answered]

theorem transfer_exact_funded :
    balanceOf (Sample.after ⟨Sample.holder, .transfer Sample.payee 10 none⟩).storage
        Sample.payee = 0 + 10
    ∧ ¬ ∃ w, body 100 ⟨Sample.holder, .transfer Sample.payee 1001 none⟩
      Sample.funded.cur.state = .done () w := by
  have hpay := (transfer_exact Sample.funded_reachable 100 Sample.holder Sample.payee rfl 10
    none).2.1 _ rfl
  have hover := (transfer_exact Sample.funded_reachable 100 Sample.holder Sample.payee rfl
    1001 none).1
  exact ⟨hpay.payee (by decide), fun hw => absurd (hover.mp hw) (by decide)⟩

end StableCoin
