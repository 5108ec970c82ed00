import Mathlib.Data.Finset.Card
import StableCoin.FixedWindow
import StableCoin.Ledger

/-!
# The purpose of a stable coin

What a stable coin is for, with nothing of how it is kept: accounts hold
amounts, a set of issuers may create tokens within what an admin approved
for each, and the first payments of an account in each term are free. The
accounts are any type; one of them, `void`, may never hold anything.

A `Coin` cannot be in a bad state: that no balance is negative, that the
issuers are not too many and that nobody else has an allowance are fields
of it, and the supply is not stored but is the sum of the balances. `act`
says for every command whether it is allowed and what it does.
-/

/-- A stable coin over the accounts `α`. -/
structure Coin (α : Type) (void : α) where
  admin : α
  running : Bool
  cap : Nat
  issuers : Finset α
  capped : issuers.card ≤ cap
  limit : Nat
  balance : α → Int
  nonneg : ∀ a, 0 ≤ balance a
  void_empty : balance void = 0
  allowance : α → Int
  listed : ∀ a, allowance a ≠ 0 → a ∈ issuers
  term : α → Option FixedWindow.Term

namespace Coin

open FixedWindow

/-- What the holder of an account may ask for. -/
inductive Command (α : Type) where
  | pay (dst : α) (amount : Int)
  | issue (dst : α) (amount : Int)
  | retire (amount : Int)
  | approve (issuer : α) (amount : Int)
  | enlist (issuer : α)
  | dismiss (issuer : α)
  | handOver (heir : α)
  | toggle
  | setLimit (limit : Int)
  | idle

variable {α : Type} {void : α}

/-- All tokens there are. -/
def supply [Fintype α] (k : Coin α void) : Int := ∑ a, k.balance a

/-- A coin that was issued to nobody yet. -/
def initial (void admin : α) (cap : Nat) : Coin α void where
  admin := admin
  running := true
  cap := cap
  issuers := ∅
  capped := by simp
  limit := 50
  balance := fun _ => 0
  nonneg := fun _ => le_refl 0
  void_empty := rfl
  allowance := fun _ => 0
  listed := by simp
  term := fun _ => none

theorem ne_void (k : Coin α void) {a : α} {amount : Int} (hv : 0 < amount)
    (hb : amount ≤ k.balance a) : a ≠ void := by
  rintro rfl
  have := k.void_empty
  omega

variable [DecidableEq α]

/-! ## The books -/

/-- The account `c` pays, and uses its term. -/
def pay (k : Coin α void) (len now : Int) (c dst : α) (amount : Int)
    (hv : 0 < amount) (hb : amount ≤ k.balance c) (hd : dst ≠ void) : Coin α void :=
  { k with
    balance := Ledger.move k.balance c dst amount
    nonneg := Ledger.move_nonneg k.nonneg dst hv.le hb
    void_empty := by
      rw [Ledger.move_of_ne _ (k.ne_void hv hb).symm hd.symm, k.void_empty]
    term := Function.update k.term c (some (step len now (.charge k.limit) (k.term c)).1) }

/-- The issuer `c` creates tokens for `dst`, out of its allowance, and opens
its term. -/
def issue (k : Coin α void) (len now : Int) (c dst : α) (amount : Int)
    (hv : 0 < amount) (hi : c ∈ k.issuers) (hd : dst ≠ void) : Coin α void :=
  { k with
    balance := Ledger.credit k.balance dst amount
    nonneg := fun a => (k.nonneg a).trans (Ledger.le_credit _ _ hv.le a)
    void_empty := by rw [Ledger.credit_of_ne _ hd.symm, k.void_empty]
    allowance := Ledger.debit k.allowance c amount
    listed := by
      intro a ha
      by_cases hac : a = c
      · exact hac ▸ hi
      · rw [Ledger.debit_of_ne _ hac] at ha
        exact k.listed a ha
    term := Function.update k.term dst (some (step len now .seed (k.term dst)).1) }

/-- The account `c` destroys tokens of its own. -/
def retire (k : Coin α void) (c : α) (amount : Int) (hv : 0 < amount)
    (hb : amount ≤ k.balance c) : Coin α void :=
  { k with
    balance := Ledger.debit k.balance c amount
    nonneg := Ledger.debit_nonneg k.nonneg hb
    void_empty := by
      rw [Ledger.debit_of_ne _ (k.ne_void hv hb).symm, k.void_empty] }

/-! ## The issuers -/

def approve (k : Coin α void) (issuer : α) (amount : Int) (hi : issuer ∈ k.issuers) :
    Coin α void :=
  { k with
    allowance := Function.update k.allowance issuer amount
    listed := by
      intro a ha
      by_cases hai : a = issuer
      · exact hai ▸ hi
      · rw [Function.update_of_ne hai] at ha
        exact k.listed a ha }

def enlist (k : Coin α void) (issuer : α) (hi : issuer ∉ k.issuers)
    (hc : k.issuers.card < k.cap) : Coin α void :=
  { k with
    issuers := insert issuer k.issuers
    capped := by
      rw [Finset.card_insert_of_notMem hi]
      exact hc
    listed := fun a ha => Finset.mem_insert_of_mem (k.listed a ha) }

/-- Whoever is dismissed loses the allowance. -/
def dismiss (k : Coin α void) (issuer : α) : Coin α void :=
  { k with
    issuers := k.issuers.erase issuer
    capped := (Finset.card_le_card (Finset.erase_subset ..)).trans k.capped
    allowance := Function.update k.allowance issuer 0
    listed := by
      intro a ha
      by_cases hai : a = issuer
      · subst hai
        simp at ha
      · rw [Function.update_of_ne hai] at ha
        exact Finset.mem_erase.mpr ⟨hai, k.listed a ha⟩ }

/-! ## Commands -/

/-- The command of `c` at time `now`, in a coin whose terms have the length
`len`: the coin afterwards and whether the command was free of charge, or
nothing when it is not allowed. -/
def act (len now : Int) (c : α) (k : Coin α void) :
    Command α → Option (Coin α void × Bool)
  | .pay dst amount =>
      if h : 0 < amount ∧ amount ≤ k.balance c ∧ dst ≠ void ∧ k.running then
        some (k.pay len now c dst amount h.1 h.2.1 h.2.2.1,
          (step len now (.charge k.limit) (k.term c)).2)
      else none
  | .issue dst amount =>
      if h : 0 < amount ∧ c ∈ k.issuers ∧ dst ≠ void ∧ k.running
          ∧ amount ≤ k.allowance c then
        some (k.issue len now c dst amount h.1 h.2.1 h.2.2.1, false)
      else none
  | .retire amount =>
      if h : 0 < amount ∧ amount ≤ k.balance c ∧ k.running then
        some (k.retire c amount h.1 h.2.1, false)
      else none
  | .approve issuer amount =>
      if h : k.admin = c ∧ issuer ∈ k.issuers then
        some (k.approve issuer amount h.2, false)
      else none
  | .enlist issuer =>
      if h : k.admin = c ∧ issuer ∉ k.issuers ∧ k.issuers.card < k.cap then
        some (k.enlist issuer h.2.1 h.2.2, false)
      else none
  | .dismiss issuer =>
      if k.admin = c ∧ issuer ∈ k.issuers then some (k.dismiss issuer, false) else none
  | .handOver heir =>
      if k.admin = c ∧ heir ≠ void then some ({ k with admin := heir }, false) else none
  | .toggle =>
      if k.admin = c then some ({ k with running := !k.running }, false) else none
  | .setLimit limit =>
      if k.admin = c ∧ 0 ≤ limit then some ({ k with limit := limit.toNat }, false)
      else none
  | .idle => some (k, false)

/-- The commands of a run, each with its time and its author. -/
def run (len : Int) (k : Coin α void) (cmds : List (Int × α × Command α)) :
    Option (Coin α void) :=
  cmds.foldlM (fun k cmd => (k.act len cmd.1 cmd.2.1 cmd.2.2).map Prod.fst) k

theorem run_snoc (len : Int) (k : Coin α void) (cmds : List (Int × α × Command α))
    (cmd : Int × α × Command α) :
    k.run len (cmds ++ [cmd])
      = (k.run len cmds).bind fun k =>
        (k.act len cmd.1 cmd.2.1 cmd.2.2).map Prod.fst := by
  simp [run, List.foldlM_append]

/-! ## Supply -/

section

variable [Fintype α] (k : Coin α void) {len now : Int} {c dst : α} {amount : Int}

theorem supply_pay (hv : 0 < amount) (hb : amount ≤ k.balance c) (hd : dst ≠ void) :
    (k.pay len now c dst amount hv hb hd).supply = k.supply := Ledger.sum_move ..

theorem supply_issue (hv : 0 < amount) (hi : c ∈ k.issuers) (hd : dst ≠ void) :
    (k.issue len now c dst amount hv hi hd).supply = k.supply + amount :=
  Ledger.sum_credit ..

theorem supply_retire (hv : 0 < amount) (hb : amount ≤ k.balance c) :
    (k.retire c amount hv hb).supply = k.supply - amount := Ledger.sum_debit ..

end

end Coin
