import StableCoin.Minting

/-!
# Why a call is refused

Every method makes its checks in a fixed order, and the first that fails
names the reason. `Call.checks` lists them as the code has them; a call of a
reachable contract is refused with the message of the first check that is
not met, and accepted if there is none. In particular nothing ever fails for
a missing cell or an empty array: the checks come before every such read.
-/

namespace StableCoin

open Reentrancy

/-! ## Checks -/

/-- What `_mint` checks. -/
def mintChecks (s : Storage) (c dst : Address) (value : Int) : List (Bool × String) :=
  [(dst ≠ EOA_ZERO, "Cannot mint to zero address"),
    (value > 0, "Amount to mint should be greater than zero"),
    (isIssuer s c, "Only issuers can mint"),
    (s.paused = some false, "Cannot mint when paused"),
    (issuerAllowance s c ≥ value, "Allowance amount to mint exceed")]

/-- The checks of a call, in the order in which it makes them. -/
def Call.checks (k : Call) (s : Storage) : List (Bool × String) :=
  match k.method with
  | .transfer dst value _ =>
      [(value > 0, "Cannot transfer zero or less"),
        (balanceOf s k.caller ≥ value, "Insufficient Balance"),
        (dst ≠ EOA_ZERO, "Cannot transfer to zero address"),
        (s.paused = some false, "Cannot transfer when paused")]
  | .changeFreeDailyTxLimit newLimit =>
      [(newLimit ≥ 0, "Free daily transaction limit cannot be under 0."),
        (s.admin = some k.caller, "Only admin can change free daily transaction limit")]
  | .addIssuer issuer =>
      [(!isIssuer s issuer, issuer.toString ++ " is already an issuer"),
        (s.admin = some k.caller, "Only admin can add issuer"),
        (((s.issuers.size : Int) < intValue (s.nIssuers.getD 0)),
          "Cannot have more than " ++ toString (s.nIssuers.getD 0) ++ " issuers")]
  | .removeIssuer issuer =>
      [(s.admin = some k.caller, "Only admin can remove issuer"),
        (isIssuer s issuer, issuer.toString ++ " not an issuer")]
  | .approve issuer _ =>
      [(s.admin = some k.caller, "Only admin can approve amount to issuer"),
        (isIssuer s issuer, "Only issuers can be approved")]
  | .transferAdminRight newAdmin =>
      [(newAdmin ≠ EOA_ZERO, "Cannot set zero address as admin"),
        (s.admin = some k.caller, "Only admin can transfer their admin right")]
  | .togglePause => [(s.admin = some k.caller, "Only admin can toggle pause")]
  | .mint value => mintChecks s k.caller k.caller value
  | .mintTo dst value => mintChecks s k.caller dst value
  | .burn value =>
      [(k.caller ≠ EOA_ZERO, "Cannot burn from zero address"),
        (value > 0, "Amount to burn should be greater than zero"),
        (balanceOf s k.caller ≥ value, "Insufficient balance to burn"),
        (s.paused = some false, "Cannot burn when paused")]
  | .update .. => []

/-! ## Statements -/

section

variable {α : Type} {w : World}

@[simp] theorem error_require {c : Prop} [Decidable c] {msg : String}
    {f : Unit → World → Outcome Abort Fallback World α} :
    ((require c msg w).bind f).error = if c then (f () w).error else some (.revert msg) := by
  by_cases h : c <;> simp [require, h]

@[simp] theorem error_onlyAdmin {ctx : Context} {msg : String}
    {f : Unit → World → Outcome Abort Fallback World α} :
    ((onlyAdmin ctx msg w).bind f).error
      = if w.storage.admin = some ctx.caller then (f () w).error
        else some (.revert msg) := by
  have happ : onlyAdmin ctx msg w
      = require (some ctx.caller = w.storage.admin) msg w := rfl
  simp only [happ, error_require, eq_comm]

end

section

variable {ctx : Context} {w : World}

theorem _transfer_error {src dst : Address} {value : Int} {data : Option Bytes}
    (hp : w.storage.paused.isSome) :
    (_transfer src dst value data w).error
      = (refusal [(value > 0, "Cannot transfer zero or less"),
        (balanceOf w.storage src ≥ value, "Insufficient Balance"),
        (dst ≠ EOA_ZERO, "Cannot transfer to zero address"),
        (w.storage.paused = some false, "Cannot transfer when paused")]).map .revert := by
  obtain ⟨paused, hp⟩ := Option.isSome_iff_exists.mp hp
  by_cases hc : dst.isContract
  · simp [_transfer, setBalance, hp, hc]
    split_ifs <;> rfl
  · simp [_transfer, setBalance, hp, hc]
    split_ifs <;> rfl

/-- Past its own check, whitelisting cannot fail. -/
theorem _whitelistWallet_done (ctx : Context) (w : World) {dst : Address}
    (hd : dst ≠ EOA_ZERO) (data : Bytes) :
    ∃ w', _whitelistWallet ctx dst data w = .done () w' := by
  cases hr : w.storage.whitelist dst START_HEIGHT with
  | none => exact ⟨_, by simp [_whitelistWallet, require, setFeeField, hd, hr]; rfl⟩
  | some start => exact ⟨w, by simp [_whitelistWallet, require, hd, hr]⟩

theorem _mint_error {dst : Address} {value : Int} (hp : w.storage.paused.isSome) :
    (_mint ctx dst value w).error
      = (refusal (mintChecks w.storage ctx.caller dst value)).map .revert := by
  obtain ⟨paused, hp⟩ := Option.isSome_iff_exists.mp hp
  by_cases hd : dst = EOA_ZERO
  · simp [_mint, mintChecks, hd]
  · let w₁ : World := { w with storage := { w.storage with
      allowances := w.storage.allowances.set ctx.caller
        (issuerAllowance w.storage ctx.caller - value) } }
    obtain ⟨w₂, hw⟩ := _whitelistWallet_done ctx w₁ hd
      (getBytes "whitelist on mint")
    simp only [w₁, issuerAllowance, hp] at hw
    simp [_mint, mintChecks, setAllowance, setBalance, issuerAllowance, hp, hd, hw]
    split_ifs <;> rfl

theorem removeIssuer_error {issuer : Address} :
    (removeIssuer ctx issuer w).error
      = (refusal [(w.storage.admin = some ctx.caller, "Only admin can remove issuer"),
        (isIssuer w.storage issuer, issuer.toString ++ " not an issuer")]).map .revert := by
  rcases w with ⟨⟨⟩, evs, fee⟩
  rename_i issuers _ _ _ _ _ _
  rcases List.eq_nil_or_concat issuers with rfl | ⟨rest, top, rfl⟩
  · simp [removeIssuer, isIssuer_iff]
    split_ifs <;> rfl
  · rw [List.concat_eq_append]
    by_cases ht : top = issuer
    · simp [removeIssuer, ArrayDB.pop, ht, setAllowance]
      split_ifs <;> rfl
    · simp [removeIssuer, ArrayDB.pop, ht, setAllowance]
      split_ifs <;> rfl

theorem body_error {now : Int} {k : Call} (hd : Deployed w.storage) :
    (body now k w).error = (refusal (k.checks w.storage)).map .revert := by
  obtain ⟨c, m⟩ := k
  obtain ⟨paused, hp⟩ := Option.isSome_iff_exists.mp hd.paused
  rw [body_apply]
  cases m with
  | transfer dst value data =>
      obtain ⟨limit, hl⟩ := Option.isSome_iff_exists.mp hd.freeDailyTxLimit
      rw [external, transfer, Program.bind_apply,
        setFeeSharingPercentage_apply (w := { w with feeSharing := 0 }) hl,
        Outcome.bind_done]
      exact _transfer_error hd.paused
  | changeFreeDailyTxLimit newLimit =>
      simp [external, changeFreeDailyTxLimit, Call.checks]
      split_ifs <;> rfl
  | addIssuer issuer =>
      obtain ⟨n, hn⟩ := Option.isSome_iff_exists.mp hd.nIssuers
      simp [external, addIssuer, Call.checks, hn]
      split_ifs <;> rfl
  | removeIssuer issuer => exact removeIssuer_error
  | approve issuer value =>
      simp [external, approve, setAllowance, Call.checks]
      split_ifs <;> rfl
  | transferAdminRight newAdmin =>
      simp [external, transferAdminRight, Call.checks]
      split_ifs <;> rfl
  | togglePause =>
      simp [external, togglePause, isPaused, Call.checks, hp]
      split_ifs <;> rfl
  | mint value => exact _mint_error hd.paused
  | mintTo dst value => exact _mint_error hd.paused
  | burn value =>
      simp [external, burn, _burn, setBalance, Call.checks, hp]
      split_ifs <;> rfl
  | update name symbol decimals admin nIssuers =>
      have hn := Option.isSome_iff_ne_none.mp hd.name
      simp [external, constructor, Call.checks, hn]

end

/-- **Every refusal says why.** In a reachable configuration a call fails
exactly when one of its checks is not met, and then with the message of the
first such check: no call dereferences a missing cell or pops an empty array.
A call that was accepted never fails afterwards, whatever happened during its
callback. -/
theorem refused_iff {c : Network} (h : Reachable c) :
    (∀ k, (body c.now k c.cur.state).error
      = (refusal (k.checks c.cur.state.storage)).map .revert)
    ∧ ∀ f ∈ c.stack, ∀ g, f.resume = some g → ∀ w, (g w).error = none := by
  refine ⟨fun k => body_error h.deployed, ?_⟩
  intro f hf g hg w
  obtain ⟨w', hdone, -⟩ := h.resume_done hf hg w
  rw [hdone, Outcome.error_done]

theorem refused_iff_funded :
    body 100 ⟨Sample.holder, .transfer EOA_ZERO 1001 none⟩ Sample.funded.cur.state
      = .abort (.revert "Insufficient Balance") := by
  rw [← Outcome.error_eq_some]
  exact ((refused_iff Sample.funded_reachable).1 _).trans (by decide)

end StableCoin
