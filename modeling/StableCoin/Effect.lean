import StableCoin.History
import StableCoin.Ledger
import StableCoin.Score
import StableCoin.SwapRemove

/-!
# What a call can do

`Effect` is the contract's transition relation, one constructor per
method: under which conditions a call is accepted, the storage it leaves
when it first loses control, the events it has emitted by then, and the
fee share it asked for. `body_first_iff` proves it equivalent to running
the code, and `body_quiet` that the code after `tokenFallback` only emits
an event; everything else about the contract is derived from these two.
-/

namespace StableCoin

open Reentrancy

/-! ## Statements -/

@[simp] theorem load_apply (w : World) : load w = .done w.storage w := rfl

@[simp] theorem store_apply (f : Storage → Storage) (w : World) :
    store f w = .done () { w with storage := f w.storage } := rfl

@[simp] theorem emit_apply (e : Event) (w : World) :
    emit e w = .done () { w with events := w.events ++ [e] } := rfl

@[simp] theorem setFeeSharingProportion_apply (p : Int) (w : World) :
    setFeeSharingProportion p w = .done () { w with feeSharing := p } := rfl

@[simp] theorem deref_some {α : Type} (a : α) : deref (some a) = pure a := rfl

section

variable {α β : Type} {w w' : World}

@[simp] theorem first_require {c : Prop} [Decidable c] {msg : String}
    {f : Unit → World → Outcome Abort Fallback World β} :
    ((require c msg w).bind f).first = some w' ↔ c ∧ (f () w).first = some w' := by
  by_cases h : c <;> simp [require, h]

@[simp] theorem first_deref {o : Option α}
    {f : α → World → Outcome Abort Fallback World β} :
    ((deref o w).bind f).first = some w' ↔
      ∃ a, o = some a ∧ (f a w).first = some w' := by
  cases o <;> simp [deref]

@[simp] theorem first_onlyAdmin {ctx : Context} {msg : String}
    {f : Unit → World → Outcome Abort Fallback World β} :
    ((onlyAdmin ctx msg w).bind f).first = some w' ↔
      w.storage.admin = some ctx.caller ∧ (f () w).first = some w' := by
  have happ : onlyAdmin ctx msg w
      = require (some ctx.caller = w.storage.admin) msg w := rfl
  rw [happ, first_require, eq_comm]

end

theorem isIssuer_iff {s : Storage} {a : Address} :
    isIssuer s a = true ↔ a ∈ s.issuers := by
  have h := SwapRemove.any_range_eq s.issuers a
  simp only [isIssuer, ArrayDB.size, ArrayDB.get]
  rw [h, decide_eq_true_eq]

/-! ## Balances -/

namespace DictDB

def credit (d : DictDB Address Int) (a : Address) (v : Int) : DictDB Address Int :=
  d.set a (d.getOrDefault a 0 + v)

def debit (d : DictDB Address Int) (a : Address) (v : Int) : DictDB Address Int :=
  d.set a (d.getOrDefault a 0 - v)

theorem getOrDefault_credit (d : DictDB Address Int) (a : Address) (v : Int) :
    (fun x => (d.credit a v).getOrDefault x 0)
      = Ledger.credit (fun x => d.getOrDefault x 0) a v := by
  funext x
  by_cases hx : x = a
  · subst hx
    simp [credit]
  · rw [Ledger.credit_of_ne _ hx, credit, getOrDefault_set_of_ne _ hx]

theorem getOrDefault_debit (d : DictDB Address Int) (a : Address) (v : Int) :
    (fun x => (d.debit a v).getOrDefault x 0)
      = Ledger.debit (fun x => d.getOrDefault x 0) a v := by
  funext x
  by_cases hx : x = a
  · subst hx
    simp [debit]
  · rw [Ledger.debit_of_ne _ hx, debit, getOrDefault_set_of_ne _ hx]

theorem getOrDefault_move (d : DictDB Address Int) (src dst : Address) (v : Int) :
    (fun x => ((d.debit src v).credit dst v).getOrDefault x 0)
      = Ledger.move (fun x => d.getOrDefault x 0) src dst v := by
  rw [getOrDefault_credit, getOrDefault_debit, Ledger.move]

end DictDB

/-! ## Quota records -/

namespace FeeSharing

/-- One more use of a running term, if the limit allows. -/
def spend (limit : Int) (r : FeeSharing) : FeeSharing × Bool :=
  if r.getOrDefault TXN_COUNT 0 < limit then
    (r.set TXN_COUNT (r.getOrDefault TXN_COUNT 0 + 1), true)
  else (r, false)

/-- `setFeeSharingPercentage` on the caller's record, and whether it set
the proportion. -/
def charge (now limit : Int) (r : FeeSharing) : FeeSharing × Bool :=
  match r START_HEIGHT with
  | none => spend limit (r.set START_HEIGHT now)
  | some startHeight =>
      if now < startHeight + TERM_LENGTH then spend limit r
      else ((r.set START_HEIGHT now).set TXN_COUNT 1, true)

/-- `_whitelistWallet` on the wallet's record. -/
def seed (now : Int) (r : FeeSharing) : FeeSharing :=
  match r START_HEIGHT with
  | none => (r.set START_HEIGHT now).set TXN_COUNT 1
  | some _ => r

theorem seed_of_some {r : FeeSharing} (h : (r START_HEIGHT).isSome) (now : Int) :
    r.seed now = r := by
  obtain ⟨start, hs⟩ := Option.isSome_iff_exists.mp h
  simp only [seed, hs]

theorem seed_of_none {r : FeeSharing} (h : r START_HEIGHT = none) (now : Int) :
    r.seed now START_HEIGHT = some now ∧ r.seed now TXN_COUNT = some 1 := by
  simp [seed, h, DictDB.set_of_ne]

end FeeSharing

theorem TERM_LENGTH_pos : 0 < TERM_LENGTH := by decide

/-- `setFeeSharingPercentage` charges the caller's record. -/
theorem setFeeSharingPercentage_apply {ctx : Context} {w : World} {limit : Int}
    (hl : w.storage.freeDailyTxLimit = some limit) :
    setFeeSharingPercentage ctx w = .done ()
      { w with
        storage := { w.storage with
          whitelist := w.storage.whitelist.update ctx.caller
            fun r => (r.charge ctx.blockHeight limit).1 }
        feeSharing :=
          if ((w.storage.whitelist ctx.caller).charge ctx.blockHeight limit).2
          then 100 else w.feeSharing } := by
  rcases w with ⟨⟨⟩, evs, fee⟩
  rename_i whitelist
  subst hl
  cases hr : whitelist ctx.caller START_HEIGHT with
  | none =>
      simp [setFeeSharingPercentage, setFeeField, hr, FeeSharing.charge,
        FeeSharing.spend, BranchDB.update, TERM_LENGTH_pos]
      split <;> simp
  | some start =>
      by_cases hlt : ctx.blockHeight < start + TERM_LENGTH
      · simp [setFeeSharingPercentage, setFeeField, hr, FeeSharing.charge,
          FeeSharing.spend, BranchDB.update, hlt]
        split <;> simp
      · simp [setFeeSharingPercentage, setFeeField, hr, FeeSharing.charge,
          BranchDB.update, hlt]

/-- `_whitelistWallet` seeds the wallet's record, and announces it when it
is new. -/
theorem first_whitelistWallet {ctx : Context} {dst : Address} {data : Bytes}
    {w w' : World} {β : Type}
    {f : Unit → World → Outcome Abort Fallback World β} :
    ((_whitelistWallet ctx dst data w).bind f).first = some w' ↔
      dst ≠ EOA_ZERO ∧ (f () { w with
        storage := { w.storage with
          whitelist := w.storage.whitelist.update dst (·.seed ctx.blockHeight) }
        events := w.events ++
          if w.storage.whitelist dst START_HEIGHT = none
          then [.WhitelistWallet dst data] else [] }).first = some w' := by
  rcases w with ⟨⟨⟩, evs, fee⟩
  rename_i whitelist
  by_cases hd : dst = EOA_ZERO
  · simp [_whitelistWallet, hd, require]
  cases hr : whitelist dst START_HEIGHT with
  | none =>
      simp [_whitelistWallet, require, setFeeField, hd, hr, FeeSharing.seed,
        BranchDB.update]
  | some start =>
      simp [_whitelistWallet, require, hd, hr, FeeSharing.seed, BranchDB.update]

/-! ## The transition relation -/

/-- The account that a minting call by `c` credits, and the amount. -/
def Method.minting (c : Address) : Method → Option (Address × Int)
  | .mint value => some (c, value)
  | .mintTo dst value => some (dst, value)
  | _ => none

/-- An accepted call of `c` at block height `now` in the storage `s`: the
storage it leaves and the events it has emitted when it first loses
control, and its fee share. -/
inductive Effect (now : Int) (s : Storage) (c : Address) :
    Method → Storage → List Event → Int → Prop
  | transfer {dst value data limit} (hl : s.freeDailyTxLimit = some limit)
      (hv : 0 < value) (hb : value ≤ balanceOf s c) (hd : dst ≠ EOA_ZERO)
      (hp : s.paused = some false) :
      Effect now s c (.transfer dst value data)
        { s with
          whitelist := s.whitelist.update c fun r => (r.charge now limit).1
          balances := (s.balances.debit c value).credit dst value }
        (if dst.isContract then []
          else [.Transfer c dst value (data.getD (getBytes "None"))])
        (if ((s.whitelist c).charge now limit).2 then 100 else 0)
  | changeFreeDailyTxLimit {newLimit} (ha : s.admin = some c)
      (h : 0 ≤ newLimit) :
      Effect now s c (.changeFreeDailyTxLimit newLimit)
        { s with freeDailyTxLimit := some newLimit }
        [.DailyTransactionLimit c newLimit] 0
  | addIssuer {issuer n} (ha : s.admin = some c) (hi : issuer ∉ s.issuers)
      (hn : s.nIssuers = some n) (hlt : (s.issuers.length : Int) < intValue n) :
      Effect now s c (.addIssuer issuer)
        { s with issuers := s.issuers ++ [issuer] } [.AddIssuer c issuer] 0
  | removeIssuer {issuer} (ha : s.admin = some c) (hi : issuer ∈ s.issuers) :
      Effect now s c (.removeIssuer issuer)
        { s with
          issuers := SwapRemove.swapRemove issuer s.issuers
          allowances := s.allowances.set issuer 0 }
        [.RemoveIssuer c issuer (issuerAllowance s issuer)] 0
  | approve {issuer value} (ha : s.admin = some c) (hi : issuer ∈ s.issuers) :
      Effect now s c (.approve issuer value)
        { s with allowances := s.allowances.set issuer value }
        [.Approval c issuer value] 0
  | transferAdminRight {newAdmin} (ha : s.admin = some c)
      (hn : newAdmin ≠ EOA_ZERO) :
      Effect now s c (.transferAdminRight newAdmin)
        { s with admin := some newAdmin } [.TransferAdmin c newAdmin] 0
  | togglePause {paused} (ha : s.admin = some c) (hp : s.paused = some paused) :
      Effect now s c .togglePause
        { s with paused := some (!paused) } [.TogglePause c (!paused)] 0
  | mint {m dst value} (hm : m.minting c = some (dst, value))
      (hd : dst ≠ EOA_ZERO) (hv : 0 < value) (hi : c ∈ s.issuers)
      (hp : s.paused = some false) (ha : value ≤ issuerAllowance s c) :
      Effect now s c m
        { s with
          allowances := s.allowances.debit c value
          whitelist := s.whitelist.update dst (·.seed now)
          totalSupply := some (totalSupply s + value)
          balances := s.balances.credit dst value }
        ((if s.whitelist dst START_HEIGHT = none
            then [.WhitelistWallet dst (getBytes "whitelist on mint")] else [])
          ++ [.Transfer EOA_ZERO dst value (getBytes "mint"), .Mint dst value]) 0
  | burn {value} (hc : c ≠ EOA_ZERO) (hv : 0 < value)
      (hb : value ≤ balanceOf s c) (hp : s.paused = some false) :
      Effect now s c (.burn value)
        { s with
          totalSupply := some (totalSupply s - value)
          balances := s.balances.debit c value }
        [.Transfer c EOA_ZERO value (getBytes "burn"), .Burn c value] 0
  | update {name symbol decimals admin nIssuers} (hn : s.name ≠ none) :
      Effect now s c (.update name symbol decimals admin nIssuers) s [] 0

/-- The constructor has run: its cells are set. -/
structure Deployed (s : Storage) : Prop where
  name : s.name.isSome
  admin : s.admin.isSome
  nIssuers : s.nIssuers.isSome
  paused : s.paused.isSome
  freeDailyTxLimit : s.freeDailyTxLimit.isSome

section

variable {ctx : Context} {w w' : World}

/-- `_transfer` up to its external call. -/
theorem _transfer_first {src dst : Address} {value : Int} {data : Option Bytes} :
    (_transfer src dst value data w).first = some w' ↔
      (0 < value ∧ value ≤ balanceOf w.storage src ∧ dst ≠ EOA_ZERO
        ∧ w.storage.paused = some false)
      ∧ w' = { w with
          storage := { w.storage with
            balances := (w.storage.balances.debit src value).credit dst value }
          events := w.events ++ if dst.isContract then []
            else [.Transfer src dst value (data.getD (getBytes "None"))] } := by
  by_cases hdst : dst.isContract
  · simp [_transfer, setBalance, balanceOf, DictDB.credit, DictDB.debit, hdst,
      and_assoc]
    exact fun _ _ _ _ => eq_comm
  · simp [_transfer, setBalance, balanceOf, DictDB.credit, DictDB.debit, hdst,
      and_assoc]
    exact fun _ _ _ _ => eq_comm

theorem _mint_first {dst : Address} {value : Int} :
    (_mint ctx dst value w).first = some w' ↔
      (dst ≠ EOA_ZERO ∧ 0 < value ∧ ctx.caller ∈ w.storage.issuers
        ∧ w.storage.paused = some false
        ∧ value ≤ issuerAllowance w.storage ctx.caller)
      ∧ w' = { w with
          storage := { w.storage with
            allowances := w.storage.allowances.debit ctx.caller value
            whitelist := w.storage.whitelist.update dst (·.seed ctx.blockHeight)
            totalSupply := some (totalSupply w.storage + value)
            balances := w.storage.balances.credit dst value }
          events := w.events
            ++ ((if w.storage.whitelist dst START_HEIGHT = none
                then [.WhitelistWallet dst (getBytes "whitelist on mint")] else [])
              ++ [.Transfer EOA_ZERO dst value (getBytes "mint"),
                .Mint dst value]) } := by
  by_cases hd : dst = EOA_ZERO
  · simp [_mint, hd]
  · simp [_mint, setAllowance, setBalance, balanceOf, issuerAllowance, totalSupply,
      DictDB.credit, DictDB.debit, first_whitelistWallet, isIssuer_iff, and_assoc, hd]
    exact fun _ _ _ _ => eq_comm

theorem _burn_first {src : Address} {value : Int} :
    (_burn src value w).first = some w' ↔
      (src ≠ EOA_ZERO ∧ 0 < value ∧ value ≤ balanceOf w.storage src
        ∧ w.storage.paused = some false)
      ∧ w' = { w with
          storage := { w.storage with
            totalSupply := some (totalSupply w.storage - value)
            balances := w.storage.balances.debit src value }
          events := w.events
            ++ [.Transfer src EOA_ZERO value (getBytes "burn"), .Burn src value] } := by
  simp [_burn, setBalance, balanceOf, totalSupply, DictDB.debit, and_assoc]
  exact fun _ _ _ _ => eq_comm

end

/-- What the loop of `removeIssuer` leaves. -/
theorem replaceIssuer_eq (issuer top : Address) (issuers : ArrayDB Address) :
    replaceIssuer issuer top issuers = SwapRemove.replace issuer top issuers :=
  SwapRemove.foldl_set_eq_replace issuer top issuers

section

variable {ctx : Context} {w w' : World}

theorem transfer_first {dst : Address} {value limit : Int} {data : Option Bytes}
    (hl : w.storage.freeDailyTxLimit = some limit) :
    (transfer ctx dst value data w).first = some w' ↔
      (0 < value ∧ value ≤ balanceOf w.storage ctx.caller ∧ dst ≠ EOA_ZERO
        ∧ w.storage.paused = some false)
      ∧ w' = { w with
          storage := { w.storage with
            whitelist := w.storage.whitelist.update ctx.caller
              fun r => (r.charge ctx.blockHeight limit).1
            balances :=
              (w.storage.balances.debit ctx.caller value).credit dst value }
          events := w.events ++ if dst.isContract then []
            else [.Transfer ctx.caller dst value (data.getD (getBytes "None"))]
          feeSharing :=
            if ((w.storage.whitelist ctx.caller).charge ctx.blockHeight limit).2
            then 100 else w.feeSharing } := by
  rw [transfer, Program.bind_apply, setFeeSharingPercentage_apply hl,
    Outcome.bind_done, _transfer_first]
  rfl

theorem changeFreeDailyTxLimit_first {newLimit : Int} :
    (changeFreeDailyTxLimit ctx newLimit w).first = some w' ↔
      (w.storage.admin = some ctx.caller ∧ 0 ≤ newLimit)
      ∧ w' = { w with
          storage := { w.storage with freeDailyTxLimit := some newLimit }
          events := w.events ++ [.DailyTransactionLimit ctx.caller newLimit] } := by
  simp [changeFreeDailyTxLimit]
  constructor
  · rintro ⟨hn, ha, rfl⟩
    exact ⟨⟨ha, hn⟩, rfl⟩
  · rintro ⟨⟨ha, hn⟩, rfl⟩
    exact ⟨hn, ha, rfl⟩

theorem addIssuer_first {issuer : Address} :
    (addIssuer ctx issuer w).first = some w' ↔
      (w.storage.admin = some ctx.caller ∧ issuer ∉ w.storage.issuers
        ∧ ∃ n, w.storage.nIssuers = some n
          ∧ (w.storage.issuers.length : Int) < intValue n)
      ∧ w' = { w with
          storage := { w.storage with issuers := w.storage.issuers ++ [issuer] }
          events := w.events ++ [.AddIssuer ctx.caller issuer] } := by
  simp [addIssuer, isIssuer_iff, ArrayDB.add]
  constructor
  · rintro ⟨hi, ha, n, hn, hlt, rfl⟩
    exact ⟨⟨ha, hi, n, hn, hlt⟩, rfl⟩
  · rintro ⟨⟨ha, hi, n, hn, hlt⟩, rfl⟩
    exact ⟨hi, ha, n, hn, hlt, rfl⟩

theorem removeIssuer_first {issuer : Address} :
    (removeIssuer ctx issuer w).first = some w' ↔
      (w.storage.admin = some ctx.caller ∧ issuer ∈ w.storage.issuers)
      ∧ w' = { w with
          storage := { w.storage with
            issuers := SwapRemove.swapRemove issuer w.storage.issuers
            allowances := w.storage.allowances.set issuer 0 }
          events := w.events ++ [.RemoveIssuer ctx.caller issuer
            (issuerAllowance w.storage issuer)] } := by
  rcases w with ⟨⟨⟩, evs, fee⟩
  rename_i issuers _ _ _ _ _ _
  rcases List.eq_nil_or_concat issuers with rfl | ⟨rest, top, rfl⟩
  · simp [removeIssuer, isIssuer_iff]
  · rw [List.concat_eq_append]
    by_cases ht : top = issuer
    · simp [removeIssuer, isIssuer_iff, ArrayDB.pop, ht, setAllowance,
        SwapRemove.swapRemove_concat, issuerAllowance]
      exact fun _ => eq_comm
    · simp [removeIssuer, isIssuer_iff, ArrayDB.pop, ht, setAllowance,
        SwapRemove.swapRemove_concat, issuerAllowance, replaceIssuer_eq, and_assoc]
      exact fun _ _ => eq_comm

theorem approve_first {issuer : Address} {value : Int} :
    (approve ctx issuer value w).first = some w' ↔
      (w.storage.admin = some ctx.caller ∧ issuer ∈ w.storage.issuers)
      ∧ w' = { w with
          storage := { w.storage with
            allowances := w.storage.allowances.set issuer value }
          events := w.events ++ [.Approval ctx.caller issuer value] } := by
  simp [approve, setAllowance, isIssuer_iff, and_assoc]
  exact fun _ _ => eq_comm

theorem transferAdminRight_first {newAdmin : Address} :
    (transferAdminRight ctx newAdmin w).first = some w' ↔
      (w.storage.admin = some ctx.caller ∧ newAdmin ≠ EOA_ZERO)
      ∧ w' = { w with
          storage := { w.storage with admin := some newAdmin }
          events := w.events ++ [.TransferAdmin ctx.caller newAdmin] } := by
  simp [transferAdminRight]
  constructor
  · rintro ⟨hn, ha, rfl⟩
    exact ⟨⟨ha, hn⟩, rfl⟩
  · rintro ⟨⟨ha, hn⟩, rfl⟩
    exact ⟨hn, ha, rfl⟩

theorem togglePause_first :
    (togglePause ctx w).first = some w' ↔
      ∃ paused, (w.storage.admin = some ctx.caller
          ∧ w.storage.paused = some paused)
        ∧ w' = { w with
            storage := { w.storage with paused := some (!paused) }
            events := w.events ++ [.TogglePause ctx.caller (!paused)] } := by
  cases hp : w.storage.paused with
  | none => simp [togglePause, isPaused, hp]
  | some paused =>
      simp [togglePause, isPaused, hp, and_assoc]
      exact fun _ => eq_comm

/-- An update of a deployed contract does nothing. -/
theorem constructor_first {name symbol : String} {decimals : Int}
    {admin : Address} {nIssuers : Int} (hn : w.storage.name ≠ none) :
    (constructor name symbol decimals admin nIssuers w).first = some w' ↔
      w' = w := by
  simp [constructor, hn, eq_comm]

end

/-! ## The transition relation is the code -/

section

variable {now : Int} {k : Call} {w w' : World}

theorem body_apply (now : Int) (k : Call) (w : World) :
    body now k w = external ⟨k.caller, now⟩ k.method { w with feeSharing := 0 } :=
  rfl

/-- An accepted call of a deployed contract has an effect. -/
theorem Effect.of_first (hd : Deployed w.storage)
    (h : (body now k w).first = some w') :
    ∃ s evs fee, Effect now w.storage k.caller k.method s evs fee
      ∧ w' = ⟨s, w.events ++ evs, fee⟩ := by
  obtain ⟨c, m⟩ := k
  rw [body_apply] at h
  cases m with
  | transfer dst value data =>
      obtain ⟨limit, hl⟩ := Option.isSome_iff_exists.mp hd.freeDailyTxLimit
      obtain ⟨⟨hv, hb, hdst, hp⟩, rfl⟩ :=
        (transfer_first (w := { w with feeSharing := 0 }) hl).mp h
      exact ⟨_, _, _, .transfer hl hv hb hdst hp, rfl⟩
  | changeFreeDailyTxLimit newLimit =>
      obtain ⟨⟨ha, hn⟩, rfl⟩ := changeFreeDailyTxLimit_first.mp h
      exact ⟨_, _, _, .changeFreeDailyTxLimit ha hn, rfl⟩
  | addIssuer issuer =>
      obtain ⟨⟨ha, hi, n, hn, hlt⟩, rfl⟩ := addIssuer_first.mp h
      exact ⟨_, _, _, .addIssuer ha hi hn hlt, rfl⟩
  | removeIssuer issuer =>
      obtain ⟨⟨ha, hi⟩, rfl⟩ := removeIssuer_first.mp h
      exact ⟨_, _, _, .removeIssuer ha hi, rfl⟩
  | approve issuer value =>
      obtain ⟨⟨ha, hi⟩, rfl⟩ := approve_first.mp h
      exact ⟨_, _, _, .approve ha hi, rfl⟩
  | transferAdminRight newAdmin =>
      obtain ⟨⟨ha, hn⟩, rfl⟩ := transferAdminRight_first.mp h
      exact ⟨_, _, _, .transferAdminRight ha hn, rfl⟩
  | togglePause =>
      obtain ⟨paused, ⟨ha, hp⟩, rfl⟩ := togglePause_first.mp h
      exact ⟨_, _, _, .togglePause ha hp, rfl⟩
  | mint value =>
      obtain ⟨⟨hd, hv, hi, hp, ha⟩, rfl⟩ := _mint_first.mp h
      exact ⟨_, _, _, .mint rfl hd hv hi hp ha, rfl⟩
  | mintTo dst value =>
      obtain ⟨⟨hd, hv, hi, hp, ha⟩, rfl⟩ := _mint_first.mp h
      exact ⟨_, _, _, .mint rfl hd hv hi hp ha, rfl⟩
  | burn value =>
      obtain ⟨⟨hc, hv, hb, hp⟩, rfl⟩ := _burn_first.mp h
      exact ⟨_, _, _, .burn hc hv hb hp, rfl⟩
  | update name symbol decimals admin nIssuers =>
      have hn := Option.isSome_iff_ne_none.mp hd.name
      obtain rfl := (constructor_first (w := { w with feeSharing := 0 }) hn).mp h
      exact ⟨_, [], 0, .update hn, by simp⟩

/-- A call that has an effect is accepted. -/
theorem Effect.first {s : Storage} {evs : List Event} {fee : Int}
    (h : Effect now w.storage k.caller k.method s evs fee) :
    (body now k w).first = some ⟨s, w.events ++ evs, fee⟩ := by
  obtain ⟨c, m⟩ := k
  rw [body_apply]
  cases h with
  | transfer hl hv hb hd hp =>
      rw [external, transfer_first (w := { w with feeSharing := 0 }) hl]
      exact ⟨⟨hv, hb, hd, hp⟩, rfl⟩
  | changeFreeDailyTxLimit ha h =>
      rw [external, changeFreeDailyTxLimit_first]
      exact ⟨⟨ha, h⟩, rfl⟩
  | addIssuer ha hi hn hlt =>
      rw [external, addIssuer_first]
      exact ⟨⟨ha, hi, _, hn, hlt⟩, rfl⟩
  | removeIssuer ha hi =>
      rw [external, removeIssuer_first]
      exact ⟨⟨ha, hi⟩, rfl⟩
  | approve ha hi =>
      rw [external, approve_first]
      exact ⟨⟨ha, hi⟩, rfl⟩
  | transferAdminRight ha hn =>
      rw [external, transferAdminRight_first]
      exact ⟨⟨ha, hn⟩, rfl⟩
  | togglePause ha hp =>
      rw [external, togglePause_first]
      exact ⟨_, ⟨ha, hp⟩, rfl⟩
  | mint hm hd hv hi hp ha =>
      cases m <;> cases hm
      · exact _mint_first.mpr ⟨⟨hd, hv, hi, hp, ha⟩, rfl⟩
      · exact _mint_first.mpr ⟨⟨hd, hv, hi, hp, ha⟩, rfl⟩
  | burn hc hv hb hp =>
      exact _burn_first.mpr ⟨⟨hc, hv, hb, hp⟩, rfl⟩
  | update hn =>
      rw [external, constructor_first (w := { w with feeSharing := 0 }) hn]
      simp

/-- **The transition relation is the code.** In a deployed storage a call
is accepted exactly with the effects that `Effect` gives it. -/
theorem body_first_iff (hd : Deployed w.storage) :
    (body now k w).first = some w' ↔
      ∃ s evs fee, Effect now w.storage k.caller k.method s evs fee
        ∧ w' = ⟨s, w.events ++ evs, fee⟩ :=
  ⟨Effect.of_first hd, fun ⟨_, _, _, he, hw⟩ => hw ▸ he.first⟩

end

end StableCoin
