import StableCoin.Platform

/-!
# The abstract stable coin

`AbstractStableCoin`: the contract's storage, its event logs, and the
internal functions behind the external methods. Each definition follows
the statements of the function it is named after, in their order; a
`require` that fails aborts the whole call.
-/

namespace StableCoin

open Reentrancy

/-! ## Storage and events -/

/-- `43120` blocks: the length of a free-transaction term. -/
def TERM_LENGTH : Int := 43120

/-- The keys of a quota record. -/
inductive FeeField where
  | START_HEIGHT
  | TXN_COUNT
deriving DecidableEq, Repr

export FeeField (START_HEIGHT TXN_COUNT)

/-- A quota record: `_whitelist.at(user)`. -/
abbrev FeeSharing := DictDB FeeField Int

structure Storage where
  name : VarDB String
  symbol : VarDB String
  decimals : VarDB Int
  admin : VarDB Address
  nIssuers : VarDB Int
  issuers : ArrayDB Address
  totalSupply : VarDB Int
  paused : VarDB Bool
  freeDailyTxLimit : VarDB Int
  balances : DictDB Address Int
  allowances : DictDB Address Int
  whitelist : BranchDB Address FeeSharing

/-- The storage of a contract whose constructor has not run. -/
def Storage.empty : Storage where
  name := none
  symbol := none
  decimals := none
  admin := none
  nIssuers := none
  issuers := []
  totalSupply := none
  paused := none
  freeDailyTxLimit := none
  balances := fun _ => none
  allowances := fun _ => none
  whitelist := fun _ _ => none

inductive Event where
  | Transfer (src dst : Address) (value : Int) (data : Bytes)
  | Mint (dst : Address) (value : Int)
  | Burn (src : Address) (value : Int)
  | Approval (src dst : Address) (value : Int)
  | WhitelistWallet (dst : Address) (data : Bytes)
  | DailyTransactionLimit (caller : Address) (limit : Int)
  | AddIssuer (caller issuer : Address)
  | RemoveIssuer (caller issuer : Address) (issuerAllowance : Int)
  | TransferAdmin (caller newAdmin : Address)
  | TogglePause (caller : Address) (status : Bool)
deriving DecidableEq, Repr

/-- What the contract's code reads and writes: its storage, the event logs
emitted so far (oldest first), and the share of the fee, in percent, that
the latest call asked the contract to pay. -/
structure World where
  storage : Storage
  events : List Event
  feeSharing : Int

/-- Code of the contract: it may abort, and may call `tokenFallback`. -/
abbrev Exec := Program Abort Fallback World

/-! ## Statements -/

def load : Exec Storage := fun w => .done w.storage w

def store (f : Storage → Storage) : Exec Unit :=
  Program.modify fun w => { w with storage := f w.storage }

def emit (e : Event) : Exec Unit :=
  Program.modify fun w => { w with events := w.events ++ [e] }

/-- `Context.setFeeSharingProportion`. -/
def setFeeSharingProportion (percent : Int) : Exec Unit :=
  Program.modify fun w => { w with feeSharing := percent }

def require (c : Prop) [Decidable c] (msg : String) : Exec Unit :=
  if c then pure () else Program.fail (.revert msg)

/-- A reference used as a value. -/
def deref {α : Type} : Option α → Exec α
  | some a => pure a
  | none => Program.fail .nullPointer

def setBalance (a : Address) (v : Int) : Exec Unit :=
  store fun s => { s with balances := s.balances.set a v }

def setAllowance (a : Address) (v : Int) : Exec Unit :=
  store fun s => { s with allowances := s.allowances.set a v }

/-- `_whitelist.at(a).set(field, v)`. -/
def setFeeField (a : Address) (field : FeeField) (v : Int) : Exec Unit :=
  store fun s => { s with whitelist := s.whitelist.update a (·.set field v) }

/-! ## Views the internal functions use -/

/-- `totalSupply()`. -/
def totalSupply (s : Storage) : Int := s.totalSupply.getD 0

def balanceOf (s : Storage) (owner : Address) : Int :=
  s.balances.getOrDefault owner 0

/-- The loop over the issuers array, with its early return. -/
def isIssuer (s : Storage) (issuer : Address) : Bool :=
  (List.range s.issuers.size).any fun i => s.issuers.get i == some issuer

/-! ## Internal functions -/

def onlyAdmin (ctx : Context) (msg : String) : Exec Unit := do
  require (some ctx.caller = (← load).admin) msg

def setFeeSharingPercentage (ctx : Context) : Exec Unit := do
  let user := ctx.caller
  let currentBlockHeight := ctx.blockHeight
  if (← load).whitelist user START_HEIGHT = none then
    setFeeField user START_HEIGHT currentBlockHeight
  let startHeight ← deref ((← load).whitelist user START_HEIGHT)
  if startHeight + TERM_LENGTH > currentBlockHeight then
    let count := ((← load).whitelist user).getOrDefault TXN_COUNT 0
    if count < (← deref (← load).freeDailyTxLimit) then
      setFeeField user TXN_COUNT (count + 1)
      setFeeSharingProportion 100
  else
    setFeeField user START_HEIGHT currentBlockHeight
    setFeeField user TXN_COUNT 1
    setFeeSharingProportion 100

def _transfer (src dst : Address) (value : Int) (data : Option Bytes) :
    Exec Unit := do
  require (value > 0) "Cannot transfer zero or less"
  require (balanceOf (← load) src ≥ value) "Insufficient Balance"
  require (dst ≠ EOA_ZERO) "Cannot transfer to zero address"
  require ((← deref (← load).paused) = false) "Cannot transfer when paused"
  setBalance src (balanceOf (← load) src - value)
  -- the recipient's balance is read after the sender's was written
  setBalance dst (balanceOf (← load) dst + value)
  let data := data.getD (getBytes "None")
  if dst.isContract then
    Program.yield (⟨dst, src, value, data⟩ : Fallback)
  emit (.Transfer src dst value data)

/-- Whitelist `dst`, unless it has a quota record already. -/
def _whitelistWallet (ctx : Context) (dst : Address) (data : Bytes) :
    Exec Unit := do
  require (dst ≠ EOA_ZERO) "Can not whitelist zero wallet address"
  if (← load).whitelist dst START_HEIGHT = none then
    setFeeField dst START_HEIGHT ctx.blockHeight
    setFeeField dst TXN_COUNT 1
    emit (.WhitelistWallet dst data)

def _mint (ctx : Context) (dst : Address) (value : Int) : Exec Unit := do
  let issuer := ctx.caller
  require (dst ≠ EOA_ZERO) "Cannot mint to zero address"
  require (value > 0) "Amount to mint should be greater than zero"
  require (isIssuer (← load) issuer) "Only issuers can mint"
  require ((← deref (← load).paused) = false) "Cannot mint when paused"
  require ((← load).allowances.getOrDefault issuer 0 ≥ value)
    "Allowance amount to mint exceed"
  setAllowance issuer ((← load).allowances.getOrDefault issuer 0 - value)
  _whitelistWallet ctx dst (getBytes "whitelist on mint")
  store fun s => { s with totalSupply := some (totalSupply s + value) }
  setBalance dst (balanceOf (← load) dst + value)
  emit (.Transfer EOA_ZERO dst value (getBytes "mint"))
  emit (.Mint dst value)

def _burn (src : Address) (value : Int) : Exec Unit := do
  require (src ≠ EOA_ZERO) "Cannot burn from zero address"
  require (value > 0) "Amount to burn should be greater than zero"
  require (balanceOf (← load) src ≥ value) "Insufficient balance to burn"
  require ((← deref (← load).paused) = false) "Cannot burn when paused"
  store fun s => { s with totalSupply := some (totalSupply s - value) }
  setBalance src (balanceOf (← load) src - value)
  emit (.Transfer src EOA_ZERO value (getBytes "burn"))
  emit (.Burn src value)

end StableCoin
