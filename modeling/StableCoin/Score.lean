import StableCoin.AbstractStableCoin

/-!
# The contract

`StableCoin`: the constructor, the read-only methods with logic of their
own, and the external methods. `body` is the contract as the machine of
`Reentrancy` runs it: one external call, made by a caller at a block
height. A contract update runs the constructor again over the storage it
finds; it is a call like the others.
-/

namespace StableCoin

open Reentrancy

/-! ## Constructor -/

def constructor (name symbol : String) (decimals : Int) (admin : Address)
    (nIssuers : Int) : Exec Unit := do
  if (← load).name = none then
    let nIssuers := if nIssuers = 0 then 2 else nIssuers
    require (name.length > 0) "Invalid Token Name"
    require (symbol.length > 0) "Invalid Token Symbol Name"
    require (decimals > 0) "Decimals cannot be less than 0"
    require (nIssuers > 0) "1 or more issuers required"
    require (admin ≠ EOA_ZERO) "Cannot set zero address as admin"
    store fun s => { s with
      admin := some admin
      nIssuers := some nIssuers
      name := some name
      symbol := some symbol
      decimals := some decimals
      totalSupply := some 0
      paused := some false
      freeDailyTxLimit := some 50 }

/-! ## Read-only methods -/

/-- The amount of tokens that `issuer` can mint at this point in time. -/
def issuerAllowance (s : Storage) (issuer : Address) : Int :=
  s.allowances.getOrDefault issuer 0

/-- Whether a wallet address is whitelisted. -/
def isWhitelisted (s : Storage) (owner : Address) : Bool :=
  (s.whitelist owner START_HEIGHT).isSome

def isPaused : Exec Bool := do
  deref (← load).paused

/-- The number of free transactions left for `owner`. -/
def remainingFreeTxThisTerm (ctx : Context) (owner : Address) : Exec Int := do
  let userFeeSharing := (← load).whitelist owner
  let currentBlockHeight := ctx.blockHeight
  match userFeeSharing START_HEIGHT with
  | some startHeight =>
      if startHeight + TERM_LENGTH < currentBlockHeight then
        deref (← load).freeDailyTxLimit
      else
        return (← deref (← load).freeDailyTxLimit)
          - (← deref (userFeeSharing TXN_COUNT))
  | none => return 0

/-! ## External methods -/

def transfer (ctx : Context) (dst : Address) (value : Int)
    (data : Option Bytes) : Exec Unit := do
  setFeeSharingPercentage ctx
  _transfer ctx.caller dst value data

def changeFreeDailyTxLimit (ctx : Context) (newLimit : Int) : Exec Unit := do
  require (newLimit ≥ 0) "Free daily transaction limit cannot be under 0."
  onlyAdmin ctx "Only admin can change free daily transaction limit"
  store fun s => { s with freeDailyTxLimit := some newLimit }
  emit (.DailyTransactionLimit ctx.caller newLimit)

def addIssuer (ctx : Context) (issuer : Address) : Exec Unit := do
  require (¬ isIssuer (← load) issuer)
    (issuer.toString ++ " is already an issuer")
  onlyAdmin ctx "Only admin can add issuer"
  let nIssuers ← deref (← load).nIssuers
  require (((← load).issuers.size : Int) < intValue nIssuers)
    ("Cannot have more than " ++ toString nIssuers ++ " issuers")
  store fun s => { s with issuers := s.issuers.add issuer }
  emit (.AddIssuer ctx.caller issuer)

/-- The loop of `removeIssuer`: over every index of the shortened array,
write `top` where `issuer` is found. It does not stop at the first hit. -/
def replaceIssuer (issuer top : Address) (issuers : ArrayDB Address) :
    ArrayDB Address :=
  (List.range issuers.size).foldl
    (fun xs i => if xs.get i = some issuer then xs.set i top else xs) issuers

def removeIssuer (ctx : Context) (issuer : Address) : Exec Unit := do
  onlyAdmin ctx "Only admin can remove issuer"
  require (isIssuer (← load) issuer) (issuer.toString ++ " not an issuer")
  let (top, rest) ← match (← load).issuers.pop with
    | some popped => pure popped
    | none => Program.fail .emptyArray
  store fun s => { s with issuers := rest }
  let allowance := issuerAllowance (← load) issuer
  if top ≠ issuer then
    store fun s => { s with issuers := replaceIssuer issuer top s.issuers }
  setAllowance issuer 0
  emit (.RemoveIssuer ctx.caller issuer allowance)

def approve (ctx : Context) (issuer : Address) (value : Int) : Exec Unit := do
  onlyAdmin ctx "Only admin can approve amount to issuer"
  require (isIssuer (← load) issuer) "Only issuers can be approved"
  setAllowance issuer value
  emit (.Approval ctx.caller issuer value)

def transferAdminRight (ctx : Context) (newAdmin : Address) : Exec Unit := do
  require (newAdmin ≠ EOA_ZERO) "Cannot set zero address as admin"
  onlyAdmin ctx "Only admin can transfer their admin right"
  store fun s => { s with admin := some newAdmin }
  emit (.TransferAdmin ctx.caller newAdmin)

def togglePause (ctx : Context) : Exec Unit := do
  onlyAdmin ctx "Only admin can toggle pause"
  let paused ← isPaused
  store fun s => { s with paused := some (!paused) }
  emit (.TogglePause ctx.caller (← isPaused))

def mint (ctx : Context) (value : Int) : Exec Unit :=
  _mint ctx ctx.caller value

def mintTo (ctx : Context) (dst : Address) (value : Int) : Exec Unit :=
  _mint ctx dst value

def burn (ctx : Context) (value : Int) : Exec Unit :=
  _burn ctx.caller value

/-! ## Calls -/

inductive Method where
  | transfer (dst : Address) (value : Int) (data : Option Bytes)
  | changeFreeDailyTxLimit (newLimit : Int)
  | addIssuer (issuer : Address)
  | removeIssuer (issuer : Address)
  | approve (issuer : Address) (value : Int)
  | transferAdminRight (newAdmin : Address)
  | togglePause
  | mint (value : Int)
  | mintTo (dst : Address) (value : Int)
  | burn (value : Int)
  | update (name symbol : String) (decimals : Int) (admin : Address)
      (nIssuers : Int)
deriving DecidableEq, Repr

/-- A state-changing call. -/
structure Call where
  caller : Address
  method : Method
deriving DecidableEq, Repr

def external (ctx : Context) : Method → Exec Unit
  | .transfer dst value data => transfer ctx dst value data
  | .changeFreeDailyTxLimit newLimit => changeFreeDailyTxLimit ctx newLimit
  | .addIssuer issuer => addIssuer ctx issuer
  | .removeIssuer issuer => removeIssuer ctx issuer
  | .approve issuer value => approve ctx issuer value
  | .transferAdminRight newAdmin => transferAdminRight ctx newAdmin
  | .togglePause => togglePause ctx
  | .mint value => mint ctx value
  | .mintTo dst value => mintTo ctx dst value
  | .burn value => burn ctx value
  | .update name symbol decimals admin nIssuers =>
      constructor name symbol decimals admin nIssuers

/-- One call at block height `now`. A call starts with no fee sharing. -/
def body (now : Int) (k : Call) : Exec Unit := do
  setFeeSharingProportion 0
  external ⟨k.caller, now⟩ k.method

end StableCoin
