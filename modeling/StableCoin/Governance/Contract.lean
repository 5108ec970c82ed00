import StableCoin.Outcome
import StableCoin.Governance.NetworkProposal

/-!
# The governance contract

`Governance`: what a proposal of each type has to look like, what approving
it has the host do to the network, the auditors who accept and reject
deployments, and the external methods. Accepting a deployment runs the
deployed code before the acceptance is recorded.
-/

namespace Governance

open Python Reentrancy
open StableCoin (Address ArrayDB Bytes DictDB VarDB)

def VERSION : String := "1.2.0"

/-- The cost table a fresh contract starts with. -/
def costs_v1 : List (String × String) :=
  [("schema", "0x1"), ("default", "0x186a0"), ("input", "0xc8"), ("contractCall", "0x61a8"),
    ("contractCreate", "0x3b9aca00"), ("contractUpdate", "0x3b9aca00"),
    ("contractSet", "0x3a98"), ("get", "0x19"), ("set", "0x140"), ("delete", "-0xf0"),
    ("apiCall", "0x2710"), ("getBase", "0xbb8"), ("setBase", "0x2710"),
    ("deleteBase", "0xc8"), ("logBase", "0x1388"), ("log", "0x64"),
    ("contractDestruct", "0x0"), ("replace", "0x0"), ("eventLog", "0x0")]

def ALL_STEP_TYPES : List String :=
  ["default", "contractCall", "contractCreate", "contractUpdate", "contractDestruct",
    "contractSet", "get", "set", "replace", "delete", "input", "eventLog", "apiCall",
    "schema", "getBase", "setBase", "deleteBase", "logBase", "log"]

inductive MaliciousScoreType where
  | FREEZE
  | UNFREEZE
deriving DecidableEq, Repr

def MaliciousScoreType.ofInt : Int → Option MaliciousScoreType
  | 0 => some .FREEZE
  | 1 => some .UNFREEZE
  | _ => none

/-! ## State -/

inductive Event where
  | Accepted (txHash : String)
  | Rejected (txHash reason : String)
  | StepPriceChanged (stepPrice : Int)
  | StepCostChanged (type : String) (stepCost : Int)
  | RevisionChanged (revisionCode : Int) (revisionName : String)
  | MaliciousScore (address : Address) (unfreeze : MaliciousScoreType)
  | PRepDisqualified (address : Address) (success : Bool) (reason : String)
  | IRepChanged (irep : Int)
  | NetworkProposalRegistered (title description : String) (type : Int) (value : Bytes)
      (proposer : Address)
  | NetworkProposalCanceled (id : Bytes)
  | NetworkProposalVoted (id : Bytes) (vote : Int) (voter : Address)
  | NetworkProposalApproved (id : Bytes)
  | RewardFundSettingChanged (iglobal : Int)
  | RewardFundAllocationChanged (allocation : RewardFundAllocation)
deriving DecidableEq, Repr

/-- What the contract keeps, the network that the host keeps, and the event
logs. -/
structure World (V : Type) where
  version : VarDB String
  auditor_list : ArrayDB Address
  audit_status : DictDB Bytes Bytes
  reject_status : DictDB Bytes Bytes
  network_proposal : NetworkProposal
  network : V
  events : List Event

/-- Code of the contract: it may abort, and may have code deployed. -/
abbrev Exec (V : Type) := Program Abort Deploy (World V)

variable {V : Type}

instance : MonadLift (Except Abort) (Exec V) where
  monadLift := Program.ofExcept

instance : MonadLift (Except Exception) (Exec V) where
  monadLift x := Program.ofExcept (x.mapError .raised)

def emit (e : Event) : Exec V Unit :=
  Program.modify fun w => { w with events := w.events ++ [e] }

/-- Have the host do `f`. -/
def system (f : V → Except Abort V) : Exec V Unit := do
  let v ← f (← Program.read).network
  Program.modify fun w => { w with network := v }

/-! ## What a proposal has to look like -/

def _validate_text_proposal (value : Json) : Except Exception Bool := do
  let text ← value.getItem "value"
  return text.isStr

def _validate_revision_proposal (host : Host V) (value : Json) : Except Exception Bool := do
  let _code ← host.int (← value.getItem "code")
  let name ← value.getItem "name"
  return name.isStr

def _validate_malicious_score_proposal (host : Host V) (value : Json) :
    Except Exception Bool := do
  let address ← host.fromString (← value.getItem "address")
  let type ← host.int (← value.getItem "type")
  return address.isContract && (MaliciousScoreType.ofInt type).isSome

def _validate_prep_disqualification_proposal (host : Host V) (ctx : Context) (value : Json) :
    Except Exception Bool := do
  let address ← host.fromString (← value.getItem "address")
  return (ctx.mainPReps.preps ++ ctx.subPReps).any (·.address = address)

def _validate_step_price_proposal (host : Host V) (v : V) (value : Json) :
    Except Exception Bool := do
  let step_price ← host.int (← value.getItem "value")
  let step_price_org : Int := host.get_icon_network_value v .STEP_PRICE
  let max_step_price := (step_price_org * 125).fdiv 100
  let min_step_price := (step_price_org * 75).fdiv 100
  return min_step_price ≤ step_price ∧ step_price ≤ max_step_price

def _validate_irep_proposal (host : Host V) (ctx : Context) (value : Json) :
    Except Abort Bool := do
  let irep ← host.int (← value.getItem "value")
  ctx.validateIRep irep
  return true

/-- `except KeyError` and `except ValueError`: the proposal is not valid. -/
def caught (x : Except Exception Bool) : Except Exception Bool :=
  match x with
  | .error .keyError => .ok false
  | .error .valueError => .ok false
  | x => x

def checkCosts (host : Host V) : List (String × Json) → Except Exception Bool
  | [] => return true
  | (k, v) :: items => do
      if k ∉ ALL_STEP_TYPES then
        return false
      let _ ← host.int v
      checkCosts host items

def _validate_step_costs_proposal (host : Host V) (value : Json) : Except Exception Bool :=
  match value with
  | .dict _ => caught do
      match ← value.getItem "costs" with
      | .dict costs => checkCosts host costs
      | _ => return false
  | _ => return false

def _validate_reward_fund_setting_proposal (host : Host V) (ctx : Context) (value : Json) :
    Except Abort Bool := do
  let iglobal ← host.int (← value.getItem "iglobal")
  ctx.validateRewardFund iglobal
  return true

/-- The loop over the funds, with the keys not seen yet and the total. -/
def checkFunds (host : Host V) :
    List (String × Json) → List String → Int → Except Exception Bool
  | [], valid_keys, total => return total = 100 ∧ valid_keys = []
  | (k, v) :: items, valid_keys, total => do
      if k ∉ valid_keys then
        return false
      let i ← host.int v
      if i < 0 then
        return false
      checkFunds host items (valid_keys.erase k) (total + i)

def _validate_reward_fund_allocation_proposal (host : Host V) (value : Json) :
    Except Exception Bool :=
  match value with
  | .dict _ => caught do
      match ← value.getItem "rewardFunds" with
      | .dict funds => checkFunds host funds ["iprep", "icps", "irelay", "ivoter"] 0
      | _ => return false
  | _ => return false

def _validate_network_proposal (host : Host V) (ctx : Context) (v : V)
    (proposal_type : Int) (value : Json) : Except Abort Bool :=
  match NetworkProposalType.ofInt proposal_type with
  | some .TEXT => _validate_text_proposal value
  | some .REVISION => _validate_revision_proposal host value
  | some .MALICIOUS_SCORE => _validate_malicious_score_proposal host value
  | some .PREP_DISQUALIFICATION => _validate_prep_disqualification_proposal host ctx value
  | some .STEP_PRICE => _validate_step_price_proposal host v value
  | some .IREP => _validate_irep_proposal host ctx value
  | some .STEP_COSTS => _validate_step_costs_proposal host value
  | some .REWARD_FUND_SETTING => _validate_reward_fund_setting_proposal host ctx value
  | some .REWARD_FUND_ALLOCATION => _validate_reward_fund_allocation_proposal host value
  | none => .ok false

/-! ## What approving a proposal does -/

def _set_revision (host : Host V) (code name : Json) : Exec V Unit := do
  let code ← host.int code
  let prev_code : Int := host.get_icon_network_value (← Program.read).network .REVISION_CODE
  require (¬ code < prev_code) "can't decrease code"
  let name ← name.asStr
  system (host.set_icon_network_value .REVISION_CODE code)
  system (host.set_icon_network_value .REVISION_NAME name)
  system (host.apply_revision_change code)
  emit (.RevisionChanged code name)

def _addToScoreBlackList (host : Host V) (address : Address) : Exec V Unit := do
  require (address.isContract) ("Invalid SCORE Address: " ++ str address)
  require (host.address ≠ address) "can't add myself"
  let score_black_list : List Address :=
    host.get_icon_network_value (← Program.read).network .SCORE_BLACK_LIST
  require (address ∉ score_black_list) "Invalid address: already SCORE blacklist"
  system (host.set_icon_network_value .SCORE_BLACK_LIST (score_black_list ++ [address]))
  emit (.MaliciousScore address .FREEZE)

def _removeFromScoreBlackList (host : Host V) (address : Address) : Exec V Unit := do
  require (address.isContract) ("Invalid SCORE Address: " ++ str address)
  let score_black_list : List Address :=
    host.get_icon_network_value (← Program.read).network .SCORE_BLACK_LIST
  require (address ∈ score_black_list) "Invalid address: not in list"
  system (host.set_icon_network_value .SCORE_BLACK_LIST (score_black_list.erase address))
  emit (.MaliciousScore address .UNFREEZE)

def _malicious_score (host : Host V) (address type : Json) : Exec V Unit := do
  let converted_address ← host.fromString address
  let converted_type ← host.int type
  match MaliciousScoreType.ofInt converted_type with
  | some .FREEZE => _addToScoreBlackList host converted_address
  | some .UNFREEZE => _removeFromScoreBlackList host converted_address
  | none => pure ()

def _disqualify_prep (host : Host V) (address : Json) : Exec V Unit := do
  let address ← host.fromString address
  let (v, success, reason) ← host.disqualify_prep address (← Program.read).network
  Program.modify fun w => { w with network := v }
  emit (.PRepDisqualified address success reason)

def _set_step_price (host : Host V) (value : Json) : Exec V Unit := do
  let step_price ← host.int value
  if step_price > 0 then
    system (host.set_icon_network_value .STEP_PRICE step_price)
    emit (.StepPriceChanged step_price)

def _set_irep (host : Host V) (value : Json) : Exec V Unit := do
  let irep ← host.int value
  if irep > 0 then
    system (host.set_icon_network_value .IREP (some irep))
    emit (.IRepChanged irep)

/-- The items of a dictionary, with their values read as numbers. -/
def readCosts (host : Host V) (items : List (String × Json)) :
    Except Exception (List (String × Int)) :=
  items.mapM fun (k, v) => do return (k, ← host.int v)

def _set_step_costs (host : Host V) (costs : Json) : Exec V Unit := do
  let step_costs ← readCosts host (← costs.items)
  system (host.set_icon_network_value .STEP_COSTS step_costs)
  Program.modify fun w => { w with
    events := w.events ++ step_costs.map fun (k, v) => .StepCostChanged k v }

def _set_reward_fund (host : Host V) (iglobal : Json) : Exec V Unit := do
  let iglobal_int ← host.int iglobal
  if iglobal_int > 0 then
    system (host.set_reward_fund iglobal_int)
    emit (.RewardFundSettingChanged iglobal_int)

/-- The loop over the funds: whatever is none of the first three is the
voters' share. -/
def readFunds (host : Host V) :
    List (String × Json) → RewardFundAllocation → Except Exception RewardFundAllocation
  | [], shares => return shares
  | (k, v) :: items, shares => do
      let i ← host.int v
      readFunds host items
        (if k = "iprep" then { shares with iprep := i }
        else if k = "icps" then { shares with icps := i }
        else if k = "irelay" then { shares with irelay := i }
        else { shares with ivoter := i })

def _set_reward_fund_allocation (host : Host V) (funds : Json) : Exec V Unit := do
  let shares ← readFunds host (← funds.items) ⟨0, 0, 0, 0⟩
  system (host.set_reward_fund_allocation shares)
  emit (.RewardFundAllocationChanged shares)

def _approve_network_proposal (host : Host V) (proposal_type : Int) (value : Json) :
    Exec V Unit := do
  match NetworkProposalType.ofInt proposal_type with
  | some .TEXT => pure ()
  | some .REVISION =>
      value.onlyKeys ["code", "name"]
      _set_revision host (← value.argument "code") (← value.argument "name")
  | some .MALICIOUS_SCORE =>
      value.onlyKeys ["address", "type"]
      _malicious_score host (← value.argument "address") (← value.argument "type")
  | some .PREP_DISQUALIFICATION =>
      value.onlyKeys ["address"]
      _disqualify_prep host (← value.argument "address")
  | some .STEP_PRICE =>
      value.onlyKeys ["value"]
      _set_step_price host (← value.argument "value")
  | some .IREP =>
      value.onlyKeys ["value"]
      _set_irep host (← value.argument "value")
  | some .STEP_COSTS => _set_step_costs host (← value.getItem "costs")
  | some .REWARD_FUND_SETTING =>
      value.onlyKeys ["iglobal"]
      _set_reward_fund host (← value.argument "iglobal")
  | some .REWARD_FUND_ALLOCATION =>
      _set_reward_fund_allocation host (← value.getItem "rewardFunds")
  | none => pure ()

def getStepPrice (host : Host V) (w : World V) : Int :=
  host.get_icon_network_value w.network .STEP_PRICE

/-! ## Proposals -/

def _check_main_prep (address : Address) (main_preps : List PRep) : Bool :=
  main_preps.any (·.address = address)

def registerProposal (host : Host V) (ctx : Context) (now : Int) (title description : String)
    (type : Int) (value : Bytes) : Exec V Unit := do
  require (_check_main_prep ctx.sender ctx.mainPReps.preps)
    "No permission - only for main prep"
  require (¬ ctx.mainPReps.expireBlockHeight < now) "Invalid main P-Rep term information"
  let value_in_dict ← found (host.jsonLoads value) (.raised .valueError)
  let valid ← _validate_network_proposal host ctx (← Program.read).network type value_in_dict
  require valid ("Invalid parameter - type: " ++ toString type ++ ", value: "
    ++ host.repr value_in_dict)
  Program.modify fun w => { w with
    network_proposal := w.network_proposal.register_proposal host ctx.txHash ctx.sender now
      ctx.mainPReps.expireBlockHeight title description type value_in_dict
      ctx.mainPReps.preps }
  emit (.NetworkProposalRegistered title description type value ctx.sender)

def cancelProposal (host : Host V) (ctx : Context) (now : Int) (id : Bytes) : Exec V Unit := do
  require (_check_main_prep ctx.sender ctx.mainPReps.preps)
    "No permission - only for main prep"
  let db ← (← Program.read).network_proposal.cancel_proposal host id ctx.sender now
  Program.modify fun w => { w with network_proposal := db }
  emit (.NetworkProposalCanceled id)

def voteProposal (host : Host V) (ctx : Context) (now : Int) (id : Bytes) (vote : Int) :
    Exec V Unit := do
  require (_check_main_prep ctx.sender ctx.mainPReps.preps)
    "No permission - only for main prep"
  let (db, approved, proposal_type, value) ←
    (← Program.read).network_proposal.vote_proposal host id ctx.sender vote now ctx.txHash
      ctx.timestamp ctx.mainPReps.preps
  Program.modify fun w => { w with network_proposal := db }
  emit (.NetworkProposalVoted id vote ctx.sender)
  if approved then
    emit (.NetworkProposalApproved id)
    _approve_network_proposal host proposal_type value

/-! ## Deployments -/

/-- A hash of the database that is set. -/
def isSet (d : DictDB Bytes Bytes) (txHash : Bytes) : Bool :=
  (d txHash).any (· ≠ [])

/-- The deployed code runs as its owner. -/
def _deploy (ctx : Context) (tx_hash : Bytes) (score_addr : Address) : Exec V Unit :=
  Program.yield (⟨tx_hash, ctx.scoreOwner score_addr⟩ : Deploy)

def acceptScore (ctx : Context) (txHash : Bytes) : Exec V Unit := do
  require (ctx.sender ∈ (← Program.read).auditor_list) "Invalid sender: no permission"
  let deploy_score_addr ← found (ctx.deployTxParams txHash) (.revert "Invalid txHash: None")
  let deploy_info := ctx.deployInfo deploy_score_addr
  require (some txHash = deploy_info.nextTxHash)
    (if some txHash = deploy_info.currentTxHash then "Invalid txHash: already accepted"
    else "Invalid txHash: mismatch")
  require (¬ isSet (← Program.read).audit_status txHash) "Invalid txHash: already accepted"
  require (¬ isSet (← Program.read).reject_status txHash) "Invalid txHash: already rejected"
  _deploy ctx txHash deploy_score_addr
  Program.modify fun w => { w with audit_status := w.audit_status.set txHash ctx.txHash }
  emit (.Accepted ("0x" ++ bytesHex txHash))

def rejectScore (ctx : Context) (txHash : Bytes) (reason : String) : Exec V Unit := do
  require (ctx.sender ∈ (← Program.read).auditor_list) "Invalid sender: no permission"
  require (ctx.deployTxParams txHash).isSome "Invalid txHash"
  require (¬ isSet (← Program.read).audit_status txHash) "Invalid txHash: already accepted"
  require (¬ isSet (← Program.read).reject_status txHash) "Invalid txHash: already rejected"
  Program.modify fun w => { w with reject_status := w.reject_status.set txHash ctx.txHash }
  emit (.Rejected ("0x" ++ bytesHex txHash) reason)

/-! ## Auditors -/

def addAuditor (host : Host V) (ctx : Context) (address : Address) : Exec V Unit := do
  require (¬ address.isContract) ("Invalid EOA Address: " ++ str address)
  require (ctx.sender = host.owner) "Invalid sender: not owner"
  require (address ∉ (← Program.read).auditor_list) "Invalid address: already auditor"
  Program.modify fun w => { w with auditor_list := w.auditor_list.add address }

/-- The loop of `removeAuditor`. -/
def replaceAuditor (address top : Address) (auditors : ArrayDB Address) : ArrayDB Address :=
  (List.range auditors.size).foldl
    (fun xs i => if xs.get i = some address then xs.set i top else xs) auditors

def removeAuditor (host : Host V) (ctx : Context) (address : Address) : Exec V Unit := do
  require (¬ address.isContract) ("Invalid EOA Address: " ++ str address)
  require (address ∈ (← Program.read).auditor_list) "Invalid address: not in list"
  require (ctx.sender = host.owner ∨ ctx.sender = address) "Invalid sender: not yourself"
  match (← Program.read).auditor_list.pop with
  | none => pure ()
  | some (top, rest) =>
      Program.modify fun w => { w with
        auditor_list := if top ≠ address then replaceAuditor address top rest else rest }

/-! ## Calls -/

def on_install (host : Host V) : Exec V Unit := do
  Program.modify fun w => { w with version := some VERSION }
  Program.modify fun w => { w with auditor_list := w.auditor_list.add host.owner }
  let step_costs ← readCosts host (costs_v1.map fun (k, v) => (k, .str v))
  system (host.set_icon_network_value .STEP_COSTS step_costs)

inductive Method where
  | acceptScore (txHash : Bytes)
  | rejectScore (txHash : Bytes) (reason : String)
  | addAuditor (address : Address)
  | removeAuditor (address : Address)
  | registerProposal (title description : String) (type : Int) (value : Bytes)
  | cancelProposal (id : Bytes)
  | voteProposal (id : Bytes) (vote : Int)
deriving DecidableEq, Repr

/-- A state-changing call. -/
structure Call where
  ctx : Context
  method : Method

/-- One call at block height `now`. -/
def body (host : Host V) (now : Int) (k : Call) : Exec V Unit :=
  match k.method with
  | .acceptScore txHash => acceptScore k.ctx txHash
  | .rejectScore txHash reason => rejectScore k.ctx txHash reason
  | .addAuditor address => addAuditor host k.ctx address
  | .removeAuditor address => removeAuditor host k.ctx address
  | .registerProposal title description type value =>
      registerProposal host k.ctx now title description type value
  | .cancelProposal id => cancelProposal host k.ctx now id
  | .voteProposal id vote => voteProposal host k.ctx now id vote

end Governance
