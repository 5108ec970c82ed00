import StableCoin.Governance.Python

/-!
# The host of the governance contract

What the contract learns from the platform it runs on, and has it do.
`Host` is what is the same for every call: the contract's own address and
owner, the conversions between Python values and texts that the contract
uses and does not define, and the system functions that read and change
the network. What the network keeps is the host's own, a value of a type
`V`; the contract only sees the parts that `IconNetworkValueType` names.
`Context` is what one call is given: who calls, in which transaction, and
the answers of the system functions that change nothing.
-/

namespace Governance

open Python
open StableCoin (Address Bytes)

/-- Why a call aborted: a `revert`, or an exception nobody caught. -/
inductive Abort where
  | revert (message : String)
  | raised (e : Exception)
deriving DecidableEq, Repr

def revert {α : Type} (message : String) : Except Abort α := .error (.revert message)

def require (c : Prop) [Decidable c] (message : String) : Except Abort Unit :=
  if c then .ok () else revert message

/-- The value of `x`, which has to be there. -/
def found {α : Type} (x : Option α) (e : Abort) : Except Abort α :=
  match x with
  | some a => .ok a
  | none => .error e

instance : MonadLift (Except Exception) (Except Abort) where
  monadLift x := x.mapError .raised

/-! ## The network -/

/-- The values that `get_icon_network_value` and `set_icon_network_value`
are asked for here. -/
inductive IconNetworkValueType where
  | STEP_PRICE
  | STEP_COSTS
  | REVISION_CODE
  | REVISION_NAME
  | SCORE_BLACK_LIST
  | IREP
deriving DecidableEq, Repr

/-- A table of costs is a list of names and costs. -/
@[reducible] def IconNetworkValueType.Value : IconNetworkValueType → Type
  | .STEP_PRICE => Int
  | .STEP_COSTS => List (String × Int)
  | .REVISION_CODE => Int
  | .REVISION_NAME => String
  | .SCORE_BLACK_LIST => List Address
  | .IREP => Option Int

/-- The share, in percent, of each receiver of the reward fund. -/
structure RewardFundAllocation where
  iprep : Int
  icps : Int
  irelay : Int
  ivoter : Int
deriving DecidableEq, Repr

/-! ## What is fixed -/

/-- `str(address)`: a prefix and forty hexadecimal digits. -/
def str (a : Address) : String :=
  String.ofList ((if a.isContract then ['c', 'x'] else ['h', 'x'])
    ++ hexDigits 40 a.body.toNat)

/-- `int0 s` is `int(s, 0)`, `jsonLoads bs` is `json_loads(bs.decode())` and
`jsonDumps doc` is `json_dumps(doc).encode()`. The contract relies on little
of it: that an address reads back from its own text and a document from its
own bytes, and that a value of the network, once set, is what is read, until
it is set again. Every system function may refuse. -/
structure Host (V : Type) where
  owner : Address
  address : Address
  int0 : String → Option Int
  fromString : Json → Except Exception Address
  jsonLoads : Bytes → Option Json
  jsonDumps : Json → Bytes
  repr : Json → String
  get_icon_network_value : V → (type : IconNetworkValueType) → type.Value
  set_icon_network_value : (type : IconNetworkValueType) → type.Value → V → Except Abort V
  apply_revision_change : Int → V → Except Abort V
  /-- With whether it succeeded, and why not. -/
  disqualify_prep : Address → V → Except Abort (V × Bool × String)
  set_reward_fund : Int → V → Except Abort V
  set_reward_fund_allocation : RewardFundAllocation → V → Except Abort V
  fromString_str : ∀ a : Address, fromString (.str (str a)) = .ok a
  jsonLoads_valid : ∀ {bs doc}, jsonLoads bs = some doc → doc.Valid
  jsonLoads_jsonDumps : ∀ {doc : Json}, doc.Valid → jsonLoads (jsonDumps doc) = some doc
  jsonDumps_ne : ∀ doc, jsonDumps doc ≠ []
  get_set_self : ∀ {type value v v'}, set_icon_network_value type value v = .ok v' →
    get_icon_network_value v' type = value
  get_set_of_ne : ∀ {type type' value v v'}, set_icon_network_value type value v = .ok v' →
    type' ≠ type → get_icon_network_value v' type' = get_icon_network_value v type'
  /-- Nothing is said of `IREP`. -/
  get_apply_revision_change : ∀ {code v v' type}, apply_revision_change code v = .ok v' →
    type ≠ .IREP → get_icon_network_value v' type = get_icon_network_value v type
  get_disqualify_prep : ∀ {a v v' success reason type},
    disqualify_prep a v = .ok (v', success, reason) →
    get_icon_network_value v' type = get_icon_network_value v type
  get_set_reward_fund : ∀ {iglobal v v' type}, set_reward_fund iglobal v = .ok v' →
    get_icon_network_value v' type = get_icon_network_value v type
  get_set_reward_fund_allocation : ∀ {shares v v' type},
    set_reward_fund_allocation shares v = .ok v' →
    get_icon_network_value v' type = get_icon_network_value v type

section

variable {V : Type}

/-- `int(value, 0)`. -/
def Host.int (host : Host V) : Json → Except Exception Int
  | .str s =>
      match host.int0 s with
      | some n => .ok n
      | none => .error .valueError
  | _ => .error .typeError

/-- Different addresses have different texts. -/
theorem Host.str_inj (host : Host V) {a b : Address} : str a = str b ↔ a = b := by
  constructor
  · intro h
    have ha := host.fromString_str a
    rw [h, host.fromString_str] at ha
    exact (Except.ok.inj ha).symm
  · rintro rfl
    rfl

end

/-! ## What a call is given -/

/-- A block producer candidate with the votes delegated to it. -/
structure PRep where
  address : Address
  name : String
  delegated : Nat
deriving DecidableEq, Repr

/-- `get_main_prep_info()`: no address is listed twice. -/
structure MainPReps where
  preps : List PRep
  expireBlockHeight : Int
  nodup : (preps.map PRep.address).Nodup

/-- `get_deploy_info(address)`. -/
structure DeployInfo where
  currentTxHash : Option Bytes
  nextTxHash : Option Bytes

structure Context where
  sender : Address
  txHash : Bytes
  timestamp : Int
  mainPReps : MainPReps
  subPReps : List PRep
  /-- The contract a deploy transaction is about. -/
  deployTxParams : Bytes → Option Address
  deployInfo : Address → DeployInfo
  scoreOwner : Address → Address
  validateIRep : Int → Except Abort Unit
  validateRewardFund : Int → Except Abort Unit
  txHash_ne : txHash ≠ []

/-- The request to install the code of a deploy transaction; the code's own
constructor runs then, as `sender`. -/
structure Deploy where
  txHash : Bytes
  sender : Address

end Governance
