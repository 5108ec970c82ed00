import StableCoin.Binary64
import StableCoin.Governance.ProposalInfo

/-!
# Network proposals

`NetworkProposal`: the store of proposals, and what registering, canceling
and voting do to it. A vote moves the voter from the list of those who have
not voted to one of the other two, with the delegation the voter has at
that moment, and decides the proposal as soon as its side reaches its rate
both in heads and in delegation.
-/

namespace Governance

open Python
open StableCoin (Address ArrayDB Bytes DictDB)

/-- `0.66`. -/
def APPROVE_RATE : ℚ := Binary64.round (66 / 100)

/-- `0.33`. -/
def DISAPPROVE_RATE : ℚ := Binary64.round (33 / 100)

/-- The bytes of each proposal, and their ids in the order in which they
were registered. -/
structure NetworkProposal where
  proposal_list : DictDB Bytes Bytes
  proposal_list_keys : ArrayDB Bytes

namespace NetworkProposal

variable {V : Type}

def empty : NetworkProposal := ⟨fun _ => none, []⟩

/-! ## Registering -/

/-- The votes of a new proposal: nobody has voted. -/
def initialVote (main_preps : List PRep) : Vote where
  agree := ⟨[], 0⟩
  disagree := ⟨[], 0⟩
  noVote := ⟨main_preps.map (str ·.address), (main_preps.map (·.delegated)).sum⟩

def newProposal (id : Bytes) (proposer : Address) (start expired : Int)
    (title description : String) (type : Int) (value : Json) (main_preps : List PRep) :
    ProposalInfo :=
  ProposalInfo.init {
    id
    proposer
    -- the last one found gives the name
    proposer_name :=
      ((main_preps.reverse.find? (·.address = proposer)).map (·.name)).getD ""
    title
    description
    type
    value
    start_block_height := start
    end_block_height := expired
    status := .VOTING
    vote := initialVote main_preps
    total_voter := main_preps.length
    total_delegated_amount := (main_preps.map (·.delegated)).sum }

def register_proposal (db : NetworkProposal) (host : Host V) (id : Bytes) (proposer : Address)
    (start expired : Int) (title description : String) (type : Int) (value : Json)
    (main_preps : List PRep) : NetworkProposal :=
  let p := newProposal id proposer start expired title description type value main_preps
  { proposal_list := db.proposal_list.set id (p.to_bytes host)
    proposal_list_keys := db.proposal_list_keys.add id }

section

variable {db : NetworkProposal} {host : Host V} {id : Bytes} {proposer : Address}
  {start expired : Int} {title description : String} {type : Int} {value : Json}
  {main_preps : List PRep}

theorem register_list : (db.register_proposal host id proposer start expired title description
    type value main_preps).proposal_list = db.proposal_list.set id ((newProposal id proposer
      start expired title description type value main_preps).to_bytes host) := rfl

theorem register_keys : (db.register_proposal host id proposer start expired title description
    type value main_preps).proposal_list_keys = db.proposal_list_keys ++ [id] := rfl

end

/-! ## Canceling -/

def _check_registered_proposal (db : NetworkProposal) (id : Bytes) : Bool :=
  (db.proposal_list id).any (· ≠ [])

/-- `from_bytes` of what is stored under `id`. -/
def load (db : NetworkProposal) (host : Host V) (id : Bytes) : Except Abort ProposalInfo := do
  let buf ← found (db.proposal_list id) (.raised .attributeError)
  ProposalInfo.from_bytes host buf

/-- The proposal stored under `id`. -/
def read (db : NetworkProposal) (host : Host V) (id : Bytes) : Except Abort ProposalInfo := do
  require (db._check_registered_proposal id) "No registered proposal"
  db.load host id

def write (db : NetworkProposal) (host : Host V) (id : Bytes) (p : ProposalInfo) :
    NetworkProposal :=
  { db with proposal_list := db.proposal_list.set id (p.to_bytes host) }

theorem write_list (db : NetworkProposal) (host : Host V) (id : Bytes) (p : ProposalInfo) :
    (db.write host id p).proposal_list = db.proposal_list.set id (p.to_bytes host) := rfl

theorem write_keys (db : NetworkProposal) (host : Host V) (id : Bytes) (p : ProposalInfo) :
    (db.write host id p).proposal_list_keys = db.proposal_list_keys := rfl

def cancel_proposal (db : NetworkProposal) (host : Host V) (id : Bytes) (proposer : Address)
    (current_block_height : Int) : Except Abort NetworkProposal := do
  let p ← db.read host id
  require (¬ p.end_block_height < current_block_height) "This proposal has already expired"
  require (proposer = p.proposer) "No permission - only for proposer"
  require (p.status = .VOTING) "Can not be canceled - only voting proposal"
  return db.write host id { p with status := .CANCELED }

end NetworkProposal

/-! ## Voting -/

def _generate_voter_in_dict (id : Bytes) (timestamp : Int) (prep : PRep) : Voter where
  id := "0x" ++ bytesHex id
  timestamp := timestamp
  address := str prep.address
  name := prep.name
  amount := prep.delegated

/-- The voter leaves the list of those who have not voted. -/
def Vote.cast (vote : Vote) (vote_type : NetworkProposalVote) (voter : Voter) : Vote :=
  let noVote : Tally String :=
    ⟨vote.noVote.list.erase voter.address, vote.noVote.amount - voter.amount⟩
  match vote_type with
  | .AGREE =>
      { vote with
        agree := ⟨vote.agree.list ++ [voter], vote.agree.amount + voter.amount⟩
        noVote }
  | .DISAGREE =>
      { vote with
        disagree := ⟨vote.disagree.list ++ [voter], vote.disagree.amount + voter.amount⟩
        noVote }

/-- The side that a vote is for, and the rate it has to reach. -/
def Vote.side (vote : Vote) : NetworkProposalVote → Tally Voter × ℚ
  | .AGREE => (vote.agree, APPROVE_RATE)
  | .DISAGREE => (vote.disagree, DISAPPROVE_RATE)

/-- The two comparisons, the second only if the first one holds. -/
def reaches (count total_voter amount total_amount : Int) (rate : ℚ) :
    Except Binary64.Fault Bool := do
  if (← Binary64.truediv count total_voter) ≥ rate then
    return (← Binary64.truediv amount total_amount) ≥ rate
  else
    return false

def _check_vote_result (vote_type : NetworkProposalVote) (p : ProposalInfo) :
    Except Exception Bool :=
  let (preps_to_vote, rate) := p.vote.side vote_type
  match reaches preps_to_vote.list.length p.total_voter preps_to_vote.amount
      p.total_delegated_amount rate with
  | .ok met => .ok met
  | .error .zeroDivision => .ok false
  | .error .overflow => .error .overflowError

/-- The status after a vote has been recorded. -/
def settle (vote_type : NetworkProposalVote) (p : ProposalInfo) :
    Except Exception NetworkProposalStatus := do
  if p.status = .VOTING then
    if ← _check_vote_result vote_type p then
      match vote_type with
      | .AGREE => return .APPROVED
      | .DISAGREE => return .DISAPPROVED
    else if p.vote.noVote.list.length = 0 then
      return .DISAPPROVED
    else
      return .VOTING
  else
    return p.status

namespace NetworkProposal

variable {V : Type}

/-- What a vote leaves behind, whether it approved the proposal, and what
the proposal is about. -/
def vote_proposal (db : NetworkProposal) (host : Host V) (id : Bytes) (voter_address : Address)
    (vote current_block_height : Int) (tx_hash : Bytes) (timestamp : Int)
    (main_preps : List PRep) : Except Abort (NetworkProposal × Bool × Int × Json) := do
  let vote_type ← found (NetworkProposalVote.ofInt vote)
    (.revert ("Invalid vote parameter: " ++ toString vote))
  let p ← db.read host id
  require (¬ p.end_block_height < current_block_height) "This proposal has already expired"
  require (p.status ≠ .CANCELED) "This proposal has already canceled"
  let voted := p.vote.agree.list.map (·.address) ++ p.vote.disagree.list.map (·.address)
  require (str voter_address ∉ voted) "Already voted"
  require (str voter_address ∈ p.vote.noVote.list)
    "No permission - only for main prep when network proposal registered"
  let main_prep ← found (main_preps.reverse.find? (·.address = voter_address))
    (.raised .unboundLocalError)
  let p := { p with
    vote := p.vote.cast vote_type (_generate_voter_in_dict tx_hash timestamp main_prep) }
  let status ← settle vote_type p
  let approved := p.status = .VOTING ∧ status = .APPROVED
  return (db.write host id { p with status }, approved, p.type, p.value)

/-! ## Reading -/

/-- A proposal that has expired while it was voted on is shown as
disapproved. -/
def shownStatus (p : ProposalInfo) (current_block_height : Int) : NetworkProposalStatus :=
  if p.end_block_height < current_block_height ∧ p.status = .VOTING then .DISAPPROVED
  else p.status

def _generate_common_proposal_info_in_dict (p : ProposalInfo) (vote : Json) : Json :=
  .dict [("id", .str ("0x" ++ bytesHex p.id)),
    ("proposer", .str (str p.proposer)),
    ("proposerName", .str p.proposer_name),
    ("status", .str (hex p.status.toInt)),
    ("startBlockHeight", .str (hex p.start_block_height)),
    ("endBlockHeight", .str (hex p.end_block_height)),
    ("contents", .dict [("title", .str p.title),
      ("description", .str p.description),
      ("type", .str (hex p.type)),
      ("value", p.value)]),
    ("vote", vote)]

def _generate_proposal_info_in_dict_for_get_proposals (p : ProposalInfo) : Json :=
  let tally {α : Type} (t : Tally α) : Json :=
    .dict [("count", .str (hex t.list.length)), ("amount", .str (hex t.amount))]
  _generate_common_proposal_info_in_dict p
    (.dict [("agree", tally p.vote.agree), ("disagree", tally p.vote.disagree),
      ("noVote", tally p.vote.noVote)])

def _generate_proposal_info_in_dict_for_get_proposal (p : ProposalInfo) : Json :=
  let voter (v : Voter) : Json :=
    .dict [("id", .str v.id), ("timestamp", .str (hex v.timestamp)),
      ("address", .str v.address), ("name", .str v.name), ("amount", .str (hex v.amount))]
  let tally {α : Type} (f : α → Json) (t : Tally α) : Json :=
    .dict [("list", .list (t.list.map f)), ("amount", .str (hex t.amount))]
  _generate_common_proposal_info_in_dict p
    (.dict [("agree", tally voter p.vote.agree), ("disagree", tally voter p.vote.disagree),
      ("noVote", tally .str p.vote.noVote)])

def get_proposal (db : NetworkProposal) (host : Host V) (id : Bytes)
    (current_block_height : Int) : Except Abort Json := do
  let p ← db.read host id
  return _generate_proposal_info_in_dict_for_get_proposal
    { p with status := shownStatus p current_block_height }

/-- The loop of `get_proposals` over the ids. -/
def select (db : NetworkProposal) (host : Host V) (current_block_height : Int)
    (type status : Option Int) : List Bytes → Except Abort (List Json)
  | [] => return []
  | id :: ids => do
      let p ← db.load host id
      let p := { p with status := shownStatus p current_block_height }
      let rest ← select db host current_block_height type status ids
      if type.any (p.type ≠ ·) then return rest
      else if status.any (p.status.toInt ≠ ·) then return rest
      else return _generate_proposal_info_in_dict_for_get_proposals p :: rest

def get_proposals (db : NetworkProposal) (host : Host V) (current_block_height : Int)
    (type status : Option Int) : Except Abort Json := do
  if let some t := type then
    require (0 ≤ t ∧ t ≤ 8) ("Invalid type parameter: " ++ toString t)
  if let some s := status then
    require (0 ≤ s ∧ s ≤ 3) ("Invalid status parameter: " ++ toString s)
  let proposals ← db.select host current_block_height type status db.proposal_list_keys
  return .dict [("proposals", .list proposals)]

end NetworkProposal

end Governance
