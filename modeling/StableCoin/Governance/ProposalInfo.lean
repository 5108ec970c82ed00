import StableCoin.Governance.Host

/-!
# Stored proposals

`ProposalInfo`: a network proposal with its votes, and the bytes it is
stored as, a document in JSON. A proposal is read back from its bytes each
time it is touched, through a constructor that counts the votes again when
both totals it finds are zero. `from_bytes_to_bytes` is the round trip: what
is read is what was written, as long as the totals are those the constructor
gives and the proposal's own value is a document that JSON can write.
-/

namespace Governance

open Python
open StableCoin (Address Bytes)

/-! ## Codes -/

inductive NetworkProposalType where
  | TEXT
  | REVISION
  | MALICIOUS_SCORE
  | PREP_DISQUALIFICATION
  | STEP_PRICE
  | IREP
  | STEP_COSTS
  | REWARD_FUND_SETTING
  | REWARD_FUND_ALLOCATION
deriving DecidableEq, Repr

def NetworkProposalType.ofInt : Int → Option NetworkProposalType
  | 0 => some .TEXT
  | 1 => some .REVISION
  | 2 => some .MALICIOUS_SCORE
  | 3 => some .PREP_DISQUALIFICATION
  | 4 => some .STEP_PRICE
  | 5 => some .IREP
  | 6 => some .STEP_COSTS
  | 7 => some .REWARD_FUND_SETTING
  | 8 => some .REWARD_FUND_ALLOCATION
  | _ => none

inductive NetworkProposalStatus where
  | VOTING
  | APPROVED
  | DISAPPROVED
  | CANCELED
deriving DecidableEq, Repr

namespace NetworkProposalStatus

def toInt : NetworkProposalStatus → Int
  | .VOTING => 0
  | .APPROVED => 1
  | .DISAPPROVED => 2
  | .CANCELED => 3

def ofInt : Int → Option NetworkProposalStatus
  | 0 => some .VOTING
  | 1 => some .APPROVED
  | 2 => some .DISAPPROVED
  | 3 => some .CANCELED
  | _ => none

@[simp] theorem ofInt_toInt (s : NetworkProposalStatus) : ofInt s.toInt = some s := by
  cases s <;> rfl

end NetworkProposalStatus

inductive NetworkProposalVote where
  | DISAGREE
  | AGREE
deriving DecidableEq, Repr

def NetworkProposalVote.ofInt : Int → Option NetworkProposalVote
  | 0 => some .DISAGREE
  | 1 => some .AGREE
  | _ => none

/-! ## Votes -/

/-- An entry of the lists of those who voted. -/
structure Voter where
  id : String
  timestamp : Int
  address : String
  name : String
  amount : Int
deriving DecidableEq, Repr

/-- One of the three lists of a proposal, with the delegation behind it. -/
structure Tally (α : Type) where
  list : List α
  amount : Int
deriving DecidableEq, Repr

structure Vote where
  agree : Tally Voter
  disagree : Tally Voter
  noVote : Tally String
deriving DecidableEq, Repr

structure ProposalInfo where
  id : Bytes
  proposer : Address
  proposer_name : String
  title : String
  description : String
  type : Int
  value : Json
  start_block_height : Int
  end_block_height : Int
  status : NetworkProposalStatus
  vote : Vote
  total_voter : Int
  total_delegated_amount : Int

namespace Vote

/-- The voters of all three lists. -/
def totalVoter (vote : Vote) : Int :=
  vote.agree.list.length + vote.disagree.list.length + vote.noVote.list.length

def totalAmount (vote : Vote) : Int :=
  vote.agree.amount + vote.disagree.amount + vote.noVote.amount

end Vote

/-- `__init__`, where it does more than store its arguments. -/
def ProposalInfo.init (p : ProposalInfo) : ProposalInfo :=
  if p.total_voter = 0 ∧ p.total_delegated_amount = 0 then
    { p with
      total_voter := p.vote.totalVoter
      total_delegated_amount := p.vote.totalAmount }
  else p

theorem ProposalInfo.init_eq {p : ProposalInfo} (h : 0 < p.total_voter) : p.init = p :=
  if_neg fun hz => h.ne' hz.1

/-! ## Documents -/

namespace Voter

def toDict (v : Voter) : Json :=
  .dict [("id", .str v.id), ("timestamp", .int v.timestamp), ("address", .str v.address),
    ("name", .str v.name), ("amount", .int v.amount)]

def ofDict (doc : Json) : Except Exception Voter := do
  return {
    id := ← (← doc.getItem "id").asStr
    timestamp := ← (← doc.getItem "timestamp").asInt
    address := ← (← doc.getItem "address").asStr
    name := ← (← doc.getItem "name").asStr
    amount := ← (← doc.getItem "amount").asInt }

@[simp] theorem ofDict_toDict (v : Voter) : ofDict v.toDict = .ok v := rfl

theorem valid_toDict (v : Voter) : v.toDict.Valid := by
  refine .dict (by simp) ?_
  simp [Json.Valid.str, Json.Valid.int]

end Voter

namespace Tally

variable {α : Type}

def toDict (f : α → Json) (t : Tally α) : Json :=
  .dict [("list", .list (t.list.map f)), ("amount", .int t.amount)]

def ofDict (g : Json → Except Exception α) (doc : Json) : Except Exception (Tally α) := do
  return {
    list := ← (← (← doc.getItem "list").asList).mapM g
    amount := ← (← doc.getItem "amount").asInt }

theorem mapM_map {f : α → Json} {g : Json → Except Exception α}
    (h : ∀ a, g (f a) = .ok a) (xs : List α) : (xs.map f).mapM g = .ok xs := by
  induction xs with
  | nil => rfl
  | cons x xs ih =>
      rw [List.map_cons, List.mapM_cons, h, ih]
      rfl

theorem ofDict_toDict {f : α → Json} {g : Json → Except Exception α}
    (h : ∀ a, g (f a) = .ok a) (t : Tally α) : ofDict g (t.toDict f) = .ok t := by
  simp [ofDict, toDict, Json.asList, Json.asInt, mapM_map h, pure_eq_ok]

theorem valid_toDict {f : α → Json} (h : ∀ a, (f a).Valid) (t : Tally α) :
    (t.toDict f).Valid := by
  have hlist : (Json.list (t.list.map f)).Valid :=
    .list (List.forall_mem_map.mpr fun a _ => h a)
  refine .dict (by simp) ?_
  simp [hlist, Json.Valid.int]

end Tally

namespace Vote

def toDict (vote : Vote) : Json :=
  .dict [("agree", vote.agree.toDict Voter.toDict),
    ("disagree", vote.disagree.toDict Voter.toDict), ("noVote", vote.noVote.toDict .str)]

def ofDict (doc : Json) : Except Exception Vote := do
  return {
    agree := ← Tally.ofDict Voter.ofDict (← doc.getItem "agree")
    disagree := ← Tally.ofDict Voter.ofDict (← doc.getItem "disagree")
    noVote := ← Tally.ofDict Json.asStr (← doc.getItem "noVote") }

@[simp] theorem ofDict_toDict (vote : Vote) : ofDict vote.toDict = .ok vote := by
  have hagree := Tally.ofDict_toDict Voter.ofDict_toDict vote.agree
  have hdisagree := Tally.ofDict_toDict Voter.ofDict_toDict vote.disagree
  have hnoVote := Tally.ofDict_toDict (f := .str) (g := Json.asStr) (fun _ => rfl) vote.noVote
  simp [ofDict, toDict, hagree, hdisagree, hnoVote, pure_eq_ok]

theorem valid_toDict (vote : Vote) : vote.toDict.Valid := by
  refine .dict (by simp) ?_
  simp [Tally.valid_toDict, Voter.valid_toDict, Json.Valid.str]

end Vote

namespace ProposalInfo

/-- The parameters of `__init__`. -/
def fields : List String :=
  ["id", "proposer", "proposer_name", "title", "description", "type", "value",
    "start_block_height", "end_block_height", "status", "vote", "total_voter",
    "total_delegated_amount"]

/-- `vars(self)`, with the id and the proposer as texts. -/
def toDict (p : ProposalInfo) : Json :=
  .dict [("id", .str (bytesHex p.id)),
    ("proposer", .str (str p.proposer)),
    ("proposer_name", .str p.proposer_name),
    ("title", .str p.title),
    ("description", .str p.description),
    ("type", .int p.type),
    ("value", p.value),
    ("start_block_height", .int p.start_block_height),
    ("end_block_height", .int p.end_block_height),
    ("status", .int p.status.toInt),
    ("vote", p.vote.toDict),
    ("total_voter", .int p.total_voter),
    ("total_delegated_amount", .int p.total_delegated_amount)]

section

variable {V : Type}

def to_bytes (host : Host V) (p : ProposalInfo) : Bytes := host.jsonDumps p.toDict

/-- An argument that need not be there. -/
def optional (doc : Json) (name : String) : Except Exception Int :=
  match doc.getItem name with
  | .ok v => v.asInt
  | .error _ => .ok 0

/-- The rest of `from_bytes`, when the document has been read. -/
def ofDict (host : Host V) (doc : Json) : Except Exception ProposalInfo := do
  let id ← bytesFromHex (← (← doc.getItem "id").asStr)
  let proposer ← host.fromString (← doc.getItem "proposer")
  doc.onlyKeys fields
  let status ← match NetworkProposalStatus.ofInt (← (← doc.argument "status").asInt) with
    | some status => .ok status
    | none => .error .valueError
  let p : ProposalInfo := {
    id
    proposer
    proposer_name := ← (← doc.argument "proposer_name").asStr
    title := ← (← doc.argument "title").asStr
    description := ← (← doc.argument "description").asStr
    type := ← (← doc.argument "type").asInt
    value := ← doc.argument "value"
    start_block_height := ← (← doc.argument "start_block_height").asInt
    end_block_height := ← (← doc.argument "end_block_height").asInt
    status
    vote := ← Vote.ofDict (← doc.argument "vote")
    total_voter := ← optional doc "total_voter"
    total_delegated_amount := ← optional doc "total_delegated_amount" }
  return p.init

def from_bytes (host : Host V) (buf : Bytes) : Except Exception ProposalInfo :=
  match host.jsonLoads buf with
  | some doc => ofDict host doc
  | none => .error .valueError

theorem ofDict_toDict (host : Host V) {p : ProposalInfo} (h : p.init = p) :
    ofDict host p.toDict = .ok p := by
  obtain ⟨id, proposer, proposer_name, title, description, type, value, start, last, status,
    vote, voters, amount⟩ := p
  simpa [ofDict, toDict, fields, optional, Json.onlyKeys, Json.asStr, Json.asInt,
    host.fromString_str proposer, pure_eq_ok] using h

theorem valid_toDict {p : ProposalInfo} (h : p.value.Valid) : p.toDict.Valid := by
  refine .dict (by simp) ?_
  simp [h, Vote.valid_toDict, Json.Valid.str, Json.Valid.int]

/-- **The round trip.** -/
theorem from_bytes_to_bytes (host : Host V) {p : ProposalInfo} (h : p.init = p)
    (hvalue : p.value.Valid) : from_bytes host (to_bytes host p) = .ok p := by
  simp only [from_bytes, to_bytes, host.jsonLoads_jsonDumps (valid_toDict hvalue)]
  exact ofDict_toDict host h

theorem to_bytes_ne (host : Host V) (p : ProposalInfo) : to_bytes host p ≠ [] :=
  host.jsonDumps_ne _

end

end ProposalInfo

end Governance
