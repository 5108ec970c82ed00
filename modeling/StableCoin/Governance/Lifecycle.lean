import StableCoin.Election
import StableCoin.Governance.Ballot
import StableCoin.Governance.Run

/-!
# The life of a proposal

Every stored proposal is what the accepted calls made of it: the last
registration under its id gives its content and its electors, each vote on
it since then is one entry of its lists, in order, and it is canceled
exactly if its proposer canceled it. Unless it is, its status is the
outcome of an election (`Election.outcome`) among the electors, decided by
those votes. `Life` says so of one registration and the calls after it.
-/

namespace Governance

open Python Reentrancy
open StableCoin (Address Bytes DictDB)

variable {V : Type}

/-! ## The election behind a proposal -/

/-- A side wins when it reaches its rate, both in heads and in delegation. -/
def rules (electors : List PRep) : Election.Rules NetworkProposalVote Voter where
  seats := electors.length
  Wins side voters :=
    let total : Int := (electors.map fun prep => (prep.delegated : Int)).sum
    Reaches side voters.length electors.length ∧ 0 < total
      ∧ Reaches side (voters.map Voter.amount).sum total

instance (electors : List PRep) (side : NetworkProposalVote) (voters : List Voter) :
    Decidable ((rules electors).Wins side voters) :=
  inferInstanceAs (Decidable (_ ∧ _ ∧ _))

/-- The status that an outcome gives a proposal. -/
def statusOf : Election.Outcome NetworkProposalVote → NetworkProposalStatus
  | .running => .VOTING
  | .won side => side.verdict
  | .exhausted => .DISAPPROVED

theorem statusOf_eq_voting {o : Election.Outcome NetworkProposalVote} :
    statusOf o = .VOTING ↔ o = .running := by
  cases o with
  | running => simp [statusOf]
  | won side => cases side <;> simp [statusOf, NetworkProposalVote.verdict]
  | exhausted => simp [statusOf]

theorem statusOf_eq_approved {o : Election.Outcome NetworkProposalVote} :
    statusOf o = .APPROVED ↔ o = .won .AGREE := by
  cases o with
  | running => simp [statusOf]
  | won side => cases side <;> simp [statusOf, NetworkProposalVote.verdict]
  | exhausted => simp [statusOf]

theorem Ballot.meets_iff {electors : List PRep} {p : ProposalInfo} (h : Ballot electors p)
    (side : NetworkProposalVote) :
    Meets side p ↔ (rules electors).Wins side (p.vote.side side).1.list := by
  rw [Meets, h.heads, h.weight, h.amount_eq side]
  rfl

theorem length_on (votes : List (NetworkProposalVote × Voter)) :
    (Election.on .AGREE votes).length + (Election.on .DISAGREE votes).length
      = votes.length := by
  induction votes with
  | nil => rfl
  | cons v votes ih =>
      obtain ⟨side, voter⟩ := v
      simp only [Election.on, List.length_map] at ih
      cases side <;> simp [Election.on] <;> omega

/-- Everybody has voted when nobody is left. -/
theorem Ballot.length_votes {electors : List PRep} {p : ProposalInfo}
    {votes : List (NetworkProposalVote × Voter)} (h : Ballot electors p)
    (hcast : ∀ side, (p.vote.side side).1.list = Election.on side votes) :
    votes.length = (rules electors).seats ↔ p.vote.noVote.list = [] := by
  have hroll := h.roll.length_eq
  have hagree : p.vote.agree.list = Election.on .AGREE votes := hcast .AGREE
  have hdisagree : p.vote.disagree.list = Election.on .DISAGREE votes := hcast .DISAGREE
  simp only [List.length_append, List.length_map, hagree, hdisagree, length_on] at hroll
  rw [← List.length_eq_zero_iff, show (rules electors).seats = electors.length from rfl]
  omega

/-! ## Calls about a proposal -/

def registers (id : Bytes) (e : Receipt V) : Bool :=
  match e.call.method with
  | .registerProposal .. => e.call.ctx.txHash = id
  | _ => false

def cancels (id : Bytes) (e : Receipt V) : Bool :=
  match e.call.method with
  | .cancelProposal id' => id' = id
  | _ => false

/-- The vote that a call casts on the proposal `id`. -/
def castOn (id : Bytes) (e : Receipt V) : Option (NetworkProposalVote × Voter) :=
  match e.call.method with
  | .voteProposal id' vote =>
      if id' = id then do
        let side ← NetworkProposalVote.ofInt vote
        let prep ← e.call.ctx.mainPReps.preps.find? (·.address = e.call.ctx.sender)
        return (side, e.call.ctx.voter prep)
      else none
  | _ => none

/-- The votes on the proposal `id`, in the order in which they were cast. -/
def votesOn (id : Bytes) (tr : List (Receipt V)) : List (NetworkProposalVote × Voter) :=
  tr.filterMap (castOn id)

theorem votesOn_snoc (id : Bytes) (tr : List (Receipt V)) (e : Receipt V) :
    votesOn id (tr ++ [e]) = votesOn id tr ++ (castOn id e).toList := by
  rw [votesOn, List.filterMap_append, votesOn]
  cases h : castOn id e <;> simp [h]

/-- The delegation behind a vote is a candidate's. -/
theorem castOn_amount_nonneg {id : Bytes} {e : Receipt V} {v : NetworkProposalVote × Voter}
    (h : castOn id e = some v) : 0 ≤ v.2.amount := by
  unfold castOn at h
  split at h
  · split at h
    · obtain ⟨side, -, h⟩ := Option.bind_eq_some_iff.mp h
      obtain ⟨prep, -, h⟩ := Option.bind_eq_some_iff.mp h
      obtain rfl := Option.some.inj h
      exact Int.natCast_nonneg _
    · cases h
  · cases h

/-- The lists after the votes. -/
def Vote.after (vote : Vote) (votes : List (NetworkProposalVote × Voter)) : Vote :=
  votes.foldl (fun vote v => vote.cast v.1 v.2) vote

theorem Vote.after_snoc (vote : Vote) (votes : List (NetworkProposalVote × Voter))
    (v : NetworkProposalVote × Voter) :
    vote.after (votes ++ [v]) = (vote.after votes).cast v.1 v.2 := by
  simp [Vote.after]

/-- Each side gains the votes for it, in order. -/
theorem Vote.list_after (vote : Vote) (votes : List (NetworkProposalVote × Voter))
    (side : NetworkProposalVote) :
    ((vote.after votes).side side).1.list
      = (vote.side side).1.list ++ Election.on side votes := by
  induction votes using List.reverseRecOn with
  | nil => simp [Vote.after]
  | append_singleton votes v ih =>
      rw [Vote.after_snoc, Election.on_snoc]
      by_cases hs : side = v.1
      · rw [if_pos hs, hs, Vote.side_cast, ← hs, ih, List.append_assoc]
      · rw [if_neg hs, Vote.side_cast_of_ne _ hs, ih]

/-- How often the logs of a call announce that `id` is approved. -/
def approvals (id : Bytes) (e : Receipt V) : Nat :=
  (e.after.events.drop e.before.events.length).count (.NetworkProposalApproved id)

/-- The call is not about the proposal `id`. -/
structure Foreign (id : Bytes) (e : Receipt V) : Prop where
  registers : registers id e = false
  cancels : cancels id e = false
  castOn : castOn id e = none
  announced : approvals id e = 0

/-- Everything a proposal takes over from the call that registered it. -/
def Enrolled (host : Host V) (id : Bytes) (e : Receipt V) (p : ProposalInfo) : Prop :=
  ∃ title description type value doc vote status,
    e.call.method = .registerProposal title description type value
    ∧ e.call.ctx.txHash = id ∧ host.jsonLoads value = some doc
    ∧ _validate_network_proposal host e.call.ctx e.before.network type doc = .ok true
    ∧ p = { NetworkProposal.newProposal id e.call.ctx.sender e.now
        e.call.ctx.mainPReps.expireBlockHeight title description type doc
        e.call.ctx.mainPReps.preps with vote, status }

/-- The proposal `p` was registered under `id` by `e`, and `post` are the
accepted calls since. -/
structure Life (host : Host V) (id : Bytes) (e : Receipt V) (post : List (Receipt V))
    (p : ProposalInfo) : Prop where
  enrolled : Enrolled host id e p
  proposer : e.call.ctx.sender ∈ e.call.ctx.mainPReps.preps.map PRep.address
  latest : ∀ d ∈ post, registers id d = false
  ballot : Ballot e.call.ctx.mainPReps.preps p
  replayed : p.vote
    = (NetworkProposal.initialVote e.call.ctx.mainPReps.preps).after (votesOn id post)
  canceled : p.status = .CANCELED ↔ ∃ d ∈ post, cancels id d = true
  decided : p.status ≠ .CANCELED →
    p.status = statusOf (Election.outcome (rules e.call.ctx.mainPReps.preps) (votesOn id post))
  running : p.status = .CANCELED →
    Election.outcome (rules e.call.ctx.mainPReps.preps) (votesOn id post) = .running
  timely : ∀ d ∈ post, cancels id d = true ∨ (castOn id d).isSome = true →
    d.now ≤ p.end_block_height
  announced : (post.map (approvals id)).sum = if p.status = .APPROVED then 1 else 0
  applied : p.status = .APPROVED → ∃ d ∈ post, approvals id d = 1 ∧ ∃ evs,
    Applied host d.before.network (NetworkProposalType.ofInt p.type) p.value
      d.after.network evs

section

variable {host : Host V} {id : Bytes} {e d : Receipt V} {post : List (Receipt V)}
  {p : ProposalInfo}

theorem Enrolled.update (h : Enrolled host id e p) (vote : Vote)
    (status : NetworkProposalStatus) : Enrolled host id e { p with vote, status } := by
  obtain ⟨title, description, type, value, doc, vote', status', hm, hid, hdoc, hvalid, rfl⟩ := h
  exact ⟨title, description, type, value, doc, vote, status, hm, hid, hdoc, hvalid, rfl⟩

/-- Each vote is an entry of its side. -/
theorem Life.cast (h : Life host id e post p) (side : NetworkProposalVote) :
    (p.vote.side side).1.list = Election.on side (votesOn id post) := by
  rw [h.replayed, Vote.list_after]
  cases side <;> rfl

theorem Life.electors_ne (h : Life host id e post p) : e.call.ctx.mainPReps.preps ≠ [] := by
  rintro hnil
  have hp := h.proposer
  simp [hnil] at hp

theorem Life.total_voter_pos (h : Life host id e post p) : 0 < p.total_voter := by
  rw [h.ballot.heads]
  exact_mod_cast List.length_pos_iff.mpr h.electors_ne

/-- Nobody is on two lists, or on one of them twice. -/
theorem Life.nodup (h : Life host id e post p) :
    (p.vote.agree.list.map Voter.address ++ p.vote.disagree.list.map Voter.address
      ++ p.vote.noVote.list).Nodup := by
  have hinj : Function.Injective str := fun _ _ => host.str_inj.mp
  have hmap := e.call.ctx.mainPReps.nodup.map hinj
  rw [List.map_map] at hmap
  exact h.ballot.roll.nodup_iff.mpr hmap

/-- Only candidates vote, and their delegations are not negative. -/
theorem Life.amount_nonneg (h : Life host id e post p) (side : NetworkProposalVote) :
    0 ≤ (p.vote.side side).1.amount := by
  rw [h.ballot.amount_eq, h.cast]
  refine List.sum_nonneg ?_
  simp only [List.mem_map, Election.on, List.mem_filter, votesOn, List.mem_filterMap]
  rintro _ ⟨_, ⟨⟨side', voter⟩, ⟨⟨d, -, hd⟩, -⟩, rfl⟩, rfl⟩
  exact castOn_amount_nonneg hd

/-- While somebody has not voted, no side has everybody's vote. -/
theorem Life.length_lt (h : Life host id e post p) (hne : p.vote.noVote.list ≠ [])
    (side : NetworkProposalVote) :
    ((p.vote.side side).1.list.length : Int) < p.total_voter := by
  have hroll := h.ballot.roll.length_eq
  have hheads := h.ballot.heads
  have hpos := List.length_pos_iff.mpr hne
  simp only [List.length_append, List.length_map] at hroll
  cases side with
  | AGREE =>
      simp only [Vote.side]
      omega
  | DISAGREE =>
      simp only [Vote.side]
      omega

theorem Life.init_eq (h : Life host id e post p) : p.init = p :=
  ProposalInfo.init_eq h.total_voter_pos

/-- What the proposal is about was a document when it was registered. -/
theorem Life.value_valid (h : Life host id e post p) : p.value.Valid := by
  obtain ⟨title, description, type, value, doc, vote, status, -, -, hdoc, -, rfl⟩ := h.enrolled
  rw [newProposal_eq h.electors_ne]
  exact host.jsonLoads_valid hdoc

/-! ## Reading -/

theorem NetworkProposal.read_of_stored {db : NetworkProposal}
    (hbuf : db.proposal_list id = some (p.to_bytes host)) (hp : p.init = p)
    (hvalue : p.value.Valid) : db.read host id = .ok p := by
  simp [NetworkProposal.read, NetworkProposal.load, NetworkProposal._check_registered_proposal,
    hbuf, p.to_bytes_ne host, ProposalInfo.from_bytes_to_bytes host hp hvalue]

theorem NetworkProposal.read_write (db : NetworkProposal) (hp : p.init = p)
    (hvalue : p.value.Valid) : (db.write host id p).read host id = .ok p :=
  read_of_stored (by rw [write_list, DictDB.set_self]) hp hvalue

/-! ## One more call -/

/-- A call that is not about the proposal leaves its life as it is. -/
theorem Life.skip (h : Life host id e post p) (hd : Foreign id d) :
    Life host id e (post ++ [d]) p where
  enrolled := h.enrolled
  proposer := h.proposer
  latest := List.forall_mem_append.mpr ⟨h.latest, List.forall_mem_singleton.mpr hd.registers⟩
  ballot := h.ballot
  replayed := by simpa [votesOn_snoc, hd.castOn] using h.replayed
  decided := by simpa [votesOn_snoc, hd.castOn] using h.decided
  running := by simpa [votesOn_snoc, hd.castOn] using h.running
  timely := List.forall_mem_append.mpr ⟨h.timely, by simp [hd.cancels, hd.castOn]⟩
  canceled := by
    rw [h.canceled]
    constructor
    · rintro ⟨b, hb, hbc⟩
      exact ⟨b, List.mem_append_left _ hb, hbc⟩
    · rintro ⟨b, hb, hbc⟩
      rcases List.mem_append.mp hb with hb | hb
      · exact ⟨b, hb, hbc⟩
      · rw [List.mem_singleton.mp hb, hd.cancels] at hbc
        cases hbc
  announced := by simp [h.announced, hd.announced]
  applied hs := by
    obtain ⟨b, hb, happ⟩ := h.applied hs
    exact ⟨b, List.mem_append_left _ hb, happ⟩

theorem Life.new {title description : String} {type : Int} {value : Bytes} {doc : Json}
    (hm : e.call.method = .registerProposal title description type value)
    (hprep : _check_main_prep e.call.ctx.sender e.call.ctx.mainPReps.preps = true)
    (hdoc : host.jsonLoads value = some doc)
    (hvalid : _validate_network_proposal host e.call.ctx e.before.network type doc = .ok true) :
    Life host e.call.ctx.txHash e []
      (NetworkProposal.newProposal e.call.ctx.txHash e.call.ctx.sender e.now
        e.call.ctx.mainPReps.expireBlockHeight title description type doc
        e.call.ctx.mainPReps.preps) := by
  have hin : e.call.ctx.sender ∈ e.call.ctx.mainPReps.preps.map PRep.address := by
    simpa [_check_main_prep] using hprep
  have hne : e.call.ctx.mainPReps.preps ≠ [] := by
    rintro hnil
    simp [hnil] at hin
  exact {
    enrolled := ⟨title, description, type, value, doc, _, _, hm, rfl, hdoc, hvalid, rfl⟩
    proposer := hin
    latest := by simp
    ballot := .new hne
    replayed := by rw [newProposal_eq hne]; rfl
    decided _ := by rw [newProposal_eq hne]; rfl
    running _ := rfl
    timely := by simp
    canceled := by rw [newProposal_eq hne]; simp
    announced := by rw [newProposal_eq hne]; rfl
    applied := by rw [newProposal_eq hne]; nofun }

theorem Life.cancel (h : Life host id e post p) (hv : p.status = .VOTING)
    (hopen : d.now ≤ p.end_block_height) (hm : d.call.method = .cancelProposal id)
    (ha : approvals id d = 0) :
    Life host id e (post ++ [d]) { p with status := .CANCELED } where
  enrolled := h.enrolled.update p.vote .CANCELED
  proposer := h.proposer
  latest := List.forall_mem_append.mpr ⟨h.latest, by simp [registers, hm]⟩
  ballot := h.ballot.canceled hv
  replayed := by simpa [votesOn_snoc, castOn, hm] using h.replayed
  decided hs := absurd rfl hs
  running _ := by
    have hrun := statusOf_eq_voting.mp ((h.decided (by simp [hv])).symm.trans hv)
    simpa [votesOn_snoc, castOn, hm] using hrun
  timely := List.forall_mem_append.mpr
    ⟨h.timely, List.forall_mem_singleton.mpr fun _ => hopen⟩
  canceled := by
    refine iff_of_true rfl ⟨d, by simp, by simp [cancels, hm]⟩
  announced := by simp [h.announced, hv, ha]
  applied := nofun

/-- A vote never cancels. -/
theorem Votes.status_ne_canceled {ctx : Context} {now vote : Int}
    {vote_type : NetworkProposalVote} {prep : PRep} {status : NetworkProposalStatus}
    (hv : Votes ctx now vote p vote_type prep status) (hpos : 0 < p.total_voter)
    (hweight : 0 ≤ p.total_delegated_amount) : status ≠ .CANCELED := by
  rcases settle_eq_ok (p := { p with vote := p.vote.cast vote_type (ctx.voter prep) })
    hpos hweight hv.settled with ⟨-, rfl⟩ | ⟨-, -, rfl⟩ | ⟨-, -, -, rfl⟩ | ⟨-, -, -, rfl⟩
  · exact hv.alive
  · cases vote_type <;> decide
  · decide
  · decide

/-- Among the main P-Reps, an address names one candidate. -/
theorem MainPReps.find_eq {preps : MainPReps} {prep : PRep} {a : Address}
    (h : prep ∈ preps.preps ∧ prep.address = a) :
    preps.preps.find? (·.address = a) = some prep := by
  obtain ⟨hin, rfl⟩ := h
  obtain ⟨found, hfound⟩ := Option.isSome_iff_exists.mp
    (List.find?_isSome (p := fun x => decide (x.address = prep.address)) |>.mpr
      ⟨prep, hin, by simp⟩)
  have haddress : found.address = prep.address := by simpa using List.find?_some hfound
  have hsame := List.inj_on_of_nodup_map preps.nodup (List.mem_of_find?_eq_some hfound) hin
    haddress
  rw [hfound, hsame]

/-- A vote that does not approve the proposal now leaves it approved or not. -/
theorem Votes.approved_iff {ctx : Context} {now vote : Int}
    {vote_type : NetworkProposalVote} {prep : PRep} {status : NetworkProposalStatus}
    (hv : Votes ctx now vote p vote_type prep status) (hpos : 0 < p.total_voter)
    (hweight : 0 ≤ p.total_delegated_amount) :
    status = .APPROVED ↔ p.status = .APPROVED ∨ (p.status = .VOTING ∧ status = .APPROVED) := by
  rcases settle_eq_ok (p := { p with vote := p.vote.cast vote_type (ctx.voter prep) })
    hpos hweight hv.settled with ⟨hn, rfl⟩ | ⟨hp, -, -⟩ | ⟨hp, -, -, -⟩ | ⟨hp, -, -, -⟩
  · simp at hn
    simp [hn]
  · simp at hp
    simp [hp]
  · simp at hp
    simp [hp]
  · simp at hp
    simp [hp]

/-- The election takes a vote the way the contract does. -/
theorem Life.outcome_voted (h : Life host id e post p) {ctx : Context} {now vote : Int}
    {vote_type : NetworkProposalVote} {prep : PRep} {status : NetworkProposalStatus}
    {votes : List (NetworkProposalVote × Voter)}
    (hv : Votes ctx now vote p vote_type prep status)
    (hballot : Ballot e.call.ctx.mainPReps.preps (p.voted vote_type (ctx.voter prep) status))
    (hvotes : votes = votesOn id post ++ [(vote_type, ctx.voter prep)])
    (hcast : ∀ side, ((p.voted vote_type (ctx.voter prep) status).vote.side side).1.list
      = Election.on side votes) :
    status = statusOf (Election.outcome (rules e.call.ctx.mainPReps.preps) votes) := by
  have hpos := h.total_voter_pos
  have hweight := h.ballot.weight_nonneg
  have hbefore := h.decided hv.alive
  have hwins : (rules e.call.ctx.mainPReps.preps).Wins vote_type (Election.on vote_type votes)
      ↔ Meets vote_type { p with vote := p.vote.cast vote_type (ctx.voter prep) } := by
    rw [← hcast, ← hballot.meets_iff]
    rfl
  have hlast : votes.length = (rules e.call.ctx.mainPReps.preps).seats
      ↔ (p.vote.cast vote_type (ctx.voter prep)).noVote.list = [] :=
    hballot.length_votes hcast
  have hafter (hp : p.status = .VOTING) :
      Election.outcome (rules e.call.ctx.mainPReps.preps) votes
        = if Meets vote_type { p with vote := p.vote.cast vote_type (ctx.voter prep) } then
            .won vote_type
          else if (p.vote.cast vote_type (ctx.voter prep)).noVote.list = [] then .exhausted
          else .running := by
    have hrun := statusOf_eq_voting.mp (hbefore.symm.trans hp)
    have hsnoc := Election.outcome_snoc_of_running (v := (vote_type, ctx.voter prep)) hrun
    rw [hvotes, hsnoc, ← hvotes]
    exact if_congr hwins rfl (if_congr hlast rfl rfl)
  rcases settle_eq_ok (p := { p with vote := p.vote.cast vote_type (ctx.voter prep) })
    hpos hweight hv.settled
    with ⟨hn, rfl⟩ | ⟨hp, hmeets, rfl⟩ | ⟨hp, hnot, hleft, rfl⟩ | ⟨hp, hnot, hleft, rfl⟩
  · have hdecided : Election.outcome (rules e.call.ctx.mainPReps.preps) (votesOn id post)
        ≠ .running := fun hrun => hn (hbefore.trans (by rw [hrun]; rfl))
    rw [hvotes, Election.outcome_snoc_of_decided hdecided]
    exact hbefore
  · rw [hafter hp, if_pos hmeets]
    rfl
  · rw [hafter hp, if_neg hnot, if_pos hleft]
    rfl
  · rw [hafter hp, if_neg hnot, if_neg hleft]
    rfl

theorem Life.vote (h : Life host id e post p) {vote : Int}
    {vote_type : NetworkProposalVote} {prep : PRep} {status : NetworkProposalStatus}
    (hm : d.call.method = .voteProposal id vote)
    (hv : Votes d.call.ctx d.now vote p vote_type prep status)
    (hann : approvals id d = if p.status = .VOTING ∧ status = .APPROVED then 1 else 0)
    (happ : p.status = .VOTING → status = .APPROVED → ∃ evs,
      Applied host d.before.network (NetworkProposalType.ofInt p.type) p.value
        d.after.network evs) :
    Life host id e (post ++ [d]) (p.voted vote_type (d.call.ctx.voter prep) status) := by
  have hpos := h.total_voter_pos
  have hweight := h.ballot.weight_nonneg
  have hfind := MainPReps.find_eq hv.candidate
  have hiff := hv.approved_iff hpos hweight
  have hballot := h.ballot.voted hpos hv
  have hvotes : votesOn id (post ++ [d])
      = votesOn id post ++ [(vote_type, d.call.ctx.voter prep)] := by
    rw [votesOn_snoc]
    simp [castOn, hm, hv.code, hfind]
  have hreplayed : (p.voted vote_type (d.call.ctx.voter prep) status).vote
      = (NetworkProposal.initialVote e.call.ctx.mainPReps.preps).after
        (votesOn id (post ++ [d])) := by
    rw [hvotes, Vote.after_snoc, ← h.replayed]
    rfl
  have hcast (side : NetworkProposalVote) :
      ((p.voted vote_type (d.call.ctx.voter prep) status).vote.side side).1.list
        = Election.on side (votesOn id (post ++ [d])) := by
    rw [hreplayed, Vote.list_after]
    cases side <;> rfl
  refine ⟨h.enrolled.update _ _, h.proposer, ?_, hballot, hreplayed, ?_, ?_, ?_, ?_, ?_, ?_⟩
  · exact List.forall_mem_append.mpr ⟨h.latest, by simp [registers, hm]⟩
  · refine iff_of_false (hv.status_ne_canceled hpos hweight) ?_
    rintro ⟨b, hb, hbc⟩
    rcases List.mem_append.mp hb with hb | hb
    · exact hv.alive (h.canceled.mpr ⟨b, hb, hbc⟩)
    · simp [List.mem_singleton.mp hb, cancels, hm] at hbc
  · intro _
    exact h.outcome_voted hv hballot hvotes hcast
  · intro hs
    exact absurd hs (hv.status_ne_canceled hpos hweight)
  · exact List.forall_mem_append.mpr
      ⟨h.timely, List.forall_mem_singleton.mpr fun _ => hv.unexpired⟩
  · have hsum : (if p.status = .APPROVED then 1 else 0)
        + (if p.status = .VOTING ∧ status = .APPROVED then 1 else 0)
        = if status = .APPROVED then 1 else 0 := by
      by_cases hp : p.status = .APPROVED
      · rw [if_pos (hiff.mpr (.inl hp))]
        simp [hp]
      · have hs : status = .APPROVED ↔ p.status = .VOTING ∧ status = .APPROVED :=
          hiff.trans (or_iff_right hp)
        rw [if_neg hp, Nat.zero_add, if_congr hs.symm rfl rfl]
    rw [List.map_append, List.sum_append, h.announced, List.map_singleton, List.sum_singleton,
      hann]
    exact hsum
  · intro hs
    rcases hiff.mp hs with hp | ⟨hp, hs⟩
    · obtain ⟨b, hb, hevs⟩ := h.applied hp
      exact ⟨b, List.mem_append_left _ hb, hevs⟩
    · exact ⟨d, by simp, by rw [hann, if_pos ⟨hp, hs⟩], happ hp hs⟩

end

/-! ## Every stored proposal -/

/-- What the proposals of a record are, after the calls `tr`. -/
structure Enacted (host : Host V) (tr : List (Receipt V)) (r : Record V) : Prop where
  life : ∀ id buf, r.network_proposal.proposal_list id = some buf →
    ∃ p pre e post, buf = p.to_bytes host ∧ tr = pre ++ e :: post ∧ Life host id e post p
  keys : r.network_proposal.proposal_list_keys
    = (tr.filter fun e => registers e.call.ctx.txHash e).map fun e => e.call.ctx.txHash
  stored : ∀ id ∈ r.network_proposal.proposal_list_keys,
    (r.network_proposal.proposal_list id).isSome

section

variable {host : Host V} {tr : List (Receipt V)} {r : Record V} {id : Bytes} {p : ProposalInfo}

/-- What can be read is a proposal with its life. -/
theorem Enacted.read (h : Enacted host tr r) (hread : r.network_proposal.read host id = .ok p) :
    ∃ pre e post, r.network_proposal.proposal_list id = some (p.to_bytes host)
      ∧ tr = pre ++ e :: post ∧ Life host id e post p := by
  simp [NetworkProposal.read, NetworkProposal.load] at hread
  obtain ⟨-, buf, hbuf, hp⟩ := hread
  obtain ⟨p', pre, e, post, rfl, htr, hlife⟩ := h.life id buf hbuf
  rw [ProposalInfo.from_bytes_to_bytes host hlife.init_eq hlife.value_valid] at hp
  obtain rfl := Except.ok.inj hp
  exact ⟨pre, e, post, hbuf, htr, hlife⟩

/-- A call about no proposal. -/
theorem Enacted.other {r' : Record V} {e : Receipt V} (h : Enacted host tr r)
    (hdb : r'.network_proposal = r.network_proposal) (hf : ∀ id, Foreign id e) :
    Enacted host (tr ++ [e]) r' where
  life := by
    intro id buf hbuf
    rw [hdb] at hbuf
    obtain ⟨p, pre, b, post, hp, rfl, hlife⟩ := h.life id buf hbuf
    exact ⟨p, pre, b, post ++ [e], hp, by simp, hlife.skip (hf id)⟩
  keys := by rw [hdb, h.keys]; simp [(hf _).registers]
  stored := by rw [hdb]; exact h.stored

/-- A call that rewrites one proposal. -/
theorem Enacted.write {r' : Record V} {e : Receipt V} {p' : ProposalInfo}
    (h : Enacted host tr r) (hread : r.network_proposal.read host id = .ok p)
    (hdb : r'.network_proposal = r.network_proposal.write host id p')
    (hr : ∀ id, registers id e = false) (hother : ∀ id' ≠ id, Foreign id' e)
    (hlife : ∀ b post, Life host id b post p → Life host id b (post ++ [e]) p') :
    Enacted host (tr ++ [e]) r' where
  life := by
    intro id' buf hbuf
    rw [hdb, NetworkProposal.write_list] at hbuf
    by_cases hid : id' = id
    · subst hid
      obtain ⟨pre, b, post, -, rfl, hp⟩ := h.read hread
      rw [DictDB.set_self] at hbuf
      obtain rfl := Option.some.inj hbuf
      exact ⟨p', pre, b, post ++ [e], rfl, by simp, hlife b post hp⟩
    · rw [DictDB.set_of_ne _ hid] at hbuf
      obtain ⟨q, pre, b, post, hq, rfl, hlifeq⟩ := h.life id' buf hbuf
      exact ⟨q, pre, b, post ++ [e], hq, by simp, hlifeq.skip (hother id' hid)⟩
  keys := by rw [hdb, NetworkProposal.write_keys, h.keys]; simp [hr]
  stored := by
    intro id' hin
    rw [hdb, NetworkProposal.write_keys] at hin
    rw [hdb, NetworkProposal.write_list]
    by_cases hid : id' = id
    · simp [hid]
    · rw [DictDB.set_of_ne _ hid]
      exact h.stored id' hin

theorem Enacted.register {r' : Record V} {e : Receipt V} {title description : String}
    {type : Int} {value : Bytes} {doc : Json} (h : Enacted host tr r)
    (hm : e.call.method = .registerProposal title description type value)
    (hprep : _check_main_prep e.call.ctx.sender e.call.ctx.mainPReps.preps = true)
    (hdoc : host.jsonLoads value = some doc)
    (hvalid : _validate_network_proposal host e.call.ctx e.before.network type doc = .ok true)
    (hdb : r'.network_proposal = r.network_proposal.register_proposal host e.call.ctx.txHash
      e.call.ctx.sender e.now e.call.ctx.mainPReps.expireBlockHeight title description type doc
      e.call.ctx.mainPReps.preps)
    (ha : ∀ id, approvals id e = 0) :
    Enacted host (tr ++ [e]) r' where
  life := by
    intro id buf hbuf
    rw [hdb, NetworkProposal.register_list] at hbuf
    by_cases hid : id = e.call.ctx.txHash
    · subst hid
      rw [DictDB.set_self] at hbuf
      obtain rfl := Option.some.inj hbuf
      exact ⟨_, tr, e, [], rfl, rfl, .new hm hprep hdoc hvalid⟩
    · rw [DictDB.set_of_ne _ hid] at hbuf
      obtain ⟨q, pre, b, post, hq, rfl, hlife⟩ := h.life id buf hbuf
      exact ⟨q, pre, b, post ++ [e], hq, by simp, hlife.skip
        ⟨by simp [registers, hm, Ne.symm hid], by simp [cancels, hm], by simp [castOn, hm],
          ha id⟩⟩
  keys := by
    rw [hdb, NetworkProposal.register_keys, h.keys]
    simp [registers, hm]
  stored := by
    intro id hin
    rw [hdb, NetworkProposal.register_keys] at hin
    rw [hdb, NetworkProposal.register_list]
    by_cases hid : id = e.call.ctx.txHash
    · simp [hid]
    · rw [DictDB.set_of_ne _ hid]
      refine h.stored id ?_
      simpa [hid] using hin

/-- Applying a proposal announces no approval. -/
theorem Applied.count_eq_zero {v v' : V} {t : Option NetworkProposalType} {value : Json}
    {evs : List Event} (h : Applied host v t value v' evs) (id : Bytes) :
    evs.count (.NetworkProposalApproved id) = 0 := by
  rw [List.count_eq_zero]
  intro hin
  cases h.isSetting _ hin

theorem Enacted.effect {e : Receipt V} (h : Enacted host tr e.before.record)
    (he : Effect host e.now e.call.ctx e.before e.call.method e.after) :
    Enacted host (tr ++ [e]) e.after.record := by
  obtain ⟨now, ⟨ctx, m⟩, w, w'⟩ := e
  simp only at h he ⊢
  cases he with
  | register hprep hterm hdoc hvalid =>
      exact h.register rfl hprep hdoc hvalid rfl fun id => by simp [approvals]
  | cancel hread hopen hproposer hvoting =>
      refine h.write hread rfl (fun _ => rfl) ?_ fun b post hp =>
        hp.cancel hvoting hopen rfl (by simp [approvals])
      exact fun id' hid =>
        ⟨rfl, by simp [cancels, Ne.symm hid], rfl, by simp [approvals]⟩
  | vote hread hv hnot =>
      refine h.write hread rfl (fun _ => rfl) ?_ fun b post hp =>
        hp.vote rfl hv (by simp [approvals, hnot]) fun hp hs => absurd ⟨hp, hs⟩ hnot
      exact fun id' hid =>
        ⟨rfl, rfl, by simp [castOn, Ne.symm hid], by simp [approvals]⟩
  | approve hread hv hvoting ha =>
      refine h.write hread rfl (fun _ => rfl) ?_ fun b post hp =>
        hp.vote rfl hv (by simp [approvals, hvoting, ha.count_eq_zero]) fun _ _ => ⟨_, ha⟩
      exact fun id' hid => ⟨rfl, rfl, by simp [castOn, Ne.symm hid],
        by simp [approvals, ha.count_eq_zero, Ne.symm hid]⟩
  | _ => exact h.other rfl fun _ => ⟨rfl, rfl, rfl, by simp [approvals]⟩

end

theorem Installed.enacted {host : Host V} {w : World V} (h : Installed host w) :
    Enacted host [] w.record := by
  obtain ⟨v, -, -, rfl⟩ := h.record_eq
  exact ⟨by simp [World.record, NetworkProposal.empty], rfl,
    by simp [World.record, NetworkProposal.empty]⟩

theorem History.enacted {host : Host V} {w : World V} {tr : List (Receipt V)} {r : Record V}
    (hw : Installed host w) (h : History host w.record tr r) : Enacted host tr r :=
  h.calls (motive := Enacted host) hw.enacted fun ih he _ => ih.effect he

theorem Reachable.enacted {host : Host V} {c : Network V} (h : Reachable host c) :
    Enacted host c.cur.trace c.cur.state.record := by
  obtain ⟨w, hw, hist, -⟩ := h.history
  exact hist.enacted hw

end Governance
