import StableCoin.SwapRemove
import StableCoin.Governance.Contract

/-!
# What a governance call does

One relation for each layer of the contract. `Applied` is what approving a
proposal has the host do to the network; `Votes` when a vote is accepted and
what it brings the proposal to; `Effect` what an accepted call does to the
contract, up to the moment it first loses control. `Effect.of_first` reads
them off the code; everything later is proved from them.
-/

namespace Governance

open Python Reentrancy
open StableCoin (Address ArrayDB Bytes DictDB VarDB)

variable {V : Type}

/-! ## Statements -/

section

variable {α ε ε' : Type}

@[simp] theorem lift_abort (x : Except Abort α) :
    (liftM x : Exec V α) = Program.ofExcept x := rfl

@[simp] theorem lift_exception (x : Except Exception α) :
    (liftM x : Exec V α) = Program.ofExcept (x.mapError .raised) := rfl

@[simp] theorem lift_exception_abort (x : Except Exception α) :
    (liftM x : Except Abort α) = x.mapError .raised := rfl

@[simp] theorem mapError_eq_ok {x : Except ε α} {f : ε → ε'} {a : α} :
    x.mapError f = .ok a ↔ x = .ok a := by
  cases x <;> simp [Except.mapError]

@[simp] theorem require_eq_ok {c : Prop} [Decidable c] {msg : String} {a : Unit} :
    require c msg = .ok a ↔ c := by
  by_cases h : c <;> simp [require, revert, h]

@[simp] theorem found_eq_ok {x : Option α} {e : Abort} {a : α} :
    found x e = .ok a ↔ x = some a := by
  cases x <;> simp [found]

end

attribute [simp] Program.first_bind_ofExcept bind_eq_ok map_eq_ok

/-! ## Approving -/

/-- Approving a proposal of the given type takes the network from `v` to
`v'` and logs `evs`. -/
inductive Applied (host : Host V) (v : V) :
    Option NetworkProposalType → Json → V → List Event → Prop
  | unknown {value} : Applied host v none value v []
  | text {value} : Applied host v (some .TEXT) value v []
  | revision {value code name c n v₁ v₂ v'}
      (hkeys : value.onlyKeys ["code", "name"] = .ok ())
      (hcode : value.argument "code" = .ok code) (hname : value.argument "name" = .ok name)
      (hc : host.int code = .ok c)
      (hle : host.get_icon_network_value v .REVISION_CODE ≤ c) (hn : name.asStr = .ok n)
      (hset : host.set_icon_network_value .REVISION_CODE c v = .ok v₁)
      (hset' : host.set_icon_network_value .REVISION_NAME n v₁ = .ok v₂)
      (hchange : host.apply_revision_change c v₂ = .ok v') :
      Applied host v (some .REVISION) value v' [.RevisionChanged c n]
  | freeze {value address type a t v'}
      (hkeys : value.onlyKeys ["address", "type"] = .ok ())
      (haddress : value.argument "address" = .ok address)
      (htype : value.argument "type" = .ok type)
      (ha : host.fromString address = .ok a) (ht : host.int type = .ok t)
      (hfreeze : MaliciousScoreType.ofInt t = some .FREEZE)
      (hcontract : a.isContract = true) (hself : host.address ≠ a)
      (hnew : a ∉ host.get_icon_network_value v .SCORE_BLACK_LIST)
      (hset : host.set_icon_network_value .SCORE_BLACK_LIST
        (host.get_icon_network_value v .SCORE_BLACK_LIST ++ [a]) v = .ok v') :
      Applied host v (some .MALICIOUS_SCORE) value v' [.MaliciousScore a .FREEZE]
  | unfreeze {value address type a t v'}
      (hkeys : value.onlyKeys ["address", "type"] = .ok ())
      (haddress : value.argument "address" = .ok address)
      (htype : value.argument "type" = .ok type)
      (ha : host.fromString address = .ok a) (ht : host.int type = .ok t)
      (hunfreeze : MaliciousScoreType.ofInt t = some .UNFREEZE)
      (hcontract : a.isContract = true)
      (hin : a ∈ host.get_icon_network_value v .SCORE_BLACK_LIST)
      (hset : host.set_icon_network_value .SCORE_BLACK_LIST
        ((host.get_icon_network_value v .SCORE_BLACK_LIST).erase a) v = .ok v') :
      Applied host v (some .MALICIOUS_SCORE) value v' [.MaliciousScore a .UNFREEZE]
  | noScore {value address type a t}
      (hkeys : value.onlyKeys ["address", "type"] = .ok ())
      (haddress : value.argument "address" = .ok address)
      (htype : value.argument "type" = .ok type)
      (ha : host.fromString address = .ok a) (ht : host.int type = .ok t)
      (hnone : MaliciousScoreType.ofInt t = none) :
      Applied host v (some .MALICIOUS_SCORE) value v []
  | disqualify {value address a v' success reason}
      (hkeys : value.onlyKeys ["address"] = .ok ())
      (haddress : value.argument "address" = .ok address)
      (ha : host.fromString address = .ok a)
      (hdone : host.disqualify_prep a v = .ok (v', success, reason)) :
      Applied host v (some .PREP_DISQUALIFICATION) value v'
        [.PRepDisqualified a success reason]
  | stepPrice {value price n v'}
      (hkeys : value.onlyKeys ["value"] = .ok ()) (hprice : value.argument "value" = .ok price)
      (hn : host.int price = .ok n) (hpos : 0 < n)
      (hset : host.set_icon_network_value .STEP_PRICE n v = .ok v') :
      Applied host v (some .STEP_PRICE) value v' [.StepPriceChanged n]
  | noStepPrice {value price n}
      (hkeys : value.onlyKeys ["value"] = .ok ()) (hprice : value.argument "value" = .ok price)
      (hn : host.int price = .ok n) (hpos : ¬ 0 < n) :
      Applied host v (some .STEP_PRICE) value v []
  | irep {value irep n v'}
      (hkeys : value.onlyKeys ["value"] = .ok ()) (hirep : value.argument "value" = .ok irep)
      (hn : host.int irep = .ok n) (hpos : 0 < n)
      (hset : host.set_icon_network_value .IREP (some n) v = .ok v') :
      Applied host v (some .IREP) value v' [.IRepChanged n]
  | noIrep {value irep n}
      (hkeys : value.onlyKeys ["value"] = .ok ()) (hirep : value.argument "value" = .ok irep)
      (hn : host.int irep = .ok n) (hpos : ¬ 0 < n) :
      Applied host v (some .IREP) value v []
  | stepCosts {value costs items table v'}
      (hcosts : value.getItem "costs" = .ok costs) (hitems : costs.items = .ok items)
      (htable : readCosts host items = .ok table)
      (hset : host.set_icon_network_value .STEP_COSTS table v = .ok v') :
      Applied host v (some .STEP_COSTS) value v'
        (table.map fun (k, n) => .StepCostChanged k n)
  | rewardFund {value iglobal n v'}
      (hkeys : value.onlyKeys ["iglobal"] = .ok ())
      (higlobal : value.argument "iglobal" = .ok iglobal) (hn : host.int iglobal = .ok n)
      (hpos : 0 < n) (hset : host.set_reward_fund n v = .ok v') :
      Applied host v (some .REWARD_FUND_SETTING) value v' [.RewardFundSettingChanged n]
  | noRewardFund {value iglobal n}
      (hkeys : value.onlyKeys ["iglobal"] = .ok ())
      (higlobal : value.argument "iglobal" = .ok iglobal) (hn : host.int iglobal = .ok n)
      (hpos : ¬ 0 < n) :
      Applied host v (some .REWARD_FUND_SETTING) value v []
  | allocation {value funds items shares v'}
      (hfunds : value.getItem "rewardFunds" = .ok funds) (hitems : funds.items = .ok items)
      (hshares : readFunds host items ⟨0, 0, 0, 0⟩ = .ok shares)
      (hset : host.set_reward_fund_allocation shares v = .ok v') :
      Applied host v (some .REWARD_FUND_ALLOCATION) value v'
        [.RewardFundAllocationChanged shares]

/-- The events that announce what a proposal changed. -/
def Event.isSetting : Event → Bool
  | .StepPriceChanged _ => true
  | .StepCostChanged .. => true
  | .RevisionChanged .. => true
  | .MaliciousScore .. => true
  | .PRepDisqualified .. => true
  | .IRepChanged _ => true
  | .RewardFundSettingChanged _ => true
  | .RewardFundAllocationChanged _ => true
  | _ => false

/-- Applying a proposal announces nothing else. -/
theorem Applied.isSetting {host : Host V} {v v' : V} {t : Option NetworkProposalType}
    {value : Json} {evs : List Event} (h : Applied host v t value v' evs) :
    ∀ ev ∈ evs, ev.isSetting = true := by
  cases h with
  | stepCosts =>
      intro ev hev
      obtain ⟨_, -, rfl⟩ := List.mem_map.mp hev
      rfl
  | _ => simp [Event.isSetting]

section

variable {host : Host V} {w w' : World V} {type : Int} {value : Json}

/-- What the host does goes through. -/
theorem first_bind_system {α : Type} {f : V → Except Abort V}
    {g : Unit → World V → Outcome Abort Deploy (World V) α} :
    ((system f w).bind g).first = some w'
      ↔ ∃ v, f w.network = .ok v ∧ (g () { w with network := v }).first = some w' := by
  cases h : f w.network <;> simp [system, h]

theorem _malicious_score_first {address type : Json}
    (h : (_malicious_score host address type w).first = some w') :
    ∃ a t, host.fromString address = .ok a ∧ host.int type = .ok t
      ∧ ((MaliciousScoreType.ofInt t = some .FREEZE ∧ a.isContract = true
          ∧ host.address ≠ a
          ∧ a ∉ host.get_icon_network_value w.network .SCORE_BLACK_LIST
          ∧ ∃ v, host.set_icon_network_value .SCORE_BLACK_LIST
            (host.get_icon_network_value w.network .SCORE_BLACK_LIST ++ [a]) w.network = .ok v
          ∧ w' = { w with network := v, events := w.events ++ [.MaliciousScore a .FREEZE] })
        ∨ (MaliciousScoreType.ofInt t = some .UNFREEZE ∧ a.isContract = true
          ∧ a ∈ host.get_icon_network_value w.network .SCORE_BLACK_LIST
          ∧ ∃ v, host.set_icon_network_value .SCORE_BLACK_LIST
            ((host.get_icon_network_value w.network .SCORE_BLACK_LIST).erase a) w.network
              = .ok v
          ∧ w' = { w with network := v, events := w.events ++ [.MaliciousScore a .UNFREEZE] })
        ∨ (MaliciousScoreType.ofInt t = none ∧ w' = w)) := by
  simp [_malicious_score] at h
  obtain ⟨a, ha, t, ht, h⟩ := h
  refine ⟨a, t, ha, ht, ?_⟩
  cases hk : MaliciousScoreType.ofInt t with
  | none =>
      simp [hk] at h
      exact Or.inr (Or.inr ⟨rfl, h.symm⟩)
  | some k =>
      cases k with
      | FREEZE =>
          simp [hk, _addToScoreBlackList, first_bind_system, emit] at h
          obtain ⟨hc, hs, hn, v, hset, rfl⟩ := h
          exact Or.inl ⟨rfl, hc, hs, hn, v, hset, rfl⟩
      | UNFREEZE =>
          simp [hk, _removeFromScoreBlackList, first_bind_system,
            emit] at h
          obtain ⟨hc, hin, v, hset, rfl⟩ := h
          exact Or.inr (Or.inl ⟨rfl, hc, hin, v, hset, rfl⟩)

theorem _approve_network_proposal_first
    (h : (_approve_network_proposal host type value w).first = some w') :
    ∃ v evs, Applied host w.network (NetworkProposalType.ofInt type) value v evs
      ∧ w' = { w with network := v, events := w.events ++ evs } := by
  cases ht : NetworkProposalType.ofInt type with
  | none =>
      simp [_approve_network_proposal, ht] at h
      exact ⟨_, [], .unknown, by simp [h]⟩
  | some t =>
      cases t with
      | TEXT =>
          simp [_approve_network_proposal, ht] at h
          exact ⟨_, [], .text, by simp [h]⟩
      | REVISION =>
          simp [_approve_network_proposal, ht, _set_revision, first_bind_system, emit] at h
          obtain ⟨⟨_, hkeys⟩, code, hcode, name, hname, c, hc, hle, n, hn, v₁, hset, v₂, hset',
            v', hchange, rfl⟩ := h
          exact ⟨_, _, .revision hkeys hcode hname hc hle hn hset hset' hchange, rfl⟩
      | MALICIOUS_SCORE =>
          simp [_approve_network_proposal, ht] at h
          obtain ⟨⟨_, hkeys⟩, address, haddress, type, htype, h⟩ := h
          obtain ⟨a, t, ha, ht, ⟨hf, hc, hs, hn, v, hset, rfl⟩ | ⟨hu, hc, hin, v, hset, rfl⟩
            | ⟨hn, rfl⟩⟩ := _malicious_score_first h
          · exact ⟨_, _, .freeze hkeys haddress htype ha ht hf hc hs hn hset, rfl⟩
          · exact ⟨_, _, .unfreeze hkeys haddress htype ha ht hu hc hin hset, rfl⟩
          · exact ⟨_, [], .noScore hkeys haddress htype ha ht hn, by simp⟩
      | PREP_DISQUALIFICATION =>
          simp [_approve_network_proposal, ht, _disqualify_prep, emit] at h
          obtain ⟨⟨_, hkeys⟩, address, haddress, a, ha, v, ⟨reason, hdone, rfl⟩
            | ⟨reason, hdone, rfl⟩⟩ := h
          · exact ⟨_, _, .disqualify hkeys haddress ha hdone, rfl⟩
          · exact ⟨_, _, .disqualify hkeys haddress ha hdone, rfl⟩
      | STEP_PRICE =>
          simp [_approve_network_proposal, ht, _set_step_price, emit] at h
          obtain ⟨⟨_, hkeys⟩, price, hprice, n, hn, h⟩ := h
          by_cases hpos : 0 < n
          · simp [hpos, first_bind_system] at h
            obtain ⟨v, hset, rfl⟩ := h
            exact ⟨_, _, .stepPrice hkeys hprice hn hpos hset, rfl⟩
          · simp [hpos] at h
            exact ⟨_, [], .noStepPrice hkeys hprice hn hpos, by simp [h]⟩
      | IREP =>
          simp [_approve_network_proposal, ht, _set_irep, emit] at h
          obtain ⟨⟨_, hkeys⟩, irep, hirep, n, hn, h⟩ := h
          by_cases hpos : 0 < n
          · simp [hpos, first_bind_system] at h
            obtain ⟨v, hset, rfl⟩ := h
            exact ⟨_, _, .irep hkeys hirep hn hpos hset, rfl⟩
          · simp [hpos] at h
            exact ⟨_, [], .noIrep hkeys hirep hn hpos, by simp [h]⟩
      | STEP_COSTS =>
          simp [_approve_network_proposal, ht, _set_step_costs, first_bind_system] at h
          obtain ⟨costs, hcosts, items, hitems, table, htable, v, hset, rfl⟩ := h
          exact ⟨_, _, .stepCosts hcosts hitems htable hset, rfl⟩
      | REWARD_FUND_SETTING =>
          simp [_approve_network_proposal, ht, _set_reward_fund, emit] at h
          obtain ⟨⟨_, hkeys⟩, iglobal, higlobal, n, hn, h⟩ := h
          by_cases hpos : 0 < n
          · simp [hpos, first_bind_system] at h
            obtain ⟨v, hset, rfl⟩ := h
            exact ⟨_, _, .rewardFund hkeys higlobal hn hpos hset, rfl⟩
          · simp [hpos] at h
            exact ⟨_, [], .noRewardFund hkeys higlobal hn hpos, by simp [h]⟩
      | REWARD_FUND_ALLOCATION =>
          simp [_approve_network_proposal, ht, _set_reward_fund_allocation, first_bind_system,
            emit] at h
          obtain ⟨funds, hfunds, items, hitems, shares, hshares, v, hset, rfl⟩ := h
          exact ⟨_, _, .allocation hfunds hitems hshares hset, rfl⟩

/-- What can be applied is applied. -/
theorem Applied.first {v : V} {evs : List Event}
    (h : Applied host w.network (NetworkProposalType.ofInt type) value v evs) :
    (_approve_network_proposal host type value w).first
      = some { w with network := v, events := w.events ++ evs } := by
  generalize ht : NetworkProposalType.ofInt type = t at h
  cases h with
  | unknown => simp [_approve_network_proposal, ht]
  | text => simp [_approve_network_proposal, ht]
  | revision hkeys hcode hname hc hle hn hset hset' hchange =>
      simp [_approve_network_proposal, ht, _set_revision, system, emit,
        hkeys, hcode, hname, hc, hle, hn, hset, hset', hchange]
  | freeze hkeys haddress htype ha hn hfreeze hcontract hself hnew hset =>
      simp [_approve_network_proposal, ht, _malicious_score, hkeys, haddress, htype, ha, hn,
        hfreeze, _addToScoreBlackList, system, emit, hcontract, hself,
        hnew, hset]
  | unfreeze hkeys haddress htype ha hn hunfreeze hcontract hin hset =>
      simp [_approve_network_proposal, ht, _malicious_score, hkeys, haddress, htype, ha, hn,
        hunfreeze, _removeFromScoreBlackList, system, emit, hcontract,
        hin, hset]
  | noScore hkeys haddress htype ha hn hnone =>
      simp [_approve_network_proposal, ht, _malicious_score, hkeys, haddress, htype, ha, hn,
        hnone]
  | @disqualify _ _ _ _ success reason hkeys haddress ha hdone =>
      cases success <;>
        simp [_approve_network_proposal, ht, _disqualify_prep, emit, hkeys, haddress, ha, hdone]
  | stepPrice hkeys hprice hn hpos hset =>
      simp [_approve_network_proposal, ht, _set_step_price, system, emit, hkeys, hprice, hn,
        hpos, hset]
  | noStepPrice hkeys hprice hn hpos =>
      simp [_approve_network_proposal, ht, _set_step_price, hkeys, hprice, hn, hpos]
  | irep hkeys hirep hn hpos hset =>
      simp [_approve_network_proposal, ht, _set_irep, system, emit, hkeys, hirep, hn, hpos,
        hset]
  | noIrep hkeys hirep hn hpos =>
      simp [_approve_network_proposal, ht, _set_irep, hkeys, hirep, hn, hpos]
  | stepCosts hcosts hitems htable hset =>
      simp [_approve_network_proposal, ht, _set_step_costs, system, hcosts, hitems, htable,
        hset]
  | rewardFund hkeys higlobal hn hpos hset =>
      simp [_approve_network_proposal, ht, _set_reward_fund, system, emit, hkeys, higlobal, hn,
        hpos, hset]
  | noRewardFund hkeys higlobal hn hpos =>
      simp [_approve_network_proposal, ht, _set_reward_fund, hkeys, higlobal, hn, hpos]
  | allocation hfunds hitems hshares hset =>
      simp [_approve_network_proposal, ht, _set_reward_fund_allocation, system, emit, hfunds,
        hitems, hshares, hset]

end

/-! ## Votes -/

/-- The entry a vote adds. -/
def Context.voter (ctx : Context) (prep : PRep) : Voter :=
  _generate_voter_in_dict ctx.txHash ctx.timestamp prep

/-- The proposal after a vote that brought it to `status`. -/
def ProposalInfo.voted (p : ProposalInfo) (vote_type : NetworkProposalVote) (voter : Voter)
    (status : NetworkProposalStatus) : ProposalInfo :=
  { p with vote := p.vote.cast vote_type voter, status }

/-- The caller, who is the candidate `prep`, may vote on `p` and thereby
brings it to `status`. -/
structure Votes (ctx : Context) (now vote : Int) (p : ProposalInfo)
    (vote_type : NetworkProposalVote) (prep : PRep) (status : NetworkProposalStatus) :
    Prop where
  code : NetworkProposalVote.ofInt vote = some vote_type
  unexpired : now ≤ p.end_block_height
  alive : p.status ≠ .CANCELED
  unvoted : str ctx.sender
    ∉ p.vote.agree.list.map (·.address) ++ p.vote.disagree.list.map (·.address)
  elector : str ctx.sender ∈ p.vote.noVote.list
  candidate : prep ∈ ctx.mainPReps.preps ∧ prep.address = ctx.sender
  settled : settle vote_type { p with vote := p.vote.cast vote_type (ctx.voter prep) }
    = .ok status

theorem vote_proposal_eq_ok {host : Host V} {ctx : Context} {now vote type : Int}
    {db db' : NetworkProposal} {id : Bytes} {approved : Bool} {value : Json}
    (h : db.vote_proposal host id ctx.sender vote now ctx.txHash ctx.timestamp
      ctx.mainPReps.preps = .ok (db', approved, type, value)) :
    ∃ p vote_type prep status, db.read host id = .ok p
      ∧ Votes ctx now vote p vote_type prep status
      ∧ db' = db.write host id (p.voted vote_type (ctx.voter prep) status)
      ∧ approved = decide (p.status = .VOTING ∧ status = .APPROVED)
      ∧ type = p.type ∧ value = p.value := by
  simp [NetworkProposal.vote_proposal] at h
  obtain ⟨vote_type, hcode, p, hread, hopen, halive, ⟨hagree, hdisagree⟩, hin, prep, hfind,
    status, hstatus, rfl, rfl, rfl, rfl⟩ := h
  have hmem := List.mem_reverse.mp (List.mem_of_find?_eq_some hfind)
  have hsender : prep.address = ctx.sender := by simpa using List.find?_some hfind
  refine ⟨p, vote_type, prep, status, hread,
    ⟨hcode, hopen, halive, ?_, hin, ⟨hmem, hsender⟩, hstatus⟩, rfl, by simp, rfl, rfl⟩
  simpa using ⟨hagree, hdisagree⟩

theorem cancel_proposal_eq_ok {host : Host V} {now : Int} {proposer : Address}
    {db db' : NetworkProposal} {id : Bytes}
    (h : db.cancel_proposal host id proposer now = .ok db') :
    ∃ p, db.read host id = .ok p ∧ now ≤ p.end_block_height ∧ proposer = p.proposer
      ∧ p.status = .VOTING ∧ db' = db.write host id { p with status := .CANCELED } := by
  simp [NetworkProposal.cancel_proposal] at h
  obtain ⟨p, hread, hopen, hproposer, hvoting, rfl⟩ := h
  exact ⟨p, hread, hopen, hproposer, hvoting, rfl⟩

/-! ## Calls -/

/-- The caller of `ctx` may decide about the deploy transaction `txHash`. -/
structure Undecided (ctx : Context) (w : World V) (txHash : Bytes) : Prop where
  auditor : ctx.sender ∈ w.auditor_list
  known : (ctx.deployTxParams txHash).isSome
  unaccepted : isSet w.audit_status txHash = false
  unrejected : isSet w.reject_status txHash = false

/-- An accepted call, made at `now` in `ctx`, takes the world from `w` to
`w'` before it first loses control. -/
inductive Effect (host : Host V) (now : Int) (ctx : Context) (w : World V) :
    Method → World V → Prop
  | accept {txHash} (hu : Undecided ctx w txHash) :
      Effect host now ctx w (.acceptScore txHash) w
  | reject {txHash reason} (hu : Undecided ctx w txHash) :
      Effect host now ctx w (.rejectScore txHash reason)
        { w with
          reject_status := w.reject_status.set txHash ctx.txHash
          events := w.events ++ [.Rejected ("0x" ++ bytesHex txHash) reason] }
  | add {address} (heoa : address.isContract = false) (howner : ctx.sender = host.owner)
      (hnew : address ∉ w.auditor_list) :
      Effect host now ctx w (.addAuditor address)
        { w with auditor_list := w.auditor_list ++ [address] }
  | remove {address} (heoa : address.isContract = false)
      (hin : address ∈ w.auditor_list)
      (hsender : ctx.sender = host.owner ∨ ctx.sender = address) :
      Effect host now ctx w (.removeAuditor address)
        { w with auditor_list := SwapRemove.swapRemove address w.auditor_list }
  | register {title description type value doc}
      (hprep : _check_main_prep ctx.sender ctx.mainPReps.preps = true)
      (hterm : now ≤ ctx.mainPReps.expireBlockHeight) (hdoc : host.jsonLoads value = some doc)
      (hvalid : _validate_network_proposal host ctx w.network type doc = .ok true) :
      Effect host now ctx w (.registerProposal title description type value)
        { w with
          network_proposal := w.network_proposal.register_proposal host ctx.txHash ctx.sender
            now ctx.mainPReps.expireBlockHeight title description type doc ctx.mainPReps.preps
          events := w.events
            ++ [.NetworkProposalRegistered title description type value ctx.sender] }
  | cancel {id p} (hread : w.network_proposal.read host id = .ok p)
      (hopen : now ≤ p.end_block_height) (hproposer : ctx.sender = p.proposer)
      (hvoting : p.status = .VOTING) :
      Effect host now ctx w (.cancelProposal id)
        { w with
          network_proposal := w.network_proposal.write host id { p with status := .CANCELED }
          events := w.events ++ [.NetworkProposalCanceled id] }
  | vote {id vote p vote_type prep status}
      (hread : w.network_proposal.read host id = .ok p)
      (hv : Votes ctx now vote p vote_type prep status)
      (hnot : ¬ (p.status = .VOTING ∧ status = .APPROVED)) :
      Effect host now ctx w (.voteProposal id vote)
        { w with
          network_proposal :=
            w.network_proposal.write host id (p.voted vote_type (ctx.voter prep) status)
          events := w.events ++ [.NetworkProposalVoted id vote ctx.sender] }
  | approve {id vote p vote_type prep v evs}
      (hread : w.network_proposal.read host id = .ok p)
      (hv : Votes ctx now vote p vote_type prep .APPROVED) (hvoting : p.status = .VOTING)
      (ha : Applied host w.network (NetworkProposalType.ofInt p.type) p.value v evs) :
      Effect host now ctx w (.voteProposal id vote)
        { w with
          network_proposal :=
            w.network_proposal.write host id (p.voted vote_type (ctx.voter prep) .APPROVED)
          network := v
          events := w.events ++ [.NetworkProposalVoted id vote ctx.sender,
            .NetworkProposalApproved id] ++ evs }

theorem removeAuditor_pop {address : Address} {auditors : ArrayDB Address}
    (hin : address ∈ auditors) :
    ∃ top rest, auditors.pop = some (top, rest)
      ∧ (if top = address then rest else replaceAuditor address top rest)
        = SwapRemove.swapRemove address auditors := by
  rcases List.eq_nil_or_concat auditors with rfl | ⟨rest, top, rfl⟩
  · cases hin
  · rw [List.concat_eq_append]
    refine ⟨top, rest, by simp [ArrayDB.pop], ?_⟩
    rw [SwapRemove.swapRemove_concat, replaceAuditor]
    exact ite_congr rfl (fun _ => rfl) fun _ => SwapRemove.foldl_set_eq_replace ..

theorem Effect.of_first {host : Host V} {now : Int} {k : Call} {w w' : World V}
    (h : (body host now k w).first = some w') :
    Effect host now k.ctx w k.method w' := by
  obtain ⟨ctx, m⟩ := k
  cases m with
  | acceptScore txHash =>
      simp [body, acceptScore, _deploy] at h
      obtain ⟨haud, addr, haddr, -, ha, hr, rfl⟩ := h
      exact .accept ⟨haud, by simp [haddr], ha, hr⟩
  | rejectScore txHash reason =>
      simp [body, rejectScore, emit] at h
      obtain ⟨haud, hknown, ha, hr, rfl⟩ := h
      exact .reject ⟨haud, hknown, ha, hr⟩
  | addAuditor address =>
      simp [body, addAuditor] at h
      obtain ⟨heoa, howner, hnew, rfl⟩ := h
      exact .add heoa howner hnew
  | removeAuditor address =>
      simp [body, removeAuditor] at h
      obtain ⟨heoa, hin, hsender, h⟩ := h
      obtain ⟨top, rest, hpop, heq⟩ := removeAuditor_pop hin
      simp [hpop, heq] at h
      exact h ▸ .remove heoa hin hsender
  | registerProposal title description type value =>
      simp [body, registerProposal, emit] at h
      obtain ⟨hprep, hterm, doc, hdoc, hvalid, rfl⟩ := h
      exact .register hprep hterm hdoc hvalid
  | cancelProposal id =>
      simp [body, cancelProposal, emit] at h
      obtain ⟨hprep, db, hdb, rfl⟩ := h
      obtain ⟨p, hread, hopen, hproposer, hvoting, rfl⟩ := cancel_proposal_eq_ok hdb
      exact .cancel hread hopen hproposer hvoting
  | voteProposal id vote =>
      simp [body, voteProposal, emit] at h
      rcases h with ⟨hprep, db, ⟨⟨type, value, hdb⟩, rfl⟩ | ⟨type, value, hdb, h⟩⟩
      · obtain ⟨p, vote_type, prep, status, hread, hv, rfl, happ, rfl, rfl⟩ :=
          vote_proposal_eq_ok hdb
        exact .vote hread hv (by simpa using happ.symm)
      · obtain ⟨p, vote_type, prep, status, hread, hv, rfl, happ, rfl, rfl⟩ :=
          vote_proposal_eq_ok hdb
        obtain ⟨hvoting, rfl⟩ : p.status = .VOTING ∧ status = .APPROVED := by simpa using happ
        obtain ⟨v, evs, ha, rfl⟩ := _approve_network_proposal_first h
        exact .approve hread hv hvoting ha

end Governance
