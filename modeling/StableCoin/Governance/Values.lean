import StableCoin.Governance.Proposals

/-!
# The network

What the contract has the host change of the network it changes only when a
vote approves a proposal, and then as the proposal says: what a proposal had
to look like when it was registered holds of the values it set, and a
proposal that cannot be applied is never approved. Of the host this takes
no more than that the value that was set last is the one that is read.
-/

namespace Governance

open Python Reentrancy
open StableCoin (Address Bytes)

variable {V : Type}

/-! ## When it changes -/

/-- A call changes the network only by approving a proposal. -/
theorem Effect.network_cases {host : Host V} {now : Int} {ctx : Context} {w w' : World V}
    {m : Method} (h : Effect host now ctx w m w') :
    w'.network = w.network ∨ ∃ id vote p vote_type prep evs, m = .voteProposal id vote
      ∧ w.network_proposal.read host id = .ok p ∧ p.status = .VOTING
      ∧ Votes ctx now vote p vote_type prep .APPROVED
      ∧ w'.network_proposal
        = w.network_proposal.write host id (p.voted vote_type (ctx.voter prep) .APPROVED)
      ∧ Applied host w.network (NetworkProposalType.ofInt p.type) p.value w'.network evs := by
  cases h with
  | approve hread hv hvoting ha =>
      exact Or.inr ⟨_, _, _, _, _, _, rfl, hread, hvoting, hv, rfl, ha⟩
  | _ => exact Or.inl rfl

section

variable {host : Host V} {c c' : Network V}

/-- The accepted vote `d` approves the proposal that `e` registered under
`id`, with the calls `post` in between, and applies it. -/
structure Approval (host : Host V) (id : Bytes) (e : Receipt V) (post : List (Receipt V))
    (d : Receipt V) : Prop where
  vote : ∃ vote, d.call.method = .voteProposal id vote
  registered : registers id e = true
  latest : ∀ b ∈ post, registers id b = false
  proposer : e.call.ctx.sender ∈ e.call.ctx.mainPReps.preps.map PRep.address
  running : Election.outcome (rules e.call.ctx.mainPReps.preps) (votesOn id post) = .running
  won : Election.outcome (rules e.call.ctx.mainPReps.preps) (votesOn id (post ++ [d]))
    = .won .AGREE
  applied : ∃ p evs, d.before.network_proposal.read host id = .ok p ∧ Enrolled host id e p
    ∧ Applied host d.before.network (NetworkProposalType.ofInt p.type) p.value
      d.after.network evs

theorem Reachable.approval (h : Reachable host c) (hs : Step (body host) c c') {d : Receipt V}
    (hseg : c'.cur.trace = c.cur.trace ++ [d]) (hafter : d.after = c'.cur.state)
    (hbefore : d.before = c.cur.state)
    (he : Effect host d.now d.call.ctx d.before d.call.method d.after)
    (hne : d.after.network ≠ d.before.network) :
    ∃ id pre e post, c.cur.trace = pre ++ e :: post ∧ Approval host id e post d := by
  rcases he.network_cases
    with hsame | ⟨id, vote, p, vote_type, prep, evs, hm, hread, hvoting, hv, hdb, ha⟩
  · exact absurd hsame hne
  have hread' := hread
  rw [hbefore] at hread'
  have hreg : registers id d = false := by simp [registers, hm]
  obtain ⟨pre, e, post, p', htr, hlife, hafter', hlife'⟩ := h.life_later (.single hs) hseg
    (List.forall_mem_singleton.mpr hreg) hread'
  -- what is stored now is what the vote wrote
  have hp' : p' = p.voted vote_type (d.call.ctx.voter prep) .APPROVED := by
    have hinit : (p.voted vote_type (d.call.ctx.voter prep) .APPROVED).init
        = p.voted vote_type (d.call.ctx.voter prep) .APPROVED :=
      ProposalInfo.init_eq hlife.total_voter_pos
    rw [← hafter, hdb, NetworkProposal.read_write _ hinit hlife.value_valid] at hafter'
    exact (Except.ok.inj hafter').symm
  have hstatus : p'.status = .APPROVED := by rw [hp']; rfl
  refine ⟨id, pre, e, post, htr, ⟨vote, hm⟩, hlife.enrolled.registers, hlife.latest,
    hlife.proposer, ?_, ?_, p, evs, hread, hlife.enrolled, ha⟩
  · exact statusOf_eq_voting.mp ((hlife.decided (by simp [hvoting])).symm.trans hvoting)
  · exact statusOf_eq_approved.mp ((hlife'.decided (by simp [hstatus])).symm.trans hstatus)

/-- **The network changes by approval only**, other than by rolling back. -/
theorem network_changed (h : Reachable host c) (hs : Step (body host) c c')
    (hne : c'.cur.state.network ≠ c.cur.state.network) :
    (∃ f ∈ c.stack, c'.cur = f.saved)
    ∨ ∃ id pre e post d, c.cur.trace = pre ++ e :: post
      ∧ c'.cur.trace = c.cur.trace ++ [d] ∧ d.before = c.cur.state ∧ d.after = c'.cur.state
      ∧ Approval host id e post d := by
  have hcall {d : Receipt V} (hseg : c'.cur.trace = c.cur.trace ++ [d])
      (hafter : d.after = c'.cur.state) (hbefore : d.before = c.cur.state)
      (hfirst : (body host d.now d.call d.before).first = some d.after) :
      ∃ id pre e post d, c.cur.trace = pre ++ e :: post
        ∧ c'.cur.trace = c.cur.trace ++ [d] ∧ d.before = c.cur.state
        ∧ d.after = c'.cur.state ∧ Approval host id e post d := by
    obtain ⟨id, pre, e, post, htr, ha⟩ := h.approval hs hseg hafter hbefore
      (.of_first hfirst) (by rwa [hafter, hbefore])
    exact ⟨id, pre, e, post, d, htr, hseg, hbefore, hafter, ha⟩
  cases hs with
  | run ho => exact Or.inr (hcall rfl rfl rfl (Outcome.first_of_done ho))
  | suspend ho => exact Or.inr (hcall rfl rfl rfl (Outcome.first_of_call ho))
  | tick hle => exact absurd rfl hne
  | reject ho => exact absurd rfl hne
  | enter => exact absurd rfl hne
  | leave => exact absurd rfl hne
  | resume ho =>
      obtain ⟨_, _, rfl⟩ := h.resume_eq (List.mem_cons_self ..) rfl
      cases ho
      exact absurd rfl hne
  | again ho =>
      obtain ⟨_, _, rfl⟩ := h.resume_eq (List.mem_cons_self ..) rfl
      cases ho
  | fail ho => exact Or.inl ⟨_, List.mem_cons_self .., rfl⟩
  | revert => exact Or.inl ⟨_, List.mem_cons_self .., rfl⟩

theorem Sample.getStepPrice_eq (w : World Sample.Values) :
    getStepPrice Sample.host w = w.network.STEP_PRICE := rfl

/-- Bob's vote raises the price. -/
theorem Sample.pending_step : ∃ c', Step (body Sample.host) Sample.pending c'
    ∧ getStepPrice Sample.host c'.cur.state
      ≠ getStepPrice Sample.host Sample.pending.cur.state := by
  have hprice : Sample.pending.cur.state.network.STEP_PRICE = 100
      ∧ ((body Sample.host Sample.pending.now ⟨Sample.ctx Sample.bob 3, .voteProposal [1] 1⟩
        Sample.pending.cur.state).first.map (·.network.STEP_PRICE)) = some 110 := by
    decide +kernel
  obtain ⟨hbefore, hafter⟩ := hprice
  obtain ⟨w, hw, hprice⟩ := Option.map_eq_some_iff.mp hafter
  refine ⟨_, step_of_first (by simp) hw, ?_⟩
  rw [getStepPrice_eq, getStepPrice_eq, Snapshot.push_state, hprice, hbefore]
  decide

theorem network_changed_pending : ∃ c', Step (body Sample.host) Sample.pending c'
    ∧ c'.cur.state.network ≠ Sample.pending.cur.state.network
    ∧ ((∃ f ∈ Sample.pending.stack, c'.cur = f.saved)
      ∨ ∃ id pre e post d, Sample.pending.cur.trace = pre ++ e :: post
        ∧ c'.cur.trace = Sample.pending.cur.trace ++ [d]
        ∧ d.before = Sample.pending.cur.state ∧ d.after = c'.cur.state
        ∧ Approval Sample.host id e post d) := by
  obtain ⟨c', hstep, hprice⟩ := Sample.pending_step
  have hne : c'.cur.state.network ≠ Sample.pending.cur.state.network :=
    fun hsame => hprice (by rw [Sample.getStepPrice_eq, hsame, Sample.getStepPrice_eq])
  exact ⟨c', hstep, hne, network_changed Sample.pending_reachable hstep hne⟩

end

/-! ## What holds of them -/

/-- The receivers of the reward fund. -/
def FUND_KEYS : List String := ["iprep", "icps", "irelay", "ivoter"]

namespace RewardFundAllocation

def total (s : RewardFundAllocation) : Int := s.iprep + s.icps + s.irelay + s.ivoter

/-- The share of a receiver. -/
def share (s : RewardFundAllocation) (key : String) : Int :=
  if key = "iprep" then s.iprep
  else if key = "icps" then s.icps
  else if key = "irelay" then s.irelay
  else s.ivoter

/-- What the loop of `_set_reward_fund_allocation` does with one item. -/
def assign (s : RewardFundAllocation) (key : String) (i : Int) : RewardFundAllocation :=
  if key = "iprep" then { s with iprep := i }
  else if key = "icps" then { s with icps := i }
  else if key = "irelay" then { s with irelay := i }
  else { s with ivoter := i }

theorem total_assign (s : RewardFundAllocation) (key : String) (i : Int) :
    (s.assign key i).total = s.total - s.share key + i := by
  unfold assign share total
  split_ifs <;> simp only <;> omega

theorem share_assign {key key' : String} (hk : key ∈ FUND_KEYS) (hk' : key' ∈ FUND_KEYS)
    (s : RewardFundAllocation) (i : Int) :
    (s.assign key i).share key' = if key' = key then i else s.share key' := by
  simp only [FUND_KEYS, List.mem_cons, List.not_mem_nil, or_false] at hk hk'
  rcases hk with rfl | rfl | rfl | rfl <;> rcases hk' with rfl | rfl | rfl | rfl <;>
    simp [assign, share]

/-- The whole fund, in shares that are not negative. -/
structure Complete (s : RewardFundAllocation) : Prop where
  nonneg : ∀ key ∈ FUND_KEYS, 0 ≤ s.share key
  total : s.total = 100

end RewardFundAllocation

section

variable {host : Host V}

/-- The two loops over the funds together: what the first one has checked,
the second one stores. `keys` are the receivers still to come. -/
theorem readFunds_complete {items : List (String × Json)} {keys : List String} {sum : Int}
    {s s' : RewardFundAllocation} (hcheck : checkFunds host items keys sum = .ok true)
    (hread : readFunds host items s = .ok s') (hnodup : keys.Nodup) (hkeys : keys ⊆ FUND_KEYS)
    (hzero : ∀ key ∈ keys, s.share key = 0) (hsum : s.total = sum)
    (hnonneg : ∀ key ∈ FUND_KEYS, 0 ≤ s.share key) : s'.Complete := by
  induction items generalizing keys sum s with
  | nil =>
      obtain rfl := Except.ok.inj hread
      simp [checkFunds, pure_eq_ok] at hcheck
      exact ⟨hnonneg, hsum.trans hcheck.1⟩
  | cons item items ih =>
      obtain ⟨k, v⟩ := item
      simp only [checkFunds] at hcheck
      simp only [readFunds] at hread
      obtain ⟨i, hi, hread⟩ := bind_eq_ok.mp hread
      by_cases hk : k ∈ keys
      · have hin := hkeys hk
        simp only [hk, not_true_eq_false, if_false, hi, ok_bind] at hcheck
        by_cases hneg : i < 0
        · simp [hneg, pure_eq_ok] at hcheck
        · rw [if_neg hneg] at hcheck
          refine ih hcheck (s := s.assign k i) hread (hnodup.erase k)
            (List.Subset.trans List.erase_subset hkeys) ?_ ?_ ?_
          · intro key hkey
            obtain ⟨hne, hmem⟩ := hnodup.mem_erase_iff.mp hkey
            rw [RewardFundAllocation.share_assign hin (hkeys hmem), if_neg hne]
            exact hzero key hmem
          · rw [RewardFundAllocation.total_assign, hzero k hk, hsum, sub_zero]
          · intro key hkey
            rw [RewardFundAllocation.share_assign hin hkey]
            split
            · exact not_lt.mp hneg
            · exact hnonneg key hkey
      · simp [hk, pure_eq_ok] at hcheck

/-- Every key that was checked is the name of a step. -/
theorem checkCosts_keys {items : List (String × Json)}
    (h : checkCosts host items = .ok true) : ∀ item ∈ items, item.1 ∈ ALL_STEP_TYPES := by
  induction items with
  | nil => exact fun _ hin => (List.not_mem_nil hin).elim
  | cons item items ih =>
      obtain ⟨k, v⟩ := item
      simp only [checkCosts] at h
      by_cases hk : k ∈ ALL_STEP_TYPES
      · simp only [hk, not_true_eq_false, if_false] at h
        obtain ⟨_, -, h⟩ := bind_eq_ok.mp h
        exact List.forall_mem_cons.mpr ⟨hk, ih h⟩
      · simp [hk, pure_eq_ok] at h

/-- Reading the costs keeps their names. -/
theorem readCosts_keys {items : List (String × Json)} {table : List (String × Int)}
    (h : readCosts host items = .ok table) : table.map Prod.fst = items.map Prod.fst := by
  induction items generalizing table with
  | nil =>
      obtain rfl := Except.ok.inj h
      rfl
  | cons item items ih =>
      obtain ⟨k, v⟩ := item
      simp only [readCosts, List.mapM_cons] at h ih
      obtain ⟨entry, hentry, h⟩ := bind_eq_ok.mp h
      obtain ⟨n, -, hentry⟩ := bind_eq_ok.mp hentry
      obtain ⟨rest, hrest, h⟩ := bind_eq_ok.mp h
      obtain rfl := Except.ok.inj hentry
      obtain rfl := Except.ok.inj h
      rw [List.map_cons, List.map_cons, ih hrest]

theorem caught_eq_ok {x : Except Exception Bool} : caught x = .ok true ↔ x = .ok true := by
  cases x with
  | ok b => rfl
  | error e => cases e <;> simp [caught]

/-- What the proposal was checked for is what it does. -/
theorem _validate_step_costs_proposal_eq {value costs : Json} {items : List (String × Json)}
    (h : _validate_step_costs_proposal host value = .ok true)
    (hcosts : value.getItem "costs" = .ok costs) (hitems : costs.items = .ok items) :
    checkCosts host items = .ok true := by
  unfold _validate_step_costs_proposal at h
  split at h
  · rw [caught_eq_ok, hcosts, ok_bind] at h
    cases costs <;> simp [Json.items] at hitems
    exact hitems ▸ h
  · cases h

theorem _validate_reward_fund_allocation_proposal_eq {value funds : Json}
    {items : List (String × Json)}
    (h : _validate_reward_fund_allocation_proposal host value = .ok true)
    (hfunds : value.getItem "rewardFunds" = .ok funds) (hitems : funds.items = .ok items) :
    checkFunds host items FUND_KEYS 0 = .ok true := by
  unfold _validate_reward_fund_allocation_proposal at h
  split at h
  · rw [caught_eq_ok, hfunds, ok_bind] at h
    cases funds <;> simp [Json.items] at hitems
    exact hitems ▸ h
  · cases h

theorem costs_of_keys {table : List (String × Int)}
    (h : ∀ k ∈ table.map Prod.fst, k ∈ ALL_STEP_TYPES) :
    ∀ item ∈ table, item.1 ∈ ALL_STEP_TYPES :=
  fun _ hin => h _ (List.mem_map_of_mem hin)

theorem share_zero (key : String) : (⟨0, 0, 0, 0⟩ : RewardFundAllocation).share key = 0 := by
  unfold RewardFundAllocation.share
  split_ifs <;> rfl

end

/-! ## Which values change -/

/-- The values that approving a proposal of the type may change. -/
def NetworkProposalType.sets : NetworkProposalType → List IconNetworkValueType
  | .REVISION => [.REVISION_CODE, .REVISION_NAME, .IREP]
  | .MALICIOUS_SCORE => [.SCORE_BLACK_LIST]
  | .STEP_PRICE => [.STEP_PRICE]
  | .IREP => [.IREP]
  | .STEP_COSTS => [.STEP_COSTS]
  | _ => []

section

variable {host : Host V} {v v' v₀ : V} {t : Option NetworkProposalType} {value : Json}
  {evs : List Event}

/-- The others stay as they are. -/
theorem Applied.get_eq (ha : Applied host v t value v' evs) {type : IconNetworkValueType}
    (h : ∀ t' ∈ t, type ∉ t'.sets) :
    host.get_icon_network_value v' type = host.get_icon_network_value v type := by
  cases ha with
  | revision hkeys hcode hname hc hle hn hset hset' hchange =>
      have hout := h .REVISION rfl
      simp only [NetworkProposalType.sets, List.mem_cons, not_or] at hout
      obtain ⟨hne, hne', hirep, -⟩ := hout
      rw [host.get_apply_revision_change hchange hirep, host.get_set_of_ne hset' hne',
        host.get_set_of_ne hset hne]
  | freeze hkeys haddress htype ha ht hfreeze hcontract hself hnew hset =>
      exact host.get_set_of_ne hset (by simpa [NetworkProposalType.sets] using h _ rfl)
  | unfreeze hkeys haddress htype ha ht hunfreeze hcontract hin hset =>
      exact host.get_set_of_ne hset (by simpa [NetworkProposalType.sets] using h _ rfl)
  | disqualify hkeys haddress ha hdone => exact host.get_disqualify_prep hdone
  | stepPrice hkeys hprice hn hpos hset =>
      exact host.get_set_of_ne hset (by simpa [NetworkProposalType.sets] using h _ rfl)
  | irep hkeys hirep hn hpos hset =>
      exact host.get_set_of_ne hset (by simpa [NetworkProposalType.sets] using h _ rfl)
  | stepCosts hcosts hitems htable hset =>
      exact host.get_set_of_ne hset (by simpa [NetworkProposalType.sets] using h _ rfl)
  | rewardFund hkeys higlobal hn hpos hset => exact host.get_set_reward_fund hset
  | allocation hfunds hitems hshares hset => exact host.get_set_reward_fund_allocation hset
  | _ => rfl

/-- Most values are what one type of proposals is about. -/
def IconNetworkValueType.setBy : IconNetworkValueType → Option NetworkProposalType
  | .STEP_PRICE => some .STEP_PRICE
  | .STEP_COSTS => some .STEP_COSTS
  | .REVISION_CODE => some .REVISION
  | .REVISION_NAME => some .REVISION
  | .SCORE_BLACK_LIST => some .MALICIOUS_SCORE
  | .IREP => none

theorem eq_of_mem_sets {type : IconNetworkValueType} {t₀ t₁ : NetworkProposalType}
    (hin : type ∈ t₁.sets) (h : type.setBy = some t₀) : t₁ = t₀ := by
  cases type with
  | IREP => cases h
  | _ =>
      obtain rfl := Option.some.inj h
      cases t₁ <;> first | rfl | exact absurd hin (by decide)

theorem Applied.get_eq_of_ne (ha : Applied host v t value v' evs)
    {type : IconNetworkValueType} {t₀ : NetworkProposalType} (ht : t ≠ some t₀)
    (h : type.setBy = some t₀) :
    host.get_icon_network_value v' type = host.get_icon_network_value v type :=
  ha.get_eq fun t' ht' hin => ht (by rw [ht', eq_of_mem_sets hin h])

/-! ## What holds of them -/

/-- What a maintainer relies on about the values. -/
structure WellFormed (host : Host V) (v : V) : Prop where
  blackList_nodup : (host.get_icon_network_value v .SCORE_BLACK_LIST).Nodup
  blackList_contract : ∀ a ∈ host.get_icon_network_value v .SCORE_BLACK_LIST,
    a.isContract = true
  blackList_self : host.address ∉ host.get_icon_network_value v .SCORE_BLACK_LIST
  costs : ∀ item ∈ host.get_icon_network_value v .STEP_COSTS, item.1 ∈ ALL_STEP_TYPES

theorem Applied.blackList (ha : Applied host v t value v' evs) (h : WellFormed host v) :
    (host.get_icon_network_value v' .SCORE_BLACK_LIST).Nodup
      ∧ (∀ a ∈ host.get_icon_network_value v' .SCORE_BLACK_LIST, a.isContract = true)
      ∧ host.address ∉ host.get_icon_network_value v' .SCORE_BLACK_LIST := by
  by_cases ht : t = some .MALICIOUS_SCORE
  · subst ht
    cases ha with
    | freeze hkeys haddress htype ha ht hfreeze hcontract hself hnew hset =>
        rw [host.get_set_self hset]
        refine ⟨?_, ?_, ?_⟩
        · exact List.nodup_append.mpr ⟨h.blackList_nodup, List.nodup_singleton _, by
            simpa using fun b hb => ne_of_mem_of_not_mem hb hnew⟩
        · exact List.forall_mem_append.mpr
            ⟨h.blackList_contract, List.forall_mem_singleton.mpr hcontract⟩
        · simpa [hself] using h.blackList_self
    | unfreeze hkeys haddress htype ha ht hunfreeze hcontract hin hset =>
        rw [host.get_set_self hset]
        exact ⟨h.blackList_nodup.erase _,
          fun b hb => h.blackList_contract b (List.mem_of_mem_erase hb),
          fun hb => h.blackList_self (List.mem_of_mem_erase hb)⟩
    | noScore => exact ⟨h.blackList_nodup, h.blackList_contract, h.blackList_self⟩
  · rw [ha.get_eq_of_ne ht rfl]
    exact ⟨h.blackList_nodup, h.blackList_contract, h.blackList_self⟩

variable {ctx : Context} {type : Int}

/-- What the proposal was checked for at its registration holds now. -/
theorem Applied.costs (ha : Applied host v (NetworkProposalType.ofInt type) value v' evs)
    (hvalid : _validate_network_proposal host ctx v₀ type value = .ok true)
    (h : WellFormed host v) :
    ∀ item ∈ host.get_icon_network_value v' .STEP_COSTS, item.1 ∈ ALL_STEP_TYPES := by
  by_cases ht : NetworkProposalType.ofInt type = some .STEP_COSTS
  · simp only [_validate_network_proposal, ht] at hvalid
    rw [ht] at ha
    cases ha with
    | stepCosts hcosts hitems htable hset =>
        have hkeys := checkCosts_keys (_validate_step_costs_proposal_eq
          (mapError_eq_ok.mp hvalid) hcosts hitems)
        rw [host.get_set_self hset]
        refine costs_of_keys ?_
        rw [readCosts_keys htable]
        simpa using hkeys
  · rw [ha.get_eq_of_ne ht rfl]
    exact h.costs

theorem Applied.wellFormed (ha : Applied host v (NetworkProposalType.ofInt type) value v' evs)
    (hvalid : _validate_network_proposal host ctx v₀ type value = .ok true)
    (h : WellFormed host v) : WellFormed host v' := by
  obtain ⟨hnodup, hcontract, hself⟩ := ha.blackList h
  exact ⟨hnodup, hcontract, hself, ha.costs hvalid h⟩

/-- The allocation that is set, and announced, is of the whole fund. -/
theorem Applied.allocation_complete
    (ha : Applied host v (NetworkProposalType.ofInt type) value v' evs)
    (hvalid : _validate_network_proposal host ctx v₀ type value = .ok true)
    {shares : RewardFundAllocation} (hin : .RewardFundAllocationChanged shares ∈ evs) :
    shares.Complete := by
  generalize ht : NetworkProposalType.ofInt type = t at ha
  simp only [_validate_network_proposal, ht] at hvalid
  cases ha with
  | allocation hfunds hitems hshares hset =>
      have hcheck := _validate_reward_fund_allocation_proposal_eq
        (mapError_eq_ok.mp hvalid) hfunds hitems
      obtain rfl : shares = _ := by simpa using hin
      exact readFunds_complete hcheck hshares (by decide) (List.Subset.refl _)
        (fun key _ => share_zero key) rfl fun key _ => (share_zero key).ge
  | _ => simp at hin

theorem Installed.wellFormed {w : World V} (h : Installed host w) :
    WellFormed host w.record.network := by
  obtain ⟨v, hcosts, hblack, rfl⟩ := h.record_eq
  have hlist : host.get_icon_network_value
      (World.record ⟨some VERSION, [host.owner], fun _ => none, fun _ => none, .empty, v,
        []⟩).network .SCORE_BLACK_LIST = [] := hblack
  refine ⟨?_, ?_, ?_, costs_of_keys ?_⟩
  · rw [hlist]
    exact List.nodup_nil
  · rw [hlist]
    simp
  · rw [hlist]
    exact List.not_mem_nil
  · rw [World.record, readCosts_keys hcosts]
    decide

/-- The proposal that a vote approves was checked when it was registered. -/
theorem Enacted.validated {tr : List (Receipt V)} {r : Record V} {id : Bytes}
    {p : ProposalInfo} (h : Enacted host tr r)
    (hread : r.network_proposal.read host id = .ok p) :
    ∃ e ∈ tr, _validate_network_proposal host e.call.ctx e.before.network p.type p.value
      = .ok true := by
  obtain ⟨_, e, _, -, htr, hlife⟩ := h.read hread
  exact ⟨e, by simp [htr], hlife.validated⟩

/-- What the logs of a call add. -/
def logged (e : Receipt V) : List Event := e.after.events.drop e.before.events.length

/-- **The values stay well formed**, and so are the allocations of the
reward fund that the calls announce. -/
theorem values_wellFormed {c : Network V} (h : Reachable host c) :
    WellFormed host c.cur.state.network
    ∧ ∀ e ∈ c.cur.trace, ∀ shares, .RewardFundAllocationChanged shares ∈ logged e →
      shares.Complete := by
  obtain ⟨w, hw, hist, -⟩ := h.history
  have hrun : Enacted host c.cur.trace c.cur.state.record
      ∧ WellFormed host c.cur.state.record.network
      ∧ ∀ e ∈ c.cur.trace, ∀ shares, .RewardFundAllocationChanged shares ∈ logged e →
        shares.Complete := by
    refine hist.calls (motive := fun tr r => Enacted host tr r ∧ WellFormed host r.network
      ∧ ∀ e ∈ tr, ∀ shares, .RewardFundAllocationChanged shares ∈ logged e →
        shares.Complete) ?_ ?_
    · exact ⟨hw.enacted, hw.wellFormed, by simp⟩
    · intro tr e ⟨henacted, hwell, hlogged⟩ he _
      refine ⟨henacted.effect he, ?_, ?_⟩
      · rcases he.network_cases
          with hsame | ⟨id, vote, p, vote_type, prep, evs, -, hread, -, -, -, ha⟩
        · rw [World.record, hsame]
          exact hwell
        · obtain ⟨e', -, hvalid⟩ := henacted.validated hread
          exact ha.wellFormed hvalid hwell
      · refine List.forall_mem_append.mpr ⟨hlogged, List.forall_mem_singleton.mpr ?_⟩
        intro shares hin
        obtain ⟨now, ⟨ctx, m⟩, w, w'⟩ := e
        simp only [logged] at he hin
        cases he with
        | approve hread hv hvoting ha =>
            obtain ⟨e', -, hvalid⟩ := henacted.validated hread
            exact ha.allocation_complete hvalid (by simpa using hin)
        | _ => simp at hin
  exact hrun.2

theorem values_wellFormed_approved :
    WellFormed Sample.host Sample.approved.cur.state.network
    ∧ ∀ e ∈ Sample.approved.cur.trace, ∀ shares,
      .RewardFundAllocationChanged shares ∈ logged e → shares.Complete :=
  values_wellFormed Sample.approved_reachable

end

/-! ## The step price -/

section

variable {host : Host V}

/-- With the item `value[key]` a parameter gets what the check has read. -/
theorem argument_eq_getItem {value v v' : Json} {key : String}
    (h : value.argument key = .ok v) (h' : value.getItem key = .ok v') : v = v' := by
  unfold Json.argument at h
  unfold Json.getItem at h'
  cases value with
  | dict items =>
      cases hitem : items.lookup key with
      | none => simp [hitem] at h
      | some w =>
          simp only [hitem] at h h'
          exact (Except.ok.inj h).symm.trans (Except.ok.inj h')
  | _ => cases h

/-- A new step price is positive, and within a quarter of the price that the
check at the registration saw. -/
theorem Applied.step_price {ctx : Context} {v v' v₀ : V} {type : Int} {value : Json}
    {evs : List Event} {n n₀ : Int}
    (ha : Applied host v (NetworkProposalType.ofInt type) value v' evs)
    (hvalid : _validate_network_proposal host ctx v₀ type value = .ok true)
    (hn : host.get_icon_network_value v' .STEP_PRICE = n)
    (hn₀ : host.get_icon_network_value v₀ .STEP_PRICE = n₀)
    (hne : host.get_icon_network_value v' .STEP_PRICE
      ≠ host.get_icon_network_value v .STEP_PRICE) :
    0 < n ∧ (n₀ * 75).fdiv 100 ≤ n ∧ n ≤ (n₀ * 125).fdiv 100 := by
  have ht : NetworkProposalType.ofInt type = some .STEP_PRICE := by
    by_contra ht
    exact hne (ha.get_eq_of_ne ht rfl)
  simp only [_validate_network_proposal, ht] at hvalid
  rw [ht] at ha
  cases ha with
  | @stepPrice _ price price₁ _ hkeys hprice hread hpos hset =>
      have hvalid := mapError_eq_ok.mp hvalid
      unfold _validate_step_price_proposal at hvalid
      obtain ⟨price', hprice', hvalid⟩ := bind_eq_ok.mp hvalid
      obtain ⟨price₂, hread', hband⟩ := bind_eq_ok.mp hvalid
      obtain rfl := argument_eq_getItem hprice hprice'
      obtain rfl := Except.ok.inj (hread.symm.trans hread')
      rw [host.get_set_self hset] at hn
      obtain rfl := hn
      simp only [hn₀, pure_eq_ok, Except.ok.injEq, decide_eq_true_eq] at hband
      exact ⟨hpos, hband⟩
  | noStepPrice => exact absurd rfl hne

end

/-! ## Proposals that cannot be applied -/

/-- The parameters of the method that applies a proposal. -/
def parameters : NetworkProposalType → Option (List String)
  | .REVISION => some ["code", "name"]
  | .MALICIOUS_SCORE => some ["address", "type"]
  | .PREP_DISQUALIFICATION => some ["address"]
  | .STEP_PRICE => some ["value"]
  | .IREP => some ["value"]
  | .REWARD_FUND_SETTING => some ["iglobal"]
  | _ => none

/-- The revision code in force. -/
def Host.revisionCode (host : Host V) (v : V) : Int :=
  host.get_icon_network_value v .REVISION_CODE

/-- The proposal cannot be applied to `v`, nor to whatever comes after: it
has a key that is no parameter, it freezes the governance contract itself,
or its revision is an old one. -/
inductive Blocked (host : Host V) (v : V) (p : ProposalInfo) : Prop
  | keys {t names} (ht : NetworkProposalType.ofInt p.type = some t)
      (hnames : parameters t = some names) (hkeys : p.value.onlyKeys names ≠ .ok ())
  | self {address type n} (ht : NetworkProposalType.ofInt p.type = some .MALICIOUS_SCORE)
      (haddress : p.value.argument "address" = .ok address)
      (hself : host.fromString address = .ok host.address)
      (htype : p.value.argument "type" = .ok type) (hn : host.int type = .ok n)
      (hfreeze : MaliciousScoreType.ofInt n = some .FREEZE)
  | revision {code n} (ht : NetworkProposalType.ofInt p.type = some .REVISION)
      (hcode : p.value.argument "code" = .ok code) (hn : host.int code = .ok n)
      (hlt : n < host.revisionCode v)

section

variable {host : Host V}

theorem Applied.onlyKeys {v v' : V} {t : NetworkProposalType} {value : Json}
    {evs : List Event} {names : List String} (ha : Applied host v (some t) value v' evs)
    (hnames : parameters t = some names) :
    value.onlyKeys names = .ok () := by
  cases ha with
  | text => cases hnames
  | stepCosts => cases hnames
  | allocation => cases hnames
  | revision hkeys => exact Option.some.inj hnames ▸ hkeys
  | freeze hkeys => exact Option.some.inj hnames ▸ hkeys
  | unfreeze hkeys => exact Option.some.inj hnames ▸ hkeys
  | noScore hkeys => exact Option.some.inj hnames ▸ hkeys
  | disqualify hkeys => exact Option.some.inj hnames ▸ hkeys
  | stepPrice hkeys => exact Option.some.inj hnames ▸ hkeys
  | irep hkeys => exact Option.some.inj hnames ▸ hkeys
  | rewardFund hkeys => exact Option.some.inj hnames ▸ hkeys
  | noStepPrice hkeys => exact Option.some.inj hnames ▸ hkeys
  | noIrep hkeys => exact Option.some.inj hnames ▸ hkeys
  | noRewardFund hkeys => exact Option.some.inj hnames ▸ hkeys

theorem Blocked.not_applied {v v' : V} {p : ProposalInfo} {evs : List Event}
    (h : Blocked host v p) :
    ¬ Applied host v (NetworkProposalType.ofInt p.type) p.value v' evs := by
  intro ha
  cases h with
  | keys ht hnames hkeys =>
      rw [ht] at ha
      exact hkeys (ha.onlyKeys hnames)
  | self ht haddress hself htype hn hfreeze =>
      rw [ht] at ha
      generalize p.value = value at *
      cases ha <;> simp_all
  | revision ht hcode hn hlt =>
      rw [ht] at ha
      generalize p.value = value at *
      cases ha with
      | revision hkeys hcode' hname hc hle hn' =>
          rw [hcode] at hcode'
          obtain rfl := Except.ok.inj hcode'
          rw [hn] at hc
          obtain rfl := Except.ok.inj hc
          exact absurd hle (not_le.mpr hlt)

theorem Applied.revision_le {v v' : V} {t : Option NetworkProposalType} {value : Json}
    {evs : List Event} (ha : Applied host v t value v' evs) :
    host.revisionCode v ≤ host.revisionCode v' := by
  by_cases ht : t = some .REVISION
  · subst ht
    cases ha with
    | @revision _ _ _ c _ v₁ v₂ _ hkeys hcode hname hc hle hn hset hset' hchange =>
        have hnew : host.revisionCode v' = c := by
          rw [Host.revisionCode, host.get_apply_revision_change hchange (by decide),
            host.get_set_of_ne hset' (by decide), host.get_set_self hset]
        rw [hnew]
        exact hle
  · exact (ha.get_eq_of_ne ht rfl).ge

/-- The revision never goes back. -/
theorem History.revision_le {r₀ r : Record V} {tr : List (Receipt V)}
    (h : History host r₀ tr r) :
    host.revisionCode r₀.network ≤ host.revisionCode r.network := by
  refine h.invariant
    (P := fun r => host.revisionCode r₀.network ≤ host.revisionCode r.network) ?_ (le_refl _)
  intro now ctx m w w' hle he
  rcases he.network_cases with hsame | ⟨_, _, _, _, _, _, -, -, -, -, -, ha⟩
  · simpa [World.record, hsame] using hle
  · exact hle.trans ha.revision_le

theorem Blocked.mono {v v' : V} {p : ProposalInfo} (h : Blocked host v p)
    (hle : host.revisionCode v ≤ host.revisionCode v') : Blocked host v' p := by
  cases h with
  | keys ht hnames hkeys => exact .keys ht hnames hkeys
  | self ht haddress hself htype hn hfreeze => exact .self ht haddress hself htype hn hfreeze
  | revision ht hcode hn hlt => exact .revision ht hcode hn (hlt.trans_le hle)

theorem Enrolled.content_eq {id : Bytes} {e : Receipt V} {p p' : ProposalInfo}
    (h : Enrolled host id e p) (h' : Enrolled host id e p')
    (hne : e.call.ctx.mainPReps.preps ≠ []) : p'.type = p.type ∧ p'.value = p.value := by
  obtain ⟨_, _, _, _, _, _, _, hm, -, hdoc, -, rfl⟩ := h
  obtain ⟨_, _, _, _, _, _, _, hm', -, hdoc', -, rfl⟩ := h'
  rw [hm] at hm'
  cases hm'
  rw [hdoc] at hdoc'
  cases hdoc'
  simp only [newProposal_eq hne, and_self]

/-- **A blocked proposal is never approved**, whoever votes for it. -/
theorem blocked_never_approved {c c' : Network V} {id : Bytes} {p : ProposalInfo}
    (h : Reachable host c) (hs : Steps (body host) c c') {seg : List (Receipt V)}
    (hseg : c'.cur.trace = c.cur.trace ++ seg) (hreg : ∀ d ∈ seg, registers id d = false)
    (hread : c.cur.state.network_proposal.read host id = .ok p) (hne : p.status ≠ .APPROVED)
    (hb : Blocked host c.cur.state.network p) :
    ∃ p', c'.cur.state.network_proposal.read host id = .ok p' ∧ p'.status ≠ .APPROVED := by
  obtain ⟨-, e, post, p', -, hlife, hread', hlife'⟩ := h.life_later hs hseg hreg hread
  refine ⟨p', hread', fun happroved => ?_⟩
  obtain ⟨htype, hvalue⟩ := hlife.enrolled.content_eq hlife'.enrolled hlife.electors_ne
  obtain ⟨d, hd, hannounced, evs, ha⟩ := hlife'.applied happroved
  rw [htype, hvalue] at ha
  rcases List.mem_append.mp hd with hd | hd
  · -- an approval before would have left its status
    have hnone := hlife.announced
    rw [if_neg hne, List.sum_eq_zero_iff] at hnone
    have hzero := hnone _ (List.mem_map_of_mem hd)
    omega
  · obtain ⟨pre, rest, rfl⟩ := List.append_of_mem hd
    have hpre := (h.segment hs hseg).effect.1
    exact (hb.mono hpre.revision_le).not_applied ha

/-- The note was no obstacle to the registration. -/
theorem blocked_never_approved_annotated :
    ∃ p p', Sample.annotated.cur.state.network_proposal.read Sample.host [1] = .ok p
      ∧ Blocked Sample.host Sample.annotated.cur.state.network p
      ∧ (Sample.annotated.run Sample.host Sample.unanimous).cur.state.network_proposal.read
        Sample.host [1] = .ok p' ∧ p'.status ≠ .APPROVED := by
  have hfacts : (Sample.annotated.cur.state.network_proposal.read Sample.host [1]).map
        (fun p => (p.status, NetworkProposalType.ofInt p.type, p.value.onlyKeys ["value"]))
        = .ok (.VOTING, some .STEP_PRICE, .error .typeError)
      ∧ ∀ d ∈ (Sample.annotated.run Sample.host Sample.unanimous).cur.trace.drop
        Sample.annotated.cur.trace.length, registers [1] d = false := by
    decide +kernel
  obtain ⟨hread, hreg⟩ := hfacts
  obtain ⟨p, hread, hp⟩ := map_eq_ok.mp hread
  simp only [Prod.mk.injEq] at hp
  obtain ⟨hstatus, htype, hkeys⟩ := hp
  have hb : Blocked Sample.host Sample.annotated.cur.state.network p :=
    .keys htype rfl (by rw [hkeys]; nofun)
  obtain ⟨p', hread', hne⟩ := blocked_never_approved Sample.annotated_reachable
    (Sample.annotated.run_steps Sample.host Sample.unanimous)
    (Sample.annotated.run_trace Sample.host Sample.unanimous) hreg hread
    (by rw [hstatus]; decide) hb
  exact ⟨p, p', hread, hb, hread', hne⟩

end

end Governance
