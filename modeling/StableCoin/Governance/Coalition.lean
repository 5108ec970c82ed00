import StableCoin.Governance.Refusal

/-!
# Deciding a proposal

Electors who have not voted yet and are candidates still can decide a
proposal at once, if together with the votes already cast they reach the
rate of their side: nobody else is needed, and nothing that happened before
can prevent it. Approving it takes, besides, that it can be applied.
-/

namespace Governance

open Python Reentrancy
open StableCoin (Address ArrayDB Bytes)

variable {V : Type}

/-- The parameter that stands for a vote. -/
def NetworkProposalVote.toInt : NetworkProposalVote → Int
  | .AGREE => 1
  | .DISAGREE => 0

theorem NetworkProposalVote.ofInt_toInt (side : NetworkProposalVote) :
    NetworkProposalVote.ofInt side.toInt = some side := by
  cases side <;> rfl

/-! ## One more vote -/

section

variable {host : Host V} {c : Network V}

/-- A call that meets its checks and does its work is a step. -/
theorem Reachable.exists_step (h : Reachable host c) {k : Call}
    (hm : ∀ txHash, k.method ≠ .acceptScore txHash)
    (hmet : refusal (k.checks host c.now c.cur.state) = none)
    (hdone : k.Completes host c.cur.state) :
    ∃ c', Step (body host) c c' ∧ c'.now = c.now
      ∧ c'.cur.trace = c.cur.trace ++ [⟨c.now, k, c.cur.state, c'.cur.state⟩]
      ∧ Effect host c.now k.ctx c.cur.state k.method c'.cur.state := by
  have hnone := (body_completes h.legible hmet).mpr hdone
  obtain ⟨w, hw⟩ := Option.isSome_iff_exists.mp (Outcome.error_eq_none.mp hnone)
  exact ⟨_, step_of_first hm hw, rfl, rfl, .of_first hw⟩

/-- What a vote leaves behind. -/
theorem Effect.voted {now : Int} {ctx : Context} {w w' : World V} {id : Bytes} {vote : Int}
    (he : Effect host now ctx w (.voteProposal id vote) w') {p : ProposalInfo}
    (hread : w.network_proposal.read host id = .ok p) (hpos : 0 < p.total_voter)
    (hvalue : p.value.Valid)
    {side : NetworkProposalVote} (hcode : NetworkProposalVote.ofInt vote = some side)
    {prep : PRep} (hin : prep ∈ ctx.mainPReps.preps) (hsender : prep.address = ctx.sender) :
    ∃ status, w'.network_proposal.read host id = .ok (p.voted side (ctx.voter prep) status)
      ∧ settle side { p with vote := p.vote.cast side (ctx.voter prep) } = .ok status
      ∧ (status ≠ .APPROVED → w'.network = w.network) := by
  cases he with
  | @vote _ _ p' side' prep' status hread' hv hnot =>
      obtain rfl := Except.ok.inj (hread'.symm.trans hread)
      obtain rfl := Option.some.inj (hv.code.symm.trans hcode)
      obtain rfl := List.inj_on_of_nodup_map ctx.mainPReps.nodup hv.candidate.1 hin
        (hv.candidate.2.trans hsender.symm)
      exact ⟨status, NetworkProposal.read_write _ (ProposalInfo.init_eq hpos) hvalue,
        hv.settled, fun _ => rfl⟩
  | @approve _ _ p' side' prep' v evs hread' hv hvoting ha =>
      obtain rfl := Except.ok.inj (hread'.symm.trans hread)
      obtain rfl := Option.some.inj (hv.code.symm.trans hcode)
      obtain rfl := List.inj_on_of_nodup_map ctx.mainPReps.nodup hv.candidate.1 hin
        (hv.candidate.2.trans hsender.symm)
      exact ⟨.APPROVED, NetworkProposal.read_write _ (ProposalInfo.init_eq hpos) hvalue,
        hv.settled, fun hne => absurd rfl hne⟩

/-- An elector who has not voted can vote on an open proposal. If the vote
approves it, the proposal has to be one that can be applied. -/
theorem Reachable.exists_vote (h : Reachable host c) {id : Bytes} {p : ProposalInfo}
    (hread : c.cur.state.network_proposal.read host id = .ok p) (hv : p.status = .VOTING)
    (hopen : c.now ≤ p.end_block_height) {ctx : Context} {prep : PRep}
    (hin : prep ∈ ctx.mainPReps.preps) (hsender : prep.address = ctx.sender)
    (hleft : str ctx.sender ∈ p.vote.noVote.list) {side : NetworkProposalVote}
    (hfits : (p.vote.side side).1.amount + prep.delegated < 2 ^ 1023)
    (happ : side = .AGREE → ∃ v evs, Applied host c.cur.state.network
      (NetworkProposalType.ofInt p.type) p.value v evs) :
    ∃ c' status, Step (body host) c c' ∧ c'.now = c.now
      ∧ c'.cur.trace = c.cur.trace
        ++ [⟨c.now, ⟨ctx, .voteProposal id side.toInt⟩, c.cur.state, c'.cur.state⟩]
      ∧ c'.cur.state.network_proposal.read host id
        = .ok (p.voted side (ctx.voter prep) status)
      ∧ settle side { p with vote := p.vote.cast side (ctx.voter prep) } = .ok status
      ∧ (status ≠ .APPROVED → c'.cur.state.network = c.cur.state.network) := by
  obtain ⟨-, e, post, -, hlife⟩ := h.life_of_read hread
  have hproposal := World.proposal_of_read hread
  have hdisjoint := (List.nodup_append.mp hlife.nodup).2.2
  have hunvoted : str ctx.sender
      ∉ p.vote.agree.list.map Voter.address ++ p.vote.disagree.list.map Voter.address :=
    fun hmem => hdisjoint _ hmem _ hleft rfl
  have hsettled : ∃ status,
      settle side { p with vote := p.vote.cast side (ctx.voter prep) } = .ok status := by
    have hlength := hlife.length_lt (List.ne_nil_of_mem hleft) side
    have hamount := hlife.amount_nonneg side
    refine settle_ok hlife.total_voter_pos ?_ hlife.ballot.weight_nonneg ?_ ?_
    · rw [Vote.side_cast]
      simpa using Int.add_one_le_iff.mpr hlength
    · rw [Vote.side_cast]
      exact add_nonneg hamount (Int.natCast_nonneg _)
    · rw [Vote.side_cast]
      exact hfits
  obtain ⟨status, hsettled⟩ := hsettled
  have hmet : refusal ((⟨ctx, .voteProposal id side.toInt⟩ : Call).checks host c.now
      c.cur.state) = none := by
    rw [refusal_eq_none]
    have hmain := _check_main_prep_eq_true.mpr ⟨prep, hin, hsender⟩
    have hcode := NetworkProposalVote.ofInt_isSome.mp
      (Option.isSome_of_eq_some side.ofInt_toInt)
    simp [Call.checks, World.stored, hproposal, hmain, hcode, hopen, hv, hleft]
    simpa using hunvoted
  have hdone : (⟨ctx, .voteProposal id side.toInt⟩ : Call).Completes host c.cur.state := by
    simp only [Call.Completes, hproposal, side.ofInt_toInt, Option.mem_some]
    rintro _ rfl _ rfl prep' hin' hsender'
    obtain rfl := List.inj_on_of_nodup_map ctx.mainPReps.nodup hin' hin
      (hsender'.trans hsender.symm)
    refine ⟨status, hsettled, fun _ hs => happ ?_⟩
    -- only a vote for it can have approved the proposal
    subst hs
    rcases settle_eq_ok (p := { p with vote := p.vote.cast side (ctx.voter prep') })
      hlife.total_voter_pos hlife.ballot.weight_nonneg hsettled
      with ⟨hne, -⟩ | ⟨-, -, hverdict⟩ | ⟨-, -, -, hverdict⟩ | ⟨-, -, -, hverdict⟩
    · exact absurd hv hne
    · cases side with
      | AGREE => rfl
      | DISAGREE => cases hverdict
    · cases hverdict
    · cases hverdict
  obtain ⟨c', hstep, hnow, htr, he⟩ := h.exists_step (by simp) hmet hdone
  obtain ⟨status', hread', hsettled', hnetwork⟩ :=
    he.voted hread hlife.total_voter_pos hlife.value_valid side.ofInt_toInt hin hsender
  exact ⟨c', status', hstep, hnow, htr, hread', hsettled', hnetwork⟩

/-! ## Coalitions -/

/-- The delegation behind a list of voters. -/
def delegation (voters : List (Context × PRep)) : Int :=
  (voters.map fun v => (v.2.delegated : Int)).sum

theorem delegation_nonneg (voters : List (Context × PRep)) : 0 ≤ delegation voters := by
  refine List.sum_nonneg fun n hn => ?_
  obtain ⟨v, -, rfl⟩ := List.mem_map.mp hn
  exact Int.natCast_nonneg _

/-- The voters, each a candidate who was an elector and has not voted, will
bring the side to its rate; and what they approve can be applied. -/
structure Coalition (host : Host V) (network : V) (p : ProposalInfo)
    (side : NetworkProposalVote) (voters : List (Context × PRep)) : Prop where
  candidate : ∀ v ∈ voters, v.2 ∈ v.1.mainPReps.preps ∧ v.2.address = v.1.sender
  nodup : (voters.map fun v => v.1.sender).Nodup
  unvoted : ∀ v ∈ voters, str v.1.sender ∈ p.vote.noVote.list
  heads : Reaches side ((p.vote.side side).1.list.length + voters.length) p.total_voter
  weight : 0 < p.total_delegated_amount
    ∧ Reaches side ((p.vote.side side).1.amount + delegation voters) p.total_delegated_amount
  fits : (p.vote.side side).1.amount + delegation voters < 2 ^ 1023
  applicable : side = .AGREE → ∃ v evs,
    Applied host network (NetworkProposalType.ofInt p.type) p.value v evs

section

variable {network : V} {p : ProposalInfo} {side : NetworkProposalVote}
  {v : Context × PRep} {voters : List (Context × PRep)}

theorem Coalition.meets (h : Coalition host network p side []) : Meets side p := by
  have hheads := h.heads
  have hweight := h.weight
  simp [delegation] at hheads hweight
  exact ⟨hheads, hweight⟩

/-- After the first vote the others are a coalition. -/
theorem Coalition.voted (h : Coalition host network p side (v :: voters)) :
    Coalition host network (p.voted side (v.1.voter v.2) .VOTING) side voters := by
  obtain ⟨hnot, hnodup⟩ := List.nodup_cons.mp h.nodup
  have hside : ((p.voted side (v.1.voter v.2) .VOTING).vote.side side).1
      = ⟨(p.vote.side side).1.list ++ [v.1.voter v.2],
        (p.vote.side side).1.amount + v.2.delegated⟩ := Vote.side_cast p.vote
  have hdelegation : (p.vote.side side).1.amount + v.2.delegated + delegation voters
      = (p.vote.side side).1.amount + delegation (v :: voters) := by
    simp [delegation, add_assoc]
  refine ⟨fun u hu => h.candidate u (List.mem_cons_of_mem _ hu), hnodup, ?_, ?_, ?_, ?_,
    h.applicable⟩
  · intro u hu
    have hleft := h.unvoted u (List.mem_cons_of_mem _ hu)
    have hne : u.1.sender ≠ v.1.sender := fun heq =>
      hnot (List.mem_map.mpr ⟨u, hu, heq⟩)
    rw [ProposalInfo.voted, Vote.noVote_cast]
    refine (List.mem_erase_of_ne fun heq => hne ?_).mpr hleft
    rw [← (h.candidate v (List.mem_cons_self ..)).2]
    exact host.str_inj.mp heq
  · have hlength : ((p.vote.side side).1.list ++ [v.1.voter v.2]).length + (voters.length : Int)
        = (p.vote.side side).1.list.length + ((v :: voters).length : Int) := by
      simp
      omega
    rw [hside, hlength]
    exact h.heads
  · rw [hside, hdelegation]
    exact h.weight
  · rw [hside, hdelegation]
    exact h.fits

end

/-- **A coalition decides.** -/
theorem exists_decided (h : Reachable host c) {id : Bytes} {p : ProposalInfo}
    (hread : c.cur.state.network_proposal.read host id = .ok p) (hv : p.status = .VOTING)
    (hopen : c.now ≤ p.end_block_height) {side : NetworkProposalVote}
    {voters : List (Context × PRep)}
    (hco : Coalition host c.cur.state.network p side voters) :
    ∃ c' seg, Steps (body host) c c' ∧ c'.now = c.now
      ∧ c'.cur.trace = c.cur.trace ++ seg
      ∧ (∀ d ∈ seg, d.call.method = .voteProposal id side.toInt
        ∧ d.call.ctx ∈ voters.map Prod.fst)
      ∧ ∃ p', c'.cur.state.network_proposal.read host id = .ok p'
        ∧ p'.status = side.verdict := by
  induction voters generalizing c p with
  | nil =>
      -- without anybody's vote the side would have won before
      obtain ⟨-, e, post, -, hlife⟩ := h.life_of_read hread
      exact absurd hco.meets ((hlife.ballot.undecided (Or.inl hv)).2 side)
  | cons v voters ih =>
      obtain ⟨hin, hsender⟩ := hco.candidate v (List.mem_cons_self ..)
      have hleft := hco.unvoted v (List.mem_cons_self ..)
      have hfits : (p.vote.side side).1.amount + v.2.delegated < 2 ^ 1023 := by
        refine lt_of_le_of_lt ?_ hco.fits
        have hrest := delegation_nonneg voters
        simpa [delegation] using hrest
      obtain ⟨c₁, status, hstep, hnow, htr, hread₁, hsettled, hnetwork⟩ :=
        h.exists_vote hread hv hopen hin hsender hleft hfits hco.applicable
      obtain ⟨-, e, post, -, hlife⟩ := h.life_of_read hread
      rcases settle_eq_ok (p := { p with vote := p.vote.cast side (v.1.voter v.2) })
        hlife.total_voter_pos hlife.ballot.weight_nonneg hsettled
        with ⟨hne, -⟩ | ⟨-, -, rfl⟩ | ⟨-, hnot, hnil, -⟩ | ⟨-, -, -, rfl⟩
      · exact absurd hv hne
      · exact ⟨c₁, _, .single hstep, hnow, htr, by simp, _, hread₁, rfl⟩
      · -- everybody has voted, so this was the last of them
        have hlast : voters = [] := by
          refine List.eq_nil_iff_forall_not_mem.mpr fun u hu => ?_
          have hmem := hco.voted.unvoted u hu
          rw [ProposalInfo.voted, hnil] at hmem
          exact List.not_mem_nil hmem
        subst hlast
        exact absurd hco.voted.meets hnot
      · have hrest : Coalition host c₁.cur.state.network
            (p.voted side (v.1.voter v.2) .VOTING) side voters := by
          rw [hnetwork (by decide)]
          exact hco.voted
        obtain ⟨c₂, seg, hs₂, hnow₂, htr₂, hseg, hdecided⟩ :=
          ih (h.steps (.single hstep)) hread₁ rfl (hnow ▸ hopen) hrest
        refine ⟨c₂,
          ⟨c.now, ⟨v.1, .voteProposal id side.toInt⟩, c.cur.state, c₁.cur.state⟩ :: seg,
          .head hstep hs₂, hnow₂.trans hnow, ?_, ?_, hdecided⟩
        · rw [htr₂, htr, List.append_assoc, List.singleton_append]
        · refine List.forall_mem_cons.mpr ⟨⟨rfl, by simp⟩, fun d hd => ?_⟩
          exact ⟨(hseg d hd).1, List.mem_cons_of_mem _ (hseg d hd).2⟩

/-- Bob can approve what alice proposed and voted for. -/
theorem exists_decided_pending : ∃ p,
    Sample.pending.cur.state.network_proposal.read Sample.host [1] = .ok p
      ∧ p.status = .VOTING
      ∧ ∃ c' seg, Steps (body Sample.host) Sample.pending c' ∧ c'.now = Sample.pending.now
      ∧ c'.cur.trace = Sample.pending.cur.trace ++ seg
      ∧ (∀ d ∈ seg, d.call.method = .voteProposal [1] 1
        ∧ d.call.ctx ∈ [Sample.ctx Sample.bob 3])
      ∧ ∃ p', c'.cur.state.network_proposal.read Sample.host [1] = .ok p'
        ∧ p'.status = .APPROVED := by
  have hfacts : (Sample.pending.cur.state.network_proposal.read Sample.host [1]).map
      (fun p => decide (p.status = .VOTING ∧ p.end_block_height = 200
        ∧ str Sample.bob ∈ p.vote.noVote.list
        ∧ p.vote.agree.list.length = 1 ∧ p.vote.agree.amount = 50
        ∧ p.total_voter = 3 ∧ p.total_delegated_amount = 100
        ∧ NetworkProposalType.ofInt p.type = some .STEP_PRICE
        ∧ p.value.onlyKeys ["value"] = .ok ()
        ∧ (p.value.argument "value" >>= Sample.host.int) = .ok 110)) = .ok true := by
    decide +kernel
  obtain ⟨p, hread, hp⟩ := map_eq_ok.mp hfacts
  obtain ⟨hv, hend, hleft, hlength, hamount, hvoters, htotal, htype, hkeys, hvalue⟩ :=
    of_decide_eq_true hp
  obtain ⟨price, hprice, hn⟩ := bind_eq_ok.mp hvalue
  have hco : Coalition Sample.host Sample.pending.cur.state.network p .AGREE
      [(Sample.ctx Sample.bob 3, ⟨Sample.bob, "bob", 30⟩)] := by
    refine ⟨?_, List.nodup_singleton _, ?_, ?_, ?_, ?_, fun _ => ?_⟩
    · exact List.forall_mem_singleton.mpr ⟨by decide, rfl⟩
    · exact List.forall_mem_singleton.mpr hleft
    · rw [hvoters, show (p.vote.side .AGREE).1.list.length = 1 from hlength]
      decide
    · rw [htotal, show (p.vote.side .AGREE).1.amount = 50 from hamount]
      decide
    · rw [show (p.vote.side .AGREE).1.amount = 50 from hamount]
      calc 50 + delegation [(Sample.ctx Sample.bob 3, ⟨Sample.bob, "bob", 30⟩)]
          < 2 ^ 7 := by decide
        _ ≤ 2 ^ 1023 := pow_le_pow_right₀ (by decide) (by decide)
    · rw [htype]
      exact ⟨_, _, .stepPrice hkeys hprice hn (by decide) rfl⟩
  refine ⟨p, hread, hv, ?_⟩
  exact exists_decided Sample.pending_reachable hread hv (by rw [hend]; decide) hco

end

end Governance
