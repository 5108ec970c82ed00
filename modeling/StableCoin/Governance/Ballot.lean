import Mathlib.Algebra.Order.BigOperators.Group.List
import StableCoin.Governance.Effect
import StableCoin.Governance.Quorum

/-!
# Ballots

What holds of every stored proposal: its three lists split the electors,
the candidates that were main P-Reps when it was registered; its amounts
add up to the delegation behind them at that time; and its status is what
the lists say. A vote and a cancellation keep all of it.

The delegation a vote carries is the voter's at the time of the vote, so
what is left to those who have not voted may well fall below zero.
-/

namespace Governance

open Python
open StableCoin (Address Bytes)

structure Ballot (electors : List PRep) (p : ProposalInfo) : Prop where
  heads : p.total_voter = electors.length
  weight : p.total_delegated_amount = (electors.map fun prep => (prep.delegated : Int)).sum
  roll : (p.vote.agree.list.map Voter.address ++ p.vote.disagree.list.map Voter.address
    ++ p.vote.noVote.list).Perm (electors.map (str ·.address))
  agree : p.vote.agree.amount = (p.vote.agree.list.map Voter.amount).sum
  disagree : p.vote.disagree.amount = (p.vote.disagree.list.map Voter.amount).sum
  total : p.vote.totalAmount = p.total_delegated_amount
  undecided : p.status = .VOTING ∨ p.status = .CANCELED →
    p.vote.noVote.list ≠ [] ∧ ∀ vote_type, ¬ Meets vote_type p
  approved : p.status = .APPROVED → Meets .AGREE p
  disapproved : p.status = .DISAPPROVED → Meets .DISAGREE p ∨ p.vote.noVote.list = []

/-! ## Sides -/

section

variable {p : ProposalInfo} {vote_type : NetworkProposalVote} {voter : Voter}
  {status : NetworkProposalStatus}

theorem Reaches.mono {part part' total : Int} (h : Reaches vote_type part total)
    (hle : part ≤ part') : Reaches vote_type part' total := by
  have hscale : 0 ≤ rateScale vote_type := by cases vote_type <;> decide
  exact lt_of_lt_of_le h (mul_le_mul_of_nonneg_left hle hscale)

theorem not_reaches_zero {total : Int} (h : 0 ≤ total) : ¬ Reaches vote_type 0 total := by
  simp only [Reaches, RATE_MIDDLE]
  omega

/-- The side voted for gains the vote. -/
theorem Vote.side_cast (vote : Vote) :
    ((vote.cast vote_type voter).side vote_type).1
      = ⟨(vote.side vote_type).1.list ++ [voter],
        (vote.side vote_type).1.amount + voter.amount⟩ := by
  cases vote_type <;> rfl

theorem Vote.side_cast_of_ne (vote : Vote) {other : NetworkProposalVote}
    (h : other ≠ vote_type) :
    ((vote.cast vote_type voter).side other).1 = (vote.side other).1 := by
  cases vote_type <;> cases other <;> first | rfl | exact absurd rfl h

theorem Vote.noVote_cast (vote : Vote) :
    (vote.cast vote_type voter).noVote
      = ⟨vote.noVote.list.erase voter.address, vote.noVote.amount - voter.amount⟩ := by
  cases vote_type <;> rfl

/-- A vote takes nothing away from either side. -/
theorem Meets.voted {side : NetworkProposalVote} (h : Meets side p) (hv : 0 ≤ voter.amount) :
    Meets side (p.voted vote_type voter status) := by
  obtain ⟨hheads, hpos, hweight⟩ := h
  by_cases hs : side = vote_type
  · subst hs
    refine ⟨?_, hpos, ?_⟩
    · rw [ProposalInfo.voted, Vote.side_cast]
      exact hheads.mono (by simp)
    · rw [ProposalInfo.voted, Vote.side_cast]
      exact hweight.mono (by simpa)
  · rw [Meets, ProposalInfo.voted, Vote.side_cast_of_ne _ hs]
    exact ⟨hheads, hpos, hweight⟩

/-- The other side is where it was. -/
theorem meets_voted_of_ne {side : NetworkProposalVote} (h : side ≠ vote_type) :
    Meets side (p.voted vote_type voter status) ↔ Meets side p := by
  rw [Meets, ProposalInfo.voted, Vote.side_cast_of_ne _ h]
  rfl

end

/-! ## New proposals -/

section

variable {id : Bytes} {proposer : Address} {start expired : Int}
  {title description : String} {type : Int} {value : Json} {main_preps : List PRep}

/-- With at least one elector the constructor keeps the totals it is given. -/
theorem newProposal_eq (h : main_preps ≠ []) :
    NetworkProposal.newProposal id proposer start expired title description type value
        main_preps
      = { id, proposer, title, description, type, value
          proposer_name :=
            ((main_preps.reverse.find? (·.address = proposer)).map (·.name)).getD ""
          start_block_height := start
          end_block_height := expired
          status := .VOTING
          vote := NetworkProposal.initialVote main_preps
          total_voter := main_preps.length
          total_delegated_amount := (main_preps.map (·.delegated)).sum } :=
  ProposalInfo.init_eq (by simpa using List.length_pos_iff.mpr h)

theorem Ballot.new (h : main_preps ≠ []) :
    Ballot main_preps (NetworkProposal.newProposal id proposer start expired title
      description type value main_preps) := by
  rw [newProposal_eq h]
  refine ⟨rfl, rfl, ?_, rfl, rfl, ?_, ?_, nofun, nofun⟩
  · simp [NetworkProposal.initialVote]
  · simp [NetworkProposal.initialVote, Vote.totalAmount]
  · refine fun _ => ⟨by simpa [NetworkProposal.initialVote] using h, ?_⟩
    intro side hmeets
    -- nobody has voted for this side yet
    have hnone : ((NetworkProposal.initialVote main_preps).side side).1.list.length = 0 := by
      cases side <;> rfl
    have hheads := hmeets.1
    simp only [hnone] at hheads
    exact not_reaches_zero (Int.natCast_nonneg _) hheads

end

/-! ## Votes -/

section

variable {electors : List PRep} {p : ProposalInfo}

/-- The amount of a side is the delegation behind its voters. -/
theorem Ballot.amount_eq (h : Ballot electors p) (side : NetworkProposalVote) :
    (p.vote.side side).1.amount = ((p.vote.side side).1.list.map Voter.amount).sum := by
  cases side with
  | AGREE => exact h.agree
  | DISAGREE => exact h.disagree

theorem Ballot.weight_nonneg (h : Ballot electors p) : 0 ≤ p.total_delegated_amount := by
  rw [h.weight]
  refine List.sum_nonneg ?_
  simp

theorem Ballot.canceled (h : Ballot electors p) (hv : p.status = .VOTING) :
    Ballot electors { p with status := .CANCELED } where
  heads := h.heads
  weight := h.weight
  roll := h.roll
  agree := h.agree
  disagree := h.disagree
  total := h.total
  undecided _ := h.undecided (Or.inl hv)
  approved hs := by cases hs
  disapproved hs := by cases hs

variable {ctx : Context} {now vote : Int} {vote_type : NetworkProposalVote} {prep : PRep}
  {status : NetworkProposalStatus}

theorem Ballot.roll_voted (h : Ballot electors p)
    (hv : Votes ctx now vote p vote_type prep status) :
    ((p.voted vote_type (ctx.voter prep) status).vote.agree.list.map Voter.address
      ++ (p.voted vote_type (ctx.voter prep) status).vote.disagree.list.map Voter.address
      ++ (p.voted vote_type (ctx.voter prep) status).vote.noVote.list).Perm
      (electors.map (str ·.address)) := by
  have haddress : (ctx.voter prep).address = str ctx.sender := by
    rw [Context.voter, _generate_voter_in_dict, hv.candidate.2]
  have hout := List.perm_cons_erase hv.elector
  refine List.Perm.trans ?_ h.roll
  cases vote_type with
  | AGREE =>
      simp only [ProposalInfo.voted, Vote.cast, List.map_append, List.map_cons,
        List.map_nil, haddress]
      refine List.Perm.trans ?_ (List.Perm.append_left _ hout.symm)
      simp only [List.append_assoc, List.singleton_append]
      exact List.Perm.append_left _ List.perm_middle.symm
  | DISAGREE =>
      simp only [ProposalInfo.voted, Vote.cast, List.map_append, List.map_cons,
        List.map_nil, haddress]
      refine List.Perm.trans ?_ (List.Perm.append_left _ hout.symm)
      simp only [List.append_assoc, List.singleton_append]
      exact List.Perm.refl _

theorem Ballot.voted (h : Ballot electors p) (hne : 0 < p.total_voter)
    (hv : Votes ctx now vote p vote_type prep status) :
    Ballot electors (p.voted vote_type (ctx.voter prep) status) := by
  have hamount : 0 ≤ (ctx.voter prep).amount := Int.natCast_nonneg _
  have hsettle := settle_eq_ok (p := { p with vote := p.vote.cast vote_type (ctx.voter prep) })
    hne h.weight_nonneg hv.settled
  refine ⟨h.heads, h.weight, h.roll_voted hv, ?_, ?_, ?_, ?_, ?_, ?_⟩
  · cases vote_type <;> simp [ProposalInfo.voted, Vote.cast, h.agree]
  · cases vote_type <;> simp [ProposalInfo.voted, Vote.cast, h.disagree]
  · have htotal := h.total
    cases vote_type <;> simp only [ProposalInfo.voted, Vote.cast, Vote.totalAmount] at htotal ⊢
      <;> omega
  · intro hs
    rcases hsettle with ⟨hn, rfl⟩ | ⟨-, -, rfl⟩ | ⟨-, -, -, rfl⟩ | ⟨hp, hmeets, hleft, rfl⟩
    · exact (hs.elim hn hv.alive).elim
    · cases vote_type <;> simp [ProposalInfo.voted, NetworkProposalVote.verdict] at hs
    · simp [ProposalInfo.voted] at hs
    · refine ⟨hleft, fun side => ?_⟩
      by_cases hside : side = vote_type
      · exact hside ▸ hmeets
      · rw [meets_voted_of_ne hside]
        exact (h.undecided (Or.inl hp)).2 side
  · intro hs
    rcases hsettle with ⟨-, rfl⟩ | ⟨-, hmeets, rfl⟩ | ⟨-, -, -, rfl⟩ | ⟨-, -, -, rfl⟩
    · exact (h.approved hs).voted hamount
    · cases vote_type with
      | AGREE => exact hmeets
      | DISAGREE => cases hs
    · cases hs
    · cases hs
  · intro hs
    rcases hsettle with ⟨-, rfl⟩ | ⟨-, hmeets, rfl⟩ | ⟨-, -, hleft, rfl⟩ | ⟨-, -, -, rfl⟩
    · rcases h.disapproved hs with hmeets | hnone
      · exact Or.inl (hmeets.voted hamount)
      · exact absurd hv.elector (by simp [hnone])
    · cases vote_type with
      | AGREE => cases hs
      | DISAGREE => exact Or.inl hmeets
    · exact Or.inr hleft
    · cases hs

end

end Governance
