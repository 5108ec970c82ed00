import StableCoin.Governance.NetworkProposal

/-!
# When a side has won

The code compares two quotients of doubles with `0.66` and `0.33`. Neither
constant has a double: what is compared, exactly, is an inequality between
integers (`Reaches`), a little weaker than the constants say. It makes no
difference for a number of voters, nor for a delegation of up to
`818836295885544`; beyond, a side can win without its full share.
-/

namespace Governance

open Python

/-- The significand of both rates, twice, less one: with it stands the
middle between the rate and the double below it. -/
def RATE_MIDDLE : Int := 11889503016258109

/-- The power of two that goes with it. -/
def rateScale : NetworkProposalVote → Int
  | .AGREE => 2 ^ 54
  | .DISAGREE => 2 ^ 55

/-- `part` of `total` reaches the rate of the vote. -/
def Reaches (vote_type : NetworkProposalVote) (part total : Int) : Prop :=
  RATE_MIDDLE * total < rateScale vote_type * part

/-- The side has won: it reaches its rate in heads and in delegation. -/
def Meets (vote_type : NetworkProposalVote) (p : ProposalInfo) : Prop :=
  Reaches vote_type (p.vote.side vote_type).1.list.length p.total_voter
    ∧ 0 < p.total_delegated_amount
    ∧ Reaches vote_type (p.vote.side vote_type).1.amount p.total_delegated_amount

instance (vote_type : NetworkProposalVote) (part total : Int) :
    Decidable (Reaches vote_type part total) :=
  inferInstanceAs (Decidable (_ < _))

instance (vote_type : NetworkProposalVote) (p : ProposalInfo) :
    Decidable (Meets vote_type p) :=
  inferInstanceAs (Decidable (_ ∧ _ ∧ _))

/-! ## The rates -/

theorem APPROVE_RATE_eq :
    APPROVE_RATE = ((5944751508129055 : ℤ) : ℚ) * 2 ^ (-(53 : ℕ) : ℤ) :=
  Binary64.round_eq (e := -53) (by norm_num) (by norm_num) (by norm_num)
    ⟨by norm_num, by norm_num⟩

theorem DISAPPROVE_RATE_eq :
    DISAPPROVE_RATE = ((5944751508129055 : ℤ) : ℚ) * 2 ^ (-(54 : ℕ) : ℤ) :=
  Binary64.round_eq (e := -54) (by norm_num) (by norm_num) (by norm_num)
    ⟨by norm_num, by norm_num⟩

/-- What comparing a quotient with the rate of a vote means. -/
theorem rate_le_iff (vote : Vote) (vote_type : NetworkProposalVote) {a b : Int} {x : ℚ}
    (hb : 0 < b) (h : Binary64.truediv a b = .ok x) :
    (vote.side vote_type).2 ≤ x ↔ Reaches vote_type a b := by
  cases vote_type with
  | AGREE =>
      rw [Vote.side, APPROVE_RATE_eq,
        Binary64.le_truediv_iff (by decide) (by norm_num) (by norm_num) (by norm_num) hb h]
      rfl
  | DISAGREE =>
      rw [Vote.side, DISAPPROVE_RATE_eq,
        Binary64.le_truediv_iff (by decide) (by norm_num) (by norm_num) (by norm_num) hb h]
      rfl

/-- Where the total is small enough, a side reaches its rate exactly when it
has its `66` or `33` hundredths. -/
theorem reaches_iff_of_le {vote_type : NetworkProposalVote} {part total : Int}
    (hpos : 0 < total) (hle : total ≤ 818836295885544) :
    Reaches vote_type part total
      ↔ (match vote_type with | .AGREE => 66 | .DISAGREE => 33) * total ≤ 100 * part := by
  cases vote_type with
  | AGREE =>
      have h := Binary64.exact_of_small (m := 5944751508129055) (p := 33) (r := 50) (k := 53)
        (a := part) (by decide) (by decide) hpos (by norm_num; omega)
      rw [Reaches, RATE_MIDDLE, rateScale]
      norm_num at h ⊢
      rw [h]
      omega
  | DISAGREE =>
      have h := Binary64.exact_of_small (m := 5944751508129055) (p := 33) (r := 100) (k := 54)
        (a := part) (by decide) (by decide) hpos (by norm_num; omega)
      rw [Reaches, RATE_MIDDLE, rateScale]
      norm_num at h ⊢
      rw [h]

/-! ## The result of a vote -/

section

variable {vote_type : NetworkProposalVote} {p : ProposalInfo}

theorem _check_vote_result_eq_ok (hv : 0 < p.total_voter) (ha : 0 ≤ p.total_delegated_amount)
    {met : Bool} (h : _check_vote_result vote_type p = .ok met) :
    met = true ↔ Meets vote_type p := by
  obtain ⟨side, rate, hside⟩ : ∃ side rate, p.vote.side vote_type = (side, rate) := ⟨_, _, rfl⟩
  have hrate {a b : Int} {x : ℚ} (hb : 0 < b) (hx : Binary64.truediv a b = .ok x) :
      rate ≤ x ↔ Reaches vote_type a b := by
    rw [← rate_le_iff p.vote vote_type hb hx, hside]
  simp only [_check_vote_result, reaches, hside] at h
  rw [Meets, hside]
  cases hx : Binary64.truediv side.list.length p.total_voter with
  | error fault =>
      cases fault with
      | zeroDivision => exact absurd (Binary64.truediv_eq_zeroDivision.mp hx) hv.ne'
      | overflow => simp [hx] at h
  | ok x =>
      rw [← hrate hv hx]
      by_cases hle : rate ≤ x
      · cases hy : Binary64.truediv side.amount p.total_delegated_amount with
        | error fault =>
            cases fault with
            | zeroDivision =>
                have hz := Binary64.truediv_eq_zeroDivision.mp hy
                simp [hx, hy, hle] at h
                simp [← h, hz]
            | overflow => simp [hx, hy, hle] at h
        | ok y =>
            have hpos : 0 < p.total_delegated_amount := by
              refine lt_of_le_of_ne ha fun hz => ?_
              rw [Binary64.truediv_eq_zeroDivision.mpr hz.symm] at hy
              cases hy
            simp [hx, hy, hle, pure_eq_ok] at h
            simp [← h, hle, hpos, hrate hpos hy]
      · simp [hx, hle, pure_eq_ok] at h
        simp [← h, hle]

/-- The status that a won vote brings. -/
def NetworkProposalVote.verdict : NetworkProposalVote → NetworkProposalStatus
  | .AGREE => .APPROVED
  | .DISAGREE => .DISAPPROVED

/-- What a vote does to the status: it is decided as soon as the side has
won, or when nobody is left to vote. -/
theorem settle_eq_ok (hv : 0 < p.total_voter) (ha : 0 ≤ p.total_delegated_amount)
    {status : NetworkProposalStatus} (h : settle vote_type p = .ok status) :
    (p.status ≠ .VOTING ∧ status = p.status)
    ∨ (p.status = .VOTING ∧ Meets vote_type p ∧ status = vote_type.verdict)
    ∨ (p.status = .VOTING ∧ ¬ Meets vote_type p ∧ p.vote.noVote.list = []
      ∧ status = .DISAPPROVED)
    ∨ (p.status = .VOTING ∧ ¬ Meets vote_type p ∧ p.vote.noVote.list ≠ []
      ∧ status = .VOTING) := by
  unfold settle at h
  split at h
  · next hvoting =>
      obtain ⟨met, hmet, h⟩ := bind_eq_ok.mp h
      have hiff := _check_vote_result_eq_ok hv ha hmet
      split at h
      · next hmet' =>
          have hmeets := hiff.mp hmet'
          refine Or.inr (Or.inl ⟨hvoting, hmeets, ?_⟩)
          cases vote_type <;> exact (Except.ok.inj h).symm
      · next hmet' =>
          have hnot : ¬ Meets vote_type p := fun hm => hmet' (hiff.mpr hm)
          split at h
          · next hlen =>
              exact Or.inr (Or.inr (Or.inl ⟨hvoting, hnot,
                List.length_eq_zero_iff.mp hlen, (Except.ok.inj h).symm⟩))
          · next hlen =>
              exact Or.inr (Or.inr (Or.inr ⟨hvoting, hnot,
                fun hnil => hlen (by simp [hnil]), (Except.ok.inj h).symm⟩))
  · next hvoting => exact Or.inl ⟨hvoting, (Except.ok.inj h).symm⟩

/-- Where the delegation is not too large, both quotients are doubles. -/
theorem _check_vote_result_ok (hv : 0 < p.total_voter)
    (hheads : (p.vote.side vote_type).1.list.length ≤ p.total_voter)
    (ha : 0 ≤ p.total_delegated_amount) (hamount : 0 ≤ (p.vote.side vote_type).1.amount)
    (hfits : (p.vote.side vote_type).1.amount < 2 ^ 1023) :
    ∃ met, _check_vote_result vote_type p = .ok met := by
  obtain ⟨side, rate, hside⟩ : ∃ side rate, p.vote.side vote_type = (side, rate) := ⟨_, _, rfl⟩
  simp only [hside] at hheads hamount hfits
  have hx := Binary64.truediv_eq_ok (n := 1) (by decide) (Int.natCast_nonneg side.list.length)
    hv (by omega)
  simp only [_check_vote_result, hside, reaches, hx, ok_bind]
  by_cases hz : p.total_delegated_amount = 0
  · have hy := Binary64.truediv_eq_zeroDivision (a := side.amount).mpr hz
    split_ifs
    · exact ⟨false, by rw [hy]; rfl⟩
    · exact ⟨false, rfl⟩
  · have hpos : 0 < p.total_delegated_amount := lt_of_le_of_ne ha (Ne.symm hz)
    have hlt : side.amount < 2 ^ 1023 * p.total_delegated_amount :=
      hfits.trans_le (le_mul_of_one_le_right (by positivity) hpos)
    have hy := Binary64.truediv_eq_ok (n := 1023) (by decide) hamount hpos hlt
    split_ifs
    · exact ⟨_, by rw [hy]; rfl⟩
    · exact ⟨false, rfl⟩

theorem settle_ok (hv : 0 < p.total_voter)
    (hheads : (p.vote.side vote_type).1.list.length ≤ p.total_voter)
    (ha : 0 ≤ p.total_delegated_amount) (hamount : 0 ≤ (p.vote.side vote_type).1.amount)
    (hfits : (p.vote.side vote_type).1.amount < 2 ^ 1023) :
    ∃ status, settle vote_type p = .ok status := by
  obtain ⟨met, hmet⟩ := _check_vote_result_ok hv hheads ha hamount hfits
  simp only [settle, hmet, ok_bind]
  cases vote_type <;> split_ifs <;> exact ⟨_, rfl⟩

end

end Governance
