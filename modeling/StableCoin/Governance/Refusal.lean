import StableCoin.Governance.Proposals

/-!
# Why a governance call is refused

The checks of every method, in its order, and what else has to go well. In
a reachable state a call fails with the message of the first check that is
not met; past its checks only the work itself can fail: reading and
checking the value of a new proposal, and applying the one that a vote
approves.
-/

namespace Governance

open Python Reentrancy
open StableCoin (Address ArrayDB Bytes)

variable {V : Type}

/-! ## Checks -/

/-- The proposal stored under `id`. -/
def World.proposal (host : Host V) (w : World V) (id : Bytes) : Option ProposalInfo :=
  match w.network_proposal.read host id with
  | .ok p => some p
  | .error _ => none

/-- The id is not registered, or its proposal can be read. -/
def Legible (host : Host V) (w : World V) (id : Bytes) : Prop :=
  w.network_proposal.read host id = .error (.revert "No registered proposal")
    ∨ ∃ p, w.network_proposal.read host id = .ok p

/-- A check of the stored proposal, made once it is known to be there. -/
def World.stored (host : Host V) (w : World V) (id : Bytes) (P : ProposalInfo → Bool) : Bool :=
  (w.proposal host id).any P

/-- The checks of a call, in the order in which it makes them. -/
def Call.checks (host : Host V) (now : Int) (w : World V) (k : Call) : List (Bool × String) :=
  let mainPRep := (_check_main_prep k.ctx.sender k.ctx.mainPReps.preps,
    "No permission - only for main prep")
  let undecided (txHash : Bytes) :=
    [(!isSet w.audit_status txHash, "Invalid txHash: already accepted"),
      (!isSet w.reject_status txHash, "Invalid txHash: already rejected")]
  match k.method with
  | .acceptScore txHash =>
      let info := (k.ctx.deployTxParams txHash).map k.ctx.deployInfo
      [((k.ctx.sender ∈ w.auditor_list : Bool), "Invalid sender: no permission"),
        (info.isSome, "Invalid txHash: None"),
        (info.any (some txHash = ·.nextTxHash),
          if info.any (some txHash = ·.currentTxHash) then "Invalid txHash: already accepted"
          else "Invalid txHash: mismatch")]
        ++ undecided txHash
  | .rejectScore txHash _ =>
      [((k.ctx.sender ∈ w.auditor_list : Bool), "Invalid sender: no permission"),
        ((k.ctx.deployTxParams txHash).isSome, "Invalid txHash")] ++ undecided txHash
  | .addAuditor address =>
      [(!address.isContract, "Invalid EOA Address: " ++ str address),
        (k.ctx.sender = host.owner, "Invalid sender: not owner"),
        (address ∉ w.auditor_list, "Invalid address: already auditor")]
  | .removeAuditor address =>
      [(!address.isContract, "Invalid EOA Address: " ++ str address),
        (address ∈ w.auditor_list, "Invalid address: not in list"),
        (k.ctx.sender = host.owner ∨ k.ctx.sender = address, "Invalid sender: not yourself")]
  | .registerProposal .. =>
      [mainPRep,
        (now ≤ k.ctx.mainPReps.expireBlockHeight, "Invalid main P-Rep term information")]
  | .cancelProposal id =>
      [mainPRep,
        ((w.proposal host id).isSome, "No registered proposal"),
        (w.stored host id (now ≤ ·.end_block_height), "This proposal has already expired"),
        (w.stored host id (k.ctx.sender = ·.proposer), "No permission - only for proposer"),
        (w.stored host id (·.status = .VOTING), "Can not be canceled - only voting proposal")]
  | .voteProposal id vote =>
      [mainPRep,
        (vote = 0 ∨ vote = 1, "Invalid vote parameter: " ++ toString vote),
        ((w.proposal host id).isSome, "No registered proposal"),
        (w.stored host id (now ≤ ·.end_block_height), "This proposal has already expired"),
        (w.stored host id (·.status ≠ .CANCELED), "This proposal has already canceled"),
        (w.stored host id fun p => str k.ctx.sender
          ∉ p.vote.agree.list.map Voter.address ++ p.vote.disagree.list.map Voter.address,
          "Already voted"),
        (w.stored host id (str k.ctx.sender ∈ ·.vote.noVote.list),
          "No permission - only for main prep when network proposal registered")]

/-- What has to go well once the checks are met. -/
def Call.Completes (host : Host V) (w : World V) (k : Call) : Prop :=
  match k.method with
  | .registerProposal _ _ type value => ∃ doc, host.jsonLoads value = some doc
      ∧ _validate_network_proposal host k.ctx w.network type doc = .ok true
  | .voteProposal id vote => ∀ p ∈ w.proposal host id, ∀ side ∈ NetworkProposalVote.ofInt vote,
      ∀ prep ∈ k.ctx.mainPReps.preps, prep.address = k.ctx.sender →
      ∃ status,
        settle side { p with vote := p.vote.cast side (k.ctx.voter prep) } = .ok status
        ∧ (p.status = .VOTING → status = .APPROVED → ∃ v evs,
          Applied host w.network (NetworkProposalType.ofInt p.type) p.value v evs)
  | _ => True

/-! ## Statements -/

section

variable {α : Type}

@[simp] theorem require_map {c : Prop} [Decidable c] {msg : String} {f : Unit → α} :
    (f <$> require c msg) = if c then .ok (f ()) else .error (.revert msg) := by
  by_cases h : c <;> simp [require, revert, h]

@[simp] theorem require_bind {c : Prop} [Decidable c] {msg : String}
    {f : Unit → Except Abort α} :
    (require c msg >>= f) = if c then f () else .error (.revert msg) := by
  by_cases h : c <;> simp [require, revert, h]

theorem error_require {c : Prop} [Decidable c] {msg : String} {w : World V}
    {f : Unit → World V → Outcome Abort Deploy (World V) α} :
    (((Program.ofExcept (require c msg) : Exec V Unit) w).bind f).error
      = if c then (f () w).error else some (.revert msg) := by
  by_cases h : c <;> simp [require, revert, h]

end

section

variable {host : Host V} {now : Int} {w : World V} {ctx : Context}

/-! ## Stored proposals -/

theorem World.proposal_of_read {id : Bytes} {p : ProposalInfo}
    (h : w.network_proposal.read host id = .ok p) : w.proposal host id = some p := by
  rw [World.proposal, h]

theorem World.read_of_proposal {id : Bytes} {p : ProposalInfo}
    (h : w.proposal host id = some p) : w.network_proposal.read host id = .ok p := by
  unfold World.proposal at h
  split at h
  · next hread =>
      obtain rfl := Option.some.inj h
      exact hread
  · cases h

theorem World.proposal_of_error {id : Bytes} {e : Abort}
    (h : w.network_proposal.read host id = .error e) : w.proposal host id = none := by
  rw [World.proposal, h]

/-- The two codes of a vote. -/
theorem NetworkProposalVote.ofInt_isSome {vote : Int} :
    (NetworkProposalVote.ofInt vote).isSome ↔ vote = 0 ∨ vote = 1 := by
  constructor
  · intro h
    by_contra hne
    push Not at hne
    simp [NetworkProposalVote.ofInt, hne] at h
  · rintro (rfl | rfl) <;> rfl

theorem _check_main_prep_eq_true {address : Address} {preps : List PRep} :
    _check_main_prep address preps = true ↔ ∃ prep ∈ preps, prep.address = address := by
  simp [_check_main_prep]

/-! ## What each method checks -/

theorem acceptScore_error {txHash : Bytes} :
    (acceptScore ctx txHash w).error
      = (refusal ((⟨ctx, .acceptScore txHash⟩ : Call).checks host now w)).map .revert := by
  cases h : ctx.deployTxParams txHash with
  | none =>
      simp [acceptScore, Call.checks, error_require, found, h]
      split_ifs <;> rfl
  | some addr =>
      simp [acceptScore, Call.checks, error_require, found, h, _deploy]
      split_ifs <;> rfl

theorem rejectScore_error {txHash : Bytes} {reason : String} :
    (rejectScore ctx txHash reason w).error
      = (refusal ((⟨ctx, .rejectScore txHash reason⟩ : Call).checks host now w)).map
        .revert := by
  simp [rejectScore, Call.checks, error_require, emit]
  split_ifs <;> rfl

theorem addAuditor_error {address : Address} :
    (addAuditor host ctx address w).error
      = (refusal ((⟨ctx, .addAuditor address⟩ : Call).checks host now w)).map .revert := by
  simp [addAuditor, Call.checks, error_require]
  split_ifs <;> rfl

theorem removeAuditor_error {address : Address} :
    (removeAuditor host ctx address w).error
      = (refusal ((⟨ctx, .removeAuditor address⟩ : Call).checks host now w)).map .revert := by
  cases hpop : w.auditor_list.pop with
  | none =>
      simp [removeAuditor, Call.checks, error_require, hpop]
      split_ifs <;> rfl
  | some popped =>
      simp [removeAuditor, Call.checks, error_require, hpop]
      split_ifs <;> rfl

theorem cancelProposal_error {id : Bytes} (h : Legible host w id) :
    (cancelProposal host ctx now id w).error
      = (refusal ((⟨ctx, .cancelProposal id⟩ : Call).checks host now w)).map .revert := by
  rcases h with hread | ⟨p, hread⟩
  · simp [cancelProposal, Call.checks, World.proposal_of_error hread, hread,
      error_require, NetworkProposal.cancel_proposal]
    split_ifs <;> rfl
  · simp [cancelProposal, Call.checks, World.stored, World.proposal_of_read hread, hread,
      error_require, NetworkProposal.cancel_proposal, emit]
    split_ifs <;> rfl

/-- A candidate is found under its address. -/
theorem MainPReps.find?_eq {preps : MainPReps} {prep : PRep} (h : prep ∈ preps.preps) :
    preps.preps.reverse.find? (·.address = prep.address) = some prep := by
  cases hfind : preps.preps.reverse.find? (·.address = prep.address) with
  | none =>
      rw [List.find?_eq_none] at hfind
      exact absurd (by simp) (hfind prep (List.mem_reverse.mpr h))
  | some prep' =>
      have hmem := List.mem_reverse.mp (List.mem_of_find?_eq_some hfind)
      have haddress : prep'.address = prep.address := by simpa using List.find?_some hfind
      rw [List.inj_on_of_nodup_map preps.nodup hmem h haddress]

/-- A vote on a stored proposal, by a candidate. -/
theorem voteProposal_error {id : Bytes} {vote : Int} {p : ProposalInfo}
    {side : NetworkProposalVote} {prep : PRep}
    (hread : w.network_proposal.read host id = .ok p)
    (hcode : NetworkProposalVote.ofInt vote = some side)
    (hin : prep ∈ ctx.mainPReps.preps) (hsender : prep.address = ctx.sender) :
    (voteProposal host ctx now id vote w).error
      = ((refusal ((⟨ctx, .voteProposal id vote⟩ : Call).checks host now w)).map .revert).or
        (match settle side { p with vote := p.vote.cast side (ctx.voter prep) } with
          | .error e => some (.raised e)
          | .ok status =>
              if p.status = .VOTING ∧ status = .APPROVED then
                (_approve_network_proposal host p.type p.value { w with
                  network_proposal :=
                    w.network_proposal.write host id (p.voted side (ctx.voter prep) status)
                  events := w.events ++ [.NetworkProposalVoted id vote ctx.sender,
                    .NetworkProposalApproved id] }).error
              else none) := by
  have hmain := _check_main_prep_eq_true.mpr ⟨prep, hin, hsender⟩
  have hfind := MainPReps.find?_eq hin
  rw [hsender] at hfind
  have hvote := NetworkProposalVote.ofInt_isSome.mp (Option.isSome_of_eq_some hcode)
  simp [voteProposal, Call.checks, World.stored, World.proposal_of_read hread, hread,
    error_require, NetworkProposal.vote_proposal, emit, hmain, hfind, hcode, hvote, found,
    Context.voter, ProposalInfo.voted]
  cases hsettle : settle side { p with
      vote := p.vote.cast side (_generate_voter_in_dict ctx.txHash ctx.timestamp prep) } with
  | error e =>
      split_ifs <;> simp [Except.mapError]
  | ok status =>
      by_cases happ : p.status = .VOTING ∧ status = .APPROVED
      · obtain ⟨hvoting, rfl⟩ := happ
        simp [Except.mapError, hvoting]
        split_ifs <;> simp
      · simp only [Except.mapError, Except.map_ok, if_neg happ]
        split_ifs <;> simp [happ]

/-- Registering, past the checks. -/
theorem registerProposal_error {title description : String} {type : Int} {value : Bytes} :
    (registerProposal host ctx now title description type value w).error
      = ((refusal ((⟨ctx, .registerProposal title description type value⟩ : Call).checks host
          now w)).map .revert).or
        (match host.jsonLoads value with
          | none => some (.raised .valueError)
          | some doc =>
              match _validate_network_proposal host ctx w.network type doc with
              | .error e => some e
              | .ok true => none
              | .ok false => some (.revert ("Invalid parameter - type: " ++ toString type
                  ++ ", value: " ++ host.repr doc))) := by
  cases hdoc : host.jsonLoads value with
  | none =>
      simp [registerProposal, Call.checks, error_require, found, hdoc]
      split_ifs <;> rfl
  | some doc =>
      cases hvalid : _validate_network_proposal host ctx w.network type doc with
      | error e =>
          simp [registerProposal, Call.checks, error_require, found, hdoc, hvalid]
          split_ifs <;> rfl
      | ok valid =>
          cases valid <;>
          · simp [registerProposal, Call.checks, error_require, found, hdoc, hvalid,
              emit]
            split_ifs <;> rfl

/-- A vote past its checks is a vote on a stored proposal, by a candidate. -/
theorem vote_of_refusal_eq_none {id : Bytes} {vote : Int}
    (h : refusal ((⟨ctx, .voteProposal id vote⟩ : Call).checks host now w) = none) :
    ∃ p side prep, w.network_proposal.read host id = .ok p
      ∧ NetworkProposalVote.ofInt vote = some side ∧ prep ∈ ctx.mainPReps.preps
      ∧ prep.address = ctx.sender := by
  rw [refusal_eq_none] at h
  simp [Call.checks, _check_main_prep] at h
  obtain ⟨⟨prep, hin, hsender⟩, hvote, hp, -⟩ := h
  obtain ⟨p, hp⟩ := Option.isSome_iff_exists.mp hp
  refine ⟨p, if vote = 1 then .AGREE else .DISAGREE, prep, World.read_of_proposal hp, ?_, hin,
    hsender⟩
  rcases hvote with rfl | rfl <;> rfl

theorem voteProposal_revert {id : Bytes} {vote : Int} (hstored : Legible host w id)
    {msg : String}
    (h : refusal ((⟨ctx, .voteProposal id vote⟩ : Call).checks host now w) = some msg) :
    (voteProposal host ctx now id vote w).error = some (.revert msg) := by
  by_cases hprep : ∃ prep ∈ ctx.mainPReps.preps, prep.address = ctx.sender
  · have hmain := _check_main_prep_eq_true.mpr hprep
    obtain ⟨prep, hin, hsender⟩ := hprep
    cases hcode : NetworkProposalVote.ofInt vote with
    | none =>
        have hne : ¬ (vote = 0 ∨ vote = 1) := by
          simp [← NetworkProposalVote.ofInt_isSome, hcode]
        simp [Call.checks, hmain, hne] at h
        simp [voteProposal, NetworkProposal.vote_proposal, error_require, hmain, hcode, found,
          h]
    | some side =>
        rcases hstored with hread | ⟨p, hread⟩
        · have hvote := NetworkProposalVote.ofInt_isSome.mp (Option.isSome_of_eq_some hcode)
          simp [Call.checks, hmain, hvote, World.proposal_of_error hread] at h
          simp [voteProposal, NetworkProposal.vote_proposal, error_require, hmain, hcode, found,
            hread, h]
        · rw [voteProposal_error hread hcode hin hsender, h]
          rfl
  · have hmain := mt _check_main_prep_eq_true.mp hprep
    simp [Call.checks, hmain] at h
    simp [voteProposal, error_require, hmain, h]

/-- Exactly what can be applied is applied. -/
theorem _approve_network_proposal_error {type : Int} {value : Json} :
    (_approve_network_proposal host type value w).error = none
      ↔ ∃ v evs, Applied host w.network (NetworkProposalType.ofInt type) value v evs := by
  rw [Outcome.error_eq_none]
  constructor
  · intro h
    obtain ⟨w', hw⟩ := Option.isSome_iff_exists.mp h
    obtain ⟨v, evs, ha, -⟩ := _approve_network_proposal_first hw
    exact ⟨v, evs, ha⟩
  · rintro ⟨v, evs, ha⟩
    rw [ha.first]
    rfl

theorem body_revert {k : Call} (hstored : ∀ id, Legible host w id) {msg : String}
    (h : refusal (k.checks host now w) = some msg) :
    body host now k w = .abort (.revert msg) := by
  rw [← Outcome.error_eq_some]
  obtain ⟨ctx, m⟩ := k
  cases m with
  | acceptScore txHash => exact acceptScore_error.trans (by rw [h]; rfl)
  | rejectScore txHash reason => exact rejectScore_error.trans (by rw [h]; rfl)
  | addAuditor address => exact addAuditor_error.trans (by rw [h]; rfl)
  | removeAuditor address => exact removeAuditor_error.trans (by rw [h]; rfl)
  | registerProposal title description type value =>
      exact registerProposal_error.trans (by rw [h]; rfl)
  | cancelProposal id => exact (cancelProposal_error (hstored id)).trans (by rw [h]; rfl)
  | voteProposal id vote => exact voteProposal_revert (hstored id) h

/-- Past the checks of a vote only the vote itself can go wrong. -/
theorem voteProposal_completes {id : Bytes} {vote : Int}
    (h : refusal ((⟨ctx, .voteProposal id vote⟩ : Call).checks host now w) = none) :
    (voteProposal host ctx now id vote w).error = none
      ↔ (⟨ctx, .voteProposal id vote⟩ : Call).Completes host w := by
  obtain ⟨p, side, prep, hread, hcode, hin, hsender⟩ := vote_of_refusal_eq_none h
  have hone : (⟨ctx, .voteProposal id vote⟩ : Call).Completes host w ↔ ∃ status,
      settle side { p with vote := p.vote.cast side (ctx.voter prep) } = .ok status
      ∧ (p.status = .VOTING → status = .APPROVED → ∃ v evs,
        Applied host w.network (NetworkProposalType.ofInt p.type) p.value v evs) := by
    simp only [Call.Completes, World.proposal_of_read hread, hcode, Option.mem_some]
    constructor
    · intro hall
      exact hall p rfl side rfl prep hin hsender
    · rintro hone _ rfl _ rfl prep' hin' hsender'
      obtain rfl := List.inj_on_of_nodup_map ctx.mainPReps.nodup hin' hin
        (hsender'.trans hsender.symm)
      exact hone
  rw [voteProposal_error hread hcode hin hsender, h, hone]
  cases hsettle : settle side { p with vote := p.vote.cast side (ctx.voter prep) } with
  | error e => simp
  | ok status =>
      by_cases happ : p.status = .VOTING ∧ status = .APPROVED
      · simp [happ, _approve_network_proposal_error]
      · simp only [if_neg happ]
        simp only [not_and] at happ
        simpa using fun hv hs => absurd hs (happ hv)

theorem body_completes {k : Call} (hstored : ∀ id, Legible host w id)
    (h : refusal (k.checks host now w) = none) :
    (body host now k w).error = none ↔ k.Completes host w := by
  obtain ⟨ctx, m⟩ := k
  cases m with
  | acceptScore txHash =>
      exact iff_of_true (acceptScore_error.trans (by rw [h]; rfl)) trivial
  | rejectScore txHash reason =>
      exact iff_of_true (rejectScore_error.trans (by rw [h]; rfl)) trivial
  | addAuditor address =>
      exact iff_of_true (addAuditor_error.trans (by rw [h]; rfl)) trivial
  | removeAuditor address =>
      exact iff_of_true (removeAuditor_error.trans (by rw [h]; rfl)) trivial
  | registerProposal title description type value =>
      rw [body, registerProposal_error, h, Call.Completes]
      cases hdoc : host.jsonLoads value with
      | none => simp [hdoc]
      | some doc =>
          cases hvalid : _validate_network_proposal host ctx w.network type doc with
          | error e => simp [hdoc, hvalid]
          | ok valid => cases valid <;> simp [hdoc, hvalid]
  | cancelProposal id =>
      exact iff_of_true ((cancelProposal_error (hstored id)).trans (by rw [h]; rfl)) trivial
  | voteProposal id vote => exact voteProposal_completes h

end

/-! ## Refusals -/

/-- In a reachable state every registered proposal can be read. -/
theorem Reachable.legible {host : Host V} {c : Network V} (h : Reachable host c) (id : Bytes) :
    Legible host c.cur.state id := by
  cases hbuf : c.cur.state.network_proposal.proposal_list id with
  | none =>
      exact Or.inl (by simp [NetworkProposal.read, NetworkProposal._check_registered_proposal,
        hbuf])
  | some buf =>
      obtain ⟨p, _, _, _, rfl, -, hlife⟩ := h.enacted.life id buf hbuf
      exact Or.inr ⟨p, NetworkProposal.read_of_stored hbuf hlife.init_eq hlife.value_valid⟩

/-- **Every refusal says why.** A call fails with the message of the first
check that is not met; past its checks it fails only in its own work; and
what is left of a call in flight does not fail. -/
theorem call_refused_iff {host : Host V} {c : Network V} (h : Reachable host c) (k : Call) :
    (∀ msg, refusal (k.checks host c.now c.cur.state) = some msg →
      body host c.now k c.cur.state = .abort (.revert msg))
    ∧ (refusal (k.checks host c.now c.cur.state) = none →
      ((∃ e, body host c.now k c.cur.state = .abort e) ↔ ¬ k.Completes host c.cur.state))
    ∧ ∀ f ∈ c.stack, ∀ g, f.resume = some g → ∀ w, (g w).error = none := by
  refine ⟨fun msg => body_revert h.legible, fun hmet => ?_, ?_⟩
  · rw [← body_completes h.legible hmet, ← ne_eq, Option.ne_none_iff_exists']
    simp only [Outcome.error_eq_some]
  · intro f hf g hg w
    obtain ⟨_, _, rfl⟩ := h.resume_eq hf hg
    rfl

theorem call_refused_iff_approved :
    body Sample.host 100 ⟨Sample.ctx Sample.alice 9, .voteProposal [1] 1⟩
      Sample.approved.cur.state = .abort (.revert "Already voted") :=
  (call_refused_iff Sample.approved_reachable _).1 _ (by decide +kernel)

end Governance
