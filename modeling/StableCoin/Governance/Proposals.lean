import StableCoin.Governance.Lifecycle

/-!
# Proposals over whole runs

What a stored proposal says about the run so far: where its content and its
votes come from, how the electors are split, what decided it, and that a
decision is never taken back.
-/

namespace Governance

open Python Reentrancy
open StableCoin (Address Bytes)

variable {V : Type}

/-! ## The last registration -/

section

variable {α : Type} {P : α → Bool}

/-- The last element with a property splits a list in one way only. -/
theorem last_split {pre pre' post post' : List α} {a a' : α}
    (h : pre ++ a :: post = pre' ++ a' :: post') (ha : P a = true) (ha' : P a' = true)
    (hpost : ∀ b ∈ post, P b = false) (hpost' : ∀ b ∈ post', P b = false) :
    pre = pre' ∧ a = a' ∧ post = post' := by
  rcases List.append_eq_append_iff.mp h with ⟨as, rfl, has⟩ | ⟨as, rfl, has⟩
  · cases as with
    | nil =>
        obtain ⟨rfl, rfl⟩ := List.cons.inj has
        exact ⟨(List.append_nil _).symm, rfl, rfl⟩
    | cons b bs =>
        obtain ⟨rfl, rfl⟩ := List.cons.inj has
        simp [hpost a' (by simp)] at ha'
  · cases as with
    | nil =>
        obtain ⟨rfl, rfl⟩ := List.cons.inj has
        exact ⟨List.append_nil _, rfl, rfl⟩
    | cons b bs =>
        obtain ⟨rfl, rfl⟩ := List.cons.inj has
        simp [hpost' a (by simp)] at ha

end

section

variable {host : Host V} {id : Bytes} {p : ProposalInfo}

theorem Enrolled.registers {e : Receipt V} (h : Enrolled host id e p) :
    Governance.registers id e = true := by
  obtain ⟨_, _, _, _, _, _, _, hm, hid, -⟩ := h
  simp [Governance.registers, hm, hid]

theorem registers_eq_true {e : Receipt V} (h : registers id e = true) :
    e.call.ctx.txHash = id := by
  unfold registers at h
  split at h
  · exact of_decide_eq_true h
  · cases h

/-- A registered id has its proposal. -/
theorem Enacted.isSome_of_registered {tr : List (Receipt V)} {r : Record V} {e : Receipt V}
    (h : Enacted host tr r) (hin : e ∈ tr) (he : registers id e = true) :
    (r.network_proposal.proposal_list id).isSome := by
  have hhash := registers_eq_true he
  refine h.stored id ?_
  rw [h.keys, List.mem_map]
  exact ⟨e, List.mem_filter.mpr ⟨hin, by rwa [hhash]⟩, hhash⟩

theorem Enacted.life_of_registered {tr pre post : List (Receipt V)} {r : Record V}
    {e : Receipt V} (h : Enacted host tr r) (htr : tr = pre ++ e :: post)
    (he : registers id e = true)
    (hpost : ∀ d ∈ post, registers id d = false) :
    ∃ p, r.network_proposal.read host id = .ok p ∧ Life host id e post p := by
  obtain ⟨buf, hbuf⟩ := Option.isSome_iff_exists.mp
    (h.isSome_of_registered (by simp [htr]) he)
  obtain ⟨p, pre', e', post', rfl, htr', hlife⟩ := h.life id buf hbuf
  obtain ⟨-, rfl, rfl⟩ := last_split (htr.symm.trans htr') he hlife.enrolled.registers hpost
    hlife.latest
  exact ⟨p, NetworkProposal.read_of_stored hbuf hlife.init_eq hlife.value_valid, hlife⟩

end

section

variable {host : Host V} {c c' : Network V} {id : Bytes} {p : ProposalInfo}

theorem Reachable.life_of_registered (h : Reachable host c) {pre post : List (Receipt V)}
    {e : Receipt V} (htr : c.cur.trace = pre ++ e :: post) (he : registers id e = true)
    (hpost : ∀ d ∈ post, registers id d = false) :
    ∃ p, c.cur.state.network_proposal.read host id = .ok p ∧ Life host id e post p :=
  h.enacted.life_of_registered htr he hpost

theorem Reachable.life_of_read (h : Reachable host c)
    (hread : c.cur.state.network_proposal.read host id = .ok p) :
    ∃ pre e post, c.cur.trace = pre ++ e :: post ∧ Life host id e post p := by
  obtain ⟨pre, e, post, -, htr, hlife⟩ := h.enacted.read hread
  exact ⟨pre, e, post, htr, hlife⟩

/-- What can be read is what is stored. -/
theorem Reachable.stored_of_read (h : Reachable host c)
    (hread : c.cur.state.network_proposal.read host id = .ok p) :
    c.cur.state.network_proposal.proposal_list id = some (p.to_bytes host) := by
  obtain ⟨_, _, _, hbuf, -⟩ := h.enacted.read hread
  exact hbuf

end

namespace Sample

/-- Alice's registration is the last one, and bob's vote approved it. -/
theorem approved_facts : registers [1] registration = true
    ∧ (∀ d ∈ approved.cur.trace.tail, registers [1] d = false)
    ∧ (approved.cur.state.network_proposal.read host [1]).map ProposalInfo.status
      = .ok .APPROVED
    ∧ ∀ d ∈ (approved.run host closing).cur.trace.drop approved.cur.trace.length,
      registers [1] d = false := by
  decide +kernel

theorem approved_status : ∃ p,
    approved.cur.state.network_proposal.read host [1] = .ok p ∧ p.status = .APPROVED :=
  map_eq_ok.mp approved_facts.2.2.1

end Sample

/-! ## Where a proposal comes from -/

/-- The proposal that the calls `post` make of the one that `e` registers
under `id`. -/
def sourced (host : Host V) (id : Bytes) (e : Receipt V) (post : List (Receipt V)) :
    Option ProposalInfo :=
  match e.call.method with
  | .registerProposal title description type value => do
      let doc ← host.jsonLoads value
      let main_preps := e.call.ctx.mainPReps.preps
      let p := NetworkProposal.newProposal id e.call.ctx.sender e.now
        e.call.ctx.mainPReps.expireBlockHeight title description type doc main_preps
      return { p with
        vote := (NetworkProposal.initialVote main_preps).after (votesOn id post)
        status := if post.any (cancels id) then .CANCELED
          else statusOf (Election.outcome (rules main_preps) (votesOn id post)) }
  | _ => none

section

variable {host : Host V} {c : Network V} {id : Bytes} {p : ProposalInfo}

theorem Life.status_eq_elected {e : Receipt V} {post : List (Receipt V)}
    (h : Life host id e post p) :
    p.status = if post.any (cancels id) then .CANCELED
      else statusOf
        (Election.outcome (rules e.call.ctx.mainPReps.preps) (votesOn id post)) := by
  have hcanceled : post.any (cancels id) = true ↔ p.status = .CANCELED := by
    rw [h.canceled, List.any_eq_true]
  by_cases hc : p.status = .CANCELED
  · rw [if_pos (hcanceled.mpr hc), hc]
  · rw [if_neg (mt hcanceled.mp hc)]
    exact h.decided hc

theorem Life.sourced {e : Receipt V} {post : List (Receipt V)} (h : Life host id e post p) :
    sourced host id e post = some p := by
  have hstatus := h.status_eq_elected
  have hreplayed := h.replayed
  obtain ⟨_, _, _, _, doc, _, _, hm, -, hdoc, -, rfl⟩ := h.enrolled
  simp only at hstatus hreplayed
  simp [Governance.sourced, hm, hdoc, hstatus, hreplayed]

/-- The value was checked for its type when it was registered. -/
theorem Life.validated {e : Receipt V} {post : List (Receipt V)} (h : Life host id e post p) :
    _validate_network_proposal host e.call.ctx e.before.network p.type p.value = .ok true := by
  have hne := h.electors_ne
  obtain ⟨_, _, _, _, _, _, _, -, -, -, hvalid, rfl⟩ := h.enrolled
  rw [newProposal_eq hne]
  exact hvalid

/-- **A proposal is what the calls made of it**, all of it: what the last
registration under its id says, the votes since then replayed on its lists,
and the status that they and its proposer brought it to. -/
theorem proposal_sourced (h : Reachable host c) (id : Bytes) :
    ((∀ e ∈ c.cur.trace, registers id e = false)
      ∧ c.cur.state.network_proposal.read host id
        = .error (.revert "No registered proposal"))
    ∨ ∃ p pre e post, c.cur.trace = pre ++ e :: post ∧ registers id e = true
      ∧ (∀ d ∈ post, registers id d = false)
      ∧ _validate_network_proposal host e.call.ctx e.before.network p.type p.value = .ok true
      ∧ sourced host id e post = some p
      ∧ c.cur.state.network_proposal.read host id = .ok p := by
  cases hbuf : c.cur.state.network_proposal.proposal_list id with
  | none =>
      refine Or.inl ⟨fun e he => ?_, by
        simp [NetworkProposal.read, NetworkProposal._check_registered_proposal, hbuf, require,
          revert]⟩
      -- a registered id would have its proposal
      by_contra hreg
      rw [Bool.not_eq_false] at hreg
      have hsome := h.enacted.isSome_of_registered he hreg
      rw [World.record, hbuf] at hsome
      cases hsome
  | some buf =>
      obtain ⟨p, pre, e, post, rfl, htr, hlife⟩ := h.enacted.life id buf hbuf
      exact Or.inr ⟨p, pre, e, post, htr, hlife.enrolled.registers, hlife.latest,
        hlife.validated, hlife.sourced,
        NetworkProposal.read_of_stored hbuf hlife.init_eq hlife.value_valid⟩

theorem proposal_sourced_approved :
    ∃ p pre e post, Sample.approved.cur.trace = pre ++ e :: post ∧ registers [1] e = true
      ∧ (∀ d ∈ post, registers [1] d = false)
      ∧ _validate_network_proposal Sample.host e.call.ctx e.before.network p.type p.value
        = .ok true
      ∧ sourced Sample.host [1] e post = some p
      ∧ Sample.approved.cur.state.network_proposal.read Sample.host [1] = .ok p
      ∧ p.status = .APPROVED := by
  obtain ⟨p, hread, hstatus⟩ := Sample.approved_status
  rcases proposal_sourced Sample.approved_reachable [1] with ⟨-, hnone⟩ | hregistered
  · rw [hread] at hnone
    cases hnone
  · obtain ⟨p', pre, e, post, htr, he, hpost, hvalid, hsourced, hread'⟩ := hregistered
    rw [hread] at hread'
    cases hread'
    exact ⟨p, pre, e, post, htr, he, hpost, hvalid, hsourced, hread, hstatus⟩

/-- **Every stored document is sound.** Its bytes read as a proposal, and
that proposal writes them back. -/
theorem document_round_trip (h : Reachable host c) {buf : Bytes}
    (hbuf : c.cur.state.network_proposal.proposal_list id = some buf) :
    ∃ p, ProposalInfo.from_bytes host buf = .ok p ∧ p.to_bytes host = buf ∧ p.init = p := by
  obtain ⟨p, _, _, _, rfl, -, hlife⟩ := h.enacted.life id buf hbuf
  exact ⟨p, ProposalInfo.from_bytes_to_bytes host hlife.init_eq hlife.value_valid, rfl,
    hlife.init_eq⟩

theorem document_round_trip_approved :
    ∃ buf, Sample.approved.cur.state.network_proposal.proposal_list [1] = some buf
      ∧ ∃ p, ProposalInfo.from_bytes Sample.host buf = .ok p ∧ p.to_bytes Sample.host = buf
        ∧ p.init = p := by
  obtain ⟨p, hread, -⟩ := Sample.approved_status
  have hbuf := Sample.approved_reachable.stored_of_read hread
  exact ⟨_, hbuf, document_round_trip Sample.approved_reachable hbuf⟩

/-- **The status is the outcome of the election.** -/
theorem status_eq_outcome (h : Reachable host c) {pre post : List (Receipt V)} {e : Receipt V}
    (htr : c.cur.trace = pre ++ e :: post) (he : registers id e = true)
    (hpost : ∀ d ∈ post, registers id d = false) :
    ∃ p, c.cur.state.network_proposal.read host id = .ok p
      ∧ p.status = if post.any (cancels id) then .CANCELED
        else statusOf (Election.outcome (rules e.call.ctx.mainPReps.preps)
          (votesOn id post)) := by
  obtain ⟨p, hread, hlife⟩ := h.life_of_registered htr he hpost
  exact ⟨p, hread, hlife.status_eq_elected⟩

theorem status_eq_outcome_approved :
    ∃ p, Sample.approved.cur.state.network_proposal.read Sample.host [1] = .ok p
      ∧ p.status = if Sample.approved.cur.trace.tail.any (cancels [1]) then .CANCELED
        else statusOf (Election.outcome
          (rules Sample.registration.call.ctx.mainPReps.preps)
          (votesOn [1] Sample.approved.cur.trace.tail)) :=
  status_eq_outcome Sample.approved_reachable Sample.approved_trace Sample.approved_facts.1
    Sample.approved_facts.2.1

/-- **An approval is announced and applied once.** -/
theorem approved_once (h : Reachable host c) {pre post : List (Receipt V)} {e : Receipt V}
    (htr : c.cur.trace = pre ++ e :: post) (he : registers id e = true)
    (hpost : ∀ d ∈ post, registers id d = false) :
    ∃ p, c.cur.state.network_proposal.read host id = .ok p
      ∧ (post.map (approvals id)).sum = (if p.status = .APPROVED then 1 else 0)
      ∧ (p.status = .APPROVED → ∃ d ∈ post, approvals id d = 1 ∧ ∃ evs,
        Applied host d.before.network (NetworkProposalType.ofInt p.type) p.value
          d.after.network evs) := by
  obtain ⟨p, hread, hlife⟩ := h.life_of_registered htr he hpost
  exact ⟨p, hread, hlife.announced, hlife.applied⟩

theorem approved_once_approved :
    ∃ p, Sample.approved.cur.state.network_proposal.read Sample.host [1] = .ok p
      ∧ (Sample.approved.cur.trace.tail.map (approvals [1])).sum
        = (if p.status = .APPROVED then 1 else 0)
      ∧ (p.status = .APPROVED → ∃ d ∈ Sample.approved.cur.trace.tail,
        approvals [1] d = 1 ∧ ∃ evs, Applied Sample.host d.before.network
          (NetworkProposalType.ofInt p.type) p.value d.after.network evs) :=
  approved_once Sample.approved_reachable Sample.approved_trace Sample.approved_facts.1
    Sample.approved_facts.2.1

end

/-! ## Decisions are final -/

section

variable {host : Host V} {c c' : Network V} {id : Bytes} {p : ProposalInfo}

theorem Enrolled.end_block_height {e : Receipt V} (h : Enrolled host id e p)
    (hne : e.call.ctx.mainPReps.preps ≠ []) :
    p.end_block_height = e.call.ctx.mainPReps.expireBlockHeight := by
  obtain ⟨_, _, _, _, _, _, _, -, -, -, -, rfl⟩ := h
  rw [newProposal_eq hne]

/-- A further run continues the life of a proposal that is not registered
again. -/
theorem Reachable.life_later (h : Reachable host c) (hs : Steps (body host) c c')
    {seg : List (Receipt V)} (hseg : c'.cur.trace = c.cur.trace ++ seg)
    (hreg : ∀ d ∈ seg, registers id d = false)
    (hread : c.cur.state.network_proposal.read host id = .ok p) :
    ∃ pre e post p', c.cur.trace = pre ++ e :: post ∧ Life host id e post p
      ∧ c'.cur.state.network_proposal.read host id = .ok p'
      ∧ Life host id e (post ++ seg) p' := by
  obtain ⟨pre, e, post, htr, hlife⟩ := h.life_of_read hread
  have htr' : c'.cur.trace = pre ++ e :: (post ++ seg) := by rw [hseg, htr]; simp
  obtain ⟨p', hread', hlife'⟩ := (h.steps hs).life_of_registered htr'
    hlife.enrolled.registers (List.forall_mem_append.mpr ⟨hlife.latest, hreg⟩)
  exact ⟨pre, e, post, p', htr, hlife, hread', hlife'⟩

/-- A decided proposal keeps its status. -/
theorem Life.status_eq {e : Receipt V} {post seg : List (Receipt V)} {p' : ProposalInfo}
    (h : Life host id e post p) (h' : Life host id e (post ++ seg) p')
    (hd : p.status ≠ .VOTING) : p'.status = p.status := by
  by_cases hc : p.status = .CANCELED
  · obtain ⟨d, hdin, hdc⟩ := h.canceled.mp hc
    rw [hc, h'.canceled]
    exact ⟨d, List.mem_append_left _ hdin, hdc⟩
  · have hdecided := h.decided hc
    have hne : Election.outcome (rules e.call.ctx.mainPReps.preps) (votesOn id post)
        ≠ .running := fun hrun => hd (hdecided.trans (by rw [hrun]; rfl))
    have hsame : Election.outcome (rules e.call.ctx.mainPReps.preps) (votesOn id (post ++ seg))
        = Election.outcome (rules e.call.ctx.mainPReps.preps) (votesOn id post) := by
      rw [votesOn, List.filterMap_append]
      exact Election.outcome_append_of_decided hne
    have hc' : p'.status ≠ .CANCELED := fun hc' => hne (hsame.symm.trans (h'.running hc'))
    rw [h'.decided hc', hsame, hdecided]

/-- So does one that nobody votes on or cancels. -/
theorem Life.status_eq_of_idle {e : Receipt V} {post seg : List (Receipt V)} {p' : ProposalInfo}
    (h : Life host id e post p) (h' : Life host id e (post ++ seg) p')
    (hc : p.status ≠ .CANCELED)
    (hidle : ∀ d ∈ seg, ¬ (cancels id d = true ∨ (castOn id d).isSome = true)) :
    p'.status = p.status := by
  have hvotes : votesOn id (post ++ seg) = votesOn id post := by
    rw [votesOn, List.filterMap_append, votesOn, List.append_right_eq_self,
      List.filterMap_eq_nil_iff]
    intro d hd
    have hnone := mt Or.inr (hidle d hd)
    rwa [Option.not_isSome_iff_eq_none] at hnone
  have hc' : p'.status ≠ .CANCELED := by
    intro hp
    obtain ⟨d, hd, hdc⟩ := h'.canceled.mp hp
    rcases List.mem_append.mp hd with hd | hd
    · exact hc (h.canceled.mpr ⟨d, hd, hdc⟩)
    · exact hidle d hd (Or.inl hdc)
  rw [h.decided hc, h'.decided hc', hvotes]

theorem shownStatus_final (h : Reachable host c) (hs : Steps (body host) c c')
    {seg : List (Receipt V)} (hseg : c'.cur.trace = c.cur.trace ++ seg)
    (hreg : ∀ d ∈ seg, registers id d = false)
    (hread : c.cur.state.network_proposal.read host id = .ok p)
    (hshown : NetworkProposal.shownStatus p c.now ≠ .VOTING) :
    ∃ p', c'.cur.state.network_proposal.read host id = .ok p'
      ∧ NetworkProposal.shownStatus p' c'.now = NetworkProposal.shownStatus p c.now := by
  obtain ⟨-, e, post, p', -, hlife, hread', hlife'⟩ := h.life_later hs hseg hreg hread
  refine ⟨p', hread', ?_⟩
  by_cases hv : p.status = .VOTING
  · have hexpired : p.end_block_height < c.now := by
      by_contra hopen
      exact hshown (by simp [NetworkProposal.shownStatus, hopen, hv])
    have hend : p'.end_block_height = p.end_block_height := by
      rw [hlife.enrolled.end_block_height hlife.electors_ne,
        hlife'.enrolled.end_block_height hlife.electors_ne]
    -- nothing is accepted after the end
    have hidle : ∀ d ∈ seg, ¬ (cancels id d = true ∨ (castOn id d).isSome = true) := by
      intro d hd hact
      have hlate := h.segment_notBefore hs hseg d hd
      have htimely := hlife'.timely d (List.mem_append_right _ hd) hact
      omega
    have hsame := hlife.status_eq_of_idle hlife' (hv ▸ by decide) hidle
    have hnow := hs.now_le
    simp [NetworkProposal.shownStatus, hsame, hend, hv, hexpired, hexpired.trans_le hnow]
  · have hsame := hlife.status_eq hlife' hv
    simp [NetworkProposal.shownStatus, hv, hsame]

/-- The query `doc` shows the status. -/
def Shows (doc : Json) (status : NetworkProposalStatus) : Prop :=
  doc.getItem "status" = .ok (.str (hex status.toInt))

/-- What `getProposal` shows, when there is a proposal. -/
theorem get_proposal_shows {db : NetworkProposal} {now : Int} {doc : Json}
    (hdoc : db.get_proposal host id now = .ok doc) :
    ∃ p, db.read host id = .ok p
      ∧ ∀ status, Shows doc status ↔ NetworkProposal.shownStatus p now = status := by
  obtain ⟨p, hread, hdoc⟩ := bind_eq_ok.mp hdoc
  obtain rfl := Except.ok.inj hdoc
  refine ⟨p, hread, fun status => ?_⟩
  have hitem : ∀ shown, Shows
      (NetworkProposal._generate_proposal_info_in_dict_for_get_proposal
        { p with status := shown }) status ↔ hex shown.toInt = hex status.toInt := by
    intro shown
    simp [Shows, NetworkProposal._generate_proposal_info_in_dict_for_get_proposal,
      NetworkProposal._generate_common_proposal_info_in_dict]
  rw [hitem]
  cases NetworkProposal.shownStatus p now <;> cases status <;> decide

theorem get_proposal_of_read {db : NetworkProposal} (hread : db.read host id = .ok p)
    (now : Int) : ∃ doc, db.get_proposal host id now = .ok doc :=
  ⟨_, by rw [NetworkProposal.get_proposal, hread, ok_bind, pure_eq_ok]⟩

/-- **What is shown as decided is final**, unless it is rolled back or the
id is registered once more. -/
theorem shown_final (h : Reachable host c) (hs : Steps (body host) c c')
    {seg : List (Receipt V)} (hseg : c'.cur.trace = c.cur.trace ++ seg)
    (hreg : ∀ d ∈ seg, registers id d = false) {doc : Json}
    (hdoc : c.cur.state.network_proposal.get_proposal host id c.now = .ok doc)
    (hvoting : ¬ Shows doc .VOTING) :
    ∃ doc' status, c'.cur.state.network_proposal.get_proposal host id c'.now = .ok doc'
      ∧ Shows doc status ∧ Shows doc' status := by
  obtain ⟨p, hread, hshows⟩ := get_proposal_shows hdoc
  obtain ⟨p', hread', hsame⟩ :=
    shownStatus_final h hs hseg hreg hread (mt (hshows _).mpr hvoting)
  obtain ⟨doc', hdoc'⟩ := get_proposal_of_read hread' c'.now
  obtain ⟨p'', hread'', hshows'⟩ := get_proposal_shows hdoc'
  obtain rfl := Except.ok.inj (hread''.symm.trans hread')
  exact ⟨doc', _, hdoc', (hshows _).mpr rfl, (hshows' _).mpr hsame⟩

theorem shown_final_approved :
    ∃ doc doc', Sample.approved.cur.state.network_proposal.get_proposal Sample.host [1]
        Sample.approved.now = .ok doc ∧ Shows doc .APPROVED
      ∧ (Sample.approved.run Sample.host Sample.closing).cur.state.network_proposal.get_proposal
        Sample.host [1] (Sample.approved.run Sample.host Sample.closing).now = .ok doc'
      ∧ Shows doc' .APPROVED := by
  obtain ⟨p, hread, hstatus⟩ := Sample.approved_status
  have hshown : NetworkProposal.shownStatus p Sample.approved.now = .APPROVED := by
    simp [NetworkProposal.shownStatus, hstatus]
  obtain ⟨doc, hdoc⟩ := get_proposal_of_read hread Sample.approved.now
  obtain ⟨p', hread', hshows⟩ := get_proposal_shows hdoc
  obtain rfl := Except.ok.inj (hread'.symm.trans hread)
  have hvoting : ¬ Shows doc .VOTING := by
    rw [hshows, hshown]
    decide
  obtain ⟨doc', status, hdoc', hshows', hsame⟩ := shown_final Sample.approved_reachable
    (Sample.approved.run_steps Sample.host Sample.closing)
    (Sample.approved.run_trace Sample.host Sample.closing) Sample.approved_facts.2.2.2 hdoc
    hvoting
  obtain rfl := hshown.symm.trans ((hshows status).mp hshows')
  exact ⟨doc, doc', hdoc, hshows', hdoc', hsame⟩

end

/-! ## The rates in practice -/

/-- What `0.66` and `0.33` are meant to be. -/
def percent : NetworkProposalVote → Int
  | .AGREE => 66
  | .DISAGREE => 33

/-- The side has its share, in heads and in delegation, by exact arithmetic. -/
def HasShare (side : NetworkProposalVote) (p : ProposalInfo) : Prop :=
  percent side * p.total_voter ≤ 100 * (p.vote.side side).1.list.length
    ∧ 0 < p.total_delegated_amount
    ∧ percent side * p.total_delegated_amount ≤ 100 * (p.vote.side side).1.amount

theorem meets_iff_hasShare {side : NetworkProposalVote} {p : ProposalInfo}
    (hpos : 0 < p.total_voter) (hvoter : p.total_voter ≤ 818836295885544)
    (hamount : p.total_delegated_amount ≤ 818836295885544) :
    Meets side p ↔ HasShare side p := by
  have hheads : Reaches side (p.vote.side side).1.list.length p.total_voter ↔ _ :=
    reaches_iff_of_le hpos hvoter
  rw [Meets, HasShare, hheads]
  refine and_congr (by cases side <;> rfl) (and_congr_right fun hweight => ?_)
  rw [reaches_iff_of_le hweight hamount]
  cases side <;> rfl

namespace Sample

/-- The delegations at which the rates first miss. -/
def large (sender : Address) (hash : UInt8) : Context :=
  { ctx sender hash with
    mainPReps := {
      preps := [⟨alice, "alice", 540431955284460⟩, ⟨bob, "bob", 1⟩,
        ⟨carol, "carol", 278404340601086⟩]
      expireBlockHeight := 200
      nodup := by decide } }

def rounded : Network Values :=
  start.run host (calls [⟨large alice 1, .registerProposal "price" "" 4 price⟩,
    ⟨large alice 2, .voteProposal [1] 1⟩, ⟨large bob 3, .voteProposal [1] 1⟩])

theorem rounded_reachable : Reachable host rounded := start_reachable.run _

theorem rounded_approved : ∃ p,
    rounded.cur.state.network_proposal.read host [1] = .ok p ∧ p.status = .APPROVED
      ∧ p.total_delegated_amount = 818836295885547 ∧ p.vote.agree.amount = 540431955284461 := by
  have hfacts : (rounded.cur.state.network_proposal.read host [1]).map
      (fun p => (p.status, p.total_delegated_amount, p.vote.agree.amount))
      = .ok (.APPROVED, 818836295885547, 540431955284461) := by
    decide +kernel
  obtain ⟨p, hread, hp⟩ := map_eq_ok.mp hfacts
  simp only [Prod.mk.injEq] at hp
  exact ⟨p, hread, hp⟩

end Sample

/-- **The rates are exact for small delegations only.** -/
theorem rates_exact :
    (∀ {V : Type} {host : Host V} {c : Network V} {id : Bytes} {p : ProposalInfo},
      Reachable host c → c.cur.state.network_proposal.read host id = .ok p →
      p.total_voter ≤ 818836295885544 → p.total_delegated_amount ≤ 818836295885544 →
      (p.status = .APPROVED → HasShare .AGREE p)
        ∧ (p.status = .DISAPPROVED → HasShare .DISAGREE p ∨ p.vote.noVote.list = [])
        ∧ (p.status = .VOTING → ¬ HasShare .AGREE p ∧ ¬ HasShare .DISAGREE p
          ∧ p.vote.noVote.list ≠ []))
    ∧ ∃ c id p, Reachable Sample.host c
      ∧ c.cur.state.network_proposal.read Sample.host id = .ok p
      ∧ p.total_delegated_amount = 818836295885547 ∧ p.status = .APPROVED
      ∧ ¬ HasShare .AGREE p := by
  constructor
  · intro V host c id p h hread hvoter hamount
    obtain ⟨_, e, _, -, hlife⟩ := h.life_of_read hread
    have hshare (side : NetworkProposalVote) : Meets side p ↔ HasShare side p :=
      meets_iff_hasShare hlife.total_voter_pos hvoter hamount
    refine ⟨fun hs => (hshare _).mp (hlife.ballot.approved hs), fun hs => ?_, fun hs => ?_⟩
    · exact (hlife.ballot.disapproved hs).imp_left (hshare _).mp
    · obtain ⟨hleft, hnot⟩ := hlife.ballot.undecided (Or.inl hs)
      exact ⟨mt (hshare _).mpr (hnot _), mt (hshare _).mpr (hnot _), hleft⟩
  · obtain ⟨p, hread, hstatus, htotal, hamount⟩ := Sample.rounded_approved
    refine ⟨_, [1], p, Sample.rounded_reachable, hread, htotal, hstatus, ?_⟩
    rintro ⟨-, -, hweight⟩
    rw [htotal, show (p.vote.side .AGREE).1.amount = 540431955284461 from hamount] at hweight
    simp [percent] at hweight

/-- The sample is far below the bound. -/
theorem rates_exact_approved :
    ∃ p, Sample.approved.cur.state.network_proposal.read Sample.host [1] = .ok p
      ∧ p.total_voter ≤ 818836295885544 ∧ p.total_delegated_amount ≤ 818836295885544
      ∧ p.status = .APPROVED ∧ HasShare .AGREE p := by
  have hfacts : (Sample.approved.cur.state.network_proposal.read Sample.host [1]).map
      (fun p => decide (p.status = .APPROVED ∧ p.total_voter = 3
        ∧ p.total_delegated_amount = 100)) = .ok true := by
    decide +kernel
  obtain ⟨p, hread, hp⟩ := map_eq_ok.mp hfacts
  obtain ⟨hstatus, hvoter, hamount⟩ := of_decide_eq_true hp
  have hvoter' : p.total_voter ≤ 818836295885544 := by omega
  have hamount' : p.total_delegated_amount ≤ 818836295885544 := by omega
  exact ⟨p, hread, hvoter', hamount', hstatus,
    (rates_exact.1 Sample.approved_reachable hread hvoter' hamount').1 hstatus⟩

end Governance
