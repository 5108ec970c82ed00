import StableCoin.Governance.Proposals

/-!
# Listing the proposals

`getProposals` reads every proposal under the ids in the order of their
registration and keeps those of the type and the status asked for, where an
expired proposal counts as disapproved. In a reachable state no document is
missing or broken, so the query never fails.
-/

namespace Governance

open Python Reentrancy
open StableCoin (Address Bytes)

variable {V : Type}

/-- The ids of the accepted registrations, in their order. -/
def registrations (tr : List (Receipt V)) : List Bytes :=
  (tr.filter fun e => registers e.call.ctx.txHash e).map fun e => e.call.ctx.txHash

/-- A proposal of the type and the status asked for. -/
def asked (now : Int) (type status : Option Int) (p : ProposalInfo) : Bool :=
  type.all (p.type = ·) && status.all ((NetworkProposal.shownStatus p now).toInt = ·)

/-- What the list shows of a proposal. -/
def listed (now : Int) (p : ProposalInfo) : Json :=
  NetworkProposal._generate_proposal_info_in_dict_for_get_proposals
    { p with status := NetworkProposal.shownStatus p now }

section

variable {host : Host V} {db : NetworkProposal} {now : Int} {type status : Option Int}

theorem mapM_read {ids : List Bytes} (h : ∀ id ∈ ids, ∃ p, db.read host id = .ok p) :
    ∃ ps, ids.mapM (db.read host) = .ok ps := by
  induction ids with
  | nil => exact ⟨[], rfl⟩
  | cons id ids ih =>
      obtain ⟨p, hp⟩ := h id (List.mem_cons_self ..)
      obtain ⟨ps, hps⟩ := ih fun id' hid => h id' (List.mem_cons_of_mem _ hid)
      exact ⟨p :: ps, by rw [List.mapM_cons, hp, hps]; rfl⟩

/-- The loop of `get_proposals` keeps what is asked for. -/
theorem select_eq {ids : List Bytes} {ps : List ProposalInfo}
    (h : ids.mapM (db.read host) = .ok ps) :
    db.select host now type status ids
      = .ok ((ps.filter (asked now type status)).map (listed now)) := by
  induction ids generalizing ps with
  | nil =>
      obtain rfl := Except.ok.inj h
      rfl
  | cons id ids ih =>
      rw [List.mapM_cons] at h
      obtain ⟨p, hp, h⟩ := bind_eq_ok.mp h
      obtain ⟨rest, hrest, h⟩ := bind_eq_ok.mp h
      obtain rfl := Except.ok.inj h
      have hload : db.load host id = .ok p := by
        simp [NetworkProposal.read] at hp
        exact hp.2
      have hloop : db.select host now type status (id :: ids)
          = if asked now type status p then
              .ok (listed now p :: (rest.filter (asked now type status)).map (listed now))
            else .ok ((rest.filter (asked now type status)).map (listed now)) := by
        simp only [NetworkProposal.select, hload, ih hrest, ok_bind, pure_eq_ok, asked]
        -- the code checks the type first
        cases type <;> cases status <;> simp [listed, ite_and]
      rw [hloop, List.filter_cons]
      split <;> rfl

end

section

variable {host : Host V} {c : Network V}

/-- **The list is complete and in order.** -/
theorem get_proposals_eq (h : Reachable host c) :
    ∃ ps, (registrations c.cur.trace).mapM (c.cur.state.network_proposal.read host) = .ok ps
      ∧ ∀ now (type status : Option Int), (∀ t ∈ type, 0 ≤ t ∧ t ≤ 8) →
        (∀ s ∈ status, 0 ≤ s ∧ s ≤ 3) →
        c.cur.state.network_proposal.get_proposals host now type status
          = .ok (.dict [("proposals",
            .list ((ps.filter (asked now type status)).map (listed now)))]) := by
  have hkeys : c.cur.state.network_proposal.proposal_list_keys
      = registrations c.cur.trace := h.enacted.keys
  have hread : ∀ id ∈ registrations c.cur.trace,
      ∃ p, c.cur.state.network_proposal.read host id = .ok p := by
    intro id hid
    obtain ⟨buf, hbuf⟩ := Option.isSome_iff_exists.mp (h.enacted.stored id (hkeys ▸ hid))
    obtain ⟨p, _, _, _, rfl, -, hlife⟩ := h.enacted.life id buf hbuf
    exact ⟨p, NetworkProposal.read_of_stored hbuf hlife.init_eq hlife.value_valid⟩
  obtain ⟨ps, hps⟩ := mapM_read hread
  refine ⟨ps, hps, ?_⟩
  intro now type status htype hstatus
  simp only [NetworkProposal.get_proposals, hkeys, select_eq hps]
  cases type <;> cases status <;> simp_all [require, pure_eq_ok]

theorem get_proposals_eq_approved :
    ∃ ps, (registrations Sample.approved.cur.trace).mapM
        (Sample.approved.cur.state.network_proposal.read Sample.host) = .ok ps
      ∧ ∀ now (type status : Option Int), (∀ t ∈ type, 0 ≤ t ∧ t ≤ 8) →
        (∀ s ∈ status, 0 ≤ s ∧ s ≤ 3) →
        Sample.approved.cur.state.network_proposal.get_proposals Sample.host now type status
          = .ok (.dict [("proposals",
            .list ((ps.filter (asked now type status)).map (listed now)))]) :=
  get_proposals_eq Sample.approved_reachable

end

end Governance
