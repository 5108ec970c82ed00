import StableCoin.Governance.Proposals

/-!
# Who may do what

Whether somebody is an auditor is the last word of the calls about them.
Auditors decide about deployments, block producer candidates about
proposals; `entitled` says so of every accepted call of a run.

A deployment runs code before its acceptance is recorded. That no
deployment is decided twice therefore rests on who can call the contract
meanwhile: only contracts can, and no auditor is one.
-/

namespace Governance

open Python Reentrancy
open StableCoin (Address ArrayDB Bytes DictDB)

variable {V : Type}

/-! ## Auditors -/

/-- What a call says about whether `a` is an auditor. -/
def appointment (a : Address) (e : Receipt V) : Option Bool :=
  match e.call.method with
  | .addAuditor a' => if a' = a then some true else none
  | .removeAuditor a' => if a' = a then some false else none
  | _ => none

/-- The last word counts; before it only the owner is an auditor. -/
def isAuditor (host : Host V) (tr : List (Receipt V)) (a : Address) : Bool :=
  (tr.filterMap (appointment a)).getLast?.getD (a = host.owner)

theorem isAuditor_snoc (host : Host V) (tr : List (Receipt V)) (e : Receipt V) (a : Address) :
    isAuditor host (tr ++ [e]) a = (appointment a e).getD (isAuditor host tr a) := by
  rw [isAuditor, List.filterMap_append, List.getLast?_append]
  cases h : appointment a e <;> simp [h, isAuditor]

/-- The list of auditors after the calls `tr`. -/
structure Roll (host : Host V) (tr : List (Receipt V)) (r : Record V) : Prop where
  nodup : r.auditor_list.Nodup
  mem : ∀ a, a ∈ r.auditor_list ↔ isAuditor host tr a = true
  account : ∀ a ∈ r.auditor_list, a = host.owner ∨ a.isContract = false

section

variable {host : Host V} {tr : List (Receipt V)}

theorem Roll.other {r r' : Record V} {e : Receipt V} (h : Roll host tr r)
    (hl : r'.auditor_list = r.auditor_list) (he : ∀ a, appointment a e = none) :
    Roll host (tr ++ [e]) r' where
  nodup := hl ▸ h.nodup
  mem a := by rw [hl, h.mem, isAuditor_snoc, he, Option.getD_none]
  account := hl ▸ h.account

theorem Roll.effect {e : Receipt V} (h : Roll host tr e.before.record)
    (he : Effect host e.now e.call.ctx e.before e.call.method e.after) :
    Roll host (tr ++ [e]) e.after.record := by
  obtain ⟨now, ⟨ctx, m⟩, w, w'⟩ := e
  simp only at h he ⊢
  have hmem : ∀ a, a ∈ w.auditor_list ↔ isAuditor host tr a = true := h.mem
  cases he with
  | @add address heoa howner hnew =>
      refine ⟨?_, ?_, ?_⟩
      · exact List.nodup_append.mpr ⟨h.nodup, List.nodup_singleton _, by
          simpa using fun b hb => ne_of_mem_of_not_mem hb hnew⟩
      · intro a
        rw [isAuditor_snoc]
        by_cases ha : address = a
        · simp [World.record, appointment, ha]
        · simp [World.record, appointment, ha, Ne.symm ha, hmem]
      · exact List.forall_mem_append.mpr
          ⟨h.account, List.forall_mem_singleton.mpr (Or.inr heoa)⟩
  | @remove address heoa hin hsender =>
      have hswap (a : Address) : a ∈ SwapRemove.swapRemove address w.auditor_list
          ↔ a ∈ w.auditor_list ∧ a ≠ address :=
        SwapRemove.mem_swapRemove h.nodup hin
      refine ⟨SwapRemove.swapRemove_nodup h.nodup, ?_, ?_⟩
      · intro a
        rw [isAuditor_snoc]
        by_cases ha : address = a
        · subst ha
          simp [World.record, appointment, hswap]
        · simp [World.record, appointment, hswap, ha, Ne.symm ha, hmem]
      · exact fun a ha => h.account a ((hswap a).mp ha).1
  | _ => exact h.other rfl fun _ => rfl

theorem Installed.roll {w : World V} (h : Installed host w) : Roll host [] w.record := by
  obtain ⟨v, -, -, rfl⟩ := h.record_eq
  exact ⟨List.nodup_singleton _, by simp [World.record, isAuditor], by simp [World.record]⟩

theorem History.roll {w : World V} {r : Record V} (hw : Installed host w)
    (h : History host w.record tr r) : Roll host tr r :=
  h.calls (motive := Roll host) hw.roll fun ih he _ => ih.effect he

end

/-! ## Entitled calls -/

/-- The caller of `e`, after the calls `pre`, may make the call. -/
def Entitled (host : Host V) (pre : List (Receipt V)) (e : Receipt V) : Prop :=
  match e.call.method with
  | .addAuditor _ => e.call.ctx.sender = host.owner
  | .removeAuditor a => e.call.ctx.sender = host.owner ∨ e.call.ctx.sender = a
  | .acceptScore _ => isAuditor host pre e.call.ctx.sender = true
  | .rejectScore _ _ => isAuditor host pre e.call.ctx.sender = true
  | .registerProposal .. =>
      e.call.ctx.sender ∈ e.call.ctx.mainPReps.preps.map PRep.address
  | .cancelProposal id =>
      ∃ before b after, pre = before ++ b :: after ∧ registers id b = true
        ∧ (∀ d ∈ after, registers id d = false) ∧ e.call.ctx.sender = b.call.ctx.sender
  | .voteProposal id _ =>
      e.call.ctx.sender ∈ e.call.ctx.mainPReps.preps.map PRep.address
      ∧ ∃ before b after, pre = before ++ b :: after ∧ registers id b = true
        ∧ (∀ d ∈ after, registers id d = false)
        ∧ e.call.ctx.sender ∈ b.call.ctx.mainPReps.preps.map PRep.address

/-- Whoever voted was an elector. -/
theorem Ballot.elector {electors : List PRep} {p : ProposalInfo} (host : Host V)
    (h : Ballot electors p) {a : Address} (ha : str a ∈ p.vote.noVote.list) :
    a ∈ electors.map PRep.address := by
  have hin := h.roll.subset (List.mem_append_right _ ha)
  obtain ⟨prep, hprep, hstr⟩ := List.mem_map.mp hin
  exact List.mem_map.mpr ⟨prep, hprep, host.str_inj.mp hstr⟩

theorem Effect.entitled {host : Host V} {pre : List (Receipt V)} {e : Receipt V}
    (hroll : Roll host pre e.before.record) (henacted : Enacted host pre e.before.record)
    (he : Effect host e.now e.call.ctx e.before e.call.method e.after) :
    Entitled host pre e := by
  obtain ⟨now, ⟨ctx, m⟩, w, w'⟩ := e
  simp only at hroll henacted he
  simp only [Entitled]
  cases he with
  | accept hu => exact (hroll.mem _).mp hu.auditor
  | reject hu => exact (hroll.mem _).mp hu.auditor
  | add heoa howner hnew => exact howner
  | remove heoa hin hsender => exact hsender
  | register hprep hterm hdoc hvalid => simpa [_check_main_prep] using hprep
  | cancel hread hopen hproposer hvoting =>
      obtain ⟨before, b, after, -, hpre, hlife⟩ := henacted.read hread
      obtain ⟨_, _, _, _, _, _, _, -, -, -, -, rfl⟩ := hlife.enrolled
      rw [newProposal_eq hlife.electors_ne] at hproposer
      exact ⟨before, b, after, hpre, hlife.enrolled.registers, hlife.latest, hproposer⟩
  | vote hread hv hnot =>
      obtain ⟨before, b, after, -, hpre, hlife⟩ := henacted.read hread
      exact ⟨hv.candidate.2 ▸ List.mem_map_of_mem hv.candidate.1, before, b, after, hpre,
        hlife.enrolled.registers, hlife.latest, hlife.ballot.elector host hv.elector⟩
  | approve hread hv hvoting ha =>
      obtain ⟨before, b, after, -, hpre, hlife⟩ := henacted.read hread
      exact ⟨hv.candidate.2 ▸ List.mem_map_of_mem hv.candidate.1, before, b, after, hpre,
        hlife.enrolled.registers, hlife.latest, hlife.ballot.elector host hv.elector⟩

/-- **Only the entitled.** The list of auditors is what the calls made it,
and every accepted call was its caller's to make. -/
theorem calls_entitled {host : Host V} {c : Network V} (h : Reachable host c) :
    c.cur.state.auditor_list.Nodup
    ∧ (∀ a, a ∈ c.cur.state.auditor_list ↔ isAuditor host c.cur.trace a = true)
    ∧ ∀ pre e post, c.cur.trace = pre ++ e :: post → Entitled host pre e := by
  obtain ⟨w, hw, hist, -⟩ := h.history
  have hroll := hist.roll hw
  refine ⟨hroll.nodup, hroll.mem, fun pre e post htr => ?_⟩
  rw [htr] at hist
  obtain ⟨hpre, he⟩ := hist.effect
  exact he.entitled (hpre.roll hw) (hpre.enacted hw)

theorem calls_entitled_approved :
    Sample.approved.cur.state.auditor_list.Nodup
    ∧ (∀ a, a ∈ Sample.approved.cur.state.auditor_list
      ↔ isAuditor Sample.host Sample.approved.cur.trace a = true)
    ∧ ∀ pre e post, Sample.approved.cur.trace = pre ++ e :: post →
      Entitled Sample.host pre e :=
  calls_entitled Sample.approved_reachable

/-! ## Deployments -/

/-- The event decides about the deploy transaction `txHash`. -/
def decides (txHash : Bytes) : Event → Bool
  | .Accepted t => t = "0x" ++ bytesHex txHash
  | .Rejected t _ => t = "0x" ++ bytesHex txHash
  | _ => false

theorem bytesHex_inj {a b : Bytes} : bytesHex a = bytesHex b ↔ a = b := by
  constructor
  · intro h
    have hb := bytesFromHex_bytesHex b
    rw [← h, bytesFromHex_bytesHex] at hb
    exact Except.ok.inj hb
  · rintro rfl
    rfl

/-- Only contracts call while other code is running. -/
def FromContracts (_ : Int) (_ : Snapshot Int Call (World V))
    (fs : List (Frame Abort Deploy Int Call (World V))) (k : Call) : Prop :=
  fs ≠ [] → k.ctx.sender.isContract = true

/-- Reached by a run in which only contracts call while other code is running. -/
def DirectlyReachable (host : Host V) (c : Network V) : Prop :=
  ∃ now w, Installed host w ∧ StepsIn (body host) FromContracts ⟨now, ⟨w, []⟩, []⟩ c

/-- How often `txHash` has been decided, by the statuses. -/
def verdicts (w : World V) (txHash : Bytes) : Nat :=
  (isSet w.audit_status txHash).toNat + (isSet w.reject_status txHash).toNat

/-- No transaction is decided twice. -/
structure Settled (w : World V) : Prop where
  once : ∀ txHash, verdicts w txHash ≤ 1
  logged : ∀ txHash, w.events.countP (decides txHash) = verdicts w txHash

/-- Nor is one that is being accepted; and that is one at most. -/
structure Pending (host : Host V) (w : Snapshot Int Call (World V))
    (fs : List (Frame Abort Deploy Int Call (World V))) : Prop where
  roll : Roll host w.trace w.state.record
  settled : Settled w.state
  alone : fs.Pairwise fun f f' => f.resume = none ∨ f'.resume = none
  waiting : ∀ f ∈ fs, ∀ g, f.resume = some g → ∃ ctx txHash,
    g = (fun w => .done () (accepted ctx txHash w)) ∧ verdicts w.state txHash = 0

section

variable {host : Host V}

theorem isSet_set_self (d : DictDB Bytes Bytes) (txHash : Bytes) (ctx : Context) :
    isSet (d.set txHash ctx.txHash) txHash = true := by
  simp [isSet, ctx.txHash_ne]

theorem isSet_set_of_ne (d : DictDB Bytes Bytes) {txHash t : Bytes} (v : Bytes)
    (h : t ≠ txHash) : isSet (d.set txHash v) t = isSet d t := by
  rw [isSet, DictDB.set_of_ne d h, isSet]

theorem verdicts_reject {w : World V} {txHash : Bytes} {ctx : Context} {evs : List Event}
    (hz : verdicts w txHash = 0) (t : Bytes) :
    verdicts { w with reject_status := w.reject_status.set txHash ctx.txHash, events := evs } t
      = if t = txHash then 1 else verdicts w t := by
  by_cases ht : t = txHash
  · subst ht
    simp only [verdicts, Nat.add_eq_zero_iff] at hz
    simp [verdicts, isSet_set_self, hz.1]
  · simp [verdicts, isSet_set_of_ne _ _ ht, ht]

theorem verdicts_accepted {w : World V} {txHash : Bytes} {ctx : Context}
    (hz : verdicts w txHash = 0) (t : Bytes) :
    verdicts (accepted ctx txHash w) t = if t = txHash then 1 else verdicts w t := by
  by_cases ht : t = txHash
  · subst ht
    simp only [verdicts, Nat.add_eq_zero_iff] at hz
    simp [verdicts, accepted, isSet_set_self, hz.2]
  · simp [verdicts, accepted, isSet_set_of_ne _ _ ht, ht]

/-- A decision about a transaction that was undecided. -/
theorem Settled.decided {w w' : World V} {txHash : Bytes} {ev : Event} (h : Settled w)
    (hz : verdicts w txHash = 0)
    (hv : ∀ t, verdicts w' t = if t = txHash then 1 else verdicts w t)
    (hev : w'.events = w.events ++ [ev]) (hd : ∀ t, decides t ev = decide (t = txHash)) :
    Settled w' where
  once t := by
    rw [hv]
    split
    · exact le_refl 1
    · exact h.once t
  logged t := by
    rw [hev, List.countP_append, h.logged, hv]
    by_cases ht : t = txHash
    · simp [hd, ht, hz]
    · simp [hd, ht]

/-- A call that decides nothing. -/
theorem Settled.other {w w' : World V} {evs : List Event} (h : Settled w)
    (hv : ∀ t, verdicts w' t = verdicts w t) (hev : w'.events = w.events ++ evs)
    (hd : ∀ ev ∈ evs, ∀ t, decides t ev = false) : Settled w' where
  once t := hv t ▸ h.once t
  logged t := by
    have hnone : evs.countP (decides t) = 0 := by
      rw [List.countP_eq_zero]
      exact fun ev hin => by simp [hd ev hin t]
    rw [hev, List.countP_append, h.logged, hv, hnone, Nat.add_zero]

theorem Undecided.verdicts_eq {ctx : Context} {w : World V} {txHash : Bytes}
    (h : Undecided ctx w txHash) : verdicts w txHash = 0 := by
  simp [verdicts, h.unaccepted, h.unrejected]

theorem decides_setting {ev : Event} (h : ev.isSetting = true) (t : Bytes) :
    decides t ev = false := by
  cases ev <;> first | rfl | cases h

theorem Settled.effect {now : Int} {ctx : Context} {w w' : World V} {m : Method}
    (h : Settled w) (he : Effect host now ctx w m w') : Settled w' := by
  cases he with
  | accept hu => exact h
  | @reject txHash reason hu =>
      refine h.decided hu.verdicts_eq (verdicts_reject hu.verdicts_eq) rfl
        fun t => ?_
      simp [decides, bytesHex_inj, eq_comm]
  | add heoa howner hnew => exact h.other (fun _ => rfl) (List.append_nil _).symm nofun
  | remove heoa hin hsender => exact h.other (fun _ => rfl) (List.append_nil _).symm nofun
  | register hprep hterm hdoc hvalid => exact h.other (fun _ => rfl) rfl (by simp [decides])
  | cancel hread hopen hproposer hvoting =>
      exact h.other (fun _ => rfl) rfl (by simp [decides])
  | vote hread hv hnot => exact h.other (fun _ => rfl) rfl (by simp [decides])
  | approve hread hv hvoting ha =>
      refine h.other (fun _ => rfl) (List.append_assoc ..) ?_
      refine List.forall_mem_append.mpr ⟨by simp [decides], fun ev hin t => ?_⟩
      exact decides_setting (ha.isSetting ev hin) t

/-- Only auditors decide. -/
theorem Effect.verdicts_eq {now : Int} {ctx : Context} {w w' : World V} {m : Method}
    (he : Effect host now ctx w m w') (hs : ctx.sender ∉ w.auditor_list) (t : Bytes) :
    verdicts w' t = verdicts w t := by
  cases he with
  | reject hu => exact absurd hu.auditor hs
  | _ => rfl

/-- No contract is an auditor. -/
theorem Roll.not_mem {tr : List (Receipt V)} {r : Record V} (h : Roll host tr r)
    (howner : host.owner.isContract = false) {a : Address} (ha : a.isContract = true) :
    a ∉ r.auditor_list := by
  intro hin
  rcases h.account a hin with rfl | hc
  · simp [howner] at ha
  · simp [hc] at ha

theorem pending_invariant (howner : host.owner.isContract = false) :
    FlightInvariant (body host) FromContracts fun _ w fs => Pending host w fs where
  tick _ h := h
  run := by
    intro now w fs k s h hG ho
    have he := Effect.of_first (Outcome.first_of_done ho)
    refine ⟨h.roll.effect (e := ⟨now, k, w.state, s⟩) he, h.settled.effect he, h.alone, ?_⟩
    intro f hf g hg
    obtain ⟨ctx, txHash, hrest, hz⟩ := h.waiting f hf g hg
    refine ⟨ctx, txHash, hrest, ?_⟩
    rw [Snapshot.push_state, he.verdicts_eq
      (h.roll.not_mem howner (hG (List.ne_nil_of_mem hf)))]
    exact hz
  suspend := by
    intro now w fs k r s g h hG ho
    have he := Effect.of_first (Outcome.first_of_call ho)
    obtain ⟨txHash, hm, hu, rfl, rfl⟩ := body_call ho
    -- an auditor is no contract, so nothing else is in flight
    have hfs : fs = [] := by
      by_contra hne
      exact h.roll.not_mem howner (hG hne) hu.auditor
    subst hfs
    refine ⟨h.roll.effect (e := ⟨now, k, w.state, w.state⟩) he, h.settled,
      List.pairwise_singleton .., ?_⟩
    refine List.forall_mem_singleton.mpr fun g hg => ?_
    obtain rfl := Option.some.inj hg
    exact ⟨k.ctx, txHash, rfl, hu.verdicts_eq⟩
  enter h := ⟨h.roll, h.settled, List.pairwise_cons.mpr ⟨fun _ _ => Or.inl rfl, h.alone⟩,
    List.forall_mem_cons.mpr ⟨nofun, h.waiting⟩⟩
  leave h := ⟨h.roll, h.settled, (List.pairwise_cons.mp h.alone).2,
    (List.forall_mem_cons.mp h.waiting).2⟩
  resume := by
    intro now w saved g fs s h _ ho
    obtain ⟨hwait, hrest⟩ := List.forall_mem_cons.mp h.waiting
    obtain ⟨ctx, txHash, rfl, hz⟩ := hwait g rfl
    cases ho
    obtain ⟨halone, hothers⟩ := List.pairwise_cons.mp h.alone
    refine ⟨h.roll, ?_, hothers, ?_⟩
    · refine h.settled.decided hz (verdicts_accepted hz) rfl fun t => ?_
      simp [decides, bytesHex_inj, eq_comm]
    · intro f hf g hg
      rw [(halone f hf).resolve_left nofun] at hg
      cases hg
  again := by
    intro now w saved g fs r s g' h _ ho
    obtain ⟨ctx, txHash, rfl, -⟩ := h.waiting _ (List.mem_cons_self ..) g rfl
    cases ho

theorem Installed.settled {w : World V} (h : Installed host w) : Settled w := by
  obtain ⟨v, -, -, rfl⟩ := h.record_eq
  exact ⟨by simp [verdicts, isSet], by simp [verdicts, isSet]⟩

/-- **No deployment is decided twice.** -/
theorem decided_once {c : Network V} (howner : host.owner.isContract = false)
    (h : DirectlyReachable host c) (txHash : Bytes) :
    ¬ (isSet c.cur.state.audit_status txHash = true
      ∧ isSet c.cur.state.reject_status txHash = true)
    ∧ c.cur.state.events.countP (decides txHash) = verdicts c.cur.state txHash := by
  obtain ⟨now, w, hw, hs⟩ := h
  have hstart : Pending host ⟨w, []⟩ [] :=
    ⟨hw.roll, hw.settled, .nil, fun _ hf => (List.not_mem_nil hf).elim⟩
  have hend := ((pending_invariant howner).reachable (P := fun _ w fs => Pending host w fs)
    hstart hs).settled
  refine ⟨?_, hend.logged txHash⟩
  rintro ⟨ha, hr⟩
  have honce := hend.once txHash
  simp [verdicts, ha, hr] at honce

end

/-- An acceptance whose deployed code calls nothing. -/
theorem DirectlyReachable.accept {host : Host V} {now : Int} {w : Snapshot Int Call (World V)}
    {k : Call} {r : Deploy} {s : World V} {g : Exec V Unit}
    (h : DirectlyReachable host ⟨now, w, []⟩) (ho : body host now k w.state = .call r s g) :
    ∃ txHash, k.method = .acceptScore txHash ∧ DirectlyReachable host
      ⟨now, (w.push now k s).settle (accepted k.ctx txHash s), []⟩ := by
  obtain ⟨txHash, hm, hu, rfl, rfl⟩ := body_call ho
  obtain ⟨now₀, w₀, hw, hs⟩ := h
  have hsuspended := hs.tail ⟨.suspend ho, fun _ _ _ hne => absurd rfl hne⟩
  refine ⟨txHash, hm, now₀, w₀, hw, hsuspended.tail ⟨.resume rfl, ?_⟩⟩
  -- going on is no call
  intro k' s' hpush
  have hlen := congrArg (fun w => w.trace.length) hpush
  simp at hlen

theorem decided_once_accepted : ∃ c, DirectlyReachable Sample.host c
    ∧ isSet c.cur.state.audit_status [7] = true
    ∧ ¬ (isSet c.cur.state.audit_status [7] = true
      ∧ isSet c.cur.state.reject_status [7] = true)
    ∧ c.cur.state.events.countP (decides [7]) = verdicts c.cur.state [7] := by
  have hstart : DirectlyReachable Sample.host Sample.start :=
    ⟨100, Sample.installed Sample.host, Sample.installed_host, .refl⟩
  have hcall : (match body Sample.host 100 ⟨Sample.ctx Sample.host.owner 9, .acceptScore [7]⟩
      (Sample.installed Sample.host) with | .call .. => true | _ => false) = true := by
    decide +kernel
  cases ho : body Sample.host 100 ⟨Sample.ctx Sample.host.owner 9, .acceptScore [7]⟩
      (Sample.installed Sample.host) with
  | done a s => simp [ho] at hcall
  | abort e => simp [ho] at hcall
  | call r s g =>
      obtain ⟨txHash, hm, hc⟩ := hstart.accept ho
      obtain rfl := Method.acceptScore.inj hm
      exact ⟨_, hc, isSet_set_self .., decided_once rfl hc [7]⟩

end Governance
