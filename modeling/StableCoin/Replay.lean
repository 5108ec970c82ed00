import StableCoin.EventLog

/-!
# Replaying the event log

Replayed in the order of emission, the log gives every account its balance,
less what transfers in flight have credited to it and plus what they have
debited (`replay_log`). A contract that pays on what it was just sent, from
within its callback, therefore goes below zero in the replay: its payment is
logged before the transfer that funded it. In runs where nobody does that
(`Calm`) no replayed balance is ever negative.
-/

namespace StableCoin

open Reentrancy Journal

/-- A call moves nothing out of an account to which a transfer is in flight. -/
def Calm (_ : Int) (_ : Snapshot Int Call World)
    (fs : List (Frame Abort Fallback Int Call World)) (k : Call) : Prop :=
  ∀ m ∈ k.method.moves k.caller, ∀ m' ∈ owed fs, m'.dst ≠ m.src

/-- Reached by a run of calm calls. -/
def CalmlyReachable (c : Network) : Prop :=
  ∃ now w, Deployment w ∧ StepsIn body Calm ⟨now, ⟨w, []⟩, []⟩ c

/-- What a call moves out of an account is there. -/
theorem Effect.outflow_le {now : Int} {s s' : Storage} {c : Address} {m : Method}
    {evs : List Event} {fee : Int} (hs : Solvent s) (h : Effect now s c m s' evs fee)
    {a : Address} (ha : a ≠ EOA_ZERO) : outflow a (m.moves c) ≤ balanceOf s a := by
  have hnonneg := hs.balanced.nonneg a
  simp only [books] at hnonneg
  cases h with
  | @transfer dst value data limit hl hv hb hd hp =>
      by_cases hca : c = a
      · subst hca
        simpa [Method.moves] using hb
      · simpa [Method.moves, hca] using hnonneg
  | mint hm =>
      simpa [Method.moves_of_minting hm, Ne.symm ha] using hnonneg
  | @burn value hc hv hb hp =>
      by_cases hca : c = a
      · subst hca
        simpa [Method.moves] using hb
      · simpa [Method.moves, hca] using hnonneg
  | _ => simpa [Method.moves] using hnonneg

theorem Effect.moves_pos {now : Int} {s s' : Storage} {c : Address} {m : Method}
    {evs : List Event} {fee : Int} (h : Effect now s c m s' evs fee) :
    ∀ k ∈ m.moves c, 0 < k.amount := by
  intro k hk
  cases h with
  | transfer _ hv =>
      obtain rfl := List.mem_singleton.mp hk
      exact hv
  | mint hm _ hv =>
      rw [Method.moves_of_minting hm] at hk
      obtain rfl := List.mem_singleton.mp hk
      exact hv
  | burn _ hv =>
      obtain rfl := List.mem_singleton.mp hk
      exact hv
  | _ => cases hk

/-! ## Where a replay stands -/

theorem Booked.replay_eq {w : World} {l : List (Move Address Int)} (h : Booked w l)
    {a : Address} (ha : a ≠ EOA_ZERO) :
    replay EOA_ZERO (moves w.events) a
      = balanceOf w.storage a - inflow a l + outflow a l := by
  rw [replay_apply ha, h.balance a ha]
  omega

theorem Booked.replay_nonneg {w : World} {l : List (Move Address Int)} (h : Booked w l)
    {a : Address} (hin : inflow a l ≤ balanceOf w.storage a) :
    0 ≤ replay EOA_ZERO (moves w.events) a := by
  by_cases ha : a = EOA_ZERO
  · subst ha
    exact (replay_outside EOA_ZERO _).ge
  · have hout : 0 ≤ outflow a l := outflow_nonneg (fun m hm => (h.inside m hm).2.2.le) a
    rw [h.replay_eq ha]
    omega

/-! ## Calm runs -/

/-- In a calm run no account counts on a transfer in flight, and no prefix of
the log replays to a negative balance. -/
structure Steady (w : World) (l : List (Move Address Int)) : Prop where
  booked : Booked w l
  covered : ∀ a, inflow a l ≤ balanceOf w.storage a
  past : ∀ p, p <+: moves w.events → ∀ a, 0 ≤ replay EOA_ZERO p a

/-- At most one more move was logged, and it leaves no replayed balance
negative. -/
theorem Steady.past_append {w : World} {l ms : List (Move Address Int)}
    (h : Steady w l) (hlen : ms.length ≤ 1)
    (hnew : ∀ a, 0 ≤ replay EOA_ZERO (moves w.events ++ ms) a) :
    ∀ p, p <+: moves w.events ++ ms → ∀ a, 0 ≤ replay EOA_ZERO p a := by
  intro p hp
  rcases ms with _ | ⟨m, _ | ⟨m', ms⟩⟩
  · exact h.past p (by simpa using hp)
  · rcases List.prefix_concat_iff.mp hp with rfl | hp
    · exact hnew
    · exact h.past p hp
  · simp at hlen

theorem Method.moves_length (m : Method) (c : Address) : (m.moves c).length ≤ 1 := by
  cases m <;> simp [Method.moves]

theorem Steady.effect {now : Int} {w : World} {l : List (Move Address Int)} {c : Address}
    {m : Method} {s' : Storage} {evs : List Event} {fee : Int} (h : Steady w l)
    (hcalm : ∀ k ∈ m.moves c, ∀ k' ∈ l, k'.dst ≠ k.src)
    (he : Effect now w.storage c m s' evs fee) :
    Steady ⟨s', w.events ++ evs, fee⟩ ((if m.callsBack then m.moves c else []) ++ l) := by
  have hbooked := h.booked.effect he
  have hcovered : ∀ a, inflow a ((if m.callsBack then m.moves c else []) ++ l)
      ≤ balanceOf s' a := by
    intro a
    by_cases ha : a = EOA_ZERO
    · subst ha
      rw [inflow_eq_zero fun k hk => (hbooked.inside k hk).2.1]
      exact hbooked.solvent.zero.ge
    · have hnew := congrFun (he.balanceOf_eq h.booked.solvent) a
      rw [foldl_post ha] at hnew
      have hle := he.outflow_le h.booked.solvent ha
      have hold := h.covered a
      have hin := inflow_nonneg (fun k hk => (he.moves_pos k hk).le) a
      -- an account that pays has nothing in flight to it
      have hone : inflow a l = 0 ∨ outflow a (m.moves c) = 0 := by
        by_cases hsrc : ∃ k ∈ m.moves c, k.src = a
        · obtain ⟨k, hk, rfl⟩ := hsrc
          exact Or.inl (inflow_eq_zero (hcalm k hk))
        · push Not at hsrc
          exact Or.inr (outflow_eq_zero hsrc)
      rw [inflow_append]
      by_cases hcb : m.callsBack = true
      · rw [if_pos hcb]
        omega
      · rw [if_neg hcb, inflow_nil]
        omega
  refine ⟨hbooked, hcovered, ?_⟩
  have hlen : (moves evs).length ≤ 1 := by
    rw [he.moves_eq]
    split
    · simp
    · exact m.moves_length c
  rw [moves_append]
  refine h.past_append hlen ?_
  intro a
  rw [← moves_append]
  exact hbooked.replay_nonneg (hcovered a)

theorem Steady.settle {w : World} {src dst : Address} {value : Int}
    {l : List (Move Address Int)} (h : Steady w (⟨src, dst, value⟩ :: l)) (data : Bytes) :
    Steady { w with events := w.events ++ [.Transfer src dst value data] } l := by
  have hbooked := h.booked.settle data
  have hcovered : ∀ a, inflow a l ≤ balanceOf w.storage a := by
    intro a
    obtain ⟨-, -, hpos⟩ := h.booked.inside _ (List.mem_cons_self ..)
    have hold := h.covered a
    rw [inflow_cons] at hold
    simp only at hold hpos
    split at hold <;> omega
  refine ⟨hbooked, hcovered, ?_⟩
  rw [moves_append]
  refine h.past_append (by simp [moves, Event.move]) ?_
  intro a
  rw [← moves_append]
  exact hbooked.replay_nonneg (hcovered a)

theorem steady_invariant : FlightInvariant body Calm
    fun _ w fs => Steady w.state (owed fs) :=
  flightInvariant_of (fun h => h.booked.deployed) (fun h hcalm he => h.effect hcalm he)
    fun data h => h.settle data

theorem CalmlyReachable.steady {c : Network} (h : CalmlyReachable c) :
    Steady c.cur.state (owed c.stack) := by
  obtain ⟨now, w, hw, hs⟩ := h
  obtain ⟨hf, hev⟩ := hw.fresh
  have hstart : Steady w [] := by
    refine ⟨hf.booked hev, fun a => (hf.balanceOf_eq a).ge, ?_⟩
    intro p hp a
    rw [hev, moves_nil, List.prefix_nil] at hp
    rw [hp]
    exact le_refl 0
  exact steady_invariant.reachable (w := ⟨w, []⟩) hstart hs

/-- **What the log replays to.** At every moment of every run, the events so
far replay to each account's balance, less the transfers to it that are in
flight and plus those from it; so a balance goes below zero only while a
transfer to the account is in flight. In a run in which no account pays or
burns while a transfer to it is in flight, no part of the log replays to a
negative balance. -/
theorem replay_log :
    (∀ c : Network, Reachable c →
      (∀ a, a ≠ EOA_ZERO → replay EOA_ZERO (moves c.cur.state.events) a
        = balanceOf c.cur.state.storage a - inflow a (owed c.stack)
          + outflow a (owed c.stack))
      ∧ ∀ a, (∀ m ∈ owed c.stack, m.dst ≠ a) →
        0 ≤ replay EOA_ZERO (moves c.cur.state.events) a)
    ∧ ∀ c, CalmlyReachable c → ∀ p, p <+: c.cur.state.events →
      ∀ a, 0 ≤ replay EOA_ZERO (moves p) a := by
  refine ⟨?_, ?_⟩
  · intro c h
    have hb := h.booked
    refine ⟨fun a ha => hb.replay_eq ha, ?_⟩
    intro a hno
    refine hb.replay_nonneg ?_
    rw [inflow_eq_zero hno]
    exact hb.solvent.balanced.nonneg a
  · intro c h p hp a
    exact h.steady.past _ (hp.filterMap Event.move) a

/-! ## Samples -/

namespace Sample

theorem start_calm : CalmlyReachable start :=
  ⟨100, start.cur.state, ⟨"Coin", "C", 6, admin, 0, rfl⟩, .refl⟩

end Sample

/-- With nothing in flight every call is calm. -/
theorem CalmlyReachable.call {now : Int} {w : Snapshot Int Call World} {k : Call}
    {w' : World} (h : CalmlyReachable ⟨now, w, []⟩) (hk : body now k w.state = .done () w') :
    CalmlyReachable ⟨now, w.push now k w', []⟩ := by
  obtain ⟨now₀, w₀, hw, hs⟩ := h
  refine ⟨now₀, w₀, hw, hs.tail ⟨.run hk, ?_⟩⟩
  intro k' s _ m _ m' hm'
  cases hm'

theorem Sample.funded_calm : CalmlyReachable Sample.funded :=
  ((Sample.start_calm.call rfl).call rfl).call rfl

theorem replay_log_funded :
    replay EOA_ZERO (moves Sample.funded.cur.state.events) Sample.holder = 1000
    ∧ ∀ p, p <+: Sample.funded.cur.state.events →
      0 ≤ replay EOA_ZERO (moves p) Sample.holder := by
  refine ⟨?_, fun p hp => replay_log.2 _ Sample.funded_calm p hp Sample.holder⟩
  rw [(replay_log.1 _ Sample.funded_reachable).1 Sample.holder (by decide)]
  rfl

/-- A shop that pays back 4 while it is being paid 10 stands at -4 when its
payment is replayed. -/
theorem not_replay_nonneg : ¬ ∀ c, Reachable c → ∀ p, p <+: c.cur.state.events →
    ∀ a, 0 ≤ replay EOA_ZERO (moves p) a := by
  intro h
  let c := Sample.funded.run
    (.call ⟨Sample.holder, .transfer Sample.shop 10 none⟩ Sample.payBack .ret)
  have hshop := h c (Sample.funded_reachable.run _) (c.cur.state.events.take 6)
    (List.take_prefix ..) Sample.shop
  exact absurd hshop (by decide)

end StableCoin
