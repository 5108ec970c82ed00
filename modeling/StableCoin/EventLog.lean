import StableCoin.Flight
import StableCoin.Journal
import StableCoin.Supply

/-!
# The event log as a journal

The `Transfer` events of a run are a journal of its ledger, with the zero
address as the outside. Storage and log are written at different moments -
a transfer to a contract logs only after its callback - so they agree up to
what the calls in flight have booked and not logged yet: `Booked` is that
law, and between transactions nothing is in flight.
-/

namespace StableCoin

open Reentrancy Journal

/-! ## Logs -/

/-- The move that a `Transfer` event reports. -/
def Event.move : Event → Option (Move Address Int)
  | .Transfer src dst value _ => some ⟨src, dst, value⟩
  | _ => none

/-- The journal in a log: its `Transfer` events. -/
def moves (evs : List Event) : List (Move Address Int) := evs.filterMap Event.move

@[simp] theorem moves_nil : moves [] = [] := rfl

@[simp] theorem moves_append (evs evs' : List Event) :
    moves (evs ++ evs') = moves evs ++ moves evs' := List.filterMap_append

/-- Account and amount of the moves out of the zero address. -/
def created (l : List (Move Address Int)) : List (Address × Int) :=
  l.filterMap fun m => if m.src = EOA_ZERO then some (m.dst, m.amount) else none

/-- Account and amount of the moves to the zero address. -/
def destroyed (l : List (Move Address Int)) : List (Address × Int) :=
  l.filterMap fun m => if m.dst = EOA_ZERO then some (m.src, m.amount) else none

theorem created_singleton (m : Move Address Int) :
    created [m] = if m.src = EOA_ZERO then [(m.dst, m.amount)] else [] := by
  by_cases h : m.src = EOA_ZERO <;> simp [created, h]

theorem destroyed_singleton (m : Move Address Int) :
    destroyed [m] = if m.dst = EOA_ZERO then [(m.src, m.amount)] else [] := by
  by_cases h : m.dst = EOA_ZERO <;> simp [destroyed, h]

theorem created_append (l l' : List (Move Address Int)) :
    created (l ++ l') = created l ++ created l' := List.filterMap_append

theorem destroyed_append (l l' : List (Move Address Int)) :
    destroyed (l ++ l') = destroyed l ++ destroyed l' := List.filterMap_append

def Event.mint : Event → Option (Address × Int)
  | .Mint dst value => some (dst, value)
  | _ => none

def Event.burn : Event → Option (Address × Int)
  | .Burn src value => some (src, value)
  | _ => none

/-! ## What a call moves -/

/-- What a call by `c` moves when it is accepted. -/
def Method.moves (c : Address) : Method → List (Move Address Int)
  | .transfer dst value _ => [⟨c, dst, value⟩]
  | .mint value => [⟨EOA_ZERO, c, value⟩]
  | .mintTo dst value => [⟨EOA_ZERO, dst, value⟩]
  | .burn value => [⟨c, EOA_ZERO, value⟩]
  | _ => []

theorem Method.moves_of_minting {c dst : Address} {value : Int} {m : Method}
    (h : m.minting c = some (dst, value)) : m.moves c = [⟨EOA_ZERO, dst, value⟩] := by
  cases m with
  | mint v => cases h; rfl
  | mintTo d v => cases h; rfl
  | _ => cases h

theorem Method.callsBack_of_minting {c : Address} {m : Method} {p : Address × Int}
    (h : m.minting c = some p) : m.callsBack = false := by
  cases m with
  | transfer => cases h
  | _ => rfl

section

variable {now : Int} {s s' : Storage} {c : Address} {m : Method}
  {evs : List Event} {fee : Int}

/-- **Every call books its moves.** -/
theorem Effect.balanceOf_eq (hs : Solvent s) (h : Effect now s c m s' evs fee) :
    balanceOf s' = (m.moves c).foldl (post EOA_ZERO) (balanceOf s) := by
  cases h with
  | @transfer dst value data limit hl hv hb hd hp =>
      have hc := hs.ne_zero hv hb
      show (fun x => ((s.balances.debit c value).credit dst value).getOrDefault x 0) = _
      rw [DictDB.getOrDefault_move]
      simp [Method.moves, post, hc, hd]
      rfl
  | @mint m dst value hm hd hv hi hp ha =>
      show (fun x => (s.balances.credit dst value).getOrDefault x 0) = _
      rw [DictDB.getOrDefault_credit, Method.moves_of_minting hm]
      simp [post, hd]
      rfl
  | @burn value hc hv hb hp =>
      show (fun x => (s.balances.debit c value).getOrDefault x 0) = _
      rw [DictDB.getOrDefault_debit]
      simp [Method.moves, post, hc]
      rfl
  | _ => rfl

theorem Effect.totalSupply_eq (hs : Solvent s) (h : Effect now s c m s' evs fee) :
    totalSupply s' = totalSupply s + outflow EOA_ZERO (m.moves c)
      - inflow EOA_ZERO (m.moves c) := by
  cases h with
  | @transfer dst value data limit hl hv hb hd hp =>
      simp [Method.moves, totalSupply, hs.ne_zero hv hb, hd]
  | @mint m dst value hm hd hv hi hp ha =>
      simp [Method.moves_of_minting hm, totalSupply, hd]
  | @burn value hc hv hb hp => simp [Method.moves, totalSupply, hc]
  | _ => simp [Method.moves, totalSupply]

/-- A call logs its moves at once unless it calls back. -/
theorem Effect.moves_eq (h : Effect now s c m s' evs fee) :
    StableCoin.moves evs = if m.callsBack then [] else m.moves c := by
  cases h with
  | @transfer dst value data limit hl hv hb hd hp =>
      by_cases hc : dst.isContract <;>
        simp [Method.callsBack, Method.moves, StableCoin.moves, Event.move, hc]
  | @mint m dst value hm hd hv hi hp ha =>
      rw [Method.callsBack_of_minting hm, Method.moves_of_minting hm]
      split <;> rfl
  | _ => rfl

/-- Every creation is logged as a mint, every destruction as a burn. -/
theorem Effect.mints_eq (hs : Solvent s) (h : Effect now s c m s' evs fee) :
    created (StableCoin.moves evs) = evs.filterMap Event.mint
    ∧ destroyed (StableCoin.moves evs) = evs.filterMap Event.burn := by
  cases h with
  | @transfer dst value data limit hl hv hb hd hp =>
      have hc := hs.ne_zero hv hb
      split
      · exact ⟨rfl, rfl⟩
      · exact ⟨(created_singleton _).trans (if_neg hc),
          (destroyed_singleton _).trans (if_neg hd)⟩
  | @mint m dst value hm hd hv hi hp ha =>
      -- the announcement of a new record is no move
      have hcreated := (created_singleton ⟨EOA_ZERO, dst, value⟩).trans (if_pos rfl)
      have hdestroyed := (destroyed_singleton ⟨EOA_ZERO, dst, value⟩).trans (if_neg hd)
      split
      · exact ⟨hcreated, hdestroyed⟩
      · exact ⟨hcreated, hdestroyed⟩
  | @burn value hc hv hb hp =>
      exact ⟨(created_singleton _).trans (if_neg hc),
        (destroyed_singleton _).trans (if_pos rfl)⟩
  | _ => exact ⟨rfl, rfl⟩

end

/-- A call that ends at once does not call back. -/
theorem callsBack_of_done {now : Int} {k : Call} {w w' : World}
    (hd : Deployed w.storage) (h : body now k w = .done () w') :
    k.method.callsBack = false := by
  obtain ⟨c, m⟩ := k
  cases m with
  | transfer dst value data =>
      obtain ⟨limit, hl⟩ := Option.isSome_iff_exists.mp hd.freeDailyTxLimit
      rw [body_apply, external, transfer, Program.bind_apply,
        setFeeSharingPercentage_apply (w := { w with feeSharing := 0 }) hl,
        Outcome.bind_done] at h
      exact _transfer_done h
  | _ => rfl

/-! ## In flight -/

/-- What a frame in flight will still log: its rest, run on an empty log. -/
def owedBy (f : Frame Abort Fallback Int Call World) : List Event :=
  match f.resume with
  | none => []
  | some g =>
      match g ⟨Storage.empty, [], 0⟩ with
      | .done _ w => w.events
      | _ => []

/-- The moves that the frames in flight have booked and will still log. -/
def owed (fs : List (Frame Abort Fallback Int Call World)) : List (Move Address Int) :=
  moves (fs.flatMap owedBy)

/-- Storage and log agree, up to the moves `l` that are booked and not logged
yet: none of these touches the zero address. -/
structure Booked (w : World) (l : List (Move Address Int)) : Prop where
  deployed : Deployed w.storage
  solvent : Solvent w.storage
  inside : ∀ m ∈ l, m.src ≠ EOA_ZERO ∧ m.dst ≠ EOA_ZERO ∧ 0 < m.amount
  balance : ∀ a, a ≠ EOA_ZERO → balanceOf w.storage a
    = inflow a (moves w.events) + inflow a l - outflow a (moves w.events) - outflow a l
  supply : totalSupply w.storage
    = outflow EOA_ZERO (moves w.events) - inflow EOA_ZERO (moves w.events)
  minted : created (moves w.events) = w.events.filterMap Event.mint
  burned : destroyed (moves w.events) = w.events.filterMap Event.burn

/-- What a call books before its callback stays inside. -/
theorem Effect.inside_of_callsBack {now : Int} {s s' : Storage} {c : Address}
    {m : Method} {evs : List Event} {fee : Int} (hs : Solvent s)
    (h : Effect now s c m s' evs fee) (hm : m.callsBack = true) :
    ∀ k ∈ m.moves c, k.src ≠ EOA_ZERO ∧ k.dst ≠ EOA_ZERO ∧ 0 < k.amount := by
  intro k hk
  cases h with
  | transfer _ hv hb hd _ =>
      obtain rfl := List.mem_singleton.mp hk
      exact ⟨hs.ne_zero hv hb, hd, hv⟩
  | mint hmint => simp [Method.callsBack_of_minting hmint] at hm
  | _ => cases hm

theorem Booked.effect {now : Int} {w : World} {l : List (Move Address Int)} {c : Address}
    {m : Method} {s' : Storage} {evs : List Event} {fee : Int} (h : Booked w l)
    (he : Effect now w.storage c m s' evs fee) :
    Booked ⟨s', w.events ++ evs, fee⟩ ((if m.callsBack then m.moves c else []) ++ l) := by
  have hinside := he.inside_of_callsBack h.solvent
  obtain ⟨hmint, hburn⟩ := he.mints_eq h.solvent
  have hmoves := he.moves_eq
  refine ⟨h.deployed.effect he, h.solvent.effect he, ?_, ?_, ?_, ?_, ?_⟩
  · intro k hk
    rcases List.mem_append.mp hk with hk | hk
    · split at hk
      · exact hinside ‹_› k hk
      · cases hk
    · exact h.inside k hk
  · intro a ha
    have hbal := h.balance a ha
    have hpost := congrFun (he.balanceOf_eq h.solvent) a
    rw [foldl_post ha] at hpost
    simp only [moves_append, inflow_append, outflow_append, hmoves]
    split <;> simp only [inflow_nil, outflow_nil] <;> omega
  · have hsup := h.supply
    have htot := he.totalSupply_eq h.solvent
    simp only [moves_append, inflow_append, outflow_append, hmoves]
    split
    · have hin := hinside ‹_›
      rw [outflow_eq_zero fun k hk => (hin k hk).1,
        inflow_eq_zero fun k hk => (hin k hk).2.1] at htot
      simp only [inflow_nil, outflow_nil]
      omega
    · omega
  · simp only [moves_append, created_append, List.filterMap_append, h.minted, hmint]
  · simp only [moves_append, destroyed_append, List.filterMap_append, h.burned, hburn]

/-- A call in flight that goes on logs the move it had booked. -/
theorem Booked.settle {w : World} {src dst : Address} {value : Int}
    {l : List (Move Address Int)} (h : Booked w (⟨src, dst, value⟩ :: l)) (data : Bytes) :
    Booked { w with events := w.events ++ [.Transfer src dst value data] } l := by
  obtain ⟨hsrc, hdst, -⟩ := h.inside _ (List.mem_cons_self ..)
  simp only at hsrc hdst
  have hmoves : moves [.Transfer src dst value data] = [⟨src, dst, value⟩] := rfl
  refine ⟨h.deployed, h.solvent, fun k hk => h.inside k (List.mem_cons_of_mem _ hk),
    ?_, ?_, ?_, ?_⟩
  · intro a ha
    have hbal := h.balance a ha
    simp only [inflow_cons, outflow_cons] at hbal
    simp only [moves_append, hmoves, inflow_append, outflow_append, inflow_cons,
      outflow_cons, inflow_nil, outflow_nil]
    omega
  · have hsup := h.supply
    simp only [moves_append, hmoves, inflow_append, outflow_append, inflow_cons,
      outflow_cons, inflow_nil, outflow_nil, if_neg hsrc, if_neg hdst]
    omega
  · have hcreated : created [⟨src, dst, value⟩] = [] := by
      rw [created_singleton, if_neg hsrc]
    simp only [moves_append, hmoves, created_append, hcreated, List.filterMap_append,
      h.minted]
    rfl
  · have hdestroyed : destroyed [⟨src, dst, value⟩] = [] := by
      rw [destroyed_singleton, if_neg hdst]
    simp only [moves_append, hmoves, destroyed_append, hdestroyed,
      List.filterMap_append, h.burned]
    rfl

/-- **The rule for laws about what is in flight.** A law of the contract's
world and the moves in flight, kept when a call books its moves and when one
that called back logs them, is an invariant. -/
theorem flightInvariant_of {L : World → List (Move Address Int) → Prop}
    {G : Int → Snapshot Int Call World → List (Frame Abort Fallback Int Call World) →
      Call → Prop}
    (deployed : ∀ {w l}, L w l → Deployed w.storage)
    (effect : ∀ {now w fs k s' evs fee}, L w.state (owed fs) → G now w fs k →
      Effect now w.state.storage k.caller k.method s' evs fee →
      L ⟨s', w.state.events ++ evs, fee⟩
        ((if k.method.callsBack then k.method.moves k.caller else []) ++ owed fs))
    (settle : ∀ {w src dst value l} (data : Bytes), L w (⟨src, dst, value⟩ :: l) →
      L { w with events := w.events ++ [.Transfer src dst value data] } l) :
    FlightInvariant body G fun _ w fs => L w.state (owed fs) where
  tick _ h := h
  run h hG hb := by
    have hd := deployed h
    obtain ⟨s', evs, fee, he, rfl⟩ := Effect.of_first hd (Outcome.first_of_done hb)
    simpa [callsBack_of_done hd hb] using effect h hG he
  suspend h hG hb := by
    obtain ⟨s', evs, fee, he, rfl⟩ :=
      Effect.of_first (deployed h) (Outcome.first_of_call hb)
    obtain ⟨dst, value, data, hm, hc, -, rfl⟩ := body_call hb
    have hnew := effect h hG he
    simp only [hm, Method.callsBack, hc, Method.moves, if_true] at hnew
    exact hnew
  enter h := h
  leave h := h
  resume h hg hb := by
    obtain ⟨src, dst, value, data, rfl⟩ := resumption_eq hg
    cases hb
    exact settle data h
  again _ hg hb := by
    obtain ⟨src, dst, value, data, rfl⟩ := resumption_eq hg
    cases hb

/-- **Storage and log agree up to what is in flight.** -/
theorem booked_invariant : FlightInvariant body (fun _ _ _ _ => True)
    fun _ w fs => Booked w.state (owed fs) :=
  flightInvariant_of Booked.deployed (fun h _ he => h.effect he) fun data h => h.settle data

theorem Fresh.booked {w : World} (h : Fresh w.storage) (hw : w.events = []) :
    Booked w [] where
  deployed := h.toDeployed
  solvent := h.solvent
  inside := by simp
  balance a _ := by simp [h.balanceOf_eq, hw]
  supply := by simp [totalSupply, h.supply, hw]
  minted := by simp [hw, created]
  burned := by simp [hw, destroyed]

theorem Reachable.booked {c : Network} (h : Reachable c) :
    Booked c.cur.state (owed c.stack) := by
  obtain ⟨now, w, hw, hs⟩ := h
  obtain ⟨hf, hev⟩ := hw.fresh
  exact booked_invariant.reachable (w := ⟨w, []⟩) (hf.booked hev) hs.stepsIn

/-- **The log accounts for the ledger.** Between transactions every balance is
what the `Transfer` events moved to the account less what they moved from it,
the supply what they moved out of the zero address less what they moved to it;
and these are one by one the mints and the burns. -/
theorem balanceOf_eq_log {c : Network} (h : Reachable c) (hc : c.stack = []) :
    (∀ a, a ≠ EOA_ZERO → balanceOf c.cur.state.storage a
      = inflow a (moves c.cur.state.events) - outflow a (moves c.cur.state.events))
    ∧ totalSupply c.cur.state.storage
      = outflow EOA_ZERO (moves c.cur.state.events)
        - inflow EOA_ZERO (moves c.cur.state.events)
    ∧ created (moves c.cur.state.events) = c.cur.state.events.filterMap Event.mint
    ∧ destroyed (moves c.cur.state.events) = c.cur.state.events.filterMap Event.burn := by
  have hb := h.booked
  rw [hc] at hb
  refine ⟨?_, hb.supply, hb.minted, hb.burned⟩
  intro a ha
  have hbal := hb.balance a ha
  simpa [owed] using hbal

theorem balanceOf_eq_log_funded :
    balanceOf Sample.funded.cur.state.storage Sample.holder = 1000 - 0
    ∧ [(Sample.holder, 1000)] = Sample.funded.cur.state.events.filterMap Event.mint := by
  obtain ⟨hbal, -, hmint, -⟩ := balanceOf_eq_log Sample.funded_reachable rfl
  exact ⟨hbal Sample.holder (by decide), hmint⟩

end StableCoin
