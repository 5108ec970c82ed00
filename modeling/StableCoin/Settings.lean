import StableCoin.EventSourcing
import StableCoin.Run

/-!
# The settings are in the log

Who the admin is, who the issuers are and in which order, whether the
contract is paused and how many transfers are free: all of it can be
rebuilt from the event log, at every moment of a run, also while calls are
in flight. The log can be trusted on the way: an event that only the admin
may cause names as its author the account that the events before it made
the admin, and nothing is minted, burned or whitelisted in a stretch that
the log shows as paused.
-/

namespace StableCoin

open Reentrancy EventSourcing

/-! ## Settings -/

/-- What the admin sets, allowances apart. -/
structure Settings where
  admin : VarDB Address
  issuers : ArrayDB Address
  paused : VarDB Bool
  freeDailyTxLimit : VarDB Int

def Storage.settings (s : Storage) : Settings :=
  ⟨s.admin, s.issuers, s.paused, s.freeDailyTxLimit⟩

namespace Settings

/-- The settings of a contract that was deployed for the admin `a`. -/
def initial (a : Address) : Settings := ⟨some a, [], some false, some 50⟩

/-- What an event says of the settings after it. -/
def evolve (t : Settings) : Event → Settings
  | .AddIssuer _ issuer => { t with issuers := t.issuers ++ [issuer] }
  | .RemoveIssuer _ issuer _ =>
      { t with issuers := SwapRemove.swapRemove issuer t.issuers }
  | .TransferAdmin _ newAdmin => { t with admin := some newAdmin }
  | .TogglePause _ status => { t with paused := some status }
  | .DailyTransactionLimit _ limit => { t with freeDailyTxLimit := some limit }
  | _ => t

/-- What an event says of the settings before it. A `Transfer` says nothing:
it is logged after the callback, which may have changed anything. -/
def Allows (t : Settings) : Event → Prop
  | .AddIssuer caller issuer => t.admin = some caller ∧ issuer ∉ t.issuers
  | .RemoveIssuer caller issuer _ => t.admin = some caller ∧ issuer ∈ t.issuers
  | .Approval src dst _ => t.admin = some src ∧ dst ∈ t.issuers
  | .TransferAdmin caller newAdmin => t.admin = some caller ∧ newAdmin ≠ EOA_ZERO
  | .TogglePause caller status => t.admin = some caller ∧ t.paused = some (!status)
  | .DailyTransactionLimit caller limit => t.admin = some caller ∧ 0 ≤ limit
  | .Mint dst value =>
      t.issuers ≠ [] ∧ t.paused = some false ∧ dst ≠ EOA_ZERO ∧ 0 < value
  | .Burn src value => t.paused = some false ∧ src ≠ EOA_ZERO ∧ 0 < value
  | .WhitelistWallet dst _ => t.paused = some false ∧ dst ≠ EOA_ZERO
  | .Transfer .. => True

end Settings

/-- The log of `w` leads from the settings `t₀` to those of `w`. -/
def Logged (t₀ : Settings) (w : World) : Prop :=
  Sourced Settings.evolve Settings.Allows t₀ w.events w.storage.settings

/-! ## One call -/

theorem Effect.sourced {now : Int} {s s' : Storage} {c : Address} {m : Method}
    {evs : List Event} {fee : Int} (h : Effect now s c m s' evs fee) :
    Sourced Settings.evolve Settings.Allows s.settings evs s'.settings := by
  cases h with
  | transfer =>
      split
      · exact .nil _
      · exact ⟨rfl, trivial, trivial⟩
  | mint _ hd hv hi hp =>
      have hmint : Settings.Allows s.settings (.Mint _ _) :=
        ⟨List.ne_nil_of_mem hi, hp, hd, hv⟩
      split
      · exact ⟨rfl, ⟨hp, hd⟩, trivial, hmint, trivial⟩
      · exact ⟨rfl, trivial, hmint, trivial⟩
  | burn hc hv _ hp => exact ⟨rfl, trivial, ⟨hp, hc, hv⟩, trivial⟩
  | changeFreeDailyTxLimit ha hl => exact ⟨rfl, ⟨ha, hl⟩, trivial⟩
  | addIssuer ha hi => exact ⟨rfl, ⟨ha, hi⟩, trivial⟩
  | removeIssuer ha hi => exact ⟨rfl, ⟨ha, hi⟩, trivial⟩
  | approve ha hi => exact ⟨rfl, ⟨ha, hi⟩, trivial⟩
  | transferAdminRight ha hn => exact ⟨rfl, ⟨ha, hn⟩, trivial⟩
  | togglePause ha hp => exact ⟨rfl, ⟨ha, by rw [Bool.not_not]; exact hp⟩, trivial⟩
  | update => exact .nil _

/-! ## Runs -/

theorem Deployment.settings {w : World} (h : Deployment w) :
    ∃ a, a ≠ EOA_ZERO ∧ w.storage.settings = .initial a := by
  obtain ⟨name, symbol, decimals, admin, nIssuers, h⟩ := h
  have hfirst : (constructor name symbol decimals admin nIssuers
      ⟨Storage.empty, [], 0⟩).first = some w := Outcome.first_of_done h
  simp [constructor, Storage.empty] at hfirst
  obtain ⟨-, -, -, -, ha, rfl⟩ := hfirst
  exact ⟨admin, ha, rfl⟩

/-- Every stretch of the contract's own code takes log and settings along
together. -/
theorem logged_invariant (t₀ : Settings) :
    Invariant body fun _ w => Deployed w.state.storage ∧ Logged t₀ w.state where
  tick _ h := h
  start := by
    rintro now k w v ⟨hd, hl⟩ h
    obtain ⟨s, evs, fee, he, rfl⟩ := Effect.of_first hd h
    exact ⟨hd.effect he, hl.append he.sourced⟩
  resume := by
    rintro now g w v ⟨hd, hl⟩ hg h
    obtain ⟨src, dst, value, data, rfl⟩ := resumption_eq hg
    obtain rfl := Option.some.inj h
    exact ⟨hd, hl.append ⟨rfl, trivial, trivial⟩⟩

/-- **The settings are in the log.** In every reachable configuration,
whatever is in flight, replaying the log from the settings of the deployment
gives the settings in force, and each event of the log is one that the
settings replayed so far allow. -/
theorem settings_logged {c : Network} (h : Reachable c) :
    ∃ a, a ≠ EOA_ZERO
      ∧ c.cur.state.events.foldl Settings.evolve (.initial a)
        = c.cur.state.storage.settings
      ∧ ∀ pre e post, c.cur.state.events = pre ++ e :: post →
        Settings.Allows (pre.foldl Settings.evolve (.initial a)) e := by
  obtain ⟨now, w, hw, hs⟩ := h
  obtain ⟨a, ha, hset⟩ := hw.settings
  have hstart : Logged (.initial a) w := by
    rw [Logged, hset, hw.fresh.2]
    exact .nil _
  obtain ⟨-, hlog⟩ := (logged_invariant (.initial a)).reachable
    (P := fun _ w => Deployed w.state.storage ∧ Logged (.initial a) w.state)
    ⟨hw.fresh.1.toDeployed, hstart⟩ hs
  exact ⟨a, ha, hlog.replay, fun pre e post hl => hlog.lawful.allows_at hl⟩

theorem settings_logged_funded : ∃ a, a ≠ EOA_ZERO
    ∧ Sample.funded.cur.state.events.foldl Settings.evolve (.initial a)
      = ⟨some Sample.admin, [Sample.admin], some false, some 50⟩ := by
  obtain ⟨a, ha, hreplay, -⟩ := settings_logged Sample.funded_reachable
  exact ⟨a, ha, hreplay⟩

end StableCoin
