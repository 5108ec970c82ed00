import StableCoin.Coin
import StableCoin.Issuers
import StableCoin.Quota
import StableCoin.Supply

/-!
# The contract is a stable coin

The contract against its purpose: `Represents` says which `Coin` a storage
stands for, and every call does to the storage what its command does to the
coin - it is accepted exactly when the command is allowed, the storage then
stands for the coin the command leaves, and the fee share is given exactly
when the command was free. Since the accepted calls of a nested run form a
history, the whole run is a run of the coin, command by command.
-/

namespace StableCoin

open Reentrancy FixedWindow

/-! ## What a storage stands for -/

/-- The storage `s` stands for the coin `k`. -/
structure Represents (s : Storage) (k : Coin Address EOA_ZERO) : Prop
    extends Deployed s where
  admin_eq : s.admin = some k.admin
  paused_eq : s.paused = some (!k.running)
  cap : ∃ n, s.nIssuers = some n ∧ (intValue n).toNat = k.cap
  nodup : s.issuers.Nodup
  issuers : ∀ a, a ∈ s.issuers ↔ a ∈ k.issuers
  limit : s.freeDailyTxLimit = some (k.limit : Int)
  balance : balanceOf s = k.balance
  supply : totalSupply s = k.supply
  allowance : issuerAllowance s = k.allowance
  records : Records s
  term : (fun a => (s.whitelist a).term) = k.term

/-- The command that a call is for the coin. -/
def Call.command (k : Call) : Coin.Command Address :=
  match k.method with
  | .transfer dst value _ => .pay dst value
  | .changeFreeDailyTxLimit newLimit => .setLimit newLimit
  | .addIssuer issuer => .enlist issuer
  | .removeIssuer issuer => .dismiss issuer
  | .approve issuer value => .approve issuer value
  | .transferAdminRight newAdmin => .handOver newAdmin
  | .togglePause => .toggle
  | .mint value => .issue k.caller value
  | .mintTo dst value => .issue dst value
  | .burn value => .retire value
  | .update .. => .idle

theorem Call.command_of_minting {k : Call} {dst : Address} {value : Int}
    (h : k.method.minting k.caller = some (dst, value)) :
    k.command = .issue dst value := by
  obtain ⟨c, m⟩ := k
  cases m <;> cases h <;> rfl

namespace Represents

variable {now : Int} {s s' : Storage} {k : Coin Address EOA_ZERO} {c : Address}

theorem length_eq (h : Represents s k) : s.issuers.length = k.issuers.card := by
  rw [← List.toFinset_card_of_nodup h.nodup]
  congr 1
  ext a
  rw [List.mem_toFinset, h.issuers]

theorem running_iff (h : Represents s k) : s.paused = some false ↔ k.running = true := by
  rw [h.paused_eq]
  simp

theorem admin_iff (h : Represents s k) : s.admin = some c ↔ k.admin = c := by
  rw [h.admin_eq, Option.some.injEq]

/-- A new allowance of an account is a new allowance of the coin's. -/
theorem allowance_set (h : Represents s k) (a : Address) (v : Int) :
    (fun x => (s.allowances.set a v).getOrDefault x 0)
      = Function.update k.allowance a v := by
  funext x
  by_cases hx : x = a
  · subst hx
    simp
  · rw [Function.update_of_ne hx, DictDB.getOrDefault_set_of_ne _ hx, ← h.allowance]
    rfl

/-- A record that runs its limiter is a term that runs it. -/
theorem term_update (h : Represents s k) {a : Address} {f : FeeSharing → FeeSharing}
    {t : Term} (hf : (f (s.whitelist a)).term = some t) :
    (fun x => ((s.whitelist.update a f) x).term) = Function.update k.term a (some t) := by
  funext x
  by_cases hx : x = a
  · subst hx
    simp [hf]
  · rw [Function.update_of_ne hx, BranchDB.update_of_ne _ hx, ← h.term]

/-! ## One call -/

variable {m : Method} {evs : List Event} {fee : Int}

/-- **A call does what its command does.** What an accepted call leaves
stands for what its command leaves, and the fee share was given exactly when
the command was free. -/
theorem act (h : Represents s k) (he : Effect now s c m s' evs fee) :
    ∃ k' free, k.act TERM_LENGTH now c (Call.command ⟨c, m⟩) = some (k', free)
      ∧ Represents s' k' ∧ fee = if free then 100 else 0 := by
  have hrec := h.records.effect he
  have hdep := h.toDeployed.effect he
  cases he with
  | @transfer dst value data limit hl hv hb hd hp =>
      obtain rfl := Option.some.inj (hl.symm.trans h.limit)
      have hbal : value ≤ k.balance c := h.balance ▸ hb
      obtain ⟨hterm, hgrant⟩ := FeeSharing.charge_term now (k.limit : Int) (h.records c)
      rw [congrFun h.term c] at hterm hgrant
      have hguard := And.intro hv (And.intro hbal (And.intro hd (h.running_iff.mp hp)))
      refine ⟨_, _, dif_pos hguard, ?_, by rw [hgrant]⟩
      refine { h with
        toDeployed := hdep
        balance := ?_
        supply := h.supply.trans (k.supply_pay hv hbal hd).symm
        records := hrec
        term := h.term_update (f := fun r => (r.charge now k.limit).1) hterm }
      show (fun x => ((s.balances.debit c value).credit dst value).getOrDefault x 0) = _
      rw [DictDB.getOrDefault_move]
      exact congrArg (Ledger.move · c dst value) h.balance
  | @mint _ dst value hm hd hv hi hp ha =>
      have hal : value ≤ k.allowance c := h.allowance ▸ ha
      have hin : c ∈ k.issuers := (h.issuers c).mp hi
      have hguard := And.intro hv (And.intro hin (And.intro hd
        (And.intro (h.running_iff.mp hp) hal)))
      have hseed := FeeSharing.seed_term now (s.whitelist dst)
      rw [congrFun h.term dst] at hseed
      rw [Call.command_of_minting (k := ⟨c, m⟩) hm]
      refine ⟨_, _, dif_pos hguard, ?_, rfl⟩
      refine { h with
        toDeployed := hdep
        balance := ?_
        supply := ?_
        allowance := ?_
        records := hrec
        term := h.term_update hseed }
      · show (fun x => (s.balances.credit dst value).getOrDefault x 0) = _
        rw [DictDB.getOrDefault_credit]
        exact congrArg (Ledger.credit · dst value) h.balance
      · rw [k.supply_issue hv hin hd, ← h.supply]
        rfl
      · show (fun x => (s.allowances.debit c value).getOrDefault x 0) = _
        rw [DictDB.getOrDefault_debit]
        exact congrArg (Ledger.debit · c value) h.allowance
  | @burn value hc hv hb hp =>
      have hbal : value ≤ k.balance c := h.balance ▸ hb
      have hguard := And.intro hv (And.intro hbal (h.running_iff.mp hp))
      refine ⟨_, _, dif_pos hguard, ?_, rfl⟩
      refine { h with
        toDeployed := hdep
        balance := ?_
        supply := ?_ }
      · show (fun x => (s.balances.debit c value).getOrDefault x 0) = _
        rw [DictDB.getOrDefault_debit]
        exact congrArg (Ledger.debit · c value) h.balance
      · rw [k.supply_retire hv hbal, ← h.supply]
        rfl
  | @approve issuer value ha hi =>
      have hguard := And.intro (h.admin_iff.mp ha) ((h.issuers issuer).mp hi)
      exact ⟨_, _, dif_pos hguard, { h with allowance := h.allowance_set issuer value },
        rfl⟩
  | @addIssuer issuer n ha hi hn hlt =>
      obtain ⟨n', hn', hcap⟩ := h.cap
      obtain rfl := Option.some.inj (hn.symm.trans hn')
      have hin : issuer ∉ k.issuers := fun hin => hi ((h.issuers issuer).mpr hin)
      have hcard : k.issuers.card < k.cap := by
        rw [← h.length_eq]
        omega
      have hguard := And.intro (h.admin_iff.mp ha) (And.intro hin hcard)
      refine ⟨_, _, dif_pos hguard, ?_, rfl⟩
      refine { h with
        nodup := ?_
        issuers := ?_ }
      · rw [List.nodup_append_comm]
        exact List.nodup_cons.mpr ⟨hi, h.nodup⟩
      · intro a
        simp [Coin.enlist, h.issuers, or_comm]
  | @removeIssuer issuer ha hi =>
      have hguard := And.intro (h.admin_iff.mp ha) ((h.issuers issuer).mp hi)
      refine ⟨_, _, if_pos hguard, ?_, rfl⟩
      refine { h with
        nodup := SwapRemove.swapRemove_nodup h.nodup
        issuers := ?_
        allowance := h.allowance_set issuer 0 }
      intro a
      rw [SwapRemove.mem_swapRemove h.nodup hi, h.issuers]
      simp [Coin.dismiss, and_comm]
  | @changeFreeDailyTxLimit newLimit ha hl =>
      have hguard := And.intro (h.admin_iff.mp ha) hl
      exact ⟨_, _, if_pos hguard, { h with
        toDeployed := hdep
        limit := by rw [Int.toNat_of_nonneg hl] }, rfl⟩
  | transferAdminRight ha hn =>
      have hguard := And.intro (h.admin_iff.mp ha) hn
      exact ⟨_, _, if_pos hguard, { h with
        toDeployed := hdep
        admin_eq := rfl }, rfl⟩
  | togglePause ha hp =>
      obtain rfl := Option.some.inj (hp.symm.trans h.paused_eq)
      exact ⟨_, _, if_pos (h.admin_iff.mp ha), { h with
        toDeployed := hdep
        paused_eq := rfl }, rfl⟩
  | update => exact ⟨_, _, rfl, h, rfl⟩

/-- **Whatever the coin allows, the contract accepts.** -/
theorem effect (h : Represents s k) {k' : Coin Address EOA_ZERO} {free : Bool}
    (hact : k.act TERM_LENGTH now c (Call.command ⟨c, m⟩) = some (k', free)) :
    ∃ s' evs fee, Effect now s c m s' evs fee := by
  have hissue : ∀ {m dst value}, m.minting c = some (dst, value) →
      k.act TERM_LENGTH now c (.issue dst value) = some (k', free) →
      ∃ s' evs fee, Effect now s c m s' evs fee := by
    intro m dst value hm hact
    obtain ⟨⟨hv, hi, hd, hp, ha⟩, -⟩ := Option.dite_none_right_eq_some.mp hact
    exact ⟨_, _, _, .mint hm hd hv ((h.issuers c).mpr hi) (h.running_iff.mpr hp)
      (h.allowance ▸ ha)⟩
  cases m with
  | transfer dst value data =>
      obtain ⟨⟨hv, hb, hd, hp⟩, -⟩ := Option.dite_none_right_eq_some.mp hact
      exact ⟨_, _, _, .transfer h.limit hv (h.balance ▸ hb) hd (h.running_iff.mpr hp)⟩
  | changeFreeDailyTxLimit newLimit =>
      obtain ⟨⟨ha, hl⟩, -⟩ := Option.ite_none_right_eq_some.mp hact
      exact ⟨_, _, _, .changeFreeDailyTxLimit (h.admin_iff.mpr ha) hl⟩
  | addIssuer issuer =>
      obtain ⟨⟨ha, hi, hlt⟩, -⟩ := Option.dite_none_right_eq_some.mp hact
      obtain ⟨n, hn, hcap⟩ := h.cap
      rw [← h.length_eq] at hlt
      exact ⟨_, _, _, .addIssuer (h.admin_iff.mpr ha) (fun hin => hi ((h.issuers _).mp hin))
        hn (by omega)⟩
  | removeIssuer issuer =>
      obtain ⟨⟨ha, hi⟩, -⟩ := Option.ite_none_right_eq_some.mp hact
      exact ⟨_, _, _, .removeIssuer (h.admin_iff.mpr ha) ((h.issuers _).mpr hi)⟩
  | approve issuer value =>
      obtain ⟨⟨ha, hi⟩, -⟩ := Option.dite_none_right_eq_some.mp hact
      exact ⟨_, _, _, .approve (h.admin_iff.mpr ha) ((h.issuers _).mpr hi)⟩
  | transferAdminRight newAdmin =>
      obtain ⟨⟨ha, hn⟩, -⟩ := Option.ite_none_right_eq_some.mp hact
      exact ⟨_, _, _, .transferAdminRight (h.admin_iff.mpr ha) hn⟩
  | togglePause =>
      obtain ⟨ha, -⟩ := Option.ite_none_right_eq_some.mp hact
      exact ⟨_, _, _, .togglePause (h.admin_iff.mpr ha) h.paused_eq⟩
  | mint value => exact hissue rfl hact
  | mintTo dst value => exact hissue rfl hact
  | burn value =>
      obtain ⟨⟨hv, hb, hp⟩, -⟩ := Option.dite_none_right_eq_some.mp hact
      exact ⟨_, _, _, .burn (k.ne_void hv hb) hv (h.balance ▸ hb) (h.running_iff.mpr hp)⟩
  | update name symbol decimals admin nIssuers =>
      exact ⟨_, _, _, .update (Option.isSome_iff_ne_none.mp h.name)⟩

/-- The call and its command agree, whether they are refused or accepted. -/
theorem first_rel {w : World} (h : Represents w.storage k) (call : Call) :
    Option.Rel (fun w' p => Represents w'.storage p.1
        ∧ w'.feeSharing = if p.2 then 100 else 0)
      (body now call w).first (k.act TERM_LENGTH now call.caller call.command) := by
  cases hw : (body now call w).first with
  | some w' =>
      obtain ⟨s', evs, fee, he, rfl⟩ := Effect.of_first h.toDeployed hw
      obtain ⟨k', free, hact, hrep, hfee⟩ := h.act he
      rw [hact]
      exact .some ⟨hrep, hfee⟩
  | none =>
      cases hact : k.act TERM_LENGTH now call.caller call.command with
      | none => exact .none
      | some p =>
          obtain ⟨s', evs, fee, he⟩ := h.effect hact
          rw [he.first] at hw
          cases hw

end Represents

/-! ## Runs -/

theorem Fresh.represents {s : Storage} (h : Fresh s) :
    ∃ admin cap, Represents s (Coin.initial EOA_ZERO admin cap) := by
  obtain ⟨a, ha⟩ := Option.isSome_iff_exists.mp h.admin
  obtain ⟨n, hn, -⟩ := h.cap
  refine ⟨a, (intValue n).toNat, { h.toDeployed with
    admin_eq := ha
    paused_eq := h.running
    cap := ⟨n, hn, rfl⟩
    nodup := h.issuers ▸ .nil
    issuers := by simp [h.issuers, Coin.initial]
    limit := h.limit
    balance := funext h.balanceOf_eq
    supply := by simp [totalSupply, h.supply, Coin.supply, Coin.initial]
    allowance := funext h.issuerAllowance_eq
    records := h.records
    term := by simp [h.whitelist, FeeSharing.term, Coin.initial] }⟩

/-- The accepted calls of a run, as commands. -/
def commands (tr : List Receipt) : List (Int × Address × Coin.Command Address) :=
  tr.map fun e => (e.now, e.call.caller, e.call.command)

theorem History.represents {s₀ s : Storage} {tr : List Receipt} (h : History s₀ tr s)
    {k₀ : Coin Address EOA_ZERO} (h₀ : Represents s₀ k₀) :
    ∃ k, k₀.run TERM_LENGTH (commands tr) = some k ∧ Represents s k := by
  induction h using History.receipts with
  | nil => exact ⟨k₀, rfl, h₀⟩
  | @next tr e evs h he _ _ ih =>
      obtain ⟨k, hrun, hrep⟩ := ih
      obtain ⟨k', free, hact, hrep', -⟩ := hrep.act he
      refine ⟨k', ?_, hrep'⟩
      rw [commands, List.map_append, List.map_singleton, Coin.run_snoc, ← commands, hrun]
      simp [hact]

/-- **The contract is a stable coin.** In every reachable configuration the
accepted calls are a run of a coin from its deployment, the storage stands
for the coin this run leads to, and whatever is called next - at top level
or inside a callback - does what its command does to that coin, or is
refused with it; what is left of a call in flight does nothing to it. -/
theorem refines_coin {c : Network} (h : Reachable c) : ∃ admin cap k,
    (Coin.initial EOA_ZERO admin cap).run TERM_LENGTH (commands c.cur.trace) = some k
    ∧ Represents c.cur.state.storage k
    ∧ (∀ call, Option.Rel
      (fun w p => Represents w.storage p.1 ∧ w.feeSharing = if p.2 then 100 else 0)
      (body c.now call c.cur.state).first
      (k.act TERM_LENGTH c.now call.caller call.command))
    ∧ ∀ f ∈ c.stack, ∀ g, f.resume = some g → ∀ w,
      (g c.cur.state).first = some w → Represents w.storage k := by
  obtain ⟨s₀, hf, hist, -⟩ := h.history
  obtain ⟨admin, cap, h₀⟩ := hf.represents
  obtain ⟨k, hrun, hrep⟩ := hist.represents h₀
  refine ⟨admin, cap, k, hrun, hrep, hrep.first_rel, ?_⟩
  intro f hfs g hg w hw
  rw [h.rest hfs hg hw]
  exact hrep

theorem refines_coin_paid : ∃ k : Coin Address EOA_ZERO,
    Represents Sample.paid.cur.state.storage k ∧ k.supply = 1000
      ∧ k.balance Sample.payee = 30 ∧ k.issuers = {Sample.admin} := by
  obtain ⟨-, -, k, -, hrep, -⟩ := refines_coin Sample.paid_reachable
  refine ⟨k, hrep, hrep.supply.symm, ?_, ?_⟩
  · rw [← hrep.balance]
    rfl
  · ext a
    rw [← hrep.issuers]
    exact Iff.trans List.mem_singleton Finset.mem_singleton.symm

end StableCoin
