import StableCoin.Supply
import StableCoin.View

/-!
# What the remaining-transactions view promises

`remainingFreeTxThisTerm` decides for itself whether an account's term has
run out, and compares the other way from `setFeeSharingPercentage`: at the
one height where a term ends the view still counts the old term, while a
transfer already starts a new one. Everywhere else what it reports is
exactly what the limiter has left (`quotaExact_iff`).
-/

namespace StableCoin

open Reentrancy FixedWindow

/-! ## The view -/

/-- What the view computes for an account with a record. -/
theorem remainingFreeTxThisTerm_eq_done {ctx : Context} {u : Address} {w : World}
    {start limit r : Int} (hs : w.storage.whitelist u START_HEIGHT = some start)
    (hl : w.storage.freeDailyTxLimit = some limit)
    (h : remainingFreeTxThisTerm ctx u w = .done r w) :
    start + TERM_LENGTH < ctx.blockHeight ∧ r = limit
      ∨ ctx.blockHeight ≤ start + TERM_LENGTH
        ∧ ∃ n, w.storage.whitelist u TXN_COUNT = some n ∧ r = limit - n := by
  rw [remainingFreeTxThisTerm_done_iff hl] at h
  simp only [FeeSharing.remaining, hs] at h
  split at h
  · exact Or.inl ⟨‹_›, (Option.some.inj h).symm⟩
  · obtain ⟨n, hn, rfl⟩ := Option.map_eq_some_iff.mp h
    exact Or.inr ⟨not_lt.mp ‹_›, n, hn, rfl⟩

/-- Off the last height of a term the view reports what the limiter has
left; at that height it reports less than the limit, all of which is left. -/
theorem view_left {ctx : Context} {u : Address} {w : World} {start limit r : Int}
    (hw : (w.storage.whitelist u).Wf)
    (hs : w.storage.whitelist u START_HEIGHT = some start)
    (hl : w.storage.freeDailyTxLimit = some limit)
    (h : remainingFreeTxThisTerm ctx u w = .done r w) :
    ∃ t, (w.storage.whitelist u).term = some t ∧ t.start = start
      ∧ (ctx.blockHeight ≠ start + TERM_LENGTH →
        r = left TERM_LENGTH ctx.blockHeight limit t)
      ∧ (ctx.blockHeight = start + TERM_LENGTH →
        r < limit ∧ left TERM_LENGTH ctx.blockHeight limit t = limit) := by
  refine ⟨_, FeeSharing.term_of_start hs, rfl, ?_⟩
  rcases remainingFreeTxThisTerm_eq_done hs hl h with ⟨hlt, rfl⟩ | ⟨hle, n, hn, rfl⟩
  · have hnot : ¬ ctx.blockHeight < start + TERM_LENGTH := by omega
    simp only [left, if_neg hnot]
    exact ⟨fun _ => trivial, fun heq => by omega⟩
  · have hpos := hw.counted n hn
    have hcount : (((w.storage.whitelist u).getOrDefault TXN_COUNT 0).toNat : Int) = n := by
      simp only [DictDB.getOrDefault, hn, Option.getD_some]
      omega
    simp only [left, hcount]
    constructor
    · intro hne
      rw [if_pos (by omega)]
    · intro heq
      rw [if_neg (by omega)]
      exact ⟨by omega, rfl⟩

/-! ## What transfers get -/

theorem charges_quotaLog (u : Address) (tr : List Receipt) :
    charges (quotaLog u tr) = (tr.filter (isTransferBy u)).map (chargeItem u) := by
  induction tr with
  | nil => rfl
  | cons e tr ih =>
      by_cases ht : isTransferBy u e = true
      · simp only [quotaLog, List.filterMap_cons, quotaItem_of_transfer ht,
          List.filter_cons_of_pos ht, List.map_cons, ← ih]
        rfl
      · rw [List.filter_cons_of_neg ht, ← ih, quotaLog, List.filterMap_cons]
        cases hi : quotaItem u e with
        | none => rfl
        | some i =>
            rcases quotaItem_cases hi with ⟨hu, -⟩ | ⟨-, hop⟩
            · exact absurd hu ht
            · simp [quotaLog, charges, hop]

/-- **What is left is what transfers get.** In a history at one height in
which nobody changes the limit, the first transfers of an account are
sponsored, as many as its term had left, and no later one. -/
theorem History.sponsored_iff_left {s s' : Storage} {tr : List Receipt}
    (h : History s tr s') (hw : Records s) {u : Address} {t : Term} {now limit : Int}
    (ht : (s.whitelist u).term = some t) (hl : limitOf s = limit) (hpos : 1 ≤ limit)
    (hnow : ∀ e ∈ tr, e.now = now)
    (hkeep : ∀ e ∈ tr, ∀ l, e.call.method ≠ .changeFreeDailyTxLimit l)
    {i : Nat} {e : Receipt} (he : (tr.filter (isTransferBy u))[i]? = some e) :
    sponsored u e = true ↔ (i : Int) < left TERM_LENGTH now limit t := by
  have hlog := h.log hw u
  rw [ht] at hlog
  have hlimit := (h.invariant_of_calls (P := fun s => limitOf s = limit)
    (Q := fun k => ∀ l, k.method ≠ .changeFreeDailyTxLimit l)
    (fun hm hs he => he.limitOf_eq hm ▸ hs) hl hkeep).2
  have hnow' : ∀ j ∈ quotaLog u tr, j.now = now := by
    intro j hj
    obtain ⟨d, hd, hdj⟩ := List.mem_filterMap.mp hj
    rw [now_of_quotaItem hdj, hnow d hd]
  have hlimit' : ∀ j ∈ quotaLog u tr, ∀ l, j.op = .charge l → l = limit := by
    intro j hj l hop
    obtain ⟨d, hd, hdj⟩ := List.mem_filterMap.mp hj
    rw [(limit_of_quotaItem hdj hop).2, (hlimit d hd).1]
  have hmem : e ∈ tr.filter (isTransferBy u) := List.mem_of_getElem? he
  obtain ⟨hin, hu⟩ := List.mem_filter.mp hmem
  have hcharge : (charges (quotaLog u tr))[i]? = some (chargeItem u e) := by
    rw [charges_quotaLog, List.getElem?_map, he]
    rfl
  rw [h.sponsored_eq hw u e hin, quotaItem_of_transfer hu]
  exact (hlog.granted_iff_left TERM_LENGTH_pos hpos hnow' hlimit').2 i _ hcharge

/-- The quota `r` reported for `u` is exact: whatever follows at the same
height, as long as nobody changes the limit, the first `r` transfers of `u`
are sponsored and no later one is. -/
def QuotaExact (c : Network) (u : Address) (r : Int) : Prop :=
  ∀ c' seg, Steps body c c' → c'.cur.trace = c.cur.trace ++ seg →
    (∀ e ∈ seg, e.now = c.now) →
    (∀ e ∈ seg, ∀ l, e.call.method ≠ .changeFreeDailyTxLimit l) →
    ∀ (i : Nat) e, (seg.filter (isTransferBy u))[i]? = some e →
      (sponsored u e = true ↔ (i : Int) < max 0 r)

/-! ## Transfers can always follow -/

/-- Some issuer could mint, or nothing has ever happened: no issuer, no
tokens, no records. -/
def Usable (s : Storage) : Prop :=
  ∃ n, s.nIssuers = some n ∧ (0 < intValue n ∨ s.issuers = []
    ∧ (∀ a, balanceOf s a = 0) ∧ ∀ a, s.whitelist a START_HEIGHT = none)

theorem Fresh.usable {s : Storage} (h : Fresh s) : Usable s := by
  obtain ⟨n, hn, -⟩ := h.cap
  refine ⟨n, hn, Or.inr ⟨h.issuers, h.balanceOf_eq, ?_⟩⟩
  intro a
  rw [h.whitelist]

theorem Usable.effect {now : Int} {s s' : Storage} {c : Address} {m : Method}
    {evs : List Event} {fee : Int} (h : Usable s)
    (he : Effect now s c m s' evs fee) : Usable s' := by
  rcases h with ⟨n, hn, hpos | ⟨hi, hb, hw⟩⟩
  · refine ⟨n, ?_, Or.inl hpos⟩
    cases he <;> exact hn
  · cases he with
    | transfer _ hv hle => exact absurd (hb c ▸ hle) hv.not_ge
    | burn _ hv hle => exact absurd (hb c ▸ hle) hv.not_ge
    | mint _ _ _ hin => simp [hi] at hin
    | removeIssuer _ hin => simp [hi] at hin
    | approve _ hin => simp [hi] at hin
    | @addIssuer issuer n' _ _ hn' hlt =>
        obtain rfl := Option.some.inj (hn.symm.trans hn')
        exact ⟨n, hn, Or.inl (by simpa [hi] using hlt)⟩
    | _ => exact ⟨n, hn, Or.inr ⟨hi, hb, hw⟩⟩

/-- The zero address has no record: it can neither pay nor be minted to. -/
def ZeroBlank (s : Storage) : Prop :=
  Solvent s ∧ s.whitelist EOA_ZERO START_HEIGHT = none

theorem ZeroBlank.effect {now : Int} {s s' : Storage} {c : Address} {m : Method}
    {evs : List Event} {fee : Int} (h : ZeroBlank s)
    (he : Effect now s c m s' evs fee) : ZeroBlank s' := by
  refine ⟨h.1.effect he, ?_⟩
  cases he with
  | @transfer dst value data limit hl hv hb hd hp =>
      have hc : EOA_ZERO ≠ c := by
        rintro rfl
        exact absurd (h.1.zero ▸ hb) hv.not_ge
      show (s.whitelist.update c fun r => (r.charge now limit).1) EOA_ZERO START_HEIGHT
        = none
      rw [BranchDB.update_of_ne _ hc]
      exact h.2
  | @mint _ dst value _ hd =>
      show (s.whitelist.update dst (·.seed now)) EOA_ZERO START_HEIGHT = none
      rw [BranchDB.update_of_ne _ (Ne.symm hd)]
      exact h.2
  | _ => exact h.2

/-- Calls that leave the limit alone. -/
def KeepsLimit (ks : List Call) : Prop :=
  ∀ k ∈ ks, ∀ l, k.method ≠ .changeFreeDailyTxLimit l

/-- The admin can always let the contract run, with one call at most. -/
theorem Reachable.exists_unpaused {c : Network} (h : Reachable c) :
    ∃ c' ks, Grows c ks c' ∧ ks.length ≤ 1
      ∧ (∀ k ∈ ks, k.method = .togglePause ∧ c.cur.state.storage.admin = some k.caller)
      ∧ c'.cur.state.storage = { c.cur.state.storage with paused := some false } := by
  obtain ⟨paused, hp⟩ := Option.isSome_iff_exists.mp h.deployed.paused
  obtain ⟨a, ha⟩ := Option.isSome_iff_exists.mp h.deployed.admin
  cases paused with
  | false => exact ⟨c, [], .refl c, by simp, by simp, by rw [← hp]⟩
  | true =>
      obtain ⟨c', hg, hs⟩ := h.accept (k := ⟨a, .togglePause⟩) (.togglePause ha hp)
      exact ⟨c', _, hg, by simp, by simp [ha], hs⟩

theorem Reachable.exists_running {c : Network} (h : Reachable c) :
    ∃ c' ks, Grows c ks c' ∧ KeepsLimit ks
      ∧ c'.cur.state.storage = { c.cur.state.storage with paused := some false } := by
  obtain ⟨c', ks, hg, -, hks, hs⟩ := h.exists_unpaused
  refine ⟨c', ks, hg, ?_, hs⟩
  intro k hk l
  simp [(hks k hk).1]

theorem KeepsLimit.append {ks ks' : List Call} (h : KeepsLimit ks)
    (h' : KeepsLimit ks') : KeepsLimit (ks ++ ks') := fun k hk =>
  (List.mem_append.mp hk).elim (h k) (h' k)

theorem Reachable.grow {c c' : Network} {ks : List Call} (h : Reachable c)
    (hg : Grows c ks c') : Reachable c' := h.steps hg.steps

/-- Once somebody could be an issuer, a running contract has one after at
most one more call. -/
theorem Reachable.exists_issuer {c : Network} (h : Reachable c)
    (hp : c.cur.state.storage.paused = some false) {n : Int}
    (hn : c.cur.state.storage.nIssuers = some n) (hpos : 0 < intValue n) :
    ∃ c' ks, Grows c ks c' ∧ KeepsLimit ks
      ∧ c'.cur.state.storage.paused = some false
      ∧ c'.cur.state.storage.issuers ≠ [] := by
  obtain ⟨a, ha⟩ := Option.isSome_iff_exists.mp h.deployed.admin
  by_cases hi : c.cur.state.storage.issuers = []
  · obtain ⟨c', hg, hs⟩ := h.accept (k := ⟨a, .addIssuer a⟩)
      (.addIssuer ha (by simp [hi]) hn (by simpa [hi] using hpos))
    exact ⟨c', _, hg, by simp [KeepsLimit], by rw [hs]; exact hp, by rw [hs]; simp⟩
  · exact ⟨c, [], .refl c, by simp [KeepsLimit], hp, hi⟩

/-- From any used contract a run leads, at the same height and limit, to one
that is running and in which the account `u` holds tokens. -/
theorem Reachable.exists_funded {c : Network} (h : Reachable c) {u : Address}
    {start : Int} (hu : c.cur.state.storage.whitelist u START_HEIGHT = some start) :
    u ≠ EOA_ZERO ∧ ∃ c' ks, Grows c ks c' ∧ KeepsLimit ks
      ∧ c'.cur.state.storage.paused = some false
      ∧ 1 ≤ balanceOf c'.cur.state.storage u := by
  rcases h.invariant Fresh.usable Usable.effect with ⟨n, hn, hpos | ⟨-, -, hblank⟩⟩
  swap
  · simp [hblank u] at hu
  have hzero : ZeroBlank c.cur.state.storage :=
    h.invariant (fun hf => ⟨hf.solvent, by rw [hf.whitelist]⟩) ZeroBlank.effect
  have hune : u ≠ EOA_ZERO := by
    rintro rfl
    simp [hzero.2] at hu
  obtain ⟨c₁, ks₁, hg₁, hk₁, hs₁⟩ := h.exists_running
  have h₁ := h.grow hg₁
  obtain ⟨c₂, ks₂, hg₂, hk₂, hp₂, hi₂⟩ := h₁.exists_issuer (by rw [hs₁])
    (n := n) (by rw [hs₁]; exact hn) hpos
  have h₂ := h₁.grow hg₂
  obtain ⟨x, hx⟩ := List.exists_mem_of_ne_nil _ hi₂
  obtain ⟨a, ha⟩ := Option.isSome_iff_exists.mp h₂.deployed.admin
  obtain ⟨c₃, hg₃, hs₃⟩ := h₂.accept (k := ⟨a, .approve x 1⟩) (.approve ha hx)
  have h₃ := h₂.grow hg₃
  have hsolv : Solvent c₃.cur.state.storage := h₃.invariant Fresh.solvent Solvent.effect
  have hbal := hsolv.balanced.nonneg u
  obtain ⟨c₄, hg₄, hs₄⟩ := h₃.accept (k := ⟨x, .mintTo u 1⟩)
    (.mint rfl hune (by decide) (by rw [hs₃]; exact hx) (by rw [hs₃]; exact hp₂)
      (by rw [hs₃]; simp [issuerAllowance]))
  refine ⟨hune, c₄, _, ((hg₁.trans hg₂).trans hg₃).trans hg₄,
    ((hk₁.append hk₂).append ?_).append ?_, ?_, ?_⟩
  · simp [KeepsLimit]
  · simp [KeepsLimit]
  · rw [hs₄, hs₃]
    exact hp₂
  · rw [hs₄]
    show 1 ≤ (c₃.cur.state.storage.balances.credit u 1).getOrDefault u 0
    simp only [DictDB.credit, DictDB.getOrDefault_set_self]
    have : (0 : Int) ≤ c₃.cur.state.storage.balances.getOrDefault u 0 := hbal
    omega

/-- The account `u` pays itself, `n` times. -/
theorem Reachable.exists_transfers {c : Network} (h : Reachable c) {u : Address}
    (hp : c.cur.state.storage.paused = some false) (hu : u ≠ EOA_ZERO)
    (hb : 1 ≤ balanceOf c.cur.state.storage u) (n : Nat) :
    ∃ c', Grows c (List.replicate n ⟨u, .transfer u 1 none⟩) c'
      ∧ c'.cur.state.storage.paused = some false
      ∧ 1 ≤ balanceOf c'.cur.state.storage u := by
  induction n with
  | zero => exact ⟨c, .refl c, hp, hb⟩
  | succ n ih =>
      obtain ⟨c₁, hg₁, hp₁, hb₁⟩ := ih
      have h₁ := h.grow hg₁
      obtain ⟨limit, hl⟩ := Option.isSome_iff_exists.mp h₁.deployed.freeDailyTxLimit
      obtain ⟨c₂, hg₂, hs₂⟩ := h₁.accept (k := ⟨u, .transfer u 1 none⟩)
        (.transfer hl (by decide) hb₁ hu hp₁)
      refine ⟨c₂, ?_, ?_, ?_⟩
      · rw [List.replicate_succ']
        exact hg₁.trans hg₂
      · rw [hs₂]
        exact hp₁
      · rw [hs₂]
        show 1 ≤ ((c₁.cur.state.storage.balances.debit u 1).credit u 1).getOrDefault u 0
        simp only [DictDB.credit, DictDB.debit, DictDB.getOrDefault_set_self]
        have : (1 : Int) ≤ c₁.cur.state.storage.balances.getOrDefault u 0 := hb₁
        omega

/-- A run with any number of transfers by `u` follows. -/
theorem Reachable.exists_segment {c : Network} (h : Reachable c) {u : Address}
    {start : Int} (hu : c.cur.state.storage.whitelist u START_HEIGHT = some start)
    (n : Nat) : ∃ c' seg, Steps body c c' ∧ c'.cur.trace = c.cur.trace ++ seg
      ∧ (∀ e ∈ seg, e.now = c.now)
      ∧ (∀ e ∈ seg, ∀ l, e.call.method ≠ .changeFreeDailyTxLimit l)
      ∧ n ≤ (seg.filter (isTransferBy u)).length := by
  obtain ⟨hune, c₁, ks, hg₁, hk₁, hp₁, hb₁⟩ := h.exists_funded hu
  obtain ⟨c₂, hg₂, -, -⟩ := (h.grow hg₁).exists_transfers hp₁ hune hb₁ n
  obtain ⟨hsteps, -, seg, htr, hks, hnow⟩ := hg₁.trans hg₂
  refine ⟨c₂, seg, hsteps, htr, hnow, ?_, ?_⟩
  · intro e he
    have hpay : KeepsLimit (List.replicate n ⟨u, .transfer u 1 none⟩) := by
      intro k hk l
      rw [List.eq_of_mem_replicate hk]
      simp
    have hkeep := hk₁.append hpay
    rw [← hks] at hkeep
    exact hkeep _ (List.mem_map_of_mem he)
  · have hcount : (seg.filter (isTransferBy u)).length
        = (seg.map Entry.call).countP fun k => k.caller = u && k.method.isTransfer := by
      rw [← List.countP_eq_length_filter, List.countP_map]
      rfl
    rw [hcount, hks, List.countP_append, List.countP_replicate]
    simp [Method.isTransfer]

/-- **The view is exact off the last height of a term, and only there.** -/
theorem quotaExact_iff {c : Network} (h : Reachable c) (u caller : Address)
    {start limit r : Int}
    (hs : c.cur.state.storage.whitelist u START_HEIGHT = some start)
    (hl : c.cur.state.storage.freeDailyTxLimit = some limit) (hpos : 1 ≤ limit)
    (hview : remainingFreeTxThisTerm ⟨caller, c.now⟩ u c.cur.state
      = .done r c.cur.state) :
    QuotaExact c u r ↔ c.now ≠ start + TERM_LENGTH := by
  have hw : Records c.cur.state.storage := h.invariant Fresh.records Records.effect
  have hlimit : limitOf c.cur.state.storage = limit := by simp [limitOf, hl]
  obtain ⟨t, ht, -, hoff, hon⟩ := view_left (hw u) hs hl hview
  simp only at hoff hon
  constructor
  · intro hexact hnow
    obtain ⟨hlt, hleft⟩ := hon hnow
    obtain ⟨c', seg, hsteps, htr, hseg, hkeep, hlen⟩ :=
      h.exists_segment hs ((max 0 r).toNat + 1)
    have hi : (seg.filter (isTransferBy u))[(max 0 r).toNat]?
        = some (seg.filter (isTransferBy u))[(max 0 r).toNat] :=
      List.getElem?_eq_getElem hlen
    have hview := hexact c' seg hsteps htr hseg hkeep _ _ hi
    have hreal := (h.segment hsteps htr).sponsored_iff_left hw ht hlimit hpos hseg hkeep hi
    rw [hview, hleft] at hreal
    omega
  · intro hnow c' seg hsteps htr hseg hkeep i e he
    rw [(h.segment hsteps htr).sponsored_iff_left hw ht hlimit hpos hseg hkeep he,
      hoff hnow]
    omega

theorem quotaExact_funded : QuotaExact Sample.funded Sample.holder 49 :=
  (quotaExact_iff Sample.funded_reachable Sample.holder Sample.admin rfl rfl
    (by decide) rfl).mpr (by decide)

/-- At the last height of a term the view reports that nothing is left of a
limit of one, and the transfer that follows is sponsored. -/
theorem not_quotaExact : ¬ ∀ c, Reachable c → ∀ u caller start limit r,
    c.cur.state.storage.whitelist u START_HEIGHT = some start →
    c.cur.state.storage.freeDailyTxLimit = some limit → 1 ≤ limit →
    remainingFreeTxThisTerm ⟨caller, c.now⟩ u c.cur.state = .done r c.cur.state →
    QuotaExact c u r := by
  intro h
  have hexact := h Sample.ending Sample.ending_reachable Sample.holder Sample.admin
    100 1 0 rfl rfl (by decide) rfl
  let c' := Sample.ending.run (calls [⟨Sample.holder, .transfer Sample.payee 1 none⟩])
  let e : Receipt := ⟨43220, ⟨Sample.holder, .transfer Sample.payee 1 none⟩,
    Sample.ending.cur.state, c'.cur.state⟩
  have hiff := hexact c' [e] (Network.run_steps _ _) rfl (by simp [e]; rfl) (by simp [e])
    0 e rfl
  exact absurd hiff (by decide)

end StableCoin
