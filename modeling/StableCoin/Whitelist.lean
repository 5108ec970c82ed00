import StableCoin.Quota

/-!
# Whitelisting

An account is whitelisted once it has a quota record, and two kinds of
calls create one: a mint to the account, which announces it, and a transfer
by the account, which does not.
-/

namespace StableCoin

open Reentrancy

/-! ## Events of a run -/

/-- What a call emitted before it first lost control. -/
def emitted (e : Receipt) : List Event := e.after.events.drop e.before.events.length

/-- Apart from transfers, which are logged after their callbacks, the log
of a run is what its accepted calls emitted, in their order. -/
theorem Reachable.filter_events {c : Network} (h : Reachable c) {p : Event → Bool}
    (hp : ∀ src dst value data, p (.Transfer src dst value data) = false) :
    c.cur.state.events.filter p = c.cur.trace.flatMap fun e => (emitted e).filter p := by
  obtain ⟨now, w, hw, hs⟩ := h
  let P := fun (_ : Int) (w : Snapshot Int Call World) => Deployed w.state.storage
    ∧ w.state.events.filter p = w.trace.flatMap fun e => (emitted e).filter p
  have hinv : Invariant body P := by
    refine ⟨fun _ hP => hP, ?_, ?_⟩
    · rintro now k w s ⟨hd, hev⟩ hfirst
      obtain ⟨s', evs, fee, he, rfl⟩ := Effect.of_first hd hfirst
      refine ⟨hd.effect he, ?_⟩
      simp [hev, emitted, List.flatMap_append]
    · rintro now g w s ⟨hd, hev⟩ hg hfirst
      obtain ⟨src, dst, value, data, rfl⟩ := resumption_eq hg
      obtain rfl := Option.some.inj hfirst
      refine ⟨hd, ?_⟩
      simp [hev, hp]
  have hstart : P now ⟨w, []⟩ :=
    ⟨hw.fresh.1.toDeployed, by simp [hw.fresh.2]⟩
  exact (hinv.reachable hstart hs).2

/-! ## One account -/

/-- A mint that credits `a`. -/
def mintsTo (a : Address) (e : Receipt) : Bool :=
  match e.call.method.minting e.call.caller with
  | some (dst, _) => dst = a
  | none => false

/-- A call that gives `a` a quota record, if it has none. -/
def touches (a : Address) (e : Receipt) : Bool := mintsTo a e || isTransferBy a e

/-- The announcement that `a` is whitelisted. -/
def announces (a : Address) : Event → Bool
  | .WhitelistWallet dst _ => dst = a
  | _ => false

theorem FeeSharing.spend_start {r : FeeSharing} (h : (r START_HEIGHT).isSome)
    (limit : Int) : ((r.spend limit).1 START_HEIGHT).isSome := by
  rw [FeeSharing.spend]
  split
  · simpa [DictDB.set_of_ne] using h
  · exact h

/-- A charged record has a term. -/
theorem FeeSharing.charge_start (now limit : Int) (r : FeeSharing) :
    ((r.charge now limit).1 START_HEIGHT).isSome := by
  cases hs : r START_HEIGHT with
  | none =>
      simp only [FeeSharing.charge, hs]
      exact FeeSharing.spend_start (by simp) limit
  | some start =>
      simp only [FeeSharing.charge, hs]
      split
      · exact FeeSharing.spend_start (by simp [hs]) limit
      · simp [DictDB.set_of_ne]

/-- A seeded record has a term. -/
theorem FeeSharing.seed_start (now : Int) (r : FeeSharing) :
    ((r.seed now) START_HEIGHT).isSome := by
  cases hs : r START_HEIGHT with
  | none => rw [(FeeSharing.seed_of_none hs now).1, Option.isSome_some]
  | some start => rw [FeeSharing.seed_of_some (by simp [hs]), hs, Option.isSome_some]

/-- A call whitelists whom it touches and nobody else, and announces it
when it is a mint to an account that was not whitelisted. -/
theorem Effect.whitelists {a : Address} {e : Receipt} {evs : List Event}
    (h : Effect e.now e.before.storage e.call.caller e.call.method e.after.storage evs
      e.after.feeSharing) :
    isWhitelisted e.after.storage a = (isWhitelisted e.before.storage a || touches a e)
    ∧ evs.countP (announces a)
      = if mintsTo a e && !isWhitelisted e.before.storage a then 1 else 0 := by
  obtain ⟨now, ⟨c, m⟩, ⟨s, evs₀, fee₀⟩, ⟨s', evs', fee⟩⟩ := e
  simp only at h
  cases h with
  | @transfer dst value data limit hl hv hb hd hp =>
      refine ⟨?_, ?_⟩
      · by_cases hca : c = a
        · subst hca
          simp [touches, isTransferBy, Method.isTransfer, isWhitelisted,
            FeeSharing.charge_start]
        · simp [touches, isTransferBy, mintsTo, Method.minting, isWhitelisted, hca,
            BranchDB.update_of_ne _ (Ne.symm hca)]
      · split <;> simp [announces, mintsTo, Method.minting]
  | @mint m dst value hm =>
      have hno := Method.isTransfer_of_minting hm
      by_cases hda : dst = a
      · subst hda
        simp [touches, isTransferBy, mintsTo, hm, isWhitelisted, FeeSharing.seed_start]
        split <;> simp [announces]
      · simp [touches, isTransferBy, mintsTo, hm, hno, isWhitelisted, hda, announces,
          BranchDB.update_of_ne _ (Ne.symm hda)]
  | _ =>
      simp [touches, isTransferBy, mintsTo, Method.minting, Method.isTransfer,
        isWhitelisted, announces]

/-- The first call that touches `a` whitelists it, and no later one
announces it. -/
theorem History.whitelisted {s₀ s : Storage} {tr : List Receipt}
    (h : History s₀ tr s) (hf : Fresh s₀) (a : Address) :
    (isWhitelisted s a = true ↔ ∃ e ∈ tr, touches a e = true)
    ∧ (tr.map fun e => (emitted e).countP (announces a)).sum
      = if (tr.find? (touches a)).any (mintsTo a) then 1 else 0 := by
  induction h using History.receipts with
  | nil => simp [isWhitelisted, hf.whitelist]
  | @next tr e evs h he hev hn ih =>
      obtain ⟨hiff, hsum⟩ := ih
      obtain ⟨hwl, hcount⟩ := he.whitelists (a := a)
      have hemit : emitted e = evs := by simp [emitted, hev]
      rw [List.map_append, List.sum_append, hsum, List.map_singleton,
        List.sum_singleton, hemit, hcount, List.find?_append]
      constructor
      · rw [hwl, Bool.or_eq_true, hiff]
        simp [or_and_right, exists_or]
      · cases hfind : tr.find? (touches a) with
        | some d =>
            have hd : isWhitelisted e.before.storage a = true :=
              hiff.mpr ⟨d, List.mem_of_find?_eq_some hfind, List.find?_some hfind⟩
            simp [hd]
        | none =>
            have hd : isWhitelisted e.before.storage a = false := by
              rw [Bool.eq_false_iff, Ne, hiff]
              rintro ⟨d, hin, htouch⟩
              exact List.find?_eq_none.mp hfind d hin htouch
            by_cases htouch : touches a e = true
            · simp [hd, htouch]
            · have hmint : mintsTo a e = false := by
                simp only [touches, Bool.or_eq_true, not_or] at htouch
                simpa using htouch.1
              simp [htouch, hmint]

/-- **Who is whitelisted, and who is announced.** In every reachable
configuration an account is whitelisted exactly when a mint credited it or
it made a transfer; it was announced once if the first of these calls was a
mint, and never otherwise. -/
theorem isWhitelisted_iff {c : Network} (h : Reachable c) (a : Address) :
    (isWhitelisted c.cur.state.storage a = true
      ↔ ∃ e ∈ c.cur.trace, mintsTo a e = true ∨ isTransferBy a e = true)
    ∧ c.cur.state.events.countP (announces a)
      = if (c.cur.trace.find? (touches a)).any (mintsTo a) then 1 else 0 := by
  obtain ⟨s₀, hf, hist, -⟩ := h.history
  obtain ⟨hiff, hsum⟩ := hist.whitelisted hf a
  have hev := h.filter_events (p := announces a) fun _ _ _ _ => rfl
  refine ⟨by simpa [touches] using hiff, ?_⟩
  rw [List.countP_eq_length_filter, hev, List.length_flatMap, ← hsum]
  simp only [List.countP_eq_length_filter]

theorem isWhitelisted_iff_funded :
    isWhitelisted Sample.funded.cur.state.storage Sample.holder = true
    ∧ Sample.funded.cur.state.events.countP (announces Sample.holder) = 1 := by
  obtain ⟨hiff, hcount⟩ := isWhitelisted_iff Sample.funded_reachable Sample.holder
  exact ⟨hiff.mpr (by decide), hcount⟩

/-- An account that was only ever paid, and pays, is whitelisted although
nothing was minted to it, and nobody announced it. -/
theorem not_whitelisted_iff_minted : ¬ ∀ c, Reachable c → ∀ a,
    (isWhitelisted c.cur.state.storage a = true
      ↔ ∃ e ∈ c.cur.trace, mintsTo a e = true)
    ∧ c.cur.state.events.countP (announces a)
      = if isWhitelisted c.cur.state.storage a then 1 else 0 := by
  intro h
  obtain ⟨hiff, -⟩ := h _ (Sample.funded_reachable.run
    (calls [⟨Sample.holder, .transfer Sample.payee 10 none⟩,
      ⟨Sample.payee, .transfer Sample.holder 1 none⟩])) Sample.payee
  exact absurd (hiff.mp (by decide)) (by decide)

end StableCoin
