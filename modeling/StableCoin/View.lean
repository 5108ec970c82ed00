import StableCoin.Sponsorship

/-!
# What the view reports

`remainingFreeTxThisTerm` takes an account's record apart without the care
that the code which writes it takes: it reads the count with no default, and
subtracts it from the limit in force now, not from the one it was counted
under. In most runs neither can be seen. The two laws here say in which runs
it can: the view fails exactly after a first transfer under the limit zero,
and reports a number out of range exactly after a limit was undercut.
-/

namespace StableCoin

open Reentrancy

/-! ## The view on one record -/

namespace FeeSharing

/-- The view on one record; `none` where it dereferences a missing count. -/
def remaining (now limit : Int) (r : FeeSharing) : Option Int :=
  match r START_HEIGHT with
  | none => some 0
  | some start =>
      if start + TERM_LENGTH < now then some limit
      else (r TXN_COUNT).map (limit - ·)

/-- The term of the record has not ended, as the view sees it. -/
def InTerm (now : Int) (r : FeeSharing) : Prop :=
  ∃ start, r START_HEIGHT = some start ∧ now ≤ start + TERM_LENGTH

/-- A running term has a count. -/
def Counted (now : Int) (r : FeeSharing) : Prop :=
  r.InTerm now → (r TXN_COUNT).isSome

/-- The count of a running term is within the limit. -/
def Within (now limit : Int) (r : FeeSharing) : Prop :=
  r.InTerm now → ∀ n, r TXN_COUNT = some n → n ≤ limit

variable {r : FeeSharing} {now now' limit : Int}

theorem InTerm.earlier (h : r.InTerm now') (hle : now ≤ now') : r.InTerm now := by
  obtain ⟨start, hs, hend⟩ := h
  exact ⟨start, hs, hle.trans hend⟩

theorem remaining_of_inTerm (h : r.InTerm now) :
    r.remaining now limit = (r TXN_COUNT).map (limit - ·) := by
  obtain ⟨start, hs, hend⟩ := h
  simp [remaining, hs, hend.not_gt]

theorem remaining_of_not_inTerm (h : ¬ r.InTerm now) :
    r.remaining now limit = some 0 ∨ r.remaining now limit = some limit := by
  cases hs : r START_HEIGHT with
  | none => exact Or.inl (by simp [remaining, hs])
  | some start =>
      have hend : start + TERM_LENGTH < now := by
        by_contra hle
        exact h ⟨start, hs, not_lt.mp hle⟩
      exact Or.inr (by simp [remaining, hs, hend])

end FeeSharing

/-- The view on a storage is the view on the account's record. -/
theorem remainingFreeTxThisTerm_apply {ctx : Context} {u : Address} {w : World}
    {limit : Int} (hl : w.storage.freeDailyTxLimit = some limit) :
    remainingFreeTxThisTerm ctx u w
      = match (w.storage.whitelist u).remaining ctx.blockHeight limit with
        | some r => .done r w
        | none => .abort .nullPointer := by
  cases hs : w.storage.whitelist u START_HEIGHT with
  | none => simp [remainingFreeTxThisTerm, FeeSharing.remaining, hs]
  | some start =>
      by_cases hlt : start + TERM_LENGTH < ctx.blockHeight
      · simp [remainingFreeTxThisTerm, FeeSharing.remaining, hs, hl, hlt]
      · cases hc : w.storage.whitelist u TXN_COUNT with
        | none =>
            simp [remainingFreeTxThisTerm, FeeSharing.remaining, hs, hl, hlt, hc, deref]
        | some n => simp [remainingFreeTxThisTerm, FeeSharing.remaining, hs, hl, hlt, hc]

theorem remainingFreeTxThisTerm_done_iff {ctx : Context} {u : Address} {w : World}
    {limit r : Int} (hl : w.storage.freeDailyTxLimit = some limit) :
    remainingFreeTxThisTerm ctx u w = .done r w
      ↔ (w.storage.whitelist u).remaining ctx.blockHeight limit = some r := by
  rw [remainingFreeTxThisTerm_apply hl]
  cases (w.storage.whitelist u).remaining ctx.blockHeight limit with
  | none => simp
  | some r' => simp

/-! ## What calls leave in a record -/

namespace FeeSharing

variable {r : FeeSharing} {now limit : Int}

/-- The first use of a blank record. -/
theorem charge_blank (h : r.Wf) (hs : r START_HEIGHT = none) (now limit : Int) :
    (r.charge now limit).1 START_HEIGHT = some now
    ∧ (r.charge now limit).1 TXN_COUNT = if 0 < limit then some 1 else none := by
  have hblank : (r.set START_HEIGHT now) TXN_COUNT = none := by
    rw [DictDB.set_of_ne _ (by decide), h.blank hs]
  simp only [charge, hs, spend, DictDB.getOrDefault, hblank, Option.getD_none]
  split
  · simp [DictDB.set_of_ne]
  · exact ⟨DictDB.set_self r START_HEIGHT now, hblank⟩

/-- The first use after the end of a term. -/
theorem charge_rollover {start : Int} (hs : r START_HEIGHT = some start)
    (hend : start + TERM_LENGTH ≤ now) (limit : Int) :
    (r.charge now limit).1 START_HEIGHT = some now
    ∧ (r.charge now limit).1 TXN_COUNT = some 1 := by
  simp only [charge, hs, if_neg hend.not_gt]
  exact ⟨by rw [DictDB.set_of_ne _ (by decide), DictDB.set_self], DictDB.set_self ..⟩

theorem inTerm_of_start (hs : r START_HEIGHT = some now) : r.InTerm now := by
  have hpos := TERM_LENGTH_pos
  exact ⟨now, hs, by omega⟩

/-- A transfer leaves a count, unless it is the first one under limit zero. -/
theorem counted_charge (h : r.Wf) (hl : 0 ≤ limit)
    (hc : r.Counted now) (hno : ¬ (r START_HEIGHT = none ∧ limit = 0)) :
    (r.charge now limit).1.Counted now := by
  intro _
  cases hs : r START_HEIGHT with
  | none =>
      have hpos : 0 < limit := lt_of_le_of_ne hl fun hz => hno ⟨hs, hz.symm⟩
      simp [(charge_blank h hs now limit).2, hpos]
  | some start =>
      by_cases hlt : now < start + TERM_LENGTH
      · have hcount := hc ⟨start, hs, hlt.le⟩
        simp only [charge, hs, if_pos hlt, spend]
        split
        · simp
        · exact hcount
      · simp [(charge_rollover hs (not_lt.mp hlt) limit).2]

theorem counted_seed (hc : r.Counted now) : (r.seed now).Counted now := by
  cases hs : r START_HEIGHT with
  | none =>
      intro _
      rw [(seed_of_none hs now).2, Option.isSome_some]
  | some start => rwa [seed_of_some (by simp [hs])]

/-- A transfer leaves a count within the limit, unless it rolls a term over
under limit zero. -/
theorem within_charge (h : r.Wf) (hl : 0 ≤ limit)
    (hc : r.Within now limit)
    (hno : ∀ start, r START_HEIGHT = some start → start + TERM_LENGTH ≤ now →
      limit ≠ 0) : (r.charge now limit).1.Within now limit := by
  intro _ n hn
  cases hs : r START_HEIGHT with
  | none =>
      rw [(charge_blank h hs now limit).2] at hn
      split at hn
      · obtain rfl := Option.some.inj hn
        omega
      · cases hn
  | some start =>
      by_cases hlt : now < start + TERM_LENGTH
      · simp only [charge, hs, if_pos hlt, spend] at hn
        split at hn
        · simp only [DictDB.set_self, Option.some.injEq] at hn
          omega
        · exact hc ⟨start, hs, hlt.le⟩ n hn
      · have hne := hno start hs (not_lt.mp hlt)
        rw [(charge_rollover hs (not_lt.mp hlt) limit).2] at hn
        obtain rfl := Option.some.inj hn
        omega

/-- A term just opened with one use is above limit zero. -/
theorem not_within_zero (hs : r START_HEIGHT = some now) (hn : r TXN_COUNT = some 1) :
    ¬ r.Within now 0 := by
  intro hw
  have := hw (inTerm_of_start hs) 1 hn
  omega

theorem within_seed (hc : r.Within now limit)
    (hno : r START_HEIGHT = none → 1 ≤ limit) : (r.seed now).Within now limit := by
  cases hs : r START_HEIGHT with
  | none =>
      intro _ n hn
      rw [(seed_of_none hs now).2] at hn
      obtain rfl := Option.some.inj hn
      exact hno hs
  | some start => rwa [seed_of_some (by simp [hs])]

end FeeSharing

/-! ## Laws of the view -/

/-- What the view relies on in every storage of a run. -/
structure Metered (s : Storage) : Prop where
  deployed : Deployed s
  records : Records s
  limit : 0 ≤ limitOf s

theorem Fresh.metered {s : Storage} (h : Fresh s) : Metered s :=
  ⟨h.toDeployed, h.records, h.limit_nonneg⟩

theorem Metered.effect {now : Int} {s s' : Storage} {c : Address} {m : Method}
    {evs : List Event} {fee : Int} (h : Metered s) (he : Effect now s c m s' evs fee) :
    Metered s' :=
  ⟨h.deployed.effect he, h.records.effect he, he.limit_nonneg h.limit⟩

theorem Metered.limit_eq {s : Storage} (h : Metered s) :
    s.freeDailyTxLimit = some (limitOf s) := by
  obtain ⟨limit, hl⟩ := Option.isSome_iff_exists.mp h.deployed.freeDailyTxLimit
  simp [limitOf, hl]

/-- `P` holds now and held after each call of the run. A broken record heals
when its account starts a new term, so the state reached does not tell. -/
def Throughout (P : Int → World → Prop) (c : Network) : Prop :=
  P c.now c.cur.state ∧ ∀ e ∈ c.cur.trace, P e.now e.after

/-- The property `P` of what the view answers is the law `Q` of the storage,
and the calls in `Bad`, and no others, break it. -/
structure ViewLaw (P : Int → World → Prop) (Q : Int → Storage → Prop)
    (Bad : Receipt → Prop) : Prop where
  law {now w} : Metered w.storage → (P now w ↔ Q now w.storage)
  fresh {s} : Fresh s → ∀ now, Q now s
  wait {now now' s} : now ≤ now' → Q now s → Q now' s
  keep {e : Receipt} {evs} : Metered e.before.storage → Q e.now e.before.storage →
    ¬ Bad e → Effect e.now e.before.storage e.call.caller e.call.method e.after.storage
      evs e.after.feeSharing → Q e.now e.after.storage
  breaks {e : Receipt} {evs} : Metered e.before.storage → Bad e →
    Effect e.now e.before.storage e.call.caller e.call.method e.after.storage evs
      e.after.feeSharing → ¬ Q e.now e.after.storage

/-- **A law of the view holds all through a run exactly when no call broke
it.** -/
theorem ViewLaw.throughout_iff {P : Int → World → Prop} {Q : Int → Storage → Prop}
    {Bad : Receipt → Prop} (hP : ViewLaw P Q Bad) {c : Network} (h : Reachable c) :
    Throughout P c ↔ ∀ e ∈ c.cur.trace, ¬ Bad e := by
  obtain ⟨s₀, hf, hist, hle⟩ := h.history
  obtain ⟨hnow, hmet⟩ := hist.invariant Metered.effect hf.metered
  constructor
  -- the call that breaks the law breaks it in the state it leaves
  · rintro ⟨-, htr⟩ e he hbad
    obtain ⟨evs, heff, -⟩ := hist.effect e he
    exact hP.breaks (hmet e he).1 hbad heff ((hP.law (hmet e he).2).mp (htr e he))
  · intro hno
    obtain ⟨htr, hcur⟩ := hist.timed_invariant
      (P := Q) (Q := fun e => Metered e.before.storage ∧ ¬ Bad e) hP.wait
      (fun hq hok heff => hP.keep hok.1 hq hok.2 heff) (hP.fresh hf)
      fun e he => ⟨(hmet e he).1, hno e he⟩
    exact ⟨(hP.law hnow).mpr (hcur c.now hle),
      fun e he => (hP.law (hmet e he).2).mpr (htr e he)⟩

/-! ## Whether the view answers -/

/-- The view answers for every account, now and at any later height. -/
def Answers (now : Int) (w : World) : Prop :=
  ∀ caller u h, now ≤ h → ∃ r, remainingFreeTxThisTerm ⟨caller, h⟩ u w = .done r w

/-- Every running term has a count. -/
def Counted (now : Int) (s : Storage) : Prop := ∀ u, (s.whitelist u).Counted now

/-- A transfer by an account without a record while the limit is zero. -/
def FirstAtZero (e : Receipt) : Prop :=
  e.call.method.isTransfer = true
    ∧ e.before.storage.whitelist e.call.caller START_HEIGHT = none
    ∧ limitOf e.before.storage = 0

theorem answers_iff {now : Int} {w : World} (h : Metered w.storage) :
    Answers now w ↔ Counted now w.storage := by
  simp only [Answers, remainingFreeTxThisTerm_done_iff h.limit_eq]
  constructor
  · intro hans u hin
    obtain ⟨r, hr⟩ := hans EOA_ZERO u now le_rfl
    rw [FeeSharing.remaining_of_inTerm hin] at hr
    obtain ⟨n, hn, -⟩ := Option.map_eq_some_iff.mp hr
    rw [hn, Option.isSome_some]
  · intro hc _ u height hle
    by_cases hin : (w.storage.whitelist u).InTerm height
    · obtain ⟨n, hn⟩ := Option.isSome_iff_exists.mp (hc u (hin.earlier hle))
      exact ⟨_, by rw [FeeSharing.remaining_of_inTerm hin, hn, Option.map_some]⟩
    · rcases FeeSharing.remaining_of_not_inTerm hin with hr | hr
      · exact ⟨_, hr⟩
      · exact ⟨_, hr⟩

theorem Counted.effect {e : Receipt} {evs : List Event}
    (hm : Metered e.before.storage) (h : Counted e.now e.before.storage)
    (hno : ¬ FirstAtZero e)
    (he : Effect e.now e.before.storage e.call.caller e.call.method e.after.storage evs
      e.after.feeSharing) : Counted e.now e.after.storage := by
  obtain ⟨now, ⟨c, m⟩, ⟨s, evs₀, fee₀⟩, ⟨s', evs', fee⟩⟩ := e
  simp only at hm h he
  cases he with
  | @transfer dst value data limit hl hv hb hd hp =>
      have hlim : limitOf s = limit := by simp [limitOf, hl]
      have hnot : ¬ (s.whitelist c START_HEIGHT = none ∧ limit = 0) :=
        fun hz => hno ⟨rfl, hz.1, hlim.trans hz.2⟩
      exact BranchDB.forall_update (P := FeeSharing.Counted now)
        (f := fun r => (r.charge now limit).1) h
        (FeeSharing.counted_charge (hm.records c) (hlim ▸ hm.limit) (h c) hnot)
  | @mint m dst value =>
      exact BranchDB.forall_update (P := FeeSharing.Counted now) (f := (·.seed now)) h
        (FeeSharing.counted_seed (h dst))
  | _ => exact h

theorem FirstAtZero.not_counted {e : Receipt} {evs : List Event}
    (hm : Metered e.before.storage) (h : FirstAtZero e)
    (he : Effect e.now e.before.storage e.call.caller e.call.method e.after.storage evs
      e.after.feeSharing) : ¬ Counted e.now e.after.storage := by
  obtain ⟨now, ⟨c, m⟩, ⟨s, evs₀, fee₀⟩, ⟨s', evs', fee⟩⟩ := e
  obtain ⟨ht, hs, hz⟩ := h
  simp only at hm ht hs hz he
  cases he with
  | @transfer dst value data limit hl hv hb hd hp =>
      intro hc
      obtain rfl : limit = 0 := by simpa [limitOf, hl] using hz
      obtain ⟨hstart, hcount⟩ := FeeSharing.charge_blank (hm.records c) hs now 0
      have hself : ((s.whitelist.update c fun r => (r.charge now 0).1) c).Counted now :=
        hc c
      rw [BranchDB.update_self] at hself
      have hsome := hself (FeeSharing.inTerm_of_start hstart)
      simp [hcount] at hsome
  | mint hmint => simp [Method.isTransfer_of_minting hmint] at ht
  | _ => cases ht

theorem answers_law : ViewLaw Answers Counted FirstAtZero where
  law := answers_iff
  fresh hf _ u hin := by
    obtain ⟨start, hs, -⟩ := hin
    simp [hf.whitelist] at hs
  wait hle h u hin := h u (hin.earlier hle)
  keep := Counted.effect
  breaks := FirstAtZero.not_counted

/-- **The view answers exactly until somebody starts at limit zero.** In every
run, the view answers for every account from each call on, and now, if and only
if no account made its first transfer while the limit was zero. -/
theorem answers_throughout_iff {c : Network} (h : Reachable c) :
    Throughout Answers c ↔ ∀ e ∈ c.cur.trace, ¬ FirstAtZero e :=
  answers_law.throughout_iff h

namespace Sample

/-- The limit is zero, and the payee spends before it had a record. -/
def unrecorded : Network :=
  funded.run (calls [⟨admin, .changeFreeDailyTxLimit 0⟩, ⟨holder, .transfer payee 10 none⟩,
    ⟨payee, .transfer holder 1 none⟩])

theorem unrecorded_reachable : Reachable unrecorded := funded_reachable.run _

end Sample

theorem answers_throughout_funded : Throughout Answers Sample.funded := by
  refine (answers_throughout_iff Sample.funded_reachable).mpr ?_
  have hlimit : ∀ e ∈ Sample.funded.cur.trace, limitOf e.before.storage ≠ 0 := by decide
  exact fun e he hfirst => hlimit e he hfirst.2.2

/-- After a first transfer under the limit zero the view aborts. -/
theorem not_answers : ¬ ∀ c, Reachable c → Answers c.now c.cur.state := by
  intro h
  obtain ⟨r, hr⟩ := h _ Sample.unrecorded_reachable Sample.admin Sample.payee 100 le_rfl
  have habort : remainingFreeTxThisTerm ⟨Sample.admin, 100⟩ Sample.payee
      Sample.unrecorded.cur.state = .abort .nullPointer := rfl
  rw [habort] at hr
  cases hr

/-! ## Whether the answer is in range -/

/-- What the view answers, now or at any later height, is between zero and the
limit. -/
def Meaningful (now : Int) (w : World) : Prop :=
  ∀ caller u h r, now ≤ h → remainingFreeTxThisTerm ⟨caller, h⟩ u w = .done r w →
    0 ≤ r ∧ r ≤ limitOf w.storage

/-- Every running term is within the limit. -/
def Within (now : Int) (s : Storage) : Prop :=
  ∀ u, (s.whitelist u).Within now (limitOf s)

/-- The call leaves a term running with more uses than the limit: it lowers the
limit below a count, or opens a term with a first use while the limit is zero -
by a mint, or by a transfer that rolls the term over. -/
inductive Undercuts (e : Receipt) : Prop
  | lower {limit u n} (hm : e.call.method = .changeFreeDailyTxLimit limit)
      (hin : (e.before.storage.whitelist u).InTerm e.now)
      (hn : e.before.storage.whitelist u TXN_COUNT = some n) (hlt : limit < n)
  | seed {dst value} (hm : e.call.method.minting e.call.caller = some (dst, value))
      (hs : e.before.storage.whitelist dst START_HEIGHT = none)
      (hl : limitOf e.before.storage = 0)
  | roll (h : RollsOverAtZero e.call.caller e)

theorem meaningful_iff {now : Int} {w : World} (h : Metered w.storage) :
    Meaningful now w ↔ Within now w.storage := by
  have hl := h.limit
  simp only [Meaningful, remainingFreeTxThisTerm_done_iff h.limit_eq]
  constructor
  · intro hmean u hin n hn
    have hr := (hmean EOA_ZERO u now (limitOf w.storage - n) le_rfl (by
      rw [FeeSharing.remaining_of_inTerm hin, hn, Option.map_some])).1
    omega
  · intro hwithin _ u height r hle hr
    by_cases hin : (w.storage.whitelist u).InTerm height
    · rw [FeeSharing.remaining_of_inTerm hin] at hr
      obtain ⟨n, hn, rfl⟩ := Option.map_eq_some_iff.mp hr
      have hcount := (h.records u).counted n hn
      have hle := hwithin u (hin.earlier hle) n hn
      omega
    · rcases FeeSharing.remaining_of_not_inTerm hin with h0 | hlim
      · obtain rfl := Option.some.inj (h0.symm.trans hr)
        exact ⟨le_rfl, hl⟩
      · obtain rfl := Option.some.inj (hlim.symm.trans hr)
        exact ⟨hl, le_rfl⟩

theorem Within.effect {e : Receipt} {evs : List Event}
    (hm : Metered e.before.storage) (h : Within e.now e.before.storage)
    (hno : ¬ Undercuts e)
    (he : Effect e.now e.before.storage e.call.caller e.call.method e.after.storage evs
      e.after.feeSharing) : Within e.now e.after.storage := by
  obtain ⟨now, ⟨c, m⟩, ⟨s, evs₀, fee₀⟩, ⟨s', evs', fee⟩⟩ := e
  simp only at hm h he
  cases he with
  | @transfer dst value data limit hl hv hb hd hp =>
      obtain rfl : limitOf s = limit := by simp [limitOf, hl]
      have hnot : ∀ start, s.whitelist c START_HEIGHT = some start →
          start + TERM_LENGTH ≤ now → limitOf s ≠ 0 := fun start hs hend hz =>
        hno (.roll ⟨by simp [isTransferBy, Method.isTransfer], hz, start, hs, hend⟩)
      exact BranchDB.forall_update (P := FeeSharing.Within now (limitOf s))
        (f := fun r => (r.charge now (limitOf s)).1) h
        (FeeSharing.within_charge (hm.records c) hm.limit (h c) hnot)
  | @mint m dst value hmint =>
      have hpos : s.whitelist dst START_HEIGHT = none → 1 ≤ limitOf s := by
        intro hs
        have hne : limitOf s ≠ 0 := fun hz => hno (.seed hmint hs hz)
        have := hm.limit
        omega
      exact BranchDB.forall_update (P := FeeSharing.Within now (limitOf s))
        (f := (·.seed now)) h (FeeSharing.within_seed (h dst) hpos)
  | @changeFreeDailyTxLimit newLimit ha hle =>
      intro u hin n hn
      by_contra hlt
      exact hno (.lower rfl hin hn (not_le.mp hlt))
  | _ => exact h

theorem Undercuts.not_within {e : Receipt} {evs : List Event}
    (hm : Metered e.before.storage) (h : Undercuts e)
    (he : Effect e.now e.before.storage e.call.caller e.call.method e.after.storage evs
      e.after.feeSharing) : ¬ Within e.now e.after.storage := by
  obtain ⟨now, ⟨c, m⟩, ⟨s, evs₀, fee₀⟩, ⟨s', evs', fee⟩⟩ := e
  simp only at hm he
  intro hw
  cases h with
  | @lower limit u n hmeth hin hn hlt =>
      simp only at hmeth hin hn
      subst hmeth
      cases he with
      | changeFreeDailyTxLimit =>
          have := hw u hin n hn
          simp only [limitOf, Option.getD_some] at this
          omega
      | mint hmint => cases hmint
  | @seed dst value hmint hs hz =>
      simp only at hmint hs hz
      cases he with
      | @mint _ dst' value' hmint' =>
          obtain ⟨rfl, -⟩ := Prod.mk.inj (Option.some.inj (hmint.symm.trans hmint'))
          have hself : ((s.whitelist.update dst (·.seed now)) dst).Within now (limitOf s) :=
            hw dst
          rw [BranchDB.update_self, hz] at hself
          obtain ⟨hstart, hcount⟩ := FeeSharing.seed_of_none hs now
          exact FeeSharing.not_within_zero hstart hcount hself
      | _ => cases hmint
  | roll h =>
      obtain ⟨ht, hz, start, hs, hend⟩ := h
      simp only [isTransferBy, Bool.and_eq_true] at ht
      simp only at hz hs hend
      cases he with
      | @transfer dst value data limit hl hv hb hd hp =>
          obtain rfl : limitOf s = limit := by simp [limitOf, hl]
          have hself : ((s.whitelist.update c fun r => (r.charge now (limitOf s)).1) c).Within
            now (limitOf s) := hw c
          rw [BranchDB.update_self, hz] at hself
          obtain ⟨hstart, hcount⟩ := FeeSharing.charge_rollover hs hend 0
          exact FeeSharing.not_within_zero hstart hcount hself
      | mint hmint => simp [Method.isTransfer_of_minting hmint] at ht
      | _ => cases ht.2

theorem meaningful_law : ViewLaw Meaningful Within Undercuts where
  law := meaningful_iff
  fresh hf _ u hin := by
    obtain ⟨start, hs, -⟩ := hin
    simp [hf.whitelist] at hs
  wait hle h u hin := h u (hin.earlier hle)
  keep := Within.effect
  breaks := Undercuts.not_within

/-- **The view's answer is in range exactly until a limit is undercut.** In
every run, what the view answers stays between zero and the limit from each
call on, and now, if and only if no call of the run left a running term with
more uses than the limit. -/
theorem meaningful_throughout_iff {c : Network} (h : Reachable c) :
    Throughout Meaningful c ↔ ∀ e ∈ c.cur.trace, ¬ Undercuts e :=
  meaningful_law.throughout_iff h

theorem meaningful_throughout_funded : Throughout Meaningful Sample.funded := by
  refine (meaningful_throughout_iff Sample.funded_reachable).mpr ?_
  have hlimit : ∀ e ∈ Sample.funded.cur.trace, limitOf e.before.storage ≠ 0 := by decide
  have hmethods : Sample.funded.cur.trace.map (fun e => e.call.method)
    = [.addIssuer Sample.admin, .approve Sample.admin 5000,
      .mintTo Sample.holder 1000] := rfl
  intro e he hu
  cases hu with
  | lower hm =>
      have hmem := hmethods ▸ List.mem_map_of_mem (f := fun e : Receipt => e.call.method) he
      simp [hm] at hmem
  | seed _ _ hz => exact hlimit e he hz
  | roll h => exact hlimit e he h.2.1

namespace Sample

/-- The limit is set to zero after the holder's first use. -/
def lowered : Network := funded.run (calls [⟨admin, .changeFreeDailyTxLimit 0⟩])

theorem lowered_reachable : Reachable lowered := funded_reachable.run _

end Sample

/-- After the limit was lowered below a count the view reports a negative
number. -/
theorem not_meaningful : ¬ ∀ c, Reachable c → Meaningful c.now c.cur.state := by
  intro h
  have hrange := h _ Sample.lowered_reachable Sample.admin Sample.holder 100 (-1) le_rfl rfl
  exact absurd hrange.1 (by decide)

end StableCoin
