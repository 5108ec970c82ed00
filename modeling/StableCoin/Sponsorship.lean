import Mathlib.Data.List.DropRight
import StableCoin.Quota

/-!
# How many transfers the contract sponsors

The bounds of the limiter, for the fee shares the contract asks for: over
any window of a term's length, and within each term against the limits that
were in force in it. The second holds except where the code rolls a term
over while the limit is zero: it then grants the transfer without looking.
-/

namespace StableCoin

open Reentrancy FixedWindow

/-! ## Starts -/

namespace History

variable {s₀ s : Storage} {tr : List Receipt}

theorem log_of_fresh (h : History s₀ tr s) (hf : Fresh s₀) (u : Address) :
    Log TERM_LENGTH none (quotaLog u tr) (s.whitelist u).term := by
  have hlog := h.log hf.records u
  have hnone : (s₀.whitelist u).term = none := by
    simp [hf.whitelist, FeeSharing.term]
  rwa [hnone] at hlog

end History

theorem FeeSharing.term_of_start {r : FeeSharing} {start : Int}
    (h : r START_HEIGHT = some start) :
    r.term = some ⟨start, (r.getOrDefault TXN_COUNT 0).toNat⟩ := by
  simp [FeeSharing.term, h]

theorem FeeSharing.start_of_term {r : FeeSharing} {t : Term}
    (h : r.term = some t) : r START_HEIGHT = some t.start := by
  obtain ⟨start, hs, rfl⟩ := Option.map_eq_some_iff.mp h
  exact hs

namespace History

variable {s₀ s : Storage} {tr : List Receipt} {u : Address}

/-- A stored start is never in the future. -/
theorem start_le_now (h : History s₀ tr s) (hf : Fresh s₀) {e : Receipt}
    (he : e ∈ tr) {start : Int}
    (hs : e.after.storage.whitelist u START_HEIGHT = some start) : start ≤ e.now := by
  obtain ⟨pre, post, rfl⟩ := List.append_of_mem he
  obtain ⟨-, hpre, -⟩ := h.split_call
  have hlog := hpre.log_of_fresh hf u
  rw [FeeSharing.term_of_start hs] at hlog
  obtain ⟨i, hi, hin⟩ := hlog.start_mem
  obtain ⟨d, hd, hdi⟩ := List.mem_filterMap.mp hi
  have hnow : d.now = start := (now_of_quotaItem hdi).symm.trans hin
  rw [← hnow]
  rcases List.mem_append.mp hd with hd | hd
  · exact hpre.of_snoc.2.2.2 d hd
  · rw [List.mem_singleton.mp hd]

/-- Of two stored starts the later one is the same or a full term later. -/
theorem start_later (h : History s₀ tr s) (hf : Fresh s₀)
    {pre mid post : List Receipt} {d e : Receipt}
    (htr : tr = pre ++ d :: (mid ++ e :: post)) {start start' : Int}
    (hd : d.after.storage.whitelist u START_HEIGHT = some start)
    (he : e.after.storage.whitelist u START_HEIGHT = some start') :
    start' = start ∨ start + TERM_LENGTH ≤ start' := by
  subst htr
  obtain ⟨-, hpre, hrest⟩ := h.split_call
  obtain ⟨-, hmid, -⟩ := hrest.split_call
  have hlog := hmid.log (hpre.records hf.records).1 u
  rw [FeeSharing.term_of_start hd, FeeSharing.term_of_start he] at hlog
  obtain ⟨t, ht, hlater⟩ := hlog.start_later TERM_LENGTH_pos
  obtain rfl := Option.some.inj ht
  exact hlater

/-- Any two stored starts are the same or a full term apart. -/
theorem start_apart (h : History s₀ tr s) (hf : Fresh s₀) {d e : Receipt}
    (hd : d ∈ tr) (he : e ∈ tr) {start start' : Int}
    (hds : d.after.storage.whitelist u START_HEIGHT = some start)
    (hes : e.after.storage.whitelist u START_HEIGHT = some start') :
    start = start' ∨ start + TERM_LENGTH ≤ start' ∨ start' + TERM_LENGTH ≤ start := by
  obtain ⟨pre, post, rfl⟩ := List.append_of_mem hd
  rcases List.mem_append.mp he with he | he
  · obtain ⟨pre, mid, rfl⟩ := List.append_of_mem he
    have := h.start_later hf (List.append_assoc pre (e :: mid) (d :: post)) hes hds
    omega
  · rcases List.mem_cons.mp he with rfl | he
    · exact Or.inl (Option.some.inj (hds.symm.trans hes))
    · obtain ⟨mid, post, rfl⟩ := List.append_of_mem he
      have := h.start_later hf rfl hds hes
      omega

end History

/-! ## Any window -/

/-- The transfers by `u` at heights in `[h, h + TERM_LENGTH)` that were
sponsored. -/
def sponsoredIn (u : Address) (h : Int) (tr : List Receipt) : Nat :=
  tr.countP fun e => sponsored u e && decide (h ≤ e.now ∧ e.now < h + TERM_LENGTH)

/-- Counting the sponsored transfers of `u` is counting the grants of its
limiter, in any range of heights. -/
theorem History.countP_quotaLog {s₀ s : Storage} {tr : List Receipt}
    (h : History s₀ tr s) (hw : Records s₀) (u : Address) (p : Int → Bool) :
    (quotaLog u tr).countP (fun i => i.granted TERM_LENGTH && p i.now)
      = tr.countP fun e => sponsored u e && p e.now := by
  rw [quotaLog, List.countP_filterMap]
  refine List.countP_congr ?_
  intro e he
  rw [h.sponsored_eq hw u e he]
  cases hi : quotaItem u e with
  | none => simp
  | some i => simp [now_of_quotaItem hi]

theorem History.windowGrants_eq {s₀ s : Storage} {tr : List Receipt}
    (h : History s₀ tr s) (hw : Records s₀) (u : Address) (h₀ : Int) :
    windowGrants TERM_LENGTH h₀ (quotaLog u tr) = sponsoredIn u h₀ tr :=
  h.countP_quotaLog hw u fun now => decide (h₀ ≤ now ∧ now < h₀ + TERM_LENGTH)

/-- **Sponsoring is bounded over any window.** Under limits of at most `L`
no window of a term's length sees more than `2 * L` sponsored transfers of
one account; the starts stored for it are never in the future, and each is
at least a term after the one before. -/
theorem sponsoredIn_le {c : Network} (h : Reachable c) {L : Int} (hL : 1 ≤ L)
    (hlim : ∀ e ∈ c.cur.trace, limitOf e.before.storage ≤ L) (u : Address) :
    (∀ h₀, (sponsoredIn u h₀ c.cur.trace : Int) ≤ 2 * L)
    ∧ (∀ e ∈ c.cur.trace, ∀ start,
      e.after.storage.whitelist u START_HEIGHT = some start → start ≤ e.now)
    ∧ ∀ pre d mid e post, c.cur.trace = pre ++ d :: (mid ++ e :: post) →
      ∀ start start', d.after.storage.whitelist u START_HEIGHT = some start →
        e.after.storage.whitelist u START_HEIGHT = some start' →
        start' = start ∨ start + TERM_LENGTH ≤ start' := by
  obtain ⟨s₀, hf, hist, -⟩ := h.history
  refine ⟨?_, ?_, ?_⟩
  · intro h₀
    rw [← hist.windowGrants_eq hf.records]
    refine (hist.log_of_fresh hf u).window_bound TERM_LENGTH_pos hL ?_ h₀
    intro i hi limit hop
    obtain ⟨e, he, hei⟩ := List.mem_filterMap.mp hi
    obtain ⟨-, rfl⟩ := limit_of_quotaItem hei hop
    exact hlim e he
  · intro e he start hs
    exact hist.start_le_now hf he hs
  · intro pre d mid e post htr start start' hd he
    exact hist.start_later hf htr hd he

theorem sponsoredIn_le_paid :
    (sponsoredIn Sample.holder 100 Sample.paid.cur.trace : Int) ≤ 2 * 50 :=
  (sponsoredIn_le Sample.paid_reachable (by decide) (by decide) Sample.holder).1 100

/-! ## Each term -/

/-- The elements from the first that satisfies `p` to the last that does. -/
def stretch {α : Type} (p : α → Bool) (l : List α) : List α :=
  (l.dropWhile fun a => !p a).rdropWhile fun a => !p a

theorem mem_dropWhile {α : Type} {p : α → Bool} {l : List α} {a : α} (ha : a ∈ l)
    (hp : p a = true) : a ∈ l.dropWhile fun a => !p a := by
  rw [← List.takeWhile_append_dropWhile (p := fun a => !p a) (l := l)] at ha
  rcases List.mem_append.mp ha with ha | ha
  · have := List.mem_takeWhile_imp ha
    simp [hp] at this
  · exact ha

theorem mem_stretch {α : Type} {p : α → Bool} {l : List α} {a : α} (ha : a ∈ l)
    (hp : p a = true) : a ∈ stretch p l := by
  rw [stretch, List.rdropWhile, List.mem_reverse]
  exact mem_dropWhile (List.mem_reverse.mpr (mem_dropWhile ha hp)) hp

theorem nonneg_foldr_max (l : List Int) : 0 ≤ l.foldr max 0 := by
  induction l with
  | nil => exact le_refl 0
  | cons x l ih => exact ih.trans (le_max_right _ _)

theorem le_foldr_max {l : List Int} {x : Int} (hx : x ∈ l) : x ≤ l.foldr max 0 := by
  induction l with
  | nil => cases hx
  | cons y l ih =>
      rcases List.mem_cons.mp hx with rfl | hx
      · exact le_max_left _ _
      · exact (ih hx).trans (le_max_right _ _)

/-- A transfer by `u` in the term that starts at `start`. -/
def inTerm (u : Address) (start : Int) (e : Receipt) : Bool :=
  isTransferBy u e && decide (start ≤ e.now ∧ e.now < start + TERM_LENGTH)

/-- The largest limit in force from the first transfer of `u` in the term to
the last. -/
def largestLimit (u : Address) (start : Int) (tr : List Receipt) : Int :=
  ((stretch (inTerm u start) tr).map fun e => limitOf e.before.storage).foldr max 0

/-- The limit is enforced on `u`: in each of its terms the sponsored
transfers number at most the largest limit in force, and none is sponsored
while the limit is zero. -/
def LimitEnforced (u : Address) (tr : List Receipt) : Prop :=
  (∀ start, (∃ d ∈ tr, d.after.storage.whitelist u START_HEIGHT = some start) →
    (sponsoredIn u start tr : Int) ≤ largestLimit u start tr)
  ∧ ∀ e ∈ tr, sponsored u e = true → limitOf e.before.storage ≠ 0

/-- The transfer of `u` finds its term run out while the limit is zero. -/
def RollsOverAtZero (u : Address) (e : Receipt) : Prop :=
  isTransferBy u e = true ∧ limitOf e.before.storage = 0
    ∧ ∃ start, e.before.storage.whitelist u START_HEIGHT = some start
      ∧ start + TERM_LENGTH ≤ e.now

theorem Effect.limit_nonneg {now : Int} {s s' : Storage} {c : Address} {m : Method}
    {evs : List Event} {fee : Int} (h : 0 ≤ limitOf s)
    (he : Effect now s c m s' evs fee) : 0 ≤ limitOf s' := by
  cases he with
  | changeFreeDailyTxLimit _ hn => simpa [limitOf] using hn
  | _ => exact h

theorem Fresh.limit_nonneg {s : Storage} (h : Fresh s) : 0 ≤ limitOf s := by
  simp [limitOf, h.limit]

section

variable {s₀ s : Storage} {tr : List Receipt} {u : Address} {e : Receipt}

theorem History.item_of_sponsored (h : History s₀ tr s) (hw : Records s₀)
    (he : e ∈ tr) (hs : sponsored u e = true) :
    ∃ i, quotaItem u e = some i ∧ i.granted TERM_LENGTH = true
      ∧ e.after.storage.whitelist u START_HEIGHT = some (i.term TERM_LENGTH).start := by
  obtain ⟨evs, heff, -⟩ := h.effect e he
  have hquota := Effect.quota (u := u) heff ((h.records hw).2 e he)
  cases hi : quotaItem u e with
  | none =>
      rw [hi] at hquota
      simp [hquota.2] at hs
  | some i =>
      rw [hi] at hquota
      exact ⟨i, rfl, hquota.2 ▸ hs, FeeSharing.start_of_term hquota.1⟩

/-- A term's sponsored transfers are the limiter's grants of that term. -/
theorem History.sponsoredIn_le_grants (h : History s₀ tr s) (hf : Fresh s₀)
    {start : Int}
    (hd : ∃ d ∈ tr, d.after.storage.whitelist u START_HEIGHT = some start) :
    sponsoredIn u start tr ≤ grants TERM_LENGTH start (quotaLog u tr) := by
  obtain ⟨d, hd, hds⟩ := hd
  rw [grants, quotaLog, List.countP_filterMap]
  refine List.countP_mono_left ?_
  intro e he hp
  simp only [Bool.and_eq_true, decide_eq_true_eq] at hp
  obtain ⟨hs, hlo, hhi⟩ := hp
  obtain ⟨i, hi, hg, hes⟩ := h.item_of_sponsored hf.records he hs
  have hin := (Item.move_of_granted hg).lt_end TERM_LENGTH_pos
  rw [now_of_quotaItem hi] at hin
  have hle := h.start_le_now hf he hes
  have hapart := h.start_apart hf hd he hds hes
  have heq : (i.term TERM_LENGTH).start = start := by omega
  simp [hi, hg, heq]

/-- A transfer that rolls its term over is sponsored, whatever the limit. -/
theorem History.sponsored_of_rollsOver (h : History s₀ tr s) (hw : Records s₀)
    (he : e ∈ tr) (ht : isTransferBy u e = true) {start : Int}
    (hs : e.before.storage.whitelist u START_HEIGHT = some start)
    (hend : start + TERM_LENGTH ≤ e.now) : sponsored u e = true := by
  rw [h.sponsored_eq hw u e he, quotaItem_of_transfer ht]
  exact Item.granted_of_rollsOver ⟨_, FeeSharing.term_of_start hs, hend⟩ rfl

/-- Where no term is rolled over at limit zero, a roll-over happens under a
positive limit. -/
theorem History.limit_pos_of_rollsOver (h : History s₀ tr s) (hf : Fresh s₀)
    (hno : ∀ e ∈ tr, ¬ RollsOverAtZero u e) :
    ∀ i ∈ quotaLog u tr, ∀ limit, i.op = .charge limit → i.RollsOver TERM_LENGTH →
      0 < limit := by
  rintro i hi limit hop ⟨t, hp, hend⟩
  obtain ⟨e, he, hei⟩ := List.mem_filterMap.mp hi
  obtain ⟨ht, rfl⟩ := limit_of_quotaItem hei hop
  have hnonneg := ((h.invariant Effect.limit_nonneg hf.limit_nonneg).2 e he).1
  rw [prior_of_quotaItem hei] at hp
  rw [now_of_quotaItem hei] at hend
  by_contra hle
  exact hno e he ⟨ht, by omega, t.start, FeeSharing.start_of_term hp, hend⟩

theorem largestLimit_nonneg (u : Address) (start : Int) (tr : List Receipt) :
    0 ≤ largestLimit u start tr := nonneg_foldr_max _

theorem limitOf_le_largestLimit {start : Int} (he : e ∈ tr)
    (hin : inTerm u start e = true) :
    limitOf e.before.storage ≤ largestLimit u start tr :=
  le_foldr_max (List.mem_map_of_mem (mem_stretch he hin))

/-- The limit at the last of a term's grants bounds them all. -/
theorem History.sponsoredIn_le_largestLimit (h : History s₀ tr s) (hf : Fresh s₀)
    (hno : ∀ e ∈ tr, ¬ RollsOverAtZero u e) {start : Int}
    (hd : ∃ d ∈ tr, d.after.storage.whitelist u START_HEIGHT = some start) :
    (sponsoredIn u start tr : Int) ≤ largestLimit u start tr := by
  have hle := h.sponsoredIn_le_grants hf hd
  rcases Nat.eq_zero_or_pos (grants TERM_LENGTH start (quotaLog u tr)) with hz | hpos
  · have := largestLimit_nonneg u start tr
    omega
  · have hlog := h.log_of_fresh hf u
    obtain ⟨i, hi, hg, hst, limit, hop, hlim⟩ := hlog.limit_of_granted TERM_LENGTH_pos
      (h.limit_pos_of_rollsOver hf hno) hpos
    obtain ⟨e, he, hei⟩ := List.mem_filterMap.mp hi
    obtain ⟨ht, rfl⟩ := limit_of_quotaItem hei hop
    have hlo := hlog.start_le_now i hi
    have hhi := (Item.move_of_granted hg).lt_end TERM_LENGTH_pos
    rw [hst, now_of_quotaItem hei] at hlo hhi
    have hin : inTerm u start e = true := by simp [inTerm, ht, hlo, hhi]
    have := limitOf_le_largestLimit he hin
    omega

theorem History.limit_pos_of_sponsored (h : History s₀ tr s) (hf : Fresh s₀)
    (hno : ∀ e ∈ tr, ¬ RollsOverAtZero u e) (he : e ∈ tr) (hs : sponsored u e = true) :
    0 < limitOf e.before.storage := by
  obtain ⟨i, hi, hg, -⟩ := h.item_of_sponsored hf.records he hs
  have hmem : i ∈ quotaLog u tr := List.mem_filterMap.mpr ⟨e, he, hi⟩
  rw [quotaItem_of_transfer (isTransferBy_of_sponsored hs)] at hi
  obtain rfl := Option.some.inj hi
  rcases Item.limit_pos_of_granted hg rfl with hpos | hover
  · exact hpos
  · exact h.limit_pos_of_rollsOver hf hno _ hmem _ rfl hover

/-- **The limit is enforced exactly where no term is rolled over at limit
zero.** In every run and for every account, the limit is enforced on its
transfers if and only if none of them found its term run out while the
limit was zero. -/
theorem limitEnforced_iff {c : Network} (h : Reachable c) (u : Address) :
    LimitEnforced u c.cur.trace ↔ ∀ e ∈ c.cur.trace, ¬ RollsOverAtZero u e := by
  obtain ⟨s₀, hf, hist, -⟩ := h.history
  constructor
  · rintro ⟨-, hzero⟩ e he ⟨ht, hl, start, hs, hend⟩
    exact hzero e he (hist.sponsored_of_rollsOver hf.records he ht hs hend) hl
  · intro hno
    refine ⟨?_, ?_⟩
    · intro start hd
      exact hist.sponsoredIn_le_largestLimit hf hno hd
    · intro e he hs
      exact (hist.limit_pos_of_sponsored hf hno he hs).ne'

end

theorem limitEnforced_paid : LimitEnforced Sample.holder Sample.paid.cur.trace := by
  refine (limitEnforced_iff Sample.paid_reachable Sample.holder).mpr ?_
  have hlimit : ∀ e ∈ Sample.paid.cur.trace, limitOf e.before.storage ≠ 0 := by decide
  exact fun e he hroll => hlimit e he hroll.2.1

/-- With the limit at zero, a transfer made once its sender's term has run
out is sponsored all the same. -/
theorem not_limitEnforced : ¬ ∀ c, Reachable c → ∀ u, LimitEnforced u c.cur.trace := by
  intro h
  have hlimit := (h _ (Sample.closed_reachable.run
    (calls [⟨Sample.holder, .transfer Sample.payee 1 none⟩])) Sample.holder).2
  exact absurd hlimit (by decide)

end StableCoin
